/-
  LjrServer.Uri.Create — `Uri::Create` (uri.rl) on the grammar's machine.

  The actions share one pointer, `mark`. Some test it for null; the others make a string
  from it, which throws when it is null.

  Proved:
  - `scan_work`: on a text the grammar accepts, the result is what the actions of its bytes
    make, one after another.
-/

import LjrServer.Lib.RagelWords
import LjrServer.Http.Message
import LjrServer.Uri.Machine

namespace LjrServer.UriParser

open LjrServer.Lib.Ragel LjrServer.Lib.Ragel.Machine
open LjrServer.Http (Bytes atoi)

structure Uri where
  scheme : Bytes := []
  userinfo : Bytes := []
  host : Bytes := []
  path : Bytes := []
  query : Bytes := []
  fragment : Bytes := []
  port : Int := 0
  deriving DecidableEq, Repr

/-- The object and `mark`, an offset into the text; none is null. -/
structure Building where
  uri : Uri := {}
  mark : Option Nat := none
  deriving DecidableEq, Repr

inductive Created where
  | thrown
  | null
  | made (uri : Uri)
  deriving DecidableEq, Repr

/-- `std::string(mark, fpc - mark)` -/
def slice (text : Bytes) (mark fpc : Nat) : Bytes := (text.drop mark).take (fpc - mark)

namespace Building

/-- An action at `fpc`; none is an exception. -/
def perform (text : Bytes) (fpc : Nat) (s : Building) : Action → Option Building
  | .marku => some { s with mark := some fpc }
  | .markh => some { s with mark := some fpc }
  | .saveScheme => s.mark.map fun mark => ⟨{ s.uri with scheme := slice text mark fpc }, none⟩
  | .savePort =>
    match s.mark with
    | none => none
    | some mark => some ⟨if fpc ≠ mark then { s.uri with port := atoi (text.drop mark) } else s.uri, none⟩
  | .saveUserinfo =>
    match s.mark with
    | none => some s
    | some mark => some ⟨{ s.uri with userinfo := slice text mark fpc }, none⟩
  | .saveHost =>
    match s.mark with
    | none => some s
    | some mark => some ⟨{ s.uri with host := slice text mark fpc }, some mark⟩
  | .savePath => s.mark.map fun mark => ⟨{ s.uri with path := slice text mark fpc }, none⟩
  | .saveQuery => s.mark.map fun mark => ⟨{ s.uri with query := slice text mark fpc }, none⟩
  | .saveFragment => s.mark.map fun mark => ⟨{ s.uri with fragment := slice text mark fpc }, none⟩

def exec (text : Bytes) (fpc : Nat) (s : Building) (as : List Action) :
    Option Building := as.foldlM (perform text fpc) s

end Building

/-- `write exec` from one byte on. -/
def scan (text : Bytes) : Bytes → Nat → Threads Action → Building → Created
  | [], p, cs, s =>
    if isFinal cs then
      match s.exec text p (eofActs cs) with
      | none => .thrown
      | some s => .made s.uri
    else .null
  | b :: bs, p, cs, s =>
    if (step cs b.toNat).1 = [] then .null
    else
      match s.exec text p (step cs b.toNat).2 with
      | none => .thrown
      | some s => scan text bs (p + 1) (step cs b.toNat).1 s

def create (text : Bytes) : Created := scan text text 0 [uriReference] {}

/-! ## By the bytes read -/

section
variable (m : M) (text : Bytes)

/-- The actions on a byte after a word. -/
def actsOn (w : Bytes) (c : UInt8) : List Action := (step (reached [m] w) c.toNat).2

/-- What the actions make of the rest of a text. -/
def work : Bytes → Bytes → Building → Option Building
  | w, [], s => s.exec text w.length (eofActs (reached [m] w))
  | w, c :: r, s => (s.exec text w.length (actsOn m w c)).bind (work (w ++ [c]) r)

def Created.ofWork : Option Building → Created
  | none => .thrown
  | some s => .made s.uri

variable {m text} {w x r : Bytes} {s : Building}

theorem scan_work (hm : m.prioFree = true) (hf : m.Final (w ++ r)) :
    scan text r w.length (reached [m] w) s = .ofWork (work m text w r s) := by
  have hm' : ∀ n ∈ [m], n.prioFree = true := List.forall_mem_singleton.mpr hm
  induction r generalizing w s with
  | nil =>
    rw [List.append_nil] at hf
    have hfinal : isFinal (reached [m] w) = true := (accepts_iff hm).mpr hf
    rw [scan, if_pos hfinal, work]
    cases s.exec text w.length (eofActs (reached [m] w)) <;> rfl
  | cons c r ih =>
    have halive : (step (reached [m] w) c.toNat).1 ≠ [] :=
      (step_alive (unranked_of_prioFree hm')).mpr ⟨m, List.mem_singleton_self m, alive_of_after hf⟩
    have hnext : (step (reached [m] w) c.toNat).1 = reached [m] (w ++ [c]) := by
      rw [reached_append]
      rfl
    have hlen : w.length + 1 = (w ++ [c]).length := by simp
    rw [scan, if_neg halive, work, actsOn, hnext, hlen]
    cases s.exec text w.length (step (reached [m] w) c.toNat).2 with
    | none => rfl
    | some s => exact ih (by simpa using hf)

theorem actsOn_eq (hm : m.prioFree = true) {c : UInt8} {K : List (Nat × Action)} (hK : K.Pairwise (·.1 < ·.1))
    (h : ∀ z, m.Acts w c z ↔ z ∈ K) : actsOn m w c = firsts (K.map (·.2)) :=
  step_acts (unranked_of_prioFree (List.forall_mem_singleton.mpr hm)) hK fun z => by simpa using h z

theorem eofActs_eq (hm : m.prioFree = true) {K : List (Nat × Action)} (hK : K.Pairwise (·.1 < ·.1))
    (h : ∀ z, m.Pending w z ↔ z ∈ K) : eofActs (reached [m] w) = firsts (K.map (·.2)) :=
  eof_acts (unranked_of_prioFree (List.forall_mem_singleton.mpr hm)) hK fun z => by simpa using h z

/-- Bytes without actions. -/
theorem work_quiet (h : ∀ v c u, x = v ++ c :: u → actsOn m (w ++ v) c = []) :
    work m text w (x ++ r) s = work m text (w ++ x) r s := by
  induction x generalizing w with
  | nil => rw [List.nil_append, List.append_nil]
  | cons c x ih =>
    have hc : actsOn m w c = [] := by simpa using h [] c x rfl
    rw [List.cons_append, work, hc]
    show work m text (w ++ [c]) (x ++ r) s = work m text (w ++ c :: x) r s
    rw [ih, List.append_assoc, List.singleton_append]
    intro v d u hx
    rw [List.append_assoc, List.singleton_append]
    exact h (c :: v) d u (by rw [hx, List.cons_append])

end

end LjrServer.UriParser
