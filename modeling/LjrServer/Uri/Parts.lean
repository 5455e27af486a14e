/-
  LjrServer.Uri.Parts — an absolute URI with an authority, and what is executed on its bytes.

  Proved:
  - `render_final`: the grammar accepts it.
  - `userinfo_actsOn`, `colon_actsOn`, …: the actions on a byte, by the part it is in.
  - `boundary_actsOn`, `hier_eofActs`: what the end of the path executes, whatever ends it.
-/

import LjrServer.Uri.Text

namespace LjrServer.UriParser

open LjrServer.Lib.Ragel LjrServer.Lib.Ragel.Machine
open LjrServer.Http (Bytes digits)

structure Parts where
  scheme : Bytes
  userinfo : Option Bytes
  host : Bytes
  port : Option Bytes
  path : Bytes
  query : Option Bytes
  fragment : Option Bytes
  scheme_ok : accepts schemeName scheme = true
  userinfo_ok : ∀ u ∈ userinfo, accepts UriParser.userinfo u = true
  host_ok : accepts UriParser.host host = true
  port_ok : ∀ d ∈ port, accepts UriParser.port d = true ∧ digits 10 0 d ≤ 65535
  path_ok : accepts pathAbempty path = true
  query_ok : ∀ q ∈ query, accepts queryText q = true
  fragment_ok : ∀ f ∈ fragment, accepts queryText f = true

namespace Parts

def authorityText (t : Parts) : Bytes := userinfoText t.userinfo ++ (t.host ++ portText t.port)

/-- `scheme "://" authority path ("?" query)? ("#" fragment)?` -/
def render (t : Parts) : Bytes :=
  t.scheme ++ 58 :: 47 :: 47 :: (t.authorityText ++ (t.path ++ (optText 63 t.query ++ optText 35 t.fragment)))

def uri (t : Parts) : Uri :=
  { scheme := t.scheme
    userinfo := t.userinfo.getD []
    host := t.host
    port := digits 10 0 (t.port.getD [])
    path := t.path
    query := t.query.getD []
    fragment := t.fragment.getD [] }

end Parts

/-! ## Behind the scheme and the slashes -/

def behind (scheme v : Bytes) : Bytes := scheme ++ 58 :: 47 :: 47 :: v

theorem behind_append (scheme v x : Bytes) : behind scheme v ++ x = behind scheme (v ++ x) := by simp [behind]

theorem uriReference_prioFree : uriReference.prioFree = true := by decide

section
variable {scheme text v w r : Bytes} {c : UInt8} (hs : schemeName.Final scheme)
include hs

theorem actsOn_behind {K : List (Nat × Action)} (hK : K.Pairwise (·.1 < ·.1))
    (h : ∀ z, afterScheme.Acts (47 :: 47 :: v) c z ↔ z ∈ K) :
        actsOn uriReference (behind scheme v) c = firsts (K.map (·.2)) :=
  actsOn_eq uriReference_prioFree hK fun z => (uriReference_acts_after hs).trans (h z)

theorem eofActs_behind {K : List (Nat × Action)} (hK : K.Pairwise (·.1 < ·.1))
    (h : ∀ z, afterScheme.Pending (47 :: 47 :: v) z ↔ z ∈ K) :
    eofActs (reached [uriReference] (behind scheme v)) = firsts (K.map (·.2)) :=
  eofActs_eq uriReference_prioFree hK fun z => (uriReference_pending_after hs).trans (h z)

end

/-! ## What is executed -/

namespace Parts

variable (t : Parts)

theorem scheme_final : schemeName.Final t.scheme := (accepts_iff (by decide)).mp t.scheme_ok

theorem userinfo_final : ∀ u ∈ t.userinfo, UriParser.userinfo.Final u := fun u hu =>
  (accepts_iff (by decide)).mp (t.userinfo_ok u hu)

theorem host_final : UriParser.host.Final t.host := (accepts_iff (by decide)).mp t.host_ok

theorem port_final : ∀ d ∈ t.port, UriParser.port.Final d := fun d hd => (accepts_iff (by decide)).mp (t.port_ok d hd).1

theorem path_final : pathAbempty.Final t.path := (accepts_iff (by decide)).mp t.path_ok

theorem query_final : ∀ q ∈ t.query, queryText.Final q := fun q hq => (accepts_iff (by decide)).mp (t.query_ok q hq)

theorem fragment_final : ∀ f ∈ t.fragment, queryText.Final f := fun f hf =>
  (accepts_iff (by decide)).mp (t.fragment_ok f hf)

theorem authorityText_final : (authority 2).Final t.authorityText :=
  authority_final t.userinfo_final (hostPort_final t.host_final t.port_final)

theorem render_final : uriReference.Final t.render := by
  have htail := tail_final t.query_final t.fragment_final
  have hafter := afterScheme_final t.authorityText_final t.path_final htail
  rw [List.cons_append, List.cons_append, List.append_assoc] at hafter
  exact uriReference_final t.scheme_final hafter

variable {t} {v u r d p : Bytes} {c : UInt8}

theorem authority_actsOn {K : List (Nat × Action)} (hw : t.authorityText = v ++ c :: r) (hK : K.Pairwise (·.1 < ·.1))
    (h : ∀ z, (authority 2).Acts v c z ↔ z ∈ K) : actsOn uriReference (behind t.scheme v) c = firsts (K.map (·.2)) :=
  actsOn_behind t.scheme_final hK fun z => (afterScheme_authority t.authorityText_final hw).trans (h z)

theorem userinfo_actsOn (hu : t.userinfo = some u) (hw : u = v ++ c :: r) : actsOn uriReference (behind t.scheme v) c =
    (if v = [] then [.markh] else []) ++ ((if c = 58 ∧ (58 : UInt8) ∉ v then [.saveHost] else []) ++
      (if EndsAtColon v ∧ IsDigit c then [.markh] else [])) := by
  have hend : v = [] → ¬ EndsAtColon v := by
    rintro rfl
    decide
  have hsorted : (userinfoActs v c).Pairwise (·.1 < ·.1) := by
    unfold userinfoActs
    split <;> split <;> split <;> decide
  have htext : t.authorityText = v ++ c :: (r ++ 64 :: (t.host ++ portText t.port)) := by
    simp [authorityText, hu, hw, userinfoText]
  rw [authority_actsOn htext hsorted fun z => authority_userinfo (t.userinfo_final u hu) hw]
  unfold userinfoActs
  split
  · rename_i hv
    have hnot : ¬ (EndsAtColon v ∧ IsDigit c) := fun h => hend hv h.1
    rw [if_neg hnot]
    split <;> rfl
  · split <;> split <;> rfl

theorem at_actsOn (hu : t.userinfo = some u) :
    actsOn uriReference (behind t.scheme u) 64 = (if u = [] then [.markh] else []) ++ [.saveUserinfo] := by
  have htext : t.authorityText = u ++ 64 :: (t.host ++ portText t.port) := by
    simp [authorityText, hu, userinfoText]
  rw [authority_actsOn htext (by split <;> decide) fun z => authority_at (t.userinfo_final u hu)]
  split <;> rfl

theorem firstActs_list (o : Option Bytes) :
    (firstActs o).Pairwise (·.1 < ·.1) ∧ firsts ((firstActs o).map (·.2)) = [.markh] := by
  cases o <;> simp [firstActs, firsts]

theorem host_actsOn (hw : t.host = v ++ c :: r) :
    actsOn uriReference (behind t.scheme (userinfoText t.userinfo ++ v)) c = if v = [] then [.markh] else [] := by
  have htext : t.authorityText = userinfoText t.userinfo ++ v ++ c :: (r ++ portText t.port) := by
    simp [authorityText, hw]
  have hfirst := firstActs_list t.userinfo
  rw [authority_actsOn htext (by split <;> simp [hfirst]) fun z => authority_host t.userinfo_final t.host_final hw]
  split
  · exact hfirst.2
  · rfl

theorem colon_actsOn (hd : t.port = some d) :
    actsOn uriReference (behind t.scheme (userinfoText t.userinfo ++ t.host)) 58 =
    (if t.host = [] then [.markh] else []) ++ [.saveHost] := by
  have htext : t.authorityText = userinfoText t.userinfo ++ t.host ++ 58 :: d := by
    simp [authorityText, hd, portText]
  rw [authority_actsOn htext _ fun z => authority_colon t.userinfo_final t.host_final]
  · cases t.userinfo <;> split <;> rfl
  · cases t.userinfo <;> split <;> simp [firstActs]

theorem port_actsOn (hd : t.port = some d) (hw : d = v ++ c :: r) :
    actsOn uriReference (behind t.scheme (userinfoText t.userinfo ++ (t.host ++ 58 :: v))) c =
      if v = [] then [.markh] else [] := by
  have htext : t.authorityText = userinfoText t.userinfo ++ (t.host ++ 58 :: v) ++ c :: r := by
    simp [authorityText, hd, hw, portText]
  rw [authority_actsOn htext (by split <;> decide) fun z =>
    authority_port t.userinfo_final t.host_final t.port_final hd hw]
  split <;> rfl

/-! ### The end of the authority -/

variable (t) in
/-- Pending behind the host or the port. -/
def endActs : List Action :=
  match t.port with
  | none => (if t.host = [] then [.markh] else []) ++ [.saveHost]
  | some d => (if d = [] then [.markh] else []) ++ [.savePort]

variable (t) in
def endPending : List (Nat × Action) :=
  (if t.userinfo = none ∧ t.host ++ portText t.port = [] then [(2, .markh)] else []) ++ pendingActs t.host t.port

theorem endPending_firsts (L : List (Nat × Action)) :
    firsts ((t.endPending ++ L).map (·.2)) = firsts (t.endActs ++ L.map (·.2)) := by
  unfold endPending endActs
  cases t.port with
  | none =>
    by_cases hh : t.host = []
    · by_cases ho : t.userinfo = none <;> simp [hh, ho, portText, pendingActs, firsts_twice]
    · simp [hh, portText, pendingActs]
  | some d => by_cases hd : d = [] <;> simp [hd, portText, pendingActs]

theorem endPending_sorted {L : List (Nat × Action)} (hL : L.Pairwise (·.1 < ·.1)) (h8 : ∀ z ∈ L, 8 ≤ z.1) :
    (t.endPending ++ L).Pairwise (·.1 < ·.1) := by
  have hown : t.endPending.Pairwise (·.1 < ·.1) ∧ ∀ z ∈ t.endPending, z.1 < 8 := by
    unfold endPending
    cases t.port with
    | none =>
      by_cases hh : t.host = []
      · by_cases ho : t.userinfo = none <;> simp [hh, ho, portText, pendingActs]
      · simp [hh, portText, pendingActs]
    | some d => by_cases hd : d = [] <;> simp [hd, portText, pendingActs]
  refine List.pairwise_append.mpr ⟨hown.1, hL, fun x hx y hy => ?_⟩
  exact Nat.lt_of_lt_of_le (hown.2 x hx) (h8 y hy)

theorem slash_actsOn (hp : t.path = 47 :: p) :
    actsOn uriReference (behind t.scheme t.authorityText) 47 = firsts (t.endActs ++ [.markh]) := by
  have hsorted : List.Pairwise (·.1 < ·.1) (t.endPending ++ [(8, .markh)]) := endPending_sorted (by simp) (by simp)
  rw [actsOn_behind t.scheme_final hsorted, endPending_firsts]
  · rfl
  · intro z
    rw [afterScheme_path t.authorityText_final (hp ▸ t.path_final), List.mem_append, List.mem_singleton]
    exact or_congr (authority_end t.userinfo_final t.host_final t.port_final) Iff.rfl

theorem segment_actsOn (hw : t.path = v ++ c :: r) (hv : v ≠ []) :
    actsOn uriReference (behind t.scheme (t.authorityText ++ v)) c = [] :=
  actsOn_behind t.scheme_final (K := []) (by simp) fun z => by
    simpa using afterScheme_segments t.authorityText_final t.path_final hw hv

variable (t) in
/-- Pending behind the path. -/
def hierActs : List Action := if t.path = [] then firsts (t.endActs ++ [.markh, .savePath]) else [.savePath]

variable (t) in
def hierPending : List (Nat × Action) := (if t.path = [] then t.endPending ++ [(8, .markh)] else []) ++ [(9, .savePath)]

theorem hierPart_pending_eq {z : Nat × Action} :
    (hierPart 2).Pending (47 :: 47 :: (t.authorityText ++ t.path)) z ↔ z ∈ t.hierPending := by
  have hend := authority_end (z := z) t.userinfo_final t.host_final t.port_final
  rw [hierPart_pending t.authorityText_final t.path_final]
  have hend' : (authority 2).Pending t.authorityText z ↔ z ∈ t.endPending := hend
  rw [hend']
  unfold hierPending
  split <;> simp_all [or_assoc]

theorem hierPending_sorted : t.hierPending.Pairwise (·.1 < ·.1) := by
  unfold hierPending
  split
  · rw [List.append_assoc]
    exact endPending_sorted (by simp) (by simp)
  · simp

theorem hierPending_firsts : firsts (t.hierPending.map (·.2)) = t.hierActs := by
  unfold hierPending hierActs
  split
  · rw [List.append_assoc, endPending_firsts]
    rfl
  · rfl

theorem boundary_actsOn (hc : c = 63 ∨ c = 35) :
    actsOn uriReference (behind t.scheme (t.authorityText ++ t.path)) c = t.hierActs := by
  rw [← hierPending_firsts]
  exact actsOn_behind t.scheme_final hierPending_sorted fun z =>
    (afterScheme_boundary t.authorityText_final t.path_final hc).trans hierPart_pending_eq

theorem hier_eofActs :
    eofActs (reached [uriReference] (behind t.scheme (t.authorityText ++ t.path))) = t.hierActs := by
  have hnone : ∀ z, ¬ tail.Pending [] z := fun z hz => by
    have hempty := (tail_pending (q := none) (f := none) (z := z) (by simp) (by simp)).mp hz
    simp [savedActs] at hempty
  rw [← hierPending_firsts]
  refine eofActs_behind t.scheme_final hierPending_sorted fun z => ?_
  have hpending := afterScheme_pending (t := []) (z := z) t.authorityText_final t.path_final (by simp)
  rw [List.append_nil, or_iff_left (hnone z), and_iff_right rfl] at hpending
  exact hpending.trans hierPart_pending_eq

/-! ### The query and the fragment -/

theorem tail_actsOn {x : Bytes} {K : List (Nat × Action)} (hx : x ≠ []) (hhead : ∀ d ∈ x.head?, d = 63 ∨ d = 35)
    (hK : K.Pairwise (·.1 < ·.1)) (h : ∀ z, tail.Acts x c z ↔ z ∈ K) :
    actsOn uriReference (behind t.scheme (t.authorityText ++ t.path ++ x)) c = firsts (K.map (·.2)) :=
  actsOn_behind t.scheme_final hK fun z => (afterScheme_tail t.authorityText_final t.path_final hx hhead).trans (h z)

theorem query_actsOn {q : Bytes} (hq : t.query = some q) (hw : q = v ++ c :: r) :
    actsOn uriReference (behind t.scheme (t.authorityText ++ t.path ++ 63 :: v)) c =
        if v = [] then [.marku] else [] := by
  have hacts := fun z => tail_acts_query (z := z) t.query_final hq hw
  by_cases hv : v = []
  · rw [if_pos hv]
    exact tail_actsOn (K := [(10, .marku)]) (by simp) (by simp) (by simp) fun z => (hacts z).trans (by simp [hv])
  · rw [if_neg hv]
    exact tail_actsOn (K := []) (by simp) (by simp) (by simp) fun z => (hacts z).trans (by simp [hv])

/-- Pending behind a query or a fragment. -/
def saveActs (save : Action) (x : Bytes) : List Action := (if x = [] then [.marku] else []) ++ [save]

theorem savedActs_list (n : Nat) (save : Action) (hsave : save ≠ .marku) (x : Bytes) :
    (savedActs n save (some x)).Pairwise (·.1 < ·.1) ∧
      firsts ((savedActs n save (some x)).map (·.2)) = saveActs save x := by
  by_cases hx : x = [] <;> simp [savedActs, saveActs, hx, firsts, hsave]

theorem hash_actsOn {q : Bytes} (hq : t.query = some q) :
    actsOn uriReference (behind t.scheme (t.authorityText ++ t.path ++ 63 :: q)) 35 = saveActs .saveQuery q := by
  have hlist := savedActs_list 10 .saveQuery (by decide) q
  have hacts := fun z => tail_acts_hash (z := z) t.query_final
  rw [hq] at hacts
  exact (tail_actsOn (by simp [optText]) (by simp [optText]) hlist.1 hacts).trans hlist.2

theorem fragment_actsOn {f : Bytes} (hf : t.fragment = some f) (hw : f = v ++ c :: r) :
    actsOn uriReference (behind t.scheme (t.authorityText ++ t.path ++ (optText 63 t.query ++ 35 :: v))) c =
      if v = [] then [.marku] else [] := by
  have hhead : ∀ d ∈ (optText 63 t.query ++ 35 :: v).head?, d = 63 ∨ d = 35 := by
    cases t.query <;> simp [optText]
  have hacts := fun z => tail_acts_fragment (z := z) t.query_final t.fragment_final hf hw
  by_cases hv : v = []
  · rw [if_pos hv]
    exact tail_actsOn (K := [(12, .marku)]) (by simp) hhead (by simp) fun z => (hacts z).trans (by simp [hv])
  · rw [if_neg hv]
    exact tail_actsOn (K := []) (by simp) hhead (by simp) fun z => (hacts z).trans (by simp [hv])

theorem tail_eofActs {K : List (Nat × Action)} (hx : optText 63 t.query ++ optText 35 t.fragment ≠ [])
    (hK : K.Pairwise (·.1 < ·.1)) (h : ∀ z, tail.Pending (optText 63 t.query ++ optText 35 t.fragment) z ↔ z ∈ K) :
    eofActs (reached [uriReference]
      (behind t.scheme (t.authorityText ++ t.path ++ (optText 63 t.query ++ optText 35 t.fragment)))) =
          firsts (K.map (·.2)) := by
  have hhead : ∀ d ∈ (optText 63 t.query ++ optText 35 t.fragment).head?, d = 63 ∨ d = 35 := by
    cases t.query <;> cases t.fragment <;> simp [optText]
  refine eofActs_behind t.scheme_final hK fun z => ?_
  refine (afterScheme_pending t.authorityText_final t.path_final hhead).trans ?_
  rw [or_iff_right fun he => hx he.1]
  exact h z

theorem query_eofActs {q : Bytes} (hq : t.query = some q) (hf : t.fragment = none) :
    eofActs (reached [uriReference] (behind t.scheme (t.authorityText ++ t.path ++ 63 :: q))) =
        saveActs .saveQuery q := by
  have hlist := savedActs_list 10 .saveQuery (by decide) q
  have heof := tail_eofActs (t := t) (by simp [hq, optText]) hlist.1 fun z => by
    rw [tail_pending t.query_final t.fragment_final, if_pos hf, hf, hq]
    simp [savedActs]
  simpa [hq, hf, optText, hlist.2] using heof

theorem fragment_eofActs {f : Bytes} (hf : t.fragment = some f) :
    eofActs (reached [uriReference] (behind t.scheme (t.authorityText ++ t.path ++ (optText 63 t.query ++ 35 :: f)))) =
      saveActs .saveFragment f := by
  have hlist := savedActs_list 12 .saveFragment (by decide) f
  have heof := tail_eofActs (t := t) (by simp [hf, optText]) hlist.1 fun z => by
    rw [tail_pending t.query_final t.fragment_final, hf]
    simp
  simpa [hf, optText, hlist.2] using heof

end Parts

end LjrServer.UriParser
