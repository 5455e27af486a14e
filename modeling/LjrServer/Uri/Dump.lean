/-
  LjrServer.Uri.Dump — `Uri::dump`, and reading back what it printed.

  `dump` leaves out a port that is the scheme's own, and prints "/" for an empty path. What
  `Create` makes of a text has as its userinfo only what stands behind the first ':' when a digit
  follows it; where the rest is of that form again, reading it back cuts it once more.

  Proved:
  - `dump_render`: what `dump` prints of a URI that `Create` made of an absolute one, with an
    authority and a port in range, is such a URI again.
  - `read_back_iff`: it is read back as the same URI, up to the port and the path that the getters
    supply, and prints the same, exactly when no digit follows the first ':' of the userinfo.
-/

import LjrServer.Http.Dump
import LjrServer.Uri.Components

namespace LjrServer.UriParser

open LjrServer.Lib.Ragel LjrServer.Lib.Ragel.Machine
open LjrServer.Http (Bytes bytes digits decimal marked decimal_digit decimal_ne_nil digits_decimal)

/-- `std::to_string` -/
def to_string (n : Int) : Bytes := if n < 0 then 45 :: decimal n.natAbs else decimal n.natAbs

namespace Uri

def HTTP : Bytes := bytes ['h', 't', 't', 'p']
def HTTPS : Bytes := bytes ['h', 't', 't', 'p', 's']

def isDefaultPort (u : Uri) : Bool :=
  if u.port = 0 then true
  else if u.scheme = HTTP then u.port = 80
  else if u.scheme = HTTPS then u.port = 443
  else false

def getPath (u : Uri) : Bytes := if u.path = [] then [47] else u.path

def getPort (u : Uri) : Int :=
  if u.port ≠ 0 then u.port
  else if u.scheme = HTTP then 80
  else if u.scheme = HTTPS then 443
  else u.port

def dump (u : Uri) : Bytes :=
  u.scheme ++ ([58, 47, 47] ++ (u.userinfo ++ ((if u.userinfo = [] then [] else [64]) ++ (u.host ++
    ((if u.isDefaultPort then [] else 58 :: to_string u.port) ++
      (u.getPath ++ (marked 63 u.query ++ marked 35 u.fragment)))))))

/-- As it is printed. -/
def canonical (u : Uri) : Uri := { u with port := if u.isDefaultPort then 0 else u.port, path := u.getPath }

/-- The same to all who ask. -/
structure Same (u v : Uri) : Prop where
  scheme : v.scheme = u.scheme
  userinfo : v.userinfo = u.userinfo
  host : v.host = u.host
  query : v.query = u.query
  fragment : v.fragment = u.fragment
  port : v.getPort = u.getPort
  path : v.getPath = u.getPath

/-- What was printed is read as the same URI, which prints the same. -/
def ReadsBack (u : Uri) : Prop := ∃ v, create u.dump = .made v ∧ Same u v ∧ v.dump = u.dump

theorem canonical_path (u : Uri) : u.canonical.getPath = u.getPath := by
  have hne : u.getPath ≠ [] := by
    unfold getPath
    split
    · exact List.cons_ne_nil _ _
    · assumption
  exact if_neg hne

theorem canonical_default (u : Uri) : u.canonical.isDefaultPort = u.isDefaultPort := by
  cases h : u.isDefaultPort with
  | true =>
    have hport : u.canonical.port = 0 := if_pos h
    rw [isDefaultPort, if_pos hport]
  | false =>
    have hport : u.canonical.port = u.port := if_neg (Bool.eq_false_iff.mp h)
    rw [← h, isDefaultPort, isDefaultPort, hport]
    rfl

theorem canonical_port (u : Uri) : u.canonical.getPort = u.getPort := by
  have hscheme : u.canonical.scheme = u.scheme := rfl
  have hother : HTTPS ≠ HTTP := by decide
  cases h : u.isDefaultPort with
  | false =>
    have hport : u.canonical.port = u.port := if_neg (Bool.eq_false_iff.mp h)
    rw [getPort, getPort, hport, hscheme]
  | true =>
    have hport : u.canonical.port = 0 := if_pos h
    rw [getPort, getPort, hport, hscheme]
    unfold isDefaultPort at h
    by_cases hzero : u.port = 0
    · rw [hzero]
    · rw [if_neg hzero] at h
      by_cases hhttp : u.scheme = HTTP
      · rw [if_pos hhttp, decide_eq_true_eq] at h
        simp [hhttp, h]
      · rw [if_neg hhttp] at h
        by_cases hhttps : u.scheme = HTTPS
        · rw [if_pos hhttps, decide_eq_true_eq] at h
          simp [hhttps, hother, h]
        · rw [if_neg hhttps] at h
          cases h

theorem canonical_same (u : Uri) : Same u u.canonical :=
  ⟨rfl, rfl, rfl, rfl, rfl, u.canonical_port, u.canonical_path⟩

theorem canonical_dump (u : Uri) : u.canonical.dump = u.dump := by
  unfold dump
  rw [canonical_default, canonical_path]
  cases h : u.isDefaultPort with
  | true => rfl
  | false =>
    have hport : u.canonical.port = u.port := if_neg (Bool.eq_false_iff.mp h)
    rw [hport]
    rfl

end Uri

/-! ## What is printed is a URI -/

/-- Behind any ':' of a userinfo is a userinfo. -/
theorem words_behind_colon {x y t : Bytes} (hw : Words (alts [unreserved, pctEncoded, subDelims, ch ':'] : M).Final t)
    (ht : x ++ 58 :: y = t) : Words (alts [unreserved, pctEncoded, subDelims, ch ':'] : M).Final y := by
  induction hw generalizing x with
  | nil => simp at ht
  | @append p r hp hr ih =>
    rcases List.append_eq_append_iff.mp ht with ⟨q, hq, hy⟩ | ⟨q, rfl, hr'⟩
    · cases q with
      | nil => exact ih (x := []) hy
      | cons d q =>
        cases hy
        -- the piece with the colon is the colon
        have hpiece := userinfo_colon_piece hp (hq ▸ List.mem_append_right _ List.mem_cons_self)
        rw [hq] at hpiece
        cases x with
        | nil =>
          cases hpiece
          exact hr
        | cons e x => simp at hpiece
    · exact ih hr'.symm

theorem userinfo_drop {u : Bytes} (hu : userinfo.Final u) : userinfo.Final (u.drop (passwordAt u)) := by
  have hparts := beforeColon_append u
  unfold passwordAt
  split
  · rename_i e c y hfrom
    split
    · obtain rfl := fromColon_head hfrom
      rw [hfrom] at hparts
      have hdrop : u.drop ((beforeColon u).length + 1) = c :: y := by
        calc u.drop ((beforeColon u).length + 1)
            _ = (beforeColon u ++ 58 :: c :: y).drop ((beforeColon u).length + 1) := by rw [hparts]
            _ = c :: y := by rw [← List.drop_drop, List.drop_left]; rfl
      rw [hdrop]
      exact final_star.mpr (words_behind_colon (final_star.mp hu) hparts)
    · exact hu
  · exact hu

theorem port_final_of_digits {d : Bytes} (hd : ∀ c ∈ d, IsDigit c) : UriParser.port.Final d := by
  refine final_star.mpr ?_
  induction d with
  | nil => exact .nil
  | cons c d ih =>
    obtain ⟨hc, hrest⟩ := List.forall_mem_cons.mp hd
    have hdigit : (digit : M).Final [c] := by
      unfold IsDigit at hc
      simp [Final, After, digit, edges, CharSet.mem, CharSet.within, nullable, hc]
    exact .append (v := [c]) hdigit (ih hrest)

namespace Parts

variable (t : Parts)

/-- What `Create` makes of the text of the parts. -/
def created : Uri := { t.uri with userinfo := (t.userinfo.getD []).drop (passwordAt (t.userinfo.getD [])) }

theorem port_le : digits 10 0 (t.port.getD []) ≤ 65535 := by
  cases h : t.port with
  | none => decide
  | some d => exact (t.port_ok d h).2

theorem created_userinfo : UriParser.userinfo.Final t.created.userinfo := by
  show UriParser.userinfo.Final ((t.userinfo.getD []).drop (passwordAt (t.userinfo.getD [])))
  cases h : t.userinfo with
  | none => exact (accepts_iff (by decide)).mp (by decide)
  | some u => exact userinfo_drop (t.userinfo_final u h)

/-- Nothing where there is nothing to print. -/
def printed (x : Bytes) : Option Bytes := if x = [] then none else some x

theorem mem_printed {x y : Bytes} (h : y ∈ printed x) : y = x := by
  unfold printed at h
  split at h
  · cases h
  · exact (Option.some.inj h).symm

theorem mem_of_printed {o : Option Bytes} {y : Bytes} (h : y ∈ printed (o.getD [])) : y ∈ o := by
  cases o with
  | none => cases h
  | some x => exact congrArg some (mem_printed h).symm

theorem getD_printed (x : Bytes) : (printed x).getD [] = x := by
  unfold printed
  split
  · rename_i h
    exact h.symm
  · rfl

theorem optText_printed (mark : UInt8) (x : Bytes) : optText mark (printed x) = marked mark x := by
  unfold printed marked
  split <;> rfl

theorem userinfoText_printed (x : Bytes) : userinfoText (printed x) = x ++ if x = [] then [] else [64] := by
  unfold printed
  split
  · rename_i h
    rw [h]
    rfl
  · rfl

/-- The parts of what is printed. -/
def redump : Parts where
  scheme := t.scheme
  userinfo := printed t.created.userinfo
  host := t.host
  port := if t.created.isDefaultPort then none else some (decimal (digits 10 0 (t.port.getD [])))
  path := t.created.getPath
  query := printed t.created.query
  fragment := printed t.created.fragment
  scheme_ok := t.scheme_ok
  userinfo_ok := by
    intro x hx
    rw [mem_printed hx]
    exact (accepts_iff (by decide)).mpr t.created_userinfo
  host_ok := t.host_ok
  port_ok := by
    intro d hd
    split at hd
    · cases hd
    · cases Option.some.inj hd
      have hdigits : ∀ c ∈ decimal (digits 10 0 (t.port.getD [])), IsDigit c :=
        fun c hc => digitVal_isSome.mp (decimal_digit hc)
      refine ⟨(accepts_iff (by decide)).mpr (port_final_of_digits hdigits), ?_⟩
      rw [digits_decimal]
      exact t.port_le
  path_ok := by
    unfold Uri.getPath
    split
    · decide
    · exact t.path_ok
  query_ok := fun x hx => t.query_ok x (mem_of_printed hx)
  fragment_ok := fun x hx => t.fragment_ok x (mem_of_printed hx)

theorem redump_port : t.redump.port ≠ some [] := by
  show (if t.created.isDefaultPort then none else some (decimal (digits 10 0 (t.port.getD [])))) ≠ some []
  split
  · exact fun h => (nomatch h)
  · exact fun h => decimal_ne_nil _ (Option.some.inj h)

/-- `dump` prints an absolute URI. -/
theorem dump_render : t.created.dump = t.redump.render := by
  have hport : portText t.redump.port = if t.created.isDefaultPort then [] else 58 :: to_string t.created.port := by
    show portText (if t.created.isDefaultPort then none else some (decimal (digits 10 0 (t.port.getD [])))) = _
    split
    · rfl
    · rfl
  have huser : userinfoText t.redump.userinfo = _ := userinfoText_printed t.created.userinfo
  have hquery : optText 63 t.redump.query = _ := optText_printed 63 t.created.query
  have hfragment : optText 35 t.redump.fragment = _ := optText_printed 35 t.created.fragment
  unfold Uri.dump render authorityText
  rw [hport, huser, hquery, hfragment]
  show _ = t.created.scheme ++ 58 :: 47 :: 47 :: (((t.created.userinfo ++ _) ++ (t.created.host ++ _)) ++
    (t.created.getPath ++ _))
  simp only [List.append_assoc, List.cons_append, List.nil_append]

theorem redump_uri : t.redump.uri = t.created.canonical := by
  have hport : (digits 10 0 (t.redump.port.getD []) : Int) = if t.created.isDefaultPort then 0 else t.created.port := by
    show ((digits 10 0 ((if t.created.isDefaultPort then none
      else some (decimal (digits 10 0 (t.port.getD [])))).getD []) : Nat) : Int) = _
    split
    · rfl
    · exact congrArg Int.ofNat (digits_decimal _)
  unfold Parts.uri Uri.canonical
  rw [hport]
  have huser : t.redump.userinfo.getD [] = _ := getD_printed t.created.userinfo
  have hquery : t.redump.query.getD [] = _ := getD_printed t.created.query
  have hfragment : t.redump.fragment.getD [] = _ := getD_printed t.created.fragment
  rw [huser, hquery, hfragment]
  rfl

end Parts

/-- Of every absolute URI with an authority and a port in range that `Create` accepts, and what it
    made of it. -/
theorem read_back_iff (t : Parts) {u : Uri} (h : create t.render = .made u) :
    u.ReadsBack ↔ ¬ DigitBehindColon u.userinfo := by
  have hu : u = t.created := by
    rw [t.create_render] at h
    split at h
    · cases h
    · exact (Created.made.inj h).symm
  subst hu
  have hback : create t.created.dump =
      .made { t.created.canonical with userinfo := t.created.userinfo.drop (passwordAt t.created.userinfo) } := by
    have huser : t.redump.userinfo.getD [] = t.created.userinfo := Parts.getD_printed _
    rw [t.dump_render, t.redump.create_render, if_neg t.redump_port, t.redump_uri, huser]
  constructor
  · intro hread
    obtain ⟨v, hv, hsame, -⟩ := hread
    cases hback.symm.trans hv
    exact drop_password.mp hsame.userinfo
  · intro hcolon
    rw [drop_password.mpr hcolon] at hback
    exact ⟨_, hback, t.created.canonical_same, t.created.canonical_dump⟩

/-- `https://me@a.net:443?q#f` -/
def emptyPath : Parts where
  scheme := bytes ['h', 't', 't', 'p', 's']
  userinfo := some (bytes ['m', 'e'])
  host := bytes ['a', '.', 'n', 'e', 't']
  port := some (bytes ['4', '4', '3'])
  path := []
  query := some (bytes ['q'])
  fragment := some (bytes ['f'])
  scheme_ok := by decide
  userinfo_ok := by decide
  host_ok := by decide
  port_ok := by decide
  path_ok := by decide
  query_ok := by decide
  fragment_ok := by decide

theorem read_back_iff_empty_path : ∃ u, create emptyPath.render = .made u ∧
    (u.ReadsBack ↔ ¬ DigitBehindColon u.userinfo) ∧ u.canonical ≠ u := by
  have hmade : create emptyPath.render = .made emptyPath.uri := by
    refine (create_extracts_iff emptyPath).mpr ⟨by decide, ?_⟩
    intro u hu
    cases hu
    exact passwordAt_pos.not.mp (by decide)
  exact ⟨emptyPath.uri, hmade, read_back_iff emptyPath hmade, by decide⟩

end LjrServer.UriParser
