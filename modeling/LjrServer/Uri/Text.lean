/-
  LjrServer.Uri.Text — what the machine does in the text of an absolute URI, part by part.

  Proved:
  - `uriReference_scheme`, `uriReference_colon`, `uriReference_acts_after`: up to the scheme's
    ':' the text may be a relative reference; behind it, it is not.
  - `afterScheme_authority`, `afterScheme_path`, `hierPart_pending`: an authority and a path.
  - `tail_acts_query`, `tail_pending`: a query and a fragment, each there or not.
-/

import LjrServer.Uri.Authority

namespace LjrServer.UriParser

open LjrServer.Lib.Ragel LjrServer.Lib.Ragel.Machine
open LjrServer.Http (Bytes)

variable {w v u : Bytes} {c : UInt8} {z : Nat × Action}

/-! ## The query and the fragment -/

def queryPart : M := .leaving 11 .saveQuery (.entering 10 .marku queryText)
def fragmentPart : M := .leaving 13 .saveFragment (.entering 12 .marku queryText)

def tail : M := .cat (query 10) (fragment 12)

def optText (d : UInt8) : Option Bytes → Bytes
  | none => []
  | some x => d :: x

/-- What is pending after a query or a fragment. -/
def savedActs (t : Nat) (save : Action) : Option Bytes → List (Nat × Action)
  | none => []
  | some x => (if x = [] then [(t, .marku)] else []) ++ [(t + 1, save)]

theorem optText_head (d : UInt8) (o : Option Bytes) : ∀ c ∈ (optText d o).head?, c = d := by
  cases o <;> simp [optText]

theorem fragment_begins (t : Nat) : (fragment t).Begins (· = 35) := by
  intro c hc
  exact toNat_eq rfl (alive_cat_char.mp (alive_opt.mp hc))

theorem query_begins (t : Nat) : (query t).Begins (· = 63) := by
  intro c hc
  exact toNat_eq rfl (alive_cat_char.mp (alive_opt.mp hc))

theorem queries_begins (t t' : Nat) : (Machine.cat (query t) (fragment t')).Begins fun c => c = 63 ∨ c = 35 := by
  intro c hc
  rcases alive_cat.mp hc with hc | ⟨v, r, he, _, hr⟩
  · exact .inl (query_begins t c hc)
  · obtain ⟨rfl, rfl⟩ := List.append_eq_nil_iff.mp he.symm
    exact .inr (fragment_begins t' c hr)

/-- No action on the '?' or the '#' itself. -/
theorem not_queries_acts_first (t t' : Nat) : ¬ (Machine.cat (query t) (fragment t')).Acts [] c z := by
  intro hz
  rcases acts_cat.mp hz with hz | ⟨hp, _⟩ | ⟨v, r, he, _, hz⟩
  · exact not_acts_cat_char (acts_opt.mp hz)
  · exact not_final_cat_char (pending_opt.mp hp).final
  · obtain ⟨rfl, rfl⟩ := List.append_eq_nil_iff.mp he.symm
    exact not_acts_cat_char (acts_opt.mp hz)

theorem tail_begins : tail.Begins fun c => c = 63 ∨ c = 35 := queries_begins 10 12

theorem not_tail_acts_first : ¬ tail.Acts [] c z := not_queries_acts_first 10 12

/-- The text of an optional part that is saved. -/
theorem optPart_pending {n : Nat} {d : UInt8} {t : Nat} {save : Action} {m : M} {o : Option Bytes} (hd : d.toNat = n)
    (hm : m.actions = []) (ho : ∀ x ∈ o, m.Final x) (hnil : m.Final []) :
    (opt (.cat (char n) (.leaving (t + 1) save (.entering t .marku m)))).Pending (optText d o) z ↔
        z ∈ savedActs t save o := by
  rw [pending_opt]
  cases o with
  | none =>
    have hnone : ¬ (Machine.cat (char n) (.leaving (t + 1) save (.entering t .marku m)) : M).Pending [] z := fun hz =>
      not_final_cat_char hz.final
    simp [optText, savedActs, hnone]
  | some x =>
    have hafter : (Machine.cat (char n) (.leaving (t + 1) save (.entering t .marku m)) : M).Pending (d :: x) z ↔
        (Machine.leaving (t + 1) save (.entering t .marku m)).Pending x z :=
            after_cat_char.trans (and_iff_right hd.symm)
    have hx : m.Final x := ho x rfl
    rw [optText, hafter, pending_saved hm]
    by_cases he : x = [] <;> simp [savedActs, he, hnil, hx]

theorem optPart_acts {n : Nat} {d : UInt8} {t t' : Nat} {x save : Action} {m : M} {q : Bytes} (hd : d.toNat = n)
    (hm : m.actions = []) (hq : m.Final q) (hw : q = v ++ c :: u) :
    (opt (.cat (char n) (.leaving t' save (.entering t x m)))).Acts (d :: v) c z ↔ v = [] ∧ z = (t, x) := by
  rw [acts_opt, acts_cat_char, and_iff_right hd.symm, acts_saved hm]
  refine and_congr_right fun hv => and_iff_left ?_
  subst hv
  exact alive_of_after (w := []) (hw ▸ hq)

theorem optPart_final {n : Nat} {d : UInt8} {t t' : Nat} {x save : Action} {m : M} {o : Option Bytes} (hd : d.toNat = n)
    (ho : ∀ q ∈ o, m.Final q) : (opt (.cat (char n) (.leaving t' save (.entering t x m)))).Final (optText d o) := by
  rw [final_opt]
  cases o with
  | none => exact .inr rfl
  | some q => exact .inl (after_cat_char.mpr ⟨hd.symm, final_leaving.mpr (final_entering.mpr (ho q rfl))⟩)

section
variable {q f : Option Bytes} (hq : ∀ x ∈ q, queryText.Final x) (hf : ∀ x ∈ f, queryText.Final x)
include hq

theorem query_delimited : (query 10).Delimited (· = 35) (optText 63 q) :=
  delimited_of_avoids (fun _ hc => hc ▸ by decide) (optPart_final rfl hq)

theorem tail_acts_query {x : Bytes} (hx : q = some x) (hw : x = v ++ c :: u) :
    tail.Acts (63 :: v) c z ↔ v = [] ∧ z = (10, .marku) := by
  subst hx
  rw [tail, (query_delimited hq).inside (fragment_begins 12) (by rw [optText, hw]; rfl)]
  exact optPart_acts rfl (by decide) (hq x rfl) hw

theorem tail_acts_hash : tail.Acts (optText 63 q) 35 z ↔ z ∈ savedActs 10 .saveQuery q := by
  have hat := (query_delimited hq).acts_cat (fragment_begins 12) (u := []) (c := 35) (z := z) (by simp) fun _ => rfl
  have halive : (fragment 12).Alive [] 35 := alive_opt.mpr (alive_cat_char.mpr rfl)
  have hnone : ¬ (fragment 12).Acts [] 35 z := fun hz => not_acts_cat_char (acts_opt.mp hz)
  rw [List.append_nil, or_iff_left hnone, and_iff_right rfl, and_iff_left halive] at hat
  exact hat.trans (optPart_pending rfl (by decide) hq (final_nil.mpr (by decide)))

include hf

theorem tail_acts_fragment {x : Bytes} (hx : f = some x) (hw : x = v ++ c :: u) :
    tail.Acts (optText 63 q ++ 35 :: v) c z ↔ v = [] ∧ z = (12, .marku) := by
  subst hx
  have hne : ¬ (35 :: v : Bytes) = [] := List.cons_ne_nil _ _
  rw [tail, (query_delimited hq).acts_cat (fragment_begins 12) (u := 35 :: v) (by simp) fun he => absurd he hne,
    or_iff_right fun he => hne he.1]
  exact optPart_acts rfl (by decide) (hf x rfl) hw

theorem tail_pending : tail.Pending (optText 63 q ++ optText 35 f) z ↔
    z ∈ (if f = none then savedActs 10 .saveQuery q else []) ++ savedActs 12 .saveFragment f := by
  have hnil : (queryText : M).Final [] := final_nil.mpr (by decide)
  have hnull : (fragment 12).Final [] := final_opt.mpr (.inr rfl)
  have hfragment : (fragment 12).Pending (optText 35 f) z ↔ z ∈ savedActs 12 .saveFragment f :=
    optPart_pending rfl (by decide) hf hnil
  have hquery : (query 10).Pending (optText 63 q) z ↔ z ∈ savedActs 10 .saveQuery q :=
    optPart_pending rfl (by decide) hq hnil
  rw [tail, (query_delimited hq).pending_cat (fragment_begins 12) (optText_head 35 f), hfragment, hquery]
  cases f <;> simp [optText, hnull]

theorem tail_final : tail.Final (optText 63 q ++ optText 35 f) :=
  ((query_delimited hq).final_cat (fragment_begins 12) (optText_head 35 f)).mpr (optPart_final rfl hf)

end

/-! ## Behind two slashes -/

/-- `"//" m` -/
def slashed (m : M) : M := .cat (str ['/', '/']) m

section
variable {m : M}

theorem slashed_edges (n : Nat) : (slashed m).edges n = if 47 = n then [{ next := .cat (ch '/') m }] else [] := by
  have hstr : (str ['/', '/'] : M).edges n = if 47 = n then [{ next := ch '/' }] else [] := cat_char_edges 47 n _
  have hnull : (str ['/', '/'] : M).nullable = false := rfl
  rw [slashed, edges, hstr, hnull]
  by_cases h : 47 = n
  · rw [if_pos h, if_pos h]
    rfl
  · rw [if_neg h, if_neg h]
    rfl

theorem slashed_cons {P : M → Prop} {d : UInt8} :
    (slashed m).After P (d :: w) ↔ 47 = d.toNat ∧ (Machine.cat (ch '/') m).After P w := by
  rw [After, slashed_edges]
  by_cases h : 47 = d.toNat <;> simp [h]

theorem slashed_after {P : M → Prop} : (slashed m).After P (47 :: 47 :: w) ↔ m.After P w := by
  have h47 : 47 = (47 : UInt8).toNat := rfl
  exact slashed_cons.trans ((and_iff_right h47).trans (after_cat_char.trans (and_iff_right h47)))

theorem slashed_begins : (slashed m).Begins (· = 47) := by
  intro c hc
  rw [alive_nil, slashed_edges] at hc
  split at hc
  · rename_i h
    exact toNat_eq rfl h
  · exact absurd rfl hc

theorem not_slashed_acts (hw : w = [] ∨ w = [47]) : ¬ (slashed m).Acts w c z := by
  rcases hw with rfl | rfl
  · rintro ⟨e, he, hz⟩
    rw [slashed_edges] at he
    split at he
    · cases List.mem_singleton.mp he
      cases hz
    · cases he
  · intro hz
    exact not_acts_cat_char (slashed_cons.mp hz).2

theorem not_slashed_final (hw : w = [] ∨ w = [47]) : ¬ (slashed m).Final w := by
  rcases hw with rfl | rfl
  · intro hf
    exact Bool.false_ne_true (final_nil.mp hf)
  · intro hf
    exact not_final_cat_char (slashed_cons.mp hf).2

end

/-! ## The scheme -/

def schemePart : M := .leaving 1 .saveScheme (.entering 0 .marku schemeName)

def afterScheme : M := .cat (hierPart 2) tail

theorem uriReference_eq : uriReference = .alt (.cat schemePart (.cat (ch ':') afterScheme)) (relativeRef 14) := rfl

/-- Text that a relative reference would have in its first segment. -/
def Plain (w : Bytes) : Prop := (47 : UInt8) ∉ w ∧ (63 : UInt8) ∉ w ∧ (35 : UInt8) ∉ w

theorem Plain.suffix {v r : Bytes} (h : Plain (v ++ r)) : Plain r :=
  ⟨fun hr => h.1 (List.mem_append_right _ hr), fun hr => h.2.1 (List.mem_append_right _ hr),
    fun hr => h.2.2 (List.mem_append_right _ hr)⟩

theorem scheme_plain (hf : schemeName.Final w) : Plain w ∧ (58 : UInt8) ∉ w := by
  have havoids : ∀ c : UInt8, schemeName.avoids c.toNat = true →
      c ∉ w := fun c hc hmem => not_after_of_avoids hc hmem hf
  exact ⟨⟨havoids 47 (by decide), havoids 63 (by decide), havoids 35 (by decide)⟩, havoids 58 (by decide)⟩

def relativeTail : M := .cat (query 20) (fragment 22)

/-- The relative parts that begin with no authority. -/
def plainParts : M := alts [pathAbsolute, pathNoscheme, pathEmpty]

theorem relativeRef_eq :
    relativeRef 14 = .cat (.alt (slashed (.cat (authority 14) pathAbempty)) plainParts) relativeTail := rfl

/-- An alternative of `relativePart` in plain text. -/
theorem plain_head {D : UInt8 → Prop} {m : M} {P : M → Prop} (hm : m.Begins D)
    (hD : ∀ c, D c → c = 47 ∨ c = 63 ∨ c = 35)
    (hw : Plain w) (h : m.After P w) : w = [] := by
  cases w with
  | nil => rfl
  | cons d w =>
    obtain ⟨h47, h63, h35⟩ := hw
    rcases hD d (hm.head h d rfl) with rfl | rfl | rfl <;> simp at h47 h63 h35

section
variable (hw : Plain w)
include hw

/-- In plain text a relative reference does nothing. -/
theorem not_relative_acts : ¬ (relativeRef 14).Acts w c z := by
  have hslash : ∀ d : UInt8, d = 47 → d = 47 ∨ d = 63 ∨ d = 35 := fun _ h => .inl h
  have htail : ∀ d : UInt8, d = 63 ∨ d = 35 → d = 47 ∨ d = 63 ∨ d = 35 := fun _ h => .inr h
  have hplain : ∀ v, Plain v → ¬ (Machine.alt (slashed (.cat (authority 14) pathAbempty)) plainParts).Acts v c z := by
    intro v hv h
    rcases acts_alt.mp h with h | h
    · exact not_slashed_acts (.inl (plain_head slashed_begins hslash hv h)) h
    · exact not_acts (by decide) h
  have hpending : ¬ (Machine.alt (slashed (.cat (authority 14) pathAbempty)) plainParts).Pending w z := by
    intro h
    rcases pending_alt.mp h with h | h
    · exact not_slashed_final (.inl (plain_head slashed_begins hslash hw h)) h.final
    · exact not_pending (by decide) h
  rw [relativeRef_eq, acts_cat]
  rintro (h | ⟨h, _⟩ | ⟨v, r, rfl, _, h⟩)
  · exact hplain w hw h
  · exact hpending h
  · obtain rfl := plain_head (queries_begins 20 22) htail hw.suffix h
    exact not_queries_acts_first 20 22 h

/-- Its first segment has no ':'. -/
theorem not_relative_alive (hne : w ≠ []) : ¬ (relativeRef 14).Alive w 58 := by
  have hslash : ∀ d : UInt8, d = 47 → d = 47 ∨ d = 63 ∨ d = 35 := fun _ h => .inl h
  have htail : ∀ d : UInt8, d = 63 ∨ d = 35 → d = 47 ∨ d = 63 ∨ d = 35 := fun _ h => .inr h
  have hsegments : segments.Begins (· = 47) := fun c hc => toNat_eq rfl (alive_cat_char.mp (alive_star.mp hc))
  rw [relativeRef_eq, alive_cat]
  rintro (h | ⟨v, r, rfl, _, h⟩)
  · rcases alive_alt.mp h with h | h
    · exact hne (plain_head slashed_begins hslash hw h)
    · rcases alive_alt.mp h with h | h
      · have hbegins : pathAbsolute.Begins (· = 47) := fun c hc => toNat_eq rfl (alive_cat_char.mp hc)
        exact hne (plain_head hbegins hslash hw h)
      · rcases alive_alt.mp h with h | h
        · rcases alive_cat.mp h with h | ⟨v, r, rfl, _, h⟩
          · exact not_alive_of_avoids (by decide) h
          · obtain rfl := plain_head hsegments hslash hw.suffix h
            exact absurd h (alive_nil.not.mpr (by decide))
        · exact not_alive_eps h
  · obtain rfl := plain_head (queries_begins 20 22) htail hw.suffix h
    exact absurd (queries_begins 20 22 58 h) (by decide)

end

theorem colon_begins {m : M} : (Machine.cat (ch ':') m).Begins (· = 58) := fun _ hc =>
    toNat_eq rfl (alive_cat_char.mp hc)

section
variable {scheme : Bytes} (hs : schemeName.Final scheme)
include hs

theorem scheme_ne_nil : scheme ≠ [] := by
  intro he
  subst he
  exact absurd (final_nil.mp hs) (by decide)

theorem schemePart_delimited : schemePart.Delimited (· = 58) scheme :=
  (delimited_of_avoids (fun _ hc => hc ▸ by decide) hs).saved

theorem uriReference_scheme (hw : scheme = v ++ c :: u) : uriReference.Acts v c z ↔ v = [] ∧ z = (0, .marku) := by
  have hplain : Plain v := by
    obtain ⟨⟨h47, h63, h35⟩, _⟩ := scheme_plain hs
    rw [hw] at h47 h63 h35
    exact ⟨fun h => h47 (List.mem_append_left _ h), fun h => h63 (List.mem_append_left _ h),
      fun h => h35 (List.mem_append_left _ h)⟩
  rw [uriReference_eq, acts_alt, or_iff_left (not_relative_acts hplain),
    (schemePart_delimited hs).inside colon_begins hw, schemePart, acts_saved (by decide)]
  refine and_congr_right fun hv => and_iff_left ?_
  subst hv
  exact alive_of_after (w := []) (hw ▸ hs)

theorem uriReference_colon : uriReference.Acts scheme 58 z ↔ z = (1, .saveScheme) := by
  have hat := (schemePart_delimited hs).acts_cat (colon_begins (m := afterScheme)) (u := []) (c := 58)
      (z := z) (by simp)
    fun _ => rfl
  have halive : (Machine.cat (ch ':') afterScheme).Alive [] 58 := alive_cat_char.mpr rfl
  rw [List.append_nil, or_iff_left not_acts_cat_char, and_iff_right rfl, and_iff_left halive, schemePart,
    pending_saved (by decide)] at hat
  rw [uriReference_eq, acts_alt, or_iff_left (not_relative_acts (scheme_plain hs).1)]
  refine hat.trans ?_
  simp [scheme_ne_nil hs, hs]

/-- Behind the scheme it is no relative reference. -/
theorem not_relative_after {P : M → Prop} : ¬ (relativeRef 14).After P (scheme ++ 58 :: w) := fun h =>
  not_relative_alive (scheme_plain hs).1 (scheme_ne_nil hs) (alive_of_after h)

theorem uriReference_acts_after : uriReference.Acts (scheme ++ 58 :: w) c z ↔ afterScheme.Acts w c z := by
  have hne : ¬ (58 :: w : Bytes) = [] := List.cons_ne_nil _ _
  have hdead : ¬ (relativeRef 14).Acts (scheme ++ 58 :: w) c z := not_relative_after hs
  rw [uriReference_eq, acts_alt, or_iff_left hdead,
    (schemePart_delimited hs).acts_cat colon_begins (by simp) fun he => absurd he hne, or_iff_right fun he => hne he.1,
    acts_cat_char]
  exact and_iff_right rfl

theorem uriReference_pending_after : uriReference.Pending (scheme ++ 58 :: w) z ↔ afterScheme.Pending w z := by
  have hne : ¬ (58 :: w : Bytes) = [] := List.cons_ne_nil _ _
  have hdead : ¬ (relativeRef 14).Pending (scheme ++ 58 :: w) z := not_relative_after hs
  rw [uriReference_eq, pending_alt, or_iff_left hdead, (schemePart_delimited hs).pending_cat colon_begins (by simp),
    or_iff_right fun he => hne he.1]
  exact after_cat_char.trans (and_iff_right rfl)

theorem uriReference_final (hw : afterScheme.Final w) : uriReference.Final (scheme ++ 58 :: w) := by
  rw [uriReference_eq, final_alt, final_cat]
  exact .inl ⟨scheme, _, rfl, (schemePart_delimited hs).final, after_cat_char.mpr ⟨rfl, hw⟩⟩

end

/-! ## The authority and the path -/

def pathPart : M := .leaving 9 .savePath (.entering 8 .markh pathAbempty)

/-- The parts that begin with no authority. -/
def plainPaths : M := alts [pathAbsolute, pathRootless, pathEmpty]

theorem hierPart_eq : hierPart 2 = .alt (slashed (.cat (authority 2) pathPart)) plainPaths := rfl

theorem not_plainPaths_after {P : M → Prop} : ¬ plainPaths.After P (47 :: 47 :: w) := by
  intro h
  rcases alive_alt.mp (alive_of_after (w := [47]) h) with h | h
  · exact absurd (after_cat_char.mp h).2 (alive_nil.not.mpr (by decide))
  · rcases alive_alt.mp h with h | h
    · exact absurd (alive_of_after (w := []) h) (alive_nil.not.mpr (by decide))
    · exact not_alive_eps h

theorem hierPart_acts : (hierPart 2).Acts (47 :: 47 :: w) c z ↔ (Machine.cat (authority 2) pathPart).Acts w c z := by
  rw [hierPart_eq, acts_alt]
  exact (or_iff_left not_plainPaths_after).trans slashed_after

theorem hierPart_pending_iff : (hierPart 2).Pending (47 :: 47 :: w) z ↔
    (Machine.cat (authority 2) pathPart).Pending w z := by
  rw [hierPart_eq, pending_alt]
  exact (or_iff_left not_plainPaths_after).trans slashed_after

/-- A path is empty or begins with '/'. -/
theorem path_begins : pathAbempty.Begins (· = 47) := by
  intro d hd
  rcases alive_cat.mp hd with hd | ⟨v, r, he, _, hr⟩
  · exact toNat_eq rfl (alive_cat_char.mp (alive_opt.mp hd))
  · obtain ⟨rfl, rfl⟩ := List.append_eq_nil_iff.mp he.symm
    exact toNat_eq rfl (alive_cat_char.mp (alive_star.mp hr))

theorem pathPart_begins : pathPart.Begins (· = 47) := fun d hd =>
    path_begins d (alive_entering.mp (alive_leaving.mp hd))

theorem not_afterScheme_slash (hw : w = [] ∨ w = [47]) : ¬ afterScheme.Acts w c z := by
  have hacts : ¬ (hierPart 2).Acts w c z := by
    rw [hierPart_eq, acts_alt]
    exact not_or.mpr ⟨not_slashed_acts hw, not_acts (by decide)⟩
  have hpending : ¬ (hierPart 2).Pending w z := by
    rw [hierPart_eq, pending_alt]
    exact not_or.mpr ⟨fun h => not_slashed_final hw h.final, not_pending (by decide)⟩
  rw [afterScheme, acts_cat]
  rintro (h | ⟨h, _⟩ | ⟨v, r, he, _, h⟩)
  · exact hacts h
  · exact hpending h
  · cases r with
    | nil => exact not_tail_acts_first h
    | cons d r =>
      have hd : d = 47 := by
        rcases hw with rfl | rfl
        · simp at he
        · have hmem : d ∈ ([47] : Bytes) := he ▸ List.mem_append_right _ List.mem_cons_self
          exact List.mem_singleton.mp hmem
      subst hd
      exact absurd (tail_begins.head h 47 rfl) (by decide)

section
variable {a : Bytes} (ha : (authority 2).Final a)
include ha

theorem authority_delimited : (authority 2).Delimited (· = 47) a :=
  delimited_of_avoids (fun _ hc => hc ▸ by decide) ha

theorem hierPart_final {p : Bytes} (hp : pathAbempty.Final p) : (hierPart 2).Final (47 :: 47 :: (a ++ p)) := by
  rw [hierPart_eq, final_alt]
  exact .inl (slashed_after.mpr (final_cat.mpr ⟨a, p, rfl, ha, final_leaving.mpr (final_entering.mpr hp)⟩))

theorem hierPart_delimited {p : Bytes} (hp : pathAbempty.Final p) :
    (hierPart 2).Delimited (fun d => d = 63 ∨ d = 35) (47 :: 47 :: (a ++ p)) := by
  refine delimited_of_avoids ?_ (hierPart_final ha hp)
  rintro d (rfl | rfl) <;> decide

theorem afterScheme_authority (hw : a = v ++ c :: u) :
    afterScheme.Acts (47 :: 47 :: v) c z ↔ (authority 2).Acts v c z := by
  have hpart : (hierPart 2).Delimited (fun d => d = 63 ∨ d = 35) (47 :: 47 :: (a ++ [])) := hierPart_delimited ha rfl
  rw [afterScheme, hpart.inside tail_begins (v := 47 :: 47 :: v) (u := u) (by simp [hw]), hierPart_acts]
  exact (authority_delimited ha).inside pathPart_begins hw

/-- The '/' of the path ends the authority. -/
theorem afterScheme_path {p : Bytes} (hp : pathAbempty.Final (47 :: p)) :
    afterScheme.Acts (47 :: 47 :: a) 47 z ↔ (authority 2).Pending a z ∨ z = (8, .markh) := by
  have hat := (authority_delimited ha).acts_cat pathPart_begins (u := []) (c := 47) (z := z) (by simp) fun _ => rfl
  have halive : pathPart.Alive [] 47 := alive_leaving.mpr (alive_entering.mpr (alive_of_after (w := []) hp))
  rw [List.append_nil, and_iff_right rfl, and_iff_left halive, pathPart, acts_saved (by decide), and_iff_right rfl,
    and_iff_left (alive_of_after (w := []) hp)] at hat
  rw [afterScheme, (hierPart_delimited ha hp).inside tail_begins (v := 47 :: 47 :: a) (u := p) (by simp),
    hierPart_acts]
  exact hat

theorem afterScheme_segments {p : Bytes} (hp : pathAbempty.Final p) (hw : p = v ++ c :: u) (hv : v ≠ []) :
    ¬ afterScheme.Acts (47 :: 47 :: (a ++ v)) c z := by
  have hhead : ∀ d ∈ v.head?, d = 47 := by
    cases v with
    | nil => exact absurd rfl hv
    | cons d v =>
      subst hw
      intro e he
      cases he
      exact path_begins.head hp d rfl
  rw [afterScheme, (hierPart_delimited ha hp).inside tail_begins (v := 47 :: 47 :: (a ++ v)) (u := u) (by simp [hw]),
    hierPart_acts, (authority_delimited ha).acts_cat pathPart_begins hhead fun he => absurd he hv,
    or_iff_right fun he => hv he.1, pathPart, acts_saved (by decide)]
  exact fun he => hv he.1

/-- What is pending behind an authority and a path. -/
theorem hierPart_pending {p : Bytes} (hp : pathAbempty.Final p) : (hierPart 2).Pending (47 :: 47 :: (a ++ p)) z ↔
    (p = [] ∧ ((authority 2).Pending a z ∨ z = (8, .markh))) ∨ z = (9, .savePath) := by
  have hnil : pathAbempty.Final [] := rfl
  have hfinal : pathPart.Final [] := hnil
  rw [hierPart_pending_iff, (authority_delimited ha).pending_cat pathPart_begins (path_begins.head hp),
    and_iff_left hfinal, pathPart,
    pending_saved (by decide), and_iff_left hnil, and_iff_right hp]
  rw [← or_assoc, ← and_or_left]

section
variable {p : Bytes} (hp : pathAbempty.Final p)
include hp

/-- A query or a fragment ends them. -/
theorem afterScheme_boundary (hc : c = 63 ∨ c = 35) :
    afterScheme.Acts (47 :: 47 :: (a ++ p)) c z ↔ (hierPart 2).Pending (47 :: 47 :: (a ++ p)) z := by
  have hat := (hierPart_delimited ha hp).acts_cat tail_begins (u := []) (c := c) (z := z) (by simp) fun _ => hc
  have halive : tail.Alive [] c := by
    rcases hc with rfl | rfl <;> exact alive_nil.mpr (by decide)
  rwa [List.append_nil, or_iff_left not_tail_acts_first, and_iff_right rfl, and_iff_left halive] at hat

theorem afterScheme_tail {t : Bytes} (ht : t ≠ []) (hhead : ∀ d ∈ t.head?, d = 63 ∨ d = 35) :
    afterScheme.Acts (47 :: 47 :: (a ++ p) ++ t) c z ↔ tail.Acts t c z := by
  rw [afterScheme, (hierPart_delimited ha hp).acts_cat tail_begins hhead fun he => absurd he ht]
  exact or_iff_right fun he => ht he.1

theorem afterScheme_pending {t : Bytes} (hhead : ∀ d ∈ t.head?, d = 63 ∨ d = 35) :
    afterScheme.Pending (47 :: 47 :: (a ++ p) ++ t) z ↔
      (t = [] ∧ (hierPart 2).Pending (47 :: 47 :: (a ++ p)) z) ∨ tail.Pending t z := by
  have hnil : tail.Final [] := rfl
  rw [afterScheme, (hierPart_delimited ha hp).pending_cat tail_begins hhead]
  exact or_congr (and_congr_right fun _ => and_iff_left hnil) Iff.rfl

theorem afterScheme_final {t : Bytes} (ht : tail.Final t) : afterScheme.Final (47 :: 47 :: (a ++ p) ++ t) :=
  final_cat.mpr ⟨_, t, rfl, hierPart_final ha hp, ht⟩

end

end

end LjrServer.UriParser
