/-
  LjrServer.Http.RequestLine — what the request machine does in a request target that begins
  with '/', part by part.

  Such a target is no `URI`: only `relative_ref` is left after its first byte. The path, the
  query and the fragment avoid the byte behind them, so each is read to its end.

  Proved:
  - `target_path`, `target_mark`, `target_query`, `target_fragment`: the actions inside.
  - `target_pending`, `target_end`: what the byte behind the path, the query and the fragment
    executes.
  - `step_target`, `step_space`: the step of the machine on a byte of a target.
-/

import LjrServer.Lib.RagelWords
import LjrServer.Http.Dump
import LjrServer.Http.Http11Phases

namespace LjrServer.Http.Http11

open LjrServer.Lib.Ragel LjrServer.Lib.Ragel.Machine

/-- The text of a query or a fragment. -/
def uriChars (uriRelaxed : Bool) : M := .star (alts [pchar uriRelaxed, ch '/', ch '?'])

def pathPart (uriRelaxed : Bool) : M := .leaving 10 .requestPath (relativePart uriRelaxed)
def queryPart (uriRelaxed : Bool) : M := .cat (.leaving 11 .startQuery (ch '?')) (query uriRelaxed 12)
def fragmentPart (uriRelaxed : Bool) : M := .cat (ch '#') (fragment uriRelaxed 14)

/-- Up to the fragment. -/
def targetPart (uriRelaxed : Bool) : M :=
  .leaving 13 .requestUri (.entering 9 .mark (.cat (pathPart uriRelaxed) (opt (queryPart uriRelaxed))))

theorem relativeRef_eq (uriRelaxed : Bool) :
    relativeRef uriRelaxed 9 = .cat (targetPart uriRelaxed) (opt (fragmentPart uriRelaxed)) := rfl

theorem query_eq (uriRelaxed : Bool) (t : Nat) : query uriRelaxed t = .leaving t .queryString (uriChars uriRelaxed) := rfl

theorem fragment_eq (uriRelaxed : Bool) (t : Nat) :
    fragment uriRelaxed t = .leaving (t + 1) .fragment (.entering t .mark (uriChars uriRelaxed)) := rfl

theorem uriOn_eq (uriRelaxed : Bool) :
    uriOn uriRelaxed 2 = .cat (uriReference uriRelaxed 2) (.cat (ch ' ') (versionOn 16)) := rfl

/-! ## Facts about the parts, settled by evaluation -/

section
variable (uriRelaxed : Bool)

theorem relativePart_facts : (relativePart uriRelaxed).avoids 32 = true ∧ (relativePart uriRelaxed).avoids 35 = true ∧
    (relativePart uriRelaxed).avoids 63 = true ∧ (relativePart uriRelaxed).actions = [] := by
  cases uriRelaxed <;> decide +kernel

theorem uriChars_facts : (uriChars uriRelaxed).avoids 32 = true ∧ (uriChars uriRelaxed).avoids 35 = true ∧
    (uriChars uriRelaxed).actions = [] := by
  cases uriRelaxed <;> decide +kernel

theorem targetPart_avoids : (targetPart uriRelaxed).avoids 32 = true ∧ (targetPart uriRelaxed).avoids 35 = true := by
  cases uriRelaxed <;> decide +kernel

theorem relativeRef_avoids : (relativeRef uriRelaxed 9).avoids 32 = true := by
  cases uriRelaxed <;> decide +kernel

theorem uriReference_facts : (uriReference uriRelaxed 2).avoids 32 = true ∧ (uriReference uriRelaxed 2).prioFree = true := by
  cases uriRelaxed <;> decide +kernel

/-- A URI begins with a letter. -/
theorem uri_edges_slash : (uri uriRelaxed 2).edges 47 = [] := by
  cases uriRelaxed <;> decide +kernel

theorem versionOn_nullable : (versionOn 16).nullable = false := by decide +kernel

end

/-! ## The parts of a target -/

theorem toNat_inj {c d : UInt8} {n : Nat} (hn : n = d.toNat) (h : n = c.toNat) : c = d :=
  UInt8.toNat_inj.mp (h.symm.trans hn)

variable {uriRelaxed : Bool} {path q f v u : Bytes} {c : UInt8} {z : Nat × Action}

theorem queryPart_begins (uriRelaxed : Bool) : (opt (queryPart uriRelaxed)).Begins (· = 63) := by
  intro c hc
  rcases alive_cat.mp (alive_opt.mp hc) with hc | ⟨v, u, he, hf, _⟩
  · exact toNat_inj rfl (alive_char.mp (alive_leaving.mp hc))
  · obtain ⟨rfl, rfl⟩ := List.append_eq_nil_iff.mp he.symm
    exact absurd (final_leaving.mp hf) not_final_char

theorem fragmentPart_begins (uriRelaxed : Bool) :
    (opt (fragmentPart uriRelaxed)).Begins fun d => d = 35 ∨ d = 32 := fun _ hc =>
  .inl (toNat_inj rfl (alive_cat_char.mp (alive_opt.mp hc)))

/-- The '?' alone. -/
theorem mark_delimited : (Machine.leaving 11 .startQuery (ch '?') : M).Delimited (fun _ => True) [63] := by
  refine ⟨?_, ?_, ?_⟩
  · exact final_leaving.mpr (after_char.mpr ⟨rfl, rfl⟩)
  · intro v c u hw hv
    cases v with
    | nil => exact absurd (final_leaving.mp hv) not_final_char
    | cons d v => cases v <;> cases hw
  · intro c _ ha
    exact not_alive_eps (after_char.mp (alive_leaving.mp ha)).2

section
variable (hp : (relativePart uriRelaxed).Final path) (hq : (uriChars uriRelaxed).Final q)
include hp

theorem pathPart_delimited : (pathPart uriRelaxed).Delimited (· = 63) path :=
  delimited_of_avoids (fun _ hc => hc ▸ (relativePart_facts uriRelaxed).2.2.1) (final_leaving.mpr hp)

theorem pathPart_pending : (pathPart uriRelaxed).Pending path z ↔ z = (10, .requestPath) := by
  rw [pathPart, pending_leaving, or_iff_right (not_pending (relativePart_facts uriRelaxed).2.2.2)]
  exact and_iff_right hp

theorem targetPart_path (hw : path = v ++ c :: u) : (targetPart uriRelaxed).Acts v c z ↔ v = [] ∧ z = (9, .mark) := by
  have hnone : ¬ (pathPart uriRelaxed).Acts v c z := fun hz =>
    not_acts (relativePart_facts uriRelaxed).2.2.2 (acts_leaving.mp hz)
  rw [targetPart, acts_leaving, acts_entering, (pathPart_delimited hp).inside (queryPart_begins uriRelaxed) hw,
    or_iff_right hnone]
  refine and_congr_right fun hv => and_iff_left ?_
  subst hv
  exact alive_cat.mpr (.inl (alive_leaving.mpr (alive_of_after (w := []) (hw ▸ hp))))

theorem targetPart_mark (hne : path ≠ []) : (targetPart uriRelaxed).Acts path 63 z ↔ z = (10, .requestPath) := by
  have hat := (pathPart_delimited hp).acts_cat (queryPart_begins uriRelaxed) (u := []) (c := 63) (z := z)
    (by simp) fun _ => rfl
  have halive : (opt (queryPart uriRelaxed)).Alive [] 63 :=
    alive_opt.mpr (alive_cat.mpr (.inl (alive_leaving.mpr (alive_char.mpr rfl))))
  have hnone : ¬ (opt (queryPart uriRelaxed)).Acts [] 63 z := by
    intro hz
    rcases acts_cat.mp (acts_opt.mp hz) with hz | ⟨hz, _⟩ | ⟨v, u, he, hf, _⟩
    · exact not_acts rfl (acts_leaving.mp hz)
    · exact not_final_char (final_leaving.mp hz.final)
    · obtain ⟨rfl, rfl⟩ := List.append_eq_nil_iff.mp he.symm
      exact not_final_char (final_leaving.mp hf)
  rw [List.append_nil, or_iff_left hnone, and_iff_right rfl, and_iff_left halive, pathPart_pending hp] at hat
  rw [targetPart, acts_leaving, acts_entering, or_iff_left fun h => hne h.1]
  exact hat

include hq

omit hp in
theorem queryPart_final : (opt (queryPart uriRelaxed)).Final (marked 63 q) := by
  unfold marked
  split
  · exact final_opt.mpr (.inr rfl)
  · exact final_opt.mpr (.inl (final_cat.mpr ⟨[63], q, rfl, mark_delimited.final, final_leaving.mpr hq⟩))

omit hp in
theorem queryPart_head : ∀ d ∈ (marked 63 q).head?, d = 63 := (queryPart_begins uriRelaxed).head (queryPart_final hq)

theorem targetPart_final : (targetPart uriRelaxed).Final (path ++ marked 63 q) :=
  final_leaving.mpr (final_entering.mpr
    (((pathPart_delimited hp).final_cat (queryPart_begins uriRelaxed) (queryPart_head hq)).mpr (queryPart_final hq)))

theorem targetPart_delimited : (targetPart uriRelaxed).Delimited (fun d => d = 35 ∨ d = 32) (path ++ marked 63 q) := by
  refine delimited_of_avoids ?_ (targetPart_final hp hq)
  rintro d (rfl | rfl)
  · exact (targetPart_avoids uriRelaxed).2
  · exact (targetPart_avoids uriRelaxed).1

omit hq in
theorem targetPart_query (hw : q = v ++ c :: u) (hq : (uriChars uriRelaxed).Final q) :
    (targetPart uriRelaxed).Acts (path ++ 63 :: v) c z ↔ v = [] ∧ z = (11, .startQuery) := by
  have hne : ¬ (63 :: v : Bytes) = [] := List.cons_ne_nil _ _
  have hpath : ¬ (path ++ 63 :: v : Bytes) = [] := by simp
  have hcat := (pathPart_delimited hp).acts_cat (queryPart_begins uriRelaxed) (u := 63 :: v) (c := c) (z := z)
    (by simp) fun h => absurd h hne
  have hmark : (queryPart uriRelaxed).Acts ([63] ++ v) c z ↔ _ :=
    mark_delimited.acts_cat (b := query uriRelaxed 12) (fun _ _ => trivial) (fun _ _ => trivial) fun _ => trivial
  have hnone : ¬ (query uriRelaxed 12).Acts v c z := fun hz => not_acts (uriChars_facts uriRelaxed).2.2 (acts_leaving.mp hz)
  have hpending : (Machine.leaving 11 .startQuery (ch '?') : M).Pending [63] z ↔ z = (11, .startQuery) := by
    rw [pending_leaving, or_iff_right (not_pending rfl)]
    exact and_iff_right (final_leaving.mp mark_delimited.final)
  rw [targetPart, acts_leaving, acts_entering, or_iff_left fun h => hpath h.1, hcat, or_iff_right fun h => hne h.1,
    acts_opt]
  refine hmark.trans ?_
  rw [or_iff_left hnone, hpending]
  refine and_congr_right fun hv => and_iff_left ?_
  subst hv
  exact alive_leaving.mpr (alive_of_after (w := []) (hw ▸ hq))

end

/-- Pending behind the path and the query. -/
def targetActs (q : Bytes) : List (Nat × Action) :=
  [if q = [] then (10, .requestPath) else (12, .queryString), (13, .requestUri)]

section
variable (hp : (relativePart uriRelaxed).Final path) (hq : (uriChars uriRelaxed).Final q) (hne : path ≠ [])
include hp hq hne

theorem targetPart_pending : (targetPart uriRelaxed).Pending (path ++ marked 63 q) z ↔ z ∈ targetActs q := by
  have hpath : ¬ path ++ marked 63 q = [] := by simp [hne]
  have hfinal := final_entering.mp (final_leaving.mp (targetPart_final hp hq))
  have hcat := (pathPart_delimited hp).pending_cat (z := z) (queryPart_begins uriRelaxed) (queryPart_head hq)
  rw [pathPart_pending hp, and_iff_left (final_opt.mpr (.inr rfl))] at hcat
  have hquery : (opt (queryPart uriRelaxed)).Pending (marked 63 q) z ↔ q ≠ [] ∧ z = (12, .queryString) := by
    rw [pending_opt]
    unfold marked
    split
    · rename_i hnil
      refine iff_of_false (fun hz => ?_) (fun h => h.1 hnil)
      obtain ⟨v, u, he, hf, _⟩ := final_cat.mp hz.final
      obtain ⟨rfl, rfl⟩ := List.append_eq_nil_iff.mp he.symm
      exact not_final_char (final_leaving.mp hf)
    · rename_i hnil
      have hmark : (queryPart uriRelaxed).Pending ([63] ++ q) z ↔ _ :=
        mark_delimited.pending_cat (b := query uriRelaxed 12) (fun _ _ => trivial) (fun _ _ => trivial)
      refine hmark.trans ?_
      rw [or_iff_right fun h => hnil h.1, query_eq, pending_leaving,
        or_iff_right (not_pending (uriChars_facts uriRelaxed).2.2)]
      exact and_congr_left fun _ => iff_of_true hq hnil
  have hentering : ∀ m : M, (Machine.entering 9 Action.mark m).Pending (path ++ marked 63 q) z ↔
      m.Pending (path ++ marked 63 q) z := fun m => pending_entering.trans (or_iff_left fun h => hpath h.1)
  rw [targetPart, pending_leaving, hentering, hcat, hquery, and_iff_right (final_entering.mpr hfinal)]
  by_cases hnil : q = []
  · simp [targetActs, hnil, marked]
  · simp [targetActs, hnil, marked]

end

/-! ## The target -/

section
variable (hp : (relativePart uriRelaxed).Final path) (hq : (uriChars uriRelaxed).Final q)
include hp hq

theorem target_inside (hw : path ++ marked 63 q = v ++ c :: u) :
    (relativeRef uriRelaxed 9).Acts v c z ↔ (targetPart uriRelaxed).Acts v c z :=
  (targetPart_delimited hp hq).inside (fragmentPart_begins uriRelaxed) hw

theorem target_final (hf : (uriChars uriRelaxed).Final f) :
    (relativeRef uriRelaxed 9).Final (path ++ marked 63 q ++ marked 35 f) := by
  refine final_cat.mpr ⟨_, _, rfl, targetPart_final hp hq, final_opt.mpr ?_⟩
  unfold marked
  split
  · exact .inr rfl
  · exact .inl (after_cat_char.mpr ⟨rfl, final_leaving.mpr (final_entering.mpr hf)⟩)

theorem target_fragment (hf : (uriChars uriRelaxed).Final f) (hw : f = v ++ c :: u) :
    (relativeRef uriRelaxed 9).Acts (path ++ marked 63 q ++ 35 :: v) c z ↔ v = [] ∧ z = (14, .mark) := by
  have hne : ¬ (35 :: v : Bytes) = [] := List.cons_ne_nil _ _
  rw [relativeRef_eq, (targetPart_delimited hp hq).acts_cat (fragmentPart_begins uriRelaxed) (u := 35 :: v) (by simp)
    fun h => absurd h hne, or_iff_right fun h => hne h.1, acts_opt]
  refine (acts_cat_char.trans (and_iff_right rfl)).trans ?_
  rw [fragment_eq, acts_saved (uriChars_facts uriRelaxed).2.2]
  refine and_congr_right fun hv => and_iff_left ?_
  subst hv
  exact alive_of_after (w := []) (hw ▸ hf)

variable (hne : path ≠ [])
include hne

theorem target_hash : (relativeRef uriRelaxed 9).Acts (path ++ marked 63 q) 35 z ↔ z ∈ targetActs q := by
  have hat := (targetPart_delimited hp hq).acts_cat (fragmentPart_begins uriRelaxed) (u := []) (c := 35) (z := z)
    (by simp) fun _ => .inl rfl
  have halive : (opt (fragmentPart uriRelaxed)).Alive [] 35 := alive_opt.mpr (alive_cat_char.mpr rfl)
  have hnone : ¬ (opt (fragmentPart uriRelaxed)).Acts [] 35 z := fun hz => not_acts_cat_char (acts_opt.mp hz)
  rw [List.append_nil, or_iff_left hnone, and_iff_right rfl, and_iff_left halive, targetPart_pending hp hq hne] at hat
  exact hat

theorem target_pending (hf : (uriChars uriRelaxed).Final f) :
    (relativeRef uriRelaxed 9).Pending (path ++ marked 63 q ++ marked 35 f) z ↔
      z ∈ if f = [] then targetActs q else [(15, .fragment)] := by
  have hhead : ∀ d ∈ (marked 35 f).head?, d = 35 ∨ d = 32 := by
    unfold marked
    split <;> simp
  have hcat := (targetPart_delimited hp hq).pending_cat (z := z) (fragmentPart_begins uriRelaxed) hhead
  rw [targetPart_pending hp hq hne, and_iff_left (final_opt.mpr (.inr rfl)), pending_opt] at hcat
  refine hcat.trans ?_
  by_cases hnil : f = []
  · have hnone : ¬ (fragmentPart uriRelaxed).Pending [] z := fun hz => not_final_cat_char hz.final
    simp [hnil, marked, hnone]
  · have hafter : (fragmentPart uriRelaxed).Pending (35 :: f) z ↔ (fragment uriRelaxed 14).Pending f z :=
      after_cat_char.trans (and_iff_right rfl)
    have hpending : (fragment uriRelaxed 14).Pending f z ↔ z = (15, .fragment) := by
      rw [fragment_eq, pending_saved (uriChars_facts uriRelaxed).2.2, or_iff_right fun h => hnil h.1]
      exact and_iff_right hf
    simp [hnil, marked, hafter, hpending]

end

/-! ## The machine on a target -/

/-- Behind the method's space. -/
def inTarget (uriRelaxed : Bool) : State := [.finishing 31 .done (uriOn uriRelaxed 2)]

theorem inTarget_separated (uriRelaxed : Bool) : ∀ m ∈ inTarget uriRelaxed, Separated 32 31 .done (versionOn 16) m := by
  intro m hm
  rw [List.mem_singleton.mp hm]
  exact ⟨uriReference uriRelaxed 2, (uriReference_facts uriRelaxed).1, (uriReference_facts uriRelaxed).2, .inl rfl⟩

/-- A URI begins with a letter. -/
theorem not_uri_after {P : M → Prop} : ¬ (uri uriRelaxed 2).After P (47 :: v) := by
  rintro ⟨e, he, _⟩
  have hnone : (uri uriRelaxed 2).edges (47 : UInt8).toNat = [] := uri_edges_slash uriRelaxed
  rw [hnone] at he
  cases he

section
variable {t : Bytes} (ht : (relativeRef uriRelaxed 9).Final (47 :: t))
include ht

theorem target_solid : (32 : UInt8) ∉ 47 :: t := fun h =>
  not_after_of_avoids (c := 32) (relativeRef_avoids uriRelaxed) h ht

theorem target_accepted : (uriReference uriRelaxed 2).Final (47 :: t) := final_alt.mpr (.inr ht)

variable {w : Bytes} (hw : 47 :: t = w ++ c :: u)

omit ht in
/-- Before the space there is no version. -/
theorem not_uriOn_final (hw : (32 : UInt8) ∉ w) : ¬ (uriOn uriRelaxed 2).Final (w ++ [c]) := by
  intro h
  rw [uriOn_eq] at h
  obtain ⟨v, x, he, _, hx⟩ := final_cat.mp h
  cases x with
  | nil => exact not_final_cat_char hx
  | cons d x =>
    obtain ⟨hd, hversion⟩ := after_cat_char.mp hx
    have h32 : d = 32 := toNat_inj rfl hd
    cases x with
    | nil =>
      have hnull := final_nil.mp hversion
      rw [versionOn_nullable] at hnull
      cases hnull
    | cons e x =>
      have hlast : w = v ++ (d :: e :: x).dropLast := by
        have h := congrArg List.dropLast he
        rwa [List.dropLast_concat, List.dropLast_append_of_ne_nil (List.cons_ne_nil _ _)] at h
      refine hw ?_
      rw [hlast, h32]
      exact List.mem_append_right _ List.mem_cons_self

omit ht in
/-- The parts behind the target do nothing yet. -/
theorem not_version_acts {v x : Bytes} (hw : (32 : UInt8) ∉ w) (he : w = v ++ x) :
    ¬ (Machine.cat (ch ' ') (versionOn 16)).Acts x c z := by
  intro hz
  cases x with
  | nil => exact not_acts_cat_char hz
  | cons d x =>
    obtain ⟨hd, _⟩ := acts_cat_char.mp hz
    have h32 : d = 32 := toNat_inj rfl hd
    refine hw ?_
    rw [he, h32]
    exact List.mem_append_right _ List.mem_cons_self

include hw in
theorem step_target {K : List (Nat × Action)} (hK : K.Pairwise (·.1 < ·.1))
    (h : ∀ z, (relativeRef uriRelaxed 9).Acts w c z ↔ z ∈ K) :
    (step (reached (inTarget uriRelaxed) w) c.toNat).1 ≠ [] ∧
      (step (reached (inTarget uriRelaxed) w) c.toNat).2 = firsts (K.map (·.2)) := by
  have hsolid := target_solid ht
  rw [hw] at hsolid
  have hw32 : (32 : UInt8) ∉ w := fun h => hsolid (List.mem_append_left _ h)
  have hc32 : c ≠ 32 := by
    rintro rfl
    exact hsolid (List.mem_append_right _ List.mem_cons_self)
  have hunranked : Unranked (inTarget uriRelaxed) (w ++ [c]) := by
    refine unranked_of_separated (inTarget_separated uriRelaxed) fun d hd h32 => hw32 ?_
    rwa [← toNat_inj (d := 32) rfl h32.symm]
  constructor
  · refine (step_alive hunranked).mpr ⟨_, List.mem_singleton_self _, alive_finishing.mpr (alive_cat.mpr (.inl ?_))⟩
    exact alive_of_after (hw ▸ target_accepted ht)
  · refine step_acts hunranked hK fun z => ?_
    have hdead : ¬ (uri uriRelaxed 2).Acts w c z := by
      intro hz
      cases w with
      | nil =>
        obtain rfl : 47 = c := (List.cons.inj hw).1
        obtain ⟨e, he, _⟩ := hz
        exact not_uri_after (v := []) (P := fun _ => True) ⟨e, he, trivial⟩
      | cons d w =>
        obtain rfl : 47 = d := (List.cons.inj hw).1
        exact not_uri_after hz
    simp only [inTarget, List.mem_singleton, exists_eq_left]
    rw [← h z, acts_finishing, or_iff_left fun h => not_uriOn_final hw32 h.2, uriOn_eq, acts_cat, uriReference,
      acts_alt, or_iff_right hdead]
    refine or_iff_left ?_
    rintro (⟨_, hc⟩ | ⟨v, x, he, _, hz⟩)
    · exact hc32 (toNat_inj rfl (alive_cat_char.mp hc))
    · exact not_version_acts hw32 he hz

/-- The space behind the target. -/
theorem step_space {K : List (Nat × Action)} (hK : K.Pairwise (·.1 < ·.1))
    (h : ∀ z, (relativeRef uriRelaxed 9).Pending (47 :: t) z ↔ z ∈ K) :
    step (reached (inTarget uriRelaxed) (47 :: t)) 32 = (afterUri, firsts (K.map (·.2))) := by
  have hsolid := target_solid ht
  have hbytes : ∀ d ∈ (47 :: t : Bytes), d.toNat ≠ 32 := by
    intro d hd h32
    refine hsolid ?_
    rwa [← toNat_inj (d := 32) rfl h32.symm]
  have hunranked : Unranked (inTarget uriRelaxed) (47 :: t ++ [32]) :=
    unranked_of_separated (inTarget_separated uriRelaxed) hbytes
  have hspace : (Machine.cat (ch ' ') (versionOn 16)).Alive [] 32 := alive_cat_char.mpr rfl
  have halive : (step (reached (inTarget uriRelaxed) (47 :: t)) (32 : UInt8).toNat).1 ≠ [] := by
    refine (step_alive hunranked).mpr ⟨_, List.mem_singleton_self _, alive_finishing.mpr (alive_cat.mpr (.inr ?_))⟩
    exact ⟨_, [], (List.append_nil _).symm, target_accepted ht, hspace⟩
  refine Prod.ext (step_separator (inTarget_separated uriRelaxed) hbytes halive) (step_acts hunranked hK fun z => ?_)
  have hdead : ¬ (uri uriRelaxed 2).Pending (47 :: t) z := not_uri_after
  have hnone : ¬ (uriReference uriRelaxed 2).Acts (47 :: t) 32 z := fun hz =>
    not_alive_of_avoids (c := 32) (uriReference_facts uriRelaxed).1 hz.alive
  simp only [inTarget, List.mem_singleton, exists_eq_left]
  rw [← h z, acts_finishing, or_iff_left fun h => not_uriOn_final hsolid h.2, uriOn_eq, acts_cat,
    or_iff_right hnone]
  refine Iff.trans (or_iff_left ?_) ?_
  · rintro ⟨v, x, he, _, hz⟩
    exact not_version_acts hsolid he hz
  · rw [and_iff_left hspace, uriReference, pending_alt, or_iff_right hdead]

end

end LjrServer.Http.Http11
