/-
  LjrServer.Lib.RagelLines — a machine that repeats a line up to a last one, `(line* end) @x`,
  followed through its lines thread by thread.

  What a step does is said of the threads one by one: a transition that another one beats does
  not count (`step_within`), and one that none beats is made (`step_made`). In a line the
  repetition is around each thread and changes nothing; between two lines its threads are
  those of the line, with what the last one left pending.

  Proved:
  - `step_within`, `step_made`: what holds of every transition that is not beaten holds of the
    threads and actions of a step; a transition that is not beaten is among them.
  - `step_ordered`: known actions are executed by their time stamps.
  - `edges_repeated`, `edges_between`: the transitions in a line and between two lines.
-/

import LjrServer.Lib.RagelWords

namespace LjrServer.Lib.Ragel

variable {α : Type}

/-! ## Steps, thread by thread -/

section
variable [DecidableEq α] {s : Threads α} {c : Nat} {m : Machine α} {e : Edge α}

theorem nodup_firsts {β : Type} [DecidableEq β] (bs : List β) : (firsts bs).Nodup := by
  induction bs with
  | nil => exact List.nodup_nil
  | cons b bs ih =>
    refine List.nodup_cons.mpr ⟨?_, ih.filter _⟩
    simp

omit [DecidableEq α] in
theorem survivor_within {P : Edge α → Prop}
    (h : ∀ m ∈ s, ∀ e ∈ m.edges c, (∃ m' ∈ s, ∃ e' ∈ m'.edges c, e'.beats e = true) ∨ P e) :
    ∀ e ∈ survivors s c, P e := by
  intro e he
  obtain ⟨hmem, hbest⟩ := List.mem_filter.mp he
  obtain ⟨m, hm, hem⟩ := List.mem_flatMap.mp hmem
  refine (h m hm e hem).resolve_left ?_
  rintro ⟨m', hm', e', he', hbeats⟩
  have hany : (s.flatMap fun m => m.edges c).any (·.beats e) = true :=
    List.any_eq_true.mpr ⟨e', List.mem_flatMap.mpr ⟨m', hm', he'⟩, hbeats⟩
  rw [hany] at hbest
  cases hbest

theorem step_within {P : Machine α → Prop} {A : Nat × α → Prop}
    (h : ∀ m ∈ s, ∀ e ∈ m.edges c, (∃ m' ∈ s, ∃ e' ∈ m'.edges c, e'.beats e = true) ∨ (P e.next ∧ ∀ z ∈ e.acts, A z)) :
    (∀ m ∈ (step s c).1, P m) ∧ ∀ x ∈ (step s c).2, ∃ t, A (t, x) := by
  have hsurvivor := survivor_within h
  constructor
  · intro m' hm'
    obtain ⟨e, he, rfl⟩ := List.mem_map.mp (mem_firsts.mp hm')
    exact (hsurvivor e he).1
  · intro x hx
    obtain ⟨e, he, t, ht⟩ := mem_step_survivors hx
    exact ⟨t, (hsurvivor e he).2 (t, x) ht⟩

omit [DecidableEq α] in
theorem survivor_made (hm : m ∈ s) (he : e ∈ m.edges c) (hbest : ∀ m' ∈ s, ∀ e' ∈ m'.edges c, e'.beats e = false) :
    e ∈ survivors s c := by
  refine List.mem_filter.mpr ⟨List.mem_flatMap.mpr ⟨m, hm, he⟩, ?_⟩
  rw [Bool.not_eq_true', List.any_eq_false]
  intro e' he'
  obtain ⟨m', hm', hem'⟩ := List.mem_flatMap.mp he'
  simp [hbest m' hm' e' hem']

theorem step_made (hm : m ∈ s) (he : e ∈ m.edges c) (hbest : ∀ m' ∈ s, ∀ e' ∈ m'.edges c, e'.beats e = false) :
    e.next ∈ (step s c).1 ∧ ∀ z ∈ e.acts, z.2 ∈ (step s c).2 := by
  have hsurvivor := survivor_made hm he hbest
  constructor
  · exact mem_firsts.mpr (List.mem_map_of_mem hsurvivor)
  · intro z hz
    refine mem_firsts.mpr (List.mem_map_of_mem (mem_sortActs.mpr ?_))
    exact List.mem_flatMap.mpr ⟨e, hsurvivor, hz⟩

/-- The actions of a step when they are known: those of `e`, and no others. -/
theorem step_ordered {K : List (Nat × α)} (hK : K.Pairwise (·.1 < ·.1)) (hm : m ∈ s) (he : e ∈ m.edges c)
    (hbest : ∀ m' ∈ s, ∀ e' ∈ m'.edges c, e'.beats e = false) (hacts : ∀ z ∈ K, z ∈ e.acts)
    (h : ∀ m ∈ s, ∀ e ∈ m.edges c, (∃ m' ∈ s, ∃ e' ∈ m'.edges c, e'.beats e = true) ∨ ∀ z ∈ e.acts, z ∈ K) :
    (step s c).2 = firsts (K.map (·.2)) := by
  refine firsts_of_sorted (sortActs_sorted _) hK fun z => ?_
  rw [mem_sortActs, List.mem_flatMap]
  constructor
  · rintro ⟨f, hf, hz⟩
    exact survivor_within h f hf z hz
  · intro hz
    exact ⟨e, survivor_made hm he hbest, hacts z hz⟩

/-- The actions of a step, each once. -/
theorem step_nodup : (step s c).2.Nodup := nodup_firsts _

/-- All of them are one action. -/
theorem step_one_action {x : α} (h : ∀ y ∈ (step s c).2, y = x) (hx : x ∈ (step s c).2) : (step s c).2 = [x] := by
  rcases hacts : (step s c).2 with _ | ⟨y, ys⟩
  · rw [hacts] at hx
    cases hx
  · have hnodup : (y :: ys).Nodup := hacts ▸ step_nodup
    rw [hacts] at h
    have hy := h y List.mem_cons_self
    cases ys with
    | nil => rw [hy]
    | cons z ys =>
      have hz := h z (List.mem_cons_of_mem _ List.mem_cons_self)
      rw [hy, hz] at hnodup
      exact absurd List.mem_cons_self (List.nodup_cons.mp hnodup).1

theorem step_no_action (h : ∀ y ∈ (step s c).2, False) : (step s c).2 = [] :=
  List.eq_nil_iff_forall_not_mem.mpr h

end

/-! ## Texts without actions -/

section
variable [DecidableEq α] {s s' : Threads α} {x y : List UInt8}

/-- No byte of the text executes an action or leads to the error state. -/
def quietly : Threads α → List UInt8 → Bool
  | _, [] => true
  | s, b :: x => (step s b.toNat).1 ≠ [] && (step s b.toNat).2 = [] && quietly (step s b.toNat).1 x

/-- A text of bytes on which the state stays. -/
theorem quietly_loop (hne : s ≠ []) (h : ∀ b ∈ x, step s b.toNat = (s, [])) :
    quietly s x = true ∧ reached s x = s := by
  induction x with
  | nil => exact ⟨rfl, rfl⟩
  | cons b x ih =>
    have hstep := h b List.mem_cons_self
    obtain ⟨hquiet, hreached⟩ := ih fun c hc => h c (List.mem_cons_of_mem _ hc)
    constructor
    · rw [quietly, hstep]
      simp [hne, hquiet]
    · rw [reached, List.foldl_cons, hstep]
      exact hreached

end

/-! ## Repeated lines -/

namespace Machine

/-- What is left of `(line* last) @x` when `m` is left of a line. -/
def repeated (t : Nat) (x : α) (line last m : Machine α) : Machine α :=
  .finishing t x (seq (seq m (.star line)) last)

variable {t c : Nat} {x : α} {line last m : Machine α}

theorem seq_of_ne {a : Machine α} (h : a ≠ .eps) (b : Machine α) : seq a b = .cat a b := by
  cases a with
  | eps => exact absurd rfl h
  | _ => rfl

theorem cat_edges (a b : Machine α) :
    (cat a b).edges c = (a.edges c).map (·.into (seq · b)) ++ (if nullable a then (b.edges c).map (·.act (out a)) else []) :=
  rfl

theorem seq_edges (h : m.nullable = false) (b : Machine α) : (seq m b).edges c = (m.edges c).map (·.into (seq · b)) := by
  have hne : m ≠ .eps := fun he => by rw [he] at h; cases h
  rw [seq_of_ne hne, cat_edges, h, if_neg Bool.false_ne_true, List.append_nil]

theorem seq_nullable (a b : Machine α) : (seq a b).nullable = (a.nullable && b.nullable) := by
  cases a <;> simp [seq, nullable]

/-- In a line. -/
theorem edges_repeated (hlast : last.nullable = false) (hm : m.nullable = false) :
    (repeated t x line last m).edges c = (m.edges c).map (·.into (repeated t x line last)) := by
  have hseq : (seq m (.star line)).nullable = false := by rw [seq_nullable, hm, Bool.false_and]
  rw [repeated, edges, seq_edges hseq, seq_edges hm, List.map_map, List.map_map]
  refine List.map_congr_left fun e _ => ?_
  have hnot : (seq (seq e.next (.star line)) last).nullable = false := by
    rw [seq_nullable, hlast, Bool.and_false]
  simp only [Function.comp_apply, Edge.into, hnot, Bool.false_eq_true, if_false, repeated]

/-- Between two lines, where `m` is a line that has ended. -/
theorem edges_between (hlast : last.nullable = false) (hline : line.nullable = false) (hm : m.nullable = true)
    (hend : m.edges c = []) :
    (repeated t x line last m).edges c =
      (line.edges c).map (fun e => (e.act m.out).into (repeated t x line last)) ++
        (last.edges c).map fun e =>
          (if e.next.nullable then (e.act m.out).act [(t, x)] else e.act m.out).into (.finishing t x) := by
  have hstar : ∀ d, (Machine.star line).edges d = (line.edges d).map (·.into (seq · (.star line))) := fun _ => rfl
  have hout : (Machine.star line).out = [] := by rw [out, hline]; rfl
  have hnot : ∀ n : Machine α, (seq n last).nullable = false := fun n => by rw [seq_nullable, hlast, Bool.and_false]
  have hseq : (seq m (.star line)).edges c = (line.edges c).map (fun e => (e.act m.out).into (seq · (.star line))) ∧
      seq m (.star line) ≠ .eps ∧ (seq m (.star line)).out = m.out := by
    by_cases hne : m = .eps
    · subst hne
      refine ⟨?_, by simp [seq], hout⟩
      rw [seq, hstar]
      exact List.map_congr_left fun e _ => rfl
    · rw [seq_of_ne hne, cat_edges, hend, hm, if_pos rfl, hstar, List.map_map]
      refine ⟨rfl, by simp, ?_⟩
      rw [out, hout, List.append_nil]
  obtain ⟨hedges, hne, hseqOut⟩ := hseq
  have hseqNull : (seq m (.star line)).nullable = true := by rw [seq_nullable, hm]; rfl
  have hcat : (seq (seq m (.star line)) last).edges c =
      ((seq m (.star line)).edges c).map (·.into (seq · last)) ++ (last.edges c).map (·.act m.out) := by
    rw [seq_of_ne hne, cat_edges, hseqNull, if_pos rfl, hseqOut]
  rw [repeated, edges, hcat, hedges, List.map_append, List.map_map, List.map_map, List.map_map]
  refine congr (congrArg _ (List.map_congr_left fun e _ => ?_)) (List.map_congr_left fun e _ => ?_)
  · simp only [Function.comp_apply, Edge.into, hnot, Bool.false_eq_true, if_false, repeated]
  · simp only [Function.comp_apply]
    rfl

end Machine

end LjrServer.Lib.Ragel
