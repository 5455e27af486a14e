/-
  LjrServer.Lib.RagelFacts — what a run of a Ragel machine can and cannot do, read off the
  expression.

  - `actions`: the actions embedded in it. A transition executes only these and leaves a
    machine with no others.
  - `avoids c`: no transition on `c`.
  - `Before c t x b`: a part that avoids `c`, then `c`, then `b`, under one finishing action.
    Until `c` it stays so; after `c` it is `b`.
  - `sets`: the character sets in it. Bytes that are in the same ones have the same transitions.
  - `explore`, `checked`: a finite set of states, and a fact about every step from them,
    settled by evaluation.
-/

import LjrServer.Lib.Ragel

namespace LjrServer.Lib.Ragel

variable {α : Type}

/-! ## Lists of a step -/

section
variable [DecidableEq α]

theorem mem_firsts {β : Type} [DecidableEq β] {b : β} : ∀ {bs : List β}, b ∈ firsts bs ↔ b ∈ bs
  | [] => Iff.rfl
  | c :: bs => by
    rw [firsts, List.mem_cons, List.mem_cons, List.mem_filter, mem_firsts]
    constructor
    · rintro (h | ⟨h, _⟩)
      · exact .inl h
      · exact .inr h
    · rintro (h | h)
      · exact .inl h
      · by_cases e : b = c
        · exact .inl e
        · exact .inr ⟨h, by simpa using e⟩

/-- Copies of one element. -/
theorem firsts_all_eq {β : Type} [DecidableEq β] {b : β} {bs : List β} (h : ∀ c ∈ bs, c = b) :
    firsts bs = [] ∨ firsts bs = [b] := by
  cases bs with
  | nil => exact .inl rfl
  | cons c bs =>
    obtain rfl := h c List.mem_cons_self
    refine .inr ?_
    rw [firsts, List.filter_eq_nil_iff.mpr]
    intro d hd
    have := h d (List.mem_cons_of_mem _ (mem_firsts.mp hd))
    simp [this]

omit [DecidableEq α] in
theorem mem_insertAct {a b : Nat × α} : ∀ {as : List (Nat × α)}, b ∈ insertAct a as ↔ b = a ∨ b ∈ as
  | [] => by simp [insertAct]
  | c :: as => by
    rw [insertAct]
    split
    · exact List.mem_cons
    · rw [List.mem_cons, mem_insertAct, List.mem_cons, or_left_comm]

omit [DecidableEq α] in
theorem mem_sortActs {b : Nat × α} : ∀ {as : List (Nat × α)}, b ∈ sortActs as ↔ b ∈ as
  | [] => Iff.rfl
  | a :: as => by rw [sortActs, mem_insertAct, mem_sortActs, List.mem_cons]

omit [DecidableEq α] in
theorem mem_survivors {s : Threads α} {c : Nat} {e : Edge α} (h : e ∈ survivors s c) : ∃ m ∈ s, e ∈ m.edges c :=
  List.mem_flatMap.mp (List.mem_filter.mp h).1

theorem mem_step_next {s : Threads α} {c : Nat} {m' : Machine α} (h : m' ∈ (step s c).1) :
    ∃ m ∈ s, ∃ e ∈ m.edges c, e.next = m' := by
  obtain ⟨e, he, rfl⟩ := List.mem_map.mp (mem_firsts.mp h)
  obtain ⟨m, hm, hem⟩ := mem_survivors he
  exact ⟨m, hm, e, hem, rfl⟩

theorem mem_step_survivors {s : Threads α} {c : Nat} {x : α} (h : x ∈ (step s c).2) :
    ∃ e ∈ survivors s c, ∃ t, (t, x) ∈ e.acts := by
  obtain ⟨⟨t, x⟩, ha, rfl⟩ := List.mem_map.mp (mem_firsts.mp h)
  obtain ⟨e, he, hx⟩ := List.mem_flatMap.mp (mem_sortActs.mp ha)
  exact ⟨e, he, t, hx⟩

theorem mem_step_acts {s : Threads α} {c : Nat} {x : α} (h : x ∈ (step s c).2) :
    ∃ m ∈ s, ∃ e ∈ m.edges c, ∃ t, (t, x) ∈ e.acts := by
  obtain ⟨e, he, hx⟩ := mem_step_survivors h
  obtain ⟨m, hm, hem⟩ := mem_survivors he
  exact ⟨m, hm, e, hem, hx⟩

end

namespace Machine

/-! ## The actions of a machine -/

def actions : Machine α → List α
  | .eps => []
  | .set _ => []
  | .cat a b => actions a ++ actions b
  | .alt a b => actions a ++ actions b
  | .star m => actions m
  | .entering _ x m => x :: actions m
  | .finishing _ x m => x :: actions m
  | .leaving _ x m => x :: actions m
  | .prioAll _ _ m => actions m
  | .prioEnter _ _ m => actions m
  | .prioFinish _ _ m => actions m

theorem out_actions {t : Nat} {x : α} : ∀ {m : Machine α}, (t, x) ∈ out m → x ∈ actions m
  | .eps, h => by cases h
  | .set _, h => by cases h
  | .cat a b, h => by
    rcases List.mem_append.mp h with h | h
    · exact List.mem_append_left _ (out_actions h)
    · exact List.mem_append_right _ (out_actions h)
  | .alt a b, h => by
    rcases List.mem_append.mp h with h | h
    · split at h
      · exact List.mem_append_left _ (out_actions h)
      · cases h
    · split at h
      · exact List.mem_append_right _ (out_actions h)
      · cases h
  | .star m, h => by
    rw [out] at h
    split at h
    · exact out_actions (m := m) h
    · cases h
  | .entering u y m, h => by
    rcases List.mem_cons.mp h with h | h
    · cases h
      exact List.mem_cons_self
    · exact List.mem_cons_of_mem _ (out_actions h)
  | .finishing _ _ m, h => List.mem_cons_of_mem _ (out_actions (m := m) h)
  | .leaving u y m, h => by
    rcases List.mem_append.mp h with h | h
    · exact List.mem_cons_of_mem _ (out_actions h)
    · cases List.mem_singleton.mp h
      exact List.mem_cons_self
  | .prioAll _ _ m, h => out_actions (m := m) h
  | .prioEnter _ _ m, h => out_actions (m := m) h
  | .prioFinish _ _ m, h => out_actions (m := m) h

theorem seq_actions (a b : Machine α) : (seq a b).actions = a.actions ++ b.actions := by
  cases a <;> rfl

theorem mem_finishing_edges {t c : Nat} {x : α} {m : Machine α} {e : Edge α} (h : e ∈ (finishing t x m).edges c) :
    ∃ f ∈ m.edges c, e.next = .finishing t x f.next ∧
      (∀ a ∈ e.acts, a ∈ f.acts ∨ (a = (t, x) ∧ f.next.nullable = true)) ∧
      (f.next.nullable = true → (t, x) ∈ e.acts) := by
  obtain ⟨f, hf, rfl⟩ := List.mem_map.mp h
  refine ⟨f, hf, ?_⟩
  by_cases hn : f.next.nullable = true
  · simp only [hn, if_true, Edge.into, Edge.act, List.singleton_append, List.mem_cons, true_and, true_or, implies_true,
      and_true]
    rintro a (rfl | ha)
    · exact .inr rfl
    · exact .inl ha
  · simp only [hn, Bool.false_eq_true, if_false, Edge.into, true_and, false_implies, and_true]
    exact fun a ha => .inl ha

theorem mem_prioFinish_edges {k l c : Nat} {m : Machine α} {e : Edge α} (h : e ∈ (prioFinish k l m).edges c) :
    ∃ f ∈ m.edges c, e.next = .prioFinish k l f.next ∧ e.acts = f.acts := by
  obtain ⟨f, hf, rfl⟩ := List.mem_map.mp h
  refine ⟨f, hf, ?_⟩
  by_cases hn : f.next.nullable = true
  · simp only [hn, if_true, Edge.into, Edge.prio, and_self]
  · simp only [hn, Bool.false_eq_true, if_false, Edge.into, and_self]

/-- An edge does what the machine has, and leaves what the machine has. -/
theorem edges_actions {c : Nat} {x : α} : ∀ {m : Machine α} {e : Edge α}, e ∈ m.edges c →
    ((∃ t, (t, x) ∈ e.acts) ∨ x ∈ e.next.actions) → x ∈ m.actions
  | .eps, _, he, _ => by cases he
  | .set s, e, he, h => by
    rw [edges] at he
    split at he
    · cases List.mem_singleton.mp he
      rcases h with ⟨_, h⟩ | h <;> cases h
    · cases he
  | .cat a b, e, he, h => by
    rcases List.mem_append.mp he with he | he
    · obtain ⟨e, hea, rfl⟩ := List.mem_map.mp he
      simp only [Edge.into, seq_actions, List.mem_append] at h
      rcases h with h | h | h
      · exact List.mem_append_left _ (edges_actions hea (.inl h))
      · exact List.mem_append_left _ (edges_actions hea (.inr h))
      · exact List.mem_append_right _ h
    · split at he
      · obtain ⟨e, heb, rfl⟩ := List.mem_map.mp he
        simp only [Edge.act, List.mem_append, exists_or] at h
        rcases h with (⟨t, h⟩ | h) | h
        · exact List.mem_append_left _ (out_actions h)
        · exact List.mem_append_right _ (edges_actions heb (.inl h))
        · exact List.mem_append_right _ (edges_actions heb (.inr h))
      · cases he
  | .alt a b, e, he, h => by
    rcases List.mem_append.mp he with he | he
    · exact List.mem_append_left _ (edges_actions he h)
    · exact List.mem_append_right _ (edges_actions he h)
  | .star m, e, he, h => by
    obtain ⟨e, hem, rfl⟩ := List.mem_map.mp he
    simp only [Edge.into, seq_actions, List.mem_append] at h
    rcases h with h | h | h
    · exact edges_actions (m := m) hem (.inl h)
    · exact edges_actions (m := m) hem (.inr h)
    · exact h
  | .entering t y m, e, he, h => by
    obtain ⟨e, hem, rfl⟩ := List.mem_map.mp he
    simp only [Edge.act, List.mem_append, List.mem_singleton, Prod.mk.injEq, exists_or] at h
    rcases h with (⟨_, _, rfl⟩ | h) | h
    · exact List.mem_cons_self
    · exact List.mem_cons_of_mem _ (edges_actions hem (.inl h))
    · exact List.mem_cons_of_mem _ (edges_actions hem (.inr h))
  | .finishing t y m, e, he, h => by
    obtain ⟨f, hf, hnext, hacts, _⟩ := mem_finishing_edges he
    rw [hnext, actions, List.mem_cons] at h
    rcases h with ⟨u, h⟩ | rfl | h
    · rcases hacts _ h with h | ⟨h, _⟩
      · exact List.mem_cons_of_mem _ (edges_actions hf (.inl ⟨u, h⟩))
      · cases h
        exact List.mem_cons_self
    · exact List.mem_cons_self
    · exact List.mem_cons_of_mem _ (edges_actions hf (.inr h))
  | .leaving t y m, e, he, h => by
    obtain ⟨e, hem, rfl⟩ := List.mem_map.mp he
    simp only [Edge.into, actions, List.mem_cons] at h
    rcases h with h | rfl | h
    · exact List.mem_cons_of_mem _ (edges_actions hem (.inl h))
    · exact List.mem_cons_self
    · exact List.mem_cons_of_mem _ (edges_actions hem (.inr h))
  | .prioAll k l m, e, he, h => by
    obtain ⟨e, hem, rfl⟩ := List.mem_map.mp he
    exact edges_actions (m := m) hem h
  | .prioEnter k l m, e, he, h => by
    obtain ⟨e, hem, rfl⟩ := List.mem_map.mp he
    exact edges_actions (m := m) hem h
  | .prioFinish k l m, e, he, h => by
    obtain ⟨f, hf, hnext, hacts⟩ := mem_prioFinish_edges he
    rw [hnext, hacts] at h
    exact edges_actions (m := m) hf h

/-! ## Bytes a machine does not read -/

def avoids (c : Nat) : Machine α → Bool
  | .eps => true
  | .set s => !s.mem c
  | .cat a b => avoids c a && avoids c b
  | .alt a b => avoids c a && avoids c b
  | .star m => avoids c m
  | .entering _ _ m => avoids c m
  | .finishing _ _ m => avoids c m
  | .leaving _ _ m => avoids c m
  | .prioAll _ _ m => avoids c m
  | .prioEnter _ _ m => avoids c m
  | .prioFinish _ _ m => avoids c m

theorem edges_of_avoids {c : Nat} : ∀ {m : Machine α}, m.avoids c = true → m.edges c = []
  | .eps, _ => rfl
  | .set s, h => by
    rw [edges, if_neg]
    simpa [avoids] using h
  | .cat a b, h => by
    obtain ⟨ha, hb⟩ := Bool.and_eq_true_iff.mp h
    rw [edges, edges_of_avoids ha, edges_of_avoids hb]
    simp
  | .alt a b, h => by
    obtain ⟨ha, hb⟩ := Bool.and_eq_true_iff.mp h
    rw [edges, edges_of_avoids ha, edges_of_avoids hb, List.append_nil]
  | .star m, h => by rw [edges, edges_of_avoids (m := m) h, List.map_nil]
  | .entering _ _ m, h => by rw [edges, edges_of_avoids (m := m) h, List.map_nil]
  | .finishing _ _ m, h => by rw [edges, edges_of_avoids (m := m) h, List.map_nil]
  | .leaving _ _ m, h => by rw [edges, edges_of_avoids (m := m) h, List.map_nil]
  | .prioAll _ _ m, h => by rw [edges, edges_of_avoids (m := m) h, List.map_nil]
  | .prioEnter _ _ m, h => by rw [edges, edges_of_avoids (m := m) h, List.map_nil]
  | .prioFinish _ _ m, h => by rw [edges, edges_of_avoids (m := m) h, List.map_nil]

theorem seq_avoids {c : Nat} {a b : Machine α} : (seq a b).avoids c = (a.avoids c && b.avoids c) := by
  cases a <;> simp [seq, avoids]

theorem avoids_next {c d : Nat} : ∀ {m : Machine α} {e : Edge α}, m.avoids c = true → e ∈ m.edges d →
    e.next.avoids c = true
  | .eps, _, _, he => by cases he
  | .set s, e, _, he => by
    rw [edges] at he
    split at he
    · cases List.mem_singleton.mp he
      rfl
    · cases he
  | .cat a b, e, h, he => by
    obtain ⟨ha, hb⟩ := Bool.and_eq_true_iff.mp h
    rcases List.mem_append.mp he with he | he
    · obtain ⟨e, hea, rfl⟩ := List.mem_map.mp he
      simp only [Edge.into, seq_avoids, avoids_next ha hea, hb, Bool.and_self]
    · split at he
      · obtain ⟨e, heb, rfl⟩ := List.mem_map.mp he
        show e.next.avoids c = true
        exact avoids_next hb heb
      · cases he
  | .alt a b, e, h, he => by
    obtain ⟨ha, hb⟩ := Bool.and_eq_true_iff.mp h
    rcases List.mem_append.mp he with he | he
    · exact avoids_next ha he
    · exact avoids_next hb he
  | .star m, e, h, he => by
    obtain ⟨e, hem, rfl⟩ := List.mem_map.mp he
    have hm : m.avoids c = true := h
    simp only [Edge.into, seq_avoids, avoids_next hm hem, avoids, hm, Bool.and_self]
  | .entering _ _ m, e, h, he => by
    obtain ⟨e, hem, rfl⟩ := List.mem_map.mp he
    show e.next.avoids c = true
    exact avoids_next (m := m) h hem
  | .finishing _ _ m, e, h, he => by
    obtain ⟨f, hf, hnext, _, _⟩ := mem_finishing_edges he
    rw [hnext]
    exact avoids_next (m := m) h hf
  | .leaving _ _ m, e, h, he => by
    obtain ⟨e, hem, rfl⟩ := List.mem_map.mp he
    show e.next.avoids c = true
    exact avoids_next (m := m) h hem
  | .prioAll _ _ m, e, h, he => by
    obtain ⟨e, hem, rfl⟩ := List.mem_map.mp he
    show e.next.avoids c = true
    exact avoids_next (m := m) h hem
  | .prioEnter _ _ m, e, h, he => by
    obtain ⟨e, hem, rfl⟩ := List.mem_map.mp he
    show e.next.avoids c = true
    exact avoids_next (m := m) h hem
  | .prioFinish _ _ m, e, h, he => by
    obtain ⟨f, hf, hnext, _⟩ := mem_prioFinish_edges he
    rw [hnext]
    exact avoids_next (m := m) h hf

/-! ## `m{0,n}` over one set -/

theorem upTo_edges (s : CharSet) (n d : Nat) : (upTo (.set s) n : Machine α).edges d =
    if n ≠ 0 ∧ s.mem d = true then [{ next := .upTo (.set s) (n - 1) }] else [] := by
  cases n with
  | zero => simp [upTo, edges]
  | succ n => cases h : s.mem d <;> simp [upTo, opt, edges, nullable, h, Edge.into, seq]

theorem upTo_out (s : CharSet) (n : Nat) : (upTo (.set s) n : Machine α).out = [] := by
  cases n with
  | zero => rfl
  | succ n => simp [upTo, opt, out, nullable]

theorem upTo_nullable (m : Machine α) (n : Nat) : (upTo m n).nullable = true := by
  cases n with
  | zero => rfl
  | succ n => simp [upTo, opt, nullable]
/-! ## Up to a separator -/

/-- `m` is a part over `xs` that avoids `c`, then `c` and `b`, under the finishing action `x`. -/
def Before (c t : Nat) (x : α) (xs : List α) (b m : Machine α) : Prop :=
  ∃ a : Machine α, a.avoids c = true ∧ (∀ y ∈ a.actions, y ∈ xs) ∧
    (m = .finishing t x (.cat a (.cat (char c) b)) ∨ m = .finishing t x (.cat (char c) b))

theorem char_edges (c d : Nat) : (char c : Machine α).edges d = if c = d then [{ next := .eps }] else [] := by
  rw [char, edges, CharSet.mem]
  by_cases h : c = d
  · subst h
    simp [CharSet.within]
  · rw [if_neg h, if_neg]
    simp only [CharSet.within, Bool.or_false, Bool.not_false, Bool.and_true, Bool.and_eq_true, Nat.ble_eq, not_and]
    omega

theorem cat_char_edges (c d : Nat) (b : Machine α) :
    (cat (char c) b).edges d = if c = d then [{ next := b }] else [] := by
  rw [edges, char_edges]
  by_cases h : c = d
  · simp [h, char, nullable, Edge.into, seq]
  · simp [h, char, nullable]

theorem seq_cat_char (a b : Machine α) (c : Nat) : (seq a (cat (char c) b)).nullable = false ∧
    (seq a (cat (char c) b) = cat a (cat (char c) b) ∨ seq a (cat (char c) b) = cat (char c) b) := by
  cases a <;> simp [seq, nullable, char]

/-- An edge of the part, or the separator. -/
theorem cat_before_edge {c d : Nat} {a b : Machine α} (ha : a.avoids c = true) {e : Edge α}
    (he : e ∈ (cat a (cat (char c) b)).edges d) :
    (d ≠ c ∧ ∃ f ∈ a.edges d, e.acts = f.acts ∧ e.next = seq f.next (cat (char c) b)) ∨
      (d = c ∧ e.acts = out a ∧ e.next = b) := by
  rcases List.mem_append.mp he with he | he
  · obtain ⟨f, hf, rfl⟩ := List.mem_map.mp he
    refine .inl ⟨?_, f, hf, rfl, rfl⟩
    rintro rfl
    rw [edges_of_avoids ha] at hf
    cases hf
  · split at he
    · obtain ⟨f, hf, rfl⟩ := List.mem_map.mp he
      rw [cat_char_edges] at hf
      split at hf
      · next hd =>
        cases List.mem_singleton.mp hf
        exact .inr ⟨hd.symm, List.append_nil _, rfl⟩
      · cases hf
    · cases he

/-- One byte towards the separator, or the separator. -/
theorem Before.edge {c t d : Nat} {x : α} {xs : List α} {b m : Machine α} (h : Before c t x xs b m)
    (hb : b.nullable = false) {e : Edge α} (he : e ∈ m.edges d) :
    (∀ u y, (u, y) ∈ e.acts → y ∈ xs) ∧
      ((d ≠ c ∧ Before c t x xs b e.next) ∨ (d = c ∧ e.next = .finishing t x b)) := by
  obtain ⟨a, hac, hxs, rfl | rfl⟩ := h
  · obtain ⟨f, hf, hnext, hacts, _⟩ := mem_finishing_edges he
    rcases cat_before_edge hac hf with ⟨hd, g, hg, hfa, hfn⟩ | ⟨hd, hfa, hfn⟩
    · obtain ⟨hn, hshape⟩ := seq_cat_char g.next b c
      constructor
      · intro u y hy
        rcases hacts _ hy with hy | ⟨_, hnull⟩
        · rw [hfa] at hy
          exact hxs y (edges_actions hg (.inl ⟨u, hy⟩))
        · rw [hfn, hn] at hnull
          cases hnull
      · refine .inl ⟨hd, g.next, avoids_next hac hg, fun y hy => hxs y (edges_actions hg (.inr hy)), ?_⟩
        rw [hnext, hfn]
        exact hshape.imp (congrArg _) (congrArg _)
    · constructor
      · intro u y hy
        rcases hacts _ hy with hy | ⟨_, hnull⟩
        · rw [hfa] at hy
          exact hxs y (out_actions hy)
        · rw [hfn, hb] at hnull
          cases hnull
      · exact .inr ⟨hd, by rw [hnext, hfn]⟩
  · obtain ⟨f, hf, hnext, hacts, _⟩ := mem_finishing_edges he
    rw [cat_char_edges] at hf
    split at hf
    · next hd =>
      cases List.mem_singleton.mp hf
      refine ⟨?_, .inr ⟨hd.symm, hnext⟩⟩
      intro u y hy
      rcases hacts _ hy with hy | ⟨_, hnull⟩
      · cases hy
      · rw [hb] at hnull
        cases hnull
    · cases hf

end Machine

section
variable [DecidableEq α]

open Machine

theorem step_none {m : Machine α} {c : Nat} (h : m.edges c = []) : step [m] c = ([], []) := by
  simp [step, survivors, h, firsts, sortActs]

theorem step_one {m : Machine α} {c : Nat} {e : Edge α} (h : m.edges c = [e]) (hp : e.prios = []) :
    step [m] c = ([e.next], firsts ((sortActs e.acts).map (·.2))) := by
  have hs : survivors [m] c = [e] := by simp [survivors, h, Edge.beats, hp]
  simp [step, hs, firsts]

/-- One step of threads that all wait for the separator. -/
theorem step_before {c t : Nat} {x : α} {xs : List α} {b : Machine α} {s : Threads α}
    (hs : ∀ m ∈ s, Before c t x xs b m) (hb : b.nullable = false) (d : Nat) :
    (∀ y ∈ (step s d).2, y ∈ xs) ∧
      ((d ≠ c ∧ ∀ m ∈ (step s d).1, Before c t x xs b m) ∨
        (d = c ∧ ((step s d).1 = [] ∨ (step s d).1 = [.finishing t x b]))) := by
  constructor
  · intro y hy
    obtain ⟨m, hm, e, he, u, hu⟩ := mem_step_acts hy
    exact ((hs m hm).edge hb he).1 u y hu
  · by_cases hd : d = c
    · refine .inr ⟨hd, firsts_all_eq ?_⟩
      intro m' hm'
      obtain ⟨m, hm, e, he, rfl⟩ := mem_step_next (mem_firsts.mpr hm')
      rcases ((hs m hm).edge hb he).2 with ⟨h, _⟩ | ⟨_, h⟩
      · exact absurd hd h
      · exact h
    · refine .inl ⟨hd, ?_⟩
      intro m' hm'
      obtain ⟨m, hm, e, he, rfl⟩ := mem_step_next hm'
      rcases ((hs m hm).edge hb he).2 with ⟨_, h⟩ | ⟨h, _⟩
      · exact h
      · exact absurd h hd

/-- Threads under one finishing action become final only by executing it. -/
theorem step_finishing {t : Nat} {x : α} {s : Threads α} (hs : ∀ m ∈ s, ∃ m', m = .finishing t x m') (c : Nat) :
    (∀ m ∈ (step s c).1, ∃ m', m = .finishing t x m') ∧ (isFinal (step s c).1 = true → x ∈ (step s c).2) := by
  constructor
  · intro m' hm'
    obtain ⟨m, hm, e, he, rfl⟩ := mem_step_next hm'
    obtain ⟨m, rfl⟩ := hs m hm
    obtain ⟨f, _, hnext, _, _⟩ := mem_finishing_edges he
    exact ⟨_, hnext⟩
  · intro hf
    obtain ⟨m', hm', hnull⟩ := List.any_eq_true.mp hf
    obtain ⟨e, he, rfl⟩ := List.mem_map.mp (mem_firsts.mp hm')
    obtain ⟨m, hm, hem⟩ := mem_survivors he
    obtain ⟨m, rfl⟩ := hs m hm
    obtain ⟨f, _, hnext, _, hact⟩ := mem_finishing_edges hem
    rw [hnext] at hnull
    exact mem_firsts.mpr (List.mem_map.mpr ⟨(t, x), mem_sortActs.mpr (List.mem_flatMap.mpr ⟨e, he, hact hnull⟩), rfl⟩)

theorem isStuck_of_edges {s : Threads α} (h : ∀ m ∈ s, ∀ c, m.edges c = []) : isStuck s = true := by
  refine List.all_eq_true.mpr fun c _ => decide_eq_true (List.eq_nil_iff_forall_not_mem.mpr fun m' hm' => ?_)
  obtain ⟨m, hm, e, he, -⟩ := mem_step_next hm'
  rw [h m hm] at he
  cases he

/-- Where it is nowhere inside them, they execute it only on becoming final. -/
theorem step_finished {t : Nat} {x : α} {s : Threads α} (hs : ∀ m ∈ s, ∃ m', m = .finishing t x m' ∧ x ∉ m'.actions)
    (c : Nat) : (∀ m ∈ (step s c).1, ∃ m', m = .finishing t x m' ∧ x ∉ m'.actions) ∧
      (x ∈ (step s c).2 → isFinal (step s c).1 = true) := by
  constructor
  · intro m' hm'
    obtain ⟨m, hm, e, he, rfl⟩ := mem_step_next hm'
    obtain ⟨m, rfl, hlacks⟩ := hs m hm
    obtain ⟨f, hf, hnext, _, _⟩ := mem_finishing_edges he
    exact ⟨_, hnext, fun hx => hlacks (edges_actions hf (.inr hx))⟩
  · intro hx
    obtain ⟨e, he, u, hu⟩ := mem_step_survivors hx
    obtain ⟨m, hm, hem⟩ := mem_survivors he
    obtain ⟨m, rfl, hlacks⟩ := hs m hm
    obtain ⟨f, hf, hnext, hacts, _⟩ := mem_finishing_edges hem
    rcases hacts _ hu with hinside | ⟨-, hnull⟩
    · exact absurd (edges_actions hf (.inl ⟨u, hinside⟩)) hlacks
    · exact List.any_eq_true.mpr ⟨e.next, mem_firsts.mpr (List.mem_map_of_mem he), by rw [hnext]; exact hnull⟩

/-- One step of threads that lack an action. -/
theorem step_lacks {x : α} {s : Threads α} (hs : ∀ m ∈ s, x ∉ m.actions) (c : Nat) :
    x ∉ (step s c).2 ∧ ∀ m ∈ (step s c).1, x ∉ m.actions := by
  constructor
  · intro hx
    obtain ⟨m, hm, e, he, t, ht⟩ := mem_step_acts hx
    exact hs m hm (edges_actions he (.inl ⟨t, ht⟩))
  · intro m' hm' hx
    obtain ⟨m, hm, e, he, rfl⟩ := mem_step_next hm'
    exact hs m hm (edges_actions he (.inr hx))

end

/-! ## Bytes a machine does not tell apart -/

namespace Machine

def sets : Machine α → List CharSet
  | .eps => []
  | .set s => [s]
  | .cat a b => sets a ++ sets b
  | .alt a b => sets a ++ sets b
  | .star m => sets m
  | .entering _ _ m => sets m
  | .finishing _ _ m => sets m
  | .leaving _ _ m => sets m
  | .prioAll _ _ m => sets m
  | .prioEnter _ _ m => sets m
  | .prioFinish _ _ m => sets m

theorem edges_congr {c d : Nat} : ∀ {m : Machine α}, (∀ x ∈ m.sets, x.mem c = x.mem d) → m.edges c = m.edges d
  | .eps, _ => rfl
  | .set s, h => by rw [edges, edges, h s List.mem_cons_self]
  | .cat a b, h => by
    have ha : a.edges c = a.edges d := edges_congr fun x hx => h x (List.mem_append_left _ hx)
    have hb : b.edges c = b.edges d := edges_congr fun x hx => h x (List.mem_append_right _ hx)
    rw [edges, edges, ha, hb]
  | .alt a b, h => by
    have ha : a.edges c = a.edges d := edges_congr fun x hx => h x (List.mem_append_left _ hx)
    have hb : b.edges c = b.edges d := edges_congr fun x hx => h x (List.mem_append_right _ hx)
    rw [edges, edges, ha, hb]
  | .star m, h => by rw [edges, edges, edges_congr (m := m) h]
  | .entering _ _ m, h => by rw [edges, edges, edges_congr (m := m) h]
  | .finishing _ _ m, h => by rw [edges, edges, edges_congr (m := m) h]
  | .leaving _ _ m, h => by rw [edges, edges, edges_congr (m := m) h]
  | .prioAll _ _ m, h => by rw [edges, edges, edges_congr (m := m) h]
  | .prioEnter _ _ m, h => by rw [edges, edges, edges_congr (m := m) h]
  | .prioFinish _ _ m, h => by rw [edges, edges, edges_congr (m := m) h]

end Machine

theorem step_congr [DecidableEq α] {s : Threads α} {c d : Nat}
    (h : ∀ m ∈ s, ∀ x ∈ m.sets, x.mem c = x.mem d) : step s c = step s d := by
  have hes : (s.flatMap fun m => m.edges c) = s.flatMap fun m => m.edges d := by
    rw [List.flatMap_def, List.flatMap_def, List.map_congr_left fun m hm => Machine.edges_congr (h m hm)]
  unfold step survivors
  rw [hes]

section
variable [DecidableEq α]

def charSets (R : List (Threads α)) : List CharSet := firsts (R.flatMap fun s => s.flatMap Machine.sets)

theorem step_of_charSets {R : List (Threads α)} {s : Threads α} (hs : s ∈ R) {c d : Nat}
    (h : ∀ x ∈ charSets R, x.mem c = x.mem d) : step s c = step s d := by
  refine step_congr fun m hm x hx => h x (mem_firsts.mpr ?_)
  exact List.mem_flatMap.mpr ⟨s, hs, List.mem_flatMap.mpr ⟨m, hm, hx⟩⟩

end

/-- Each byte has one in `kinds` that no set of `xs` tells from it. -/
def represented (xs : List CharSet) (kinds : List Nat) : Bool :=
  (List.range 256).all fun c => kinds.any fun d => xs.all fun x => x.mem c == x.mem d

theorem represented_at {xs : List CharSet} {kinds : List Nat} (h : represented xs kinds = true) {c : Nat}
    (hc : c < 256) : ∃ d ∈ kinds, ∀ x ∈ xs, x.mem c = x.mem d := by
  obtain ⟨d, hd, hcd⟩ := List.any_eq_true.mp (List.all_eq_true.mp h c (List.mem_range.mpr hc))
  exact ⟨d, hd, fun x hx => eq_of_beq (List.all_eq_true.mp hcd x hx)⟩

/-! ## Finite sets of states -/

section
variable {τ : Type} [DecidableEq τ]

/-- The states reached from `todo` on some bytes, as far as `fuel` goes. -/
def explore (next : τ → Nat → Option τ) (alphabet : List Nat) : Nat → List τ → List τ → List τ
  | 0, seen, _ => seen
  | _, seen, [] => seen
  | fuel + 1, seen, s :: todo =>
    if s ∈ seen then explore next alphabet fuel seen todo
    else explore next alphabet fuel (s :: seen) (alphabet.filterMap (next s) ++ todo)

omit [DecidableEq τ] in
/-- What is evaluated for every state of `R` and every byte. -/
def checked (R : List τ) (ok : τ → Nat → Bool) : Bool := R.all fun s => (List.range 256).all (ok s)

omit [DecidableEq τ] in
theorem checked_at {R : List τ} {ok : τ → Nat → Bool} (h : checked R ok = true) {s : τ} (hs : s ∈ R) (b : UInt8) :
    ok s b.toNat = true :=
  List.all_eq_true.mp (List.all_eq_true.mp h s hs) b.toNat (List.mem_range.mpr b.toNat_lt)

omit [DecidableEq τ] in
/-- It is enough to evaluate one byte of each kind. -/
theorem checked_of_kinds {R : List τ} {ok : τ → Nat → Bool} {xs : List CharSet} {kinds : List Nat}
    (hkinds : represented xs kinds = true)
    (hok : ∀ s ∈ R, ∀ c d, (∀ x ∈ xs, x.mem c = x.mem d) → ok s c = ok s d)
    (h : (R.all fun s => kinds.all (ok s)) = true) : checked R ok = true := by
  refine List.all_eq_true.mpr fun s hs => List.all_eq_true.mpr fun c hc => ?_
  obtain ⟨d, hd, hcd⟩ := represented_at hkinds (List.mem_range.mp hc)
  rw [hok s hs c d hcd]
  exact List.all_eq_true.mp (List.all_eq_true.mp h s hs) d hd

end

end LjrServer.Lib.Ragel
