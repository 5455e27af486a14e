/-
  LjrServer.Timer.Ordering — the timer set stays sorted by the deadlines as they are, and
  holds every timer that has a callback.

  `refresh`, `reset` and the loop of `listExpiredCb` change a deadline, the key the set is
  sorted by, while the timer is out of the set. `KeptBut out` is the invariant with the
  timers that are out.

  Proved:
  - `comparator_strictTotal`: the comparator is a strict total order, null pointers and
    equal deadlines included.
  - `Kept.erase`, `KeptBut.change`, `KeptBut.insert`, `KeptBut.drop`, `Kept.takeOut`: timers
    go out of the set, change and go back in.
-/

import LjrServer.Timer.Manager

namespace LjrServer.Timers

open LjrServer.Lib

theorem comparator_some (next : Addr → UInt64) (a b : Addr) :
    comparator next (some a) (some b) = true ↔ next a < next b ∨ next a = next b ∧ a < b := by
  simp only [comparator]
  by_cases h₁ : next a < next b
  · simp [h₁]
  · by_cases h₂ : next b < next a
    · have hne : next a ≠ next b := fun e => by rw [e] at h₂; exact absurd h₂ (UInt64.lt_irrefl _)
      simp [h₁, h₂, hne]
    · have he : next a = next b := by
        rw [UInt64.lt_iff_toNat_lt] at h₁ h₂
        exact UInt64.toNat_inj.mp (by omega)
      simp [he]

theorem comparator_strictTotal (next : Addr → UInt64) : OrderedSet.StrictTotal (comparator next) := by
  refine ⟨?_, ?_, ?_⟩
  · intro p
    cases p with
    | none => rfl
    | some a => simp [comparator]
  · intro p q r hpq hqr
    cases p with
    | none =>
      cases r with
      | none => cases q <;> cases hqr
      | some c => rfl
    | some a =>
      cases q with
      | none => cases hpq
      | some b =>
        cases r with
        | none => cases hqr
        | some c =>
          rw [comparator_some] at hpq hqr ⊢
          rcases hpq with hab | ⟨hab, hab'⟩
          · rcases hqr with hbc | ⟨hbc, _⟩
            · exact .inl (UInt64.lt_trans hab hbc)
            · exact .inl (hbc ▸ hab)
          · rcases hqr with hbc | ⟨hbc, hbc'⟩
            · exact .inl (hab ▸ hbc)
            · exact .inr ⟨hab.trans hbc, Nat.lt_trans hab' hbc'⟩
  · intro p q hpq hqp
    cases p with
    | none =>
      cases q with
      | none => rfl
      | some b => cases hpq
    | some a =>
      cases q with
      | none => cases hqp
      | some b =>
        rw [← Bool.not_eq_true, comparator_some, not_or] at hpq hqp
        have he : next a = next b := UInt64.le_antisymm (UInt64.not_lt.mp hqp.1) (UInt64.not_lt.mp hpq.1)
        have hab : ¬ a < b := fun h => hpq.2 ⟨he, h⟩
        have hba : ¬ b < a := fun h => hqp.2 ⟨he.symm, h⟩
        rw [Nat.le_antisymm (Nat.not_lt.mp hba) (Nat.not_lt.mp hab)]

namespace TimerManager

theorem lt_strictTotal (m : TimerManager) : OrderedSet.StrictTotal m.lt := by
  have h := comparator_strictTotal m.next
  exact ⟨fun a => h.irrefl _, fun a b c => h.trans _ _ _, fun a b hab hba => Option.some_inj.mp (h.connected _ _ hab hba)⟩

theorem lt_iff (m : TimerManager) (a b : Addr) : m.lt a b = true ↔ m.next a < m.next b ∨ m.next a = m.next b ∧ a < b :=
  comparator_some m.next a b

@[simp] theorem set_timers (m : TimerManager) (a : Addr) (t : Option Timer) : (m.set a t).timers = m.timers := rfl

@[simp] theorem set_heap_self (m : TimerManager) (a : Addr) (t : Option Timer) : (m.set a t).heap a = t := if_pos rfl

theorem set_heap_other (m : TimerManager) {a b : Addr} (t : Option Timer) (h : b ≠ a) : (m.set a t).heap b = m.heap b :=
  if_neg h

theorem set_next_self (m : TimerManager) (a : Addr) (t : Timer) : (m.set a (some t)).next a = t.next := by
  simp [next]

theorem set_next_other (m : TimerManager) {a b : Addr} (t : Option Timer) (h : b ≠ a) : (m.set a t).next b = m.next b := by
  simp [next, set_heap_other m t h]

/-- Only the deadlines of its members matter to a sorted sequence. -/
theorem sorted_congr {m m' : TimerManager} {xs : List Addr} (h : ∀ a ∈ xs, m'.next a = m.next a)
    (hs : OrderedSet.Sorted m.lt xs) : OrderedSet.Sorted m'.lt xs := by
  refine List.Pairwise.imp_of_mem ?_ hs
  intro a b ha hb hab
  rw [lt_iff] at hab ⊢
  rw [h a ha, h b hb]
  exact hab

/-! ## Sets of any timers -/

/-- The set is sorted, and its members exist. -/
structure Ordered (m : TimerManager) : Prop where
  sorted : OrderedSet.Sorted m.lt m.timers
  live : ∀ a ∈ m.timers, m.heap a ≠ none

section
variable {m : TimerManager} {a : Addr}

/-- What becomes of a timer outside does not matter to the set. -/
theorem Ordered.set (h : Ordered m) (ha : a ∉ m.timers) (t : Option Timer) : Ordered (m.set a t) := by
  refine ⟨sorted_congr (fun b hb => set_next_other m _ (ne_of_mem_of_not_mem hb ha)) h.sorted, ?_⟩
  intro b hb
  rw [set_heap_other m _ (ne_of_mem_of_not_mem hb ha)]
  exact h.live b hb

theorem Ordered.insert (h : Ordered m) (ha : a ∉ m.timers) (hlive : m.heap a ≠ none) :
    Ordered { m with timers := (OrderedSet.insert m.lt m.timers a).2 } ∧
      ∀ b, b ∈ (OrderedSet.insert m.lt m.timers a).2 ↔ b = a ∨ b ∈ m.timers := by
  obtain ⟨hs, hmem, _⟩ := OrderedSet.insert_new m.lt_strictTotal h.sorted ha
  refine ⟨⟨hs, ?_⟩, hmem⟩
  intro b hb
  rcases (hmem b).mp hb with rfl | hb
  · exact hlive
  · exact h.live b hb

/-- Those before a position come out together. -/
theorem Ordered.takeOut (h : Ordered m) (it : Nat) :
    Ordered { m with timers := m.timers.drop it } ∧
      ∀ a ∈ m.timers.take it, a ∉ m.timers.drop it ∧ m.heap a ≠ none := by
  have hn := h.sorted.nodup m.lt_strictTotal
  refine ⟨⟨h.sorted.sublist (List.drop_sublist _ _), fun a ha => h.live a (List.mem_of_mem_drop ha)⟩, ?_⟩
  intro a ha
  refine ⟨fun hb => ?_, h.live a (List.mem_of_mem_take ha)⟩
  rw [← List.take_append_drop it m.timers, List.nodup_append] at hn
  exact hn.2.2 a ha a hb rfl

theorem Ordered.mem_drop (h : Ordered m) (it : Nat) {a : Addr} :
    a ∈ m.timers.drop it ↔ a ∈ m.timers ∧ a ∉ m.timers.take it := by
  constructor
  · intro ha
    exact ⟨List.mem_of_mem_drop ha, fun htaken => ((h.takeOut it).2 a htaken).1 ha⟩
  · rintro ⟨ha, hnot⟩
    exact ((OrderedSet.mem_take_or_drop it).mp ha).resolve_left hnot

end

/-! ## The invariant -/

/-- Sorted, and holding the timers with a callback, but for those that are `out`. A timer that
    was added without one is held too. -/
structure KeptBut (out : List Addr) (m : TimerManager) : Prop where
  sorted : OrderedSet.Sorted m.lt m.timers
  live : ∀ a ∈ m.timers, m.heap a ≠ none
  member : ∀ a t, m.heap a = some t → t.cb ≠ none → a ∈ m.timers ∨ a ∈ out
  apart : ∀ a ∈ out, a ∉ m.timers ∧ m.heap a ≠ none
  nodup : out.Nodup

abbrev Kept (m : TimerManager) : Prop := KeptBut [] m

theorem KeptBut.ordered {m : TimerManager} {out : List Addr} (h : KeptBut out m) : Ordered m := ⟨h.sorted, h.live⟩

theorem Kept.mem {m : TimerManager} (h : Kept m) {a : Addr} {t : Timer} (ht : m.heap a = some t) (hcb : t.cb ≠ none) :
    a ∈ m.timers := by simpa using h.member a t ht hcb

theorem init_kept (now : UInt64) : Kept (init now) := by
  refine ⟨.nil, ?_, ?_, ?_, .nil⟩
  · intro a ha
    cases ha
  · intro a t ht
    cases ht
  · intro a ha
    cases ha

/-- A member is found, and can be taken out. -/
theorem Kept.erase {m : TimerManager} (h : Kept m) {a : Addr} (ha : a ∈ m.timers) :
    OrderedSet.find m.lt m.timers a ≠ none ∧
      ∃ timers, OrderedSet.erase m.timers (OrderedSet.find m.lt m.timers a) = some timers ∧
        KeptBut [a] { m with timers } ∧ ∀ b, b ∈ timers ↔ b ∈ m.timers ∧ b ≠ a := by
  obtain ⟨_, _, _, hfind⟩ := OrderedSet.find_mem m.lt_strictTotal h.sorted ha
  obtain ⟨timers, herase, hs, hmem⟩ := OrderedSet.erase_mem m.lt_strictTotal h.sorted ha
  refine ⟨by rw [hfind]; exact Option.some_ne_none _, timers, herase, ⟨hs, ?_, ?_, ?_, by simp⟩, hmem⟩
  · intro b hb
    exact h.live b ((hmem b).mp hb).1
  · intro b t ht hcb
    by_cases e : b = a
    · exact .inr (List.mem_singleton.mpr e)
    · exact .inl ((hmem b).mpr ⟨h.mem ht hcb, e⟩)
  · intro b hb
    obtain rfl := List.mem_singleton.mp hb
    exact ⟨fun hm => ((hmem b).mp hm).2 rfl, h.live b ha⟩

section
variable {m : TimerManager} {out : List Addr} {a : Addr}

/-- A timer that is out can be changed, its deadline too. -/
theorem KeptBut.change (h : KeptBut (a :: out) m) (t : Timer) : KeptBut (a :: out) (m.set a (some t)) := by
  have ha := (h.apart a List.mem_cons_self).1
  obtain ⟨hs, hlive⟩ := h.ordered.set ha (some t)
  refine ⟨hs, hlive, ?_, ?_, h.nodup⟩
  · intro b u hu hcb
    by_cases e : b = a
    · exact .inr (e ▸ List.mem_cons_self)
    · rw [set_heap_other m _ e] at hu
      exact h.member b u hu hcb
  · intro b hb
    refine ⟨(h.apart b hb).1, ?_⟩
    by_cases e : b = a
    · rw [e, set_heap_self]
      exact Option.some_ne_none t
    · rw [set_heap_other m _ e]
      exact (h.apart b hb).2

/-- A timer that is out goes back in. -/
theorem KeptBut.insert (h : KeptBut (a :: out) m) :
    KeptBut out { m with timers := (OrderedSet.insert m.lt m.timers a).2 } := by
  obtain ⟨ha, hself⟩ := h.apart a List.mem_cons_self
  obtain ⟨haout, hout⟩ := List.nodup_cons.mp h.nodup
  obtain ⟨⟨hs, hlive⟩, hmem⟩ := h.ordered.insert ha hself
  refine ⟨hs, hlive, ?_, ?_, hout⟩
  · intro b t ht hcb
    show b ∈ (OrderedSet.insert m.lt m.timers a).2 ∨ b ∈ out
    rw [hmem, or_assoc, or_left_comm, ← List.mem_cons]
    exact h.member b t ht hcb
  · intro b hb
    refine ⟨?_, (h.apart b (List.mem_cons_of_mem a hb)).2⟩
    show b ∉ (OrderedSet.insert m.lt m.timers a).2
    rw [hmem, not_or]
    exact ⟨fun e => haout (e ▸ hb), (h.apart b (List.mem_cons_of_mem a hb)).1⟩

/-- A timer that is out stays out when it loses its callback. -/
theorem KeptBut.drop (h : KeptBut (a :: out) m) (t : Timer) : KeptBut out (m.set a (some { t with cb := none })) := by
  have ha := (h.apart a List.mem_cons_self).1
  obtain ⟨haout, hout⟩ := List.nodup_cons.mp h.nodup
  obtain ⟨hs, hlive⟩ := h.ordered.set ha (some { t with cb := none })
  refine ⟨hs, hlive, ?_, ?_, hout⟩
  · intro b u hu hcb
    by_cases e : b = a
    · subst e
      rw [set_heap_self] at hu
      cases hu
      exact absurd rfl hcb
    · rw [set_heap_other m _ e] at hu
      exact (h.member b u hu hcb).imp_right fun hb => (List.mem_cons.mp hb).resolve_left e
  · intro b hb
    have e : b ≠ a := fun e => haout (e ▸ hb)
    rw [set_heap_other m _ e]
    exact h.apart b (List.mem_cons_of_mem a hb)

end

/-- The timers before a position come out together. -/
theorem Kept.takeOut {m : TimerManager} (h : Kept m) (it : Nat) :
    KeptBut (m.timers.take it) { m with timers := m.timers.drop it } := by
  have hn := h.sorted.nodup m.lt_strictTotal
  obtain ⟨⟨hs, hlive⟩, hapart⟩ := h.ordered.takeOut it
  refine ⟨hs, hlive, ?_, hapart, hn.sublist (List.take_sublist _ _)⟩
  intro a t ht hcb
  exact ((OrderedSet.mem_take_or_drop it).mp (h.mem ht hcb)).symm

/-- A new timer starts out of the set. -/
theorem Kept.new {m : TimerManager} (h : Kept m) {a : Addr} (hfree : m.heap a = none) (t : Timer) :
    KeptBut [a] (m.set a (some t)) := by
  have ha : a ∉ m.timers := fun hm => h.live a hm hfree
  obtain ⟨hs, hlive⟩ := h.ordered.set ha (some t)
  refine ⟨hs, hlive, ?_, ?_, by simp⟩
  · intro b u hu hcb
    by_cases e : b = a
    · exact .inr (List.mem_singleton.mpr e)
    · rw [set_heap_other m _ e] at hu
      exact .inl (h.mem hu hcb)
  · intro b hb
    obtain rfl := List.mem_singleton.mp hb
    exact ⟨ha, by rw [set_heap_self]; exact Option.some_ne_none t⟩

end TimerManager

end LjrServer.Timers
