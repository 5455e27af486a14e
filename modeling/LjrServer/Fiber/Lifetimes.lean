/-
  LjrServer.Fiber.Lifetimes — what becomes of the fibers of a thread that keeps its course:
  their functions, and their states when they are destroyed.

  `Scheduler::run` sets the fiber it comes back from to HOLD. A root fiber that is entered again
  goes on in another `run`, which may do so to a fiber that is INIT; what `~Fiber` asserts would
  fail.

  Proved:
  - `begun_once`: a function a fiber was given is begun on its stack once at most, and the
    functions of a fiber in the order it was given them.
  - `drop_safe`: where only fibers that are begun and not ended are set to HOLD, a fiber may be
    let go at any time: it is destroyed when it has not been begun or has ended.
-/

import LjrServer.Fiber.Contexts

namespace LjrServer.Fibers

open LjrServer.Lib LjrServer.IoManager

variable {s s' t : Thread} {p q save load : Nat} {f g : Fiber}

/-! ## Functions -/

/-- A function is begun after it was given, and one that waits in a fresh context not before. -/
structure InOrder (s : Thread) : Prop where
  begun : ∀ p, (s.begun p).Sublist (s.given p)
  waiting : ∀ p f e, s.heap p = some f → f.context = .made e → s.running ≠ .own p →
    ∃ earlier, s.given p = earlier ++ [f.cb] ∧ (s.begun p).Sublist earlier
  unused : ∀ p, s.next ≤ p → s.given p = [] ∧ s.begun p = []

/-- A write to a fiber, which leaves a fresh context its function unless the fiber executes. -/
theorem InOrder.written (h : InOrder s) (hp : s.heap p = some f)
    (hsame : g.cb = f.cb ∧ g.context = f.context ∨ s.running = .own p) : InOrder (s.setFiber p g) := by
  refine ⟨h.begun, fun q g' e hq hmade hrun => ?_, h.unused⟩
  simp only [Thread.setFiber, Function.update_apply] at hq
  split at hq
  · rename_i hqp
    cases hq
    rw [hqp] at hrun ⊢
    obtain ⟨hcb, hcontext⟩ := hsame.resolve_right hrun
    rw [hcb]
    exact h.waiting p f e hp (hcontext ▸ hmade) hrun
  · exact h.waiting q g' e hq hmade hrun

theorem InOrder.switched (h : InOrder s) (hwf : WellFormed s) (hcourse : OnCourse s) (hthis : s.tFiber = some save)
    (hsw : Switched s save load s') : InOrder s' := by
  obtain ⟨saver, hsaver, hheap⟩ := hsw.saver
  obtain ⟨saver', hsaver', hrun⟩ := hcourse.this save hthis
  obtain rfl : saver = saver' := Option.some.inj (hsaver.symm.trans hsaver')
  have hgiven : s'.given = s.given := hsw.given
  -- a fresh context that is still there belongs to a fiber that did not execute
  have hother : ∀ q f e, s'.heap q = some f → f.context = .made e → s.heap q = some f ∧ s.running ≠ .own q := by
    intro q f e hq hmade
    rw [hheap, Function.update_apply] at hq
    split at hq
    · cases hq
      cases hmade
    · rename_i hne
      refine ⟨hq, fun heq => hne ?_⟩
      exact hwf.home_inj hq hsaver ((home_own (hwf.made q f e hq hmade)).trans (heq.symm.trans hrun))
  obtain ⟨g, hg, ⟨e, hmade, hentered, _, hbegun⟩ | ⟨_, _, hbegun, _⟩⟩ := hsw.loaded
  · obtain ⟨hg', hne⟩ := hother load g e hg hmade
    obtain ⟨earlier, hearlier, hsub⟩ := h.waiting load g e hg' hmade hne
    refine ⟨fun q => ?_, fun q f e hq hmade' hrun' => ?_, fun q hq => ?_⟩
    · rw [hgiven, hbegun, Function.update_apply]
      split
      · rename_i hql
        rw [hql, hearlier]
        exact hsub.append_right _
      · exact h.begun q
    · obtain ⟨hq', hne'⟩ := hother q f e hq hmade'
      have hql : q ≠ load := fun heq => hrun' (heq ▸ hentered)
      rw [hgiven, hbegun, Function.update_of_ne hql]
      exact h.waiting q f e hq' hmade' hne'
    · rw [hsw.next] at hq
      have hql : q ≠ load := by
        have := hwf.fresh load g hg'
        omega
      rw [hgiven, hbegun, Function.update_of_ne hql]
      exact h.unused q hq
  · refine ⟨fun q => ?_, fun q f e hq hmade' _ => ?_, fun q hq => ?_⟩
    · rw [hgiven, hbegun]
      exact h.begun q
    · obtain ⟨hq', hne'⟩ := hother q f e hq hmade'
      rw [hgiven, hbegun]
      exact h.waiting q f e hq' hmade' hne'
    · rw [hgiven, hbegun]
      exact h.unused q (hsw.next ▸ hq)

theorem InOrder.getThis (h : InOrder s) : InOrder s.getThis.1 := by
  unfold Thread.getThis
  cases s.tFiber with
  | some p => exact h
  | none =>
    refine ⟨h.begun, fun p f e hp hmade hrun => ?_, fun p hp => h.unused p (Nat.le_of_succ_le hp)⟩
    simp only [Thread.setFiber, Function.update_apply] at hp
    split at hp
    · cases hp
      cases hmade
    · exact h.waiting p f e hp hmade hrun

theorem InOrder.newFiber (h : InOrder s) (cb : Option Nat) (useCaller : Bool) : InOrder (s.newFiber cb useCaller) := by
  obtain ⟨_, hbegun⟩ := h.unused s.next (Nat.le_refl _)
  refine ⟨fun p => ?_, fun p f e hp hmade hrun => ?_, fun p hp => ?_⟩
  · show (s.begun p).Sublist (Function.update s.given s.next [cb] p)
    by_cases hnew : p = s.next
    · rw [hnew, hbegun]
      exact List.nil_sublist _
    · rw [Function.update_of_ne hnew]
      exact h.begun p
  · simp only [Thread.newFiber, Thread.setFiber, Function.update_apply] at hp ⊢
    split at hp
    · rename_i hnew
      cases hp
      exact ⟨[], by simp [hnew], by simp [hnew, hbegun]⟩
    · rename_i hold
      rw [if_neg hold]
      exact h.waiting p f e hp hmade hrun
  · have hle : s.next + 1 ≤ p := hp
    have hne : p ≠ s.next := by omega
    simp only [Thread.newFiber, Function.update_of_ne hne]
    exact h.unused p (by omega)

theorem InOrder.reset (h : InOrder s) (hwf : WellFormed s) {cb : Option Nat} (hs : s.reset p cb = some s') :
    InOrder s' := by
  obtain ⟨f, hp, hs⟩ := Option.bind_eq_some_iff.mp hs
  split at hs
  · cases hs
    refine ⟨fun q => ?_, fun q g e hq hmade hrun => ?_, fun q hq => ?_⟩
    · simp only [Function.update_apply]
      split
      · rename_i hqp
        rw [hqp]
        exact (h.begun p).trans (List.sublist_append_left _ _)
      · exact h.begun q
    · simp only [Thread.setFiber, Function.update_apply] at hq ⊢
      split at hq
      · rename_i hqp
        cases hq
        rw [if_pos hqp, hqp]
        exact ⟨s.given p, rfl, h.begun p⟩
      · rename_i hqp
        rw [if_neg hqp]
        exact h.waiting q g e hq hmade hrun
    · have hqp : q ≠ p := by
        have := hwf.fresh p f hp
        have : s.next ≤ q := hq
        omega
      simp only [Function.update_of_ne hqp]
      exact h.unused q hq
  · cases hs

theorem InOrder.destroy (h : InOrder s) (hs : s.destroy p g = some s') : InOrder s' := by
  unfold Thread.destroy at hs
  split at hs
  · cases hs
    refine ⟨h.begun, fun q f e hq => ?_, h.unused⟩
    simp only [Function.update_apply] at hq
    split at hq
    · cases hq
    · exact h.waiting q f e hq
  · cases hs

/-! ## States -/

/-- A fiber with a stack that is not in use has not been begun or has ended. -/
def Idle (s : Thread) : Prop := ∀ p f, s.heap p = some f → f.stack = true → s.active p = false → f.idle = true

theorem Idle.written (h : Idle s) (hp : s.heap p = some f)
    (hsame : g.stack = f.stack ∧ g.state = f.state ∨ s.active p = true) : Idle (s.setFiber p g) := by
  intro q g' hq hstack hactive
  have hactive' : s.active q = false := hactive
  simp only [Thread.setFiber, Function.update_apply] at hq
  split at hq
  · rename_i hqp
    cases hq
    rw [hqp] at hactive'
    obtain ⟨hstack', hstate⟩ := hsame.resolve_right (by simp [hactive'])
    unfold Fiber.idle
    rw [hstate]
    exact h p f hp (hstack' ▸ hstack) hactive'
  · exact h q g' hq hstack hactive'

/-- Only the fibers that are not in use before and after a switch are of interest. -/
theorem idle_switched (hsw : Switched s save load s')
    (h : ∀ p f, s.heap p = some f → f.stack = true → s.active p = false → s'.active p = false → f.idle = true) :
    Idle s' := by
  intro p g hp hstack hactive
  obtain ⟨f, hf, hstack', hstate⟩ := hsw.kept hp
  unfold Fiber.idle
  rw [← hstate]
  refine h p f hf (hstack'.trans hstack) ?_ hactive
  cases hbefore : s.active p with
  | false => rfl
  | true =>
    rw [hsw.active hbefore] at hactive
    cases hactive

theorem Idle.getThis (h : Idle s) : Idle s.getThis.1 := by
  unfold Thread.getThis
  cases s.tFiber with
  | some p => exact h
  | none =>
    intro q g hq hstack hactive
    simp only [Thread.setFiber, Function.update_apply] at hq
    split at hq
    · cases hq
      cases hstack
    · exact h q g hq hstack hactive

theorem Idle.newFiber (h : Idle s) (cb : Option Nat) (useCaller : Bool) : Idle (s.newFiber cb useCaller) := by
  intro q g hq hstack hactive
  simp only [Thread.newFiber, Thread.setFiber, Function.update_apply] at hq
  split at hq
  · cases hq
    rfl
  · exact h q g hq hstack hactive

theorem Idle.reset (h : Idle s) {cb : Option Nat} (hs : s.reset p cb = some s') : Idle s' := by
  obtain ⟨f, hp, hs⟩ := Option.bind_eq_some_iff.mp hs
  split at hs
  · rename_i hguard
    have herased : s'.active = s.active := by
      cases hs
      exact active_erased rfl (by simpa using hguard.2.2)
    intro q g hq hstack hactive
    rw [herased] at hactive
    cases hs
    simp only [Thread.setFiber, Function.update_apply] at hq
    split at hq
    · cases hq
      rfl
    · exact h q g hq hstack hactive
  · cases hs

theorem Idle.destroy (h : Idle s) (hactive : s.active p = false) (hs : s.destroy p g = some s') : Idle s' := by
  unfold Thread.destroy at hs
  split at hs
  · have herased : s'.active = s.active := by
      cases hs
      exact active_erased rfl hactive
    intro q g hq hstack hactive
    rw [herased] at hactive
    cases hs
    simp only [Function.update_apply] at hq
    split at hq
    · cases hq
    · exact h q g hq hstack hactive
  · cases hs

/-! ## Steps -/

/-- The scheduler holds only what it has switched to and what has not ended since. -/
def Tidy (s : Thread) : Act → Prop
  | .hold p => s.active p = true
  | a => Proper s a

instance (s : Thread) : ∀ a, Decidable (Tidy s a)
  | .hold p => inferInstanceAs (Decidable (s.active p = true))
  | .swapIn p => inferInstanceAs (Decidable (Proper s (.swapIn p)))
  | .call p => inferInstanceAs (Decidable (Proper s (.call p)))
  | .swapOut p => inferInstanceAs (Decidable (Proper s (.swapOut p)))
  | .back p => inferInstanceAs (Decidable (Proper s (.back p)))
  | .getThis | .newFiber _ _ | .setMainFiber _ | .yieldToReady | .yieldToHold | .finish _ | .reset _ _ | .copy _
  | .drop _ => .isTrue trivial

theorem Tidy.proper {a : Act} (h : Tidy s a) : Proper s a := by
  cases a with
  | hold p => exact trivial
  | _ => exact h

/-- Both switches out of a fiber save it. -/
theorem out_switch (hs : s.swapOut p = some s' ∨ s.back p = some s') : ∃ m, s.switch p m = some s' := by
  rcases hs with hs | hs
  · obtain ⟨m, _, hs⟩ := Option.bind_eq_some_iff.mp hs
    exact ⟨m, hs⟩
  · obtain ⟨m, _, hs⟩ := Option.bind_eq_some_iff.mp hs
    exact ⟨m, hs⟩

/-- The fiber that executes is in use, if it has a stack. -/
theorem this_active (hexec : Executing s) (hcourse : OnCourse s) (hthis : s.tFiber = some p) (hp : s.heap p = some f)
    (hstack : f.stack = true) : s.active p = true := by
  obtain ⟨f', hf', hrun⟩ := hcourse.this p hthis
  rw [hp] at hf'
  cases hf'
  rw [home_own hstack] at hrun
  exact hexec p hrun

/-- The fiber a switch goes on with is in use after it, whatever its state was set to. -/
theorem idle_loaded (hwf : WellFormed t) (hcourse : OnCourse t)
    (hidle : ∀ q f, t.heap q = some f → f.stack = true → t.active q = false → q ≠ load → f.idle = true)
    (hsw : Switched t save load s') (hthis : t.tFiber = some save) : Idle s' := by
  refine idle_switched hsw fun q f hq hstack hactive hactive' => hidle q f hq hstack hactive ?_
  rintro rfl
  obtain ⟨g, hg, hstack'⟩ := hsw.after hq
  rw [this_active hsw.executing ((hsw.onCourse_iff hwf hcourse).mpr hthis) hsw.tFiber hg (hstack'.trans hstack)] at hactive'
  cases hactive'

section
variable (hwf : WellFormed s) (hcourse : OnCourse s)
include hwf hcourse

/-! ### Functions -/

/-- `swapIn` and `call`. -/
theorem InOrder.entered (h : InOrder s) (hp : s.heap p = some f)
    (hs : (s.setFiber p { f with state := .EXEC }).switch save p = some s') (hthis : s.tFiber = some save) :
    InOrder s' := by
  have hl : Like s (s.setFiber p { f with state := .EXEC }) := like_setFiber hp rfl rfl
  have hwritten := h.written (g := { f with state := .EXEC }) hp (.inl ⟨rfl, rfl⟩)
  exact hwritten.switched (hwf.like hl) (hcourse.like hl) hthis (switch_spec hs)

/-- `swapOut` and `back`. -/
theorem InOrder.left (h : InOrder s) (hs : s.swapOut p = some s' ∨ s.back p = some s') (hthis : s.tFiber = some p) :
    InOrder s' := by
  obtain ⟨m, hs⟩ := out_switch hs
  exact h.switched hwf hcourse hthis (switch_spec hs)

variable (hexec : Executing s)
include hexec

theorem InOrder.yieldTo (h : InOrder s) {state : FiberState} (hs : s.yieldTo state = some s') : InOrder s' := by
  obtain ⟨f, hf, hs⟩ := yieldTo_spec hs
  have hkeeps := keeps_getThis hwf hexec
  have hcourse' := (hkeeps.onCourse_iff hcourse).mpr trivial
  have hl : Like s.getThis.1 (s.getThis.1.setFiber s.getThis.2 { f with state }) := like_setFiber hf rfl rfl
  have hwritten := h.getThis.written (g := { f with state }) hf (.inl ⟨rfl, rfl⟩)
  exact hwritten.left (hkeeps.wellFormed.like hl) (hcourse'.like hl) (.inl hs) (hl.tFiber.trans getThis_tFiber)

theorem InOrder.finish (h : InOrder s) {returned : Bool} (hs : s.finish returned = some s') : InOrder s' := by
  obtain ⟨p, t, hend, hs⟩ := finish_spec hs
  obtain ⟨hcourse', hthis⟩ := hend.onCourse hwf hcourse
  have hwf' := hend.wellFormed hwf hexec
  obtain ⟨f, g, frame, hf, _, _, _, rfl⟩ := hend.written
  have hwritten := h.written (g := g) hf (.inr hend.running)
  exact InOrder.left hwf' hcourse' ⟨hwritten.begun, hwritten.waiting, hwritten.unused⟩ hs hthis

omit hwf hcourse hexec in
theorem InOrder.drop (h : InOrder s) (hs : s.drop p = some s') : InOrder s' := by
  obtain ⟨f, hf, hs⟩ := Option.bind_eq_some_iff.mp hs
  split at hs
  · cases hs
  · dsimp only at hs
    split at hs
    · exact h.destroy hs
    · cases hs
      exact h.written hf (.inl ⟨rfl, rfl⟩)

theorem inOrder_step (h : InOrder s) {a : Act} (hproper : Proper s a) (hs : step s a = some s') : InOrder s' := by
  cases a with
  | getThis =>
    obtain ⟨f, hf, hs⟩ := Option.bind_eq_some_iff.mp hs
    cases hs
    exact h.getThis.written hf (.inl ⟨rfl, rfl⟩)
  | newFiber cb useCaller =>
    cases hs
    exact h.newFiber cb useCaller
  | setMainFiber p =>
    obtain ⟨f, _, rfl⟩ := Option.map_eq_some_iff.mp hs
    exact ⟨h.begun, h.waiting, h.unused⟩
  | swapIn p =>
    obtain ⟨f, hf, hs⟩ := Option.bind_eq_some_iff.mp hs
    split at hs
    · cases hs
    · obtain ⟨m, hm, hs⟩ := Option.bind_eq_some_iff.mp hs
      exact h.entered hwf hcourse hf hs (hproper.trans hm)
  | swapOut p => exact h.left hwf hcourse (.inl hs) hproper
  | call p =>
    obtain ⟨f, hf, hs⟩ := Option.bind_eq_some_iff.mp hs
    obtain ⟨m, hm, hs⟩ := Option.bind_eq_some_iff.mp hs
    exact h.entered hwf hcourse hf hs (hproper.trans hm)
  | back p => exact h.left hwf hcourse (.inr hs) hproper
  | yieldToReady => exact h.yieldTo hwf hcourse hexec hs
  | yieldToHold => exact h.yieldTo hwf hcourse hexec hs
  | finish returned => exact h.finish hwf hcourse hexec hs
  | reset p cb => exact h.reset hwf hs
  | hold p =>
    obtain ⟨f, hf, rfl⟩ := Option.map_eq_some_iff.mp hs
    exact h.written hf (.inl ⟨rfl, rfl⟩)
  | copy p =>
    obtain ⟨f, hf, rfl⟩ := Option.map_eq_some_iff.mp hs
    exact h.written hf (.inl ⟨rfl, rfl⟩)
  | drop p => exact h.drop hs

/-! ### States -/

omit hexec in
theorem Idle.entered (h : Idle s) (hp : s.heap p = some f)
    (hs : (s.setFiber p { f with state := .EXEC }).switch save p = some s') (hthis : s.tFiber = some save) : Idle s' := by
  have hl : Like s (s.setFiber p { f with state := .EXEC }) := like_setFiber hp rfl rfl
  refine idle_loaded (hwf.like hl) (hcourse.like hl) (fun q f' hq hstack hactive hne => ?_) (switch_spec hs) hthis
  simp only [Thread.setFiber, Function.update_of_ne hne] at hq
  exact h q f' hq hstack hactive

omit hexec in
theorem Idle.left (h : Idle s) (hs : s.swapOut p = some s' ∨ s.back p = some s') (hthis : s.tFiber = some p) :
    Idle s' := by
  obtain ⟨m, hs⟩ := out_switch hs
  exact idle_loaded hwf hcourse (fun q f hq hstack hactive _ => h q f hq hstack hactive) (switch_spec hs) hthis

theorem Idle.yieldTo (h : Idle s) {state : FiberState} (hs : s.yieldTo state = some s') : Idle s' := by
  obtain ⟨f, hf, hs⟩ := yieldTo_spec hs
  have hkeeps := keeps_getThis hwf hexec
  have hcourse' := (hkeeps.onCourse_iff hcourse).mpr trivial
  have hl : Like s.getThis.1 (s.getThis.1.setFiber s.getThis.2 { f with state }) := like_setFiber hf rfl rfl
  have hidle : Idle (s.getThis.1.setFiber s.getThis.2 { f with state }) := by
    cases hstack : f.stack with
    | true => exact h.getThis.written hf (.inr (this_active hkeeps.executing hcourse' getThis_tFiber hf hstack))
    | false =>
      intro q g hq hstack' hactive
      simp only [Thread.setFiber, Function.update_apply] at hq
      split at hq
      · cases hq
        exact absurd hstack' Bool.false_ne_true
      · exact h.getThis q g hq hstack' hactive
  exact hidle.left (hkeeps.wellFormed.like hl) (hcourse'.like hl) (.inl hs) (hl.tFiber.trans getThis_tFiber)

theorem Idle.finish (h : Idle s) {returned : Bool} (hs : s.finish returned = some s') : Idle s' := by
  obtain ⟨p, t, hend, hs⟩ := finish_spec hs
  obtain ⟨hcourse', hthis⟩ := hend.onCourse hwf hcourse
  have hwf' := hend.wellFormed hwf hexec
  obtain ⟨f, g, frame, hf, hidle, _, _, rfl⟩ := hend.written
  refine Idle.left hwf' hcourse' (fun q g' hq hstack hactive => ?_) hs hthis
  simp only [Thread.setFrame, Thread.setFiber, Function.update_apply] at hq
  split at hq
  · cases hq
    exact hidle
  · rename_i hqp
    refine h q g' hq hstack ?_
    simpa [Thread.active, Thread.setFrame, Thread.setFiber, hqp] using hactive

omit hwf hcourse hexec in
theorem Idle.drop (h : Idle s) (hs : s.drop p = some s') : Idle s' := by
  obtain ⟨f, hf, hs⟩ := Option.bind_eq_some_iff.mp hs
  split at hs
  · cases hs
  · dsimp only at hs
    split at hs
    · rename_i hlast
      exact h.destroy (by simpa using hlast.2.2) hs
    · cases hs
      exact h.written hf (.inl ⟨rfl, rfl⟩)

theorem idle_step (h : Idle s) {a : Act} (htidy : Tidy s a) (hs : step s a = some s') : Idle s' := by
  cases a with
  | getThis =>
    obtain ⟨f, hf, hs⟩ := Option.bind_eq_some_iff.mp hs
    cases hs
    exact h.getThis.written hf (.inl ⟨rfl, rfl⟩)
  | newFiber cb useCaller =>
    cases hs
    exact h.newFiber cb useCaller
  | setMainFiber p =>
    obtain ⟨f, _, rfl⟩ := Option.map_eq_some_iff.mp hs
    exact h
  | swapIn p =>
    obtain ⟨f, hf, hs⟩ := Option.bind_eq_some_iff.mp hs
    split at hs
    · cases hs
    · obtain ⟨m, hm, hs⟩ := Option.bind_eq_some_iff.mp hs
      exact h.entered hwf hcourse hf hs (htidy.proper.trans hm)
  | swapOut p => exact h.left hwf hcourse (.inl hs) htidy
  | call p =>
    obtain ⟨f, hf, hs⟩ := Option.bind_eq_some_iff.mp hs
    obtain ⟨m, hm, hs⟩ := Option.bind_eq_some_iff.mp hs
    exact h.entered hwf hcourse hf hs (htidy.proper.trans hm)
  | back p => exact h.left hwf hcourse (.inr hs) htidy
  | yieldToReady => exact h.yieldTo hwf hcourse hexec hs
  | yieldToHold => exact h.yieldTo hwf hcourse hexec hs
  | finish returned => exact h.finish hwf hcourse hexec hs
  | reset p cb => exact h.reset hs
  | hold p =>
    obtain ⟨f, hf, rfl⟩ := Option.map_eq_some_iff.mp hs
    exact h.written hf (.inr htidy)
  | copy p =>
    obtain ⟨f, hf, rfl⟩ := Option.map_eq_some_iff.mp hs
    exact h.written hf (.inl ⟨rfl, rfl⟩)
  | drop p => exact h.drop hs

end

/-! ## Runs -/

/-- What every step of a thread on its course keeps holds in every run that keeps it there. -/
theorem onCourse_invariant {I : Thread → Prop} {C : Thread → Act → Prop} (hC : ∀ s a, C s a → Proper s a) (h₀ : I {})
    (hstep : ∀ s a s', WellFormed s → OnCourse s → Executing s → I s → C s a → step s a = some s' → I s')
    {τ : History Thread Act} (hr : Run step {} τ s) (hc : Meets C τ) : I s := by
  have hkept : ((WellFormed s ∧ Executing s) ∧ OnCourse s) ∧ I s := by
    refine hr.invariant (I := fun s => ((WellFormed s ∧ Executing s) ∧ OnCourse s) ∧ I s)
      ⟨⟨⟨wellFormed_first, nofun⟩, ⟨nofun, nofun⟩⟩, h₀⟩ ?_ hc
    intro s a s' ⟨⟨⟨hwf, hexec⟩, hcourse⟩, h⟩ ha hs
    have hkeeps := keeps_step hwf hexec hs
    exact ⟨⟨⟨hkeeps.wellFormed, hkeeps.executing⟩, (hkeeps.onCourse_iff hcourse).mpr (hC s a ha)⟩,
      hstep s a s' hwf hcourse hexec h ha hs⟩
  exact hkept.2

theorem inOrder_run {τ : History Thread Act} (hr : Run step {} τ s) (hc : Meets Proper τ) : InOrder s :=
  onCourse_invariant (fun _ _ h => h) ⟨fun _ => List.Sublist.refl _, nofun, fun _ _ => ⟨rfl, rfl⟩⟩
    (fun _ _ _ hwf hcourse hexec h ha hs => inOrder_step hwf hcourse hexec h ha hs) hr hc

theorem idle_run {τ : History Thread Act} (hr : Run step {} τ s) (hc : Meets Tidy τ) : Idle s :=
  onCourse_invariant (fun _ _ h => h.proper) nofun
    (fun _ _ _ hwf hcourse hexec h ha hs => idle_step hwf hcourse hexec h ha hs) hr hc

/-- A function is begun on the stack of the fiber it was given to, once at most, and the
    functions of a fiber in the order in which it was given them. -/
theorem begun_once {τ : History Thread Act} (hr : Run step {} τ s) (hc : Meets Proper τ) (p : Nat) :
    (s.begun p).Sublist (s.given p) := (inOrder_run hr hc).begun p

/-- A fiber ends, is reset to another function and throws. -/
theorem begun_once_reset : ∃ s : Thread, s.begun 1 = [some 7, some 8] ∧ (s.begun 1).Sublist (s.given 1) := by
  obtain ⟨τ, s, hr, hc, hbegun⟩ := exists_run step Proper {}
    [.getThis, .setMainFiber 0, .newFiber (some 7) false, .swapIn 1, .yieldToReady, .swapIn 1, .finish true,
      .reset 1 (some 8), .swapIn 1, .finish false]
    (fun _ s => s.begun 1 == [some 7, some 8]) (by decide)
  exact ⟨s, by simpa using hbegun, begun_once hr hc 1⟩

/-- A pointer to a fiber can go away at any time: the last one of a fiber that has been begun
    and has not ended is the one on its own stack. -/
theorem drop_safe {τ : History Thread Act} (hr : Run step {} τ s) (hc : Meets Tidy τ) (hp : s.heap p = some f)
    (hpointers : f.pointers ≠ 0) : ∃ s', step s (.drop p) = some s' := by
  have hwf := (wellFormed_run hr).1
  have hidle := idle_run hr hc
  have hdrop : step s (.drop p) = s.drop p := rfl
  rw [hdrop, Thread.drop, hp, Option.bind_eq_bind, Option.bind_some, if_neg hpointers]
  dsimp only
  split
  · rename_i hlast
    obtain ⟨_, hthread, hactive⟩ := hlast
    have hstack : f.stack = true := by
      by_contra hmain
      exact hthread (hwf.main p f hp (Bool.eq_false_iff.mpr hmain))
    have hend : Fiber.mayEnd { f with pointers := f.pointers - 1 } = true := by
      unfold Fiber.mayEnd
      rw [if_pos hstack]
      exact hidle p f hp hstack (by simpa using hactive)
    rw [Thread.destroy, if_pos hend]
    exact ⟨_, rfl⟩
  · exact ⟨_, rfl⟩

/-- The last pointer to a fiber that waits goes away. -/
theorem drop_safe_hold : ∃ s s' : Thread, step s (.drop 1) = some s' ∧ (s.heap 1).map (·.state) = some .HOLD := by
  obtain ⟨τ, s, hr, hc, hheld⟩ := exists_run step Tidy {}
    [.getThis, .setMainFiber 0, .newFiber (some 7) false, .swapIn 1, .yieldToHold]
    (fun _ s => (s.heap 1).any fun f => f.pointers != 0 && f.state == .HOLD) (by decide)
  obtain ⟨f, hf, hstate⟩ := (Option.any_eq_true _ _).mp hheld
  rw [Bool.and_eq_true, bne_iff_ne, beq_iff_eq] at hstate
  obtain ⟨s', hs⟩ := drop_safe hr hc hf hstate.1
  exact ⟨s, s', hs, by rw [hf, Option.map_some, hstate.2]⟩

end LjrServer.Fibers
