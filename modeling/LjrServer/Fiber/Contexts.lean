/-
  LjrServer.Fiber.Contexts — the fibers of one thread and the switches between their contexts
  (fiber.h, fiber.cpp).

  `swapcontext` saves the stack the thread executes on in the context of the fiber it is told
  to, whoever executes, and goes on with what the other context holds. `swapIn` and `swapOut`
  name the fiber of `Scheduler::GetMainFiber()` for one of the two, `call` and `back` the main
  fiber of the thread.

  Fibers are numbered as they are made; the ids and the count that all threads share are left
  out. `none` is a failed assertion, undefined behaviour, or a step that cannot be made, and
  the count of the pointers to a fiber does not wrap. A pointer that a function keeps while it
  is switched out is counted for `MainFunc` and `CallerMainFunc` only, which hold one for as
  long.

  Proved:
  - `wellFormed_run`: what holds of the thread in every run.
  - `onCourse_throughout`: `t_fiber` is the fiber that executes and every other fiber keeps its own
    stack, exactly as long as each switch saves the fiber that makes it.
-/

import Mathlib.Logic.Function.Basic
import Mathlib.Algebra.GroupWithZero.Nat
import Mathlib.Algebra.Ring.Int.Defs
import LjrServer.IoManager.Events
import LjrServer.Lib.Runs

namespace LjrServer.Fibers

open LjrServer.Lib LjrServer.IoManager

inductive Stack where
  | thread
  | own (p : Nat)
  deriving DecidableEq, Repr

/-- What `makecontext` is given. -/
inductive Entry where
  | mainFunc
  | callerMainFunc
  deriving DecidableEq, Repr

/-- `ucontext_t`. -/
inductive Context where
  | got  -- by the `getcontext` of the main fiber's constructor, which returns
  | made (entry : Entry)  -- by `makecontext`, on the stack of the fiber
  | saved (stack : Stack)  -- by `swapcontext`
  deriving DecidableEq, Repr

structure Fiber where
  state : FiberState := .INIT
  context : Context
  /-- `m_stack` is not null. -/
  stack : Bool
  cb : Option Nat
  /-- The pointers to it outside of this file. -/
  pointers : Nat
  deriving DecidableEq, Repr

/-- `MainFunc` or `CallerMainFunc` on the stack of a fiber. -/
structure Frame where
  entry : Entry
  cb : Option Nat
  /-- It is behind the `swapOut` or `back` it ends with. -/
  ended : Bool := false
  deriving DecidableEq, Repr

structure Thread where
  heap : Nat → Option Fiber := fun _ => none
  next : Nat := 0
  frames : Nat → Option Frame := fun _ => none
  /-- The stack the thread executes on. -/
  running : Stack := .thread
  tFiber : Option Nat := none
  tThreadFiber : Option Nat := none
  /-- `t_scheduler_fiber`, which `Scheduler::GetMainFiber` returns. -/
  tSchedulerFiber : Option Nat := none
  /-- The functions each fiber was given, and those begun on its stack. -/
  given : Nat → List (Option Nat) := fun _ => []
  begun : Nat → List (Option Nat) := fun _ => []

/-- The stack a fiber is meant to execute on: a main fiber stands for that of the thread. -/
def Fiber.home (f : Fiber) (p : Nat) : Stack := if f.stack then .own p else .thread

/-- `m_state == TERM || m_state == EXCEPT || m_state == INIT`. -/
def Fiber.idle (f : Fiber) : Bool := f.state == .TERM || f.state == .EXCEPT || f.state == .INIT

/-- What `~Fiber` asserts. -/
def Fiber.mayEnd (f : Fiber) : Bool := if f.stack then f.idle else f.cb.isNone && f.state == .EXEC

namespace Thread

variable (s : Thread)

def setFiber (p : Nat) (f : Fiber) : Thread := { s with heap := Function.update s.heap p (some f) }

def setFrame (p : Nat) (f : Frame) : Thread := { s with frames := Function.update s.frames p (some f) }

/-- `MainFunc` is on the stack of the fiber, and holds a pointer to it. -/
def active (p : Nat) : Bool := (s.frames p).any fun f => !f.ended

/-- `Fiber::GetThis`. -/
def getThis : Thread × Nat :=
  match s.tFiber with
  | some p => (s, p)
  | none =>
    ({ s.setFiber s.next { state := .EXEC, context := .got, stack := false, cb := none, pointers := 0 } with
      next := s.next + 1
      tFiber := some s.next
      tThreadFiber := some s.next }, s.next)

/-- `Fiber::Fiber(cb, stacksize, use_caller)`. -/
def newFiber (cb : Option Nat) (useCaller : Bool) : Thread :=
  { s.setFiber s.next {
      context := .made (if useCaller then .callerMainFunc else .mainFunc)
      stack := true
      cb
      pointers := 1 } with
    next := s.next + 1
    given := Function.update s.given s.next [cb] }

/-- `SetThis(load)` and `swapcontext(&save->m_context, &load->m_context)`. -/
def switch (save load : Nat) : Option Thread := do
  let saver ← s.heap save
  let s := { s.setFiber save { saver with context := .saved s.running } with tFiber := some load }
  let loaded ← s.heap load
  match loaded.context with
  | .got => none
  | .made entry =>
    -- `cur` is `t_fiber`, which `load` has just become
    some { s.setFrame load { entry, cb := loaded.cb } with
      running := .own load
      begun := Function.update s.begun load (s.begun load ++ [loaded.cb]) }
  | .saved .thread => some { s with running := .thread }
  | .saved (.own q) => if s.active q then some { s with running := .own q } else none

def swapIn (p : Nat) : Option Thread := do
  let f ← s.heap p
  if f.state = .EXEC then none
  else (s.setFiber p { f with state := .EXEC }).switch (← s.tSchedulerFiber) p

def swapOut (p : Nat) : Option Thread := do s.switch p (← s.tSchedulerFiber)

def call (p : Nat) : Option Thread := do
  let f ← s.heap p
  (s.setFiber p { f with state := .EXEC }).switch (← s.tThreadFiber) p

def back (p : Nat) : Option Thread := do s.switch p (← s.tThreadFiber)

/-- `YieldToReady`, `YieldToHold`. -/
def yieldTo (state : FiberState) : Option Thread := do
  let (s, cur) := s.getThis
  let f ← s.heap cur
  (s.setFiber cur { f with state }).swapOut cur

/-- The end of `MainFunc` or `CallerMainFunc`, when `m_cb()` returns or throws; a function
    that is empty throws. -/
def finish (returned : Bool) : Option Thread := do
  match s.running with
  | .thread => none
  | .own p =>
    let frame ← s.frames p
    let f ← s.heap p
    if returned ∧ frame.cb = none then none
    -- with `cur.reset()` the fiber would destroy its own stack
    else if f.pointers = 0 then none
    else
      let f := if returned then { f with cb := none, state := .TERM } else { f with state := .EXCEPT }
      let s := (s.setFiber p f).setFrame p { frame with ended := true }
      match frame.entry with
      | .mainFunc => s.swapOut p
      | .callerMainFunc => s.back p

/-- `Fiber::reset`; where the function is executing it would be destroyed. -/
def reset (p : Nat) (cb : Option Nat) : Option Thread := do
  let f ← s.heap p
  if f.stack ∧ f.idle ∧ ¬ s.active p then
    some { s.setFiber p { f with cb, context := .made .mainFunc, state := .INIT } with
      frames := Function.update s.frames p none
      given := Function.update s.given p (s.given p ++ [cb]) }
  else none

/-- `~Fiber`. -/
def destroy (p : Nat) (f : Fiber) : Option Thread :=
  if f.mayEnd then
    some { s with
      heap := Function.update s.heap p none
      frames := Function.update s.frames p none
      tFiber := if ¬ f.stack ∧ s.tFiber = some p then none else s.tFiber }
  else none

/-- A pointer outside of this file goes away. -/
def drop (p : Nat) : Option Thread := do
  let f ← s.heap p
  if f.pointers = 0 then none
  else
    let f := { f with pointers := f.pointers - 1 }
    if f.pointers = 0 ∧ s.tThreadFiber ≠ some p ∧ ¬ s.active p then s.destroy p f else some (s.setFiber p f)

end Thread

inductive Act where
  | getThis
  | newFiber (cb : Option Nat) (useCaller : Bool)
  | setMainFiber (p : Nat)  -- `t_scheduler_fiber = …`, in scheduler.cpp
  | swapIn (p : Nat)
  | swapOut (p : Nat)
  | call (p : Nat)
  | back (p : Nat)
  | yieldToReady
  | yieldToHold
  | finish (returned : Bool)
  | reset (p : Nat) (cb : Option Nat)
  | hold (p : Nat)  -- `m_state = HOLD`, by `Scheduler::run`
  | copy (p : Nat)
  | drop (p : Nat)
  deriving DecidableEq, Repr

def step (s : Thread) : Act → Option Thread
  | .getThis => do
    let (s, p) := s.getThis
    let f ← s.heap p
    some (s.setFiber p { f with pointers := f.pointers + 1 })
  | .newFiber cb useCaller => some (s.newFiber cb useCaller)
  | .setMainFiber p => (s.heap p).map fun _ => { s with tSchedulerFiber := some p }
  | .swapIn p => s.swapIn p
  | .swapOut p => s.swapOut p
  | .call p => s.call p
  | .back p => s.back p
  | .yieldToReady => s.yieldTo .READY
  | .yieldToHold => s.yieldTo .HOLD
  | .finish returned => s.finish returned
  | .reset p cb => s.reset p cb
  | .hold p => (s.heap p).map fun f => s.setFiber p { f with state := .HOLD }
  | .copy p => (s.heap p).map fun f => s.setFiber p { f with pointers := f.pointers + 1 }
  | .drop p => s.drop p

/-! ## What holds in every run -/

structure WellFormed (s : Thread) : Prop where
  fresh : ∀ p f, s.heap p = some f → p < s.next
  /-- There is one main fiber at most. -/
  main : ∀ p f, s.heap p = some f → f.stack = false → s.tThreadFiber = some p
  threadFiber : ∀ p, s.tThreadFiber = some p → ∃ f, s.heap p = some f ∧ f.stack = false
  first : s.tFiber = none → s.running = .thread ∧ s.tThreadFiber = none
  made : ∀ p f e, s.heap p = some f → f.context = .made e → f.stack = true
  frame : ∀ p, s.active p = true → ∃ f, s.heap p = some f ∧ f.stack = true

/-- A stack that the thread executes on is in use. -/
def Executing (s : Thread) : Prop := ∀ p, s.running = .own p → s.active p = true

/-- `t_fiber` is the fiber that executes, and every other fiber has its own stack to go on with. -/
structure OnCourse (s : Thread) : Prop where
  this : ∀ p, s.tFiber = some p → ∃ f, s.heap p = some f ∧ s.running = f.home p
  saved : ∀ p f, s.heap p = some f → f.home p ≠ s.running → (∃ e, f.context = .made e) ∨ f.context = .saved (f.home p)

/-- What the two properties look at. -/
structure Like (s t : Thread) : Prop where
  heap : ∀ p, (t.heap p).map (fun f => (f.stack, f.context)) = (s.heap p).map fun f => (f.stack, f.context)
  next : t.next = s.next
  active : t.active = s.active
  running : t.running = s.running
  tFiber : t.tFiber = s.tFiber
  tThreadFiber : t.tThreadFiber = s.tThreadFiber

variable {s s' t : Thread} {p q : Nat} {f g : Fiber}

theorem home_own (h : f.stack = true) : f.home p = .own p := if_pos h

theorem home_thread (h : f.stack = false) : f.home p = .thread := if_neg (by simp [h])

theorem home_congr (h : g.stack = f.stack) : g.home p = f.home p := by
  unfold Fiber.home
  rw [h]

/-- Two fibers have two stacks. -/
theorem WellFormed.home_inj (h : WellFormed s) (hp : s.heap p = some f) (hq : s.heap q = some g)
    (heq : f.home p = g.home q) : p = q := by
  cases hf : f.stack with
  | false =>
    cases hg : g.stack with
    | false => exact Option.some.inj ((h.main p f hp hf).symm.trans (h.main q g hq hg))
    | true => simp [home_thread hf, home_own hg] at heq
  | true =>
    cases hg : g.stack with
    | false => simp [home_own hf, home_thread hg] at heq
    | true => simpa [home_own hf, home_own hg] using heq

/-! ### Fibers that look the same -/

theorem Like.refl (s : Thread) : Like s s := ⟨fun _ => rfl, rfl, rfl, rfl, rfl, rfl⟩

theorem like_setFiber (hp : s.heap p = some f) (hstack : g.stack = f.stack) (hcontext : g.context = f.context) :
    Like s (s.setFiber p g) := by
  refine ⟨fun q => ?_, rfl, rfl, rfl, rfl, rfl⟩
  by_cases hq : q = p
  · subst hq
    simp [Thread.setFiber, hp, hstack, hcontext]
  · simp [Thread.setFiber, hq]

theorem Like.some (h : Like s t) (hp : t.heap p = some g) : ∃ f, s.heap p = some f ∧ f.stack = g.stack ∧ f.context = g.context := by
  have hmap := h.heap p
  rw [hp] at hmap
  cases hs : s.heap p with
  | none =>
    rw [hs] at hmap
    cases hmap
  | some f =>
    rw [hs] at hmap
    simp only [Option.map_some, Option.some.injEq, Prod.mk.injEq] at hmap
    exact ⟨f, rfl, hmap.1.symm, hmap.2.symm⟩

theorem Like.symm (h : Like s t) : Like t s :=
  ⟨fun p => (h.heap p).symm, h.next.symm, h.active.symm, h.running.symm, h.tFiber.symm, h.tThreadFiber.symm⟩

theorem WellFormed.like (h : WellFormed s) (hl : Like s t) : WellFormed t := by
  refine ⟨fun p g hp => ?_, fun p g hp hg => ?_, fun p hp => ?_, fun hnone => ?_, fun p g e hp hg => ?_, fun p hp => ?_⟩
  · obtain ⟨f, hf, _, _⟩ := hl.some hp
    rw [hl.next]
    exact h.fresh p f hf
  · obtain ⟨f, hf, hstack, _⟩ := hl.some hp
    rw [hl.tThreadFiber]
    exact h.main p f hf (hstack.trans hg)
  · rw [hl.tThreadFiber] at hp
    obtain ⟨f, hf, hfalse⟩ := h.threadFiber p hp
    obtain ⟨g, hg, hstack, _⟩ := hl.symm.some hf
    exact ⟨g, hg, hstack.trans hfalse⟩
  · rw [hl.running, hl.tThreadFiber]
    exact h.first (hl.tFiber ▸ hnone)
  · obtain ⟨f, hf, hstack, hcontext⟩ := hl.some hp
    exact hstack ▸ h.made p f e hf (hcontext.trans hg)
  · rw [hl.active] at hp
    obtain ⟨f, hf, htrue⟩ := h.frame p hp
    obtain ⟨g, hg, hstack, _⟩ := hl.symm.some hf
    exact ⟨g, hg, hstack.trans htrue⟩

theorem Executing.like (h : Executing s) (hl : Like s t) : Executing t := by
  intro p hp
  rw [hl.active]
  exact h p (hl.running ▸ hp)

theorem OnCourse.like (h : OnCourse s) (hl : Like s t) : OnCourse t := by
  refine ⟨fun p hp => ?_, fun p g hp hne => ?_⟩
  · obtain ⟨f, hf, hrun⟩ := h.this p (hl.tFiber ▸ hp)
    obtain ⟨g, hg, hstack, _⟩ := hl.symm.some hf
    exact ⟨g, hg, by rw [hl.running, hrun, home_congr hstack]⟩
  · obtain ⟨f, hf, hstack, hcontext⟩ := hl.some hp
    rw [hl.running, ← home_congr hstack] at hne
    rw [← hcontext, ← home_congr hstack]
    exact h.saved p f hf hne

/-! ### Switches -/

/-- What a switch does: it saves the stack that executes, and enters the function of a fresh
    context or goes on with the stack of a saved one. -/
structure Switched (s : Thread) (save load : Nat) (s' : Thread) : Prop where
  saver : ∃ f, s.heap save = some f ∧ s'.heap = Function.update s.heap save (some { f with context := .saved s.running })
  tFiber : s'.tFiber = some load
  tThreadFiber : s'.tThreadFiber = s.tThreadFiber
  next : s'.next = s.next
  given : s'.given = s.given
  loaded : ∃ f, s'.heap load = some f ∧
    ((∃ e, f.context = .made e ∧ s'.running = .own load ∧
        s'.frames = Function.update s.frames load (some { entry := e, cb := f.cb }) ∧
        s'.begun = Function.update s.begun load (s.begun load ++ [f.cb])) ∨
      (f.context = .saved s'.running ∧ s'.frames = s.frames ∧ s'.begun = s.begun ∧
        ∀ q, s'.running = .own q → s.active q = true))

theorem switch_spec {save load : Nat} (h : s.switch save load = some s') : Switched s save load s' := by
  obtain ⟨saver, hsaver, h⟩ := Option.bind_eq_some_iff.mp h
  obtain ⟨loaded, hloaded, h⟩ := Option.bind_eq_some_iff.mp h
  cases hcontext : loaded.context with
  | got =>
    rw [hcontext] at h
    cases h
  | made e =>
    rw [hcontext] at h
    cases h
    exact ⟨⟨saver, hsaver, rfl⟩, rfl, rfl, rfl, rfl, loaded, hloaded, .inl ⟨e, hcontext, rfl, rfl, rfl⟩⟩
  | saved stack =>
    rw [hcontext] at h
    cases stack with
    | thread =>
      cases h
      exact ⟨⟨saver, hsaver, rfl⟩, rfl, rfl, rfl, rfl, loaded, hloaded, .inr ⟨hcontext, rfl, rfl, nofun⟩⟩
    | own q =>
      dsimp only at h
      split at h
      · rename_i hactive
        cases h
        refine ⟨⟨saver, hsaver, rfl⟩, rfl, rfl, rfl, rfl, loaded, hloaded, .inr ⟨hcontext, rfl, rfl, ?_⟩⟩
        rintro _ ⟨⟩
        exact hactive
      · cases h

theorem active_setFrame {e : Entry} {cb : Option Nat} (h : s'.frames = Function.update s.frames p (some { entry := e, cb })) :
    s'.active q = if q = p then true else s.active q := by
  unfold Thread.active
  rw [h]
  by_cases hq : q = p
  · subst hq
    simp
  · simp [hq]

theorem active_congr (h : s'.frames = s.frames) : s'.active q = s.active q := by
  unfold Thread.active
  rw [h]

section
variable {save load : Nat} (hsw : Switched s save load s')
include hsw

/-- Each fiber is what it was, but for the context that is saved. -/
theorem Switched.before (hp : s'.heap p = some g) : ∃ f, s.heap p = some f ∧ f.stack = g.stack ∧
    g.context = if p = save then .saved s.running else f.context := by
  obtain ⟨f, hf, hheap⟩ := hsw.saver
  rw [hheap, Function.update_apply] at hp
  split at hp
  · rename_i hsave
    cases hp
    exact ⟨f, hsave ▸ hf, rfl, (if_pos hsave).symm⟩
  · rename_i hsave
    exact ⟨g, hp, rfl, (if_neg hsave).symm⟩

/-- All but the context is kept. -/
theorem Switched.kept (hp : s'.heap p = some g) : ∃ f, s.heap p = some f ∧ f.stack = g.stack ∧ f.state = g.state := by
  obtain ⟨f, hf, hheap⟩ := hsw.saver
  rw [hheap, Function.update_apply] at hp
  split at hp
  · rename_i hsave
    cases hp
    exact ⟨f, hsave ▸ hf, rfl, rfl⟩
  · exact ⟨g, hp, rfl, rfl⟩

theorem Switched.active (hp : s.active p = true) : s'.active p = true := by
  obtain ⟨g, _, ⟨e, _, _, hframes, _⟩ | ⟨_, hframes, _⟩⟩ := hsw.loaded
  · rw [active_setFrame hframes]
    split
    · rfl
    · exact hp
  · rwa [active_congr hframes]

theorem Switched.after (hp : s.heap p = some f) : ∃ g, s'.heap p = some g ∧ g.stack = f.stack := by
  obtain ⟨f', hf', hheap⟩ := hsw.saver
  rw [hheap, Function.update_apply]
  split
  · rename_i hsave
    rw [hsave, hf'] at hp
    cases hp
    exact ⟨_, rfl, rfl⟩
  · exact ⟨f, hp, rfl⟩

theorem Switched.wellFormed (h : WellFormed s) : WellFormed s' := by
  refine ⟨fun p g hp => ?_, fun p g hp hg => ?_, fun p hp => ?_, fun hnone => ?_, fun p g e hp hg => ?_, fun p hp => ?_⟩
  · obtain ⟨f, hf, _, _⟩ := hsw.before hp
    rw [hsw.next]
    exact h.fresh p f hf
  · obtain ⟨f, hf, hstack, _⟩ := hsw.before hp
    rw [hsw.tThreadFiber]
    exact h.main p f hf (hstack.trans hg)
  · rw [hsw.tThreadFiber] at hp
    obtain ⟨f, hf, hfalse⟩ := h.threadFiber p hp
    obtain ⟨g, hg, hstack⟩ := hsw.after hf
    exact ⟨g, hg, hstack.trans hfalse⟩
  · rw [hsw.tFiber] at hnone
    cases hnone
  · obtain ⟨f, hf, hstack, hcontext⟩ := hsw.before hp
    rw [hg] at hcontext
    split at hcontext
    · cases hcontext
    · exact hstack ▸ h.made p f e hf hcontext.symm
  · obtain ⟨g, hg, hentered | ⟨_, hframes, _⟩⟩ := hsw.loaded
    · obtain ⟨e, hmade, _, hframes, _⟩ := hentered
      rw [active_setFrame hframes] at hp
      split at hp
      · rename_i hload
        obtain ⟨f, hf, hstack, hcontext⟩ := hsw.before hg
        rw [hmade] at hcontext
        split at hcontext
        · cases hcontext
        · rw [hload]
          exact ⟨g, hg, hstack ▸ h.made load f e hf hcontext.symm⟩
      · obtain ⟨f, hf, htrue⟩ := h.frame p hp
        obtain ⟨g, hg, hstack⟩ := hsw.after hf
        exact ⟨g, hg, hstack.trans htrue⟩
    · rw [active_congr hframes] at hp
      obtain ⟨f, hf, htrue⟩ := h.frame p hp
      obtain ⟨g, hg, hstack⟩ := hsw.after hf
      exact ⟨g, hg, hstack.trans htrue⟩

/-- What is switched to is in use, whatever the thread executed before. -/
theorem Switched.executing : Executing s' := by
  intro q hq
  obtain ⟨g, _, ⟨e, _, hrun, hframes, _⟩ | ⟨_, hframes, _, hactive⟩⟩ := hsw.loaded
  · rw [hrun] at hq
    cases hq
    rw [active_setFrame hframes, if_pos rfl]
  · rw [active_congr hframes]
    exact hactive q hq

/-- A switch keeps the thread on its course exactly when the fiber it saves is the one that
    makes it. -/
theorem Switched.onCourse_iff (hwf : WellFormed s) (h : OnCourse s) : OnCourse s' ↔ s.tFiber = some save := by
  have hwf' := hsw.wellFormed hwf
  obtain ⟨saver, hsaver, hheap⟩ := hsw.saver
  have hsaved : s'.heap save = some { saver with context := .saved s.running } := by
    rw [hheap, Function.update_self]
  obtain ⟨g, hg, hloaded⟩ := hsw.loaded
  constructor
  · intro h'
    by_contra hother
    -- the saved fiber has been given a stack that is not its own
    have hforeign : saver.home save ≠ s.running := by
      intro heq
      cases hthis : s.tFiber with
      | none =>
        obtain ⟨hthread, hnone⟩ := hwf.first hthis
        cases hstack : saver.stack with
        | true => simp [home_own hstack, hthread] at heq
        | false =>
          rw [hwf.main save saver hsaver hstack] at hnone
          cases hnone
      | some q =>
        obtain ⟨f, hf, hrun⟩ := h.this q hthis
        rw [hthis, hwf.home_inj hsaver hf (heq.trans hrun)] at hother
        exact hother rfl
    by_cases hrun : saver.home save = s'.running
    · obtain ⟨g', hg', hrun'⟩ := h'.this load hsw.tFiber
      have hload : save = load := hwf'.home_inj hsaved hg' (hrun.trans hrun')
      rw [← hload, hsaved] at hg
      cases hg
      rcases hloaded with ⟨e, hmade, _⟩ | ⟨hcontext, _⟩
      · cases hmade
      · rw [← Context.saved.inj hcontext] at hrun
        exact hforeign hrun
    · rcases h'.saved save _ hsaved hrun with ⟨e, hmade⟩ | hcontext
      · cases hmade
      · exact hforeign (Context.saved.inj hcontext).symm
  · intro hthis
    obtain ⟨f, hf, hrun⟩ := h.this save hthis
    obtain rfl : saver = f := Option.some.inj (hsaver.symm.trans hf)
    have hhome : s'.running = g.home load := by
      rcases hloaded with ⟨e, hmade, hentered, _⟩ | ⟨hcontext, _⟩
      · rw [hentered, home_own (hwf'.made load g e hg hmade)]
      · by_cases hload : load = save
        · rw [hload, hsaved] at hg
          cases hg
          rw [← Context.saved.inj hcontext, hrun, hload]
          rfl
        · obtain ⟨f, hf, hstack, heq⟩ := hsw.before hg
          rw [if_neg hload] at heq
          have hother : f.home load ≠ s.running := fun h => hload (hwf.home_inj hf hsaver (h.trans hrun))
          rcases h.saved load f hf hother with ⟨e, hmade⟩ | hown
          · rw [hcontext, hmade] at heq
            cases heq
          · rw [hcontext, hown] at heq
            exact (Context.saved.inj heq).trans (home_congr hstack)
    refine ⟨fun p hp => ?_, fun p g' hp hne => ?_⟩
    · rw [hsw.tFiber] at hp
      cases hp
      exact ⟨g, hg, hhome⟩
    · obtain ⟨f', hf', hstack, hcontext⟩ := hsw.before hp
      split at hcontext
      · rename_i hsave
        rw [hsave] at hf' ⊢
        obtain rfl : f' = saver := Option.some.inj (hf'.symm.trans hsaver)
        rw [hcontext, hrun, home_congr hstack.symm]
        exact .inr rfl
      · rename_i hsave
        rw [hcontext, ← home_congr hstack]
        exact h.saved p f' hf' fun heq => hsave (hwf.home_inj hf' hsaver (heq.trans hrun))

end

/-! ### Steps -/

/-- The switch a step makes saves the fiber that makes it. -/
def Proper (s : Thread) : Act → Prop
  | .swapIn _ => s.tFiber = s.tSchedulerFiber
  | .call _ => s.tFiber = s.tThreadFiber
  | .swapOut p => s.tFiber = some p
  | .back p => s.tFiber = some p
  | _ => True

instance (s : Thread) : ∀ a, Decidable (Proper s a)
  | .swapIn _ => inferInstanceAs (Decidable (s.tFiber = s.tSchedulerFiber))
  | .call _ => inferInstanceAs (Decidable (s.tFiber = s.tThreadFiber))
  | .swapOut p => inferInstanceAs (Decidable (s.tFiber = some p))
  | .back p => inferInstanceAs (Decidable (s.tFiber = some p))
  | .getThis | .newFiber _ _ | .setMainFiber _ | .yieldToReady | .yieldToHold | .finish _ | .reset _ _ | .hold _ | .copy _
  | .drop _ => .isTrue trivial

/-- What a step keeps. -/
structure Keeps (s : Thread) (proper : Prop) (s' : Thread) : Prop where
  wellFormed : WellFormed s'
  executing : Executing s'
  onCourse_iff : OnCourse s → (OnCourse s' ↔ proper)

section
variable (hwf : WellFormed s) (hexec : Executing s)
include hwf hexec

theorem keeps_like {proper : Prop} (hl : Like s s') (hproper : proper) : Keeps s proper s' :=
  ⟨hwf.like hl, hexec.like hl, fun h => iff_of_true (h.like hl) hproper⟩

omit hexec in
theorem keeps_switch {proper : Prop} {save load : Nat} (hl : Like s t) (hsw : Switched t save load s')
    (hproper : OnCourse s → (s.tFiber = some save ↔ proper)) : Keeps s proper s' := by
  refine ⟨hsw.wellFormed (hwf.like hl), hsw.executing, fun h => ?_⟩
  rw [hsw.onCourse_iff (hwf.like hl) (h.like hl), hl.tFiber]
  exact hproper h

end

/-! ### Fibers that are made -/

/-- A fiber is made, and the others are what they were. -/
structure Added (s : Thread) (g : Fiber) (s' : Thread) : Prop where
  heap : s'.heap = Function.update s.heap s.next (some g)
  next : s'.next = s.next + 1
  active : s'.active = s.active
  running : s'.running = s.running

section
variable (hadd : Added s g s') (hwf : WellFormed s)
include hadd

theorem Added.new_or_old (hp : s'.heap p = some f) : p = s.next ∧ f = g ∨ s.heap p = some f := by
  rw [hadd.heap, Function.update_apply] at hp
  split at hp
  · rename_i hnew
    exact .inl ⟨hnew, (Option.some.inj hp).symm⟩
  · exact .inr hp

theorem Added.new : s'.heap s.next = some g := by rw [hadd.heap, Function.update_self]

include hwf

theorem Added.old (hp : s.heap p = some f) : s'.heap p = some f := by
  rwa [hadd.heap, Function.update_of_ne (Nat.ne_of_lt (hwf.fresh p f hp))]

theorem Added.fresh (hp : s'.heap p = some f) : p < s'.next := by
  rw [hadd.next]
  rcases hadd.new_or_old hp with ⟨rfl, _⟩ | hold
  · exact Nat.lt_succ_self _
  · exact Nat.lt_succ_of_lt (hwf.fresh p f hold)

theorem Added.frame (hp : s'.active p = true) : ∃ f, s'.heap p = some f ∧ f.stack = true := by
  rw [hadd.active] at hp
  obtain ⟨f, hf, htrue⟩ := hwf.frame p hp
  exact ⟨f, hadd.old hwf hf, htrue⟩

theorem keeps_newFiber (hexec : Executing s) (hstack : g.stack = true) (hmade : ∃ e, g.context = .made e)
    (hthis : s'.tFiber = s.tFiber) (hthread : s'.tThreadFiber = s.tThreadFiber) : Keeps s True s' := by
  refine ⟨⟨fun p f hp => hadd.fresh hwf hp, fun p f hp hf => ?_, fun p hp => ?_, fun hnone => ?_, fun p f e hp hf => ?_,
    fun p hp => hadd.frame hwf hp⟩, fun p hp => ?_, fun h => iff_of_true ⟨fun p hp => ?_, fun p f hp hne => ?_⟩ trivial⟩
  · rcases hadd.new_or_old hp with ⟨_, rfl⟩ | hold
    · rw [hstack] at hf
      cases hf
    · rw [hthread]
      exact hwf.main p f hold hf
  · obtain ⟨f, hf, hfalse⟩ := hwf.threadFiber p (hthread ▸ hp)
    exact ⟨f, hadd.old hwf hf, hfalse⟩
  · rw [hadd.running, hthread]
    exact hwf.first (hthis ▸ hnone)
  · rcases hadd.new_or_old hp with ⟨_, rfl⟩ | hold
    · exact hstack
    · exact hwf.made p f e hold hf
  · rw [hadd.active]
    exact hexec p (hadd.running ▸ hp)
  · obtain ⟨f, hf, hhome⟩ := h.this p (hthis ▸ hp)
    exact ⟨f, hadd.old hwf hf, hadd.running.trans hhome⟩
  · rcases hadd.new_or_old hp with ⟨_, rfl⟩ | hold
    · exact .inl hmade
    · rw [hadd.running] at hne
      exact h.saved p f hold hne

theorem keeps_mainFiber (hstack : g.stack = false) (hgot : g.context = .got) (hnone : s.tFiber = none)
    (hthis : s'.tFiber = some s.next) (hthread : s'.tThreadFiber = some s.next) : Keeps s True s' := by
  obtain ⟨hrunning, hnothread⟩ := hwf.first hnone
  have hrun : s'.running = .thread := hadd.running.trans hrunning
  refine ⟨⟨fun p f hp => hadd.fresh hwf hp, fun p f hp hf => ?_, fun p hp => ?_, fun hnone' => ?_, fun p f e hp hf => ?_,
    fun p hp => hadd.frame hwf hp⟩, fun p hp => ?_, fun h => iff_of_true ⟨fun p hp => ?_, fun p f hp hne => ?_⟩ trivial⟩
  · rcases hadd.new_or_old hp with ⟨rfl, _⟩ | hold
    · exact hthread
    · have hmain := hwf.main p f hold hf
      rw [hnothread] at hmain
      cases hmain
  · rw [hthread] at hp
    cases hp
    exact ⟨g, hadd.new, hstack⟩
  · rw [hthis] at hnone'
    cases hnone'
  · rcases hadd.new_or_old hp with ⟨_, rfl⟩ | hold
    · rw [hgot] at hf
      cases hf
    · exact hwf.made p f e hold hf
  · rw [hrun] at hp
    cases hp
  · rw [hthis] at hp
    cases hp
    exact ⟨g, hadd.new, by rw [hrun, home_thread hstack]⟩
  · rcases hadd.new_or_old hp with ⟨_, rfl⟩ | hold
    · rw [hrun, home_thread hstack] at hne
      exact absurd rfl hne
    · rw [hadd.running] at hne
      exact h.saved p f hold hne

end

theorem keeps_getThis (hwf : WellFormed s) (hexec : Executing s) : Keeps s True s.getThis.1 := by
  unfold Thread.getThis
  cases hthis : s.tFiber with
  | some p => exact keeps_like hwf hexec (Like.refl s) trivial
  | none => exact keeps_mainFiber ⟨rfl, rfl, rfl, rfl⟩ hwf rfl rfl hthis rfl rfl

theorem getThis_tFiber : s.getThis.1.tFiber = some s.getThis.2 := by
  unfold Thread.getThis
  cases hthis : s.tFiber with
  | some p => exact hthis
  | none => rfl

/-! ### Fibers that are reset or go away -/

theorem active_erased (h : s'.frames = Function.update s.frames p none) (hactive : s.active p = false) :
    s'.active = s.active := by
  funext q
  by_cases hq : q = p
  · rw [hq, hactive]
    simp [Thread.active, h]
  · simp [Thread.active, h, hq]

theorem keeps_reset (hwf : WellFormed s) (hexec : Executing s) {cb : Option Nat} (hs : s.reset p cb = some s') :
    Keeps s True s' := by
  obtain ⟨f, hp, hs⟩ := Option.bind_eq_some_iff.mp hs
  split at hs
  · rename_i hguard
    obtain ⟨hstack, _, hidle⟩ := hguard
    cases hs
    have hactive : Thread.active { s.setFiber p { f with cb, context := .made .mainFunc, state := .INIT } with
        frames := Function.update s.frames p none
        given := Function.update s.given p (s.given p ++ [cb]) } = s.active :=
      active_erased rfl (by simpa using hidle)
    have hold : ∀ q g, Function.update s.heap p (some { f with cb, context := .made .mainFunc, state := .INIT }) q = some g →
        ∃ f, s.heap q = some f ∧ f.stack = g.stack ∧ ((∃ e, g.context = .made e) ∧ q = p ∨ g.context = f.context) := by
      intro q g hq
      rw [Function.update_apply] at hq
      split at hq
      · rename_i hqp
        cases hq
        exact ⟨f, hqp ▸ hp, rfl, .inl ⟨⟨_, rfl⟩, hqp⟩⟩
      · exact ⟨g, hq, rfl, .inr rfl⟩
    have hnew : ∀ q f', s.heap q = some f' →
        ∃ g, Function.update s.heap p (some { f with cb, context := .made .mainFunc, state := .INIT }) q = some g ∧
          g.stack = f'.stack := by
      intro q f' hq
      rw [Function.update_apply]
      split
      · rename_i hqp
        rw [hqp, hp] at hq
        cases hq
        exact ⟨_, rfl, rfl⟩
      · exact ⟨f', hq, rfl⟩
    refine ⟨⟨fun q g hq => ?_, fun q g hq hg => ?_, fun q hq => ?_, hwf.first, fun q g e hq hg => ?_,
      fun q hq => ?_⟩, fun q hq => ?_, fun h => iff_of_true ⟨fun q hq => ?_, fun q g hq hne => ?_⟩ trivial⟩
    · obtain ⟨f', hf', _⟩ := hold q g hq
      exact hwf.fresh q f' hf'
    · obtain ⟨f', hf', hsame, _⟩ := hold q g hq
      exact hwf.main q f' hf' (hsame.trans hg)
    · obtain ⟨f', hf', hfalse⟩ := hwf.threadFiber q hq
      obtain ⟨g, hg, hsame⟩ := hnew q f' hf'
      exact ⟨g, hg, hsame.trans hfalse⟩
    · obtain ⟨f', hf', hsame, ⟨_, hqp⟩ | hcontext⟩ := hold q g hq
      · rw [hqp, hp] at hf'
        cases hf'
        exact hsame ▸ hstack
      · exact hsame ▸ hwf.made q f' e hf' (hcontext ▸ hg)
    · rw [hactive] at hq
      obtain ⟨f', hf', htrue⟩ := hwf.frame q hq
      obtain ⟨g, hg, hsame⟩ := hnew q f' hf'
      exact ⟨g, hg, hsame.trans htrue⟩
    · rw [hactive]
      exact hexec q hq
    · obtain ⟨f', hf', hrun⟩ := h.this q hq
      obtain ⟨g, hg, hsame⟩ := hnew q f' hf'
      exact ⟨g, hg, hrun.trans (home_congr hsame).symm⟩
    · obtain ⟨f', hf', hsame, ⟨hmade, _⟩ | hcontext⟩ := hold q g hq
      · exact .inl hmade
      · rw [hcontext, ← home_congr hsame]
        rw [← home_congr hsame] at hne
        exact h.saved q f' hf' hne
  · cases hs

theorem keeps_destroy (hwf : WellFormed s) (hexec : Executing s) (hp : s.heap p = some f) (hsame : g.stack = f.stack)
    (hactive : s.active p = false) (hthread : s.tThreadFiber ≠ some p) (hs : s.destroy p g = some s') : Keeps s True s' := by
  have hstack : f.stack = true := by
    by_contra hmain
    exact hthread (hwf.main p f hp (Bool.eq_false_iff.mpr hmain))
  have hkeep : ¬ (¬ g.stack = true ∧ s.tFiber = some p) := fun h => h.1 (hsame.trans hstack)
  unfold Thread.destroy at hs
  rw [if_neg hkeep] at hs
  split at hs
  · cases hs
    have hactive' : Thread.active { s with
        heap := Function.update s.heap p none
        frames := Function.update s.frames p none } = s.active := active_erased rfl hactive
    have hold : ∀ q g, Function.update s.heap p none q = some g → s.heap q = some g := by
      intro q g hq
      rw [Function.update_apply] at hq
      split at hq
      · cases hq
      · exact hq
    have hnew : ∀ q f', s.heap q = some f' → q ≠ p → Function.update s.heap p none q = some f' := fun q f' hq hne => by
      rwa [Function.update_of_ne hne]
    refine ⟨⟨fun q g hq => hwf.fresh q g (hold q g hq), fun q g hq => hwf.main q g (hold q g hq), fun q hq => ?_, hwf.first,
      fun q g e hq => hwf.made q g e (hold q g hq), fun q hq => ?_⟩, fun q hq => ?_,
      fun h => iff_of_true ⟨fun q hq => ?_, fun q g hq => h.saved q g (hold q g hq)⟩ trivial⟩
    · obtain ⟨f', hf', hfalse⟩ := hwf.threadFiber q hq
      exact ⟨f', hnew q f' hf' fun hqp => hthread (hqp ▸ hq), hfalse⟩
    · rw [hactive'] at hq
      obtain ⟨f', hf', htrue⟩ := hwf.frame q hq
      refine ⟨f', hnew q f' hf' fun hqp => ?_, htrue⟩
      rw [hqp, hactive] at hq
      cases hq
    · rw [hactive']
      exact hexec q hq
    · obtain ⟨f', hf', hrun⟩ := h.this q hq
      refine ⟨f', hnew q f' hf' fun hqp => ?_, hrun⟩
      rw [hqp, hp] at hf'
      cases hf'
      rw [hqp, home_own hstack] at hrun
      rw [hexec p hrun] at hactive
      cases hactive
  · cases hs

/-! ### Runs -/

theorem keeps_swapOut (hwf : WellFormed s) (hs : s.swapOut p = some s') : Keeps s (s.tFiber = some p) s' := by
  obtain ⟨m, _, hs⟩ := Option.bind_eq_some_iff.mp hs
  exact keeps_switch hwf (Like.refl s) (switch_spec hs) fun _ => Iff.rfl

theorem keeps_back (hwf : WellFormed s) (hs : s.back p = some s') : Keeps s (s.tFiber = some p) s' := by
  obtain ⟨m, _, hs⟩ := Option.bind_eq_some_iff.mp hs
  exact keeps_switch hwf (Like.refl s) (switch_spec hs) fun _ => Iff.rfl

theorem yieldTo_spec {state : FiberState} (hs : s.yieldTo state = some s') : ∃ f,
    s.getThis.1.heap s.getThis.2 = some f ∧
      (s.getThis.1.setFiber s.getThis.2 { f with state }).swapOut s.getThis.2 = some s' := Option.bind_eq_some_iff.mp hs

theorem keeps_yieldTo (hwf : WellFormed s) (hexec : Executing s) {state : FiberState} (hs : s.yieldTo state = some s') :
    Keeps s True s' := by
  obtain ⟨f, hf, hs⟩ := yieldTo_spec hs
  have hget := keeps_getThis hwf hexec
  have hl : Like s.getThis.1 (s.getThis.1.setFiber s.getThis.2 { f with state }) := like_setFiber hf rfl rfl
  have hout := keeps_swapOut (hget.wellFormed.like hl) hs
  refine ⟨hout.wellFormed, hout.executing, fun h => ?_⟩
  rw [hout.onCourse_iff (((hget.onCourse_iff h).mpr trivial).like hl), hl.tFiber]
  exact iff_true_intro getThis_tFiber

/-- What `finish` writes before it switches. -/
structure Ended (s : Thread) (p : Nat) (t : Thread) : Prop where
  running : s.running = .own p
  written : ∃ (f g : Fiber) (frame : Frame), s.heap p = some f ∧ g.idle = true ∧ g.stack = f.stack ∧
    g.context = f.context ∧ t = (s.setFiber p g).setFrame p { frame with ended := true }

/-- A function ends on the stack that executes, and its fiber goes where it came from. -/
theorem finish_spec {returned : Bool} (hs : s.finish returned = some s') :
    ∃ p t, Ended s p t ∧ (t.swapOut p = some s' ∨ t.back p = some s') := by
  unfold Thread.finish at hs
  cases hrun : s.running with
  | thread =>
    rw [hrun] at hs
    cases hs
  | own p =>
    rw [hrun] at hs
    obtain ⟨frame, hframe, hs⟩ := Option.bind_eq_some_iff.mp hs
    obtain ⟨f, hf, hs⟩ := Option.bind_eq_some_iff.mp hs
    split at hs
    · cases hs
    · split at hs
      · cases hs
      · refine ⟨p, _, ⟨hrun, f, if returned then { f with cb := none, state := .TERM } else { f with state := .EXCEPT },
          frame, hf, ?_, ?_, ?_, rfl⟩, ?_⟩
        · cases returned <;> rfl
        · cases returned <;> rfl
        · cases returned <;> rfl
        · dsimp only at hs
          cases hentry : frame.entry with
          | mainFunc =>
            rw [hentry] at hs
            exact .inl hs
          | callerMainFunc =>
            rw [hentry] at hs
            exact .inr hs

theorem Ended.onCourse (hend : Ended s p t) (hwf : WellFormed s) (hcourse : OnCourse s) : OnCourse t ∧ t.tFiber = some p := by
  obtain ⟨f, g, frame, hf, _, hstack, hcontext, rfl⟩ := hend.written
  have hrun := hend.running
  have h' := hcourse.like (like_setFiber hf hstack hcontext)
  refine ⟨⟨h'.this, h'.saved⟩, ?_⟩
  show s.tFiber = some p
  cases hcur : s.tFiber with
  | none =>
    rw [(hwf.first hcur).1] at hrun
    cases hrun
  | some q =>
    obtain ⟨f', _, hhome⟩ := hcourse.this q hcur
    rw [hrun] at hhome
    cases hstack' : f'.stack with
    | false => simp [home_thread hstack'] at hhome
    | true =>
      rw [home_own hstack', Stack.own.injEq] at hhome
      rw [hhome]

theorem Ended.active (hend : Ended s p t) (hexec : Executing s) (hq : t.active q = true) : s.active q = true := by
  obtain ⟨f, g, frame, _, _, _, _, rfl⟩ := hend.written
  by_cases hqp : q = p
  · rw [hqp]
    exact hexec p hend.running
  · simpa [Thread.active, Thread.setFrame, Thread.setFiber, hqp] using hq

theorem Ended.wellFormed (hend : Ended s p t) (hwf : WellFormed s) (hexec : Executing s) : WellFormed t := by
  have hactive := fun q => hend.active (q := q) hexec
  obtain ⟨f, g, frame, hf, _, hstack, hcontext, rfl⟩ := hend.written
  have hwf' := hwf.like (like_setFiber hf hstack hcontext)
  exact ⟨hwf'.fresh, hwf'.main, hwf'.threadFiber, hwf'.first, hwf'.made, fun q hq => hwf'.frame q (hactive q hq)⟩

/-- The function that ends is the one of the fiber that executes. -/
theorem keeps_finish (hwf : WellFormed s) (hexec : Executing s) {returned : Bool} (hs : s.finish returned = some s') :
    Keeps s True s' := by
  obtain ⟨p, t, hend, hs⟩ := finish_spec hs
  have hkeeps : Keeps t (t.tFiber = some p) s' := by
    rcases hs with hs | hs
    · exact keeps_swapOut (hend.wellFormed hwf hexec) hs
    · exact keeps_back (hend.wellFormed hwf hexec) hs
  refine ⟨hkeeps.wellFormed, hkeeps.executing, fun h => ?_⟩
  obtain ⟨hcourse, hthis⟩ := hend.onCourse hwf h
  exact (hkeeps.onCourse_iff hcourse).trans (iff_true_intro hthis)

theorem keeps_drop (hwf : WellFormed s) (hexec : Executing s) (hs : s.drop p = some s') : Keeps s True s' := by
  obtain ⟨f, hf, hs⟩ := Option.bind_eq_some_iff.mp hs
  split at hs
  · cases hs
  · dsimp only at hs
    split at hs
    · rename_i hlast
      exact keeps_destroy hwf hexec hf rfl (by simpa using hlast.2.2) hlast.2.1 hs
    · cases hs
      exact keeps_like hwf hexec (like_setFiber hf rfl rfl) trivial

/-- A write to the state or the pointers of a fiber. -/
theorem keeps_written (hwf : WellFormed s) (hexec : Executing s) {w : Fiber → Fiber}
    (hw : ∀ f, (w f).stack = f.stack ∧ (w f).context = f.context)
    (hs : (s.heap p).map (fun f => s.setFiber p (w f)) = some s') : Keeps s True s' := by
  obtain ⟨f, hf, rfl⟩ := Option.map_eq_some_iff.mp hs
  exact keeps_like hwf hexec (like_setFiber hf (hw f).1 (hw f).2) trivial

theorem keeps_step (hwf : WellFormed s) (hexec : Executing s) {a : Act} (hs : step s a = some s') :
    Keeps s (Proper s a) s' := by
  cases a with
  | getThis =>
    obtain ⟨f, hf, hs⟩ := Option.bind_eq_some_iff.mp hs
    cases hs
    have hget := keeps_getThis hwf hexec
    have hl := like_setFiber (g := { f with pointers := f.pointers + 1 }) hf rfl rfl
    exact ⟨hget.wellFormed.like hl, hget.executing.like hl, fun h =>
      iff_of_true (((hget.onCourse_iff h).mpr trivial).like hl) trivial⟩
  | newFiber cb useCaller =>
    cases hs
    exact keeps_newFiber ⟨rfl, rfl, rfl, rfl⟩ hwf hexec rfl ⟨_, rfl⟩ rfl rfl
  | setMainFiber p =>
    obtain ⟨f, hf, rfl⟩ := Option.map_eq_some_iff.mp hs
    exact keeps_like hwf hexec ⟨fun _ => rfl, rfl, rfl, rfl, rfl, rfl⟩ trivial
  | swapIn p =>
    obtain ⟨f, hf, hs⟩ := Option.bind_eq_some_iff.mp hs
    split at hs
    · cases hs
    · obtain ⟨m, hm, hs⟩ := Option.bind_eq_some_iff.mp hs
      have hl := like_setFiber (g := { f with state := .EXEC }) hf rfl rfl
      refine keeps_switch hwf hl (switch_spec hs) fun _ => ?_
      unfold Proper
      rw [hm]
  | swapOut p => exact keeps_swapOut hwf hs
  | call p =>
    obtain ⟨f, hf, hs⟩ := Option.bind_eq_some_iff.mp hs
    obtain ⟨m, hm, hs⟩ := Option.bind_eq_some_iff.mp hs
    have hl := like_setFiber (g := { f with state := .EXEC }) hf rfl rfl
    refine keeps_switch hwf hl (switch_spec hs) fun _ => ?_
    unfold Proper
    rw [hm]
  | back p => exact keeps_back hwf hs
  | yieldToReady => exact keeps_yieldTo hwf hexec hs
  | yieldToHold => exact keeps_yieldTo hwf hexec hs
  | finish returned => exact keeps_finish hwf hexec hs
  | reset p cb => exact keeps_reset hwf hexec hs
  | hold p => exact keeps_written hwf hexec (w := fun f => { f with state := .HOLD }) (fun _ => ⟨rfl, rfl⟩) hs
  | copy p => exact keeps_written hwf hexec (w := fun f => { f with pointers := f.pointers + 1 }) (fun _ => ⟨rfl, rfl⟩) hs
  | drop p => exact keeps_drop hwf hexec hs

theorem wellFormed_first : WellFormed {} := ⟨nofun, nofun, nofun, fun _ => ⟨rfl, rfl⟩, nofun, nofun⟩

theorem wellFormed_run {τ : History Thread Act} (hr : Run step {} τ s) : WellFormed s ∧ Executing s := by
  refine hr.invariant (C := fun _ _ => True) (I := fun s => WellFormed s ∧ Executing s) ⟨wellFormed_first, nofun⟩ ?_
    fun _ _ => trivial
  intro s a s' ⟨hwf, hexec⟩ _ hs
  have hkeeps := keeps_step hwf hexec hs
  exact ⟨hkeeps.wellFormed, hkeeps.executing⟩

/-- The thread is on its course all through a run exactly when every switch saves the fiber
    that makes it: `swapIn` is called by the scheduler's fiber, `call` by the main fiber, and
    `swapOut` and `back` by the fiber itself. -/
theorem onCourse_throughout {τ : History Thread Act} (hr : Run step {} τ s) :
    (∀ u ∈ s :: τ.map Prod.fst, OnCourse u) ↔ Meets Proper τ :=
  (hr.throughout_iff (J := fun s => WellFormed s ∧ Executing s) (I := OnCourse) ⟨wellFormed_first, nofun⟩ ⟨nofun, nofun⟩
    (fun _ _ _ h hs => ⟨(keeps_step h.1 h.2 hs).wellFormed, (keeps_step h.1 h.2 hs).executing⟩)
    fun _ _ _ h hI hs => (keeps_step h.1 h.2 hs).onCourse_iff hI).2

/-- A worker switches to a fiber that yields, is switched to again and ends. -/
theorem onCourse_throughout_worker : ∃ τ s, Run step {} τ s ∧ τ.length = 8 ∧ (∀ u ∈ s :: τ.map Prod.fst, OnCourse u) := by
  obtain ⟨τ, s, hr, hc, hlength⟩ := exists_run step Proper {}
    [.getThis, .setMainFiber 0, .newFiber (some 7) false, .swapIn 1, .yieldToHold, .swapIn 1, .finish true, .drop 1]
    (fun τ _ => τ.length == 8) (by decide)
  exact ⟨τ, s, hr, by simpa using hlength, (onCourse_throughout hr).mpr hc⟩

end LjrServer.Fibers
