/-
  LjrServer.Hook.Timeouts — `do_io` and `connect_with_timeout` (hook.cpp) next to the timer
  callback and everything else that happens to the manager.

  A call that would block arms a condition timer, registers its fiber and parks. The
  callback marks the call cancelled and then cancels its event; an event that is not
  registered yet it cannot cancel, and nobody wakes the fiber that parks afterwards. Clocks
  are left out: an armed timer may expire at any time. A timer is known by its place among
  those the call added.

  Proved:
  - `never_stuck`: while no call registers after its callback is through, and `epoll_ctl`
    lets the callback cancel, no call is left parked for ever.
  - `late_sticks`: a call that registers after its callback is through is.
-/

import LjrServer.Hook.FdCtx
import LjrServer.IoManager.StaleEvents

namespace LjrServer.Hook

open LjrServer.Lib LjrServer.IoManager

inductive Errno where
  | EBADF
  | EINTR
  | EAGAIN
  | EINPROGRESS
  | ETIMEDOUT
  | other (code : Nat)
  deriving DecidableEq, Repr

/-- What a function returned; `errno` is none where the function leaves it as it is. -/
structure Answer where
  n : Int
  errno : Option Errno
  deriving DecidableEq, Repr

/-- Where a condition timer is, and then its callback: taken by `listExpiredCb`, past the
    test of `cancelled`, past its assignment. -/
inductive TimerState where
  | armed
  | stopped
  | expired
  | passed
  | marked
  | done
  deriving DecidableEq, Repr

/-- What the call does next. -/
inductive Pc where
  | direct
  | calling
  | arming
  | adding (timer : Option Nat)
  | rejected (timer : Option Nat)
  | yielding (timer : Option Nat)
  | parked (timer : Option Nat)
  | resumed (timer : Option Nat)
  | checking
  | probing
  | returned (a : Answer)
  deriving DecidableEq, Repr

namespace Pc

/-- Between `addEvent` and the wake-up. -/
def waits : Pc → Bool
  | .yielding _ => true
  | .parked _ => true
  | _ => false

def isParked : Pc → Bool
  | .parked _ => true
  | _ => false

/-- The frame that owns the `timer_info` is gone. -/
def gone : Pc → Bool
  | .returned _ => true
  | _ => false

end Pc

/-! ## The two functions -/

/-- What each function does in its own way; it waits nowhere else. -/
structure Hooked where
  event : Event
  timeout : FdCtx → UInt64
  unknown : Pc
  answered : Answer → Pc
  unregistered : Pc
  woken : Pc
  answered_runs : ∀ a, (answered a).waits = false
  runs : unknown.waits = false ∧ unregistered.waits = false ∧ woken.waits = false

namespace Hooked

def doIo (event : Event) (timeout_so : TimeoutType) : Hooked where
  event := event
  timeout ctx := ctx.getTimeout timeout_so
  unknown := .direct
  answered a :=
    if a.n = -1 ∧ a.errno = some .EINTR then .calling
    else if a.n = -1 ∧ a.errno = some .EAGAIN then .arming
    else .returned a
  unregistered := .returned ⟨-1, none⟩
  woken := .calling
  answered_runs a := by
    split
    · rfl
    · split <;> rfl
  runs := ⟨rfl, rfl, rfl⟩

def connectWithTimeout (timeout_ms : UInt64) : Hooked where
  event := .WRITE
  timeout _ := timeout_ms
  unknown := .returned ⟨-1, some .EBADF⟩
  answered a :=
    if a.n = 0 then .returned ⟨0, none⟩
    else if a.n ≠ -1 ∨ a.errno ≠ some .EINPROGRESS then .returned a
    else .arming
  unregistered := .probing
  woken := .probing
  answered_runs a := by
    split
    · rfl
    · split <;> rfl
  runs := ⟨rfl, rfl, rfl⟩

end Hooked

/-- A call of one of them by a fiber, with what it finds when it starts. -/
structure IoCall where
  function : Hooked
  fd : Nat
  hookEnable : Bool
  ctx : Option FdCtx
  scheduler : Nat
  fiber : Nat

/-- The manager, the tasks its triggers scheduled, the call's timers, its `timer_info` and
    where it is. -/
structure Waiting where
  iom : IOManager
  tasks : List Scheduled
  timers : List TimerState
  cancelled : Option Errno
  pc : Pc

namespace Waiting

def setTimer (s : Waiting) (i : Nat) (t : TimerState) : Waiting := { s with timers := s.timers.set i t }

/-- `if (timer) { timer->cancel(); }` -/
def cancelTimer (s : Waiting) (timer : Option Nat) : Waiting :=
  match timer with
  | none => s
  | some i => if s.timers[i]? = some .armed then s.setTimer i .stopped else s

end Waiting

/-- A statement of the call, one of a callback, or what anyone else does to the manager. -/
inductive Action where
  | attempt (a : Answer)
  | addConditionTimer
  | addEvent (rt : Int)
  | yieldToHold
  | resume
  | cancelTimer
  | check
  | getsockopt (a : Answer) (error : Option Errno)
  | expire (i : Nat)
  | lock (i : Nat)
  | mark (i : Nat)
  | cancelEvent (i : Nat) (rt : Int)
  | io (op : Op)
  deriving DecidableEq, Repr

namespace IoCall

variable (c : IoCall)

/-- The tests before the first system call. -/
def start : Pc :=
  if !c.hookEnable then .direct
  else match c.ctx with
    | none => c.function.unknown
    | some ctx =>
      if ctx.isClosed then .returned ⟨-1, some .EBADF⟩
      else if !ctx.isSocket || ctx.userNonblock then .direct
      else .calling

def timeout : UInt64 := (c.ctx.map c.function.timeout).getD (-1)

def init : Waiting := ⟨.init, [], [], none, c.start⟩

/-- What a trigger of its event schedules. -/
def task : Scheduled := ⟨c.scheduler, .fiber c.fiber⟩

/-- `addEvent(fd, event)` as the call makes it. -/
def registers (rt : Int) : Op := .addEvent ⟨some c.scheduler, c.fiber, .EXEC⟩ c.fd c.function.event none rt

def step (s : Waiting) : Action → Option Waiting
  | .attempt a =>
    match s.pc with
    | .direct => some { s with pc := .returned a }
    | .calling => some { s with pc := c.function.answered a }
    | _ => none
  | .addConditionTimer =>
    match s.pc with
    | .arming =>
      if c.timeout ≠ -1 then some { s with timers := s.timers ++ [.armed], pc := .adding (some s.timers.length) }
      else some { s with pc := .adding none }
    | _ => none
  | .addEvent rt =>
    match s.pc with
    | .adding timer =>
      ((c.registers rt).exec s.iom).map fun r =>
        { s with iom := r.2, pc := if r.1.ok then .yielding timer else .rejected timer }
    | _ => none
  | .yieldToHold =>
    match s.pc with
    | .yielding timer => some { s with pc := .parked timer }
    | _ => none
  | .resume =>
    match s.pc with
    | .parked timer =>
      if c.task ∈ s.tasks then some { s with tasks := s.tasks.erase c.task, pc := .resumed timer } else none
    | _ => none
  | .cancelTimer =>
    match s.pc with
    | .rejected timer => some { s.cancelTimer timer with pc := c.function.unregistered }
    | .resumed timer => some { s.cancelTimer timer with pc := .checking }
    | _ => none
  | .check =>
    match s.pc with
    | .checking =>
      match s.cancelled with
      | some e => some { s with pc := .returned ⟨-1, some e⟩ }
      | none => some { s with pc := c.function.woken }
    | _ => none
  | .getsockopt a error =>
    match s.pc with
    | .probing =>
      if a.n = -1 then some { s with pc := .returned ⟨-1, a.errno⟩ }
      else if error = none then some { s with pc := .returned ⟨0, none⟩ }
      else some { s with pc := .returned ⟨-1, error⟩ }
    | _ => none
  | .expire i => if s.timers[i]? = some .armed then some (s.setTimer i .expired) else none
  | .lock i =>
    if s.timers[i]? = some .expired then
      some (s.setTimer i (if s.pc.gone || s.cancelled.isSome then .done else .passed))
    else none
  | .mark i =>
    if s.timers[i]? = some .passed then some { s.setTimer i .marked with cancelled := some .ETIMEDOUT } else none
  | .cancelEvent i rt =>
    if s.timers[i]? = some .marked then
      ((Op.cancelEvent c.fd c.function.event rt).exec s.iom).map fun r =>
        { s.setTimer i .done with iom := r.2, tasks := s.tasks ++ r.1.scheduled }
    else none
  | .io op => (op.exec s.iom).map fun r => { s with iom := r.2, tasks := s.tasks ++ r.1.scheduled }

/-- The operations on the manager are hosted, and nobody else registers this fiber. -/
def Legal (s : Waiting) : Action → Prop
  | .addEvent rt => Hosted s.iom (c.registers rt)
  | .io op => Hosted s.iom op ∧ op.handler ≠ some c.task
  | _ => True

/-- The call registers before its callback is through, or before there was one, and the
    callback's `epoll_ctl` succeeds. -/
def InTime (s : Waiting) : Action → Prop
  | .addEvent _ => s.cancelled = none ∨ .marked ∈ s.timers
  | .cancelEvent _ rt => rt = 0
  | _ => True

/-- Timed out and parked, with nobody left who would wake it. -/
structure Stuck (s : Waiting) : Prop where
  parked : s.pc.isParked = true
  cancelled : s.cancelled = some .ETIMEDOUT
  registered : s.iom.registered (c.fd, c.function.event) = some c.task
  untriggered : c.task ∉ s.tasks
  unwatched : .marked ∉ s.timers

instance (s : Waiting) (a : Action) : Decidable (c.Legal s a) :=
  match a with
  | .addEvent rt => inferInstanceAs (Decidable (Hosted s.iom (c.registers rt)))
  | .io op => inferInstanceAs (Decidable (Hosted s.iom op ∧ op.handler ≠ some c.task))
  | .attempt _ | .addConditionTimer | .yieldToHold | .resume | .cancelTimer | .check | .getsockopt _ _
  | .expire _ | .lock _ | .mark _ | .cancelEvent _ _ => inferInstanceAs (Decidable True)

instance (s : Waiting) (a : Action) : Decidable (InTime s a) :=
  match a with
  | .addEvent _ => inferInstanceAs (Decidable (s.cancelled = none ∨ .marked ∈ s.timers))
  | .cancelEvent _ rt => inferInstanceAs (Decidable (rt = 0))
  | .attempt _ | .addConditionTimer | .yieldToHold | .resume | .cancelTimer | .check | .getsockopt _ _
  | .expire _ | .lock _ | .mark _ | .io _ => inferInstanceAs (Decidable True)

instance (s : Waiting) : Decidable (c.Stuck s) :=
  decidable_of_iff (s.pc.isParked = true ∧ s.cancelled = some .ETIMEDOUT ∧
      s.iom.registered (c.fd, c.function.event) = some c.task ∧ c.task ∉ s.tasks ∧ .marked ∉ s.timers)
    ⟨fun ⟨h₁, h₂, h₃, h₄, h₅⟩ => ⟨h₁, h₂, h₃, h₄, h₅⟩, fun h => ⟨h.1, h.2, h.3, h.4, h.5⟩⟩

/-- What a step does, and where it is made. -/
inductive Step (s : Waiting) : Action → Waiting → Prop
  | direct (a : Answer) : s.pc = .direct → Step s (.attempt a) { s with pc := .returned a }
  | called (a : Answer) : s.pc = .calling → Step s (.attempt a) { s with pc := c.function.answered a }
  | armed : s.pc = .arming →
      Step s .addConditionTimer { s with timers := s.timers ++ [.armed], pc := .adding (some s.timers.length) }
  | unarmed : s.pc = .arming → Step s .addConditionTimer { s with pc := .adding none }
  | added (timer : Option Nat) (rt : Int) (out : Outcome) (iom : IOManager) : s.pc = .adding timer →
      (c.registers rt).exec s.iom = some (out, iom) →
      Step s (.addEvent rt) { s with iom, pc := if out.ok then .yielding timer else .rejected timer }
  | yielded (timer : Option Nat) : s.pc = .yielding timer → Step s .yieldToHold { s with pc := .parked timer }
  | resumed (timer : Option Nat) : s.pc = .parked timer → c.task ∈ s.tasks →
      Step s .resume { s with tasks := s.tasks.erase c.task, pc := .resumed timer }
  | rejected (timer : Option Nat) : s.pc = .rejected timer →
      Step s .cancelTimer { s.cancelTimer timer with pc := c.function.unregistered }
  | woken (timer : Option Nat) : s.pc = .resumed timer →
      Step s .cancelTimer { s.cancelTimer timer with pc := .checking }
  | late (e : Errno) : s.pc = .checking → s.cancelled = some e → Step s .check { s with pc := .returned ⟨-1, some e⟩ }
  | inTime : s.pc = .checking → s.cancelled = none → Step s .check { s with pc := c.function.woken }
  | unasked (a : Answer) (error : Option Errno) : s.pc = .probing → a.n = -1 →
      Step s (.getsockopt a error) { s with pc := .returned ⟨-1, a.errno⟩ }
  | noError (a : Answer) : s.pc = .probing → a.n ≠ -1 → Step s (.getsockopt a none) { s with pc := .returned ⟨0, none⟩ }
  | error (a : Answer) (error : Option Errno) : s.pc = .probing → a.n ≠ -1 → error ≠ none →
      Step s (.getsockopt a error) { s with pc := .returned ⟨-1, error⟩ }
  | expired (i : Nat) : s.timers[i]? = some .armed → Step s (.expire i) (s.setTimer i .expired)
  | locked (i : Nat) : s.timers[i]? = some .expired →
      Step s (.lock i) (s.setTimer i (if s.pc.gone || s.cancelled.isSome then .done else .passed))
  | marked (i : Nat) : s.timers[i]? = some .passed →
      Step s (.mark i) { s.setTimer i .marked with cancelled := some .ETIMEDOUT }
  | cancelled (i : Nat) (rt : Int) (out : Outcome) (iom : IOManager) : s.timers[i]? = some .marked →
      (Op.cancelEvent c.fd c.function.event rt).exec s.iom = some (out, iom) →
      Step s (.cancelEvent i rt) { s.setTimer i .done with iom, tasks := s.tasks ++ out.scheduled }
  | io (op : Op) (out : Outcome) (iom : IOManager) : op.exec s.iom = some (out, iom) →
      Step s (.io op) { s with iom, tasks := s.tasks ++ out.scheduled }

theorem step_cases {s s' : Waiting} {a : Action} (hs : c.step s a = some s') : c.Step s a s' := by
  cases a with
  | attempt a =>
    simp only [step] at hs
    split at hs <;> rename_i hpc <;> cases hs
    · exact .direct a hpc
    · exact .called a hpc
  | addConditionTimer =>
    simp only [step] at hs
    split at hs
    · rename_i hpc
      split at hs <;> cases hs
      · exact .armed hpc
      · exact .unarmed hpc
    · cases hs
  | addEvent rt =>
    simp only [step] at hs
    split at hs
    · rename_i timer hpc
      obtain ⟨⟨out, iom⟩, he, rfl⟩ := Option.map_eq_some_iff.mp hs
      exact .added timer rt out iom hpc he
    · cases hs
  | yieldToHold =>
    simp only [step] at hs
    split at hs <;> rename_i hpc <;> cases hs
    exact .yielded _ hpc
  | resume =>
    simp only [step] at hs
    split at hs
    · rename_i timer hpc
      split at hs <;> rename_i hin <;> cases hs
      exact .resumed timer hpc hin
    · cases hs
  | cancelTimer =>
    simp only [step] at hs
    split at hs <;> rename_i hpc <;> cases hs
    · exact .rejected _ hpc
    · exact .woken _ hpc
  | check =>
    simp only [step] at hs
    split at hs
    · rename_i hpc
      split at hs <;> rename_i hflag <;> cases hs
      · exact .late _ hpc hflag
      · exact .inTime hpc hflag
    · cases hs
  | getsockopt a error =>
    simp only [step] at hs
    split at hs
    · rename_i hpc
      split at hs
      · rename_i hn
        cases hs
        exact .unasked a error hpc hn
      · rename_i hn
        split at hs <;> rename_i herror <;> cases hs
        · rw [herror]
          exact .noError a hpc hn
        · exact .error a error hpc hn herror
    · cases hs
  | expire i =>
    simp only [step] at hs
    split at hs <;> rename_i ht <;> cases hs
    exact .expired i ht
  | lock i =>
    simp only [step] at hs
    split at hs <;> rename_i ht <;> cases hs
    exact .locked i ht
  | mark i =>
    simp only [step] at hs
    split at hs <;> rename_i ht <;> cases hs
    exact .marked i ht
  | cancelEvent i rt =>
    simp only [step] at hs
    split at hs
    · rename_i ht
      obtain ⟨⟨out, iom⟩, he, rfl⟩ := Option.map_eq_some_iff.mp hs
      exact .cancelled i rt out iom ht he
    · cases hs
  | io op =>
    obtain ⟨⟨out, iom⟩, he, rfl⟩ := Option.map_eq_some_iff.mp hs
    exact .io op out iom he

/-! ## What happens to the manager -/

/-- What an operation leaves of one task: it is where it was, or scheduled once. -/
theorem effect_task {slots slots' : List Slot} {op : Op} {out : Outcome} {h : Scheduled} {k : Key}
    (heff : Effect slots op out slots') (hnew : op.handler ≠ some h)
    (honly : ∀ j, (ofSlots slots).registered j = some h → j = k) :
    (∀ j, (ofSlots slots').registered j = some h → (ofSlots slots).registered j = some h ∧ h ∉ out.scheduled) ∧
      out.scheduled.count h ≤ 1 ∧ (h ∈ out.scheduled → (ofSlots slots).registered k = some h) := by
  rw [step_scheduled heff]
  refine (step_registry heff).held (m := Move.entry ⟨ofSlots slots, op, out, ofSlots slots'⟩) ?_ honly
  intro j hch
  cases op with
  | addEvent caller fd e cb rt =>
    unfold Move.entry Move.change at hch
    dsimp only at hch
    split at hch
    · rename_i hh
      cases hch
      exact hnew hh
    · cases hch
  | _ => cases hch

/-- The fiber is registered in its place or scheduled once, and only while it waits. -/
structure Placed (iom : IOManager) (tasks : List Scheduled) (waits : Bool) : Prop where
  slots : ∃ slots, iom = ofSlots slots ∧ 2 ≤ slots.length ∧ slots.length < 2 ^ 31
  registered : ∀ k, iom.registered k = some c.task → k = (c.fd, c.function.event) ∧ waits = true ∧ c.task ∉ tasks
  scheduled : c.task ∈ tasks → waits = true
  once : tasks.count c.task ≤ 1

variable {c} {iom : IOManager} {tasks : List Scheduled} {waits : Bool}

theorem Placed.idle (h : c.Placed iom tasks false) : (∀ k, iom.registered k ≠ some c.task) ∧ c.task ∉ tasks := by
  constructor
  · intro k hk
    cases (h.registered k hk).2.1
  · intro hin
    cases h.scheduled hin

/-- A fiber that does not wait is nowhere. -/
theorem Placed.of_idle (h : c.Placed iom tasks false) : c.Placed iom tasks waits :=
  ⟨h.slots, fun k hk => absurd hk (h.idle.1 k), fun hin => absurd hin h.idle.2, h.once⟩

/-- An operation that does not register the fiber. -/
theorem Placed.exec {slots slots' : List Slot} {op : Op} {out : Outcome} (h : c.Placed (ofSlots slots) tasks waits)
    (hlen : 2 ≤ slots'.length ∧ slots'.length < 2 ^ 31) (heff : Effect slots op out slots') (hnew : op.handler ≠ some c.task) :
    c.Placed (ofSlots slots') (tasks ++ out.scheduled) waits ∧
      ∀ k, (ofSlots slots').registered k = some c.task → (ofSlots slots).registered k = some c.task := by
  obtain ⟨hkept, honce, hfired⟩ := effect_task heff hnew fun k hk => (h.registered k hk).1
  refine ⟨⟨⟨slots', rfl, hlen⟩, ?_, ?_, ?_⟩, fun k hk => (hkept k hk).1⟩
  · intro k hk
    obtain ⟨hk', hnot⟩ := hkept k hk
    obtain ⟨hplace, hwaits, hqueue⟩ := h.registered k hk'
    refine ⟨hplace, hwaits, ?_⟩
    rw [List.mem_append, not_or]
    exact ⟨hqueue, hnot⟩
  · intro hin
    rcases List.mem_append.mp hin with hin | hin
    · exact h.scheduled hin
    · exact (h.registered _ (hfired hin)).2.1
  · rw [List.count_append]
    by_cases hin : c.task ∈ out.scheduled
    · rw [List.count_eq_zero.mpr (h.registered _ (hfired hin)).2.2, Nat.zero_add]
      exact honce
    · rw [List.count_eq_zero.mpr hin, Nat.add_zero]
      exact h.once

/-- Its own registration: it is registered now, or the call goes on without. -/
theorem Placed.adds {slots slots' : List Slot} {out : Outcome} {rt : Int} (h : c.Placed (ofSlots slots) tasks false)
    (hlen : 2 ≤ slots'.length ∧ slots'.length < 2 ^ 31) (heff : Effect slots (c.registers rt) out slots') :
    c.Placed (ofSlots slots') tasks out.ok ∧
      (out.ok = true → (ofSlots slots').registered (c.fd, c.function.event) = some c.task) := by
  obtain ⟨hnowhere, hqueue⟩ := h.idle
  cases heff with
  | stay hok hs hsame _ =>
    rw [hok]
    refine ⟨⟨⟨slots', rfl, hlen⟩, ?_, h.scheduled, h.once⟩, fun hok => nomatch hok⟩
    intro k hk
    rw [registered_ofSlots, hsame, ← registered_ofSlots] at hk
    exact absurd hk (hnowhere k)
  | clear _ _ hop _ _ _ => exact absurd rfl (hop _ _ _ _ _)
  | accept hop hh hne _ hok hs hslots =>
    cases hop
    cases hh
    have hreg : ∀ k, (ofSlots slots').registered k =
        if k = (c.fd, c.function.event) then some c.task else (ofSlots slots).registered k := by
      rintro ⟨j, e⟩
      rw [registered_ofSlots, registered_ofSlots, hslots]
      by_cases hj : j = c.fd
      · subst hj
        rw [if_pos rfl, put_get _ hne]
        simp only [Prod.mk.injEq, true_and]
        rfl
      · rw [if_neg hj, if_neg fun h => hj (Prod.mk.inj h).1]
    rw [hok]
    refine ⟨⟨⟨slots', rfl, hlen⟩, ?_, fun _ => rfl, h.once⟩, fun _ => by rw [hreg, if_pos rfl]⟩
    intro k hk
    rw [hreg] at hk
    split at hk
    · rename_i hplace
      exact ⟨hplace, rfl, hqueue⟩
    · exact absurd hk (hnowhere k)

/-! ## One step -/

/-- While the fiber is registered and the call has timed out, a callback is about to cancel. -/
structure Sound (c : IoCall) (s : Waiting) : Prop where
  placed : c.Placed s.iom s.tasks s.pc.waits
  watched : s.iom.registered (c.fd, c.function.event) = some c.task → s.cancelled ≠ none → .marked ∈ s.timers

variable {s s' : Waiting} {a : Action}

/-- A statement of the call that is not made while it waits. -/
theorem Sound.goes (h : c.Sound s) (hidle : s.pc.waits = false) (hiom : s'.iom = s.iom) (htasks : s'.tasks = s.tasks) :
    c.Sound s' := by
  have hplaced := h.placed
  rw [hidle] at hplaced
  constructor
  · rw [hiom, htasks]
    exact hplaced.of_idle
  · intro hreg
    rw [hiom] at hreg
    exact absurd hreg (hplaced.idle.1 _)

/-- A step of a callback that is not about to cancel. -/
theorem Sound.timer {i : Nat} {t t' : TimerState} (h : c.Sound s) (ht : s.timers[i]? = some t) (hne : t ≠ .marked) :
    c.Sound (s.setTimer i t') := by
  refine ⟨h.placed, fun hreg hcancelled => ?_⟩
  obtain ⟨j, hj⟩ := List.getElem?_of_mem (h.watched hreg hcancelled)
  refine List.mem_of_getElem? (i := j) ?_
  show (s.timers.set i t')[j]? = some .marked
  rw [List.getElem?_set_ne, hj]
  intro hij
  subst hij
  rw [ht] at hj
  exact hne (Option.some.inj hj)

/-- The statements of the call between which it does not wait. -/
def runs : Action → Bool
  | .attempt _ | .addConditionTimer | .cancelTimer | .check | .getsockopt _ _ => true
  | _ => false

theorem cancelTimer_frame (s : Waiting) (timer : Option Nat) :
    (s.cancelTimer timer).iom = s.iom ∧ (s.cancelTimer timer).tasks = s.tasks := by
  unfold Waiting.cancelTimer
  split
  · exact ⟨rfl, rfl⟩
  · split <;> exact ⟨rfl, rfl⟩

/-- They leave the manager and the queue alone. -/
theorem step_runs (ha : runs a = true) (hs : c.step s a = some s') :
    s.pc.waits = false ∧ s'.iom = s.iom ∧ s'.tasks = s.tasks := by
  cases step_cases c hs with
  | direct _ hpc | called _ hpc | armed hpc | unarmed hpc | late _ hpc _ | inTime hpc _ =>
      exact ⟨by rw [hpc]; rfl, rfl, rfl⟩
  | unasked _ _ hpc _ | noError _ hpc _ | error _ _ hpc _ _ => exact ⟨by rw [hpc]; rfl, rfl, rfl⟩
  | rejected timer hpc | woken timer hpc => exact ⟨by rw [hpc]; rfl, cancelTimer_frame s timer⟩
  | _ => cases ha

/-- It is registered now, or goes on without. -/
theorem step_addEvent {rt : Int} (h : c.Sound s) (hl : c.Legal s (.addEvent rt))
    (hs : c.step s (.addEvent rt) = some s') :
    ∃ timer ok, c.Placed s'.iom s'.tasks ok ∧ s'.pc = (if ok then .yielding timer else .rejected timer) ∧
      s'.timers = s.timers ∧ s'.cancelled = s.cancelled ∧
      (ok = true → s'.iom.registered (c.fd, c.function.event) = some c.task) := by
  cases step_cases c hs with
  | added timer _ out iom hpc he =>
    have hplaced : c.Placed s.iom s.tasks false := by
      have hplaced := h.placed
      rw [hpc] at hplaced
      exact hplaced
    obtain ⟨slots, hiom, hlen, hlt⟩ := hplaced.slots
    rw [hiom] at hplaced he
    obtain ⟨slots', rfl, hlen', heff⟩ := exec_made hlen hlt (hiom ▸ hl) he
    obtain ⟨hplaced', hreg⟩ := hplaced.adds (by omega) heff
    exact ⟨timer, out.ok, hplaced', rfl, rfl, rfl, hreg⟩

theorem addEvent_sound {rt : Int} (h : c.Sound s) (hl : c.Legal s (.addEvent rt)) (ht : InTime s (.addEvent rt))
    (hs : c.step s (.addEvent rt) = some s') : c.Sound s' := by
  obtain ⟨timer, ok, hplaced, hpc, htimers, hcancelled, _⟩ := step_addEvent h hl hs
  have hwaits : s'.pc.waits = ok := by
    rw [hpc]
    cases ok <;> rfl
  constructor
  · rw [hwaits]
    exact hplaced
  · intro _ hset
    rw [htimers]
    exact ht.resolve_left (hcancelled ▸ hset)

/-- The fiber is scheduled once, so afterwards it is nowhere. -/
theorem resume_sound (h : c.Sound s) (hs : c.step s .resume = some s') : c.Sound s' := by
  cases step_cases c hs with
  | resumed timer _ hin =>
    have hnowhere : ∀ k, s.iom.registered k ≠ some c.task := fun k hk => (h.placed.registered k hk).2.2 hin
    have hlast : (s.tasks.erase c.task).count c.task = 0 := by
      have honce := h.placed.once
      rw [List.count_erase_self]
      omega
    refine ⟨⟨h.placed.slots, fun k hk => absurd hk (hnowhere k), fun hin' => ?_, ?_⟩,
      fun hreg => absurd hreg (hnowhere _)⟩
    · exact absurd hin' (List.count_eq_zero.mp hlast)
    · rw [hlast]
      exact Nat.zero_le 1

theorem cancelEvent_sound {i : Nat} (h : c.Sound s) (hs : c.step s (.cancelEvent i 0) = some s') : c.Sound s' := by
  cases step_cases c hs with
  | cancelled _ _ out iom _ he =>
    have hplaced := h.placed
    obtain ⟨slots, hiom, hlen, hlt⟩ := hplaced.slots
    rw [hiom] at hplaced he
    obtain ⟨out', slots', he', hlen', heff, hfree⟩ := cancelEvent_effect hlt c.fd c.function.event 0
    cases he.symm.trans he'
    obtain ⟨hplaced', _⟩ := hplaced.exec (by omega) heff (by simp [Op.handler])
    refine ⟨hplaced', fun hreg => ?_⟩
    change (ofSlots slots').registered _ = _ at hreg
    rw [registered_ofSlots, hfree rfl] at hreg
    cases hreg

theorem io_sound {op : Op} (h : c.Sound s) (hl : c.Legal s (.io op)) (hs : c.step s (.io op) = some s') :
    c.Sound s' := by
  obtain ⟨⟨out, iom⟩, he, rfl⟩ := Option.map_eq_some_iff.mp hs
  have hplaced := h.placed
  obtain ⟨slots, hiom, hlen, hlt⟩ := hplaced.slots
  rw [hiom] at hplaced he
  obtain ⟨slots', rfl, hlen', heff⟩ := exec_made hlen hlt (hiom ▸ hl.1) he
  obtain ⟨hplaced', hkept⟩ := hplaced.exec (by omega) heff hl.2
  refine ⟨hplaced', fun hreg hcancelled => h.watched ?_ hcancelled⟩
  rw [hiom]
  exact hkept _ hreg

theorem step_sound (h : c.Sound s) (hl : c.Legal s a) (ht : InTime s a) (hs : c.step s a = some s') : c.Sound s' := by
  cases a with
  | addEvent rt => exact addEvent_sound h hl ht hs
  | resume => exact resume_sound h hs
  | cancelEvent i rt =>
    obtain rfl : rt = 0 := ht
    exact cancelEvent_sound h hs
  | io op => exact io_sound h hl hs
  | yieldToHold =>
    cases step_cases c hs with
    | yielded timer hpc =>
      have hplaced := h.placed
      rw [hpc] at hplaced
      exact ⟨hplaced, h.watched⟩
  | expire i =>
    cases step_cases c hs with
    | expired _ harmed => exact h.timer harmed (by decide)
  | lock i =>
    cases step_cases c hs with
    | locked _ hexpired => exact h.timer hexpired (by decide)
  | mark i =>
    cases step_cases c hs with
    | marked _ hpassed =>
      refine ⟨h.placed, fun _ _ => ?_⟩
      exact List.mem_set (List.getElem?_eq_some_iff.mp hpassed).1 _
  | attempt _ | addConditionTimer | cancelTimer | check | getsockopt _ _ =>
    obtain ⟨hidle, hiom, htasks⟩ := step_runs rfl hs
    exact h.goes hidle hiom htasks

/-! ## Every run -/

theorem init_sound (c : IoCall) : c.Sound c.init := by
  have hfree : ∀ k, c.init.iom.registered k = none := by
    rintro ⟨fd, e⟩
    show IOManager.init.registered (fd, e) = none
    rw [init_ofSlots, registered_ofSlots]
    have hslot : slotAt (List.replicate 32 ({} : Slot)) fd = {} := by
      unfold slotAt
      rw [List.getElem?_replicate]
      split <;> rfl
    rw [hslot]
    cases e <;> rfl
  have hnot : ∀ k, c.init.iom.registered k ≠ some c.task := fun k hk => by
    rw [hfree] at hk
    cases hk
  exact ⟨⟨⟨_, init_ofSlots, by decide, by decide⟩, fun k hk => absurd hk (hnot k), fun hin => (nomatch hin), Nat.zero_le 1⟩,
    fun hreg => absurd hreg (hnot _)⟩

theorem run_sound {τ : History Waiting Action} (hr : Run c.step c.init τ s) (hl : Meets c.Legal τ)
    (ht : Meets InTime τ) : c.Sound s := by
  have hboth : Meets (fun s a => c.Legal s a ∧ InTime s a) τ := fun p hp => ⟨hl p hp, ht p hp⟩
  exact hr.invariant (init_sound c) (fun _ _ _ h hstep hs => step_sound h hstep.1 hstep.2 hs) hboth

/-- No call is left parked, whatever else happens to the manager. -/
theorem never_stuck (c : IoCall) {τ : History Waiting Action} {s : Waiting} (hr : Run c.step c.init τ s)
    (hl : Meets c.Legal τ) (ht : Meets InTime τ) : ¬ c.Stuck s := by
  intro h
  refine h.unwatched ((run_sound hr hl ht).watched h.registered ?_)
  rw [h.cancelled]
  exact Option.some_ne_none _

/-- A call on a socket with a timeout that is over at once. -/
def atOnce (function : Hooked) : IoCall := ⟨function, 5, true, some { isSocket := true, recvTimeout := 0 }, 0, 1⟩

/-- A reader whose timer expires while it is parked. -/
theorem never_stuck_timed_out :
    ∃ τ s, Run (atOnce (.doIo .READ .SO_RCVTIMEO)).step (atOnce (.doIo .READ .SO_RCVTIMEO)).init τ s ∧
      s.pc = .parked (some 0) ∧ s.cancelled = some .ETIMEDOUT ∧ ¬ (atOnce (.doIo .READ .SO_RCVTIMEO)).Stuck s := by
  obtain ⟨τ, s, hr, hm, ht⟩ := exists_run (atOnce (.doIo .READ .SO_RCVTIMEO)).step
    (fun s a => (atOnce (.doIo .READ .SO_RCVTIMEO)).Legal s a ∧ InTime s a) (atOnce (.doIo .READ .SO_RCVTIMEO)).init
    [.attempt ⟨-1, some .EAGAIN⟩, .addConditionTimer, .addEvent 0, .yieldToHold, .expire 0, .lock 0, .mark 0]
    (fun _ s => s.pc = .parked (some 0) && s.cancelled = some .ETIMEDOUT) (by decide)
  rw [Bool.and_eq_true, decide_eq_true_eq, decide_eq_true_eq] at ht
  exact ⟨τ, s, hr, ht.1, ht.2, never_stuck _ hr (fun p hp => (hm p hp).1) fun p hp => (hm p hp).2⟩

/-- A call that registers after its callback is through, and then parks. -/
theorem late_sticks {t u : Waiting} (h : c.Sound s) (hl : c.Legal s (.addEvent 0))
    (hcancelled : s.cancelled = some .ETIMEDOUT) (hthrough : .marked ∉ s.timers)
    (hadd : c.step s (.addEvent 0) = some t) (hyield : c.step t .yieldToHold = some u) : c.Stuck u := by
  obtain ⟨timer, ok, hplaced, hpc, htimers, hsame, hreg⟩ := step_addEvent h hl hadd
  simp only [step, hpc] at hyield
  cases ok with
  | false => cases hyield
  | true =>
    cases hyield
    have hregistered := hreg rfl
    exact ⟨rfl, hsame.trans hcancelled, hregistered, (hplaced.registered _ hregistered).2.2, htimers ▸ hthrough⟩

/-- The timer expires before the call has registered, and its callback is through. -/
theorem stuck_of_early_timer :
    (∃ τ s, Run (atOnce (.doIo .READ .SO_RCVTIMEO)).step (atOnce (.doIo .READ .SO_RCVTIMEO)).init τ s ∧
      Meets (atOnce (.doIo .READ .SO_RCVTIMEO)).Legal τ ∧ (atOnce (.doIo .READ .SO_RCVTIMEO)).Stuck s ∧
      s.timers = [.done]) ∧
    ∃ τ s, Run (atOnce (.connectWithTimeout 0)).step (atOnce (.connectWithTimeout 0)).init τ s ∧
      Meets (atOnce (.connectWithTimeout 0)).Legal τ ∧ (atOnce (.connectWithTimeout 0)).Stuck s ∧
      s.timers = [.done] := by
  have hrun : ∀ c : IoCall, ∀ errno : Errno,
      (walk c.step c.Legal [] c.init [.attempt ⟨-1, some errno⟩, .addConditionTimer, .expire 0, .lock 0, .mark 0,
        .cancelEvent 0 0, .addEvent 0, .yieldToHold]).any (fun p => c.Stuck p.2 && p.2.timers = [.done]) = true →
      ∃ τ s, Run c.step c.init τ s ∧ Meets c.Legal τ ∧ c.Stuck s ∧ s.timers = [.done] := by
    intro c errno hw
    obtain ⟨τ, s, hr, hl, ht⟩ := exists_run c.step c.Legal c.init _ (fun _ s => c.Stuck s && s.timers = [.done]) hw
    rw [Bool.and_eq_true, decide_eq_true_eq, decide_eq_true_eq] at ht
    exact ⟨τ, s, hr, hl, ht⟩
  exact ⟨hrun _ .EAGAIN (by decide), hrun _ .EINPROGRESS (by decide)⟩

end IoCall

end LjrServer.Hook
