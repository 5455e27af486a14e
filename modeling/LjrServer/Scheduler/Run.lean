/-
  LjrServer.Scheduler.Run — the scheduler (scheduler.h, scheduler.cpp) with the fibers it
  switches (fiber.cpp) and the idle loop of `IOManager` (iomanager.cpp).

  Any number of worker threads are inside `run`. What a worker does under `m_mutex` is one
  step, and so is each of its other accesses to what threads share: a fiber's `m_state`, the
  two counters, the pipe of `tickle`, a switch of contexts. `Pc` is where a worker stands
  between two of them. Tasks come from anywhere: a call of `schedule` is a step of its own,
  and the `tickle` it owes a later one.

  Fibers, callbacks and threads are identities. `none` is a failed assertion, or a step that
  cannot be made.
-/

import Mathlib.Logic.Function.Basic
import LjrServer.IoManager.Events
import LjrServer.Lib.Runs

namespace LjrServer

open IoManager (FiberState Task)

namespace Scheduler

structure Fiber where
  state : FiberState := .INIT
  cb : Option Nat
  deriving DecidableEq, Repr

/-- `m_state == TERM || m_state == EXCEPT`. -/
def Fiber.finished (f : Fiber) : Bool := f.state == .TERM || f.state == .EXCEPT

/-- A node of the list `m_fibers`, which never holds an empty task. `thread` is `none` for -1;
    `node` tells the nodes of the list apart. -/
structure FiberAndThread where
  task : Task
  thread : Option Nat
  node : Nat
  deriving DecidableEq, Repr

/-- Where a fiber that `run` switches to is kept: `ft.fiber` or `cb_fiber`. -/
inductive Branch where
  | fiber
  | callback
  deriving DecidableEq, Repr

/-- What a worker with a fiber does next. -/
inductive Stage where
  | swapIn  -- `LJRSERVER_ASSERT(m_state != EXEC)`
  | enter  -- `m_state = EXEC`
  | resume  -- `swapcontext` to the fiber
  | on  -- the fiber's own code
  | leave  -- `swapcontext` back, `m_state` being set already
  | returned  -- `--m_activeThreadCount`
  | after  -- `getState() == READY`
  | again  -- `schedule` of the fiber
  | ended  -- `getState()` is `TERM` or `EXCEPT`
  | hold  -- `m_state = HOLD`
  deriving DecidableEq, Repr

inductive Pc where
  | out  -- not in `run`
  | top  -- the locked section of `run`
  | dequeued (ft : Option FiberAndThread) (tickleMe : Bool)  -- `if (tickle_me) tickle()`
  | chosen (ft : Option FiberAndThread)  -- the choice of a branch
  | run (stage : Stage) (br : Branch) (f : Nat)
  | tickling  -- `tickle()` at the end of a `schedule` of its own
  | finished  -- `--m_activeThreadCount` for a fiber that had finished
  | idle  -- `stopping(next_timeout)`
  | waiting  -- `epoll_wait`
  | woken  -- what `epoll_wait` returned
  | idled  -- `--m_idleThreadCount`
  deriving DecidableEq, Repr

/-- A worker and the local variables of its `run`. -/
structure Worker where
  pc : Pc
  cbFiber : Option Nat := none
  idleFiber : FiberState := .INIT
  deriving DecidableEq, Repr

end Scheduler

open Scheduler in
structure Scheduler where
  heap : Nat → Fiber
  nextFiber : Nat
  fibers : List FiberAndThread
  nextNode : Nat
  activeThreadCount : Int
  idleThreadCount : Int
  stopping : Bool
  autoStop : Bool
  worker : Nat → Worker
  /-- Bytes in the pipe of `m_tickleFds`. -/
  pipe : Nat
  /-- Calls of `schedule` that have to `tickle` yet. -/
  tickling : Nat

namespace Scheduler

/-- How a fiber's code leaves its worker. -/
inductive Leave where
  | yieldToHold
  | yieldToReady
  | returned
  | threw
  deriving DecidableEq, Repr

def Leave.state : Leave → FiberState
  | .yieldToHold => .HOLD
  | .yieldToReady => .READY
  | .returned => .TERM
  | .threw => .EXCEPT

inductive Action where
  /-- A step of a worker inside `run`. -/
  | worker (t : Nat)
  /-- `YieldToHold`, `YieldToReady`, or the end of `MainFunc`. -/
  | leave (t : Nat) (how : Leave)
  /-- `stopping(next_timeout)`; `drained` when no timer is set and no event is pending. -/
  | idle (t : Nat) (drained : Bool)
  /-- `epoll_wait` returns: a byte, another event or the timeout. -/
  | wake (t : Nat)
  /-- Reads bytes of the pipe. -/
  | read (t : Nat) (k : Nat)
  | schedule (fc : Option Task) (thread : Option Nat)
  | scheduleRange (fcs : List (Option Task))
  /-- The `tickle` of a `schedule`. -/
  | tickled
  /-- A `tickle` of its own: `stop` and `onTimerInsertedAtFront` make them. -/
  | tickle
  | newFiber (cb : Option Nat)
  | setAutoStop
  | setStopping
  deriving DecidableEq, Repr

/-- After `start`, with the workers about to enter the loop of `run`. -/
def init (threads : List Nat) : Scheduler where
  heap := fun _ => { cb := none }
  nextFiber := 0
  fibers := []
  nextNode := 0
  activeThreadCount := 0
  idleThreadCount := 0
  stopping := false
  autoStop := false
  worker := fun t => if t ∈ threads then { pc := .top } else { pc := .out }
  pipe := 0
  tickling := 0

def setWorker (s : Scheduler) (t : Nat) (w : Worker) : Scheduler := { s with worker := Function.update s.worker t w }

def goto (s : Scheduler) (t : Nat) (pc : Pc) : Scheduler := s.setWorker t { s.worker t with pc }

def setFiber (s : Scheduler) (f : Nat) (fiber : Fiber) : Scheduler := { s with heap := Function.update s.heap f fiber }

def setState (s : Scheduler) (f : Nat) (state : FiberState) : Scheduler := s.setFiber f { s.heap f with state }

/-- `Fiber::reset`. -/
def reset (s : Scheduler) (f : Nat) (cb : Option Nat) : Option Scheduler :=
  if (s.heap f).finished || (s.heap f).state == .INIT then some (s.setFiber f { cb }) else none

/-- `new Fiber(cb)`; the fiber is the old `nextFiber`. -/
def newFiber (s : Scheduler) (cb : Option Nat) : Scheduler :=
  { s.setFiber s.nextFiber { cb } with nextFiber := s.nextFiber + 1 }

/-! ## Tickling and stopping -/

def hasIdleThreads (s : Scheduler) : Bool := s.idleThreadCount > 0

def tickle (s : Scheduler) : Scheduler := if s.hasIdleThreads then { s with pipe := s.pipe + 1 } else s

/-- `Scheduler::stopping`. -/
def isStopping (s : Scheduler) : Bool := s.autoStop && s.stopping && s.fibers.isEmpty && s.activeThreadCount == 0

/-! ## The queue -/

def scheduleNoLock (s : Scheduler) (fc : Option Task) (thread : Option Nat) : Bool × Scheduler :=
  let needTickle := s.fibers.isEmpty
  match fc with
  | some task =>
    (needTickle, { s with fibers := s.fibers ++ [⟨task, thread, s.nextNode⟩], nextNode := s.nextNode + 1 })
  | none => (needTickle, s)

/-- The loop of the range form. A task is swapped out of its place, which is left empty. -/
def scheduleRangeNoLock (s : Scheduler) : List (Option Task) → Bool × List (Option Task) × Scheduler
  | [] => (false, [], s)
  | fc :: rest =>
    let (needTickle, s) := s.scheduleNoLock fc none
    let (needTickle', storage, s) := s.scheduleRangeNoLock rest
    (needTickle || needTickle', none :: storage, s)

def executing (heap : Nat → Fiber) : Task → Bool
  | .fiber f => (heap f).state == .EXEC
  | .cb _ => false

/-- What the scan of `m_fibers` found, and the list it left. -/
structure Found where
  ft : Option FiberAndThread
  tickleMe : Bool
  fibers : List FiberAndThread
  deriving DecidableEq, Repr

def dequeue (heap : Nat → Fiber) (t : Nat) : List FiberAndThread → Found
  | [] => ⟨none, false, []⟩
  | it :: rest =>
    if it.thread ≠ none ∧ it.thread ≠ some t then
      let found := dequeue heap t rest
      { found with tickleMe := true, fibers := it :: found.fibers }
    else if executing heap it.task then
      let found := dequeue heap t rest
      { found with fibers := it :: found.fibers }
    else ⟨some it, false, rest⟩

/-! ## The steps of `run` -/

/-- `cb_fiber.reset()` in the branch of callbacks. -/
def dropCbFiber (s : Scheduler) (t : Nat) : Branch → Scheduler
  | .fiber => s
  | .callback => s.setWorker t { s.worker t with cbFiber := none }

/-- A worker with a fiber. -/
def stageStep (s : Scheduler) (t : Nat) (stage : Stage) (br : Branch) (f : Nat) : Option Scheduler :=
  match stage with
  | .swapIn => if (s.heap f).state = .EXEC then none else some (s.goto t (.run .enter br f))
  | .enter => some ((s.setState f .EXEC).goto t (.run .resume br f))
  | .resume => some (s.goto t (.run .on br f))
  | .on => none
  | .leave => some (s.goto t (.run .returned br f))
  | .returned => some ({ s with activeThreadCount := s.activeThreadCount - 1 }.goto t (.run .after br f))
  | .after => some (s.goto t (if (s.heap f).state = .READY then .run .again br f else .run .ended br f))
  | .again =>
    let (needTickle, s) := s.scheduleNoLock (some (.fiber f)) none
    some ((s.dropCbFiber t br).goto t (if needTickle then .tickling else .top))
  | .ended =>
    if (s.heap f).finished then
      match br with
      | .fiber => some (s.goto t .top)
      | .callback => (s.reset f none).map fun s => s.goto t .top
    else some (s.goto t (.run .hold br f))
  | .hold => some (((s.setState f .HOLD).dropCbFiber t br).goto t .top)

/-- The branch `run` takes, and the fiber of a callback. -/
def choose (s : Scheduler) (t : Nat) : Option FiberAndThread → Option Scheduler
  | some ⟨.fiber f, _, _⟩ => some (s.goto t (if (s.heap f).finished then .finished else .run .swapIn .fiber f))
  | some ⟨.cb c, _, _⟩ =>
    match (s.worker t).cbFiber with
    | some f => (s.reset f (some c)).map fun s => s.goto t (.run .swapIn .callback f)
    | none =>
      some ((s.newFiber (some c)).setWorker t
        { s.worker t with pc := .run .swapIn .callback s.nextFiber, cbFiber := some s.nextFiber })
  | none =>
    match (s.worker t).idleFiber with
    | .TERM => some (s.goto t .out)
    | .EXEC => none
    | _ =>
      some ({ s with idleThreadCount := s.idleThreadCount + 1 }.setWorker t
        { s.worker t with pc := .idle, idleFiber := .EXEC })

def workerStep (s : Scheduler) (t : Nat) : Option Scheduler :=
  match (s.worker t).pc with
  | .top =>
    let found := dequeue s.heap t s.fibers
    some ({ s with
      fibers := found.fibers
      activeThreadCount := s.activeThreadCount + (if found.ft.isSome then 1 else 0) }.goto t
        (.dequeued found.ft found.tickleMe))
  | .dequeued ft tickleMe => some ((if tickleMe then s.tickle else s).goto t (.chosen ft))
  | .chosen ft => s.choose t ft
  | .run stage br f => s.stageStep t stage br f
  | .tickling => some (s.tickle.goto t .top)
  | .finished => some ({ s with activeThreadCount := s.activeThreadCount - 1 }.goto t .top)
  | .woken => some (s.goto t .idled)
  | .idled =>
    let w := s.worker t
    let idleFiber := if w.idleFiber = .TERM ∨ w.idleFiber = .EXCEPT then w.idleFiber else .HOLD
    some ({ s with idleThreadCount := s.idleThreadCount - 1 }.setWorker t { w with pc := .top, idleFiber })
  | .out | .idle | .waiting => none

def allocated (s : Scheduler) : Task → Bool
  | .fiber f => f < s.nextFiber
  | .cb _ => true

def owe (s : Scheduler) (needTickle : Bool) : Scheduler :=
  { s with tickling := s.tickling + (if needTickle then 1 else 0) }

def step (s : Scheduler) : Action → Option Scheduler
  | .worker t => s.workerStep t
  | .leave t how =>
    match (s.worker t).pc with
    | .run .on br f =>
      let cb := if how = .returned then none else (s.heap f).cb
      some ((s.setFiber f { state := how.state, cb }).goto t (.run .leave br f))
    | _ => none
  | .idle t drained =>
    match (s.worker t).pc with
    | .idle =>
      if drained && s.isStopping then some (s.setWorker t { s.worker t with pc := .idled, idleFiber := .TERM })
      else some (s.goto t .waiting)
    | _ => none
  | .wake t => if (s.worker t).pc = .waiting then some (s.goto t .woken) else none
  | .read t k => if (s.worker t).pc = .woken ∧ k ≤ s.pipe then some { s with pipe := s.pipe - k } else none
  | .schedule fc thread =>
    if fc.all s.allocated then
      let (needTickle, s) := s.scheduleNoLock fc thread
      some (s.owe needTickle)
    else none
  | .scheduleRange fcs =>
    if fcs.all fun fc => fc.all s.allocated then
      let (needTickle, _, s) := s.scheduleRangeNoLock fcs
      some (s.owe needTickle)
    else none
  | .tickled => if 0 < s.tickling then some { s.tickle with tickling := s.tickling - 1 } else none
  | .tickle => some s.tickle
  | .newFiber cb => some (s.newFiber cb)
  | .setAutoStop => some { s with autoStop := true }
  | .setStopping => some { s with stopping := true }

end Scheduler

end LjrServer
