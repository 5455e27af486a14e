/-
  LjrServer.IoManager.Events — the event bookkeeping of `IOManager` (iomanager.cpp): fd
  contexts, `addEvent`, `delEvent`, `cancelEvent`, `cancelAll` and what `idle` does with
  one event `epoll_wait` returned.

  An operation runs under its fd's mutex and is one step here. `rt` is what its
  `epoll_ctl` returns (0 for success); the call's arguments are part of the outcome.
  Schedulers, fibers and callbacks are identities. `none` is a failed assertion, a null
  dereference or an index past the vector's end.
-/

import LjrServer.Http.Message

namespace LjrServer.IoManager

open LjrServer.Http (toInt32 toInt32_eq toInt32_of_lt)

inductive Event where
  | NONE
  | READ
  | WRITE
  deriving DecidableEq, Repr

def Event.mask : Event → BitVec 32
  | .NONE => 0x0
  | .READ => 0x1
  | .WRITE => 0x4

def EPOLLIN : BitVec 32 := 0x1
def EPOLLOUT : BitVec 32 := 0x4
def EPOLLERR : BitVec 32 := 0x8
def EPOLLHUP : BitVec 32 := 0x10
def EPOLLET : BitVec 32 := 0x80000000

structure EventContext where
  scheduler : Option Nat := none
  fiber : Option Nat := none
  cb : Option Nat := none
  deriving DecidableEq, Repr

structure FdContext where
  fd : Nat
  read : EventContext := {}
  write : EventContext := {}
  events : BitVec 32 := 0
  deriving DecidableEq, Repr

inductive Task where
  | fiber (f : Nat)
  | cb (c : Nat)
  deriving DecidableEq, Repr

/-- A task in a scheduler's queue. -/
structure Scheduled where
  scheduler : Nat
  task : Task
  deriving DecidableEq, Repr

structure IOManager where
  fdContexts : List FdContext
  pendingEventCount : Int
  deriving DecidableEq, Repr

inductive FiberState where
  | INIT
  | HOLD
  | EXEC
  | TERM
  | READY
  | EXCEPT
  deriving DecidableEq, Repr

/-- Where `addEvent` is called: `Scheduler::GetThis()` and `Fiber::GetThis()`. -/
structure Caller where
  scheduler : Option Nat
  fiber : Nat
  state : FiberState
  deriving DecidableEq, Repr

inductive CtlOp where
  | EPOLL_CTL_ADD
  | EPOLL_CTL_MOD
  | EPOLL_CTL_DEL
  deriving DecidableEq, Repr

/-- The arguments of an `epoll_ctl`; its data pointer is the fd's context. -/
structure Ctl where
  op : CtlOp
  fd : Nat
  events : BitVec 32
  deriving DecidableEq, Repr

/-- What an operation returned, the `epoll_ctl` it made and the tasks it scheduled. -/
structure Outcome where
  ok : Bool
  ctl : Option Ctl := none
  scheduled : List Scheduled := []
  deriving DecidableEq, Repr

/-! ## Contexts -/

namespace FdContext

def getContext (c : FdContext) : Event → Option EventContext
  | .NONE => none
  | .READ => some c.read
  | .WRITE => some c.write

/-- Assigns through the reference `getContext` returns. -/
def setContext (c : FdContext) (event : Event) (ctx : EventContext) : FdContext :=
  match event with
  | .NONE => c
  | .READ => { c with read := ctx }
  | .WRITE => { c with write := ctx }

def resetContext (_ : EventContext) : EventContext := { scheduler := none, fiber := none, cb := none }

/-- `Scheduler::schedule` of a pointer: the task is swapped out, and an empty one is not queued. -/
def schedule (scheduler : Nat) (task : Option Task) : List Scheduled := (task.map fun t => ⟨scheduler, t⟩).toList

def triggerEvent (c : FdContext) (event : Event) : Option (List Scheduled × FdContext) :=
  if c.events &&& event.mask = 0 then none
  else do
    let c := { c with events := c.events &&& ~~~event.mask }
    let ctx ← c.getContext event
    let scheduler ← ctx.scheduler
    if ctx.cb.isSome then
      some (schedule scheduler (ctx.cb.map .cb), c.setContext event { ctx with cb := none, scheduler := none })
    else
      some (schedule scheduler (ctx.fiber.map .fiber), c.setContext event { ctx with fiber := none, scheduler := none })

end FdContext

namespace IOManager

/-- `(int)m_fdContexts.size()`. -/
def intSize (s : IOManager) : Int := toInt32 s.fdContexts.length

theorem intSize_le (s : IOManager) : s.intSize ≤ s.fdContexts.length := by
  rw [intSize, toInt32_eq]
  split <;> omega

theorem intSize_of_lt {s : IOManager} (h : s.fdContexts.length < 2 ^ 31) : s.intSize = s.fdContexts.length :=
  toInt32_of_lt h

/-- `resize` and a fresh context in every new slot. -/
def contextResize (s : IOManager) (size : Nat) : IOManager :=
  { s with fdContexts := (List.range size).map fun i => s.fdContexts[i]?.getD { fd := i } }

/-- After the constructor. -/
def init : IOManager := contextResize { fdContexts := [], pendingEventCount := 0 } 32

def setFd (s : IOManager) (fd : Nat) (c : FdContext) : IOManager := { s with fdContexts := s.fdContexts.set fd c }

/-! ## Operations -/

def addEvent (s : IOManager) (caller : Caller) (fd : Nat) (event : Event) (cb : Option Nat) (rt : Int) :
    Option (Outcome × IOManager) := do
  let s := if s.intSize > fd then s else s.contextResize (fd * 3 / 2)
  let fdCtx ← s.fdContexts[fd]?
  if fdCtx.events &&& event.mask ≠ 0 then none
  else
    let op := if fdCtx.events ≠ 0 then CtlOp.EPOLL_CTL_MOD else .EPOLL_CTL_ADD
    let ctl : Ctl := ⟨op, fd, EPOLLET ||| fdCtx.events ||| event.mask⟩
    if rt ≠ 0 then some ({ ok := false, ctl }, s)
    else
      let eventCtx ← fdCtx.getContext event
      if eventCtx.scheduler.isSome || eventCtx.fiber.isSome || eventCtx.cb.isSome then none
      else
        let fdCtx := { fdCtx with events := fdCtx.events ||| event.mask }
        let eventCtx := { eventCtx with scheduler := caller.scheduler }
        let s := { s with pendingEventCount := s.pendingEventCount + 1 }
        match cb with
        | some cb => some ({ ok := true, ctl }, s.setFd fd (fdCtx.setContext event { eventCtx with cb := some cb }))
        | none =>
          if caller.state ≠ .EXEC then none
          else some ({ ok := true, ctl }, s.setFd fd (fdCtx.setContext event { eventCtx with fiber := some caller.fiber }))

def delEvent (s : IOManager) (fd : Nat) (event : Event) (rt : Int) : Option (Outcome × IOManager) :=
  if s.intSize ≤ fd then some ({ ok := false }, s)
  else do
    let fdCtx ← s.fdContexts[fd]?
    if fdCtx.events &&& event.mask = 0 then some ({ ok := false }, s)
    else
      let newEvents := fdCtx.events &&& ~~~event.mask
      let op := if newEvents ≠ 0 then CtlOp.EPOLL_CTL_MOD else .EPOLL_CTL_DEL
      let ctl : Ctl := ⟨op, fd, EPOLLET ||| newEvents⟩
      if rt ≠ 0 then some ({ ok := false, ctl }, s)
      else
        let s := { s with pendingEventCount := s.pendingEventCount - 1 }
        let fdCtx := { fdCtx with events := newEvents }
        let eventCtx ← fdCtx.getContext event
        some ({ ok := true, ctl }, s.setFd fd (fdCtx.setContext event (FdContext.resetContext eventCtx)))

def cancelEvent (s : IOManager) (fd : Nat) (event : Event) (rt : Int) : Option (Outcome × IOManager) :=
  if s.intSize ≤ fd then some ({ ok := false }, s)
  else do
    let fdCtx ← s.fdContexts[fd]?
    if fdCtx.events &&& event.mask = 0 then some ({ ok := false }, s)
    else
      let newEvents := fdCtx.events &&& ~~~event.mask
      let op := if newEvents ≠ 0 then CtlOp.EPOLL_CTL_MOD else .EPOLL_CTL_DEL
      let ctl : Ctl := ⟨op, fd, EPOLLET ||| newEvents⟩
      if rt ≠ 0 then some ({ ok := false, ctl }, s)
      else
        let (scheduled, fdCtx) ← fdCtx.triggerEvent event
        let s := { s with pendingEventCount := s.pendingEventCount - 1 }
        some ({ ok := true, ctl, scheduled }, s.setFd fd fdCtx)

/-- `if (mask & event) { triggerEvent(event); --m_pendingEventCount; }`: the tasks, the
    context and how much the count goes down. -/
def triggerIf (mask : BitVec 32) (event : Event) (c : FdContext) : Option (List Scheduled × FdContext × Int) :=
  if mask &&& event.mask ≠ 0 then (c.triggerEvent event).map fun r => (r.1, r.2, 1)
  else some ([], c, 0)

def cancelAll (s : IOManager) (fd : Nat) (rt : Int) : Option (Outcome × IOManager) :=
  if s.intSize ≤ fd then some ({ ok := false }, s)
  else do
    let fdCtx ← s.fdContexts[fd]?
    if fdCtx.events = 0 then some ({ ok := false }, s)
    else
      let ctl : Ctl := ⟨.EPOLL_CTL_DEL, fd, 0⟩
      if rt ≠ 0 then some ({ ok := false, ctl }, s)
      else
        let (reads, fdCtx, n) ← triggerIf fdCtx.events .READ fdCtx
        let (writes, fdCtx, m) ← triggerIf fdCtx.events .WRITE fdCtx
        if fdCtx.events ≠ 0 then none
        else
          let s := { s with pendingEventCount := s.pendingEventCount - n - m }
          some ({ ok := true, ctl, scheduled := reads ++ writes }, s.setFd fd fdCtx)

/-- The body of `idle`'s loop for an event whose data pointer is `fd`'s context. -/
def dispatch (s : IOManager) (fd : Nat) (events : BitVec 32) (rt : Int) : Option (Outcome × IOManager) := do
  let fdCtx ← s.fdContexts[fd]?
  let events := if events &&& (EPOLLERR ||| EPOLLHUP) ≠ 0 then events ||| ((EPOLLIN ||| EPOLLOUT) &&& fdCtx.events) else events
  let realEvents := (if events &&& EPOLLIN ≠ 0 then Event.READ.mask else 0) |||
    (if events &&& EPOLLOUT ≠ 0 then Event.WRITE.mask else 0)
  if fdCtx.events &&& realEvents = 0 then some ({ ok := false }, s)
  else
    let leftEvents := fdCtx.events &&& ~~~realEvents
    let op := if leftEvents ≠ 0 then CtlOp.EPOLL_CTL_MOD else .EPOLL_CTL_DEL
    let ctl : Ctl := ⟨op, fdCtx.fd, EPOLLET ||| leftEvents⟩
    if rt ≠ 0 then some ({ ok := false, ctl }, s)
    else
      let (reads, fdCtx, n) ← triggerIf realEvents .READ fdCtx
      let (writes, fdCtx, m) ← triggerIf realEvents .WRITE fdCtx
      let s := { s with pendingEventCount := s.pendingEventCount - n - m }
      some ({ ok := true, ctl, scheduled := reads ++ writes }, s.setFd fd fdCtx)

end IOManager

/-- An operation and what `epoll_ctl` answers it. -/
inductive Op where
  | addEvent (caller : Caller) (fd : Nat) (event : Event) (cb : Option Nat) (rt : Int)
  | delEvent (fd : Nat) (event : Event) (rt : Int)
  | cancelEvent (fd : Nat) (event : Event) (rt : Int)
  | cancelAll (fd : Nat) (rt : Int)
  | dispatch (fd : Nat) (events : BitVec 32) (rt : Int)
  deriving DecidableEq, Repr

namespace Op

def fd : Op → Nat
  | .addEvent _ fd _ _ _ => fd
  | .delEvent fd _ _ => fd
  | .cancelEvent fd _ _ => fd
  | .cancelAll fd _ => fd
  | .dispatch fd _ _ => fd

def rt : Op → Int
  | .addEvent _ _ _ _ rt => rt
  | .delEvent _ _ rt => rt
  | .cancelEvent _ _ rt => rt
  | .cancelAll _ rt => rt
  | .dispatch _ _ rt => rt

def exec (s : IOManager) : Op → Option (Outcome × IOManager)
  | .addEvent caller fd event cb rt => s.addEvent caller fd event cb rt
  | .delEvent fd event rt => s.delEvent fd event rt
  | .cancelEvent fd event rt => s.cancelEvent fd event rt
  | .cancelAll fd rt => s.cancelAll fd rt
  | .dispatch fd events rt => s.dispatch fd events rt

end Op

end LjrServer.IoManager
