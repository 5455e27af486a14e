/-
  LjrServer.Timer.Manager — `Timer` and `TimerManager` (timer.h, timer.cpp).

  A timer is known by its address; `heap` holds the timers that exist, as the `shared_ptr`s
  to them keep them. A callback is an identity. A clock reading is an argument, and so is the
  address `new` returns. An operation runs under the manager's mutex and is one step;
  `listExpiredCb` takes it twice. `none` is an access to what does not exist: an erased
  `end()`, `*begin()` of an empty set, a timer that is gone.
-/

import LjrServer.Lib.OrderedSet

namespace LjrServer.Timers

open LjrServer.Lib

abbrev Addr := Nat

abbrev Cb := Nat

structure Timer where
  recurring : Bool := false
  ms : UInt64 := 0
  next : UInt64 := 0
  cb : Option Cb := none
  deriving DecidableEq, Repr

/-- `Timer::Comparator`; `none` is a null pointer. -/
def comparator (next : Addr → UInt64) (lhs rhs : Option Addr) : Bool :=
  match lhs, rhs with
  | none, none => false
  | none, some _ => true
  | some _, none => false
  | some lhs, some rhs =>
    if next lhs < next rhs then true
    else if next rhs < next lhs then false
    else lhs < rhs

structure TimerManager where
  heap : Addr → Option Timer
  timers : List Addr
  tickled : Bool
  previousTime : UInt64

/-- What an operation returned, and whether it called `onTimerInsertedAtFront`. -/
structure Outcome where
  ok : Bool := true
  wait : UInt64 := 0
  cbs : List (Option Cb) := []
  insertedAtFront : Bool := false
  deriving DecidableEq, Repr

namespace TimerManager

/-- After the constructor, which reads the clock once. -/
def init (now : UInt64) : TimerManager := { heap := fun _ => none, timers := [], tickled := false, previousTime := now }

def set (m : TimerManager) (a : Addr) (t : Option Timer) : TimerManager :=
  { m with heap := fun b => if b = a then t else m.heap b }

def next (m : TimerManager) (a : Addr) : UInt64 :=
  match m.heap a with
  | some t => t.next
  | none => 0

/-- The order of `m_timers`, for the deadlines as they are now. -/
def lt (m : TimerManager) (a b : Addr) : Bool := comparator m.next (some a) (some b)

/-- The protected `addTimer`; the first part says whether it calls `onTimerInsertedAtFront`. -/
def addTimerLocked (m : TimerManager) (a : Addr) : Bool × TimerManager :=
  let (it, timers) := OrderedSet.insert m.lt m.timers a
  let atFront := it == 0 && !m.tickled
  (atFront, { m with timers, tickled := m.tickled || atFront })

def addTimer (m : TimerManager) (a : Addr) (ms : UInt64) (cb : Option Cb) (recurring : Bool) (now : UInt64) :
    Option (Outcome × TimerManager) :=
  let (insertedAtFront, m) := (m.set a (some { recurring, ms, next := now + ms, cb })).addTimerLocked a
  some ({ insertedAtFront }, m)

def cancel (m : TimerManager) (a : Addr) : Option (Outcome × TimerManager) := do
  let t ← m.heap a
  if t.cb.isSome then
    let m := m.set a (some { t with cb := none })
    let timers ← OrderedSet.erase m.timers (OrderedSet.find m.lt m.timers a)
    some ({}, { m with timers })
  else some ({ ok := false }, m)

def refresh (m : TimerManager) (a : Addr) (now : UInt64) : Option (Outcome × TimerManager) := do
  let t ← m.heap a
  if t.cb.isNone then some ({ ok := false }, m)
  else
    let it := OrderedSet.find m.lt m.timers a
    if it = none then some ({ ok := false }, m)
    else
      let timers ← OrderedSet.erase m.timers it
      let m := { m with timers }.set a (some { t with next := now + t.ms })
      some ({}, { m with timers := (OrderedSet.insert m.lt m.timers a).2 })

def reset (m : TimerManager) (a : Addr) (ms : UInt64) (fromNow : Bool) (now : UInt64) : Option (Outcome × TimerManager) := do
  let t ← m.heap a
  if ms = t.ms && !fromNow then some ({}, m)
  else if t.cb.isNone then some ({ ok := false }, m)
  else
    let it := OrderedSet.find m.lt m.timers a
    if it = none then some ({ ok := false }, m)
    else
      let timers ← OrderedSet.erase m.timers it
      let start := if fromNow then now else t.next - t.ms
      let (insertedAtFront, m) := ({ m with timers }.set a (some { t with ms, next := start + ms })).addTimerLocked a
      some ({ insertedAtFront }, m)

def getNextTimer (m : TimerManager) (now : UInt64) : UInt64 × TimerManager :=
  let m := { m with tickled := false }
  match m.timers with
  | [] => (~~~0, m)
  | a :: _ => (if now ≥ m.next a then 0 else m.next a - now, m)

def detectClockRollover (m : TimerManager) (now : UInt64) : Bool × TimerManager :=
  (now < m.previousTime && now < m.previousTime - 60 * 60 * 1000, { m with previousTime := now })

/-- The loop over the expired timers, which are out of the set. -/
def rearm (m : TimerManager) (now : UInt64) : List Addr → Option (List (Option Cb) × TimerManager)
  | [] => some ([], m)
  | a :: expired => do
    let t ← m.heap a
    let m :=
      if t.recurring then
        let m := m.set a (some { t with next := now + t.ms })
        { m with timers := (OrderedSet.insert m.lt m.timers a).2 }
      else m.set a (some { t with cb := none })
    let (cbs, m) ← m.rearm now expired
    some (t.cb :: cbs, m)

/-- How many timers `listExpiredCb` takes: those before the iterator it ends with. `nowTimer`
    is where its own timer, for comparing with, is allocated. -/
def expiredCount (m : TimerManager) (now : UInt64) (rollover : Bool) (nowTimer : Addr) : Nat :=
  if rollover then m.timers.length
  else
    let it := OrderedSet.lowerBound (m.set nowTimer (some { next := now })).lt m.timers nowTimer
    it + ((m.timers.drop it).takeWhile fun a => m.next a == now).length

/-- The first critical section of `listExpiredCb`: whether it returns at once. -/
def noTimer (m : TimerManager) : Bool := m.timers.isEmpty

/-- `!rollover && (*m_timers.begin())->m_next > now_ms`. -/
def notDue (m : TimerManager) (now : UInt64) (rollover : Bool) : Option Bool :=
  if rollover then some false else m.timers.head?.map fun begin => decide (m.next begin > now)

/-- The second critical section of `listExpiredCb`, after `detectClockRollover`. -/
def fire (m : TimerManager) (now : UInt64) (rollover : Bool) (nowTimer : Addr) : Option (Outcome × TimerManager) := do
  if ← m.notDue now rollover then some ({}, m)
  else
    let it := m.expiredCount now rollover nowTimer
    let (cbs, m) ← { m with timers := m.timers.drop it }.rearm now (m.timers.take it)
    some ({ cbs }, m)

def expire (m : TimerManager) (now : UInt64) (nowTimer : Addr) : Option (Outcome × TimerManager) :=
  let (rollover, m) := m.detectClockRollover now
  m.fire now rollover nowTimer

def listExpiredCb (m : TimerManager) (now : UInt64) (nowTimer : Addr) : Option (Outcome × TimerManager) :=
  if m.noTimer then some ({}, m) else m.expire now nowTimer

def hasTimer (m : TimerManager) : Bool := !m.timers.isEmpty

end TimerManager

/-- `release` is the last `shared_ptr` outside the set going away. -/
inductive Op where
  | addTimer (a : Addr) (ms : UInt64) (cb : Option Cb) (recurring : Bool) (now : UInt64)
  | cancel (a : Addr)
  | refresh (a : Addr) (now : UInt64)
  | reset (a : Addr) (ms : UInt64) (fromNow : Bool) (now : UInt64)
  | getNextTimer (now : UInt64)
  | listExpiredCb (now : UInt64) (nowTimer : Addr)
  | release (a : Addr)
  deriving DecidableEq, Repr

namespace Op

def exec (m : TimerManager) : Op → Option (Outcome × TimerManager)
  | .addTimer a ms cb recurring now => m.addTimer a ms cb recurring now
  | .cancel a => m.cancel a
  | .refresh a now => m.refresh a now
  | .reset a ms fromNow now => m.reset a ms fromNow now
  | .getNextTimer now => some ({ wait := (m.getNextTimer now).1 }, (m.getNextTimer now).2)
  | .listExpiredCb now nowTimer => m.listExpiredCb now nowTimer
  | .release a => some ({}, m.set a none)

/-- What the language guarantees: `new` returns an address nothing lives at, a timer is called
    through a pointer that keeps it, and the set's pointers keep its members. -/
def Legal (m : TimerManager) : Op → Prop
  | .addTimer a _ _ _ _ => m.heap a = none
  | .cancel a => m.heap a ≠ none
  | .refresh a _ => m.heap a ≠ none
  | .reset a _ _ _ => m.heap a ≠ none
  | .getNextTimer _ => True
  | .listExpiredCb _ nowTimer => m.heap nowTimer = none
  | .release a => a ∉ m.timers

instance (m : TimerManager) (op : Op) : Decidable (op.Legal m) :=
  match op with
  | .addTimer a _ _ _ _ => inferInstanceAs (Decidable (m.heap a = none))
  | .cancel a => inferInstanceAs (Decidable (m.heap a ≠ none))
  | .refresh a _ => inferInstanceAs (Decidable (m.heap a ≠ none))
  | .reset a _ _ _ => inferInstanceAs (Decidable (m.heap a ≠ none))
  | .getNextTimer _ => inferInstanceAs (Decidable True)
  | .listExpiredCb _ nowTimer => inferInstanceAs (Decidable (m.heap nowTimer = none))
  | .release a => inferInstanceAs (Decidable (a ∉ m.timers))

/-- A timer is added with a callback. -/
def Calls : Op → Prop
  | .addTimer _ _ cb _ _ => cb ≠ none
  | _ => True

instance (op : Op) : Decidable op.Calls :=
  match op with
  | .addTimer _ _ cb _ _ => inferInstanceAs (Decidable (cb ≠ none))
  | .cancel _ | .refresh _ _ | .reset _ _ _ _ | .getNextTimer _ | .listExpiredCb _ _ | .release _ => .isTrue trivial

end Op

end LjrServer.Timers
