/-
  LjrServer.IoManager.Idle — how long `idle` lets `epoll_wait` sleep (iomanager.cpp).

  The delay `getNextTimer` returns is compared and passed on as an `int`, and what was passed
  is the delay of the next round when `epoll_wait` was interrupted.

  Proved:
  - `waits_eq`: every round passes the same timeout.
  - `idle_waits_iff`: the timeouts are the delay, or 5 seconds if that is less, exactly when
    narrowing the delay does not bring it below 5 seconds.
  - `idle_in_time`: then the sleep is finite, and ends before the first deadline.
-/

import LjrServer.Http.Message
import LjrServer.Timer.Expiry

namespace LjrServer.IoManager

open LjrServer.Timers
open LjrServer.Http (toInt32 toInt32_eq)

/-- `(int)` of a `uint64_t`. -/
def toInt (v : UInt64) : Int := toInt32 v.toNat

def MAX_TIMEOUT : Int := 5000

def EINTR : Nat := 4

/-- What `epoll_wait` returned, and `errno`. -/
structure EpollWait where
  rt : Int
  errno : Nat
  deriving DecidableEq, Repr

/-- `stopping(timeout)`; `done` is `Scheduler::stopping()`. -/
def stopping (m : TimerManager) (now : UInt64) (pendingEventCount : Int) (done : Bool) : Bool × UInt64 × TimerManager :=
  let (timeout, m) := m.getNextTimer now
  (timeout == ~~~0 && pendingEventCount == 0 && done, timeout, m)

/-- The assignment to `next_timeout` in the loop. -/
def nextTimeout (next_timeout : UInt64) : UInt64 :=
  if next_timeout ≠ ~~~0 then
    if toInt next_timeout > MAX_TIMEOUT then .ofInt MAX_TIMEOUT else next_timeout
  else .ofInt MAX_TIMEOUT

/-- The timeouts `epoll_wait` is called with, for what it returns; the last call may still be
    waiting. -/
def waits (next_timeout : UInt64) : List EpollWait → List Int
  | [] => [toInt (nextTimeout next_timeout)]
  | w :: ws =>
    toInt (nextTimeout next_timeout) :: if w.rt < 0 ∧ w.errno = EINTR then waits (nextTimeout next_timeout) ws else []

/-- The timeouts of one turn of `idle`. -/
def idle (m : TimerManager) (now : UInt64) (pendingEventCount : Int) (done : Bool) (ws : List EpollWait) : List Int :=
  let (stops, next_timeout, _) := stopping m now pendingEventCount done
  if stops then [] else waits next_timeout ws

/-- As an `int` the delay is still what it is, or no less than 5 seconds. -/
def Narrows (w : UInt64) : Prop :=
  w = ~~~0 ∨ w.toNat ≤ 5000 ∨ 5000 ≤ w.toNat % 2 ^ 32 ∧ w.toNat % 2 ^ 32 < 2 ^ 31

instance (w : UInt64) : Decidable (Narrows w) := inferInstanceAs (Decidable (_ ∨ _))

/-! ## One turn -/

theorem nextTimeout_eq (w : UInt64) :
    nextTimeout w = if w = ~~~0 ∨ 5000 < w.toNat % 2 ^ 32 ∧ w.toNat % 2 ^ 32 < 2 ^ 31 then 5000 else w := by
  have hmax : UInt64.ofInt MAX_TIMEOUT = 5000 := by decide
  have hgt : toInt w > MAX_TIMEOUT ↔ 5000 < w.toNat % 2 ^ 32 ∧ w.toNat % 2 ^ 32 < 2 ^ 31 := by
    rw [toInt, toInt32_eq, MAX_TIMEOUT]
    generalize w.toNat = n
    split <;> omega
  unfold nextTimeout
  rw [hmax]
  simp only [hgt]
  by_cases hall : w = ~~~0
  · rw [if_neg (not_not_intro hall), if_pos (.inl hall)]
  · rw [if_pos hall]
    simp only [hall, false_or]

theorem nextTimeout_idem (w : UInt64) : nextTimeout (nextTimeout w) = nextTimeout w := by
  have hmax : nextTimeout 5000 = 5000 := by decide
  by_cases h : w = ~~~0 ∨ 5000 < w.toNat % 2 ^ 32 ∧ w.toNat % 2 ^ 32 < 2 ^ 31
  · rw [nextTimeout_eq w, if_pos h, hmax]
  · rw [nextTimeout_eq w, if_neg h, nextTimeout_eq w, if_neg h]

/-- Interrupted or not, the timeout stays the same. -/
theorem waits_eq (ws : List EpollWait) (w : UInt64) : ∀ t ∈ waits w ws, t = toInt (nextTimeout w) := by
  induction ws generalizing w with
  | nil => exact fun t ht => List.mem_singleton.mp ht
  | cons answer ws ih =>
    intro t ht
    rw [waits] at ht
    rcases List.mem_cons.mp ht with heq | ht
    · exact heq
    · split at ht
      · rw [ih (nextTimeout w) t ht, nextTimeout_idem]
      · cases ht

theorem mem_waits (ws : List EpollWait) (w : UInt64) : toInt (nextTimeout w) ∈ waits w ws := by
  cases ws with
  | nil => exact List.mem_singleton.mpr rfl
  | cons answer ws => exact List.mem_cons_self

theorem timeout_iff (w : UInt64) : toInt (nextTimeout w) = min (w.toNat : Int) 5000 ↔ Narrows w := by
  have hmax : toInt 5000 = 5000 := by decide
  rw [nextTimeout_eq, Narrows]
  by_cases hall : w = ~~~0
  · subst hall
    decide
  · have hlt := w.toNat_lt
    simp only [hall, false_or]
    rw [apply_ite toInt, hmax, toInt, toInt32_eq]
    revert hlt
    generalize w.toNat = n
    intro hlt
    split
    · omega
    · split <;> omega

theorem stopping_idle {m : TimerManager} {now : UInt64} {pendingEventCount : Int} {done : Bool}
    (h : (stopping m now pendingEventCount done).1 = true) : (m.getNextTimer now).1 = ~~~0 := by
  simp only [stopping, Bool.and_eq_true, beq_iff_eq] at h
  exact h.1.1

/-- For every timer set and clock, and however often `epoll_wait` is interrupted. -/
theorem idle_waits_iff (m : TimerManager) (now : UInt64) (pendingEventCount : Int) (done : Bool) (ws : List EpollWait) :
    (∀ t ∈ idle m now pendingEventCount done ws, t = min ((m.getNextTimer now).1.toNat : Int) 5000) ↔
      Narrows (m.getNextTimer now).1 := by
  rw [← timeout_iff]
  show (∀ t ∈ if (stopping m now pendingEventCount done).1 then [] else waits (m.getNextTimer now).1 ws, _) ↔ _
  cases hstop : (stopping m now pendingEventCount done).1 with
  | true =>
    rw [if_pos rfl, stopping_idle hstop]
    exact iff_of_true (fun t ht => nomatch ht) (by decide)
  | false =>
    rw [if_neg Bool.false_ne_true]
    constructor
    · intro h
      exact h _ (mem_waits ws _)
    · intro h t ht
      rw [waits_eq ws _ t ht, h]

/-- One timer, 2^31 ms ahead. -/
def farAhead : TimerManager where
  heap a := if a = 8 then some { ms := 2147483648, next := 2147483648, cb := some 0 } else none
  timers := [8]
  tickled := false
  previousTime := 0

/-- `epoll_wait` blocks for ever on a negative timeout. -/
theorem sleeps_for_ever : idle farAhead 0 0 false [] = [-2147483648] ∧
    ¬ ∀ t ∈ idle farAhead 0 0 false [], t = min ((farAhead.getNextTimer 0).1.toNat : Int) 5000 := by
  decide

/-- A finite sleep that ends at the first deadline or before. -/
theorem idle_in_time {m : TimerManager} (h : m.Ordered) {now : UInt64} {pendingEventCount : Int} {done : Bool}
    {ws : List EpollWait} (hw : Narrows (m.getNextTimer now).1)
    {t : Int} (ht : t ∈ idle m now pendingEventCount done ws) :
    0 ≤ t ∧ t ≤ 5000 ∧ ∀ a ∈ m.timers, now.toNat + t ≤ max now.toNat (m.next a).toNat := by
  rw [(idle_waits_iff m now pendingEventCount done ws).mpr hw t ht]
  refine ⟨by omega, by omega, fun a ha => ?_⟩
  have hle := TimerManager.getNextTimer_le h now ha
  omega

end LjrServer.IoManager
