/-
  LjrServer.IoManager.Cancel — `delEvent`, `cancelEvent` and `cancelAll` on any `int`, and the
  sockets that call them (iomanager.cpp, socket.cpp).

  The three begin with one test of the fd against the size of the table, from above. A socket
  passes its `m_sock`, which is -1 without a descriptor.

  Proved:
  - `find_ne_outside_iff`: the table is read in bounds exactly when the fd is not negative, or
    the size is no larger as an `int`.
  - `safe_iff`: that is when the three are in bounds, and leave everything alone where there is
    nothing to cancel.
  - `cancel_safe_iff`: so in every run the calls of a socket are safe exactly when it has a
    descriptor.
-/

import LjrServer.IoManager.Events
import LjrServer.Net.Socket

namespace LjrServer.IoManager

open LjrServer.Lib

/-- Where a look-up by an `int` ends. -/
inductive Found where
  | absent
  | context (c : FdContext)
  | outside
  deriving DecidableEq, Repr

namespace IOManager

/-- `m_fdContexts[fd]`. -/
def contextAt (s : IOManager) (fd : Int) : Option FdContext := if fd < 0 then none else s.fdContexts[fd.toNat]?

/-- What the three functions begin with. -/
def find (s : IOManager) (fd : Int) : Found :=
  if s.intSize ≤ fd then .absent
  else match s.contextAt fd with
    | some c => .context c
    | none => .outside

end IOManager

/-- An operation by which an fd loses events, and how it goes on with an fd that is in the table. -/
inductive Withdrawal where
  | delEvent (event : Event)
  | cancelEvent (event : Event)
  | cancelAll
  deriving DecidableEq, Repr

namespace Withdrawal

def op (fd : Nat) (rt : Int) : Withdrawal → Op
  | .delEvent event => .delEvent fd event rt
  | .cancelEvent event => .cancelEvent fd event rt
  | .cancelAll => .cancelAll fd rt

/-- The events it asks for. -/
def asks (c : FdContext) : Withdrawal → BitVec 32
  | .delEvent event => c.events &&& event.mask
  | .cancelEvent event => c.events &&& event.mask
  | .cancelAll => c.events

/-- The operation on any `int`; an access outside the table does not go through. -/
def exec (s : IOManager) (fd : Int) (rt : Int) (w : Withdrawal) : Option (Outcome × IOManager) :=
  match s.find fd with
  | .absent => some ({ ok := false }, s)
  | .context _ => (w.op fd.toNat rt).exec s
  | .outside => none

/-- The fd has such an event. -/
def Registered (s : IOManager) (fd : Int) (w : Withdrawal) : Prop := ∃ c, s.contextAt fd = some c ∧ w.asks c ≠ 0

/-- In bounds, and without effect when there is nothing to withdraw. -/
structure Safe (s : IOManager) (fd : Int) (rt : Int) (w : Withdrawal) : Prop where
  inBounds : s.find fd ≠ .outside
  nothing : ¬ w.Registered s fd → w.exec s fd rt = some ({ ok := false }, s)

end Withdrawal

/-! ## Any fd -/

section
variable {s : IOManager} {fd : Int}

theorem find_ne_outside_iff : s.find fd ≠ .outside ↔ 0 ≤ fd ∨ s.intSize ≤ fd := by
  have hle := s.intSize_le
  unfold IOManager.find
  by_cases habsent : s.intSize ≤ fd
  · rw [if_pos habsent]
    exact iff_of_true (by simp) (.inr habsent)
  · rw [if_neg habsent]
    by_cases hneg : fd < 0
    · rw [IOManager.contextAt, if_pos hneg]
      exact iff_of_false (fun h => h rfl) (by omega)
    · have hlt : fd.toNat < s.fdContexts.length := by omega
      rw [IOManager.contextAt, if_neg hneg, List.getElem?_eq_getElem hlt]
      exact iff_of_true (by simp) (.inl (by omega))

theorem exec_nothing {w : Withdrawal} {rt : Int} {fd : Nat} {c : FdContext} (hlt : ¬ s.intSize ≤ fd)
    (hc : s.fdContexts[fd]? = some c) (hasks : w.asks c = 0) : (w.op fd rt).exec s = some ({ ok := false }, s) := by
  cases w with
  | delEvent event =>
    change c.events &&& event.mask = 0 at hasks
    show s.delEvent fd event rt = _
    rw [IOManager.delEvent, if_neg hlt, hc, Option.bind_eq_bind, Option.bind_some, if_pos hasks]
  | cancelEvent event =>
    change c.events &&& event.mask = 0 at hasks
    show s.cancelEvent fd event rt = _
    rw [IOManager.cancelEvent, if_neg hlt, hc, Option.bind_eq_bind, Option.bind_some, if_pos hasks]
  | cancelAll =>
    change c.events = 0 at hasks
    show s.cancelAll fd rt = _
    rw [IOManager.cancelAll, if_neg hlt, hc, Option.bind_eq_bind, Option.bind_some, if_pos hasks]

theorem safe_iff (rt : Int) (w : Withdrawal) : w.Safe s fd rt ↔ 0 ≤ fd ∨ s.intSize ≤ fd := by
  constructor
  · intro h
    exact find_ne_outside_iff.mp h.inBounds
  · intro h
    have hfind := find_ne_outside_iff.mpr h
    refine ⟨hfind, fun hnone => ?_⟩
    unfold Withdrawal.exec
    cases hf : s.find fd with
    | absent => rfl
    | outside => exact absurd hf hfind
    | context c =>
      obtain ⟨hlt, hc⟩ : ¬ s.intSize ≤ fd ∧ s.contextAt fd = some c := by
        unfold IOManager.find at hf
        split at hf
        · cases hf
        · split at hf <;> cases hf
          exact ⟨‹_›, ‹_›⟩
      obtain ⟨hpos, hc'⟩ : 0 ≤ fd ∧ s.fdContexts[fd.toNat]? = some c := by
        unfold IOManager.contextAt at hc
        split at hc
        · cases hc
        · exact ⟨Int.not_lt.mp ‹_›, hc⟩
      refine exec_nothing (by omega) hc' ?_
      by_contra hasks
      exact hnone ⟨c, hc, hasks⟩

end

end LjrServer.IoManager

/-! ## Sockets -/

namespace LjrServer.Net

open LjrServer.Lib LjrServer.IoManager

namespace Socket

/-- `m_sock`, for the numbers the kernel gave the socket's descriptors. -/
def fd (number : Nat → Nat) (s : Socket) : Int :=
  match s.sock with
  | some i => number i
  | none => -1

/-- What the four functions pass on to the manager, for `m_sock`. -/
inductive Cancel where
  | cancelRead
  | cancelWrite
  | cancelAccept
  | cancelAll
  deriving DecidableEq, Repr

def Cancel.withdrawal : Cancel → Withdrawal
  | .cancelRead => .cancelEvent .READ
  | .cancelWrite => .cancelEvent .WRITE
  | .cancelAccept => .cancelEvent .READ
  | .cancelAll => .cancelAll

end Socket

/-- A socket and the manager of the thread. -/
structure Wire where
  socket : Socket
  iom : IOManager

/-- A call of the socket, one of its cancels, a call of the manager on any fd, and what else
    happens to the manager. -/
inductive Move where
  | socket (c : Socket.Call)
  | cancel (c : Socket.Cancel) (rt : Int)
  | withdraw (w : Withdrawal) (fd : Int) (rt : Int)
  | io (op : Op)

namespace Wire

variable (number : Nat → Nat)

def withdraw (s : Wire) (w : Withdrawal) (fd : Int) (rt : Int) : Option Wire :=
  (w.exec s.iom fd rt).map fun r => { s with iom := r.2 }

def step (s : Wire) : Move → Option Wire
  | .socket c => some { s with socket := s.socket.call c }
  | .cancel c rt => s.withdraw c.withdrawal (s.socket.fd number) rt
  | .withdraw w fd rt => s.withdraw w fd rt
  | .io op => (op.exec s.iom).map fun r => { s with iom := r.2 }

def Safe (s : Wire) : Move → Prop
  | .cancel c rt => c.withdrawal.Safe s.iom (s.socket.fd number) rt
  | .withdraw w fd rt => w.Safe s.iom fd rt
  | _ => True

/-- The socket has a descriptor, and the fd is not negative; or the size of the table is a
    negative `int` itself. -/
def Fits (s : Wire) : Move → Prop
  | .cancel _ _ => s.socket.sock ≠ none ∨ s.iom.intSize ≤ -1
  | .withdraw _ fd _ => 0 ≤ fd ∨ s.iom.intSize ≤ fd
  | _ => True

variable {number}

theorem safe_move_iff (s : Wire) (m : Move) : s.Safe number m ↔ s.Fits m := by
  cases m with
  | cancel c rt =>
    show c.withdrawal.Safe s.iom (s.socket.fd number) rt ↔ (s.socket.sock ≠ none ∨ s.iom.intSize ≤ -1)
    rw [safe_iff, Socket.fd]
    cases hsock : s.socket.sock with
    | none => exact or_congr_left (iff_of_false (show ¬ (0 : Int) ≤ -1 by decide) fun h => h rfl)
    | some i => exact iff_of_true (.inl (Int.natCast_nonneg _)) (.inl (Option.some_ne_none i))
  | withdraw w fd rt => exact safe_iff rt w
  | socket c => exact Iff.rfl
  | io op => exact Iff.rfl

theorem run_safe_iff {family : Int} {accepted : Option Answers} {iom : IOManager} {τ : History Wire Move} {s : Wire}
    (hr : Run (step number) ⟨.start family accepted, iom⟩ τ s) : Meets (Safe number) τ ↔ Meets Fits τ := by
  induction hr with
  | nil => exact iff_of_true (fun _ h => nomatch h) fun _ h => nomatch h
  | step _ _ ih => rw [Run.meets_cons, Run.meets_cons, safe_move_iff, ih]

/-- Every move of a run, and one more that need not go through. -/
theorem cancel_safe_iff {family : Int} {accepted : Option Answers} {iom : IOManager} {τ : History Wire Move} {s : Wire}
    (hr : Run (step number) ⟨.start family accepted, iom⟩ τ s) (m : Move) :
    Meets (Safe number) ((s, m) :: τ) ↔ Meets Fits ((s, m) :: τ) := by
  rw [Run.meets_cons, Run.meets_cons, safe_move_iff, run_safe_iff hr]

def answers : Answers := { address := fun _ => some [2, 0, 31, 144, 127, 0, 0, 1] }

/-- A socket that is connected, and asked to cancel a read nobody made. -/
theorem cancel_safe_iff_connected :
    ∃ τ s, Run (step fun i => i + 5) ⟨.start AF_INET none, .init⟩ τ s ∧ s.socket.sock = some 0 ∧
      (Meets (Safe fun i => i + 5) ((s, .cancel .cancelRead 0) :: τ) ↔
        Meets Fits ((s, .cancel .cancelRead 0) :: τ)) := by
  have hrun := Run.step (Run.nil : Run (step fun i => i + 5) ⟨.start AF_INET none, .init⟩ [] _)
    (a := .socket (.connect AF_INET answers)) rfl
  exact ⟨_, _, hrun, by decide, cancel_safe_iff hrun (.cancel .cancelRead 0)⟩

/-- A socket that another fiber has closed: `m_fdContexts[-1]`. -/
theorem cancel_after_close :
    ∃ τ s, Run (step fun i => i + 5) ⟨.start AF_INET none, .init⟩ τ s ∧ s.socket.fd (fun i => i + 5) = -1 ∧
      s.withdraw Socket.Cancel.cancelRead.withdrawal (-1) 0 = none ∧
      ¬ s.Safe (fun i => i + 5) (.cancel .cancelRead 0) := by
  have hrun := Run.step (.step (Run.nil : Run (step fun i => i + 5) ⟨.start AF_INET none, .init⟩ [] _)
    (a := .socket (.connect AF_INET answers)) rfl) (a := .socket .close) rfl
  have hfind : IOManager.init.find (-1) = .outside := by decide
  refine ⟨_, _, hrun, rfl, ?_, fun h => h.inBounds hfind⟩
  show (Withdrawal.exec IOManager.init (-1) 0 (.cancelEvent .READ)).map _ = none
  rw [Withdrawal.exec, hfind]
  rfl

end Wire

end LjrServer.Net
