/-
  LjrServer.Hook.FdCtx — what the library keeps of a descriptor (fd_manager.cpp), and the
  hooked `fcntl` and `ioctl` that change it (hook.cpp).

  A managed socket is non-blocking for the kernel, so that `do_io` can wait for it in the
  scheduler; what the user asked for is kept apart and reported back. `fcntl` replaces the
  flag in its argument by the kernel's own; `ioctl` hands its argument on.

  Proved:
  - `setfl_keeps_nonblock`: `fcntl` never clears the kernel's flag of a managed socket.
  - `nonblocking_kept_iff`: over a sequence of calls, the kernel's flag is set and the user is
    told his own exactly when it was set for the new context and no `ioctl` clears it.
-/

import Mathlib.Data.List.Infix
import Mathlib.Data.BitVec

namespace LjrServer.Hook

def O_NONBLOCK : BitVec 32 := 0x800

/-- The flags `F_SETFL` can change: `O_APPEND`, `O_NONBLOCK`, `O_ASYNC`, `O_DIRECT` and `O_NOATIME`. -/
def SETFL_MASK : BitVec 32 := 0x46c00

/-! ## The kernel -/

/-- What the kernel has for a descriptor; `isSock` is none when `fstat` fails. -/
structure Descriptor where
  isSock : Option Bool
  flags : BitVec 32
  /-- It takes the `F_SETFL` of a new context. -/
  settable : Bool
  deriving DecidableEq, Repr

namespace Descriptor

def nonblocking (d : Descriptor) : Bool := d.flags &&& O_NONBLOCK ≠ 0

/-- `fcntl(fd, F_SETFL, arg)`, and what it returns. -/
def setfl (d : Descriptor) (arg : BitVec 32) (accepted : Bool) : BitVec 32 × Descriptor :=
  if accepted then (0, { d with flags := (d.flags &&& ~~~SETFL_MASK) ||| (arg &&& SETFL_MASK) }) else (-1, d)

/-- `ioctl(fd, FIONBIO, &arg)` -/
def fionbio (d : Descriptor) (arg : BitVec 32) (accepted : Bool) : BitVec 32 × Descriptor :=
  if accepted then
    (0, { d with flags := if arg ≠ 0 then d.flags ||| O_NONBLOCK else d.flags &&& ~~~O_NONBLOCK })
  else (-1, d)

end Descriptor

/-! ## FdCtx -/

structure FdCtx where
  isInit : Bool := false
  isSocket : Bool := false
  sysNonblock : Bool := false
  userNonblock : Bool := false
  isClosed : Bool := false
  recvTimeout : UInt64 := -1
  sendTimeout : UInt64 := -1
  deriving DecidableEq, Repr

inductive TimeoutType where
  | SO_RCVTIMEO
  | SO_SNDTIMEO
  deriving DecidableEq, Repr

namespace FdCtx

/-- `init`, as the constructor calls it. -/
def init (ctx : FdCtx) (d : Descriptor) : FdCtx × Descriptor :=
  if ctx.isInit then (ctx, d)
  else
    let ctx := { ctx with recvTimeout := -1, sendTimeout := -1 }
    let ctx := match d.isSock with
      | none => { ctx with isInit := false, isSocket := false }
      | some isSock => { ctx with isInit := true, isSocket := isSock }
    let (ctx, d) :=
      if ctx.isSocket then
        ({ ctx with sysNonblock := true }, if d.nonblocking then d else (d.setfl (d.flags ||| O_NONBLOCK) d.settable).2)
      else ({ ctx with sysNonblock := false }, d)
    ({ ctx with userNonblock := false, isClosed := false }, d)

/-- The constructor. -/
def new (d : Descriptor) : FdCtx × Descriptor := init {} d

def setTimeout (ctx : FdCtx) (type : TimeoutType) (v : UInt64) : FdCtx :=
  if type = .SO_RCVTIMEO then { ctx with recvTimeout := v } else { ctx with sendTimeout := v }

def getTimeout (ctx : FdCtx) (type : TimeoutType) : UInt64 :=
  if type = .SO_RCVTIMEO then ctx.recvTimeout else ctx.sendTimeout

end FdCtx

/-! ## The hooked calls -/

/-- A descriptor and what `FdMgr` has for it. -/
structure Fd where
  ctx : Option FdCtx
  kernel : Descriptor
  deriving DecidableEq, Repr

inductive Cmd where
  | F_SETFL (arg : BitVec 32)
  | F_GETFL
  deriving DecidableEq, Repr

inductive Request where
  | fionbio (arg : BitVec 32)
  | other
  deriving DecidableEq, Repr

namespace Fd

/-- `!ctx || ctx->isClosed() || !ctx->isSocket()` does not hold. -/
def managed (s : Fd) : Option FdCtx := s.ctx.filter fun ctx => !ctx.isClosed && ctx.isSocket

/-- `accepted` is the kernel's answer to the system call made. -/
def fcntl (s : Fd) (cmd : Cmd) (accepted : Bool) : BitVec 32 × Fd :=
  match cmd with
  | .F_SETFL arg =>
    match s.managed with
    | none =>
      let (rt, kernel) := s.kernel.setfl arg accepted
      (rt, { s with kernel })
    | some ctx =>
      let ctx := { ctx with userNonblock := arg &&& O_NONBLOCK ≠ 0 }
      let arg := if ctx.sysNonblock then arg ||| O_NONBLOCK else arg &&& ~~~O_NONBLOCK
      let (rt, kernel) := s.kernel.setfl arg accepted
      (rt, { ctx := some ctx, kernel })
  | .F_GETFL =>
    let arg := s.kernel.flags
    match s.managed with
    | none => (arg, s)
    | some ctx => (if ctx.userNonblock then arg ||| O_NONBLOCK else arg &&& ~~~O_NONBLOCK, s)

def ioctl (s : Fd) (request : Request) (accepted : Bool) : BitVec 32 × Fd :=
  match request with
  | .fionbio arg =>
    let s := match s.managed with
      | none => s
      | some ctx => { s with ctx := some { ctx with userNonblock := arg ≠ 0 } }
    let (rt, kernel) := s.kernel.fionbio arg accepted
    (rt, { s with kernel })
  | .other => (if accepted then 0 else -1, s)

/-- After `FdMgr` has made a context for the descriptor. -/
def opened (kernel : Descriptor) : Fd :=
  let (ctx, kernel) := FdCtx.new kernel
  { ctx := some ctx, kernel }

/-- `fcntl(fd, F_GETFL)` has `O_NONBLOCK`. -/
def reports (s : Fd) : Bool := (s.fcntl .F_GETFL true).1 &&& O_NONBLOCK ≠ 0

end Fd

/-- A call that sets the mode. -/
inductive Call where
  | fcntl (arg : BitVec 32) (accepted : Bool)
  | ioctl (arg : BitVec 32) (accepted : Bool)
  deriving DecidableEq, Repr

namespace Call

def requestsNonblock : Call → Bool
  | .fcntl arg _ => arg &&& O_NONBLOCK ≠ 0
  | .ioctl arg _ => arg ≠ 0

/-- `ioctl(fd, FIONBIO, &zero)` that the kernel accepts. -/
def clears : Call → Bool
  | .fcntl _ _ => false
  | .ioctl arg accepted => arg = 0 && accepted

end Call

def Fd.call (s : Fd) : Call → Fd
  | .fcntl arg accepted => (s.fcntl (.F_SETFL arg) accepted).2
  | .ioctl arg accepted => (s.ioctl (.fionbio arg) accepted).2

def Fd.calls (s : Fd) (cs : List Call) : Fd := cs.foldl Fd.call s

/-! ## Flags -/

theorem nonblock_iff (x : BitVec 32) : x &&& O_NONBLOCK ≠ 0 ↔ x[11] = true := by
  have htwo : O_NONBLOCK = BitVec.twoPow 32 11 := by decide
  rw [htwo, BitVec.and_twoPow, BitVec.getLsbD_eq_getElem (by decide)]
  by_cases h : x[11] = true
  · rw [if_pos h]
    exact iff_of_true (by decide) h
  · rw [if_neg h]
    exact iff_of_false (fun hne => hne rfl) h

theorem nonblock_flag : O_NONBLOCK[11] = true := by decide

theorem Descriptor.nonblocking_eq (d : Descriptor) : d.nonblocking = d.flags[11] := by
  rw [Bool.eq_iff_iff, ← nonblock_iff, nonblocking, decide_eq_true_eq]

theorem Descriptor.setfl_nonblocking (d : Descriptor) (arg : BitVec 32) :
    (d.setfl arg true).2.nonblocking = arg[11] := by
  have hmask : SETFL_MASK[11] = true := by decide
  rw [nonblocking_eq]
  simp [setfl, hmask]

theorem Descriptor.fionbio_nonblocking (d : Descriptor) (arg : BitVec 32) :
    (d.fionbio arg true).2.nonblocking = decide (arg ≠ 0) := by
  rw [nonblocking_eq, fionbio, if_pos rfl]
  by_cases h : arg = 0
  · simp [h, nonblock_flag]
  · simp only [if_pos h, BitVec.getElem_or, nonblock_flag, Bool.or_true, decide_eq_true h]

/-! ## One call -/

/-- A socket whose context says that the kernel has it non-blocking. -/
structure Fd.Managed (s : Fd) (ctx : FdCtx) : Prop where
  eq : s.ctx = some ctx
  socket : ctx.isSocket = true
  live : ctx.isClosed = false
  sys : ctx.sysNonblock = true

theorem Fd.Managed.managed_eq {s : Fd} {ctx : FdCtx} (h : s.Managed ctx) : s.managed = some ctx := by
  rw [managed, h.eq, Option.filter_some, h.live, h.socket]
  rfl

theorem opened_managed {d : Descriptor} (h : d.isSock = some true) :
    ∃ ctx, (Fd.opened d).Managed ctx ∧ (Fd.opened d).kernel.nonblocking = (d.nonblocking || d.settable) := by
  have hopen : Fd.opened d = ⟨some { isInit := true, isSocket := true, sysNonblock := true },
      if d.nonblocking then d else (d.setfl (d.flags ||| O_NONBLOCK) d.settable).2⟩ := by
    simp [Fd.opened, FdCtx.new, FdCtx.init, h]
  rw [hopen]
  refine ⟨_, ⟨rfl, rfl, rfl, rfl⟩, ?_⟩
  dsimp only
  cases hd : d.nonblocking with
  | true => exact hd
  | false =>
    cases hset : d.settable with
    | true =>
      rw [if_neg Bool.false_ne_true, Descriptor.setfl_nonblocking, BitVec.getElem_or, nonblock_flag, Bool.or_true]
      rfl
    | false => exact hd

/-- The user's setting is what he asked for. -/
theorem call_managed {s : Fd} {ctx : FdCtx} (h : s.Managed ctx) (c : Call) :
    (s.call c).Managed { ctx with userNonblock := c.requestsNonblock } := by
  cases c with
  | fcntl arg accepted =>
    rw [Fd.call, Fd.fcntl, h.managed_eq]
    exact ⟨rfl, h.socket, h.live, h.sys⟩
  | ioctl arg accepted =>
    rw [Fd.call, Fd.ioctl, h.managed_eq]
    exact ⟨rfl, h.socket, h.live, h.sys⟩

/-- `fcntl` never clears the kernel's flag. -/
theorem setfl_keeps_nonblock {s : Fd} {ctx : FdCtx} (h : s.Managed ctx) (arg : BitVec 32) (accepted : Bool)
    (hset : s.kernel.nonblocking = true) : (s.fcntl (.F_SETFL arg) accepted).2.kernel.nonblocking = true := by
  rw [Fd.fcntl, h.managed_eq]
  dsimp only
  rw [if_pos h.sys]
  cases accepted with
  | false => exact hset
  | true => rw [Descriptor.setfl_nonblocking, BitVec.getElem_or, nonblock_flag, Bool.or_true]

theorem ioctl_nonblocking {s : Fd} {ctx : FdCtx} (h : s.Managed ctx) (arg : BitVec 32) (accepted : Bool) :
    (s.ioctl (.fionbio arg) accepted).2.kernel.nonblocking =
      if accepted then decide (arg ≠ 0) else s.kernel.nonblocking := by
  rw [Fd.ioctl, h.managed_eq]
  cases accepted with
  | false => rfl
  | true => exact Descriptor.fionbio_nonblocking _ _

theorem call_nonblocking {s : Fd} {ctx : FdCtx} (h : s.Managed ctx) {c : Call} (hc : c.clears = false)
    (hset : s.kernel.nonblocking = true) : (s.call c).kernel.nonblocking = true := by
  cases c with
  | fcntl arg accepted => exact setfl_keeps_nonblock h arg accepted hset
  | ioctl arg accepted =>
    rw [Fd.call, ioctl_nonblocking h]
    cases accepted with
    | false => exact hset
    | true => simpa [Call.clears] using hc

theorem call_clears {s : Fd} {ctx : FdCtx} (h : s.Managed ctx) {c : Call} (hc : c.clears = true) :
    (s.call c).kernel.nonblocking = false := by
  cases c with
  | fcntl arg accepted => cases hc
  | ioctl arg accepted =>
    obtain ⟨harg, rfl⟩ := Bool.and_eq_true_iff.mp hc
    rw [Fd.call, ioctl_nonblocking h, if_pos rfl, of_decide_eq_true harg]
    rfl

theorem reports_managed {s : Fd} {ctx : FdCtx} (h : s.Managed ctx) : s.reports = ctx.userNonblock := by
  have hword : (s.fcntl .F_GETFL true).1 =
      if ctx.userNonblock then s.kernel.flags ||| O_NONBLOCK else s.kernel.flags &&& ~~~O_NONBLOCK := by
    rw [Fd.fcntl, h.managed_eq]
  rw [Bool.eq_iff_iff, Fd.reports, decide_eq_true_eq, nonblock_iff, hword]
  cases ctx.userNonblock with
  | true => simp [nonblock_flag]
  | false => simp [nonblock_flag]

/-! ## Sequences of calls -/

theorem calls_concat (s : Fd) (cs : List Call) (c : Call) : s.calls (cs ++ [c]) = (s.calls cs).call c :=
  List.foldl_concat ..

theorem calls_managed {s : Fd} {ctx : FdCtx} (h : s.Managed ctx) (cs : List Call) :
    ∃ ctx', (s.calls cs).Managed ctx' ∧ ∀ c, cs.getLast? = some c → ctx'.userNonblock = c.requestsNonblock := by
  induction cs using List.reverseRecOn with
  | nil =>
    refine ⟨ctx, h, ?_⟩
    intro c hc
    cases hc
  | append_singleton cs c ih =>
    obtain ⟨ctx', h', _⟩ := ih
    rw [calls_concat]
    refine ⟨_, call_managed h' c, ?_⟩
    intro d hd
    rw [List.getLast?_concat] at hd
    cases hd
    rfl

theorem calls_nonblocking {s : Fd} {ctx : FdCtx} (h : s.Managed ctx) (hset : s.kernel.nonblocking = true)
    (cs : List Call) (hcs : ∀ c ∈ cs, c.clears = false) : (s.calls cs).kernel.nonblocking = true := by
  induction cs using List.reverseRecOn with
  | nil => exact hset
  | append_singleton cs c ih =>
    obtain ⟨ctx', h', _⟩ := calls_managed h cs
    rw [calls_concat]
    exact call_nonblocking h' (hcs c (List.mem_append_right _ List.mem_cons_self))
      (ih fun d hd => hcs d (List.mem_append_left _ hd))

/-- After a sequence of calls: the kernel's flag is set while the context says so, and the
    user is told what he asked for last. -/
structure Fd.Kept (s : Fd) (cs : List Call) : Prop where
  kernel : ∀ ctx, (s.calls cs).ctx = some ctx → ctx.sysNonblock = true → (s.calls cs).kernel.nonblocking = true
  user : ∀ c, cs.getLast? = some c → (s.calls cs).reports = c.requestsNonblock

/-- For a managed socket and any sequence of calls, all is as it should be from the first on
    if and only if the new context could make it non-blocking, and no call is an `ioctl` that
    sets the blocking mode. -/
theorem nonblocking_kept_iff {d : Descriptor} (hsock : d.isSock = some true) (cs : List Call) :
    (∀ p, p <+: cs → (Fd.opened d).Kept p) ↔
      (d.nonblocking = true ∨ d.settable = true) ∧ ∀ c ∈ cs, c.clears = false := by
  obtain ⟨ctx, hopen, hset⟩ := opened_managed hsock
  rw [← Bool.or_eq_true, ← hset]
  constructor
  · intro hkept
    refine ⟨(hkept [] List.nil_prefix).kernel ctx hopen.eq hopen.sys, fun c hc => ?_⟩
    obtain ⟨p, q, rfl⟩ := List.append_of_mem hc
    have hprefix : p ++ [c] <+: p ++ c :: q := ⟨q, by rw [List.append_assoc, List.singleton_append]⟩
    obtain ⟨ctx', hp, _⟩ := calls_managed hopen p
    have hafter := call_managed hp c
    rw [← calls_concat] at hafter
    have hflag := (hkept _ hprefix).kernel _ hafter.eq hafter.sys
    rw [calls_concat] at hflag
    apply Bool.eq_false_iff.mpr
    intro hclears
    rw [call_clears hp hclears] at hflag
    cases hflag
  · rintro ⟨hfirst, hcs⟩ p hp
    obtain ⟨ctx', h', huser⟩ := calls_managed hopen p
    refine ⟨fun _ _ _ => calls_nonblocking hopen hfirst p fun c hc => hcs c (hp.subset hc), fun c hc => ?_⟩
    rw [reports_managed h', huser c hc]

/-- Both calls, neither an `ioctl` of zero. -/
theorem nonblocking_kept_fcntl_ioctl : (Fd.opened ⟨some true, 2, true⟩).Kept [Call.ioctl 1 true, .fcntl 0 true] :=
  (nonblocking_kept_iff rfl _).mpr ⟨.inr rfl, by decide⟩ _ List.prefix_rfl

/-- `ioctl(fd, FIONBIO, &zero)`: `do_io` would block the worker in the system call. -/
theorem ioctl_blocks_kernel : ¬ ∀ p, p <+: [Call.ioctl 0 true] → (Fd.opened ⟨some true, 2, true⟩).Kept p := by
  intro h
  have hflag := (h [.ioctl 0 true] List.prefix_rfl).kernel _ rfl rfl
  revert hflag
  decide

end LjrServer.Hook
