/-
  LjrServer.Hook.Descriptors — all descriptors of a process under the hooked calls (hook.cpp,
  fd_manager.cpp): opened, set, closed, and their numbers given out again.

  A thread may call with the hook on or off. `accept` makes a context and `fcntl` and `ioctl` use
  it in both cases; `socket`, `close` and `setsockopt` go straight to the kernel when it is off.
  The library keeps a context for a number, not for what is open under it, and `get` of a number
  that has a context makes no new one. A new context says that the user wants to block, also of a
  socket that was made with `SOCK_NONBLOCK`. `FdMgr` is a map here; the calls on its table are
  in `Hook.Process`. Calls are on descriptors that are open.

  Proved:
  - `step_at`: what one call keeps right, for the descriptor that it is on.
  - `described_throughout`: throughout a run every socket that the library opened is described by
    its context, is non-blocking for the kernel and answers with what its user asked for, exactly
    when each could be made non-blocking, none is made with `SOCK_NONBLOCK`, none is closed with
    the hook off, none is made blocking by `ioctl`, and no new timeout is set with the hook off.
-/

import LjrServer.Hook.FdCtx
import LjrServer.Lib.Runs
import Mathlib.Logic.Function.Basic

namespace LjrServer.Hook

open LjrServer.Lib

/-- What the user of a socket asked for last. -/
structure Settings where
  nonblock : Bool := false
  timeout : TimeoutType → UInt64 := fun _ => -1

/-- What is open, the contexts, and the sockets the library opened with what was asked of them. -/
structure Sockets where
  kernel : Nat → Option Descriptor
  datas : Nat → Option FdCtx
  asked : Nat → Option Settings

namespace Sockets

/-- `hook` is `t_hook_enable` of the thread. `foreign` is a descriptor from a call that is not hooked. -/
inductive Op where
  | socket (fd : Nat) (d : Descriptor) (hook : Bool)
  | accept (fd : Nat) (d : Descriptor)
  | foreign (fd : Nat) (d : Descriptor)
  | close (fd : Nat) (hook : Bool)
  | fcntl (fd : Nat) (arg : BitVec 32) (accepted : Bool)
  | ioctl (fd : Nat) (arg : BitVec 32) (accepted : Bool)
  | setsockopt (fd : Nat) (optname : TimeoutType) (tv_sec tv_usec : Int) (hook : Bool)

def Op.fd : Op → Nat
  | socket fd _ _ => fd
  | accept fd _ => fd
  | foreign fd _ => fd
  | close fd _ => fd
  | fcntl fd _ _ => fd
  | ioctl fd _ _ => fd
  | setsockopt fd _ _ _ _ => fd

def init : Sockets := ⟨fun _ => none, fun _ => none, fun _ => none⟩

/-- `FdMgr::get(fd, true)` -/
def get (s : Sockets) (fd : Nat) (d : Descriptor) : Sockets :=
  match s.datas fd with
  | some _ => s
  | none =>
    let (ctx, d) := FdCtx.new d
    { s with datas := Function.update s.datas fd (some ctx), kernel := Function.update s.kernel fd (some d) }

/-- A number that the kernel gives out. -/
def opens (s : Sockets) (fd : Nat) (d : Descriptor) : Option Sockets :=
  if s.kernel fd = none then some { s with kernel := Function.update s.kernel fd (some d) } else none

def asks (s : Sockets) (fd : Nat) (asked : Option Settings) : Sockets :=
  { s with asked := Function.update s.asked fd asked }

/-- A call that sets the mode. -/
def setMode (s : Sockets) (fd : Nat) (c : Call) : Option Sockets := do
  let d ← s.kernel fd
  let f := (Fd.mk (s.datas fd) d).call c
  let s := { s with datas := Function.update s.datas fd f.ctx, kernel := Function.update s.kernel fd (some f.kernel) }
  some (s.asks fd ((s.asked fd).map fun u => { u with nonblock := c.requestsNonblock }))

/-- `v->tv_sec * 1000 + v->tv_usec / 1000` -/
def ms (tv_sec tv_usec : Int) : UInt64 := .ofInt (tv_sec * 1000 + tv_usec.tdiv 1000)

def step (s : Sockets) : Op → Option Sockets
  | .socket fd d hook =>
    if d.isSock = some true then
      (s.opens fd d).map fun s =>
        if hook then (s.get fd d).asks fd (some { nonblock := d.nonblocking }) else s.asks fd none
    else none
  | .accept fd d =>
    if d.isSock = some true then (s.opens fd d).map fun s => (s.get fd d).asks fd (some {}) else none
  | .foreign fd d => (s.opens fd d).map fun s => s.asks fd none
  | .close fd hook => do
    let _ ← s.kernel fd
    let s := if hook then { s with datas := Function.update s.datas fd none } else s
    let s := { s with kernel := Function.update s.kernel fd none }
    some (s.asks fd none)
  | .fcntl fd arg accepted => s.setMode fd (.fcntl arg accepted)
  | .ioctl fd arg accepted => s.setMode fd (.ioctl arg accepted)
  | .setsockopt fd optname tv_sec tv_usec hook => do
    let _ ← s.kernel fd
    let v := ms tv_sec tv_usec
    let ctx := (s.datas fd).map fun ctx => if hook then ctx.setTimeout optname v else ctx
    let s := { s with datas := Function.update s.datas fd ctx }
    some (s.asks fd ((s.asked fd).map fun u => { u with timeout := Function.update u.timeout optname v }))

/-! ## Described by its context -/

/-- A socket with the settings its user asked for. -/
structure Describes (u : Settings) (f : Fd) : Prop where
  managed : ∃ ctx, f.Managed ctx ∧ ∀ type, ctx.getTimeout type = u.timeout type
  kernel : f.kernel.nonblocking = true
  told : f.reports = u.nonblock

/-- A number under which the library opened a socket, or one without a context. -/
def At (s : Sockets) (fd : Nat) : Prop :=
  match s.asked fd with
  | none => s.datas fd = none
  | some u => ∃ d, s.kernel fd = some d ∧ Describes u ⟨s.datas fd, d⟩

def Described (s : Sockets) : Prop := ∀ fd, s.At fd

/-- What keeps a socket as its context describes it. -/
def Fits (s : Sockets) : Op → Prop
  | .socket _ d hook => hook = false ∨ d.nonblocking = false ∧ d.settable = true
  | .accept _ d => d.nonblocking = true ∨ d.settable = true
  | .close fd hook => hook = true ∨ s.asked fd = none
  | .ioctl fd arg accepted => s.asked fd = none ∨ ¬ (arg = 0 ∧ accepted = true)
  | .setsockopt fd optname tv_sec tv_usec hook =>
    hook = true ∨ ∀ u, s.asked fd = some u → u.timeout optname = ms tv_sec tv_usec
  | _ => True

instance (s : Sockets) (op : Op) : Decidable (s.Fits op) :=
  match op with
  | .socket _ _ _ | .accept _ _ | .close _ _ | .ioctl _ _ _ => inferInstanceAs (Decidable (_ ∨ _))
  | .setsockopt fd optname tv_sec tv_usec _ =>
    inferInstanceAs (Decidable (_ ∨ ∀ u ∈ s.asked fd, u.timeout optname = ms tv_sec tv_usec))
  | .foreign _ _ | .fcntl _ _ _ => .isTrue trivial

variable {s t : Sockets} {fd n : Nat} {d : Descriptor} {u : Settings} {op : Op}

theorem at_none (hu : s.asked fd = none) : s.At fd ↔ s.datas fd = none := by
  unfold At
  rw [hu]

theorem at_some (hu : s.asked fd = some u) : s.At fd ↔ ∃ d, s.kernel fd = some d ∧ Describes u ⟨s.datas fd, d⟩ := by
  unfold At
  rw [hu]

/-- A closed number has no context. -/
theorem At.closed (h : s.At fd) (hk : s.kernel fd = none) : s.datas fd = none := by
  cases hu : s.asked fd with
  | none => exact (at_none hu).mp h
  | some u =>
    obtain ⟨d, hd, -⟩ := (at_some hu).mp h
    cases hk.symm.trans hd

theorem getTimeout_setTimeout (ctx : FdCtx) (optname type : TimeoutType) (v : UInt64) :
    (ctx.setTimeout optname v).getTimeout type = if type = optname then v else ctx.getTimeout type := by
  cases optname <;> cases type <;> rfl

theorem managed_setTimeout {ctx : FdCtx} {o : Option FdCtx} (h : (Fd.mk o d).Managed ctx) (optname : TimeoutType)
    (v : UInt64) : (Fd.mk (some (ctx.setTimeout optname v)) d).Managed (ctx.setTimeout optname v) := by
  cases optname <;> exact ⟨rfl, h.socket, h.live, h.sys⟩

/-! ## One call -/

theorem get_frame (s : Sockets) (d : Descriptor) (hn : n ≠ fd) :
    (s.get fd d).kernel n = s.kernel n ∧ (s.get fd d).datas n = s.datas n ∧ (s.get fd d).asked n = s.asked n := by
  unfold get
  split
  · exact ⟨rfl, rfl, rfl⟩
  · exact ⟨Function.update_of_ne hn _ _, Function.update_of_ne hn _ _, rfl⟩

theorem opens_frame (h : s.opens fd d = some t) (hn : n ≠ fd) :
    t.kernel n = s.kernel n ∧ t.datas n = s.datas n ∧ t.asked n = s.asked n := by
  unfold opens at h
  split at h
  · cases h
    exact ⟨Function.update_of_ne hn _ _, rfl, rfl⟩
  · cases h

theorem opened_frame (h : s.opens fd d = some t) (hn : n ≠ fd) (u : Option Settings) :
    ((t.get fd d).asks fd u).kernel n = s.kernel n ∧ ((t.get fd d).asks fd u).datas n = s.datas n ∧
      ((t.get fd d).asks fd u).asked n = s.asked n := by
  obtain ⟨hk, hd, ha⟩ := opens_frame h hn
  obtain ⟨hk', hd', ha'⟩ := get_frame t d hn
  exact ⟨hk'.trans hk, hd'.trans hd, (Function.update_of_ne hn _ _).trans (ha'.trans ha)⟩

theorem setMode_frame {c : Call} (h : s.setMode fd c = some t) (hn : n ≠ fd) :
    t.kernel n = s.kernel n ∧ t.datas n = s.datas n ∧ t.asked n = s.asked n := by
  obtain ⟨d, -, h⟩ := Option.bind_eq_some_iff.mp h
  cases h
  exact ⟨Function.update_of_ne hn _ _, Function.update_of_ne hn _ _, Function.update_of_ne hn _ _⟩

/-- A call leaves the other numbers alone. -/
theorem step_frame (hs : s.step op = some t) (hn : n ≠ op.fd) :
    t.kernel n = s.kernel n ∧ t.datas n = s.datas n ∧ t.asked n = s.asked n := by
  cases op with
  | socket fd d hook =>
    obtain ⟨-, hs⟩ := Option.ite_none_right_eq_some.mp hs
    obtain ⟨v, hv, rfl⟩ := Option.map_eq_some_iff.mp hs
    cases hook with
    | false =>
      obtain ⟨hk, hd, ha⟩ := opens_frame hv hn
      exact ⟨hk, hd, (Function.update_of_ne hn _ _).trans ha⟩
    | true => exact opened_frame hv hn _
  | accept fd d =>
    obtain ⟨-, hs⟩ := Option.ite_none_right_eq_some.mp hs
    obtain ⟨v, hv, rfl⟩ := Option.map_eq_some_iff.mp hs
    exact opened_frame hv hn _
  | foreign fd d =>
    obtain ⟨v, hv, rfl⟩ := Option.map_eq_some_iff.mp hs
    obtain ⟨hk, hd, ha⟩ := opens_frame hv hn
    exact ⟨hk, hd, (Function.update_of_ne hn _ _).trans ha⟩
  | close fd hook =>
    obtain ⟨d, -, hs⟩ := Option.bind_eq_some_iff.mp hs
    cases hs
    cases hook with
    | false => exact ⟨Function.update_of_ne hn _ _, rfl, Function.update_of_ne hn _ _⟩
    | true => exact ⟨Function.update_of_ne hn _ _, Function.update_of_ne hn _ _, Function.update_of_ne hn _ _⟩
  | fcntl fd arg accepted => exact setMode_frame hs hn
  | ioctl fd arg accepted => exact setMode_frame hs hn
  | setsockopt fd optname tv_sec tv_usec hook =>
    obtain ⟨d, -, hs⟩ := Option.bind_eq_some_iff.mp hs
    cases hs
    exact ⟨rfl, Function.update_of_ne hn _ _, Function.update_of_ne hn _ _⟩

/-- A context that was just made. -/
theorem opened_describes (h : d.isSock = some true) (nonblock : Bool) :
    Describes { nonblock } (Fd.opened d) ↔ nonblock = false ∧ (d.nonblocking = true ∨ d.settable = true) := by
  obtain ⟨ctx, hmanaged, hkernel⟩ := opened_managed h
  have hctx : (Fd.opened d).ctx = some { isInit := true, isSocket := true, sysNonblock := true } := by
    simp [Fd.opened, FdCtx.new, FdCtx.init, h]
  obtain rfl := Option.some.inj (hctx.symm.trans hmanaged.eq)
  have htold : (Fd.opened d).reports = false := reports_managed hmanaged
  constructor
  · intro hdescribes
    exact ⟨hdescribes.told.symm.trans htold, Bool.or_eq_true _ _ ▸ hkernel.symm.trans hdescribes.kernel⟩
  · rintro ⟨hblock, hset⟩
    refine ⟨⟨_, hmanaged, ?_⟩, hkernel.trans (Bool.or_eq_true _ _ ▸ hset), htold.trans hblock.symm⟩
    intro type
    cases type <;> rfl

/-- A number without a context, given out for a socket. -/
theorem get_at (hd : d.isSock = some true) (hk : s.kernel fd = none) (hdatas : s.datas fd = none)
    (ho : s.opens fd d = some t) (nonblock : Bool) :
    ((t.get fd d).asks fd (some { nonblock })).At fd ↔
      nonblock = false ∧ (d.nonblocking = true ∨ d.settable = true) := by
  unfold opens at ho
  rw [if_pos hk] at ho
  cases ho
  have hget : (⟨Function.update s.kernel fd (some d), s.datas, s.asked⟩ : Sockets).get fd d =
      ⟨Function.update (Function.update s.kernel fd (some d)) fd (some (FdCtx.new d).2),
        Function.update s.datas fd (some (FdCtx.new d).1), s.asked⟩ := by
    unfold get
    dsimp only
    rw [hdatas]
  rw [hget, at_some (u := { nonblock }) (Function.update_self fd _ _), ← opened_describes hd nonblock]
  show (∃ d', Function.update (Function.update s.kernel fd (some d)) fd (some (FdCtx.new d).2) fd = some d' ∧
    Describes _ ⟨Function.update s.datas fd (some (FdCtx.new d).1) fd, d'⟩) ↔ _
  rw [Function.update_self, Function.update_self]
  constructor
  · rintro ⟨d', hd', hdescribes⟩
    cases hd'
    exact hdescribes
  · intro hdescribes
    exact ⟨_, rfl, hdescribes⟩

/-- The two calls that set the mode. -/
theorem setMode_at {c : Call} (h : s.At fd) (hs : s.setMode fd c = some t) :
    t.At fd ↔ s.asked fd = none ∨ c.clears = false := by
  obtain ⟨d, hd, hs⟩ := Option.bind_eq_some_iff.mp hs
  cases hs
  cases hu : s.asked fd with
  | none =>
    refine iff_of_true ((at_none ?_).mpr ?_) (.inl rfl)
    · exact (Function.update_self fd _ _).trans rfl
    · refine (Function.update_self fd _ _).trans ?_
      rw [(at_none hu).mp h]
      cases c <;> rfl
  | some u =>
    obtain ⟨d', hd', ⟨ctx, hmanaged, htimeout⟩, hkernel, htold⟩ := (at_some hu).mp h
    cases hd.symm.trans hd'
    have hnext := call_managed hmanaged c
    rw [at_some (u := { u with nonblock := c.requestsNonblock })
      ((Function.update_self fd _ _))]
    have hdatas : Function.update s.datas fd ((Fd.mk (s.datas fd) d).call c).ctx fd =
        ((Fd.mk (s.datas fd) d).call c).ctx := Function.update_self fd _ _
    have hkern : Function.update s.kernel fd (some ((Fd.mk (s.datas fd) d).call c).kernel) fd =
        some ((Fd.mk (s.datas fd) d).call c).kernel := Function.update_self fd _ _
    constructor
    · rintro ⟨d'', hd'', hdescribes⟩
      cases hkern.symm.trans hd''
      refine .inr (Bool.eq_false_iff.mpr ?_)
      intro hclears
      have hset : ((Fd.mk (s.datas fd) d).call c).kernel.nonblocking = true := hdescribes.kernel
      rw [call_clears hmanaged hclears] at hset
      cases hset
    · intro hc
      rcases hc with hc | hc
      · cases hc
      · refine ⟨_, hkern, ?_⟩
        show Describes _ ⟨Function.update s.datas fd ((Fd.mk (s.datas fd) d).call c).ctx fd, _⟩
        rw [hdatas]
        exact ⟨⟨_, hnext, htimeout⟩, call_nonblocking hmanaged hc hkernel, reports_managed hnext⟩

theorem close_at {hook : Bool} (h : s.At fd) (hs : s.step (.close fd hook) = some t) :
    t.At fd ↔ hook = true ∨ s.asked fd = none := by
  obtain ⟨d, -, hs⟩ := Option.bind_eq_some_iff.mp hs
  cases hs
  rw [at_none (Function.update_self fd _ _)]
  cases hook with
  | true => exact iff_of_true (Function.update_self fd _ _) (.inl rfl)
  | false =>
    show s.datas fd = none ↔ _
    rw [or_iff_right Bool.false_ne_true]
    cases hu : s.asked fd with
    | none => exact iff_of_true ((at_none hu).mp h) rfl
    | some u =>
      obtain ⟨d, -, ⟨ctx, hmanaged, -⟩, -, -⟩ := (at_some hu).mp h
      have hctx : s.datas fd = some ctx := hmanaged.eq
      rw [hctx]
      exact iff_of_false (fun he => (nomatch he)) fun he => (nomatch he)

theorem setsockopt_at {optname : TimeoutType} {tv_sec tv_usec : Int} {hook : Bool} (h : s.At fd)
    (hs : s.step (.setsockopt fd optname tv_sec tv_usec hook) = some t) :
    t.At fd ↔ hook = true ∨ ∀ u, s.asked fd = some u → u.timeout optname = ms tv_sec tv_usec := by
  obtain ⟨d, hd, hs⟩ := Option.bind_eq_some_iff.mp hs
  cases hs
  cases hu : s.asked fd with
  | none =>
    refine iff_of_true ((at_none ?_).mpr ?_) (.inr fun _ he => (nomatch he))
    · exact (Function.update_self fd _ _).trans rfl
    · exact (Function.update_self fd _ _).trans (by rw [(at_none hu).mp h]; rfl)
  | some u =>
    obtain ⟨d', hd', ⟨ctx, hmanaged, htimeout⟩, hkernel, htold⟩ := (at_some hu).mp h
    cases hd.symm.trans hd'
    have hctx : s.datas fd = some ctx := hmanaged.eq
    have hmanaged' : (Fd.mk (some ctx) d).Managed ctx := hctx ▸ hmanaged
    have hdatas : Function.update s.datas fd ((s.datas fd).map fun ctx =>
        if hook then ctx.setTimeout optname (ms tv_sec tv_usec) else ctx) fd =
          some (if hook then ctx.setTimeout optname (ms tv_sec tv_usec) else ctx) := by
      rw [Function.update_self, hctx]
      rfl
    rw [at_some (u := { u with timeout := Function.update u.timeout optname (ms tv_sec tv_usec) })
      ((Function.update_self fd _ _))]
    show (∃ d', s.kernel fd = some d' ∧ Describes _ ⟨Function.update s.datas fd _ fd, d'⟩) ↔ _
    rw [hdatas]
    cases hook with
    | true =>
      have hset := managed_setTimeout hmanaged optname (ms tv_sec tv_usec)
      refine iff_of_true ⟨d, hd, ⟨_, hset, ?_⟩, hkernel, ?_⟩ (.inl rfl)
      · intro type
        show _ = Function.update u.timeout optname (ms tv_sec tv_usec) type
        rw [getTimeout_setTimeout, Function.update_apply, htimeout]
      · refine (reports_managed hset).trans ?_
        have hmode : (ctx.setTimeout optname (ms tv_sec tv_usec)).userNonblock = ctx.userNonblock := by
          cases optname <;> rfl
        rw [hmode, ← reports_managed hmanaged]
        exact htold
    | false =>
      rw [or_iff_right Bool.false_ne_true]
      constructor
      · rintro ⟨d', -, ⟨ctx', hmanaged', htimeout'⟩, -, -⟩ u' hu'
        cases hu'
        obtain rfl : ctx = ctx' := Option.some.inj hmanaged'.eq
        have hnew : ctx.getTimeout optname = Function.update u.timeout optname (ms tv_sec tv_usec) optname :=
          htimeout' optname
        rw [Function.update_self] at hnew
        exact (htimeout optname).symm.trans hnew
      · intro hsame
        refine ⟨d, hd, ⟨ctx, hmanaged', ?_⟩, hkernel, ?_⟩
        · intro type
          rw [← hsame u rfl, Function.update_eq_self]
          exact htimeout type
        · refine (reports_managed hmanaged').trans ?_
          rw [← reports_managed hmanaged]
          exact htold

/-- What keeps a number right is the same for every call. -/
theorem step_at (h : s.At op.fd) (hs : s.step op = some t) : t.At op.fd ↔ s.Fits op := by
  cases op with
  | socket fd d hook =>
    obtain ⟨hd, hs⟩ := Option.ite_none_right_eq_some.mp hs
    obtain ⟨v, hv, rfl⟩ := Option.map_eq_some_iff.mp hs
    have hk : s.kernel fd = none := (Option.ite_none_right_eq_some.mp hv).1
    cases hook with
    | true =>
      refine (get_at hd hk (h.closed hk) hv d.nonblocking).trans ?_
      constructor
      · rintro ⟨hblock, hset⟩
        exact .inr ⟨hblock, hset.resolve_left (by rw [hblock]; exact Bool.false_ne_true)⟩
      · intro hfits
        obtain ⟨hblock, hset⟩ := hfits.resolve_left fun hon => Bool.noConfusion hon
        exact ⟨hblock, .inr hset⟩
    | false =>
      refine iff_of_true ((at_none (Function.update_self fd _ _)).mpr ?_) (.inl rfl)
      obtain ⟨-, hv⟩ := Option.ite_none_right_eq_some.mp hv
      cases hv
      exact h.closed hk
  | accept fd d =>
    obtain ⟨hd, hs⟩ := Option.ite_none_right_eq_some.mp hs
    obtain ⟨v, hv, rfl⟩ := Option.map_eq_some_iff.mp hs
    have hk : s.kernel fd = none := (Option.ite_none_right_eq_some.mp hv).1
    exact (get_at hd hk (h.closed hk) hv false).trans (and_iff_right rfl)
  | foreign fd d =>
    obtain ⟨v, hv, rfl⟩ := Option.map_eq_some_iff.mp hs
    obtain ⟨hk, hv⟩ := Option.ite_none_right_eq_some.mp hv
    cases hv
    exact iff_of_true ((at_none (Function.update_self fd _ _)).mpr (h.closed hk)) trivial
  | close fd hook => exact close_at h hs
  | fcntl fd arg accepted => exact iff_of_true ((setMode_at h hs).mpr (.inr rfl)) trivial
  | ioctl fd arg accepted =>
    have hclears : (Call.ioctl arg accepted).clears = false ↔ ¬ (arg = 0 ∧ accepted = true) := by
      rw [← Bool.not_eq_true, Call.clears, Bool.and_eq_true, decide_eq_true_eq]
    exact (setMode_at h hs).trans (or_congr_right hclears)
  | setsockopt fd optname tv_sec tv_usec hook => exact setsockopt_at h hs

theorem step_described (h : s.Described) (hs : s.step op = some t) : t.Described ↔ s.Fits op := by
  rw [← step_at (h op.fd) hs]
  refine ⟨fun ht => ht op.fd, ?_⟩
  intro hop n
  by_cases hn : n = op.fd
  · exact hn ▸ hop
  · obtain ⟨hk, hd, ha⟩ := step_frame hs hn
    have hat := h n
    unfold At at hat ⊢
    rw [hk, hd, ha]
    exact hat

/-! ## Runs -/

/-- In every run: all descriptors are described all the way exactly when every call keeps them so. -/
theorem described_throughout {τ : History Sockets Op} (hr : Run step init τ s) :
    (∀ v ∈ s :: τ.map Prod.fst, v.Described) ↔ Meets Fits τ :=
  (hr.throughout_iff (J := fun _ => True) trivial (fun _ => rfl) (fun _ _ _ _ _ => trivial)
    fun _ _ _ _ h hs => step_described h hs).2

end Sockets

end LjrServer.Hook
