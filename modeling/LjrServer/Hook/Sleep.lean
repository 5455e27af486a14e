/-
  LjrServer.Hook.Sleep — the hooked `sleep`, `usleep` and `nanosleep` (hook.cpp).

  Each arms a one-shot timer whose callback schedules the fiber, and parks it. What `addTimer`
  gets is computed in `unsigned`, in `unsigned` again and in `int`, and the deadline is a sum
  in `uint64_t`.

  Proved:
  - `next_iff`: a deadline is late enough exactly when no time is lost before the sum and the
    sum does not wrap.
  - `asleep_step`: whatever else happens to the timers, the one of a parked fiber keeps its
    deadline, as long as only that timer is to schedule the fiber.
  - `sleeps_in_full_iff`: the fiber sleeps for what was asked for exactly when the duration
    survives the conversion and the deadline does not wrap.
-/

import LjrServer.Http.Message
import LjrServer.Timer.Expiry
import LjrServer.Timer.Wakeups

namespace LjrServer.Hook

open LjrServer.Lib LjrServer.Timers
open LjrServer.Http (toInt32 toInt32_eq)

structure Timespec where
  tv_sec : Int
  tv_nsec : Int
  deriving DecidableEq, Repr

/-- A call with `t_hook_enable`. -/
inductive Sleep where
  | sleep (seconds : UInt32)
  | usleep (usec : UInt32)
  | nanosleep (req : Timespec)
  deriving DecidableEq, Repr

namespace Sleep

/-- `int timeout_ms` of `nanosleep`. -/
def timeout_ms (req : Timespec) : Int := toInt32 (req.tv_sec * 1000 + (req.tv_nsec.tdiv 1000).tdiv 1000)

/-- What is passed to `addTimer`. -/
def ms : Sleep → UInt64
  | .sleep seconds => (seconds * 1000).toUInt64
  | .usleep usec => (usec / 1000).toUInt64
  | .nanosleep req => .ofInt (timeout_ms req)

/-- The call up to `YieldToHold`; the timer is at `a`, and its callback schedules `fiber`. -/
def park (c : Sleep) (s : Clocked) (a : Addr) (fiber : Cb) (now : UInt64) : Option Clocked :=
  s.step (.addTimer a c.ms (some fiber) false now)

/-- The arguments that mean something. -/
def Valid : Sleep → Prop
  | .nanosleep req => 0 ≤ req.tv_sec ∧ req.tv_sec < 2 ^ 53 ∧ 0 ≤ req.tv_nsec ∧ req.tv_nsec < 10 ^ 9
  | _ => True

/-- The duration asked for, in whole milliseconds. -/
def requested : Sleep → Nat
  | .sleep seconds => seconds.toNat * 1000
  | .usleep usec => usec.toNat / 1000
  | .nanosleep req => (req.tv_sec * 10 ^ 9 + req.tv_nsec).toNat / 10 ^ 6

/-- The duration survives the conversion, and the deadline does not wrap. A negative
    `timeout_ms` is a huge duration. -/
def Fits (now : UInt64) (c : Sleep) : Prop :=
  match c with
  | .sleep _ => c.requested < 2 ^ 32 ∧ now.toNat + c.requested < 2 ^ 64
  | .usleep _ => now.toNat + c.requested < 2 ^ 64
  | .nanosleep _ =>
    c.requested < 2 ^ 31 ∧ now.toNat + c.requested < 2 ^ 64 ∨
      2 ^ 31 ≤ c.requested % 2 ^ 32 ∧ now.toNat + c.requested % 2 ^ 32 < 2 ^ 32

instance (now : UInt64) (c : Sleep) : Decidable (c.Fits now) := by
  cases c <;> unfold Fits <;> infer_instance

end Sleep

/-- A legal operation, at or after the last clock reading. -/
structure Forward (s : Clocked) (op : Op) : Prop where
  legal : op.Legal s.manager
  clock : s.clock ≤ op.now s.clock

/-- No other timer is to schedule the fiber, and nobody puts off the one that is. -/
def Leaves (fiber : Cb) (m : TimerManager) : Op → Prop
  | .addTimer _ _ cb _ _ => cb ≠ some fiber
  | .refresh a _ => ∀ t, m.heap a = some t → t.cb ≠ some fiber
  | .reset a _ _ _ => ∀ t, m.heap a = some t → t.cb ≠ some fiber
  | _ => True

/-- The timer at `a` is due at `wake` or later, and no later call of `listExpiredCb` before
    `wake` returns the callback that schedules the fiber. -/
def SleepsUntil (wake : Nat) (a : Addr) (fiber : Cb) (s : Clocked) : Prop :=
  wake ≤ (s.manager.next a).toNat ∧
    ∀ (τ : History Clocked Op) (s' : Clocked) (now : UInt64) (nowTimer : Addr) (out : Outcome) (m' : TimerManager),
      Run Clocked.step s τ s' → Meets (fun u op => Forward u op ∧ Leaves fiber u.manager op) τ →
      Forward s' (.listExpiredCb now nowTimer) → s'.manager.listExpiredCb now nowTimer = some (out, m') →
      some fiber ∈ out.cbs → wake ≤ now.toNat

/-! ## Milliseconds -/

/-- A deadline that wrapped is before the clock. -/
theorem next_iff (now ms : UInt64) (requested : Nat) :
    now.toNat + requested ≤ (now + ms).toNat ↔ requested ≤ ms.toNat ∧ now.toNat + ms.toNat < 2 ^ 64 := by
  have hnow := now.toNat_lt
  have hms := ms.toNat_lt
  rw [UInt64.toNat_add]
  omega

/-- The division by a million, in two steps of a thousand. -/
theorem requested_eq {req : Timespec} (h : (Sleep.nanosleep req).Valid) :
    ((Sleep.nanosleep req).requested : Int) = req.tv_sec * 1000 + (req.tv_nsec.tdiv 1000).tdiv 1000 ∧
      (Sleep.nanosleep req).requested < 2 ^ 63 := by
  obtain ⟨hsec, hsec', hnsec, hnsec'⟩ := h
  have hdiv : (req.tv_nsec.tdiv 1000).tdiv 1000 = req.tv_nsec / 1000 / 1000 := by
    rw [Int.tdiv_eq_ediv_of_nonneg hnsec, Int.tdiv_eq_ediv_of_nonneg (by omega)]
  rw [hdiv]
  show (((req.tv_sec * 10 ^ 9 + req.tv_nsec).toNat / 10 ^ 6 : Nat) : Int) = _ ∧
    (req.tv_sec * 10 ^ 9 + req.tv_nsec).toNat / 10 ^ 6 < _
  omega

theorem toNat_ofInt (x : Int) : (UInt64.ofInt x).toNat = (x % 2 ^ 64).toNat := by
  rw [UInt64.ofInt, UInt64.toNat_ofNat']
  omega

theorem ms_nanosleep {req : Timespec} (h : (Sleep.nanosleep req).Valid)
    {v : Nat} (hv : (Sleep.nanosleep req).requested = v) :
    (Sleep.nanosleep req).ms.toNat = if v % 2 ^ 32 < 2 ^ 31 then v % 2 ^ 32 else 2 ^ 64 - 2 ^ 32 + v % 2 ^ 32 := by
  show (UInt64.ofInt (Sleep.timeout_ms req)).toNat = _
  rw [Sleep.timeout_ms, ← (requested_eq h).1, hv, toInt32_eq, toNat_ofInt]
  split <;> omega

theorem fits_iff {c : Sleep} (hc : c.Valid) (now : UInt64) :
    now.toNat + c.requested ≤ (now + c.ms).toNat ↔ c.Fits now := by
  rw [next_iff]
  have hnow := now.toNat_lt
  cases c with
  | sleep seconds =>
    have hms : (Sleep.sleep seconds).ms.toNat = seconds.toNat * 1000 % 2 ^ 32 := UInt32.toNat_mul seconds 1000
    rw [hms]
    show seconds.toNat * 1000 ≤ _ ∧ _ ↔ seconds.toNat * 1000 < _ ∧ now.toNat + seconds.toNat * 1000 < _
    omega
  | usleep usec =>
    have hms : (Sleep.usleep usec).ms.toNat = usec.toNat / 1000 := UInt32.toNat_div usec 1000
    rw [hms]
    show usec.toNat / 1000 ≤ _ ∧ _ ↔ now.toNat + usec.toNat / 1000 < _
    omega
  | nanosleep req =>
    have hlt := (requested_eq hc).2
    rw [ms_nanosleep hc rfl]
    unfold Sleep.Fits
    dsimp only
    revert hlt
    generalize (Sleep.nanosleep req).requested = v
    intro hlt
    split <;> omega

/-! ## Asleep -/

/-- The timers that schedule the fiber are due at `wake`, and once. -/
structure Asleep (fiber : Cb) (wake : UInt64) (s : Clocked) : Prop where
  kept : s.manager.Kept
  previous : s.manager.previousTime ≤ s.clock
  only : ∀ b t, b ∈ s.manager.timers → s.manager.heap b = some t → t.cb = some fiber →
    t.next = wake ∧ t.recurring = false

section
variable {fiber : Cb} {wake : UInt64} {s s' : Clocked} {op : Op}

theorem asleep_step (h : Asleep fiber wake s) (hf : Forward s op) (hl : Leaves fiber s.manager op)
    (hs : s.step op = some s') :
    Asleep fiber wake s' := by
  obtain ⟨m', hm', rfl⟩ := Option.map_eq_some_iff.mp hs
  obtain ⟨out, -, hk, heff, hmem⟩ := Op.step_done h.kept hf.legal hm'
  refine ⟨hk, Clocked.previous_le heff h.previous hf.clock, ?_⟩
  cases heff with
  | addTimer hheap _ =>
    refine TimerManager.set_forall h.only hheap (fun b hb e => ((hmem b).mp hb).resolve_left e) ?_
    rintro t _ ⟨⟩ hcb
    exact absurd hcb hl
  | cancel _ hheap _ =>
    refine TimerManager.set_forall h.only hheap (fun b hb _ => ((hmem b).mp hb).1) ?_
    rintro t _ ⟨⟩ ⟨⟩
  | @refresh a now t ht hheap _ =>
    refine TimerManager.set_forall h.only hheap (fun b hb _ => (hmem b).mp hb) ?_
    rintro t' _ ⟨⟩ hcb
    have hsame : t.cb = some fiber := by
      split at hcb
      · exact hcb
      · exact hcb
    exact absurd hsame (hl t ht)
  | noReset hheap _ =>
    intro b t hb ht
    exact h.only b t ((hmem b).mp hb) (hheap ▸ ht)
  | @reset a ms fromNow now t ht _ hheap _ =>
    refine TimerManager.set_forall h.only hheap (fun b hb _ => (hmem b).mp hb) ?_
    rintro t' _ ⟨⟩ hcb
    exact absurd hcb (hl t ht)
  | getNextTimer hheap _ _ =>
    intro b t hb ht
    exact h.only b t ((hmem b).mp hb) (hheap ▸ ht)
  | @listExpiredCb now nowTimer hexp =>
    intro b t' hb ht' hcb
    obtain ⟨t, ht, hin, ⟨_, rfl⟩ | ⟨_, hrec, rfl⟩⟩ := hexp.fired.left hb ht'
    · exact h.only b t' hin ht hcb
    · -- it was to fire once
      rw [(h.only b t hin ht hcb).2] at hrec
      cases hrec
  | release hheap _ =>
    exact TimerManager.set_forall h.only hheap (fun b hb _ => (hmem b).mp hb) fun t _ ht => nomatch ht

/-- Only a due timer's callback is returned. -/
theorem asleep_listExpiredCb (h : Asleep fiber wake s) {now : UInt64} {nowTimer : Addr}
    (hf : Forward s (.listExpiredCb now nowTimer)) {out : Outcome} {m' : TimerManager}
    (he : s.manager.listExpiredCb now nowTimer = some (out, m')) (hcb : some fiber ∈ out.cbs) : wake ≤ now := by
  obtain ⟨out', m'', he', hfires⟩ := TimerManager.listExpiredCb_ordered h.kept.ordered now hf.legal
  obtain ⟨rfl, rfl⟩ := Prod.mk.inj (Option.some.inj (he.symm.trans he'))
  obtain ⟨fired, hmem, -, hcbs⟩ := hfires.fired
  rw [hcbs] at hcb
  obtain ⟨a, ha, hafiber⟩ := List.mem_map.mp hcb
  obtain ⟨t, ht, htcb⟩ := Option.bind_eq_some_iff.mp hafiber
  obtain ⟨hin, hdue⟩ := (hmem a).mp ha
  have hroll : s.manager.rollover now = false := Clocked.rollover_of_le (UInt64.le_trans h.previous hf.clock)
  rw [hroll, TimerManager.next_eq ht, (h.only a t hin ht htcb).1] at hdue
  exact hdue.resolve_left Bool.false_ne_true

/-- A fiber no timer schedules yet is parked. -/
theorem park_asleep {c : Sleep} {a : Addr} {now : UInt64} (hk : s.manager.Kept)
    (hprev : s.manager.previousTime ≤ s.clock)
    (hnone : ∀ b t, s.manager.heap b = some t → t.cb ≠ some fiber) (hfree : s.manager.heap a = none)
    (hclock : s.clock ≤ now) :
    ∃ s', c.park s a fiber now = some s' ∧ Asleep fiber (now + c.ms) s' ∧ s'.manager.next a = now + c.ms := by
  obtain ⟨out, m', hm', hk', heff, -⟩ := TimerManager.addTimer_spec hk hfree c.ms (some fiber) false now
  have hprev' := Clocked.previous_le heff hprev hclock
  have hstep : c.park s a fiber now = some ⟨now, m'⟩ := by
    show Option.map _ ((s.manager.addTimer a c.ms (some fiber) false now).map (·.2)) = _
    rw [hm']
    rfl
  cases heff with
  | addTimer hheap _ =>
    refine ⟨_, hstep, ⟨hk', hprev', ?_⟩, ?_⟩
    · intro b t _ ht hcb
      rw [hheap] at ht
      by_cases e : b = a
      · rw [e, TimerManager.set_heap_self] at ht
        cases ht
        exact ⟨rfl, rfl⟩
      · rw [TimerManager.set_heap_other _ _ e] at ht
        exact absurd hcb (hnone b t ht)
    · show m'.next a = _
      rw [TimerManager.next, hheap, TimerManager.set_heap_self]

end

/-! ## Runs -/

theorem forward_kept {start : UInt64} {τ : History Clocked Op} {s : Clocked} (hr : Run Clocked.step (.init start) τ s)
    (hm : Meets Forward τ) : s.manager.Kept ∧ s.manager.previousTime ≤ s.clock := by
  refine hr.invariant (I := fun s => s.manager.Kept ∧ s.manager.previousTime ≤ s.clock)
    ⟨TimerManager.init_kept start, UInt64.le_refl _⟩ ?_ hm
  intro s op s' h hf hs
  obtain ⟨m', hm', rfl⟩ := Option.map_eq_some_iff.mp hs
  obtain ⟨out, -, hdone⟩ := Op.step_done h.1 hf.legal hm'
  exact ⟨hdone.kept, Clocked.previous_le hdone.effect h.2 hf.clock⟩

theorem asleep_run {fiber : Cb} {wake : UInt64} {τ : History Clocked Op} {s s' : Clocked} (h : Asleep fiber wake s)
    (hr : Run Clocked.step s τ s') (hm : Meets (fun u op => Forward u op ∧ Leaves fiber u.manager op) τ) :
    Asleep fiber wake s' :=
  hr.invariant h (fun _ _ _ ih hc hs => asleep_step ih hc.1 hc.2 hs) hm

/-- For every call with arguments that mean something, made at any time of any run. -/
theorem sleeps_in_full_iff {start : UInt64} {τ : History Clocked Op} {s : Clocked} (hr : Run Clocked.step (.init start) τ s)
    (hm : Meets Forward τ) {c : Sleep} (hc : c.Valid) {a : Addr} {fiber : Cb} {now : UInt64}
    (hnone : ∀ b t, s.manager.heap b = some t → t.cb ≠ some fiber) (hfree : s.manager.heap a = none)
    (hclock : s.clock ≤ now) :
    ∃ s', c.park s a fiber now = some s' ∧ (SleepsUntil (now.toNat + c.requested) a fiber s' ↔ c.Fits now) := by
  obtain ⟨hk, hprev⟩ := forward_kept hr hm
  obtain ⟨s', hs', hasleep, hnext⟩ := park_asleep (c := c) hk hprev hnone hfree hclock
  refine ⟨s', hs', ?_⟩
  rw [SleepsUntil, hnext, fits_iff hc, and_iff_left_iff_imp]
  intro hfits τ' u now' nowTimer out m' hr' hm' hf he hcb
  have hdue := asleep_listExpiredCb (asleep_run hasleep hr' hm') hf he hcb
  exact Nat.le_trans ((fits_iff hc now).mpr hfits) (UInt64.le_iff_toNat_le.mp hdue)

theorem sleeps_in_full_iff_two_seconds :
    ∃ s', (Sleep.sleep 2).park (.init 100) 8 0 100 = some s' ∧
      (SleepsUntil ((100 : UInt64).toNat + (Sleep.sleep 2).requested) 8 0 s' ↔ (Sleep.sleep 2).Fits 100) :=
  sleeps_in_full_iff .nil (fun _ h => nomatch h) (show (Sleep.sleep 2).Valid from trivial) (fun _ _ h => nomatch h)
    rfl (UInt64.le_refl _)

/-- Fifty days take 704 ms. -/
theorem fifty_days_cut_short :
    ∃ s', (Sleep.sleep 4294968).park (.init 1700000000000) 8 0 1700000000000 = some s' ∧
      s'.manager.next 8 = 1700000000704 ∧
      ¬ SleepsUntil ((1700000000000 : UInt64).toNat + (Sleep.sleep 4294968).requested) 8 0 s' :=
  ⟨_, rfl, by decide, fun h => absurd h.1 (by decide)⟩

end LjrServer.Hook
