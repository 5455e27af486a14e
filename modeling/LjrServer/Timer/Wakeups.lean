/-
  LjrServer.Timer.Wakeups — a poll that is told to sleep is woken for an earlier deadline.

  `idle` sleeps for what `getNextTimer` returned, and `onTimerInsertedAtFront` is what wakes
  it. `m_tickled` keeps the call from being made twice for one sleep; `refresh` and
  `listExpiredCb` put timers into the set without calling it. They only put deadlines off:
  an armed timer is due one period after a clock reading that has passed (`Timely`).

  Proved:
  - `step_quiet`: an operation that does not call `onTimerInsertedAtFront` leaves every
    deadline at or after the time the poll sleeps to.
  - `no_missed_wakeup`: with a clock that does not go back, a timer due before the end of
    the sleep is in the set only after a call of `onTimerInsertedAtFront`.
-/

import LjrServer.Timer.Operations
import Mathlib.Algebra.GroupWithZero.Nat
import Mathlib.Algebra.Ring.Int.Defs

namespace LjrServer.Timers

open LjrServer.Lib

/-- The last clock reading and the manager. -/
structure Clocked where
  clock : UInt64
  manager : TimerManager

namespace Op

/-- The clock after an operation. -/
def now (clock : UInt64) : Op → UInt64
  | .addTimer _ _ _ _ now => now
  | .refresh _ now => now
  | .reset _ _ _ now => now
  | .getNextTimer now => now
  | .listExpiredCb now _ => now
  | .cancel _ => clock
  | .release _ => clock

/-- The sums an operation forms for new deadlines do not overflow. -/
def Fits (m : TimerManager) : Op → Prop
  | .addTimer _ ms _ _ now => now.toNat + ms.toNat < 2 ^ 64
  | .refresh a now => ∀ t, m.heap a = some t → t.cb ≠ none → now.toNat + t.ms.toNat < 2 ^ 64
  | .reset a ms fromNow now =>
    ∀ t, m.heap a = some t → t.cb ≠ none → (if fromNow then now else t.next - t.ms).toNat + ms.toNat < 2 ^ 64
  | .listExpiredCb now _ =>
    ∀ a ∈ m.timers, ∀ t, m.heap a = some t → t.due now (m.rollover now) = true → t.recurring = true →
      now.toNat + t.ms.toNat < 2 ^ 64
  | _ => True

end Op

namespace Clocked

def init (now : UInt64) : Clocked := ⟨now, .init now⟩

def step (s : Clocked) (op : Op) : Option Clocked := (op.step s.manager).map (⟨op.now s.clock, ·⟩)

/-- A legal operation, at or after the last clock reading. -/
structure Steady (s : Clocked) (op : Op) : Prop where
  legal : op.Legal s.manager
  clock : s.clock ≤ op.now s.clock
  fits : op.Fits s.manager

/-- The operation called `onTimerInsertedAtFront`. -/
def Notifies (s : Clocked) (op : Op) : Prop := ∃ out m', op.exec s.manager = some (out, m') ∧ out.insertedAtFront = true

/-! ## Deadlines are not in the past of the timer's own start -/

/-- Every timer of the set was started at a clock reading. -/
structure Timely (s : Clocked) : Prop where
  kept : s.manager.Kept
  previous : s.manager.previousTime ≤ s.clock
  started : ∀ a t, a ∈ s.manager.timers → s.manager.heap a = some t →
    ∃ start ≤ s.clock.toNat, t.next.toNat = start + t.ms.toNat

theorem rollover_of_le {m : TimerManager} {now : UInt64} (h : m.previousTime ≤ now) : m.rollover now = false := by
  unfold TimerManager.rollover TimerManager.detectClockRollover
  rw [decide_eq_false (UInt64.not_lt.mpr h), Bool.false_and]

theorem Timely.rollover {s : Clocked} (h : s.Timely) {now : UInt64} (hn : s.clock ≤ now) :
    s.manager.rollover now = false := rollover_of_le (UInt64.le_trans h.previous hn)

theorem sum_toNat {a b : UInt64} (h : a.toNat + b.toNat < 2 ^ 64) : (a + b).toNat = a.toNat + b.toNat := by
  rw [UInt64.toNat_add, Nat.mod_eq_of_lt h]

/-- A started timer's period can be taken off its deadline again. -/
theorem start_toNat {t : Timer} {start : Nat} (h : t.next.toNat = start + t.ms.toNat) :
    (t.next - t.ms).toNat = start := by
  rw [UInt64.toNat_sub_of_le _ _ (UInt64.le_iff_toNat_le.mpr (by omega))]
  omega

theorem step_eq {s s' : Clocked} {op : Op} (h : s.Timely) (hs : Steady s op) (he : step s op = some s') :
    ∃ out, op.exec s.manager = some (out, s'.manager) ∧ s'.clock = op.now s.clock ∧
      TimerManager.Done s.manager s'.manager out op := by
  obtain ⟨m', hm', rfl⟩ := Option.map_eq_some_iff.mp he
  obtain ⟨out, hout, hdone⟩ := Op.step_done h.kept hs.legal hm'
  exact ⟨out, hout, rfl, hdone⟩

theorem previous_le {m m' : TimerManager} {out : Outcome} {op : Op} {clock : UInt64}
    (heff : TimerManager.Effect m m' out op) (hprev : m.previousTime ≤ clock) (hclock : clock ≤ op.now clock) :
    m'.previousTime ≤ op.now clock := by
  have hle {p : UInt64} (hp : p = m.previousTime) : p ≤ op.now clock := hp ▸ UInt64.le_trans hprev hclock
  cases heff with
  | addTimer _ hadd => exact hle hadd.previous
  | cancel _ _ hsil => exact hle hsil.previous
  | refresh _ _ hsil => exact hle hsil.previous
  | noReset _ hsil => exact hle hsil.previous
  | reset _ _ _ hadd => exact hle hadd.previous
  | getNextTimer _ _ hp => exact hle hp
  | listExpiredCb hexp =>
    rcases hexp.previous with hp | hp
    · exact hle hp
    · rw [hp]
      exact UInt64.le_refl _
  | release _ hsil => exact hle hsil.previous

theorem step_timely {s s' : Clocked} {op : Op} (h : s.Timely) (hs : Steady s op) (he : step s op = some s') :
    s'.Timely := by
  obtain ⟨out, _, hclock, hk, heff, hmem⟩ := step_eq h hs he
  have hle : s.clock.toNat ≤ s'.clock.toNat := UInt64.le_iff_toNat_le.mp (hclock ▸ hs.clock)
  have hstarted : ∀ a t, a ∈ s.manager.timers → s.manager.heap a = some t →
      ∃ start ≤ s'.clock.toNat, t.next.toNat = start + t.ms.toNat := by
    intro a t ha ht
    obtain ⟨start, hst, hn⟩ := h.started a t ha ht
    exact ⟨start, Nat.le_trans hst hle, hn⟩
  refine ⟨hk, hclock ▸ previous_le heff h.previous hs.clock, ?_⟩
  cases heff with
  | @addTimer a ms cb recurring now hheap hadd =>
    refine TimerManager.set_forall hstarted hheap (fun b hb e => ((hmem b).mp hb).resolve_left e) ?_
    rintro t _ ⟨⟩
    exact ⟨now.toNat, by rw [hclock]; exact Nat.le_refl _, sum_toNat hs.fits⟩
  | @cancel a t ht hheap hsil =>
    refine TimerManager.set_forall hstarted hheap (fun b hb _ => ((hmem b).mp hb).1) ?_
    rintro t' ha ⟨⟩
    exact hstarted a t ((hmem a).mp ha).1 ht
  | @refresh a now t ht hheap hsil =>
    refine TimerManager.set_forall hstarted hheap (fun b hb _ => (hmem b).mp hb) ?_
    rintro t' ha ⟨⟩
    split
    · exact hstarted a t ((hmem a).mp ha) ht
    · rename_i hsome
      exact ⟨now.toNat, by rw [hclock]; exact Nat.le_refl _, sum_toNat (hs.fits t ht hsome)⟩
  | noReset hheap hsil =>
    intro b t hb ht
    exact hstarted b t ((hmem b).mp hb) (hheap ▸ ht)
  | @reset a ms fromNow now t ht hcb hheap hadd =>
    refine TimerManager.set_forall hstarted hheap (fun b hb _ => (hmem b).mp hb) ?_
    rintro t' ha ⟨⟩
    refine ⟨_, ?_, sum_toNat (hs.fits t ht hcb)⟩
    cases fromNow with
    | true =>
      rw [hclock]
      exact Nat.le_refl _
    | false =>
      obtain ⟨start, hst, hn⟩ := hstarted a t ((hmem a).mp ha) ht
      rw [if_neg Bool.false_ne_true, start_toNat hn]
      exact hst
  | getNextTimer hheap _ _ =>
    intro b t hb ht
    exact hstarted b t ((hmem b).mp hb) (hheap ▸ ht)
  | @listExpiredCb now nowTimer hexp =>
    intro a t' ha ht'
    obtain ⟨t, ht, hin, ⟨_, rfl⟩ | ⟨hdue, hrec, rfl⟩⟩ := hexp.fired.left ha ht'
    · exact hstarted a t' hin ht
    · exact ⟨now.toNat, by rw [hclock]; exact Nat.le_refl _, sum_toNat (hs.fits a hin t ht hdue hrec)⟩
  | release hheap _ =>
    exact TimerManager.set_forall hstarted hheap (fun b hb _ => (hmem b).mp hb) fun t _ ht => nomatch ht

theorem init_timely (now : UInt64) : (init now).Timely := by
  exact ⟨TimerManager.init_kept now, UInt64.le_refl _, fun _ _ ha => nomatch ha⟩

/-! ## Sleeping to a time -/

/-- Nothing was reported since the poll, and no deadline is before the time it sleeps to. -/
structure Quiet (wake : Nat) (s : Clocked) : Prop where
  tickled : s.manager.tickled = false
  late : ∀ a ∈ s.manager.timers, wake ≤ (s.manager.next a).toNat

/-- A timer the protected `addTimer` did not report is not before another one. -/
theorem added_quiet {wake : Nat} {m m' : TimerManager} {out : Outcome} {a : Addr} (hadd : TimerManager.Added m m' out a)
    (htick : m.tickled = false) (hout : out.insertedAtFront = false)
    (hothers : ∀ b ∈ m'.timers, b ≠ a → wake ≤ (m'.next b).toNat) :
    m'.tickled = false ∧ ∀ b ∈ m'.timers, wake ≤ (m'.next b).toNat := by
  refine ⟨by rw [hadd.tickled, htick, hout]; rfl, ?_⟩
  intro b hb
  by_cases e : b = a
  · -- were it the first, `addTimerLocked` would have reported it
    refine Nat.le_of_not_lt fun hlt => ?_
    have hall : ∀ c ∈ m'.timers, c = a ∨ m'.lt a c = true := by
      intro c hc
      by_cases e' : c = a
      · exact .inl e'
      · refine .inr ((TimerManager.lt_iff m' a c).mpr (.inl (UInt64.lt_iff_toNat_lt.mpr ?_)))
        exact Nat.lt_of_lt_of_le (e ▸ hlt) (hothers c hc e')
    rw [hadd.front.mpr ⟨htick, hall⟩] at hout
    cases hout
  · exact hothers b hb e

/-- The other timers of the set are due when they were. -/
theorem late_set {wake : Nat} {m m' : TimerManager} {a : Addr} {u : Option Timer} (hm' : m'.heap = (m.set a u).heap)
    (h : ∀ b ∈ m.timers, wake ≤ (m.next b).toNat) (hmem : ∀ b, b ∈ m'.timers → b ≠ a → b ∈ m.timers) :
    ∀ b ∈ m'.timers, b ≠ a → wake ≤ (m'.next b).toNat := by
  intro b hb e
  have hnext : m'.next b = m.next b := by
    rw [← TimerManager.set_next_other m u e, TimerManager.next, TimerManager.next, hm']
  rw [hnext]
  exact h b (hmem b hb e)

/-- The deadline of a timer was one period after a reading no later than `now`. -/
theorem Timely.refreshed_later {s : Clocked} (h : s.Timely) {a : Addr} {t : Timer} {now : UInt64}
    (ha : a ∈ s.manager.timers) (ht : s.manager.heap a = some t) (hn : s.clock ≤ now)
    (hfit : now.toNat + t.ms.toNat < 2 ^ 64) : t.next.toNat ≤ (now + t.ms).toNat := by
  obtain ⟨start, hst, hnext⟩ := h.started a t ha ht
  have hnow := UInt64.le_iff_toNat_le.mp hn
  rw [sum_toNat hfit]
  omega

/-- A timer that was due, and is armed again, has its new deadline after the old one. -/
theorem Timely.fired_late {s : Clocked} (h : s.Timely) {m' : TimerManager} {now : UInt64} {nowTimer b : Addr} {t' : Timer}
    {wake : Nat} (hclock : s.clock ≤ now) (hfits : (Op.listExpiredCb now nowTimer).Fits s.manager)
    (hfired : TimerManager.Fired s.manager m' now (s.manager.rollover now))
    (hlate : ∀ a ∈ s.manager.timers, wake ≤ (s.manager.next a).toNat) (hb : b ∈ m'.timers) (ht' : m'.heap b = some t') :
    wake ≤ t'.next.toNat := by
  obtain ⟨t, ht, hin, hcases⟩ := hfired.left hb ht'
  have hold := hlate b hin
  rw [TimerManager.next_eq ht] at hold
  rcases hcases with ⟨_, rfl⟩ | ⟨hdue, hrec, rfl⟩
  · exact hold
  · have hfit : now.toNat + t.ms.toNat < 2 ^ 64 := hfits b hin t ht hdue hrec
    have hroll : s.manager.rollover now = false := h.rollover hclock
    rw [hroll] at hdue
    have hle := ((TimerManager.due_iff ht).mp hdue).resolve_left Bool.false_ne_true
    rw [TimerManager.next_eq ht] at hle
    have hdueBy := UInt64.le_iff_toNat_le.mp hle
    show wake ≤ (now + t.ms).toNat
    rw [sum_toNat hfit]
    omega

/-- What one operation leaves of a sleep: a call, or later deadlines only. -/
theorem step_quiet {wake : Nat} {s s' : Clocked} {op : Op} (h : s.Timely) (hs : Steady s op) (he : step s op = some s')
    (hop : ∀ now, op ≠ .getNextTimer now) (hq : s.Quiet wake) : Notifies s op ∨ s'.Quiet wake := by
  obtain ⟨out, hout, hclock, hk, heff, hmem⟩ := step_eq h hs he
  cases hfront : out.insertedAtFront with
  | true => exact .inl ⟨out, _, hout, hfront⟩
  | false =>
    refine .inr ?_
    cases heff with
    | addTimer hheap hadd =>
      have hothers := late_set hheap hq.late fun b hb e => ((hmem b).mp hb).resolve_left e
      obtain ⟨htick, hlate⟩ := added_quiet hadd hq.tickled hfront hothers
      exact ⟨htick, hlate⟩
    | @cancel a t ht hheap hsil =>
      refine ⟨hsil.tickled.trans hq.tickled, fun b hb => ?_⟩
      by_cases e : b = a
      · subst e
        have hself : s'.manager.heap b = some { t with cb := none } := by rw [hheap, TimerManager.set_heap_self]
        have hold := hq.late b ((hmem b).mp hb).1
        rw [TimerManager.next_eq ht] at hold
        rwa [TimerManager.next_eq hself]
      · exact late_set hheap hq.late (fun b hb _ => ((hmem b).mp hb).1) b hb e
    | @refresh a now t ht hheap hsil =>
      refine ⟨hsil.tickled.trans hq.tickled, fun b hb => ?_⟩
      by_cases e : b = a
      · subst e
        have hin := (hmem b).mp hb
        have hself := congrFun hheap b
        rw [TimerManager.set_heap_self] at hself
        have hold := hq.late b hin
        rw [TimerManager.next_eq ht] at hold
        rw [TimerManager.next_eq hself]
        split
        · exact hold
        · rename_i hcb
          exact Nat.le_trans hold (h.refreshed_later hin ht hs.clock (hs.fits t ht hcb))
      · exact late_set hheap hq.late (fun b hb _ => (hmem b).mp hb) b hb e
    | noReset hheap hsil =>
      refine ⟨hsil.tickled.trans hq.tickled, fun b hb => ?_⟩
      have hnext : s'.manager.next b = s.manager.next b := by rw [TimerManager.next, TimerManager.next, hheap]
      rw [hnext]
      exact hq.late b ((hmem b).mp hb)
    | reset ht hcb hheap hadd =>
      have hothers := late_set hheap hq.late fun b hb _ => (hmem b).mp hb
      obtain ⟨htick, hlate⟩ := added_quiet hadd hq.tickled hfront hothers
      exact ⟨htick, hlate⟩
    | getNextTimer _ _ _ => exact absurd rfl (hop _)
    | @listExpiredCb now nowTimer hexp =>
      refine ⟨hexp.tickled.trans hq.tickled, fun b hb => ?_⟩
      obtain ⟨t', ht'⟩ := Option.ne_none_iff_exists'.mp (hk.live b hb)
      rw [TimerManager.next_eq ht']
      exact h.fired_late hs.clock hs.fits hexp.fired hq.late hb ht'
    | @release a hheap hsil =>
      refine ⟨hsil.tickled.trans hq.tickled, fun b hb => ?_⟩
      refine late_set hheap hq.late (fun b hb _ => (hmem b).mp hb) b hb ?_
      rintro rfl
      exact hk.live b hb (by rw [hheap, TimerManager.set_heap_self])

/-- The time a poll at `now` sleeps to. -/
def wakeTime (s : Clocked) (now : UInt64) : Nat :=
  if s.manager.timers = [] then 2 ^ 64 else now.toNat + (s.manager.getNextTimer now).1.toNat

/-- The state after a poll. -/
def poll (s : Clocked) (now : UInt64) : Clocked := ⟨now, (s.manager.getNextTimer now).2⟩

theorem poll_timely {s : Clocked} (h : s.Timely) {now : UInt64} (hn : s.clock ≤ now) : (s.poll now).Timely :=
  @step_timely s (s.poll now) (.getNextTimer now) h ⟨trivial, hn, trivial⟩ rfl

theorem poll_quiet {s : Clocked} (h : s.Timely) {now : UInt64} (hw : (s.manager.getNextTimer now).1 ≠ 0) :
    (s.poll now).Quiet (s.wakeTime now) := by
  have hsame : (s.poll now).manager = { s.manager with tickled := false } := TimerManager.getNextTimer_eq s.manager now
  refine ⟨by rw [hsame], ?_⟩
  rw [hsame]
  show ∀ a ∈ s.manager.timers, s.wakeTime now ≤ (s.manager.next a).toNat
  unfold wakeTime
  have hsorted := h.kept.sorted
  unfold TimerManager.getNextTimer at hw ⊢
  cases hts : s.manager.timers with
  | nil => exact fun a ha => nomatch ha
  | cons first rest =>
    rw [hts] at hw hsorted
    rw [if_neg (List.cons_ne_nil _ _)]
    have hlt : now < s.manager.next first := by
      rw [← UInt64.not_le]
      intro hle
      exact hw (if_pos hle)
    have hval : (if now ≥ s.manager.next first then 0 else s.manager.next first - now) = s.manager.next first - now :=
      if_neg (UInt64.not_le.mpr hlt)
    show ∀ a ∈ first :: rest, now.toNat +
      (if now ≥ s.manager.next first then 0 else s.manager.next first - now).toNat ≤ (s.manager.next a).toNat
    rw [hval, UInt64.toNat_sub_of_le _ _ (UInt64.le_of_lt hlt)]
    have hlt' := UInt64.lt_iff_toNat_lt.mp hlt
    obtain ⟨hfirst, _⟩ := List.pairwise_cons.mp hsorted
    refine List.forall_mem_cons.mpr ⟨by omega, fun a ha => ?_⟩
    rcases (TimerManager.lt_iff _ _ _).mp (hfirst a ha) with hfa | ⟨hfa, _⟩
    · have := UInt64.lt_iff_toNat_lt.mp hfa
      omega
    · rw [← hfa]
      omega

/-! ## Every run -/

theorem run_timely {now : UInt64} {τ : History Clocked Op} {s : Clocked} (hr : Run step (init now) τ s)
    (hm : Meets Steady τ) :
    s.Timely :=
  hr.invariant (init_timely now) (fun _ _ _ => step_timely) hm

theorem run_quiet {wake : Nat} {s₀ s : Clocked} {τ : History Clocked Op} (h₀ : s₀.Timely) (hq : s₀.Quiet wake)
    (hr : Run step s₀ τ s) (hm : Meets Steady τ) (hop : Meets (fun _ op => ∀ now, op ≠ .getNextTimer now) τ) :
    (∃ p ∈ τ, Notifies p.1 p.2) ∨ s.Quiet wake := by
  induction hr with
  | nil => exact .inr hq
  | @step τ s s' op hr he ih =>
    obtain ⟨hs, hm'⟩ := Run.meets_cons.mp hm
    obtain ⟨hne, hop'⟩ := Run.meets_cons.mp hop
    rcases ih hm' hop' with ⟨p, hp, hn⟩ | hq'
    · exact .inl ⟨p, List.mem_cons_of_mem _ hp, hn⟩
    · have ht : s.Timely := hr.invariant h₀ (fun _ _ _ => step_timely) hm'
      rcases step_quiet ht hs he hne hq' with hn | hq''
      · exact .inl ⟨(s, op), List.mem_cons_self, hn⟩
      · exact .inr hq''

/-- After a poll that returned `w > 0`, a timer due before the end of the sleep (any timer, if
    there was none) is in the set only if `onTimerInsertedAtFront` was called since. -/
theorem no_missed_wakeup (start : UInt64) {τ τ' : History Clocked Op} {s s' : Clocked} {now : UInt64} {a : Addr}
    (hr : Run step (init start) τ s) (hm : Meets Steady τ) (hn : s.clock ≤ now)
    (hw : (s.manager.getNextTimer now).1 ≠ 0)
    (hr' : Run step (s.poll now) τ' s') (hm' : Meets Steady τ')
    (hop : Meets (fun _ op => ∀ now, op ≠ .getNextTimer now) τ')
    (ha : a ∈ s'.manager.timers)
    (hearly : s.manager.timers = [] ∨ (s'.manager.next a).toNat < now.toNat + (s.manager.getNextTimer now).1.toNat) :
    ∃ p ∈ τ', Notifies p.1 p.2 := by
  have ht := run_timely hr hm
  rcases run_quiet (poll_timely ht hn) (poll_quiet ht hw) hr' hm' hop with hn | hq
  · exact hn
  · have hlate := hq.late a ha
    have hbound := (s'.manager.next a).toNat_lt
    unfold wakeTime at hlate
    rcases hearly with he | he
    · rw [if_pos he] at hlate
      omega
    · split at hlate <;> omega

/-- A timer for 100 ms, added at 0. -/
def oneTimer : Clocked :=
  ⟨0, { (TimerManager.init 0).set 1 (some { ms := 100, next := 100, cb := some 0 }) with
    timers := [1], tickled := true }⟩

/-- Told at 10 to sleep 90 ms for the only timer; one due at 25 is added. -/
theorem no_missed_wakeup_shorter :
    ∃ (s' : Clocked) (τ' : History Clocked Op), (oneTimer.manager.getNextTimer 10).1 = 90 ∧
      Run step (oneTimer.poll 10) τ' s' ∧ τ'.map (·.2) = [.addTimer 2 5 (some 1) false 20] ∧
      s'.manager.timers = [2, 1] ∧
      ∃ p ∈ τ', Notifies p.1 p.2 := by
  have hr : Run step (init 0) [(init 0, .addTimer 1 100 (some 0) false 0)] oneTimer := .step .nil rfl
  have hm : Meets Steady [(init 0, Op.addTimer 1 100 (some 0) false 0)] :=
    Run.meets_cons.mpr ⟨⟨by decide, by decide, show 0 + 100 < 2 ^ 64 by decide⟩, fun p hp => nomatch hp⟩
  have hr' := Run.step (Run.nil : Run step (oneTimer.poll 10) [] _)
    (show step _ (.addTimer 2 5 (some 1) false 20) = some _ from rfl)
  have hm' : Meets Steady [(oneTimer.poll 10, Op.addTimer 2 5 (some 1) false 20)] :=
    Run.meets_cons.mpr ⟨⟨by decide, by decide, show 20 + 5 < 2 ^ 64 by decide⟩, fun p hp => nomatch hp⟩
  have hop : Meets (fun _ op => ∀ now, op ≠ Op.getNextTimer now)
      [(oneTimer.poll 10, Op.addTimer 2 5 (some 1) false 20)] :=
    Run.meets_cons.mpr ⟨fun now h => (nomatch h), fun p hp => nomatch hp⟩
  exact ⟨_, _, by decide, hr', rfl, by decide,
    no_missed_wakeup (a := 2) 0 hr hm (by decide) (by decide) hr' hm' hop (by decide) (.inr (by decide))⟩

end Clocked

end LjrServer.Timers
