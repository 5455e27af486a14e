/-
  LjrServer.Timer.Expiry — which timers `listExpiredCb` fires, and what it leaves of them.

  The set may hold any timers here, with or without a callback, as long as it is sorted by
  the deadlines as they are.

  Proved:
  - `fire_ordered`: the second section fires the due timers in the order of their deadlines,
    and `listExpiredCb_ordered` the whole call.
  - `listExpiredCb_fires`: the due ones are those whose deadline has come, or all of them
    when the clock went back by more than an hour; `getNextTimer` says whether there are any.
-/

import LjrServer.Timer.Operations

namespace LjrServer.Timers

open LjrServer.Lib

/-- One round of expiring, for the timers of the set that are `due`. -/
structure Fires (m m' : TimerManager) (out : Outcome) (now : UInt64) (due : Addr → Prop) : Prop where
  fired : ∃ fired : List Addr, (∀ a, a ∈ fired ↔ a ∈ m.timers ∧ due a) ∧
    fired.Pairwise (fun a b => a ≠ b ∧ m.next a ≤ m.next b) ∧ out.cbs = fired.map fun a => (m.heap a).bind (·.cb)
  oneShot : ∀ a t, a ∈ m.timers → due a → m.heap a = some t → t.recurring = false →
    a ∉ m'.timers ∧ m'.heap a = some { t with cb := none }
  recurring : ∀ a t, a ∈ m.timers → due a → m.heap a = some t → t.recurring = true →
    a ∈ m'.timers ∧ m'.heap a = some { t with next := now + t.ms }
  others : ∀ a, ¬ (a ∈ m.timers ∧ due a) → m'.heap a = m.heap a ∧ (a ∈ m'.timers ↔ a ∈ m.timers)

/-- An hour, in milliseconds. -/
def hour : Nat := 60 * 60 * 1000

namespace TimerManager

variable {m : TimerManager} {now : UInt64}

/-- Away from the start of time the subtraction in `detectClockRollover` does not wrap. -/
theorem rollover_iff (hprev : hour ≤ m.previousTime.toNat) :
    m.rollover now = true ↔ now.toNat + hour < m.previousTime.toNat := by
  have hsub : (m.previousTime - 60 * 60 * 1000).toNat = m.previousTime.toNat - hour := by
    have hle : (60 * 60 * 1000 : UInt64) ≤ m.previousTime := UInt64.le_iff_toNat_le.mpr hprev
    rw [UInt64.toNat_sub_of_le _ _ hle]
    rfl
  show (decide (now < m.previousTime) && decide (now < m.previousTime - 60 * 60 * 1000)) = true ↔ _
  rw [Bool.and_eq_true, decide_eq_true_eq, decide_eq_true_eq, UInt64.lt_iff_toNat_lt, UInt64.lt_iff_toNat_lt, hsub]
  omega

/-- The set in its order, by deadlines alone. -/
theorem Ordered.deadlines (h : Ordered m) : m.timers.Pairwise fun a b => a ≠ b ∧ m.next a ≤ m.next b := by
  refine (h.sorted.nodup m.lt_strictTotal).and (h.sorted.imp ?_) |>.imp fun h => h
  intro a b hab
  rcases (lt_iff m a b).mp hab with hlt | ⟨he, _⟩
  · exact UInt64.le_of_lt hlt
  · exact UInt64.le_of_eq he

/-- Nothing is due, and nothing happens. -/
theorem fires_nothing {due : Addr → Prop} (hdue : ∀ a ∈ m.timers, ¬ due a) : Fires m m {} now due := by
  refine ⟨⟨[], ?_, .nil, rfl⟩, ?_, ?_, fun a _ => ⟨rfl, Iff.rfl⟩⟩
  · intro a
    simp only [List.not_mem_nil, false_iff, not_and]
    exact hdue a
  · intro a t ha hd
    exact absurd hd (hdue a ha)
  · intro a t ha hd
    exact absurd hd (hdue a ha)

theorem fire_ordered (h : Ordered m) (now : UInt64) (rollover : Bool) {nowTimer : Addr} (hfree : m.heap nowTimer = none)
    (hne : rollover = true ∨ m.timers ≠ []) :
    ∃ out m', m.fire now rollover nowTimer = some (out, m') ∧
      Fires m m' out now fun a => rollover = true ∨ m.next a ≤ now := by
  unfold fire
  obtain ⟨early, hearly⟩ : ∃ early, m.notDue now rollover = some early := notDue_some hne
  rw [hearly, Option.bind_eq_bind, Option.bind_some]
  cases early with
  | true =>
    obtain ⟨rfl, hall⟩ := notDue_all h hearly
    refine ⟨_, m, rfl, fires_nothing fun a ha => ?_⟩
    rintro (hr | hle)
    · cases hr
    · exact UInt64.not_le.mpr (hall a ha) hle
  | false =>
    obtain ⟨hout, hapart⟩ := h.takeOut (m.expiredCount now rollover nowTimer)
    have hnodup := (h.sorted.nodup m.lt_strictTotal).sublist (List.take_sublist (m.expiredCount now rollover nowTimer) _)
    obtain ⟨m', hm', -, -, -, hheap, hmem⟩ := rearm_ordered now hout hnodup hapart
    have htake := take_eq_filter h now rollover hfree
    have hfired : ∀ a, a ∈ m.timers.take (m.expiredCount now rollover nowTimer) ↔
        a ∈ m.timers ∧ (rollover = true ∨ m.next a ≤ now) := by
      intro a
      rw [htake, List.mem_filter, Bool.or_eq_true, decide_eq_true_eq]
    simp only [Bool.false_eq_true, if_false, hm', Option.bind_eq_bind, Option.bind_some]
    refine ⟨_, m', rfl, ⟨⟨_, hfired, ?_, rfl⟩, ?_, ?_, ?_⟩⟩
    · rw [htake]
      exact h.deadlines.filter _
    · intro a t ha hd ht hrec
      have hain := (hfired a).mpr ⟨ha, hd⟩
      refine ⟨?_, ?_⟩
      · rw [hmem, h.mem_drop]
        rintro (⟨_, hnot⟩ | ⟨_, u, hu, hur⟩)
        · exact hnot hain
        · rw [ht] at hu
          cases hu
          rw [hrec] at hur
          cases hur
      · simp only [hheap, hain, if_true, ht, Option.map_some, Timer.fired, hrec, Bool.false_eq_true, if_false]
    · intro a t ha hd ht hrec
      have hain := (hfired a).mpr ⟨ha, hd⟩
      refine ⟨(hmem a).mpr (.inr ⟨hain, t, ht, hrec⟩), ?_⟩
      simp only [hheap, hain, if_true, ht, Option.map_some, Timer.fired, hrec]
    · intro a ha
      have hain := mt (hfired a).mp ha
      refine ⟨by simp only [hheap, hain, if_false], ?_⟩
      rw [hmem, h.mem_drop]
      simp only [hain, false_and, or_false, not_false_eq_true, and_true]

/-- How long it is until the first deadline. -/
theorem getNextTimer_first {first : Addr} {rest : List Addr} (h : m.timers = first :: rest) :
    (m.getNextTimer now).1.toNat = (m.next first).toNat - now.toNat := by
  have hwait : (m.getNextTimer now).1 = if now ≥ m.next first then 0 else m.next first - now := by
    unfold getNextTimer
    dsimp only
    rw [h]
    rfl
  rw [hwait]
  by_cases hle : m.next first ≤ now
  · have hle' := UInt64.le_iff_toNat_le.mp hle
    rw [if_pos hle, Nat.sub_eq_zero_of_le hle']
    rfl
  · rw [if_neg hle, UInt64.toNat_sub_of_le _ _ (UInt64.le_of_lt (UInt64.not_le.mp hle))]

theorem getNextTimer_empty (h : m.timers = []) : (m.getNextTimer now).1 = ~~~0 := by
  unfold getNextTimer
  dsimp only
  rw [h]

theorem getNextTimer_le (h : Ordered m) (now : UInt64) {a : Addr} (ha : a ∈ m.timers) :
    (m.getNextTimer now).1.toNat ≤ (m.next a).toNat - now.toNat := by
  have hs := h.deadlines
  cases hts : m.timers with
  | nil =>
    rw [hts] at ha
    cases ha
  | cons first rest =>
    rw [getNextTimer_first hts]
    rw [hts] at ha hs
    rcases List.mem_cons.mp ha with rfl | ha
    · exact Nat.le_refl _
    · have hle := UInt64.le_iff_toNat_le.mp ((List.pairwise_cons.mp hs).1 a ha).2
      omega

/-- A poll says 0 when a deadline has come, and never when none has. -/
theorem getNextTimer_zero_iff (h : Ordered m) : (m.getNextTimer now).1 = 0 ↔ ∃ a ∈ m.timers, m.next a ≤ now := by
  have hzero : (m.getNextTimer now).1 = 0 ↔ (m.getNextTimer now).1.toNat = 0 := by
    rw [← UInt64.toNat_inj]
    rfl
  constructor
  · intro h0
    cases hts : m.timers with
    | nil =>
      rw [getNextTimer_empty hts] at h0
      exact absurd h0 (by decide)
    | cons first rest =>
      rw [hzero, getNextTimer_first hts] at h0
      exact ⟨first, List.mem_cons_self, UInt64.le_iff_toNat_le.mpr (Nat.sub_eq_zero_iff_le.mp h0)⟩
  · rintro ⟨a, ha, hd⟩
    have hle := getNextTimer_le h now ha
    have hd' := UInt64.le_iff_toNat_le.mp hd
    rw [hzero]
    omega

theorem listExpiredCb_ordered (h : Ordered m) (now : UInt64) {nowTimer : Addr} (hfree : m.heap nowTimer = none) :
    ∃ out m', m.listExpiredCb now nowTimer = some (out, m') ∧
      Fires m m' out now fun a => m.rollover now = true ∨ m.next a ≤ now := by
  unfold listExpiredCb noTimer
  by_cases he : m.timers = []
  · rw [he, List.isEmpty_nil, if_pos rfl]
    exact ⟨_, m, rfl, fires_nothing fun a ha => by rw [he] at ha; cases ha⟩
  · rw [if_neg (by simpa using he)]
    have ho : Ordered { m with previousTime := now } := ⟨h.sorted, h.live⟩
    obtain ⟨out, m', hm', hf⟩ := fire_ordered ho now (m.rollover now) hfree (.inr he)
    exact ⟨out, m', hm', ⟨hf.fired, hf.oneShot, hf.recurring, hf.others⟩⟩

/-- For every set, clock and time of the last round. -/
theorem listExpiredCb_fires (h : Ordered m) (hprev : hour ≤ m.previousTime.toNat) (now : UInt64) {nowTimer : Addr}
    (hfree : m.heap nowTimer = none) :
    (∃ out m', m.listExpiredCb now nowTimer = some (out, m') ∧
      Fires m m' out now fun a => m.previousTime.toNat ≤ now.toNat + hour → m.next a ≤ now) ∧
      ((m.getNextTimer now).1 = 0 ↔ ∃ a ∈ m.timers, m.next a ≤ now) := by
  refine ⟨?_, getNextTimer_zero_iff h⟩
  have hdue : (fun a => m.previousTime.toNat ≤ now.toNat + hour → m.next a ≤ now) =
      fun a => m.rollover now = true ∨ m.next a ≤ now := by
    funext a
    rw [rollover_iff hprev, ← Nat.not_le, ← Decidable.imp_iff_not_or]
  rw [hdue]
  exact listExpiredCb_ordered h now hfree

/-- Two timers with one deadline, one of them with period 0 and for ever. -/
def tied : TimerManager where
  heap a :=
    if a = 8 then some { ms := 5, next := 3600020, cb := some 0 }
    else if a = 9 then some { recurring := true, ms := 0, next := 3600020, cb := some 1 }
    else none
  timers := [8, 9]
  tickled := false
  previousTime := 3600010

theorem listExpiredCb_fires_tied :
    (∃ out m', tied.listExpiredCb 3600020 30 = some (out, m') ∧
      Fires tied m' out 3600020 fun a => tied.previousTime.toNat ≤ (3600020 : UInt64).toNat + hour →
        tied.next a ≤ 3600020) ∧
      ((tied.getNextTimer 3600020).1 = 0 ↔ ∃ a ∈ tied.timers, tied.next a ≤ 3600020) :=
  listExpiredCb_fires ⟨by rw [OrderedSet.Sorted]; decide, by decide⟩ (by decide) 3600020 rfl

end TimerManager

end LjrServer.Timers
