/-
  LjrServer.Timer.Races — `listExpiredCb` on several threads.

  `listExpiredCb` tests under a read lock that there is a timer and reads `*m_timers.begin()`
  under a write lock it takes afterwards. A thread between the two is recorded with the clock
  reading it made; every other operation is one step, of whichever thread.

  Proved:
  - `run_occupied`: the set is empty exactly when the last step that emptied it (a cancel of
    its only timer, an expiry that took every timer and re-armed none) has no `addTimer`
    after it.
  - `reads_end_iff`: in every run a thread in between would read `*begin()` of an empty set
    exactly when the set was left empty so, and the clock did not go back by an hour.
  - `reads_end_after_cancel`: a run that gets there.
-/

import Mathlib.Data.List.Nodup
import LjrServer.Timer.Operations

namespace LjrServer.Timers

open LjrServer.Lib

/-- The manager, and the threads between the two sections of `listExpiredCb`. -/
structure Shared where
  manager : TimerManager
  between : Nat → Option UInt64

inductive Action where
  | op (op : Op)
  | check (thread : Nat) (now : UInt64)
  | expire (thread : Nat) (nowTimer : Addr)
  deriving DecidableEq, Repr

namespace Shared

def init (start : UInt64) : Shared := ⟨.init start, fun _ => none⟩

def setBetween (s : Shared) (thread : Nat) (now : Option UInt64) : Shared :=
  { s with between := fun i => if i = thread then now else s.between i }

def step (s : Shared) : Action → Option Shared
  | .op (.listExpiredCb _ _) => none
  | .op op => (op.step s.manager).map fun manager => { s with manager }
  | .check thread now =>
    if (s.between thread).isSome then none
    else if s.manager.noTimer then some s
    else some (s.setBetween thread (some now))
  | .expire thread nowTimer => do
    let now ← s.between thread
    let (_, manager) ← s.manager.expire now nowTimer
    some ({ s with manager }.setBetween thread none)

def Legal (s : Shared) : Action → Prop
  | .op op => op.Legal s.manager
  | .check _ _ => True
  | .expire _ nowTimer => s.manager.heap nowTimer = none

instance (s : Shared) (a : Action) : Decidable (s.Legal a) :=
  match a with
  | .op op => inferInstanceAs (Decidable (op.Legal s.manager))
  | .check _ _ => inferInstanceAs (Decidable True)
  | .expire _ nowTimer => inferInstanceAs (Decidable (s.manager.heap nowTimer = none))

/-- The second section of the thread, were it next, would evaluate `*m_timers.begin()` of an
    empty set. -/
def ReadsEnd (s : Shared) (thread : Nat) : Prop :=
  ∃ now, s.between thread = some now ∧ s.manager.notDue now (s.manager.rollover now) = none

/-! ## When the set is empty -/

/-- The steps after which the set has a timer. -/
def fills : Action → Bool
  | .op (.addTimer _ _ _ _ _) => true
  | _ => false

/-- The steps that take the last timers: a cancel of the only one, which has a callback, and an
    expiry with every timer due and none recurring. -/
def empties (s : Shared) : Action → Bool
  | .op (.cancel a) => s.manager.timers = [a] && (s.manager.heap a).any (·.cb.isSome)
  | .expire thread _ =>
    (s.between thread).any fun now =>
      s.manager.timers.all fun a => (s.manager.heap a).all fun t => t.due now (s.manager.rollover now) && !t.recurring
  | _ => false

/-- Of the steps that fill or empty the set, the last one filled it. -/
def occupied : History Shared Action → Bool
  | [] => false
  | (s, a) :: τ => if fills a then true else if empties s a then false else occupied τ

theorem nonempty_of_notDue {m : TimerManager} {now : UInt64} (h : m.notDue now (m.rollover now) ≠ none) :
    m.rollover now = true ∨ m.timers ≠ [] := by
  cases hr : m.rollover now with
  | true => exact .inl rfl
  | false =>
    refine .inr fun hts => h ?_
    rw [TimerManager.notDue, hr, if_neg Bool.false_ne_true, hts]
    rfl

theorem expire_none_iff {m : TimerManager} (h : m.Kept) {now : UInt64} {nowTimer : Addr} (hfree : m.heap nowTimer = none) :
    m.expire now nowTimer = none ↔ m.notDue now (m.rollover now) = none := by
  constructor
  · intro he
    cases hd : m.notDue now (m.rollover now) with
    | none => rfl
    | some early =>
      have hne : m.rollover now = true ∨ m.timers ≠ [] := nonempty_of_notDue (by rw [hd]; exact Option.some_ne_none _)
      obtain ⟨out, m', hm', _⟩ := TimerManager.expire_spec h now hfree hne
      rw [hm'] at he
      cases he
  · intro hd
    have hd' : (m.detectClockRollover now).2.notDue now (m.rollover now) = none := hd
    unfold TimerManager.expire TimerManager.fire
    unfold TimerManager.rollover at hd'
    simp only [hd', Option.bind_eq_bind, Option.bind_none]

theorem readsEnd_iff {s : Shared} {thread : Nat} :
    s.ReadsEnd thread ↔ ∃ now, s.between thread = some now ∧ s.manager.timers = [] ∧ s.manager.rollover now = false := by
  refine exists_congr fun now => and_congr_right fun _ => ?_
  unfold TimerManager.notDue
  cases s.manager.rollover now <;> simp

/-- A cancel leaves the set empty exactly when the timer was the only one and had a callback. -/
theorem cancel_occupied {m m' : TimerManager} (h : m.Kept) {a : Addr} {t : Timer} (ht : m.heap a = some t)
    (hmem : ∀ b, b ∈ m'.timers ↔ b ∈ m.timers ∧ (b = a → ∀ t, m.heap a = some t → t.cb = none)) :
    m'.timers ≠ [] ↔ ¬ (m.timers = [a] ∧ t.cb ≠ none) ∧ m.timers ≠ [] := by
  have hother := (h.sorted.nodup m.lt_strictTotal).ne_singleton_iff a
  constructor
  · intro hne
    obtain ⟨b, hb⟩ := List.exists_mem_of_ne_nil _ hne
    obtain ⟨hb, hnone⟩ := (hmem b).mp hb
    refine ⟨?_, List.ne_nil_of_mem hb⟩
    rintro ⟨honly, hcb⟩
    rw [honly, List.mem_singleton] at hb
    exact hcb (hnone hb t ht)
  · rintro ⟨honly, hne⟩
    by_cases hcb : t.cb = none
    · obtain ⟨b, hb⟩ := List.exists_mem_of_ne_nil _ hne
      refine List.ne_nil_of_mem ((hmem b).mpr ⟨hb, fun _ t' ht' => ?_⟩)
      cases ht.symm.trans ht'
      exact hcb
    · obtain ⟨b, hb, hba⟩ := (hother.mp fun heq => honly ⟨heq, hcb⟩).resolve_left hne
      exact List.ne_nil_of_mem ((hmem b).mpr ⟨hb, fun heq => absurd heq hba⟩)

/-- An expiry leaves the set empty exactly when every timer was due and none recurring. -/
theorem expire_occupied {m m' : TimerManager} (h : m.Kept) {now : UInt64} {rollover : Bool}
    (hmem : ∀ b, b ∈ m'.timers ↔
      b ∈ m.timers ∧ ∀ t, m.heap b = some t → t.due now rollover = true → t.recurring = true) :
    m'.timers ≠ [] ↔
      (m.timers.all fun a => (m.heap a).all fun t => t.due now rollover && !t.recurring) = false ∧ m.timers ≠ [] := by
  rw [← Bool.not_eq_true, List.all_eq_true]
  constructor
  · intro hne
    obtain ⟨b, hb⟩ := List.exists_mem_of_ne_nil _ hne
    obtain ⟨hb, hrec⟩ := (hmem b).mp hb
    refine ⟨fun hall => ?_, List.ne_nil_of_mem hb⟩
    obtain ⟨t, ht⟩ := Option.ne_none_iff_exists'.mp (h.live b hb)
    have hb' := hall b hb
    rw [ht, Option.all_some, Bool.and_eq_true, Bool.not_eq_true'] at hb'
    rw [hrec t ht hb'.1] at hb'
    cases hb'.2
  · rintro ⟨hnot, _⟩
    obtain ⟨b, hb⟩ := Classical.not_forall.mp hnot
    obtain ⟨hb, hbt⟩ := Classical.not_imp.mp hb
    refine List.ne_nil_of_mem ((hmem b).mpr ⟨hb, fun t ht hdue => ?_⟩)
    rw [ht, Option.all_some, hdue, Bool.true_and, Bool.not_eq_true', Bool.not_eq_false] at hbt
    exact hbt

/-- What one step does to the set and its emptiness. -/
theorem step_occupied {s s' : Shared} {a : Action} (h : s.manager.Kept) (hl : s.Legal a) (hs : s.step a = some s') :
    s'.manager.Kept ∧
      (s'.manager.timers ≠ [] ↔ fills a = true ∨ empties s a = false ∧ s.manager.timers ≠ []) := by
  cases a with
  | op op =>
    have hop : (op.step s.manager).map (fun manager => { s with manager }) = some s' := by
      cases op <;> first | exact hs | cases hs
    obtain ⟨m', hm', rfl⟩ := Option.map_eq_some_iff.mp hop
    obtain ⟨out, _, hk, _, hmem⟩ := Op.step_done h hl hm'
    refine ⟨hk, ?_⟩
    have hnil : ∀ m : TimerManager, m.timers ≠ [] ↔ ∃ b, b ∈ m.timers := fun m =>
      ⟨List.exists_mem_of_ne_nil _, fun ⟨_, hb⟩ => List.ne_nil_of_mem hb⟩
    cases op with
    | addTimer a ms cb recurring now =>
      exact ⟨fun _ => .inl rfl, fun _ => List.ne_nil_of_mem ((hmem a).mpr (.inl rfl))⟩
    | cancel a =>
      obtain ⟨t, ht⟩ := Option.ne_none_iff_exists'.mp hl
      refine (cancel_occupied h ht hmem).trans ?_
      simp only [fills, empties, ht, Option.any_some, Bool.false_eq_true, false_or, ← Bool.not_eq_true, Bool.and_eq_true,
        decide_eq_true_eq, Option.isSome_iff_ne_none]
    | listExpiredCb now nowTimer => cases hs
    | refresh a now => simp only [fills, empties, hnil, hmem, Op.Member]; simp
    | reset a ms fromNow now => simp only [fills, empties, hnil, hmem, Op.Member]; simp
    | getNextTimer now => simp only [fills, empties, hnil, hmem, Op.Member]; simp
    | release a => simp only [fills, empties, hnil, hmem, Op.Member]; simp
  | check thread now =>
    change (if (s.between thread).isSome then none else if s.manager.noTimer then some s
      else some (s.setBetween thread (some now))) = some s' at hs
    split at hs
    · cases hs
    · split at hs
      · cases hs
        simp [h, fills, empties]
      · cases hs
        refine ⟨h, ?_⟩
        simp [setBetween, fills, empties]
  | expire thread nowTimer =>
    simp only [step, Option.bind_eq_bind] at hs
    obtain ⟨now, hnow, hs⟩ := Option.bind_eq_some_iff.mp hs
    obtain ⟨⟨out, m'⟩, hm', hs⟩ := Option.bind_eq_some_iff.mp hs
    cases hs
    have hne : s.manager.rollover now = true ∨ s.manager.timers ≠ [] := nonempty_of_notDue fun hnone => by
      rw [(expire_none_iff h hl).mpr hnone] at hm'
      cases hm'
    obtain ⟨out', m'', he, hk, hexp⟩ := TimerManager.expire_spec h now hl hne
    rw [hm'] at he
    cases he
    refine ⟨hk, ?_⟩
    simp only [fills, empties, hnow, Option.any_some, Bool.false_eq_true, false_or]
    exact expire_occupied h hexp.fired.mem

/-! ## Every run -/

theorem run_occupied {start : UInt64} {τ : History Shared Action} {s : Shared} (hr : Run step (init start) τ s)
    (hl : Meets Legal τ) : s.manager.Kept ∧ (s.manager.timers ≠ [] ↔ occupied τ = true) := by
  let I (τ : History Shared Action) (s : Shared) : Prop := s.manager.Kept ∧ (s.manager.timers ≠ [] ↔ occupied τ = true)
  refine Run.history (I := I) ?_ ?_ hr hl
  · exact ⟨TimerManager.init_kept start, by simp [init, TimerManager.init, occupied]⟩
  · rintro τ s a s' ⟨hk, hocc⟩ hla hs
    obtain ⟨hk', hiff⟩ := step_occupied hk hla hs
    refine ⟨hk', ?_⟩
    rw [hiff, hocc, occupied]
    cases fills a <;> cases empties s a <;> simp

/-- When a thread between the two sections would read what is not there. -/
theorem reads_end_iff (start : UInt64) {τ : History Shared Action} {s : Shared} (hr : Run step (init start) τ s)
    (hl : Meets Legal τ) (thread : Nat) :
    s.ReadsEnd thread ↔ ∃ now, s.between thread = some now ∧ occupied τ = false ∧ s.manager.rollover now = false := by
  obtain ⟨_, hocc⟩ := run_occupied hr hl
  rw [readsEnd_iff]
  refine exists_congr fun now => and_congr_right fun _ => and_congr_left fun _ => ?_
  rw [← Bool.not_eq_true, ← hocc, ne_eq, Classical.not_not]

/-- A thread finds a timer, another cancels it. -/
theorem reads_end_after_cancel : ∃ τ s, Run step (init 0) τ s ∧ Meets Legal τ ∧ s.ReadsEnd 0 := by
  obtain ⟨τ, s, hr, hl, ht⟩ := exists_run step Legal (init 0)
    [.op (.addTimer 1 10 (some 0) false 0), .check 0 5, .op (.cancel 1)]
    (fun _ s => s.between 0 = some 5 && s.manager.timers = [] && !s.manager.rollover 5) (by decide)
  simp only [Bool.and_eq_true, decide_eq_true_eq, Bool.not_eq_true'] at ht
  exact ⟨τ, s, hr, hl, readsEnd_iff.mpr ⟨5, ht.1.1, ht.1.2, ht.2⟩⟩

/-- After a cancel of the only timer and an `addTimer`, the thread reads a member. -/
theorem reads_end_refilled :
    ∃ τ s, Run step (init 0) τ s ∧ s.between 0 = some 5 ∧
      (s.ReadsEnd 0 ↔ ∃ now, s.between 0 = some now ∧ occupied τ = false ∧ s.manager.rollover now = false) := by
  obtain ⟨τ, s, hr, hl, ht⟩ := exists_run step Legal (init 0)
    [.op (.addTimer 1 10 (some 0) false 0), .check 0 5, .op (.cancel 1), .op (.addTimer 2 10 (some 1) false 6)]
    (fun _ s => s.between 0 = some 5) (by decide)
  exact ⟨τ, s, hr, of_decide_eq_true ht, reads_end_iff 0 hr hl 0⟩

end Shared

end LjrServer.Timers
