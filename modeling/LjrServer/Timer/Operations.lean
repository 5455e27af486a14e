/-
  LjrServer.Timer.Operations — what each operation of `Timer` and `TimerManager` does.

  An operation is known by what it does to the timers themselves (`heap`), to `m_tickled`,
  by whether it calls `onTimerInsertedAtFront`, and by what the set holds after it.

  Proved:
  - `Op.exec_done`: a legal operation goes through, keeps the set in order and has its
    `Effect`.
  - `timers_kept`: in every run that adds timers with callbacks, a timer is in the set exactly
    when it has one, the set is strictly sorted by (m_next, address), and no operation erases
    or reads `end()`.
-/

import LjrServer.Lib.Runs
import LjrServer.Timer.Ordering

namespace LjrServer.Timers

open LjrServer.Lib

/-- A timer whose callback was taken: armed again, or out for good. -/
def Timer.fired (now : UInt64) (t : Timer) : Timer :=
  if t.recurring then { t with next := now + t.ms } else { t with cb := none }

/-- `listExpiredCb` takes the timers of the set that are due, and all of them when the clock went back. -/
def Timer.due (now : UInt64) (rollover : Bool) (t : Timer) : Bool := rollover || t.next ≤ now

/-- The timer `b` is in the set after the operation. -/
def Op.Member (m : TimerManager) (b : Addr) : Op → Prop
  | .addTimer a _ _ _ _ => b = a ∨ b ∈ m.timers
  | .cancel a => b ∈ m.timers ∧ (b = a → ∀ t, m.heap a = some t → t.cb = none)
  | .listExpiredCb now _ =>
    b ∈ m.timers ∧ ∀ t, m.heap b = some t → t.due now (m.detectClockRollover now).1 = true → t.recurring = true
  | _ => b ∈ m.timers

namespace TimerManager

/-- The condition of `detectClockRollover`. -/
def rollover (m : TimerManager) (now : UInt64) : Bool := (m.detectClockRollover now).1

/-- The timer `a` was put into the set by the protected `addTimer`. -/
structure Added (m m' : TimerManager) (out : Outcome) (a : Addr) : Prop where
  tickled : m'.tickled = (m.tickled || out.insertedAtFront)
  front : out.insertedAtFront = true ↔ m.tickled = false ∧ ∀ b ∈ m'.timers, b = a ∨ m'.lt a b = true
  previous : m'.previousTime = m.previousTime

/-- Nothing was reported. -/
structure Silent (m m' : TimerManager) (out : Outcome) : Prop where
  tickled : m'.tickled = m.tickled
  front : out.insertedAtFront = false
  previous : m'.previousTime = m.previousTime

/-- The due timers of the set were fired, and those that recur are still in it. -/
structure Fired (m m' : TimerManager) (now : UInt64) (rollover : Bool) : Prop where
  heap : m'.heap = fun a => (m.heap a).map fun t => if a ∈ m.timers ∧ t.due now rollover = true then t.fired now else t
  mem : ∀ b, b ∈ m'.timers ↔ b ∈ m.timers ∧ ∀ t, m.heap b = some t → t.due now rollover = true → t.recurring = true

/-- What one round of expiring leaves. -/
structure Expired (m m' : TimerManager) (out : Outcome) (now : UInt64) : Prop where
  fired : Fired m m' now (m.rollover now)
  tickled : m'.tickled = m.tickled
  front : out.insertedAtFront = false
  previous : m'.previousTime = m.previousTime ∨ m'.previousTime = now

inductive Effect (m m' : TimerManager) (out : Outcome) : Op → Prop
  | addTimer {a : Addr} {ms : UInt64} {cb : Option Cb} {recurring : Bool} {now : UInt64} :
      m'.heap = (m.set a (some { recurring, ms, next := now + ms, cb })).heap → Added m m' out a →
      Effect m m' out (.addTimer a ms cb recurring now)
  | cancel {a : Addr} {t : Timer} : m.heap a = some t → m'.heap = (m.set a (some { t with cb := none })).heap →
      Silent m m' out → Effect m m' out (.cancel a)
  | refresh {a : Addr} {now : UInt64} {t : Timer} : m.heap a = some t →
      m'.heap = (m.set a (some (if t.cb = none then t else { t with next := now + t.ms }))).heap → Silent m m' out →
      Effect m m' out (.refresh a now)
  | noReset {a : Addr} {ms : UInt64} {fromNow : Bool} {now : UInt64} : m'.heap = m.heap → Silent m m' out →
      Effect m m' out (.reset a ms fromNow now)
  | reset {a : Addr} {ms : UInt64} {fromNow : Bool} {now : UInt64} {t : Timer} : m.heap a = some t → t.cb ≠ none →
      m'.heap = (m.set a (some { t with ms, next := (if fromNow then now else t.next - t.ms) + ms })).heap →
      Added m m' out a → Effect m m' out (.reset a ms fromNow now)
  | getNextTimer {now : UInt64} : m'.heap = m.heap → m'.tickled = false → m'.previousTime = m.previousTime →
      Effect m m' out (.getNextTimer now)
  | listExpiredCb {now : UInt64} {nowTimer : Addr} : Expired m m' out now → Effect m m' out (.listExpiredCb now nowTimer)
  | release {a : Addr} : m'.heap = (m.set a none).heap → Silent m m' out → Effect m m' out (.release a)

/-- All of what an operation does. -/
structure Done (m m' : TimerManager) (out : Outcome) (op : Op) : Prop where
  kept : Kept m'
  effect : Effect m m' out op
  mem : ∀ b, b ∈ m'.timers ↔ op.Member m b

theorem set_same {m : TimerManager} {a : Addr} {t : Timer} (ht : m.heap a = some t) : (m.set a (some t)).heap = m.heap := by
  funext b
  by_cases e : b = a
  · rw [e, set_heap_self, ht]
  · exact set_heap_other m _ e

theorem next_eq {m : TimerManager} {a : Addr} {t : Timer} (ht : m.heap a = some t) : m.next a = t.next := by
  rw [next, ht]

/-! ## Adding and withdrawing -/

theorem addTimerLocked_spec {m : TimerManager} {a : Addr} (h : KeptBut [a] m) (out : Outcome)
    (hout : out.insertedAtFront = (m.addTimerLocked a).1) :
    Kept (m.addTimerLocked a).2 ∧ Added m (m.addTimerLocked a).2 out a ∧
      ∀ b, b ∈ (m.addTimerLocked a).2.timers ↔ b = a ∨ b ∈ m.timers := by
  have hin := h.insert
  have ha := (h.apart a List.mem_cons_self).1
  obtain ⟨_, hmem, hfront⟩ := OrderedSet.insert_new m.lt_strictTotal h.sorted ha
  refine ⟨⟨hin.sorted, hin.live, hin.member, hin.apart, .nil⟩, ⟨by rw [hout]; rfl, ?_, rfl⟩, hmem⟩
  rw [hout, addTimerLocked]
  simp only [Bool.and_eq_true, beq_iff_eq, Bool.not_eq_true', hfront, hmem]
  rw [and_comm]
  refine and_congr_right fun _ => ⟨?_, ?_⟩
  · rintro hall b (rfl | hb)
    · exact .inl rfl
    · exact .inr (hall b hb)
  · intro hall b hb
    exact (hall b (.inr hb)).resolve_left (ne_of_mem_of_not_mem hb ha)

theorem addTimer_spec {m : TimerManager} (h : Kept m) {a : Addr} (hfree : m.heap a = none) (ms : UInt64) (cb : Option Cb)
    (recurring : Bool) (now : UInt64) :
    ∃ out m', m.addTimer a ms cb recurring now = some (out, m') ∧ Done m m' out (.addTimer a ms cb recurring now) := by
  have hnew := h.new hfree { recurring, ms, next := now + ms, cb }
  obtain ⟨hk, hadd, hmem⟩ := addTimerLocked_spec hnew { insertedAtFront := (addTimerLocked _ a).1 } rfl
  exact ⟨_, _, rfl, hk, .addTimer rfl ⟨hadd.tickled, hadd.front, rfl⟩, hmem⟩

theorem cancel_spec {m : TimerManager} (h : Kept m) {a : Addr} (hlive : m.heap a ≠ none) :
    ∃ out m', m.cancel a = some (out, m') ∧ Done m m' out (.cancel a) := by
  obtain ⟨t, ht⟩ := Option.ne_none_iff_exists'.mp hlive
  unfold cancel
  rw [ht, Option.bind_eq_bind, Option.bind_some]
  by_cases hcb : t.cb = none
  · rw [if_neg (by rw [hcb]; decide)]
    have hsame : ({ t with cb := none } : Timer) = t := by rw [← hcb]
    refine ⟨_, m, rfl, h, .cancel ht (by rw [hsame, set_same ht]) ⟨rfl, rfl, rfl⟩, fun b => ?_⟩
    refine ⟨fun hb => ⟨hb, fun _ t' ht' => ?_⟩, fun hb => hb.1⟩
    cases ht.symm.trans ht'
    exact hcb
  · rw [if_pos (Option.isSome_iff_ne_none.mpr hcb)]
    obtain ⟨_, timers, herase, hout, hmem⟩ := h.erase (h.mem ht hcb)
    -- the deadlines, hence the order, are still those of before
    have hlt : (m.set a (some { t with cb := none })).lt = m.lt := by
      have hnext : (m.set a (some { t with cb := none })).next = m.next := by
        funext b
        by_cases e : b = a
        · rw [e, set_next_self, next_eq ht]
        · exact set_next_other m _ e
      funext b c
      rw [lt, lt, hnext]
    simp only [hlt, set_timers, herase, Option.bind_eq_bind, Option.bind_some]
    refine ⟨_, _, rfl, hout.drop t, .cancel ht rfl ⟨rfl, rfl, rfl⟩, fun b => (hmem b).trans (and_congr_right fun _ => ?_)⟩
    exact ⟨fun hne heq => absurd heq hne, fun hnone heq => hcb (hnone heq t ht)⟩

/-- A member that was taken out and put back. -/
theorem back_in {m : TimerManager} {a : Addr} {timers : List Addr} (ha : a ∈ m.timers)
    (hmem : ∀ b, b ∈ timers ↔ b ∈ m.timers ∧ b ≠ a) (b : Addr) : b = a ∨ b ∈ timers ↔ b ∈ m.timers := by
  rw [hmem]
  constructor
  · rintro (rfl | ⟨hb, _⟩)
    · exact ha
    · exact hb
  · intro hb
    by_cases e : b = a
    · exact .inl e
    · exact .inr ⟨hb, e⟩

theorem refresh_spec {m : TimerManager} (h : Kept m) {a : Addr} (hlive : m.heap a ≠ none) (now : UInt64) :
    ∃ out m', m.refresh a now = some (out, m') ∧ Done m m' out (.refresh a now) := by
  obtain ⟨t, ht⟩ := Option.ne_none_iff_exists'.mp hlive
  unfold refresh
  rw [ht, Option.bind_eq_bind, Option.bind_some]
  by_cases hcb : t.cb = none
  · rw [if_pos (by rw [hcb]; rfl)]
    exact ⟨_, m, rfl, h, .refresh ht (by rw [if_pos hcb, set_same ht]) ⟨rfl, rfl, rfl⟩, fun _ => Iff.rfl⟩
  · have ha := h.mem ht hcb
    obtain ⟨hfind, timers, herase, hout, hmem⟩ := h.erase ha
    rw [if_neg (by simpa using hcb)]
    simp only [if_neg hfind, herase, Option.bind_eq_bind, Option.bind_some]
    have hchange := hout.change { t with next := now + t.ms }
    obtain ⟨_, hin⟩ := hchange.ordered.insert (hchange.apart a List.mem_cons_self).1
      (hchange.apart a List.mem_cons_self).2
    exact ⟨_, _, rfl, hchange.insert, .refresh ht (by rw [if_neg hcb]; rfl) ⟨rfl, rfl, rfl⟩,
      fun b => (hin b).trans (back_in ha hmem b)⟩

theorem reset_spec {m : TimerManager} (h : Kept m) {a : Addr} (hlive : m.heap a ≠ none) (ms : UInt64) (fromNow : Bool)
    (now : UInt64) :
    ∃ out m', m.reset a ms fromNow now = some (out, m') ∧ Done m m' out (.reset a ms fromNow now) := by
  obtain ⟨t, ht⟩ := Option.ne_none_iff_exists'.mp hlive
  unfold reset
  rw [ht, Option.bind_eq_bind, Option.bind_some]
  split
  · exact ⟨_, m, rfl, h, .noReset rfl ⟨rfl, rfl, rfl⟩, fun _ => Iff.rfl⟩
  · by_cases hcb : t.cb = none
    · rw [if_pos (by rw [hcb]; rfl)]
      exact ⟨_, m, rfl, h, .noReset rfl ⟨rfl, rfl, rfl⟩, fun _ => Iff.rfl⟩
    · have ha := h.mem ht hcb
      obtain ⟨hfind, timers, herase, hout, hmem⟩ := h.erase ha
      rw [if_neg (by simpa using hcb)]
      simp only [if_neg hfind, herase, Option.bind_eq_bind, Option.bind_some]
      have hchange := hout.change { t with ms, next := (if fromNow then now else t.next - t.ms) + ms }
      obtain ⟨hk, hadd, hin⟩ := addTimerLocked_spec hchange { insertedAtFront := (addTimerLocked _ a).1 } rfl
      exact ⟨_, _, rfl, hk, .reset ht hcb rfl ⟨hadd.tickled, hadd.front, rfl⟩, fun b => (hin b).trans (back_in ha hmem b)⟩

/-! ## Expiring -/

/-- The loop over the expired timers, whatever else they are: each is fired, and the recurring
    ones are back in the set. -/
theorem rearm_ordered (now : UInt64) : ∀ {expired : List Addr} {m : TimerManager}, Ordered m → expired.Nodup →
    (∀ a ∈ expired, a ∉ m.timers ∧ m.heap a ≠ none) →
    ∃ m', m.rearm now expired = some (expired.map fun a => (m.heap a).bind (·.cb), m') ∧ Ordered m' ∧
      m'.tickled = m.tickled ∧ m'.previousTime = m.previousTime ∧
      (m'.heap = fun a => if a ∈ expired then (m.heap a).map (Timer.fired now) else m.heap a) ∧
      ∀ a, a ∈ m'.timers ↔ a ∈ m.timers ∨ a ∈ expired ∧ ∃ t, m.heap a = some t ∧ t.recurring = true := by
  intro expired
  induction expired with
  | nil => exact fun h _ _ => ⟨_, rfl, h, rfl, rfl, rfl, fun a => by simp⟩
  | cons a expired ih =>
    intro m h hnodup hapart
    obtain ⟨hain, hlive⟩ := hapart a List.mem_cons_self
    obtain ⟨t, ht⟩ := Option.ne_none_iff_exists'.mp hlive
    obtain ⟨haout, hnodup'⟩ := List.nodup_cons.mp hnodup
    -- the rest of the loop, from the state the first round leaves
    have hrest : ∀ m₁ : TimerManager, Ordered m₁ → m₁.heap = (m.set a (some (t.fired now))).heap →
        (∀ b, b ∈ m₁.timers ↔ b ∈ m.timers ∨ b = a ∧ t.recurring = true) →
        m₁.tickled = m.tickled → m₁.previousTime = m.previousTime →
        ∃ m', m₁.rearm now expired = some (expired.map fun a => (m.heap a).bind (·.cb), m') ∧ Ordered m' ∧
          m'.tickled = m.tickled ∧ m'.previousTime = m.previousTime ∧
          (m'.heap = fun b => if b ∈ a :: expired then (m.heap b).map (Timer.fired now) else m.heap b) ∧
          ∀ b, b ∈ m'.timers ↔ b ∈ m.timers ∨ b ∈ a :: expired ∧ ∃ t, m.heap b = some t ∧ t.recurring = true := by
      intro m₁ ho₁ hheap₁ hmem₁ htick₁ hprev₁
      have hother : ∀ b ∈ expired, m₁.heap b = m.heap b := fun b hb => by
        rw [hheap₁, set_heap_other m _ (ne_of_mem_of_not_mem hb haout)]
      have hapart₁ : ∀ b ∈ expired, b ∉ m₁.timers ∧ m₁.heap b ≠ none := by
        intro b hb
        obtain ⟨hbin, hblive⟩ := hapart b (List.mem_cons_of_mem _ hb)
        refine ⟨?_, by rw [hother b hb]; exact hblive⟩
        rw [hmem₁]
        rintro (hb' | ⟨rfl, _⟩)
        · exact hbin hb'
        · exact haout hb
      obtain ⟨m', hm', ho', htick', hprev', hheap', hmem'⟩ := ih ho₁ hnodup' hapart₁
      refine ⟨m', ?_, ho', htick'.trans htick₁, hprev'.trans hprev₁, ?_, ?_⟩
      · rw [hm']
        have hcbs : (expired.map fun b => (m₁.heap b).bind (·.cb)) = expired.map fun b => (m.heap b).bind (·.cb) :=
          List.map_congr_left fun b hb => by rw [hother b hb]
        rw [hcbs]
      · rw [hheap', hheap₁]
        funext b
        by_cases e : b = a
        · rw [e, if_neg haout, if_pos List.mem_cons_self, set_heap_self, ht]
          rfl
        · rw [set_heap_other m _ e]
          simp only [List.mem_cons, e, false_or]
      · intro b
        rw [hmem', hmem₁]
        by_cases e : b = a
        · subst e
          simp [ht, haout]
        · rw [hheap₁, set_heap_other m _ e]
          simp only [e, false_and, or_false, List.mem_cons, false_or]
    unfold rearm
    rw [ht, Option.bind_eq_bind, Option.bind_some]
    cases hrec : t.recurring with
    | true =>
      have hset := h.set hain (some { t with next := now + t.ms })
      obtain ⟨ho, hmem⟩ := hset.insert hain (by rw [set_heap_self]; exact Option.some_ne_none _)
      obtain ⟨m', hm', hspec⟩ := hrest _ ho (by rw [Timer.fired, if_pos hrec])
        (fun b => (hmem b).trans (by rw [hrec, or_comm]; simp)) rfl rfl
      simp only [hrec, if_true] at hm' ⊢
      rw [hm']
      exact ⟨m', by rw [List.map_cons, ht]; rfl, hspec⟩
    | false =>
      have hset := h.set hain (some { t with cb := none })
      obtain ⟨m', hm', hspec⟩ := hrest _ hset (by rw [Timer.fired, hrec]; rfl)
        (fun b => by rw [set_timers, hrec]; simp) rfl rfl
      simp only [hrec, Bool.false_eq_true, if_false] at hm' ⊢
      rw [hm']
      exact ⟨m', by rw [List.map_cons, ht]; rfl, hspec⟩

theorem rearm_spec (now : UInt64) {expired : List Addr} {m : TimerManager} (h : KeptBut expired m) :
    ∃ m', m.rearm now expired = some (expired.map fun a => (m.heap a).bind (·.cb), m') ∧ Kept m' ∧
      m'.tickled = m.tickled ∧ m'.previousTime = m.previousTime ∧
      (m'.heap = fun a => if a ∈ expired then (m.heap a).map (Timer.fired now) else m.heap a) ∧
      ∀ a, a ∈ m'.timers ↔ a ∈ m.timers ∨ a ∈ expired ∧ ∃ t, m.heap a = some t ∧ t.recurring = true := by
  obtain ⟨m', hm', ⟨hs, hlive⟩, htick, hprev, hheap, hmem⟩ := rearm_ordered now h.ordered h.nodup h.apart
  refine ⟨m', hm', ⟨hs, hlive, ?_, fun _ h => (List.not_mem_nil h).elim, .nil⟩, htick, hprev, hheap, hmem⟩
  intro a u hu hcb
  rw [hheap] at hu
  refine .inl ((hmem a).mpr ?_)
  by_cases ha : a ∈ expired
  · simp only [ha, if_true] at hu
    obtain ⟨t, ht, rfl⟩ := Option.map_eq_some_iff.mp hu
    refine .inr ⟨ha, t, ht, Classical.byContradiction fun hrec => ?_⟩
    rw [Timer.fired, if_neg hrec] at hcb
    exact hcb rfl
  · simp only [ha, if_false] at hu
    exact .inl ((h.member a u hu hcb).resolve_right ha)

/-- The timers `listExpiredCb` takes are the due ones. -/
theorem take_expired {m : TimerManager} (h : Ordered m) (now : UInt64) (rollover : Bool) {nowTimer : Addr}
    (hfree : m.heap nowTimer = none) :
    (∀ a ∈ m.timers.take (m.expiredCount now rollover nowTimer), rollover = true ∨ m.next a ≤ now) ∧
      ∀ a ∈ m.timers.drop (m.expiredCount now rollover nowTimer), rollover = false ∧ now < m.next a := by
  unfold expiredCount
  cases rollover with
  | true =>
    rw [if_pos rfl, List.drop_length]
    exact ⟨fun a _ => .inl rfl, fun a ha => nomatch ha⟩
  | false =>
    rw [if_neg Bool.false_ne_true]
    have hne : ∀ a ∈ m.timers, a ≠ nowTimer := by
      rintro a ha rfl
      exact h.live a ha hfree
    have hs : OrderedSet.Sorted (m.set nowTimer (some { next := now })).lt m.timers :=
      sorted_congr (fun a ha => set_next_other m _ (hne a ha)) h.sorted
    obtain ⟨hbefore, hafter⟩ := OrderedSet.lowerBound_split (x := nowTimer) (lt_strictTotal _) hs
    generalize OrderedSet.lowerBound (m.set nowTimer (some { next := now })).lt m.timers nowTimer = it at hbefore hafter
    -- from the lower bound on the deadlines are at least `now`, and increase
    have hge : ∀ a ∈ m.timers.drop it, now ≤ m.next a := by
      intro a ha
      have hnot := hafter a ha
      rw [← Bool.not_eq_true, lt_iff, set_next_other m _ (hne a (List.mem_of_mem_drop ha)), set_next_self, not_or] at hnot
      exact UInt64.not_lt.mp hnot.1
    have hgt : ∀ a ∈ (m.timers.drop it).dropWhile (fun a => m.next a == now), now < m.next a := by
      have hsd := h.sorted.sublist (List.drop_sublist it m.timers)
      generalize m.timers.drop it = xs at hge hsd
      induction xs with
      | nil => exact fun a ha => nomatch ha
      | cons x xs ih =>
        obtain ⟨hfirst, hsd'⟩ := List.pairwise_cons.mp hsd
        obtain ⟨hx, hxs⟩ := List.forall_mem_cons.mp hge
        cases hxe : m.next x == now with
        | true =>
          rw [List.dropWhile_cons_of_pos (by exact hxe)]
          exact ih hxs hsd'
        | false =>
          rw [List.dropWhile_cons_of_neg (by rw [hxe]; decide)]
          have hlt : now < m.next x := UInt64.lt_of_le_of_ne hx (Ne.symm (by simpa using hxe))
          refine List.forall_mem_cons.mpr ⟨hlt, fun a ha => ?_⟩
          rcases (lt_iff m x a).mp (hfirst a ha) with hxa | ⟨hxa, _⟩
          · exact UInt64.lt_trans hlt hxa
          · exact hxa ▸ hlt
    obtain ⟨htake, hdrop⟩ := OrderedSet.skip_split m.timers it fun a => m.next a == now
    refine ⟨?_, fun a ha => ⟨rfl, hgt a (hdrop ▸ ha)⟩⟩
    intro a ha
    rw [htake, List.mem_append] at ha
    refine .inr ?_
    rcases ha with ha | ha
    · have hlt := hbefore a ha
      rw [lt_iff, set_next_other m _ (hne a (List.mem_of_mem_take ha)), set_next_self] at hlt
      rcases hlt with hlt | ⟨he, _⟩
      · exact UInt64.le_of_lt hlt
      · exact UInt64.le_of_eq he
    · have := List.all_takeWhile (p := fun a => m.next a == now) (l := m.timers.drop it)
      rw [List.all_eq_true] at this
      exact UInt64.le_of_eq (by simpa using this a ha)

theorem due_iff {m : TimerManager} {now : UInt64} {rollover : Bool} {a : Addr} {t : Timer} (ht : m.heap a = some t) :
    t.due now rollover = true ↔ rollover = true ∨ m.next a ≤ now := by
  rw [Timer.due, Bool.or_eq_true, decide_eq_true_eq, next_eq ht]

/-- The timers taken, as a part of the set. -/
theorem take_eq_filter {m : TimerManager} (h : Ordered m) (now : UInt64) (rollover : Bool) {nowTimer : Addr}
    (hfree : m.heap nowTimer = none) :
    m.timers.take (m.expiredCount now rollover nowTimer) = m.timers.filter fun a => rollover || m.next a ≤ now := by
  obtain ⟨htake, hdrop⟩ := take_expired h now rollover hfree
  conv => rhs; rw [← List.take_append_drop (m.expiredCount now rollover nowTimer) m.timers]
  rw [List.filter_append, List.filter_eq_self.mpr, List.filter_eq_nil_iff.mpr, List.append_nil]
  · intro a ha
    obtain ⟨hr, hlt⟩ := hdrop a ha
    simp only [hr, Bool.false_or, decide_eq_true_eq]
    exact UInt64.not_le.mpr hlt
  · intro a ha
    rw [Bool.or_eq_true, decide_eq_true_eq]
    exact htake a ha

/-- When the first deadline is still to come, so is every other. -/
theorem notDue_all {m : TimerManager} (h : Ordered m) {now : UInt64} {rollover : Bool} (hd : m.notDue now rollover = some true) :
    rollover = false ∧ ∀ a ∈ m.timers, now < m.next a := by
  unfold notDue at hd
  cases rollover with
  | true => cases hd
  | false =>
    refine ⟨rfl, ?_⟩
    rw [if_neg Bool.false_ne_true] at hd
    have hs := h.sorted
    cases hts : m.timers with
    | nil => exact fun a ha => nomatch ha
    | cons first rest =>
      rw [hts] at hd hs
      have hlt : now < m.next first := by simpa using hd
      obtain ⟨hfirst, _⟩ := List.pairwise_cons.mp hs
      refine List.forall_mem_cons.mpr ⟨hlt, fun a ha => ?_⟩
      rcases (lt_iff m first a).mp (hfirst a ha) with hfa | ⟨hfa, _⟩
      · exact UInt64.lt_trans hlt hfa
      · exact hfa ▸ hlt

theorem notDue_some {m : TimerManager} {now : UInt64} {rollover : Bool} (hne : rollover = true ∨ m.timers ≠ []) :
    ∃ b, m.notDue now rollover = some b := by
  unfold notDue
  cases rollover with
  | true => exact ⟨false, rfl⟩
  | false =>
    obtain ⟨first, rest, hts⟩ := List.exists_cons_of_ne_nil (hne.resolve_left Bool.false_ne_true)
    exact ⟨_, by rw [hts]; rfl⟩

/-- A timer that is in the set afterwards was left alone, or is recurring and fired. -/
theorem Fired.left {m m' : TimerManager} {now : UInt64} {rollover : Bool} (h : Fired m m' now rollover) {a : Addr}
    {t' : Timer} (ha : a ∈ m'.timers) (ht' : m'.heap a = some t') : ∃ t, m.heap a = some t ∧ a ∈ m.timers ∧
      (t.due now rollover = false ∧ t' = t ∨
        t.due now rollover = true ∧ t.recurring = true ∧ t' = { t with next := now + t.ms }) := by
  obtain ⟨hmem, hrec⟩ := (h.mem a).mp ha
  rw [h.heap] at ht'
  obtain ⟨t, ht, rfl⟩ := Option.map_eq_some_iff.mp ht'
  refine ⟨t, ht, hmem, ?_⟩
  cases hdue : t.due now rollover with
  | false => exact .inl ⟨rfl, if_neg fun h => Bool.false_ne_true h.2⟩
  | true => exact .inr ⟨rfl, hrec t ht hdue, by rw [if_pos ⟨hmem, rfl⟩, Timer.fired, if_pos (hrec t ht hdue)]⟩

/-- Nothing is due, and nothing happens. -/
theorem fired_nothing {m : TimerManager} {now : UInt64} {rollover : Bool}
    (h : ∀ a ∈ m.timers, ¬ (rollover = true ∨ m.next a ≤ now)) : Fired m m now rollover := by
  have hnot : ∀ a t, m.heap a = some t → ¬ (a ∈ m.timers ∧ t.due now rollover = true) := by
    rintro a t ht ⟨ha, hdue⟩
    exact h a ha ((due_iff ht).mp hdue)
  refine ⟨?_, fun b => (and_iff_left_of_imp fun hb t ht hdue => absurd ⟨hb, hdue⟩ (hnot b t ht)).symm⟩
  funext a
  cases ht : m.heap a with
  | none => rfl
  | some t => rw [Option.map_some, if_neg (hnot a t ht)]

theorem fire_spec {m : TimerManager} (h : Kept m) (now : UInt64) (rollover : Bool) {nowTimer : Addr}
    (hfree : m.heap nowTimer = none) (hne : rollover = true ∨ m.timers ≠ []) :
    ∃ out m', m.fire now rollover nowTimer = some (out, m') ∧ Kept m' ∧ Fired m m' now rollover ∧ Silent m m' out := by
  unfold fire
  obtain ⟨early, hearly⟩ : ∃ early, m.notDue now rollover = some early := notDue_some hne
  rw [hearly, Option.bind_eq_bind, Option.bind_some]
  cases early with
  | true =>
    obtain ⟨rfl, hall⟩ := notDue_all h.ordered hearly
    refine ⟨_, m, rfl, h, fired_nothing fun a ha hdue => ?_, ⟨rfl, rfl, rfl⟩⟩
    exact UInt64.not_le.mpr (hall a ha) (hdue.resolve_left Bool.false_ne_true)
  | false =>
    obtain ⟨m', hm', hk', htick, hprev, hheap, hmem⟩ := rearm_spec now (h.takeOut (m.expiredCount now rollover nowTimer))
    simp only [Bool.false_eq_true, if_false, hm', Option.bind_eq_bind, Option.bind_some]
    -- the timers taken are the due ones
    have htaken : ∀ a t, m.heap a = some t →
        (a ∈ m.timers.take (m.expiredCount now rollover nowTimer) ↔ a ∈ m.timers ∧ t.due now rollover = true) := by
      intro a t ht
      rw [take_eq_filter h.ordered now rollover hfree, List.mem_filter, due_iff ht, Bool.or_eq_true, decide_eq_true_eq]
    refine ⟨_, m', rfl, hk', ⟨?_, fun b => (hmem b).trans ?_⟩, ⟨htick, rfl, hprev⟩⟩
    · rw [hheap]
      funext a
      cases ht : m.heap a with
      | none => simp
      | some t =>
        simp only [htaken a t ht, Option.map_some]
        split <;> rfl
    · rw [h.ordered.mem_drop]
      dsimp only
      constructor
      · rintro (⟨hb, hnot⟩ | ⟨hb, t, ht, hrec⟩)
        · exact ⟨hb, fun t ht hdue => absurd ((htaken b t ht).mpr ⟨hb, hdue⟩) hnot⟩
        · refine ⟨((htaken b t ht).mp hb).1, fun t' ht' _ => ?_⟩
          cases ht.symm.trans ht'
          exact hrec
      · rintro ⟨hb, hrec⟩
        obtain ⟨t, ht⟩ := Option.ne_none_iff_exists'.mp (h.live b hb)
        by_cases hdue : t.due now rollover = true
        · exact .inr ⟨(htaken b t ht).mpr ⟨hb, hdue⟩, t, ht, hrec t ht hdue⟩
        · exact .inl ⟨hb, fun htake => hdue ((htaken b t ht).mp htake).2⟩

/-- The second section of `listExpiredCb` fires the due timers, unless it reads `*begin()` of an
    empty set. -/
theorem expire_spec {m : TimerManager} (h : Kept m) (now : UInt64) {nowTimer : Addr} (hfree : m.heap nowTimer = none)
    (hne : m.rollover now = true ∨ m.timers ≠ []) :
    ∃ out m', m.expire now nowTimer = some (out, m') ∧ Kept m' ∧ Expired m m' out now := by
  have hk : Kept { m with previousTime := now } := ⟨h.sorted, h.live, h.member, h.apart, .nil⟩
  obtain ⟨out, m', hm', hk', hfired, hsilent⟩ := fire_spec hk now (m.rollover now) hfree hne
  exact ⟨out, m', hm', hk', ⟨⟨hfired.heap, hfired.mem⟩, hsilent.tickled, hsilent.front, .inr hsilent.previous⟩⟩

theorem listExpiredCb_spec {m : TimerManager} (h : Kept m) (now : UInt64) {nowTimer : Addr} (hfree : m.heap nowTimer = none) :
    ∃ out m', m.listExpiredCb now nowTimer = some (out, m') ∧ Done m m' out (.listExpiredCb now nowTimer) := by
  unfold listExpiredCb noTimer
  by_cases he : m.timers = []
  · rw [he, List.isEmpty_nil, if_pos rfl]
    have hnothing : Fired m m now (m.rollover now) := fired_nothing fun a ha => by
      rw [he] at ha
      cases ha
    exact ⟨_, m, rfl, h, .listExpiredCb ⟨hnothing, rfl, rfl, .inl rfl⟩, hnothing.mem⟩
  · rw [if_neg (by simpa using he)]
    obtain ⟨out, m', hm', hk', hexp⟩ := expire_spec h now hfree (.inr he)
    exact ⟨out, m', hm', hk', .listExpiredCb hexp, hexp.fired.mem⟩

/-! ## Polling and releasing -/

theorem getNextTimer_eq (m : TimerManager) (now : UInt64) : (m.getNextTimer now).2 = { m with tickled := false } := by
  unfold getNextTimer
  cases m.timers <;> rfl

theorem release_kept {m : TimerManager} (h : Kept m) {a : Addr} (ha : a ∉ m.timers) : Kept (m.set a none) := by
  refine ⟨sorted_congr (fun b hb => set_next_other m _ (ne_of_mem_of_not_mem hb ha)) h.sorted, ?_, ?_, ?_, .nil⟩
  · intro b hb
    rw [set_heap_other m _ (ne_of_mem_of_not_mem hb ha)]
    exact h.live b hb
  · intro b t ht hcb
    by_cases e : b = a
    · rw [e, set_heap_self] at ht
      cases ht
    · rw [set_heap_other m _ e] at ht
      exact h.member b t ht hcb
  · intro b hb
    cases hb

end TimerManager

/-! ## Every run -/

open TimerManager in
theorem Op.exec_done {m : TimerManager} (h : Kept m) {op : Op} (hl : op.Legal m) :
    ∃ out m', op.exec m = some (out, m') ∧ Done m m' out op := by
  cases op with
  | addTimer a ms cb recurring now => exact addTimer_spec h hl ms cb recurring now
  | cancel a => exact cancel_spec h hl
  | refresh a now => exact refresh_spec h hl now
  | reset a ms fromNow now => exact reset_spec h hl ms fromNow now
  | getNextTimer now =>
    refine ⟨_, _, rfl, ?_, .getNextTimer ?_ ?_ ?_, fun b => ?_⟩
    · rw [getNextTimer_eq]
      exact ⟨h.sorted, h.live, h.member, h.apart, .nil⟩
    all_goals rw [getNextTimer_eq]
    exact Iff.rfl
  | listExpiredCb now nowTimer => exact listExpiredCb_spec h now hl
  | release a => exact ⟨_, _, rfl, release_kept h hl, .release rfl ⟨rfl, rfl, rfl⟩, fun _ => Iff.rfl⟩

def Op.step (m : TimerManager) (op : Op) : Option TimerManager := (op.exec m).map (·.2)

theorem Op.step_done {m m' : TimerManager} {op : Op} (h : m.Kept) (hl : op.Legal m) (hs : op.step m = some m') :
    ∃ out, op.exec m = some (out, m') ∧ TimerManager.Done m m' out op := by
  obtain ⟨out, m₁, he, hdone⟩ := Op.exec_done h hl
  rw [Op.step, he] at hs
  cases hs
  exact ⟨out, he, hdone⟩

/-- What `m_timers` is at any time between two operations. -/
structure SetInvariant (m : TimerManager) : Prop where
  member : ∀ a t, m.heap a = some t → (a ∈ m.timers ↔ t.cb ≠ none)
  live : ∀ a ∈ m.timers, m.heap a ≠ none
  nodup : m.timers.Nodup
  sorted : m.timers.Pairwise fun a b => m.next a < m.next b ∨ m.next a = m.next b ∧ a < b
  found : ∀ a t, m.heap a = some t → t.cb ≠ none → ∃ i, OrderedSet.find m.lt m.timers a = some i ∧ m.timers[i]? = some a

namespace TimerManager

/-- The timers of the set have callbacks, as long as each was added with one. -/
def Armed (m : TimerManager) : Prop := ∀ a t, a ∈ m.timers → m.heap a = some t → t.cb ≠ none

section
variable {m m' : TimerManager} {a : Addr} {u : Option Timer}

/-- What holds of every timer of the set, and of the one that is set, holds afterwards. -/
theorem set_forall {P : Timer → Prop} (h : ∀ b t, b ∈ m.timers → m.heap b = some t → P t)
    (hheap : m'.heap = (m.set a u).heap) (hmem : ∀ b, b ∈ m'.timers → b ≠ a → b ∈ m.timers)
    (ha : ∀ t, a ∈ m'.timers → u = some t → P t) : ∀ b t, b ∈ m'.timers → m'.heap b = some t → P t := by
  intro b t hb ht
  rw [hheap] at ht
  by_cases e : b = a
  · rw [e, set_heap_self] at ht
    exact ha t (e ▸ hb) ht
  · rw [set_heap_other m u e] at ht
    exact h b t (hmem b hb e) ht

end

theorem armed_step {m m' : TimerManager} {out : Outcome} {op : Op} (h : Armed m) (hc : op.Calls) (hd : Done m m' out op) :
    Armed m' := by
  have hmem := hd.mem
  cases hd.effect with
  | addTimer hheap _ =>
    refine set_forall h hheap (fun b hb e => ((hmem b).mp hb).resolve_left e) ?_
    rintro t _ ⟨⟩
    exact hc
  | @cancel a t ht hheap _ =>
    refine set_forall h hheap (fun b hb _ => ((hmem b).mp hb).1) fun t' hin _ => ?_
    -- it had no callback, and was in the set
    obtain ⟨hin, hnone⟩ := (hmem a).mp hin
    exact absurd (hnone rfl t ht) (h a t hin ht)
  | @refresh a now t ht hheap _ =>
    refine set_forall h hheap (fun b hb _ => (hmem b).mp hb) ?_
    rintro t' hin ⟨⟩
    have hcb := h a t ((hmem a).mp hin) ht
    rw [if_neg hcb]
    exact hcb
  | noReset hheap _ =>
    intro b t hb ht
    exact h b t ((hmem b).mp hb) (hheap ▸ ht)
  | reset ht hcb hheap _ =>
    refine set_forall h hheap (fun b hb _ => (hmem b).mp hb) ?_
    rintro t' _ ⟨⟩
    exact hcb
  | getNextTimer hheap _ _ =>
    intro b t hb ht
    exact h b t ((hmem b).mp hb) (hheap ▸ ht)
  | listExpiredCb hexp =>
    intro b t' hb ht'
    obtain ⟨t, ht, hin, ⟨_, rfl⟩ | ⟨_, _, rfl⟩⟩ := hexp.fired.left hb ht'
    · exact h b t' hin ht
    · exact h b t hin ht
  | release hheap _ => exact set_forall h hheap (fun b hb _ => (hmem b).mp hb) fun t _ ht => nomatch ht

theorem Kept.setInvariant {m : TimerManager} (h : m.Kept) (ha : m.Armed) : SetInvariant m := by
  refine ⟨fun a t ht => ⟨fun hin => ha a t hin ht, h.mem ht⟩, h.live, h.sorted.nodup m.lt_strictTotal, ?_, ?_⟩
  · refine List.Pairwise.imp ?_ h.sorted
    intro a b hab
    exact (m.lt_iff a b).mp hab
  · intro a t ht hcb
    obtain ⟨pre, post, hsplit, hfind⟩ := OrderedSet.find_mem m.lt_strictTotal h.sorted (h.mem ht hcb)
    exact ⟨pre.length, hfind, by rw [hsplit]; simp⟩

end TimerManager

theorem run_kept {now : UInt64} {τ : History TimerManager Op} {m : TimerManager} (hr : Run Op.step (.init now) τ m)
    (hl : Meets (fun m op => op.Legal m ∧ op.Calls) τ) : m.Kept ∧ m.Armed := by
  refine hr.invariant (I := fun m => m.Kept ∧ m.Armed) ⟨TimerManager.init_kept now, fun _ _ hin => nomatch hin⟩ ?_ hl
  intro m op m' ⟨hk, ha⟩ ⟨hlegal, hcalls⟩ hs
  obtain ⟨out, _, hdone⟩ := Op.step_done hk hlegal hs
  exact ⟨hdone.kept, TimerManager.armed_step ha hcalls hdone⟩

/-- In every run the set is as it should be, and whatever is called next goes through. -/
theorem timers_kept (now : UInt64) {τ : History TimerManager Op} {m : TimerManager} (hr : Run Op.step (.init now) τ m)
    (hl : Meets (fun m op => op.Legal m ∧ op.Calls) τ) :
    SetInvariant m ∧ ∀ op : Op, op.Legal m → ∃ out m', op.exec m = some (out, m') := by
  obtain ⟨hk, ha⟩ := run_kept hr hl
  refine ⟨hk.setInvariant ha, fun op hop => ?_⟩
  obtain ⟨out, m', he, _⟩ := Op.exec_done hk hop
  exact ⟨out, m', he⟩

/-- Two timers with one deadline; the recurring one is re-armed and then cancelled. -/
theorem timers_kept_recurring :
    ∃ m, m.heap 8 ≠ none ∧ m.timers = [] ∧ SetInvariant m ∧ ∀ op : Op, op.Legal m → ∃ out m', op.exec m = some (out, m') := by
  obtain ⟨τ, m, hr, hl, ht⟩ := exists_run Op.step (fun m op => op.Legal m ∧ op.Calls) (.init 1)
    [.addTimer 8 5 (some 0) true 5, .addTimer 9 4 (some 1) false 7, .refresh 8 6, .listExpiredCb 20 30, .cancel 8]
    (fun _ m => m.heap 8 ≠ none && m.timers = []) (by decide)
  simp only [Bool.and_eq_true, decide_eq_true_eq] at ht
  exact ⟨m, ht.1, ht.2, timers_kept 1 hr hl⟩

end LjrServer.Timers
