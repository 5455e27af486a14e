/-
  LjrServer.Hook.Connect — what `connect_with_timeout` returns, and what it had seen when it
  returned (hook.cpp).

  A call whose registration fails falls through to the same `getsockopt` as one that was
  woken. `SO_ERROR` is 0 there for a connection that is still being made, and `cancelled` is
  not looked at.

  Proved:
  - `step_told`: each statement of the call leaves it with the results its place stands for.
  - `connect_truthful_iff`: 0 is returned for an established connection only, and `ETIMEDOUT`
    for every call that timed out, exactly when no failed registration is covered up.
-/

import LjrServer.Hook.Timeouts

namespace LjrServer.Hook

open LjrServer.Lib LjrServer.IoManager

/-- What `connect_f` returned, whether `addEvent` returned 0, `tinfo->cancelled` where the
    call went on from there, and what `getsockopt` returned and stored. -/
structure Results where
  connect : Option Answer := none
  addEvent : Option Bool := none
  flag : Option Errno := none
  soError : Option (Answer × Option Errno) := none
  deriving DecidableEq, Repr

/-- The connection is being made. -/
def InProgress (a : Answer) : Prop := a.n = -1 ∧ a.errno = some .EINPROGRESS

namespace Results

structure Woken (r : Results) : Prop where
  registered : r.addEvent = some true
  inTime : r.flag = none
  noError : ∃ a : Answer, r.soError = some (a, none) ∧ a.n ≠ -1

/-- `connect_f` returned 0, or the fiber was resumed in time and `SO_ERROR` was 0. -/
def Established (r : Results) : Prop := (∃ a, r.connect = some a ∧ a.n = 0) ∨ r.Woken

structure Truthful (r : Results) (a : Answer) : Prop where
  success : a.n = 0 → r.Established
  timedOut : r.flag ≠ none → a.n ≠ 0 ∧ a.errno = some .ETIMEDOUT

/-- `errno` after the `getsockopt`, and after the assignment from what it stored. -/
def errno (a : Answer) (error : Option Errno) : Option Errno := if a.n = -1 then a.errno else error

/-- After a registration that failed, `getsockopt` fails or finds an error, and if the call
    timed out, that error is the timeout. -/
def Uncovered (r : Results) : Prop :=
  r.addEvent = some false → ∀ a error, r.soError = some (a, error) →
    (a.n = -1 ∨ error ≠ none) ∧ (r.flag ≠ none → errno a error = some .ETIMEDOUT)

/-- What the call knows when it is there. -/
def Told (r : Results) : Pc → Prop
  | .direct => False
  | .calling => r = {}
  | .arming => ∃ a, InProgress a ∧ r = { connect := some a }
  | .adding _ => ∃ a, InProgress a ∧ r = { connect := some a }
  | .rejected _ => ∃ a, InProgress a ∧ r = { connect := some a, addEvent := some false }
  | .yielding _ => ∃ a, InProgress a ∧ r = { connect := some a, addEvent := some true }
  | .parked _ => ∃ a, InProgress a ∧ r = { connect := some a, addEvent := some true }
  | .resumed _ => ∃ a, InProgress a ∧ r = { connect := some a, addEvent := some true }
  | .checking => ∃ a flag, InProgress a ∧ r = { connect := some a, addEvent := some true, flag }
  | .probing => ∃ a ok flag, InProgress a ∧ (ok = true → flag = none) ∧
      r = { connect := some a, addEvent := some ok, flag }
  | .returned a => r.Truthful a ↔ r.Uncovered

/-! ## The exits -/

variable {a : Answer}

theorem minus_one : (-1 : Int) ≠ 0 := by decide

/-- The first call's answer is passed on. -/
theorem returned_first {b : Answer} (hb : b.n = a.n) :
    ({ connect := some a } : Results).Told (.returned b) := by
  refine iff_of_true ⟨fun h0 => .inl ⟨a, rfl, hb.symm.trans h0⟩, fun hflag => absurd rfl hflag⟩ ?_
  intro hadd
  cases hadd

theorem returned_flagged {flag : Option Errno} (hflag : flag = some .ETIMEDOUT) :
    ({ connect := some a, addEvent := some true, flag } : Results).Told (.returned ⟨-1, flag⟩) := by
  refine iff_of_true ⟨fun h0 => absurd h0 minus_one, fun _ => ⟨minus_one, hflag⟩⟩ ?_
  intro hadd
  cases hadd

/-- What is returned after `getsockopt`. -/
def probed (g : Answer) (error : Option Errno) : Answer :=
  if g.n = -1 then ⟨-1, g.errno⟩ else if error = none then ⟨0, none⟩ else ⟨-1, error⟩

theorem probed_zero_iff (g : Answer) (error : Option Errno) : (probed g error).n = 0 ↔ g.n ≠ -1 ∧ error = none := by
  unfold probed
  split
  · rename_i hg
    exact iff_of_false minus_one fun h => h.1 hg
  · rename_i hg
    split
    · rename_i he
      exact iff_of_true rfl ⟨hg, he⟩
    · rename_i he
      exact iff_of_false minus_one fun h => he h.2

theorem probed_errno (g : Answer) (error : Option Errno) : (probed g error).errno = errno g error := by
  unfold probed errno
  split
  · rfl
  · split
    · rename_i he
      exact he.symm
    · rfl

/-- A woken call is past the test of its flag; a rejected one has made none. -/
theorem returned_probed (ha : InProgress a) (g : Answer) (error : Option Errno) {ok : Bool} {flag : Option Errno}
    (hok : ok = true → flag = none) :
    ({ connect := some a, addEvent := some ok, flag, soError := some (g, error) } :
      Results).Told (.returned (probed g error)) := by
  have hnot : ¬ a.n = 0 := ha.1 ▸ minus_one
  cases ok with
  | true =>
    obtain rfl := hok rfl
    refine iff_of_true ⟨fun h0 => .inr ⟨rfl, rfl, ?_⟩, fun hflag => absurd rfl hflag⟩ ?_
    · obtain ⟨hg, rfl⟩ := (probed_zero_iff g error).mp h0
      exact ⟨g, rfl, hg⟩
    · intro hadd
      cases hadd
  | false =>
    constructor
    · rintro h - g' error' hso
      cases hso
      refine ⟨?_, fun hflag => probed_errno g error ▸ (h.timedOut hflag).2⟩
      by_cases h0 : (probed g error).n = 0
      · rcases h.success h0 with ⟨a', ha', h0'⟩ | hwoken
        · cases ha'
          exact absurd h0' hnot
        · cases hwoken.registered
      · by_cases hg : g.n = -1
        · exact .inl hg
        · exact .inr fun he => h0 ((probed_zero_iff g error).mpr ⟨hg, he⟩)
    · intro h
      obtain ⟨herr, htimed⟩ := h rfl g error rfl
      have h0 : (probed g error).n ≠ 0 := by
        rw [Ne, probed_zero_iff]
        rintro ⟨hg, he⟩
        rcases herr with hg' | he'
        · exact hg hg'
        · exact he' he
      exact ⟨fun hz => absurd hz h0, fun hflag => ⟨h0, (probed_errno g error).trans (htimed hflag)⟩⟩

end Results

namespace IoCall

variable (c : IoCall)

def learn (r : Results) (s : Waiting) : Action → Results
  | .attempt a => { r with connect := some a }
  | .addEvent rt => { r with addEvent := ((c.registers rt).exec s.iom).map (·.1.ok) }
  | .cancelTimer => { r with flag := s.cancelled }
  | .check => { r with flag := s.cancelled }
  | .getsockopt a error => { r with soError := some (a, error) }
  | _ => r

/-- What the call has seen in a history. -/
def results : History Waiting Action → Results
  | [] => {}
  | (s, a) :: τ => c.learn (results τ) s a

/-! ## One step -/

variable {c} {s s' : Waiting} {timeout_ms : UInt64} {r : Results}

theorem answered_told (a : Answer) : ({ connect := some a } : Results).Told ((Hooked.connectWithTimeout timeout_ms).answered a) := by
  unfold Hooked.connectWithTimeout
  dsimp only
  split
  · rename_i h0
    exact Results.returned_first h0.symm
  · split
    · exact Results.returned_first rfl
    · rename_i hprogress
      rw [not_or, Decidable.not_not, Decidable.not_not] at hprogress
      exact ⟨a, hprogress, rfl⟩

theorem cancelTimer_cancelled (s : Waiting) (timer : Option Nat) : (s.cancelTimer timer).cancelled = s.cancelled := by
  unfold Waiting.cancelTimer
  split
  · rfl
  · split <;> rfl

/-- `cancelled` is set to one value only. -/
theorem step_cancelled {a : Action} (hs : c.step s a = some s') :
    s'.cancelled = s.cancelled ∨ s'.cancelled = some .ETIMEDOUT := by
  cases step_cases c hs with
  | marked i _ => exact .inr rfl
  | rejected timer _ | woken timer _ => exact .inl (cancelTimer_cancelled s timer)
  | _ => exact .inl rfl

/-- Where the call is after a `getsockopt`. -/
theorem probing_returns {a : Answer} {error : Option Errno} (hs : c.step s (.getsockopt a error) = some s') :
    s.pc = .probing ∧ s'.pc = .returned (Results.probed a error) := by
  unfold Results.probed
  cases step_cases c hs with
  | unasked _ _ hpc hn => exact ⟨hpc, by rw [if_pos hn]⟩
  | noError _ hpc hn => exact ⟨hpc, by rw [if_neg hn, if_pos rfl]⟩
  | error _ _ hpc hn he => exact ⟨hpc, by rw [if_neg hn, if_neg he]⟩

theorem step_told (hc : c.function = .connectWithTimeout timeout_ms) {a : Action} (h : r.Told s.pc)
    (htimed : s.cancelled = none ∨ s.cancelled = some .ETIMEDOUT) (hs : c.step s a = some s') :
    (c.learn r s a).Told s'.pc := by
  cases step_cases c hs with
  | direct a hpc =>
    rw [hpc] at h
    cases h
  | called a hpc =>
    rw [hpc] at h
    cases h
    dsimp only
    rw [hc]
    exact answered_told a
  | armed hpc | unarmed hpc | yielded timer hpc | resumed timer hpc =>
    rw [hpc] at h
    exact h
  | added timer rt out iom hpc he =>
    rw [hpc] at h
    obtain ⟨a, ha, rfl⟩ := h
    unfold learn
    dsimp only
    rw [he]
    cases hok : out.ok with
    | true => exact ⟨a, ha, by rw [Option.map_some, hok]⟩
    | false => exact ⟨a, ha, by rw [Option.map_some, hok]⟩
  | rejected timer hpc =>
    rw [hpc] at h
    obtain ⟨a, ha, rfl⟩ := h
    dsimp only
    rw [hc]
    exact ⟨a, false, s.cancelled, ha, fun hok => (nomatch hok), rfl⟩
  | woken timer hpc =>
    rw [hpc] at h
    obtain ⟨a, ha, rfl⟩ := h
    exact ⟨a, s.cancelled, ha, rfl⟩
  | late e hpc hflag =>
    rw [hpc] at h
    obtain ⟨a, flag, ha, rfl⟩ := h
    unfold learn
    rw [hflag] at htimed ⊢
    exact Results.returned_flagged (htimed.resolve_left (Option.some_ne_none e))
  | inTime hpc hflag =>
    rw [hpc] at h
    obtain ⟨a, flag, ha, rfl⟩ := h
    unfold learn
    dsimp only
    rw [hc, hflag]
    exact ⟨a, true, none, ha, fun _ => rfl, rfl⟩
  | unasked _ _ _ _ | noError _ _ _ | error _ _ _ _ _ =>
    obtain ⟨hpc, hret⟩ := probing_returns hs
    rw [hpc] at h
    obtain ⟨a, ok, flag, ha, hok, rfl⟩ := h
    rw [hret]
    exact Results.returned_probed ha _ _ hok
  | expired _ _ | locked _ _ | marked _ _ | cancelled _ _ _ _ _ _ | io _ _ _ _ => exact h

/-! ## Every run -/

theorem run_told (hc : c.function = .connectWithTimeout timeout_ms)
    (hstart : c.start = .calling) {τ : History Waiting Action}
    (hr : Run c.step c.init τ s) : (c.results τ).Told s.pc ∧ (s.cancelled = none ∨ s.cancelled = some .ETIMEDOUT) := by
  induction hr with
  | nil =>
    refine ⟨?_, .inl rfl⟩
    show Results.Told {} c.start
    rw [hstart]
    rfl
  | @step τ s s' a hr hs ih =>
    refine ⟨step_told hc ih.1 ih.2 hs, ?_⟩
    rcases step_cancelled hs with hsame | hset
    · rw [hsame]
      exact ih.2
    · exact .inr hset

/-- For every call on a managed blocking socket, whatever happens until it returns. -/
theorem connect_truthful_iff (hc : c.function = .connectWithTimeout timeout_ms) (hstart : c.start = .calling)
    {τ : History Waiting Action} (hr : Run c.step c.init τ s) {a : Answer} (hret : s.pc = .returned a) :
    (c.results τ).Truthful a ↔ (c.results τ).Uncovered := by
  have h := (run_told hc hstart hr).1
  rw [hret] at h
  exact h

/-- A connection that takes its time: the fiber parks, its event comes, and `SO_ERROR` is 0. -/
theorem connect_truthful_iff_parked :
    ∃ τ s, Run (atOnce (.connectWithTimeout 5000)).step (atOnce (.connectWithTimeout 5000)).init τ s ∧
      s.pc = .returned ⟨0, none⟩ ∧ s.timers = [.stopped] ∧
      ((atOnce (.connectWithTimeout 5000)).results τ).Truthful ⟨0, none⟩ := by
  obtain ⟨τ, s, hr, -, ht⟩ := exists_run (atOnce (.connectWithTimeout 5000)).step
    (fun _ _ => True) (atOnce (.connectWithTimeout 5000)).init
    [.attempt ⟨-1, some .EINPROGRESS⟩, .addConditionTimer, .addEvent 0, .yieldToHold, .io (.dispatch 5 EPOLLOUT 0),
      .resume, .cancelTimer, .check, .getsockopt ⟨0, none⟩ none]
    (fun τ s => s.pc = .returned ⟨0, none⟩ && (s.timers = [.stopped] &&
      ((atOnce (.connectWithTimeout 5000)).results τ).addEvent = some true)) (by decide)
  rw [Bool.and_eq_true, Bool.and_eq_true, decide_eq_true_eq, decide_eq_true_eq, decide_eq_true_eq] at ht
  obtain ⟨hret, htimers, hadded⟩ := ht
  refine ⟨τ, s, hr, hret, htimers, (connect_truthful_iff rfl rfl hr hret).mpr fun hfailed => ?_⟩
  rw [hadded] at hfailed
  cases hfailed

/-- `epoll_ctl` fails while the connection is being made, and the call reports success. -/
theorem connect_covered_up :
    ∃ τ s, Run (atOnce (.connectWithTimeout 5000)).step (atOnce (.connectWithTimeout 5000)).init τ s ∧
      s.pc = .returned ⟨0, none⟩ ∧ ¬ ((atOnce (.connectWithTimeout 5000)).results τ).Truthful ⟨0, none⟩ := by
  obtain ⟨τ, s, hr, -, ht⟩ := exists_run (atOnce (.connectWithTimeout 5000)).step
    (fun _ _ => True) (atOnce (.connectWithTimeout 5000)).init
    [.attempt ⟨-1, some .EINPROGRESS⟩, .addConditionTimer, .addEvent (-1), .cancelTimer, .getsockopt ⟨0, none⟩ none]
    (fun τ s => s.pc = .returned ⟨0, none⟩ &&
      (atOnce (.connectWithTimeout 5000)).results τ =
        ⟨some ⟨-1, some .EINPROGRESS⟩, some false, none, some (⟨0, none⟩, none)⟩) (by decide)
  rw [Bool.and_eq_true, decide_eq_true_eq, decide_eq_true_eq] at ht
  refine ⟨τ, s, hr, ht.1, fun h => ?_⟩
  rw [ht.2] at h
  rcases h.success rfl with ⟨a, ha, h0⟩ | hwoken
  · cases ha
    cases h0
  · cases hwoken.registered

end IoCall

end LjrServer.Hook
