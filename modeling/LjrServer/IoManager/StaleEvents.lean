/-
  LjrServer.IoManager.StaleEvents — `idle` acts on a ready mask that was true earlier.

  `epoll_wait` fills a thread's events; by the time the thread takes an fd's mutex, other
  threads may have added, deleted and cancelled events of that fd. A thread's events are
  part of the state, and every other operation is one step in between.

  Proved:
  - `exec_made`: a hosted operation that hits no assertion does to the slots what they say,
    whatever it was asked.
  - `run_slots`: so a run of them leads from states the slots describe to such states.
  - `stale_dispatch_iff`: a dispatch is harmless exactly when `epoll_ctl` fails, nothing
    it would trigger is registered any more, or everything the mask reported still is.
  - `stale_dispatch_harmful`: two events reported, one deleted, then dispatched.
-/

import LjrServer.Lib.Runs
import LjrServer.IoManager.Bookkeeping

namespace LjrServer.IoManager

open LjrServer.Lib

/-- The manager and what is left of each thread's `epoll_wait`: fds and their masks. -/
structure Dispatching where
  iom : IOManager
  events : Nat → List (Nat × BitVec 32)

inductive Action where
  | op (op : Op)
  | epollWait (thread : Nat) (events : List (Nat × BitVec 32))
  | dispatch (thread : Nat) (rt : Int)
  deriving DecidableEq, Repr

/-- The dispatch triggers what it clears, once each, and nothing else. -/
def Harmless (s : IOManager) (fd : Nat) (events : BitVec 32) (rt : Int) : Prop :=
  ∃ out s', s.dispatch fd events rt = some (out, s') ∧ Move.Kept ⟨s, .dispatch fd events rt, out, s'⟩ ∧
    s'.pendingEventCount = s.pendingEventCount - (Move.cleared ⟨s, .dispatch fd events rt, out, s'⟩).length

/-- No event was withdrawn, or all that the dispatch would trigger were, or `epoll_ctl` stops it. -/
def Current (s : IOManager) (fd : Nat) (events : BitVec 32) (rt : Int) : Prop :=
  rt ≠ 0 ∨ (s.context fd).events &&& realEvents events (s.context fd).events = 0 ∨
    events &&& (EPOLLIN ||| EPOLLOUT) &&& ~~~(s.context fd).events = 0

namespace Dispatching

def init : Dispatching := ⟨.init, fun _ => []⟩

def step (s : Dispatching) : Action → Option Dispatching
  | .op (.dispatch _ _ _) => none
  | .op op => (op.exec s.iom).map fun r => { s with iom := r.2 }
  | .epollWait thread events =>
    if s.events thread ≠ [] then none
    else some { s with events := fun i => if i = thread then events else s.events i }
  | .dispatch thread rt =>
    match s.events thread with
    | [] => none
    | (fd, events) :: rest =>
      (s.iom.dispatch fd events rt).map fun r => ⟨r.2, fun i => if i = thread then rest else s.events i⟩

/-- The operations are hosted; `epoll_wait` reports what is registered when it returns, besides
    errors and hang-ups. -/
def Legal (s : Dispatching) : Action → Prop
  | .op op => Hosted s.iom op
  | .epollWait _ events => ∀ e ∈ events, IoManager.Legal s.iom (.dispatch e.1 e.2 0)
  | .dispatch _ _ => True

instance (s : Dispatching) (a : Action) : Decidable (s.Legal a) :=
  match a with
  | .op op => inferInstanceAs (Decidable (Hosted s.iom op))
  | .epollWait _ events => inferInstanceAs (Decidable (∀ e ∈ events, IoManager.Legal s.iom (.dispatch e.1 e.2 0)))
  | .dispatch _ _ => inferInstanceAs (Decidable True)

end Dispatching

/-! ## One dispatch -/

section
variable {slots slots' : List Slot} {fd : Nat}

/-- An operation that is not `delEvent` schedules one task for each bit it clears. -/
theorem cleared_length {op : Op} {out : Outcome} (hd : op.isDel = false) (h : Effect slots op out slots') :
    (Move.cleared ⟨ofSlots slots, op, out, ofSlots slots'⟩).length = out.scheduled.length := by
  have hs := step_scheduled h
  rw [Move.fired, if_neg (by rw [hd]; decide), Registry.entries_handlers] at hs
  rw [hs]
  -- a bit that was set has a handler
  have hall : ∀ k ∈ Move.cleared ⟨ofSlots slots, op, out, ofSlots slots'⟩, ((ofSlots slots).registered k).isSome = true := by
    intro k hk
    have hb := ((mem_cleared _ k).mp hk).2.1
    rw [bit_ofSlots] at hb
    rw [registered_ofSlots]
    exact hb
  generalize Move.cleared ⟨ofSlots slots, op, out, ofSlots slots'⟩ = ks at hall
  induction ks with
  | nil => rfl
  | cons k ks ih =>
    obtain ⟨hk, hks⟩ := List.forall_mem_cons.mp hall
    obtain ⟨x, hx⟩ := Option.isSome_iff_exists.mp hk
    rw [List.filterMap_cons_some hx, List.length_cons, List.length_cons, ih hks]

theorem registered_bits (σ : Slot) (fd : Nat) :
    ((σ.ctx fd).events.getLsbD 0 = true ↔ σ.read ≠ none) ∧ ((σ.ctx fd).events.getLsbD 2 = true ↔ σ.write ≠ none) := by
  obtain ⟨r, w⟩ := σ
  cases r <;> cases w <;> simp [Slot.ctx, Slot.mask, Event.mask]

/-- A reported event is one the dispatch tries to trigger. -/
theorem realEvents_reported (events registered : BitVec 32) :
    (events.getLsbD 0 = true → withErrors events registered &&& EPOLLIN ≠ 0) ∧
      (events.getLsbD 2 = true → withErrors events registered &&& EPOLLOUT ≠ 0) := by
  rw [and_one_ne_zero, and_four_ne_zero]
  unfold withErrors
  split
  · simp only [BitVec.getLsbD_or]
    exact ⟨fun h => by rw [h, Bool.true_or], fun h => by rw [h, Bool.true_or]⟩
  · exact ⟨id, id⟩

theorem reported_registered {events c : BitVec 32} (hin : events.getLsbD 0 = true → c.getLsbD 0 = true)
    (hout : events.getLsbD 2 = true → c.getLsbD 2 = true) : events &&& (EPOLLIN ||| EPOLLOUT) &&& ~~~c = 0 := by
  rw [show EPOLLIN ||| EPOLLOUT = BitVec.twoPow 32 0 ||| BitVec.twoPow 32 2 from rfl]
  apply BitVec.eq_of_getLsbD_eq
  intro i hi
  simp only [BitVec.getLsbD_and, BitVec.getLsbD_or, BitVec.getLsbD_twoPow, BitVec.getLsbD_not]
  by_cases h0 : i = 0
  · subst h0
    cases he : events.getLsbD 0 with
    | false => rfl
    | true => rw [hin he]; simp
  · by_cases h2 : i = 2
    · subst h2
      cases he : events.getLsbD 2 with
      | false => rfl
      | true => rw [hout he]; simp
    · have hn0 : (0 = i) = False := eq_false fun h => h0 h.symm
      have hn2 : (2 = i) = False := eq_false fun h => h2 h.symm
      simp [hn0, hn2]

/-- `triggerEvent` asserts that the event is registered. -/
theorem triggerIf_none {σ : Slot} {m : BitVec 32} {e : Event} (hm : m &&& e.mask ≠ 0) (he : σ.get e = none) (fd : Nat) :
    IOManager.triggerIf m e (σ.ctx fd) = none := by
  have hz : (σ.ctx fd).events &&& e.mask = 0 := (mask_eq_zero σ fd e).mpr he
  unfold IOManager.triggerIf FdContext.triggerEvent
  rw [if_pos hm, if_pos hz]
  rfl

/-- What the dispatch would trigger is registered, where it triggers anything. -/
theorem safe_of_current {events : BitVec 32} {rt : Int} (h : Current (ofSlots slots) fd events rt)
    (h0 : ((slotAt slots fd).ctx fd).events &&& realEvents events ((slotAt slots fd).ctx fd).events ≠ 0) (hrt : rt = 0) :
    (decide (withErrors events ((slotAt slots fd).ctx fd).events &&& EPOLLIN ≠ 0) = true → (slotAt slots fd).read ≠ none) ∧
      (decide (withErrors events ((slotAt slots fd).ctx fd).events &&& EPOLLOUT ≠ 0) = true →
        (slotAt slots fd).write ≠ none) := by
  unfold Current at h
  rw [context_ofSlots] at h
  rcases h with h | h | h
  · exact absurd hrt h
  · exact absurd h h0
  · obtain ⟨hin, hout⟩ := withErrors_registered h
    exact ⟨fun hd => mt (mask_eq_zero _ fd .READ).mpr (hin (of_decide_eq_true hd)),
      fun hd => mt (mask_eq_zero _ fd .WRITE).mpr (hout (of_decide_eq_true hd))⟩

theorem dispatch_of_current (hfd : fd < slots.length) {events : BitVec 32} {rt : Int}
    (h : Current (ofSlots slots) fd events rt) :
    ∃ out slots', (ofSlots slots).dispatch fd events rt = some (out, ofSlots slots') ∧ slots'.length = slots.length ∧
      Effect slots (.dispatch fd events rt) out slots' ∧ total slots' = total slots - out.scheduled.length :=
  dispatch_effect_of hfd events rt rfl (safe_of_current h)

/-- A withdrawn event next to a registered one fails the assertion of `triggerEvent`. -/
theorem dispatch_of_not_current (hfd : fd < slots.length) {events : BitVec 32} {rt : Int}
    (h : ¬ Current (ofSlots slots) fd events rt) : (ofSlots slots).dispatch fd events rt = none := by
  unfold Current at h
  rw [context_ofSlots, not_or, not_or, ne_eq, Classical.not_not] at h
  obtain ⟨hrt, h0, hlost⟩ := h
  rw [dispatch_ofSlots hfd]
  have hrd := mask_read (decide (withErrors events ((slotAt slots fd).ctx fd).events &&& EPOLLIN ≠ 0))
    (decide (withErrors events ((slotAt slots fd).ctx fd).events &&& EPOLLOUT ≠ 0))
  have hwr := mask_write (decide (withErrors events ((slotAt slots fd).ctx fd).events &&& EPOLLIN ≠ 0))
    (decide (withErrors events ((slotAt slots fd).ctx fd).events &&& EPOLLOUT ≠ 0))
  simp only [h0, if_false, hrt, ne_eq, not_true]
  by_cases hread : decide (withErrors events ((slotAt slots fd).ctx fd).events &&& EPOLLIN ≠ 0) = true →
      (slotAt slots fd).read ≠ none
  · -- reading is registered, so it is the write event that was withdrawn
    have hwrite : decide (withErrors events ((slotAt slots fd).ctx fd).events &&& EPOLLOUT ≠ 0) = true ∧
        (slotAt slots fd).write = none := by
      refine Classical.byContradiction fun hcon => hlost (reported_registered ?_ ?_)
      · intro hin
        exact (registered_bits _ fd).1.mpr (hread (decide_eq_true ((realEvents_reported events _).1 hin)))
      · intro hout
        refine (registered_bits _ fd).2.mpr fun hnone => hcon ⟨?_, hnone⟩
        exact decide_eq_true ((realEvents_reported events _).2 hout)
    have h1 := triggerIf_read (slotAt slots fd) fd hrd hread
    have h2 := triggerIf_none (σ := (slotAt slots fd).clear (decide (withErrors events ((slotAt slots fd).ctx fd).events &&&
      EPOLLIN ≠ 0)) false) (hwr.mpr hwrite.1) (by simpa [Slot.clear, Slot.get] using hwrite.2) fd
    unfold realEvents
    rw [h1, Option.bind_some]
    simp only [h2, Option.bind_none]
  · obtain ⟨hd, hnone⟩ := Classical.not_imp.mp hread
    have h1 := triggerIf_none (σ := slotAt slots fd) (hrd.mpr hd) (Classical.not_not.mp hnone) fd
    unfold realEvents
    rw [h1, Option.bind_none]

theorem harmless_iff (hfd : fd < slots.length) (events : BitVec 32) (rt : Int) :
    Harmless (ofSlots slots) fd events rt ↔ Current (ofSlots slots) fd events rt := by
  constructor
  · rintro ⟨out, s', he, _⟩
    refine Classical.byContradiction fun h => ?_
    rw [dispatch_of_not_current hfd h] at he
    cases he
  · intro h
    obtain ⟨out, slots', he, _, heff, htot⟩ := dispatch_of_current hfd h
    refine ⟨out, _, he, step_kept heff, ?_⟩
    rw [cleared_length rfl heff]
    exact htot

/-- A dispatch that is made is of an fd in the table, and of a mask that is current. -/
theorem dispatch_made {events : BitVec 32} {rt : Int} {r : Outcome × IOManager}
    (hr : (ofSlots slots).dispatch fd events rt = some r) :
    ∃ slots', r.2 = ofSlots slots' ∧ slots'.length = slots.length ∧ Effect slots (.dispatch fd events rt) r.1 slots' := by
  have hfd : fd < slots.length := by
    refine Nat.lt_of_not_le fun hge => ?_
    unfold IOManager.dispatch at hr
    rw [getElem?_ofSlots, List.getElem?_eq_none hge] at hr
    cases hr
  have hcur : Current (ofSlots slots) fd events rt := by
    by_contra hstale
    rw [dispatch_of_not_current hfd hstale] at hr
    cases hr
  obtain ⟨out, slots', he, hlen, heff, _⟩ := dispatch_of_current hfd hcur
  cases hr.symm.trans he
  exact ⟨slots', rfl, hlen, heff⟩

/-- What is left of the slots by an operation that hits no assertion. -/
theorem exec_made (hlen : 2 ≤ slots.length) (hlt : slots.length < 2 ^ 31) {op : Op} (hh : Hosted (ofSlots slots) op)
    {r : Outcome × IOManager} (hr : op.exec (ofSlots slots) = some r) :
    ∃ slots', r.2 = ofSlots slots' ∧ (slots.length ≤ slots'.length ∧ slots'.length < 2 ^ 31) ∧
      Effect slots op r.1 slots' := by
  by_cases hl : Legal (ofSlots slots) op
  · obtain ⟨out, slots', he, hlen', heff⟩ := exec_effect hlen hlt op hl hh
    cases hr.symm.trans he
    exact ⟨slots', rfl, hlen', heff⟩
  · cases op with
    | addEvent caller fd e cb rt => exact addEvent_made hlen hlt hh hl hr
    | dispatch fd events rt =>
      obtain ⟨slots', hs, hlen', heff⟩ := dispatch_made hr
      exact ⟨slots', hs, by omega, heff⟩
    | _ => exact absurd trivial hl

end

/-! ## Every run -/

namespace Dispatching

/-- The slots describe the manager, and every event at hand is of an fd the table has. -/
def Described (s : Dispatching) : Prop :=
  ∃ slots : List Slot, s.iom = ofSlots slots ∧ (2 ≤ slots.length ∧ slots.length < 2 ^ 31) ∧
    ∀ i, ∀ e ∈ s.events i, e.1 < slots.length

theorem step_described {s s' : Dispatching} {a : Action} (h : s.Described) (hl : s.Legal a) (hs : s.step a = some s') :
    s'.Described := by
  obtain ⟨slots, hiom, hlen, hev⟩ := h
  cases a with
  | op op =>
    have hop : (op.exec s.iom).map (fun r => { s with iom := r.2 }) = some s' := by
      cases op <;> first | exact hs | cases hs
    obtain ⟨⟨out, t⟩, he, rfl⟩ := Option.map_eq_some_iff.mp hop
    rw [hiom] at he
    obtain ⟨slots', ht, hlen', _⟩ := exec_made hlen.1 hlen.2 (hiom ▸ hl) he
    exact ⟨slots', ht, by omega, fun i e hmem => Nat.lt_of_lt_of_le (hev i e hmem) hlen'.1⟩
  | epollWait thread events =>
    change (if s.events thread ≠ [] then none else some _) = some s' at hs
    split at hs
    · cases hs
    · cases hs
      refine ⟨slots, hiom, hlen, fun i e hmem => ?_⟩
      dsimp only at hmem
      split at hmem
      · obtain ⟨c, hc, _⟩ := hl e hmem
        rw [hiom, getElem?_ofSlots] at hc
        obtain ⟨σ, hσ, _⟩ := Option.map_eq_some_iff.mp hc
        exact (List.getElem?_eq_some_iff.mp hσ).1
      · exact hev i e hmem
  | dispatch thread rt =>
    simp only [step] at hs
    cases hready : s.events thread with
    | nil =>
      rw [hready] at hs
      cases hs
    | cons head rest =>
      obtain ⟨fd, events⟩ := head
      rw [hready, hiom] at hs
      obtain ⟨⟨out, t⟩, he, rfl⟩ := Option.map_eq_some_iff.mp hs
      obtain ⟨slots', ht, hlen', _⟩ := dispatch_made he
      refine ⟨slots', ht, by omega, fun i e hmem => Nat.lt_of_lt_of_le ?_ (Nat.le_of_eq hlen'.symm)⟩
      dsimp only at hmem
      split at hmem
      · exact hev thread e (by rw [hready]; exact List.mem_cons_of_mem _ hmem)
      · exact hev i e hmem

theorem run_slots {τ : History Dispatching Action} {s : Dispatching} (hr : Run step init τ s) (hl : Meets Legal τ) :
    s.Described := by
  refine hr.invariant ⟨List.replicate 32 {}, init_ofSlots, by decide, ?_⟩ (fun _ _ _ => step_described) hl
  intro i e he
  cases he

/-- When a thread may act on a mask it was given earlier. -/
theorem stale_dispatch_iff {τ : History Dispatching Action} {s : Dispatching} (hr : Run step init τ s) (hl : Meets Legal τ)
    {thread fd : Nat} {events : BitVec 32} {rest : List (Nat × BitVec 32)} (hev : s.events thread = (fd, events) :: rest)
    (rt : Int) : Harmless s.iom fd events rt ↔ Current s.iom fd events rt := by
  obtain ⟨slots, hiom, _, hlt⟩ := run_slots hr hl
  rw [hiom]
  exact harmless_iff (hlt thread _ (by rw [hev]; exact List.mem_cons_self)) events rt

/-- Reading and writing are ready; the reader's event is deleted before the thread gets to the fd. -/
theorem stale_dispatch_harmful :
    ∃ τ s, Run step init τ s ∧ Meets Legal τ ∧ s.events 0 = [(3, EPOLLIN ||| EPOLLOUT)] ∧
      ¬ Harmless s.iom 3 (EPOLLIN ||| EPOLLOUT) 0 := by
  obtain ⟨τ, s, hr, hl, ht⟩ := exists_run step Legal init
    [.op (.addEvent ⟨some 0, 1, .EXEC⟩ 3 .READ (some 7) 0), .op (.addEvent ⟨some 0, 1, .EXEC⟩ 3 .WRITE (some 8) 0),
      .epollWait 0 [(3, EPOLLIN ||| EPOLLOUT)], .op (.delEvent 3 .READ 0)]
    (fun _ s => s.events 0 = [(3, EPOLLIN ||| EPOLLOUT)] && (s.iom.dispatch 3 (EPOLLIN ||| EPOLLOUT) 0).isNone) (by decide)
  rw [Bool.and_eq_true, decide_eq_true_eq, Option.isNone_iff_eq_none] at ht
  refine ⟨τ, s, hr, hl, ht.1, ?_⟩
  rintro ⟨out, s', he, _⟩
  rw [ht.2] at he
  cases he

/-- Both events were cancelled before the thread gets to the fd. -/
theorem stale_dispatch_cancelled :
    ∃ s : Dispatching, s.events 0 = [(3, EPOLLIN ||| EPOLLOUT)] ∧ Harmless s.iom 3 (EPOLLIN ||| EPOLLOUT) 0 := by
  obtain ⟨τ, s, hr, hl, ht⟩ := exists_run step Legal init
    [.op (.addEvent ⟨some 0, 1, .EXEC⟩ 3 .READ (some 7) 0), .op (.addEvent ⟨some 0, 1, .EXEC⟩ 3 .WRITE (some 8) 0),
      .epollWait 0 [(3, EPOLLIN ||| EPOLLOUT)], .op (.cancelAll 3 0)]
    (fun _ s => s.events 0 = [(3, EPOLLIN ||| EPOLLOUT)] && (s.iom.context 3).events = 0) (by decide)
  rw [Bool.and_eq_true, decide_eq_true_eq, decide_eq_true_eq] at ht
  refine ⟨s, ht.1, (stale_dispatch_iff hr hl ht.1 0).mpr (.inr (.inl ?_))⟩
  rw [ht.2]
  exact BitVec.zero_and

end Dispatching

end LjrServer.IoManager
