/-
  LjrServer.IoManager.Bookkeeping — the bit masks, the event contexts and the pending count
  agree in every run, and every handler meets the fate its clearing gives it.

  Read as a registry of handlers under (fd, event) keys, a step of `IOManager` accepts a
  handler, drops some or fires some; the fates are `Registry.Run.fate`.

  Proved:
  - `runs_keep_books`: over any run of legal operations that are hosted no assertion fails;
    after every step the count is the number of set bits and a context is empty exactly when
    its bit is clear; a failed `epoll_ctl` changes nothing; a step schedules the handlers whose
    bits it cleared, `delEvent` none; and from a handler's acceptance to the next one on
    its key it is scheduled once, or never when `delEvent` cleared it.
  - `handlers_lost`: without a scheduler, or with a table of 2^31 contexts, this fails.
-/

import LjrServer.Lib.Registry
import LjrServer.IoManager.Slots

namespace LjrServer.IoManager

open LjrServer.Lib

abbrev Key := Nat × Event

namespace IOManager

/-- The context of an fd; one past the vector's end would be fresh. -/
def context (s : IOManager) (fd : Nat) : FdContext := s.fdContexts[fd]?.getD { fd }

/-- The bit of `event` in its fd's mask. -/
def bit (s : IOManager) (k : Key) : Bool := (s.context k.1).events &&& k.2.mask ≠ 0

end IOManager

/-- The handler an event context holds, as a trigger would schedule it. -/
def EventContext.handler (ctx : EventContext) : Option Scheduled :=
  ctx.scheduler.bind fun s =>
    match ctx.cb with
    | some c => some ⟨s, .cb c⟩
    | none => ctx.fiber.map fun f => ⟨s, .fiber f⟩

def IOManager.registered (s : IOManager) : Registry Key Scheduled := fun k =>
  ((s.context k.1).getContext k.2).bind EventContext.handler

def FdContext.bits (c : FdContext) : Nat :=
  (if c.events &&& Event.READ.mask ≠ 0 then 1 else 0) + (if c.events &&& Event.WRITE.mask ≠ 0 then 1 else 0)

/-- The three records of what is registered agree. -/
structure Bookkept (s : IOManager) : Prop where
  count : s.pendingEventCount = ((s.fdContexts.map FdContext.bits).sum : Nat)
  empty : ∀ c ∈ s.fdContexts, ∀ e ctx, c.getContext e = some ctx →
    ((ctx.scheduler = none ∧ ctx.fiber = none ∧ ctx.cb = none) ↔ c.events &&& e.mask = 0)

/-! ## Moves -/

structure Move where
  before : IOManager
  op : Op
  out : Outcome
  after : IOManager

namespace Move

/-- The bits the step cleared, in the order they are triggered. -/
def cleared (m : Move) : List Key :=
  ([Event.READ, Event.WRITE].map (m.op.fd, ·)).filter fun k => m.before.bit k && !m.after.bit k

/-- The step as a change of the registry. -/
def change (m : Move) : Registry.Change Key Scheduled :=
  match m.op with
  | .addEvent _ fd e _ _ =>
    match m.out.ok, m.op.handler with
    | true, some h => .accept (fd, e) h
    | _, _ => .fire m.cleared
  | .delEvent _ _ _ => .drop m.cleared
  | _ => .fire m.cleared

/-- The handlers of the bits it cleared, unless it was `delEvent`. -/
def fired (m : Move) : List (Key × Scheduled) :=
  if m.op.isDel then [] else Registry.entries m.before.registered m.cleared

/-- The step in the registry. -/
def entry (m : Move) : Registry.Move Key Scheduled := ⟨m.change, m.fired⟩

/-- The tasks it scheduled for one key. -/
def firedAt (m : Move) (k : Key) : List Scheduled := m.entry.firedAt k

/-- What each step of a run guarantees. -/
structure Kept (m : Move) : Prop where
  books : Bookkept m.after
  failed : m.op.rt ≠ 0 → m.after.pendingEventCount = m.before.pendingEventCount ∧
    ∀ fd, m.after.context fd = m.before.context fd
  others : ∀ fd, fd ≠ m.op.fd → m.after.context fd = m.before.context fd
  scheduled : m.out.scheduled = m.fired.map (·.2)
  accepting : ∀ k h, m.change = .accept k h → m.cleared = []

end Move

inductive Trace : IOManager → List Op → List Move → IOManager → Prop
  | nil (s : IOManager) : Trace s [] [] s
  | cons {s t u : IOManager} {op : Op} {out : Outcome} {ops : List Op} {ms : List Move} :
      op.exec s = some (out, t) → Trace t ops ms u → Trace s (op :: ops) (⟨s, op, out, t⟩ :: ms) u

/-- Every operation meets the condition in the state it is made in. -/
def Throughout (C : IOManager → Op → Prop) : IOManager → List Op → Prop
  | _, [] => True
  | s, op :: ops => C s op ∧ ∀ r ∈ op.exec s, Throughout C r.2 ops

instance decidableThroughout (C : IOManager → Op → Prop) [∀ s op, Decidable (C s op)] (s : IOManager) :
    (ops : List Op) → Decidable (Throughout C s ops)
  | [] => isTrue trivial
  | op :: ops =>
    have (s' : IOManager) : Decidable (Throughout C s' ops) := decidableThroughout C s' ops
    inferInstanceAs (Decidable (C s op ∧ ∀ r ∈ op.exec s, Throughout C r.2 ops))

/-! ## What the slots say about the three records -/

theorem context_ofSlots (slots : List Slot) (fd : Nat) : (ofSlots slots).context fd = (slotAt slots fd).ctx fd := by
  unfold IOManager.context slotAt
  rw [getElem?_ofSlots]
  cases slots[fd]? <;> rfl

theorem bit_ofSlots (slots : List Slot) (k : Key) : (ofSlots slots).bit k = ((slotAt slots k.1).get k.2).isSome := by
  unfold IOManager.bit
  rw [context_ofSlots, Bool.eq_iff_iff, decide_eq_true_eq, Option.isSome_iff_ne_none]
  exact not_congr (mask_eq_zero _ _ _)

theorem arm_handler (h : Option Scheduled) : (Slot.arm h).handler = h := by
  match h with
  | none => rfl
  | some ⟨_, .fiber _⟩ => rfl
  | some ⟨_, .cb _⟩ => rfl

theorem registered_ofSlots (slots : List Slot) (k : Key) : (ofSlots slots).registered k = (slotAt slots k.1).get k.2 := by
  unfold IOManager.registered
  rw [context_ofSlots]
  by_cases he : k.2 = .NONE
  · rw [he]
    rfl
  · rw [arm_getContext _ _ he]
    exact arm_handler _

theorem bits_ctx (σ : Slot) (fd : Nat) : (σ.ctx fd).bits = σ.count := by
  unfold FdContext.bits
  simp only [ne_eq, mask_eq_zero]
  obtain ⟨r, w⟩ := σ
  cases r <;> cases w <;> rfl

theorem bookkept_ofSlots (slots : List Slot) : Bookkept (ofSlots slots) := by
  refine ⟨?_, ?_⟩
  · have h : (ofSlots slots).fdContexts.map FdContext.bits = slots.map Slot.count := by
      apply List.ext_getElem?
      intro i
      rw [List.getElem?_map, getElem?_ofSlots, List.getElem?_map, Option.map_map]
      congr 1
      funext σ
      exact bits_ctx σ i
    rw [h]
    rfl
  · intro c hc e ctx hctx
    obtain ⟨i, hi⟩ := List.getElem?_of_mem hc
    rw [getElem?_ofSlots] at hi
    obtain ⟨σ, _, rfl⟩ := Option.map_eq_some_iff.mp hi
    rw [mask_eq_zero]
    have he : e ≠ .NONE := by
      rintro rfl
      cases hctx
    rw [arm_getContext σ i he] at hctx
    cases hctx
    match σ.get e with
    | none => simp [Slot.arm]
    | some ⟨_, .fiber _⟩ => simp [Slot.arm]
    | some ⟨_, .cb _⟩ => simp [Slot.arm]

/-! ## One step -/

theorem cleared_nodup (m : Move) : m.cleared.Nodup := by
  apply List.Nodup.sublist List.filter_sublist
  simp

theorem mem_cleared (m : Move) (k : Key) :
    k ∈ m.cleared ↔ (k = (m.op.fd, .READ) ∨ k = (m.op.fd, .WRITE)) ∧ m.before.bit k = true ∧ m.after.bit k = false := by
  simp [Move.cleared]

/-- A step that accepts nothing takes the handlers of the bits it cleared out of the registry. -/
theorem step_clear {m : Move} (hch : m.change = if m.op.isDel then .drop m.cleared else .fire m.cleared)
    (hr : m.after.registered = Registry.without m.before.registered m.cleared) :
    Registry.Step m.before.registered m.entry m.after.registered := by
  rw [hr, Move.entry, hch, Move.fired]
  by_cases hd : m.op.isDel = true
  · rw [if_pos hd, if_pos hd]
    exact .drop _ _
  · rw [if_neg hd, if_neg hd]
    exact .fire _ (cleared_nodup m)

section
variable {slots slots' : List Slot} {op : Op} {out : Outcome}

theorem change_of_not_add (h : ∀ caller fd e cb rt, op ≠ .addEvent caller fd e cb rt) (s s' : IOManager) :
    Move.change ⟨s, op, out, s'⟩ = if op.isDel then .drop (Move.cleared ⟨s, op, out, s'⟩)
      else .fire (Move.cleared ⟨s, op, out, s'⟩) := by
  cases op with
  | addEvent caller fd e cb rt => exact absurd rfl (h caller fd e cb rt)
  | _ => rfl

theorem change_of_not_ok (h : out.ok = false) (s s' : IOManager) :
    Move.change ⟨s, op, out, s'⟩ = if op.isDel then .drop (Move.cleared ⟨s, op, out, s'⟩)
      else .fire (Move.cleared ⟨s, op, out, s'⟩) := by
  cases op with
  | addEvent caller fd e cb rt =>
    unfold Move.change
    simp only [h]
    rfl
  | _ => rfl

theorem clear_get (σ : Slot) (rd wr : Bool) (e : Event) : (σ.clear rd wr).get e = none ∨ (σ.clear rd wr).get e = σ.get e := by
  cases e with
  | NONE => exact .inl rfl
  | READ => cases rd <;> simp [Slot.clear, Slot.get]
  | WRITE => cases wr <;> simp [Slot.clear, Slot.get]

/-- When each place kept its handler or was emptied, the cleared bits tell which. -/
theorem registered_without (hfd : ∀ j, j ≠ op.fd → slotAt slots' j = slotAt slots j)
    (hget : ∀ e, (slotAt slots' op.fd).get e = none ∨ (slotAt slots' op.fd).get e = (slotAt slots op.fd).get e) :
    (ofSlots slots').registered =
      Registry.without (ofSlots slots).registered (Move.cleared ⟨ofSlots slots, op, out, ofSlots slots'⟩) := by
  funext ⟨j, e⟩
  unfold Registry.without
  rw [registered_ofSlots, registered_ofSlots]
  have hmem := mem_cleared ⟨ofSlots slots, op, out, ofSlots slots'⟩ (j, e)
  simp only [bit_ofSlots] at hmem
  by_cases hj : j = op.fd
  · subst hj
    rcases hget e with h | h
    · -- emptied, or never set
      by_cases hin : (op.fd, e) ∈ Move.cleared ⟨ofSlots slots, op, out, ofSlots slots'⟩
      · rw [if_pos hin, h]
      · rw [if_neg hin, h]
        cases hs : (slotAt slots op.fd).get e with
        | none => rfl
        | some x =>
          refine absurd (hmem.mpr ⟨?_, by rw [hs]; rfl, by rw [h]; rfl⟩) hin
          cases e with
          | NONE => cases hs
          | READ => exact .inl rfl
          | WRITE => exact .inr rfl
    · rw [if_neg, h]
      intro hin
      obtain ⟨_, hb, ha⟩ := hmem.mp hin
      rw [h, hb] at ha
      cases ha
  · rw [if_neg, hfd j hj]
    intro hin
    rcases (hmem.mp hin).1 with h | h <;> exact hj (Prod.mk.inj h).1

/-- A step that empties no place clears no bit. -/
theorem cleared_nil (h : ∀ j e, (slotAt slots j).get e ≠ none → (slotAt slots' j).get e ≠ none) :
    Move.cleared ⟨ofSlots slots, op, out, ofSlots slots'⟩ = [] := by
  apply List.filter_eq_nil_iff.mpr
  intro k _
  simp only [bit_ofSlots, Bool.and_eq_true, Bool.not_eq_true', not_and, Bool.not_eq_false, Option.isSome_iff_ne_none]
  exact h k.1 k.2

theorem put_get (σ : Slot) {e : Event} (hne : e ≠ .NONE) (h : Scheduled) (e' : Event) :
    (σ.put e h).get e' = if e' = e then some h else σ.get e' := by
  cases e with
  | NONE => exact absurd rfl hne
  | READ => cases e' <;> rfl
  | WRITE => cases e' <;> rfl

theorem put_cleared {fd : Nat} {e : Event} {h : Scheduled} (hne : e ≠ .NONE)
    (hslots : ∀ j, slotAt slots' j = if j = fd then (slotAt slots fd).put e h else slotAt slots j) :
    Move.cleared ⟨ofSlots slots, op, out, ofSlots slots'⟩ = [] := by
  apply cleared_nil
  intro j e' hset
  rw [hslots]
  by_cases hj : j = fd
  · subst hj
    rw [if_pos rfl, put_get _ hne]
    split
    · exact Option.some_ne_none h
    · exact hset
  · rw [if_neg hj]
    exact hset

theorem fired_nil {m : Move} (h : m.cleared = []) : m.fired = [] := by
  unfold Move.fired
  rw [h]
  split <;> rfl

theorem step_registry (h : Effect slots op out slots') :
    Registry.Step (ofSlots slots).registered (Move.entry ⟨ofSlots slots, op, out, ofSlots slots'⟩)
      (ofSlots slots').registered := by
  cases h with
  | stay hok _ hsame _ =>
    exact step_clear (change_of_not_ok hok _ _)
      (registered_without (fun j _ => hsame j) fun e => .inr (by rw [hsame]))
  | clear rd wr hop _ _ hslots =>
    refine step_clear (change_of_not_add hop _ _)
      (registered_without (fun j hj => by rw [hslots, if_neg hj]) fun e => ?_)
    rw [hslots, if_pos rfl]
    exact clear_get _ rd wr e
  | @accept caller fd e cb h hop hh hne hfree hok _ hslots =>
    subst hop
    have hchange : Move.change ⟨ofSlots slots, .addEvent caller fd e cb 0, out, ofSlots slots'⟩ = .accept (fd, e) h := by
      unfold Move.change
      simp only [hok, hh]
    rw [Move.entry, hchange, fired_nil (put_cleared hne hslots)]
    have hreg : (ofSlots slots').registered =
        fun k => if k = (fd, e) then some h else (ofSlots slots).registered k := by
      funext ⟨j, e'⟩
      rw [registered_ofSlots, registered_ofSlots, hslots]
      by_cases hj : j = fd
      · subst hj
        rw [if_pos rfl, put_get _ hne]
        simp only [Prod.mk.injEq, true_and]
      · rw [if_neg hj, if_neg fun h => hj (Prod.mk.inj h).1]
    rw [hreg]
    exact .accept h (by rw [registered_ofSlots]; exact hfree)

/-- The tasks of a step are the handlers of the bits it cleared. -/
theorem step_scheduled (h : Effect slots op out slots') :
    out.scheduled = (Move.fired ⟨ofSlots slots, op, out, ofSlots slots'⟩).map (·.2) := by
  cases h with
  | stay _ hs hsame _ =>
    rw [hs, fired_nil (cleared_nil fun j e h => by rw [hsame]; exact h)]
    rfl
  | accept _ _ hne _ _ hs hslots =>
    rw [hs, fired_nil (put_cleared hne hslots)]
    rfl
  | clear rd wr _ _ hs hslots =>
    rw [hs, Move.fired]
    by_cases hd : op.isDel = true
    · rw [if_pos hd, if_pos hd]
      rfl
    · rw [if_neg hd, if_neg hd, Registry.entries_handlers]
      unfold Move.cleared
      simp only [bit_ofSlots, hslots, List.map_cons, List.map_nil]
      generalize hσ : slotAt slots op.fd = σ
      obtain ⟨r, w⟩ := σ
      cases rd <;> cases wr <;> cases r <;> cases w <;>
        simp [Slot.fired, Slot.get, Slot.clear, registered_ofSlots, hσ]

theorem step_kept (h : Effect slots op out slots') : Move.Kept ⟨ofSlots slots, op, out, ofSlots slots'⟩ := by
  refine ⟨bookkept_ofSlots slots', ?_, ?_, step_scheduled h, ?_⟩
  · intro hrt
    cases h with
    | stay _ _ hsame htot => exact ⟨htot, fun fd => by rw [context_ofSlots, context_ofSlots, hsame]⟩
    | accept hop _ _ _ _ _ _ => exact absurd (by rw [hop]; rfl) hrt
    | clear _ _ _ hrt' _ _ => exact absurd hrt' hrt
  · intro fd hfd
    show (ofSlots slots').context fd = (ofSlots slots).context fd
    rw [context_ofSlots, context_ofSlots]
    cases h with
    | stay _ _ hsame _ => rw [hsame]
    | accept hop _ _ _ _ _ hslots =>
      subst hop
      rw [hslots]
      exact congrArg (Slot.ctx · fd) (if_neg hfd)
    | clear _ _ _ _ _ hslots => rw [hslots, if_neg hfd]
  · intro k x hk
    cases h with
    | stay _ _ hsame _ => exact cleared_nil fun j e h => by rw [hsame]; exact h
    | accept _ _ hne _ _ _ hslots => exact put_cleared hne hslots
    | clear _ _ hop _ _ _ =>
      rw [change_of_not_add hop] at hk
      split at hk <;> cases hk

end

/-! ## Every run -/

theorem init_ofSlots : IOManager.init = ofSlots (List.replicate 32 {}) := by decide

theorem run_kept : ∀ (ops : List Op) {slots : List Slot}, 2 ≤ slots.length → slots.length < 2 ^ 31 →
    Throughout Legal (ofSlots slots) ops → Throughout Hosted (ofSlots slots) ops →
    ∃ moves s', Trace (ofSlots slots) ops moves s' ∧ (∀ m ∈ moves, m.Kept) ∧
      Registry.Run (ofSlots slots).registered (moves.map Move.entry) s'.registered
  | [], slots, _, _, _, _ => ⟨[], _, .nil _, by simp, .nil _⟩
  | op :: ops, slots, hlen, hlt, hl, hh => by
    obtain ⟨out, slots', hexec, hlen', heff⟩ := exec_effect hlen hlt op hl.1 hh.1
    obtain ⟨moves, s', htrace, hkept, hrun⟩ :=
      run_kept ops (by omega) (by omega) (hl.2 _ hexec) (hh.2 _ hexec)
    exact ⟨_, s', .cons hexec htrace, List.forall_mem_cons.mpr ⟨step_kept heff, hkept⟩, .cons (step_registry heff) hrun⟩

theorem change_clears {m : Move} (hm : m.Kept) (k : Key) : m.change.Clears k ↔ k ∈ m.cleared := by
  have hacc := hm.accepting
  revert hacc
  unfold Move.change
  split
  · split
    · intro hacc
      rw [hacc _ _ rfl]
      exact ⟨False.elim, fun h => by cases h⟩
    · exact fun _ => Iff.rfl
  · exact fun _ => Iff.rfl
  · exact fun _ => Iff.rfl

theorem change_isDrop (m : Move) : m.change.isDrop = m.op.isDel := by
  obtain ⟨before, op, out, after⟩ := m
  cases op with
  | addEvent caller fd e cb rt =>
    unfold Move.change
    simp only
    split <;> rfl
  | _ => rfl

/-- The bookkeeping invariant of every run, and the fate of every handler in it. -/
theorem runs_keep_books (ops : List Op) (hl : Throughout Legal IOManager.init ops)
    (hh : Throughout Hosted IOManager.init ops) :
    ∃ moves s, Trace IOManager.init ops moves s ∧ (∀ m ∈ moves, m.Kept) ∧
      ∀ (pre mid rest post : List Move) (a c : Move) (k : Key) (h : Scheduled),
        moves = pre ++ a :: (mid ++ c :: (rest ++ post)) → a.change = .accept k h → (∀ m ∈ mid, k ∉ m.cleared) →
        k ∈ c.cleared → (∀ m ∈ rest, ¬ m.change.Accepts k) →
        (a :: (mid ++ c :: rest)).flatMap (·.firedAt k) = if c.op.isDel then [] else [h] := by
  rw [init_ofSlots] at hl hh ⊢
  obtain ⟨moves, s, htrace, hkept, hrun⟩ := run_kept ops (by decide) (by decide) hl hh
  refine ⟨moves, s, htrace, hkept, ?_⟩
  rintro pre mid rest post a c k h rfl ha hmid hc hrest
  simp only [List.map_append, List.map_cons] at hrun
  have hkc : c.Kept := hkept c (by simp)
  have hfate := hrun.fate (k := k) (h := h) ha
    (by
      intro x hx
      obtain ⟨m, hm, rfl⟩ := List.mem_map.mp hx
      exact mt (change_clears (hkept m (by simp [hm])) k).mp (hmid m hm))
    ((change_clears hkc k).mpr hc)
    (by
      intro x hx
      obtain ⟨m, hm, rfl⟩ := List.mem_map.mp hx
      exact hrest m hm)
  rw [← change_isDrop c, show c.change = c.entry.change from rfl]
  simpa [List.flatMap_map, Move.firedAt] using hfate

/-- A callback waits for reading on fd 3; the fd is closed. -/
theorem runs_keep_books_on_close :
    ∃ moves s, Trace IOManager.init [.addEvent ⟨some 0, 1, .EXEC⟩ 3 .READ (some 7) 0, .cancelAll 3 0] moves s ∧
      (∀ m ∈ moves, m.Kept) ∧
      ∀ (pre mid rest post : List Move) (a c : Move) (k : Key) (h : Scheduled),
        moves = pre ++ a :: (mid ++ c :: (rest ++ post)) → a.change = .accept k h → (∀ m ∈ mid, k ∉ m.cleared) →
        k ∈ c.cleared → (∀ m ∈ rest, ¬ m.change.Accepts k) →
        (a :: (mid ++ c :: rest)).flatMap (·.firedAt k) = if c.op.isDel then [] else [h] :=
  runs_keep_books _ (by decide) (by decide)

/-! ## Handlers that are lost -/

theorem Trace.foldlM {s s' : IOManager} {ops : List Op} {moves : List Move} (h : Trace s ops moves s') :
    ops.foldlM (fun s op => (op.exec s).map (·.2)) s = some s' := by
  induction h with
  | nil => rfl
  | cons he _ ih =>
    rw [List.foldlM_cons, he]
    exact ih

/-- A resize to less forgets what a resize to more has added, and what was there. -/
theorem contextResize_twice (s : IOManager) {n m : Nat} (h : m ≤ n) :
    (s.contextResize n).contextResize m = s.contextResize m := by
  unfold IOManager.contextResize
  refine congrArg (fun cs => IOManager.mk cs s.pendingEventCount) (List.map_congr_left fun i hi => ?_)
  have hlt : i < n := Nat.lt_of_lt_of_le (List.mem_range.mp hi) h
  rw [List.getElem?_map, List.getElem?_range hlt, Option.map_some, Option.getD_some]

theorem length_contextResize (s : IOManager) (n : Nat) : (s.contextResize n).fdContexts.length = n := by
  rw [IOManager.contextResize, List.length_map, List.length_range]

section
variable {s : IOManager} (caller : Caller) {fd : Nat} (e : Event) (cb : Option Nat) {rt : Int}

/-- With the table that it makes, `addEvent` goes on as if it had been there. -/
theorem addEvent_resized (rt : Int) (hsize : s.intSize ≤ fd) (hnew : (s.contextResize (fd * 3 / 2)).intSize > fd) :
    s.addEvent caller fd e cb rt = (s.contextResize (fd * 3 / 2)).addEvent caller fd e cb rt := by
  unfold IOManager.addEvent
  rw [if_neg (Int.not_lt.mpr hsize), if_pos hnew]

/-- A failed attempt on an fd past the end leaves the table that it has made. -/
theorem addEvent_fails (hsize : s.intSize ≤ fd) (hlen : s.fdContexts.length ≤ fd) (hfd : fd < fd * 3 / 2) (hrt : rt ≠ 0) :
    ∃ out, s.addEvent caller fd e cb rt = some (out, s.contextResize (fd * 3 / 2)) := by
  have hnew : (s.contextResize (fd * 3 / 2)).fdContexts[fd]? = some { fd } := by
    rw [IOManager.contextResize, List.getElem?_map, List.getElem?_range hfd, Option.map_some, List.getElem?_eq_none hlen,
      Option.getD_none]
  have hfree : ({ fd } : FdContext).events &&& e.mask = 0 := BitVec.zero_and
  unfold IOManager.addEvent
  rw [if_neg (Int.not_lt.mpr hsize)]
  dsimp only
  rw [hnew, Option.bind_eq_bind, Option.bind_some, if_neg (not_not_intro hfree), if_pos hrt]
  exact ⟨_, rfl⟩

end

/-- A callback is registered on fd 3 by a thread without a scheduler, and the event cancelled. -/
def fromOutside : List Op := [.addEvent ⟨none, 1, .EXEC⟩ 3 .READ (some 7) 0, .cancelEvent 3 .READ 0]

/-- Readers on fd 10 and on fd 3, and between them an attempt on an fd for which there are 2^31
    contexts and one. -/
def withLargeFd : List Op :=
  [.addEvent ⟨some 0, 1, .EXEC⟩ 10 .READ (some 7) 0, .addEvent ⟨some 0, 1, .EXEC⟩ 1431655766 .READ (some 8) (-1),
    .addEvent ⟨some 0, 1, .EXEC⟩ 3 .READ (some 9) 0]

/-- The reader on fd 10. -/
def oneReader : IOManager := ofSlots ((List.replicate 32 {}).set 10 { read := some ⟨0, .cb 7⟩ })

/-- The scheduler that is to take the callback is null; and the size of the large table is
    negative as an `int`, so the last reader resizes it to four contexts. -/
theorem handlers_lost :
    (Throughout Legal IOManager.init fromOutside ∧ ¬ ∃ moves s, Trace IOManager.init fromOutside moves s) ∧
      ∃ moves s, Trace IOManager.init withLargeFd moves s ∧ ¬ Bookkept s := by
  refine ⟨⟨by decide, ?_⟩, ?_⟩
  · rintro ⟨moves, s, htrace⟩
    have hnone : fromOutside.foldlM (fun s op => (op.exec s).map (·.2)) IOManager.init = none := by decide
    rw [htrace.foldlM] at hnone
    cases hnone
  · have hlen : oneReader.fdContexts.length = 32 := by decide
    have hsize : oneReader.intSize = 32 := by rw [IOManager.intSize, hlen]; decide
    have hnegative : (oneReader.contextResize 2147483649).intSize ≤ 3 := by
      rw [IOManager.intSize, length_contextResize]
      decide
    have hsmall : (oneReader.contextResize 2147483649).contextResize 4 = oneReader.contextResize 4 :=
      contextResize_twice _ (by decide)
    obtain ⟨⟨out₁, s₁⟩, h₁, hs₁⟩ := Option.map_eq_some_iff.mp (by decide :
      ((Op.addEvent ⟨some 0, 1, .EXEC⟩ 10 .READ (some 7) 0).exec IOManager.init).map (·.2) = some oneReader)
    obtain rfl : s₁ = oneReader := hs₁
    obtain ⟨out₂, h₂⟩ := @addEvent_fails oneReader ⟨some 0, 1, .EXEC⟩ 1431655766 .READ (some 8) (-1) (by rw [hsize]; decide)
      (by rw [hlen]; decide) (by decide) (by decide)
    have hresized := @addEvent_resized (oneReader.contextResize 2147483649) ⟨some 0, 1, .EXEC⟩ 3 .READ (some 9) 0 hnegative
      (by rw [hsmall]; decide)
    rw [hsmall] at hresized
    obtain ⟨⟨out₃, s₃⟩, h₃, hs₃⟩ := Option.map_eq_some_iff.mp (by decide :
      ((oneReader.contextResize 4).addEvent ⟨some 0, 1, .EXEC⟩ 3 .READ (some 9) 0).map
        (fun r => (r.2.pendingEventCount, (r.2.fdContexts.map FdContext.bits).sum)) = some (2, 1))
    refine ⟨_, s₃, .cons h₁ (.cons h₂ (.cons (hresized.trans h₃) (.nil _))), fun h => ?_⟩
    obtain ⟨hcount, hsum⟩ := Prod.mk.inj hs₃
    have := h.count
    dsimp only at hcount hsum
    omega

end LjrServer.IoManager
