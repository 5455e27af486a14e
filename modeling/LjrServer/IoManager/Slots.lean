/-
  LjrServer.IoManager.Slots — what `IOManager` is an implementation of: for each fd, at
  most one handler waiting for reading and one for writing.

  A `Slot` is what one fd waits for. The bit mask, the two event contexts and the pending
  count are functions of the slots (`ofSlots`), and every operation goes from one such
  state to another.

  Proved:
  - `exec_effect`: an operation that is legal and hosted hits no assertion and leaves the slots
    alone, puts a handler into a free place, or clears part of one slot and schedules what it
    cleared (`delEvent` schedules nothing).
-/

import LjrServer.IoManager.Events
import Mathlib.Algebra.GroupWithZero.Nat
import Mathlib.Algebra.Ring.Int.Defs

namespace LjrServer.IoManager

/-! ## Slots -/

/-- What an fd waits for. -/
structure Slot where
  read : Option Scheduled := none
  write : Option Scheduled := none
  deriving DecidableEq, Repr

namespace Slot

def get (σ : Slot) : Event → Option Scheduled
  | .NONE => none
  | .READ => σ.read
  | .WRITE => σ.write

def put (σ : Slot) (event : Event) (h : Scheduled) : Slot :=
  match event with
  | .NONE => σ
  | .READ => { σ with read := some h }
  | .WRITE => { σ with write := some h }

def clear (σ : Slot) (rd wr : Bool) : Slot :=
  { read := if rd then none else σ.read, write := if wr then none else σ.write }

/-- The handlers a clearing of both kinds schedules, in order. -/
def fired (σ : Slot) (rd wr : Bool) : List Scheduled :=
  (if rd then σ.read.toList else []) ++ (if wr then σ.write.toList else [])

def count (σ : Slot) : Nat := σ.read.toList.length + σ.write.toList.length

def arm : Option Scheduled → EventContext
  | none => {}
  | some ⟨s, .fiber f⟩ => { scheduler := some s, fiber := some f }
  | some ⟨s, .cb c⟩ => { scheduler := some s, cb := some c }

def mask (r w : Bool) : BitVec 32 := (if r then Event.READ.mask else 0) ||| (if w then Event.WRITE.mask else 0)

def ctx (σ : Slot) (fd : Nat) : FdContext :=
  { fd, read := arm σ.read, write := arm σ.write, events := mask σ.read.isSome σ.write.isSome }

end Slot

def total (slots : List Slot) : Int := ((slots.map Slot.count).sum : Nat)

/-- The state the slots determine. -/
def ofSlots (slots : List Slot) : IOManager :=
  { fdContexts := slots.mapIdx fun fd σ => σ.ctx fd, pendingEventCount := total slots }

def slotAt (slots : List Slot) (fd : Nat) : Slot := slots[fd]?.getD {}

theorem mask_eq_zero (σ : Slot) (fd : Nat) (e : Event) : (σ.ctx fd).events &&& e.mask = 0 ↔ σ.get e = none := by
  obtain ⟨r, w⟩ := σ
  cases e <;> cases r <;> cases w <;> simp [Slot.ctx, Slot.mask, Slot.get, Event.mask]

theorem events_eq_zero (σ : Slot) (fd : Nat) : (σ.ctx fd).events = 0 ↔ σ.read = none ∧ σ.write = none := by
  obtain ⟨r, w⟩ := σ
  cases r <;> cases w <;> simp [Slot.ctx, Slot.mask, Event.mask]

theorem length_ofSlots (slots : List Slot) : (ofSlots slots).fdContexts.length = slots.length := by simp [ofSlots]

theorem intSize_ofSlots {slots : List Slot} (h : slots.length < 2 ^ 31) : (ofSlots slots).intSize = slots.length := by
  rw [IOManager.intSize_of_lt (by rwa [length_ofSlots]), length_ofSlots]

theorem getElem?_ofSlots (slots : List Slot) (fd : Nat) :
    (ofSlots slots).fdContexts[fd]? = slots[fd]?.map (·.ctx fd) := by simp [ofSlots]

theorem slotAt_eq {slots : List Slot} {fd : Nat} (h : fd < slots.length) : slots[fd]? = some (slotAt slots fd) := by
  simp [slotAt, h]

theorem slotAt_set {slots : List Slot} {fd : Nat} (h : fd < slots.length) (σ : Slot) (j : Nat) :
    slotAt (slots.set fd σ) j = if j = fd then σ else slotAt slots j := by
  unfold slotAt
  rw [List.getElem?_set]
  by_cases e : fd = j
  · subst e
    simp [h]
  · rw [if_neg e, if_neg (Ne.symm e)]

theorem total_set : ∀ {slots : List Slot} {fd : Nat} (_ : fd < slots.length) (σ : Slot),
    total (slots.set fd σ) = total slots - (slotAt slots fd).count + σ.count
  | [], _, h, _ => absurd h (Nat.not_lt_zero _)
  | τ :: slots, 0, _, σ => by
    simp only [total, slotAt, List.set_cons_zero, List.map_cons, List.sum_cons, List.getElem?_cons_zero, Option.getD_some]
    omega
  | τ :: slots, fd + 1, h, σ => by
    have ih := total_set (show fd < slots.length from Nat.lt_of_succ_lt_succ h) σ
    simp only [total, slotAt, List.set_cons_succ, List.map_cons, List.sum_cons, List.getElem?_cons_succ] at ih ⊢
    omega

/-- Replacing one slot: its context, and the count by as much as the slot's handlers. -/
theorem setFd_ofSlots {slots : List Slot} {fd : Nat} (h : fd < slots.length) (σ : Slot) {n : Int}
    (hn : n = total slots - (slotAt slots fd).count + σ.count) :
    IOManager.setFd { ofSlots slots with pendingEventCount := n } fd (σ.ctx fd) = ofSlots (slots.set fd σ) := by
  rw [hn, ← total_set h σ]
  simp [IOManager.setFd, ofSlots, List.mapIdx_set]

theorem total_grow (slots : List Slot) (n : Nat) : total (slots ++ List.replicate n ({} : Slot)) = total slots := by
  simp [total, Slot.count]

theorem contextResize_ofSlots (slots : List Slot) {n : Nat} (hn : slots.length ≤ n) :
    (ofSlots slots).contextResize n = ofSlots (slots ++ List.replicate (n - slots.length) ({} : Slot)) := by
  have hctx : ((List.range n).map fun i => (ofSlots slots).fdContexts[i]?.getD { fd := i }) =
      (slots ++ List.replicate (n - slots.length) ({} : Slot)).mapIdx fun fd σ => σ.ctx fd := by
    apply List.ext_getElem?
    intro i
    rw [List.getElem?_map, List.getElem?_mapIdx]
    by_cases hi : i < slots.length
    · simp [getElem?_ofSlots, List.getElem?_append_left hi, List.getElem?_range (show i < n by omega), hi]
    · by_cases hi' : i < n
      · rw [List.getElem?_range hi', List.getElem?_append_right (by omega), List.getElem?_replicate_of_lt (by omega),
          Option.map_some, getElem?_ofSlots, List.getElem?_eq_none (by omega)]
        rfl
      · rw [List.getElem?_eq_none (by simp; omega), List.getElem?_eq_none (by simp; omega)]
        rfl
  rw [IOManager.contextResize, hctx]
  unfold ofSlots
  rw [total_grow]

theorem slotAt_grow (slots : List Slot) (n fd : Nat) :
    slotAt (slots ++ List.replicate n ({} : Slot)) fd = slotAt slots fd := by
  unfold slotAt
  by_cases h : fd < slots.length
  · rw [List.getElem?_append_left h]
  · rw [List.getElem?_append_right (by omega), List.getElem?_eq_none (l := slots) (by omega), List.getElem?_replicate]
    split <;> rfl

/-! ## The operations on slots -/

theorem mask_clear (r w : Bool) (e : Event) :
    Slot.mask r w &&& ~~~e.mask = Slot.mask (r && e ≠ .READ) (w && e ≠ .WRITE) := by
  cases e <;> cases r <;> cases w <;> decide

theorem mask_set (r w : Bool) (e : Event) :
    Slot.mask r w ||| e.mask = Slot.mask (r || e = .READ) (w || e = .WRITE) := by
  cases e <;> cases r <;> cases w <;> decide

theorem arm_getContext (σ : Slot) (fd : Nat) {e : Event} (he : e ≠ .NONE) :
    (σ.ctx fd).getContext e = some (Slot.arm (σ.get e)) := by
  cases e with
  | NONE => exact absurd rfl he
  | READ => rfl
  | WRITE => rfl

theorem triggerEvent_ctx {σ : Slot} {e : Event} {h : Scheduled} (he : σ.get e = some h) (fd : Nat) :
    (σ.ctx fd).triggerEvent e = some ([h], (σ.clear (e = .READ) (e = .WRITE)).ctx fd) := by
  have hset : ¬ (σ.ctx fd).events &&& e.mask = 0 := by
    rw [mask_eq_zero, he]
    exact Option.some_ne_none h
  rw [FdContext.triggerEvent, if_neg hset]
  have hm : (σ.ctx fd).events &&& ~~~e.mask = Slot.mask (σ.read.isSome && e ≠ .READ) (σ.write.isSome && e ≠ .WRITE) :=
    mask_clear _ _ e
  rw [hm]
  obtain ⟨r, w⟩ := σ
  obtain ⟨s, t⟩ := h
  cases e with
  | NONE => cases he
  | READ =>
    obtain rfl : r = some ⟨s, t⟩ := he
    cases t <;> cases w <;> rfl
  | WRITE =>
    obtain rfl : w = some ⟨s, t⟩ := he
    cases t <;> cases r <;> rfl

theorem mask_read (rd wr : Bool) : Slot.mask rd wr &&& Event.READ.mask ≠ 0 ↔ rd = true := by
  cases rd <;> cases wr <;> decide

theorem mask_write (rd wr : Bool) : Slot.mask rd wr &&& Event.WRITE.mask ≠ 0 ↔ wr = true := by
  cases rd <;> cases wr <;> decide

theorem triggerIf_read (σ : Slot) (fd : Nat) {m : BitVec 32} {rd : Bool} (hm : m &&& Event.READ.mask ≠ 0 ↔ rd = true)
    (hr : rd = true → σ.read ≠ none) :
    IOManager.triggerIf m .READ (σ.ctx fd) =
      some (if rd then σ.read.toList else [], (σ.clear rd false).ctx fd, if rd then 1 else 0) := by
  unfold IOManager.triggerIf
  cases rd with
  | false =>
    rw [if_neg fun h => Bool.noConfusion (hm.mp h)]
    rfl
  | true =>
    obtain ⟨h, he⟩ := Option.ne_none_iff_exists'.mp (hr rfl)
    rw [if_pos (hm.mpr rfl), triggerEvent_ctx (show σ.get .READ = some h from he), he]
    rfl

theorem triggerIf_write (σ : Slot) (fd : Nat) {m : BitVec 32} {w : Bool} (hm : m &&& Event.WRITE.mask ≠ 0 ↔ w = true)
    (hw : w = true → σ.write ≠ none) :
    IOManager.triggerIf m .WRITE (σ.ctx fd) =
      some (if w then σ.write.toList else [], (σ.clear false w).ctx fd, if w then 1 else 0) := by
  unfold IOManager.triggerIf
  cases w with
  | false =>
    rw [if_neg fun h => Bool.noConfusion (hm.mp h)]
    rfl
  | true =>
    obtain ⟨h, he⟩ := Option.ne_none_iff_exists'.mp (hw rfl)
    rw [if_pos (hm.mpr rfl), triggerEvent_ctx (show σ.get .WRITE = some h from he), he]
    rfl

/-! ## One operation -/

def Op.isDel : Op → Bool
  | .delEvent _ _ _ => true
  | _ => false

/-- What `addEvent` is asked to register. -/
def Op.handler : Op → Option Scheduled
  | .addEvent caller _ _ cb _ =>
    caller.scheduler.map fun s => ⟨s, match cb with | some c => .cb c | none => .fiber caller.fiber⟩
  | _ => none

/-- What an operation does to the slots. -/
inductive Effect (slots : List Slot) (op : Op) (out : Outcome) (slots' : List Slot) : Prop
  | stay : out.ok = false → out.scheduled = [] → (∀ fd, slotAt slots' fd = slotAt slots fd) →
      total slots' = total slots → Effect slots op out slots'
  | accept {caller : Caller} {fd : Nat} {e : Event} {cb : Option Nat} {h : Scheduled} : op = .addEvent caller fd e cb 0 →
      op.handler = some h → e ≠ .NONE → (slotAt slots fd).get e = none → out.ok = true → out.scheduled = [] →
      (∀ j, slotAt slots' j = if j = fd then (slotAt slots fd).put e h else slotAt slots j) → Effect slots op out slots'
  | clear (rd wr : Bool) : (∀ caller fd e cb rt, op ≠ .addEvent caller fd e cb rt) → op.rt = 0 →
      out.scheduled = (if op.isDel then [] else (slotAt slots op.fd).fired rd wr) →
      (∀ j, slotAt slots' j = if j = op.fd then (slotAt slots op.fd).clear rd wr else slotAt slots j) →
      Effect slots op out slots'

/-- An event is added that is not set, and `epoll_wait` reports only what is registered, besides
    errors and hang-ups. -/
def Legal (s : IOManager) : Op → Prop
  | .addEvent _ fd event _ _ => event ≠ .NONE ∧ ∀ c, s.fdContexts[fd]? = some c → c.events &&& event.mask = 0
  | .dispatch fd events _ => ∃ c, s.fdContexts[fd]? = some c ∧ events &&& (EPOLLIN ||| EPOLLOUT) &&& ~~~c.events = 0
  | _ => True

/-- `addEvent` is called from inside a scheduler, for the calling fiber only while that executes,
    and the table it may have to make has an `int` for its size. -/
def Hosted (s : IOManager) : Op → Prop
  | .addEvent caller fd _ cb _ =>
    caller.scheduler ≠ none ∧ (cb = none → caller.state = .EXEC) ∧ (s.intSize ≤ fd → fd * 3 / 2 < 2 ^ 31)
  | _ => True

instance (s : IOManager) (op : Op) : Decidable (Legal s op) :=
  match op with
  | .addEvent _ fd event _ _ =>
    inferInstanceAs (Decidable (event ≠ .NONE ∧ ∀ c ∈ s.fdContexts[fd]?, c.events &&& event.mask = 0))
  | .dispatch fd events _ =>
    inferInstanceAs (Decidable (∃ c ∈ s.fdContexts[fd]?, events &&& (EPOLLIN ||| EPOLLOUT) &&& ~~~c.events = 0))
  | .delEvent _ _ _ | .cancelEvent _ _ _ | .cancelAll _ _ => inferInstanceAs (Decidable True)

instance (s : IOManager) (op : Op) : Decidable (Hosted s op) :=
  match op with
  | .addEvent caller fd _ cb _ =>
    inferInstanceAs (Decidable (caller.scheduler ≠ none ∧ (cb = none → caller.state = .EXEC) ∧
      (s.intSize ≤ fd → fd * 3 / 2 < 2 ^ 31)))
  | .delEvent _ _ _ | .cancelEvent _ _ _ | .cancelAll _ _ | .dispatch _ _ _ => inferInstanceAs (Decidable True)

theorem clear_count (σ : Slot) (rd wr : Bool) : ((σ.clear rd wr).count : Int) = σ.count - (σ.fired rd wr).length := by
  obtain ⟨r, w⟩ := σ
  cases r <;> cases w <;> cases rd <;> cases wr <;> rfl

/-- A step that clears part of one slot. -/
theorem clear_state {slots : List Slot} {fd : Nat} (h : fd < slots.length) (rd wr : Bool) {n : Int}
    (hn : n = total slots - ((slotAt slots fd).fired rd wr).length) :
    IOManager.setFd { ofSlots slots with pendingEventCount := n } fd (((slotAt slots fd).clear rd wr).ctx fd) =
      ofSlots (slots.set fd ((slotAt slots fd).clear rd wr)) :=
  setFd_ofSlots h _ (by rw [hn, clear_count]; omega)

theorem setContext_clear {σ : Slot} {e : Event} (he : e ≠ .NONE) (fd : Nat) :
    ({ σ.ctx fd with events := (σ.ctx fd).events &&& ~~~e.mask } : FdContext).setContext e {} =
      (σ.clear (e = .READ) (e = .WRITE)).ctx fd := by
  have hm : (σ.ctx fd).events &&& ~~~e.mask = Slot.mask (σ.read.isSome && e ≠ .READ) (σ.write.isSome && e ≠ .WRITE) :=
    mask_clear _ _ e
  rw [hm]
  obtain ⟨r, w⟩ := σ
  cases e with
  | NONE => exact absurd rfl he
  | READ => cases r <;> cases w <;> rfl
  | WRITE => cases r <;> cases w <;> rfl

theorem fired_one {σ : Slot} {e : Event} {h : Scheduled} (he : σ.get e = some h) :
    σ.fired (e = .READ) (e = .WRITE) = [h] := by
  cases e with
  | NONE => cases he
  | READ => simp [Slot.fired, show σ.read = some h from he]
  | WRITE => simp [Slot.fired, show σ.write = some h from he]

theorem getContext_ne_none {c : FdContext} {e : Event} (he : e ≠ .NONE) : ∃ ctx, c.getContext e = some ctx := by
  cases e with
  | NONE => exact absurd rfl he
  | READ => exact ⟨_, rfl⟩
  | WRITE => exact ⟨_, rfl⟩

theorem get_some {σ : Slot} {e : Event} {h : Scheduled} (he : σ.get e = some h) (fd : Nat) :
    e ≠ .NONE ∧ ¬ (σ.ctx fd).events &&& e.mask = 0 := by
  refine ⟨?_, by rw [mask_eq_zero, he]; exact Option.some_ne_none h⟩
  rintro rfl
  cases he

theorem delEvent_effect {slots : List Slot} (hlt : slots.length < 2 ^ 31) (fd : Nat) (e : Event) (rt : Int) :
    ∃ out slots', (ofSlots slots).delEvent fd e rt = some (out, ofSlots slots') ∧ slots'.length = slots.length ∧
      Effect slots (.delEvent fd e rt) out slots' := by
  unfold IOManager.delEvent
  rw [intSize_ofSlots hlt]
  by_cases hlen : (slots.length : Int) ≤ fd
  · exact ⟨_, slots, if_pos hlen, rfl, .stay rfl rfl (fun _ => rfl) rfl⟩
  have hfd : fd < slots.length := by omega
  rw [if_neg hlen, getElem?_ofSlots, slotAt_eq hfd]
  cases he : (slotAt slots fd).get e with
  | none => exact ⟨_, slots, if_pos ((mask_eq_zero _ fd e).mpr he), rfl, .stay rfl rfl (fun _ => rfl) rfl⟩
  | some h =>
    obtain ⟨hne, hset⟩ := get_some he fd
    by_cases hrt : rt = 0
    · obtain ⟨ctx, hctx⟩ := getContext_ne_none
        (c := { (slotAt slots fd).ctx fd with events := ((slotAt slots fd).ctx fd).events &&& ~~~e.mask }) hne
      have hs := clear_state hfd (e = .READ) (e = .WRITE) (n := total slots - 1) (by rw [fired_one he]; rfl)
      simp only [Option.map_some, Option.bind_eq_bind, Option.bind_some, hset, if_false, hrt, ne_eq, not_true, hctx,
        FdContext.resetContext, setContext_clear hne]
      exact ⟨_, _, congrArg (fun s => some (_, s)) hs, by simp,
        .clear (e = .READ) (e = .WRITE) (fun _ _ _ _ _ => by simp) rfl rfl (slotAt_set hfd _)⟩
    · exact ⟨_, slots, (if_neg hset).trans (if_pos hrt), rfl, .stay rfl rfl (fun _ => rfl) rfl⟩

/-- After a `cancelEvent` whose `epoll_ctl` succeeds nothing waits for the event. -/
theorem cancelEvent_effect {slots : List Slot} (hlt : slots.length < 2 ^ 31) (fd : Nat) (e : Event) (rt : Int) :
    ∃ out slots', (ofSlots slots).cancelEvent fd e rt = some (out, ofSlots slots') ∧ slots'.length = slots.length ∧
      Effect slots (.cancelEvent fd e rt) out slots' ∧ (rt = 0 → (slotAt slots' fd).get e = none) := by
  unfold IOManager.cancelEvent
  rw [intSize_ofSlots hlt]
  by_cases hlen : (slots.length : Int) ≤ fd
  · have hfree : (slotAt slots fd).get e = none := by
      rw [slotAt, List.getElem?_eq_none (by omega)]
      cases e <;> rfl
    exact ⟨_, slots, if_pos hlen, rfl, .stay rfl rfl (fun _ => rfl) rfl, fun _ => hfree⟩
  have hfd : fd < slots.length := by omega
  rw [if_neg hlen, getElem?_ofSlots, slotAt_eq hfd]
  cases he : (slotAt slots fd).get e with
  | none =>
    exact ⟨_, slots, if_pos ((mask_eq_zero _ fd e).mpr he), rfl, .stay rfl rfl (fun _ => rfl) rfl, fun _ => he⟩
  | some h =>
    obtain ⟨_, hset⟩ := get_some he fd
    by_cases hrt : rt = 0
    · have hs := clear_state hfd (e = .READ) (e = .WRITE) (n := total slots - 1) (by rw [fired_one he]; rfl)
      simp only [Option.map_some, Option.bind_eq_bind, Option.bind_some, hset, if_false, hrt, ne_eq, not_true,
        triggerEvent_ctx he]
      refine ⟨_, _, congrArg (fun s => some (_, s)) hs, by simp,
        .clear (e = .READ) (e = .WRITE) (fun _ _ _ _ _ => by simp) rfl (fired_one he).symm (slotAt_set hfd _), fun _ => ?_⟩
      rw [slotAt_set hfd, if_pos rfl]
      cases e <;> rfl
    · exact ⟨_, slots, (if_neg hset).trans (if_pos hrt), rfl, .stay rfl rfl (fun _ => rfl) rfl, fun h => absurd h hrt⟩

/-- The two triggers of `cancelAll` and of a dispatch: the tasks and how much the count goes down. -/
theorem triggers_effect {slots : List Slot} {fd : Nat} (hfd : fd < slots.length) {r w : Bool}
    (hr : r = true → (slotAt slots fd).read ≠ none) (hw : w = true → (slotAt slots fd).write ≠ none) :
    IOManager.setFd { ofSlots slots with
        pendingEventCount := total slots - (if r then 1 else 0) - (if w then 1 else 0) } fd
        (((slotAt slots fd).clear r w).ctx fd) = ofSlots (slots.set fd ((slotAt slots fd).clear r w)) := by
  apply clear_state hfd r w
  have h : (((slotAt slots fd).fired r w).length : Int) = (if r then 1 else 0) + (if w then 1 else 0) := by
    unfold Slot.fired
    have hlen : ∀ {b : Bool} {o : Option Scheduled}, (b = true → o ≠ none) →
        ((if b then o.toList else []).length : Int) = if b then 1 else 0 := by
      intro b o h
      cases b with
      | false => rfl
      | true =>
        obtain ⟨x, hx⟩ := Option.ne_none_iff_exists'.mp (h rfl)
        rw [hx]
        rfl
    rw [List.length_append, Int.natCast_add, hlen hr, hlen hw]
  omega

theorem cancelAll_effect {slots : List Slot} (hlt : slots.length < 2 ^ 31) (fd : Nat) (rt : Int) :
    ∃ out slots', (ofSlots slots).cancelAll fd rt = some (out, ofSlots slots') ∧ slots'.length = slots.length ∧
      Effect slots (.cancelAll fd rt) out slots' := by
  unfold IOManager.cancelAll
  rw [intSize_ofSlots hlt]
  by_cases hlen : (slots.length : Int) ≤ fd
  · exact ⟨_, slots, if_pos hlen, rfl, .stay rfl rfl (fun _ => rfl) rfl⟩
  have hfd : fd < slots.length := by omega
  rw [if_neg hlen, getElem?_ofSlots, slotAt_eq hfd]
  by_cases h0 : ((slotAt slots fd).ctx fd).events = 0
  · exact ⟨_, slots, if_pos h0, rfl, .stay rfl rfl (fun _ => rfl) rfl⟩
  by_cases hrt : rt = 0
  · generalize hσ : slotAt slots fd = σ at h0
    have h1 := triggerIf_read σ fd (m := (σ.ctx fd).events) (mask_read _ _) Option.isSome_iff_ne_none.mp
    have h2 := triggerIf_write (σ.clear σ.read.isSome false) fd (m := ((σ.clear σ.read.isSome false).ctx fd).events)
      (w := σ.write.isSome) (mask_write _ _) Option.isSome_iff_ne_none.mp
    have h3 : ((σ.clear σ.read.isSome σ.write.isSome).ctx fd).events = 0 := by
      rw [events_eq_zero]
      obtain ⟨r, w⟩ := σ
      cases r <;> cases w <;> exact ⟨rfl, rfl⟩
    have hclear : (σ.clear σ.read.isSome false).clear false σ.write.isSome = σ.clear σ.read.isSome σ.write.isSome := rfl
    have hs := triggers_effect hfd (r := σ.read.isSome) (w := σ.write.isSome) (by rw [hσ]; exact Option.isSome_iff_ne_none.mp)
      (by rw [hσ]; exact Option.isSome_iff_ne_none.mp)
    rw [hσ] at hs
    simp only [Option.map_some, Option.bind_eq_bind, Option.bind_some, h0, if_false, hrt, ne_eq, not_true, h1, h2, hclear, h3]
    subst hσ
    exact ⟨_, _, congrArg (fun s => some (_, s)) hs, by simp,
      .clear _ _ (fun _ _ _ _ _ => by simp) rfl rfl (slotAt_set hfd _)⟩
  · exact ⟨_, slots, (if_neg h0).trans (if_pos hrt), rfl, .stay rfl rfl (fun _ => rfl) rfl⟩

theorem and_one_ne_zero (m : BitVec 32) : m &&& EPOLLIN ≠ 0 ↔ m.getLsbD 0 = true := by
  rw [show EPOLLIN = BitVec.twoPow 32 0 from rfl, BitVec.and_twoPow]
  cases m.getLsbD 0 <;> decide

theorem and_four_ne_zero (m : BitVec 32) : m &&& EPOLLOUT ≠ 0 ↔ m.getLsbD 2 = true := by
  rw [show EPOLLOUT = BitVec.twoPow 32 2 from rfl, BitVec.and_twoPow]
  cases m.getLsbD 2 <;> decide

/-- What `idle` makes of the mask `epoll_wait` reported. -/
def withErrors (events registered : BitVec 32) : BitVec 32 :=
  if events &&& (EPOLLERR ||| EPOLLHUP) ≠ 0 then events ||| ((EPOLLIN ||| EPOLLOUT) &&& registered) else events

/-- An error or a hang-up stands for registered events only. -/
theorem withErrors_registered {events c : BitVec 32} (h : events &&& (EPOLLIN ||| EPOLLOUT) &&& ~~~c = 0) :
    (withErrors events c &&& EPOLLIN ≠ 0 → c &&& EPOLLIN ≠ 0) ∧
      (withErrors events c &&& EPOLLOUT ≠ 0 → c &&& EPOLLOUT ≠ 0) := by
  have h0 := congrArg (BitVec.getLsbD · 0) h
  have h2 := congrArg (BitVec.getLsbD · 2) h
  simp [EPOLLIN, EPOLLOUT] at h0 h2
  rw [and_one_ne_zero, and_one_ne_zero, and_four_ne_zero, and_four_ne_zero]
  unfold withErrors
  split
  · simp [EPOLLIN, EPOLLOUT]
    exact ⟨fun h => h.elim h0 id, fun h => h.elim h2 id⟩
  · exact ⟨h0, h2⟩

/-- The mask a dispatch takes the events from. -/
def realEvents (events registered : BitVec 32) : BitVec 32 :=
  Slot.mask (withErrors events registered &&& EPOLLIN ≠ 0) (withErrors events registered &&& EPOLLOUT ≠ 0)

/-- A dispatch, by the mask it triggers. -/
theorem dispatch_ofSlots {slots : List Slot} {fd : Nat} (hfd : fd < slots.length) (events : BitVec 32) (rt : Int) :
    (ofSlots slots).dispatch fd events rt =
      let c := (slotAt slots fd).ctx fd
      let real := realEvents events c.events
      if c.events &&& real = 0 then some ({ ok := false }, ofSlots slots)
      else
        let left := c.events &&& ~~~real
        let ctl : Ctl := ⟨if left ≠ 0 then .EPOLL_CTL_MOD else .EPOLL_CTL_DEL, c.fd, EPOLLET ||| left⟩
        if rt ≠ 0 then some ({ ok := false, ctl }, ofSlots slots)
        else
          (IOManager.triggerIf real .READ c).bind fun (reads, c, n) =>
            (IOManager.triggerIf real .WRITE c).bind fun (writes, c, m) =>
              let s := { ofSlots slots with pendingEventCount := (ofSlots slots).pendingEventCount - n - m }
              some ({ ok := true, ctl, scheduled := reads ++ writes }, s.setFd fd c) := by
  have hreal : ∀ m : BitVec 32, (if m &&& EPOLLIN ≠ 0 then Event.READ.mask else 0) |||
      (if m &&& EPOLLOUT ≠ 0 then Event.WRITE.mask else 0) = Slot.mask (m &&& EPOLLIN ≠ 0) (m &&& EPOLLOUT ≠ 0) := by
    intro m
    simp only [Slot.mask, decide_eq_true_eq]
  unfold IOManager.dispatch
  simp only [getElem?_ofSlots, slotAt_eq hfd, Option.map_some, Option.bind_eq_bind, Option.bind_some, hreal]
  rfl

/-- A dispatch that triggers nothing, or registered events only. -/
theorem dispatch_effect_of {slots : List Slot} {fd : Nat} (hfd : fd < slots.length) (events : BitVec 32) (rt : Int)
    {rd wr : Bool} (hreal : realEvents events ((slotAt slots fd).ctx fd).events = Slot.mask rd wr)
    (hsafe : ((slotAt slots fd).ctx fd).events &&& Slot.mask rd wr ≠ 0 → rt = 0 →
      (rd = true → (slotAt slots fd).read ≠ none) ∧ (wr = true → (slotAt slots fd).write ≠ none)) :
    ∃ out slots', (ofSlots slots).dispatch fd events rt = some (out, ofSlots slots') ∧ slots'.length = slots.length ∧
      Effect slots (.dispatch fd events rt) out slots' ∧ total slots' = total slots - out.scheduled.length := by
  rw [dispatch_ofSlots hfd]
  simp only [hreal]
  by_cases h0 : ((slotAt slots fd).ctx fd).events &&& Slot.mask rd wr = 0
  · exact ⟨_, slots, if_pos h0, rfl, .stay rfl rfl (fun _ => rfl) rfl, by simp⟩
  by_cases hrt : rt = 0
  · obtain ⟨hr, hw⟩ := hsafe h0 hrt
    have h1 := triggerIf_read (slotAt slots fd) fd (mask_read rd wr) hr
    have h2 := triggerIf_write ((slotAt slots fd).clear rd false) fd (mask_write rd wr) hw
    have hclear : ((slotAt slots fd).clear rd false).clear false wr = (slotAt slots fd).clear rd wr := by
      simp [Slot.clear]
    have hs := triggers_effect hfd hr hw
    have hcount : total (slots.set fd ((slotAt slots fd).clear rd wr)) =
        total slots - ((slotAt slots fd).fired rd wr).length := by
      rw [total_set hfd, clear_count]
      omega
    simp only [h0, if_false, hrt, ne_eq, not_true, h1, h2, hclear, Option.bind_some]
    exact ⟨_, _, congrArg (fun s => some (_, s)) hs, by simp,
      .clear rd wr (fun _ _ _ _ _ => by simp) rfl rfl (slotAt_set hfd _), hcount⟩
  · exact ⟨_, slots, (if_neg h0).trans (if_pos hrt), rfl, .stay rfl rfl (fun _ => rfl) rfl, by simp⟩

theorem dispatch_effect (slots : List Slot) (fd : Nat) (events : BitVec 32) (rt : Int)
    (hl : Legal (ofSlots slots) (.dispatch fd events rt)) :
    ∃ out slots', (ofSlots slots).dispatch fd events rt = some (out, ofSlots slots') ∧ slots'.length = slots.length ∧
      Effect slots (.dispatch fd events rt) out slots' := by
  obtain ⟨c, hc, hready⟩ := hl
  rw [getElem?_ofSlots] at hc
  obtain ⟨σ, hσ, rfl⟩ := Option.map_eq_some_iff.mp hc
  have hfd : fd < slots.length := by
    apply Nat.lt_of_not_le
    intro h
    rw [List.getElem?_eq_none h] at hσ
    cases hσ
  obtain rfl : slotAt slots fd = σ := Option.some.inj ((slotAt_eq hfd).symm.trans hσ)
  obtain ⟨hin, hout⟩ := withErrors_registered hready
  obtain ⟨out, slots', he, hlen, heff, _⟩ := dispatch_effect_of hfd events rt rfl fun _ _ =>
    ⟨fun h => mt (mask_eq_zero _ fd .READ).mpr (hin (of_decide_eq_true h)),
      fun h => mt (mask_eq_zero _ fd .WRITE).mpr (hout (of_decide_eq_true h))⟩
  exact ⟨out, slots', he, hlen, heff⟩

theorem setContext_put {σ : Slot} {e : Event} (he : e ≠ .NONE) (fd : Nat) (h : Scheduled) :
    ({ σ.ctx fd with events := (σ.ctx fd).events ||| e.mask } : FdContext).setContext e (Slot.arm (some h)) =
      (σ.put e h).ctx fd := by
  have hm : (σ.ctx fd).events ||| e.mask = Slot.mask (σ.read.isSome || e = .READ) (σ.write.isSome || e = .WRITE) :=
    mask_set _ _ e
  rw [hm]
  obtain ⟨r, w⟩ := σ
  cases e with
  | NONE => exact absurd rfl he
  | READ => cases r <;> cases w <;> rfl
  | WRITE => cases r <;> cases w <;> rfl

theorem put_count {σ : Slot} {e : Event} (he : e ≠ .NONE) (hfree : σ.get e = none) (h : Scheduled) :
    (σ.put e h).count = σ.count + 1 := by
  obtain ⟨r, w⟩ := σ
  cases e with
  | NONE => exact absurd rfl he
  | READ =>
    obtain rfl : r = none := hfree
    simp [Slot.put, Slot.count, Nat.add_comm]
  | WRITE =>
    obtain rfl : w = none := hfree
    simp [Slot.put, Slot.count]

/-- The table after a possible resize, with the same slots. -/
theorem table_grown {slots : List Slot} (hlen : 2 ≤ slots.length) (hlt : slots.length < 2 ^ 31) {fd : Nat}
    (hsize : (ofSlots slots).intSize ≤ fd → fd * 3 / 2 < 2 ^ 31) :
    ∃ slots₁ : List Slot, (if (ofSlots slots).intSize > fd then ofSlots slots
        else (ofSlots slots).contextResize (fd * 3 / 2)) = ofSlots slots₁ ∧
      fd < slots₁.length ∧ slots.length ≤ slots₁.length ∧ slots₁.length < 2 ^ 31 ∧
      (∀ j, slotAt slots₁ j = slotAt slots j) ∧ total slots₁ = total slots := by
  rw [intSize_ofSlots hlt] at hsize ⊢
  by_cases h : (slots.length : Int) > fd
  · exact ⟨slots, if_pos h, by omega, Nat.le_refl _, hlt, fun _ => rfl, rfl⟩
  · rw [if_neg h, contextResize_ofSlots _ (by omega)]
    have hnew : (slots ++ List.replicate (fd * 3 / 2 - slots.length) ({} : Slot)).length = fd * 3 / 2 := by
      rw [List.length_append, List.length_replicate]
      omega
    have hmax := hsize (Int.not_lt.mp h)
    exact ⟨_, rfl, by omega, by omega, by omega, slotAt_grow _ _, total_grow _ _⟩

/-- The event is not set; past the end of the table none is. -/
theorem free_iff {slots : List Slot} {fd : Nat} {e : Event} :
    (∀ c, (ofSlots slots).fdContexts[fd]? = some c → c.events &&& e.mask = 0) ↔ (slotAt slots fd).get e = none := by
  by_cases h : fd < slots.length
  · rw [getElem?_ofSlots, slotAt_eq h, Option.map_some, ← mask_eq_zero _ fd]
    exact ⟨fun hfree => hfree _ rfl, fun he c hc => by cases hc; exact he⟩
  · rw [getElem?_ofSlots, slotAt, List.getElem?_eq_none (by omega)]
    exact iff_of_true (fun c hc => by cases hc) (by cases e <;> rfl)

theorem addEvent_effect {slots : List Slot} (hlen : 2 ≤ slots.length) (hlt : slots.length < 2 ^ 31) (caller : Caller)
    (fd : Nat) (e : Event) (cb : Option Nat) (rt : Int) (hl : Legal (ofSlots slots) (.addEvent caller fd e cb rt))
    (hh : Hosted (ofSlots slots) (.addEvent caller fd e cb rt)) :
    ∃ out slots', (ofSlots slots).addEvent caller fd e cb rt = some (out, ofSlots slots') ∧
      (slots.length ≤ slots'.length ∧ slots'.length < 2 ^ 31) ∧ Effect slots (.addEvent caller fd e cb rt) out slots' := by
  obtain ⟨hne, hfree⟩ := hl
  obtain ⟨hsched, hexec, hsize⟩ := hh
  obtain ⟨slots₁, hgrow, hfd, hlen₁, hlt₁, hsame, htot⟩ := table_grown hlen hlt hsize
  obtain ⟨sch, hsch⟩ := Option.ne_none_iff_exists'.mp hsched
  have he : (slotAt slots fd).get e = none := free_iff.mp hfree
  have hset : ((slotAt slots fd).ctx fd).events &&& e.mask = 0 := (mask_eq_zero _ fd e).mpr he
  have hctx : ((slotAt slots fd).ctx fd).getContext e = some {} := by
    rw [arm_getContext _ fd hne, he]
    rfl
  have hset₁ : ∀ σ, (slots₁.set fd σ).length = slots₁.length := fun σ => List.length_set
  unfold IOManager.addEvent
  simp only [hgrow, getElem?_ofSlots, slotAt_eq hfd, hsame, Option.map_some, Option.bind_eq_bind, Option.bind_some, hset,
    ne_eq, not_true, if_false]
  by_cases hrt : rt = 0
  · subst hrt
    have hs (h : Scheduled) := setFd_ofSlots hfd ((slotAt slots fd).put e h) (n := total slots₁ + 1) (by
      rw [hsame, put_count hne he]; omega)
    have hacc {h : Scheduled} (hh : (Op.addEvent caller fd e cb 0).handler = some h) (ctl : Ctl) :
        Effect slots (.addEvent caller fd e cb 0) { ok := true, ctl } (slots₁.set fd ((slotAt slots fd).put e h)) :=
      .accept rfl hh hne he rfl rfl fun j => by rw [slotAt_set hfd, hsame]
    simp only [not_true, if_false, hctx, hsch]
    cases cb with
    | some c =>
      have hs := hs ⟨sch, .cb c⟩
      rw [← setContext_put hne] at hs
      exact ⟨_, _, congrArg (fun s => some (_, s)) hs, by rw [hset₁]; exact ⟨hlen₁, hlt₁⟩,
        hacc (by simp only [Op.handler, hsch, Option.map_some]) _⟩
    | none =>
      have hs := hs ⟨sch, .fiber caller.fiber⟩
      rw [← setContext_put hne] at hs
      simp only [hexec rfl, not_true, if_false]
      exact ⟨_, _, congrArg (fun s => some (_, s)) hs, by rw [hset₁]; exact ⟨hlen₁, hlt₁⟩,
        hacc (by simp only [Op.handler, hsch, Option.map_some]) _⟩
  · rw [if_pos hrt]
    exact ⟨_, slots₁, rfl, ⟨hlen₁, hlt₁⟩, .stay rfl rfl hsame htot⟩

/-- Where no event is added, or one that is set, a call that goes through ends with its `epoll_ctl`. -/
theorem addEvent_made {slots : List Slot} (hlen : 2 ≤ slots.length) (hlt : slots.length < 2 ^ 31) {caller : Caller}
    {fd : Nat} {e : Event} {cb : Option Nat} {rt : Int} (hh : Hosted (ofSlots slots) (.addEvent caller fd e cb rt))
    (hl : ¬ Legal (ofSlots slots) (.addEvent caller fd e cb rt)) {r : Outcome × IOManager}
    (hr : (ofSlots slots).addEvent caller fd e cb rt = some r) :
    ∃ slots', r.2 = ofSlots slots' ∧ (slots.length ≤ slots'.length ∧ slots'.length < 2 ^ 31) ∧
      Effect slots (.addEvent caller fd e cb rt) r.1 slots' := by
  obtain ⟨slots₁, hgrow, hfd, hlen₁, hlt₁, hsame, htot⟩ := table_grown hlen hlt hh.2.2
  unfold IOManager.addEvent at hr
  simp only [hgrow, getElem?_ofSlots, slotAt_eq hfd, hsame, Option.map_some, Option.bind_eq_bind, Option.bind_some] at hr
  by_cases hset : ((slotAt slots fd).ctx fd).events &&& e.mask = 0
  · obtain rfl : e = .NONE := by
      by_contra hne
      exact hl ⟨hne, free_iff.mpr ((mask_eq_zero _ fd e).mp hset)⟩
    rw [if_neg (not_not_intro hset)] at hr
    split at hr
    · cases hr
      exact ⟨slots₁, rfl, ⟨hlen₁, hlt₁⟩, .stay rfl rfl hsame htot⟩
    · cases hr
  · rw [if_pos hset] at hr
    cases hr

/-- One operation that is legal and hosted: no assertion fails, and the slots say what it did. -/
theorem exec_effect {slots : List Slot} (hlen : 2 ≤ slots.length) (hlt : slots.length < 2 ^ 31) (op : Op)
    (hl : Legal (ofSlots slots) op) (hh : Hosted (ofSlots slots) op) :
    ∃ out slots', op.exec (ofSlots slots) = some (out, ofSlots slots') ∧
      (slots.length ≤ slots'.length ∧ slots'.length < 2 ^ 31) ∧ Effect slots op out slots' := by
  cases op with
  | addEvent caller fd e cb rt => exact addEvent_effect hlen hlt caller fd e cb rt hl hh
  | delEvent fd e rt =>
    obtain ⟨out, slots', he, hlen', heff⟩ := delEvent_effect hlt fd e rt
    exact ⟨out, slots', he, by omega, heff⟩
  | cancelEvent fd e rt =>
    obtain ⟨out, slots', he, hlen', heff, _⟩ := cancelEvent_effect hlt fd e rt
    exact ⟨out, slots', he, by omega, heff⟩
  | cancelAll fd rt =>
    obtain ⟨out, slots', he, hlen', heff⟩ := cancelAll_effect hlt fd rt
    exact ⟨out, slots', he, by omega, heff⟩
  | dispatch fd events rt =>
    obtain ⟨out, slots', he, hlen', heff⟩ := dispatch_effect slots fd events rt hl
    exact ⟨out, slots', he, by omega, heff⟩

end LjrServer.IoManager
