/-
  LjrServer.Hook.Process — the hooked calls on the table of `FdManager` (hook.cpp, fd_manager.cpp).

  A call looks its descriptor up with `FdMgr::GetInstance()->get(fd)` and changes the context it
  finds. A look-up at the size of the table reads past its end; a call that makes one is not a
  step. Calls are made one after another, and on descriptors that are open.

  Proved:
  - `step_view`: with the table seen as a map from numbers to contexts, a call is that call in
    `Hook.Descriptors`.
  - `described_iff`: throughout a run every socket that the library opened is described by its
    context, exactly when every call fits.
-/

import LjrServer.Hook.Descriptors
import LjrServer.Hook.FdTable

namespace LjrServer.Hook

open LjrServer.Lib

namespace FdManager

/-- The context at an address. -/
def context (m : FdManager) (ctx : Option Nat) : Option FdCtx := ctx.bind (m.contexts[·]?)

/-- What a call left of the context it found. -/
def store (m : FdManager) (ctx : Option Nat) (c : Option FdCtx) : FdManager :=
  match ctx, c with
  | some ctx, some c => m.modify ctx fun _ => c
  | _, _ => m

def setKernel (m : FdManager) (fd : Nat) (d : Descriptor) : FdManager :=
  { m with kernel := fun i => if i = fd then d else m.kernel i }

end FdManager

/-- `FdMgr`, what is open, and the sockets the library opened with what was asked of them. -/
structure Process where
  manager : FdManager
  isOpen : Nat → Bool
  asked : Nat → Option Settings

namespace Process

open Sockets (Op ms)

def init (kernel : Int → Descriptor) : Process := ⟨.init kernel, fun _ => false, fun _ => none⟩

def asks (p : Process) (fd : Nat) (asked : Option Settings) : Process :=
  { p with asked := Function.update p.asked fd asked }

def opens (p : Process) (fd : Nat) (d : Descriptor) : Option Process :=
  if p.isOpen fd then none
  else some { p with manager := p.manager.setKernel fd d, isOpen := Function.update p.isOpen fd true }

/-- `FdMgr::GetInstance()->get(fd, true)` -/
def get (p : Process) (fd : Nat) : Option Process := (p.manager.get fd true).map fun r => { p with manager := r.2 }

/-- `close` up to the system call. -/
def forget (p : Process) (fd : Nat) (hook : Bool) : Option Process :=
  if hook then do
    let (ctx, m) ← p.manager.get fd false
    if ctx.isSome then (m.call (.del fd)).map fun r => { p with manager := r.2 }
    else some { p with manager := m }
  else some p

/-- `setsockopt` of a timeout, up to the system call. -/
def setTimeout (p : Process) (fd : Nat) (optname : TimeoutType) (v : UInt64) (hook : Bool) : Option Process :=
  if hook then do
    let (ctx, m) ← p.manager.get fd false
    some { p with manager := m.store ctx ((m.context ctx).map (·.setTimeout optname v)) }
  else some p

/-- A call that sets the mode. -/
def setMode (p : Process) (fd : Nat) (c : Call) : Option Process := do
  let (ctx, m) ← p.manager.get fd false
  let f := (Fd.mk (m.context ctx) (m.kernel fd)).call c
  let p := { p with manager := (m.store ctx f.ctx).setKernel fd f.kernel }
  some (p.asks fd ((p.asked fd).map fun u => { u with nonblock := c.requestsNonblock }))

def step (p : Process) : Op → Option Process
  | .socket fd d hook =>
    if d.isSock = some true then do
      let p ← p.opens fd d
      if hook then (p.get fd).map (·.asks fd (some { nonblock := d.nonblocking })) else some (p.asks fd none)
    else none
  | .accept fd d =>
    if d.isSock = some true then do
      let p ← p.opens fd d
      (p.get fd).map (·.asks fd (some {}))
    else none
  | .foreign fd d => (p.opens fd d).map (·.asks fd none)
  | .close fd hook =>
    if p.isOpen fd then do
      let p ← p.forget fd hook
      some ({ p with isOpen := Function.update p.isOpen fd false }.asks fd none)
    else none
  | .fcntl fd arg accepted => if p.isOpen fd then p.setMode fd (.fcntl arg accepted) else none
  | .ioctl fd arg accepted => if p.isOpen fd then p.setMode fd (.ioctl arg accepted) else none
  | .setsockopt fd optname tv_sec tv_usec hook =>
    if p.isOpen fd then do
      let v := ms tv_sec tv_usec
      let p ← p.setTimeout fd optname v hook
      some (p.asks fd ((p.asked fd).map fun u => { u with timeout := Function.update u.timeout optname v }))
    else none

/-- A table that grows for a new context stays within `INT_MAX`. -/
def Room (p : Process) : Op → Prop
  | .socket fd _ _ => p.manager.intSize ≤ fd → (fd : Int) * 3 / 2 < 2 ^ 31
  | .accept fd _ => p.manager.intSize ≤ fd → (fd : Int) * 3 / 2 < 2 ^ 31
  | _ => True

instance (p : Process) (op : Op) : Decidable (p.Room op) :=
  match op with
  | .socket _ _ _ | .accept _ _ => inferInstanceAs (Decidable (_ → _))
  | .foreign _ _ | .close _ _ | .fcntl _ _ _ | .ioctl _ _ _ | .setsockopt _ _ _ _ _ => .isTrue trivial

end Process

/-! ## The table as a map -/

namespace FdManager

/-- The context a number has. -/
def contextOf (m : FdManager) (fd : Nat) : Option FdCtx := m.context (m.slot fd).join

/-- Two numbers have two contexts. -/
structure Apart (m : FdManager) : Prop where
  sound : m.Sound
  apart : ∀ i j a, m.Holds i a → m.Holds j a → i = j

variable {m m' : FdManager} {fd n a : Nat} {ctx : Option Nat} {c : FdCtx}

theorem join_slot_iff : (m.slot fd).join = some a ↔ m.Holds fd a := by
  rw [slot_eq (Int.natCast_nonneg fd), Option.join_eq_some_iff, Holds]
  exact (and_iff_right (Int.natCast_nonneg fd)).symm

theorem init_apart (kernel : Int → Descriptor) : (init kernel).Apart := by
  refine ⟨init_sound kernel, fun i j a hi => ?_⟩
  have hmem := List.mem_of_getElem? hi.2
  cases List.eq_of_mem_replicate hmem

/-- A look-up finds what the number has. -/
theorem get_false (h : m.Sound) (hg : m.get fd false = some (ctx, m')) : m' = m ∧ ctx = (m.slot fd).join := by
  have hne : (fd : Int) ≠ m.datas.length := by
    intro heq
    rw [heq, get_past_end h] at hg
    cases hg
  rcases lookup_eq h (Int.natCast_nonneg fd) hne false with ⟨a, ha, hfound⟩ | ⟨hnone, hfound⟩
  · rw [get, hfound] at hg
    cases hg
    exact ⟨rfl, (join_slot_iff.mpr ha).symm⟩
  · rw [get, hfound] at hg
    cases hg
    refine ⟨rfl, ?_⟩
    cases hjoin : (m.slot fd).join with
    | none => rfl
    | some a => exact absurd (join_slot_iff.mp hjoin) (hnone a)

/-- A number without a context is given a new one. -/
theorem get_true (h : m.Sound) (hg : m.get fd true = some (ctx, m')) :
    (∃ a, m.Holds fd a) ∧ m' = m ∨ (∀ a, ¬ m.Holds fd a) ∧ m' = (m.create fd).1 := by
  have hne : (fd : Int) ≠ m.datas.length := by
    intro heq
    rw [heq, get_past_end h] at hg
    cases hg
  rcases lookup_eq h (Int.natCast_nonneg fd) hne true with ⟨a, ha, hfound⟩ | ⟨hnone, hfound⟩
  · rw [get, hfound] at hg
    cases hg
    exact .inl ⟨⟨a, ha⟩, rfl⟩
  · rw [get, hfound] at hg
    refine .inr ⟨hnone, ?_⟩
    dsimp only at hg
    split at hg
    · rename_i hcreates
      cases hcreates
    · rename_i hcreates
      cases hcreates
    · split at hg
      · cases hg
        rfl
      · cases hg

/-- The other numbers keep their addresses when a context is made. -/
theorem create_join (h : m.Sound) (hmax : m.intSize ≤ fd → (fd : Int) * 3 / 2 < 2 ^ 31) (hn : n ≠ fd) :
    ((m.create fd).1.slot n).join = (m.slot n).join := by
  obtain ⟨more, hgrown, -, -⟩ := grown h (Int.natCast_nonneg fd) hmax
  rw [slot_eq (Int.natCast_nonneg n), slot_eq (Int.natCast_nonneg n), (create_eq m fd).2.1, hgrown, Int.toNat_natCast,
    Int.toNat_natCast, List.getElem?_set_ne (Ne.symm hn), List.getElem?_append]
  split
  · rfl
  · rename_i hge
    rw [List.getElem?_eq_none (Nat.not_lt.mp hge), List.getElem?_replicate]
    split <;> rfl

theorem contextOf_eq_none (h : ∀ a, ¬ m.Holds fd a) : m.contextOf fd = none := by
  unfold contextOf
  cases hjoin : (m.slot fd).join with
  | none => rfl
  | some a => exact absurd (join_slot_iff.mp hjoin) (h a)

theorem contextOf_of_holds (h : m.Holds fd a) : m.contextOf fd = m.contexts[a]? := by
  rw [contextOf, join_slot_iff.mpr h]
  rfl

theorem contextOf_congr (hslot : (m'.slot n).join = (m.slot n).join)
    (hcontexts : ∀ a, m.Holds n a → m'.contexts[a]? = m.contexts[a]?) : m'.contextOf n = m.contextOf n := by
  unfold contextOf context
  rw [hslot]
  cases hjoin : (m.slot n).join with
  | none => rfl
  | some a => exact hcontexts a (join_slot_iff.mp hjoin)

theorem create_contextOf (h : m.Apart) (hmax : m.intSize ≤ fd → (fd : Int) * 3 / 2 < 2 ^ 31) :
    (m.create fd).1.Apart ∧ (m.create fd).1.contextOf = Function.update m.contextOf fd (some (FdCtx.new (m.kernel fd)).1) := by
  obtain ⟨hsound, hholds, -⟩ := create_spec h.sound (Int.natCast_nonneg fd) hmax
  obtain ⟨haddr, -, hcontexts, -⟩ := create_eq m fd
  rw [haddr] at hholds
  -- what the others have was there before
  have hothers : ∀ i a, (m.create fd).1.Holds i a → i ≠ fd → m.Holds i a := by
    rintro i a hi hne
    obtain ⟨n, rfl⟩ := Int.eq_ofNat_of_zero_le hi.1
    have hn : n ≠ fd := fun heq => hne (congrArg Int.ofNat heq)
    rw [← join_slot_iff, ← create_join h.sound hmax hn]
    exact join_slot_iff.mpr hi
  have hfresh : ∀ i a, m.Holds i a → a < m.contexts.length := fun i a hi => h.sound.made a (List.mem_of_getElem? hi.2)
  refine ⟨⟨hsound, fun i j a hi hj => ?_⟩, funext fun n => ?_⟩
  · by_cases hi' : i = fd
    · by_cases hj' : j = fd
      · rw [hi', hj']
      · have hlt := hfresh j a (hothers j a hj hj')
        rw [hi'] at hi
        rw [holds_unique hi hholds] at hlt
        omega
    · by_cases hj' : j = fd
      · have hlt := hfresh i a (hothers i a hi hi')
        rw [hj'] at hj
        rw [holds_unique hj hholds] at hlt
        omega
      · exact h.apart i j a (hothers i a hi hi') (hothers j a hj hj')
  · by_cases hn : n = fd
    · rw [hn, Function.update_self, contextOf_of_holds hholds, hcontexts, List.getElem?_append_right (Nat.le_refl _),
        Nat.sub_self]
      rfl
    · rw [Function.update_of_ne hn]
      refine contextOf_congr (create_join h.sound hmax hn) fun a ha => ?_
      rw [hcontexts, List.getElem?_append_left (hfresh n a ha)]

theorem del_contextOf (h : m.Apart) : (m.del fd).Apart ∧ (m.del fd).contextOf = Function.update m.contextOf fd none := by
  obtain ⟨-, hsound, -⟩ := del_spec h.sound (Int.natCast_nonneg fd)
  have hsize := intSize_eq h.sound
  have hjoin : ∀ n : Nat, ((m.del fd).slot n).join = if n = fd then none else (m.slot n).join := by
    intro n
    rw [slot_eq (Int.natCast_nonneg n), slot_eq (Int.natCast_nonneg n), Int.toNat_natCast]
    unfold del
    split
    · rename_i hle
      split
      · rename_i hn
        rw [List.getElem?_eq_none (by omega)]
        rfl
      · rfl
    · rename_i hlt
      rw [Int.toNat_natCast]
      split
      · rename_i hn
        rw [hn, List.getElem?_set_self (by omega)]
        rfl
      · rename_i hn
        rw [List.getElem?_set_ne (Ne.symm hn)]
  have hcontexts : (m.del fd).contexts = m.contexts := by
    unfold del
    split <;> rfl
  have hold : ∀ i a, (m.del fd).Holds i a → m.Holds i a := by
    intro i a hi
    obtain ⟨n, rfl⟩ := Int.eq_ofNat_of_zero_le hi.1
    have hsome := join_slot_iff.mpr hi
    rw [hjoin] at hsome
    split at hsome
    · cases hsome
    · exact join_slot_iff.mp hsome
  refine ⟨⟨hsound, fun i j a hi hj => h.apart i j a (hold i a hi) (hold j a hj)⟩, funext fun n => ?_⟩
  by_cases hn : n = fd
  · rw [hn, Function.update_self, contextOf, hjoin, if_pos rfl]
    rfl
  · rw [Function.update_of_ne hn]
    exact contextOf_congr (by rw [hjoin, if_neg hn]) fun a _ => by rw [hcontexts]

/-- A context that is changed where it was found; without one nothing is. -/
theorem store_contextOf (h : m.Apart) (hctx : ctx = (m.slot fd).join) {c : Option FdCtx}
    (hsome : c.isSome = (m.contextOf fd).isSome) :
    (m.store ctx c).Apart ∧ (m.store ctx c).contextOf = Function.update m.contextOf fd c := by
  have hcontext : m.contextOf fd = m.context ctx := by rw [hctx, contextOf]
  cases hctx' : ctx with
  | none =>
    have hnone : m.contextOf fd = none := by rw [hcontext, hctx', context, Option.bind_none]
    rw [hnone, Option.isSome_none, Option.isSome_eq_false_iff, Option.isNone_iff_eq_none] at hsome
    exact ⟨h, by rw [hsome, ← hnone, Function.update_eq_self]; rfl⟩
  | some a =>
    have hholds : m.Holds fd a := join_slot_iff.mp (hctx.symm.trans hctx')
    have hlt := h.sound.made a (List.mem_of_getElem? hholds.2)
    rw [contextOf_of_holds hholds, List.getElem?_eq_getElem hlt, Option.isSome_some, Option.isSome_iff_exists] at hsome
    obtain ⟨c', rfl⟩ := hsome
    have hsound : (m.modify a fun _ => c').Sound :=
      ⟨h.sound.initial, h.sound.size, fun b hb => by rw [modify, List.length_modify]; exact h.sound.made b hb,
        h.sound.creating⟩
    refine ⟨⟨hsound, h.apart⟩, funext fun n => ?_⟩
    show (m.modify a fun _ => c').contextOf n = _
    by_cases hn : n = fd
    · have hholds' : (m.modify a fun _ => c').Holds fd a := hholds
      rw [hn, Function.update_self, contextOf_of_holds hholds', modify, List.getElem?_modify_eq,
        List.getElem?_eq_getElem hlt]
      rfl
    · rw [Function.update_of_ne hn]
      refine contextOf_congr rfl fun b hb => ?_
      have hne : a ≠ b := fun heq => hn (Int.ofNat.inj (h.apart n fd a (heq ▸ hb) hholds))
      exact List.getElem?_modify_ne _ _ hne

theorem create_kernel (m : FdManager) (fd : Int) :
    (m.create fd).1.kernel = fun i => if i = fd then (FdCtx.new (m.kernel fd)).2 else m.kernel i := by
  unfold create
  dsimp only
  split <;> rfl

theorem del_kernel (m : FdManager) (fd : Int) : (m.del fd).kernel = m.kernel := by
  unfold del
  split <;> rfl

theorem store_kernel (m : FdManager) (ctx : Option Nat) (c : Option FdCtx) : (m.store ctx c).kernel = m.kernel := by
  unfold store
  split <;> rfl

theorem Apart.setKernel (h : m.Apart) (fd : Nat) (d : Descriptor) : (m.setKernel fd d).Apart :=
  ⟨⟨h.sound.initial, h.sound.size, h.sound.made, h.sound.creating⟩, h.apart⟩

end FdManager

theorem Fd.call_isSome (s : Fd) (c : Call) : (s.call c).ctx.isSome = s.ctx.isSome := by
  have hmanaged : ∀ ctx, s.managed = some ctx → s.ctx.isSome = true := by
    intro ctx hctx
    rw [(Option.filter_eq_some_iff.mp hctx).1]
    rfl
  cases c with
  | fcntl arg accepted =>
    unfold Fd.call Fd.fcntl
    cases hctx : s.managed with
    | none => rfl
    | some ctx => exact (hmanaged ctx hctx).symm
  | ioctl arg accepted =>
    unfold Fd.call Fd.ioctl
    cases hctx : s.managed with
    | none => rfl
    | some ctx => exact (hmanaged ctx hctx).symm

/-! ## One call -/

namespace Process

open Sockets (Op ms)
open FdManager (get_false get_true contextOf_eq_none contextOf_of_holds create_contextOf del_contextOf store_contextOf
  create_kernel del_kernel store_kernel)

/-- What the library and the kernel have for each number. -/
def view (p : Process) : Sockets where
  kernel fd := if p.isOpen fd then some (p.manager.kernel fd) else none
  datas := p.manager.contextOf
  asked := p.asked

variable {p p' : Process} {fd : Nat} {d : Descriptor} {op : Op}

theorem kernel_set (isOpen : Nat → Bool) (kernel : Int → Descriptor) (fd : Nat) (d : Descriptor) :
    (fun n : Nat => if Function.update isOpen fd true n then some (if (n : Int) = fd then d else kernel n) else none) =
      Function.update (fun n : Nat => if isOpen n then some (kernel n) else none) fd (some d) := by
  funext n
  by_cases hn : n = fd
  · rw [hn, Function.update_self, Function.update_self, if_pos rfl, if_pos rfl]
  · have hne : (n : Int) ≠ fd := by omega
    rw [Function.update_of_ne hn, Function.update_of_ne hn, if_neg hne]

/-- The kernel's side of an open descriptor changes. -/
theorem kernel_changed {isOpen : Nat → Bool} (hopen : isOpen fd = true) (kernel : Int → Descriptor) (d : Descriptor) :
    (fun n : Nat => if isOpen n then some (if (n : Int) = fd then d else kernel n) else none) =
      Function.update (fun n : Nat => if isOpen n then some (kernel n) else none) fd (some d) := by
  have hsame : Function.update isOpen fd true = isOpen := hopen ▸ Function.update_eq_self fd isOpen
  have hset := kernel_set isOpen kernel fd d
  rwa [hsame] at hset

theorem kernel_closed (isOpen : Nat → Bool) (kernel : Int → Descriptor) (fd : Nat) :
    (fun n : Nat => if Function.update isOpen fd false n then some (kernel n) else none) =
      Function.update (fun n : Nat => if isOpen n then some (kernel n) else none) fd none := by
  funext n
  by_cases hn : n = fd
  · rw [hn, Function.update_self, Function.update_self, if_neg Bool.false_ne_true]
  · rw [Function.update_of_ne hn, Function.update_of_ne hn]

theorem kernel_open (h : p.isOpen fd = true) : p.view.kernel fd = some (p.manager.kernel fd) := if_pos h

theorem view_opens (h : p.manager.Apart) (ho : p.opens fd d = some p') :
    p'.manager.Apart ∧ p'.isOpen fd = true ∧ p'.manager.kernel fd = d ∧ p'.manager.intSize = p.manager.intSize ∧
      p.view.opens fd d = some p'.view := by
  unfold opens at ho
  split at ho
  · cases ho
  · rename_i hclosed
    cases ho
    refine ⟨h.setKernel fd d, Function.update_self fd _ _, if_pos rfl, rfl, ?_⟩
    have hnone : p.view.kernel fd = none := if_neg hclosed
    rw [Sockets.opens, if_pos hnone]
    exact congrArg (fun kernel => some (Sockets.mk kernel p.manager.contextOf p.asked))
      (kernel_set p.isOpen p.manager.kernel fd d).symm

theorem view_get (h : p.manager.Apart) (hopen : p.isOpen fd = true) (hd : p.manager.kernel fd = d)
    (hmax : p.manager.intSize ≤ fd → (fd : Int) * 3 / 2 < 2 ^ 31) (hg : p.get fd = some p') :
    p'.manager.Apart ∧ p'.view = p.view.get fd d := by
  obtain ⟨⟨ctx, m⟩, hm, rfl⟩ := Option.map_eq_some_iff.mp hg
  rcases get_true h.sound hm with ⟨⟨a, ha⟩, hsame⟩ | ⟨hnone, hmade⟩
  · refine ⟨hsame ▸ h, ?_⟩
    have hlt := h.sound.made a (List.mem_of_getElem? ha.2)
    have hsome : p.view.datas fd = some p.manager.contexts[a] :=
      (contextOf_of_holds ha).trans (List.getElem?_eq_getElem hlt)
    rw [Sockets.get, hsome]
    exact congrArg (fun manager => (Process.mk manager p.isOpen p.asked).view) hsame
  · obtain ⟨hapart, hcontext⟩ := create_contextOf h hmax
    refine ⟨hmade ▸ hapart, ?_⟩
    have hnot : p.view.datas fd = none := contextOf_eq_none hnone
    rw [Sockets.get, hnot]
    dsimp only
    rw [hmade]
    have hkernel := kernel_changed hopen p.manager.kernel (FdCtx.new d).2
    unfold view
    dsimp only
    rw [hcontext, create_kernel, hd]
    exact congrArg (fun kernel => Sockets.mk kernel _ p.asked) hkernel

theorem view_forget (h : p.manager.Apart) {hook : Bool} (hf : p.forget fd hook = some p') :
    p'.manager.Apart ∧
      p'.view = if hook then { p.view with datas := Function.update p.view.datas fd none } else p.view := by
  cases hook with
  | false =>
    cases hf
    exact ⟨h, rfl⟩
  | true =>
    show p'.manager.Apart ∧ p'.view = { p.view with datas := Function.update p.view.datas fd none }
    obtain ⟨⟨ctx, m⟩, hm, hf⟩ := Option.bind_eq_some_iff.mp hf
    obtain ⟨rfl, hctx⟩ := get_false h.sound hm
    dsimp only at hf
    split at hf
    · obtain ⟨⟨_, m⟩, hdel, rfl⟩ := Option.map_eq_some_iff.mp hf
      obtain ⟨_, hdel⟩ := Option.ite_none_right_eq_some.mp hdel
      cases hdel
      obtain ⟨hapart, hcontext⟩ : (p.manager.del fd).Apart ∧
          (p.manager.del fd).contextOf = Function.update p.manager.contextOf fd none := del_contextOf h
      refine ⟨hapart, ?_⟩
      unfold view
      dsimp only
      rw [hcontext, del_kernel]
    · rename_i hnone
      cases hf
      have hcontext : p.view.datas fd = none := by
        rw [Option.not_isSome_iff_eq_none.mp hnone] at hctx
        show p.manager.context _ = none
        rw [← hctx]
        rfl
      exact ⟨h, by rw [← hcontext, Function.update_eq_self]⟩

theorem view_setTimeout (h : p.manager.Apart) {optname : TimeoutType} {v : UInt64} {hook : Bool}
    (hs : p.setTimeout fd optname v hook = some p') :
    p'.manager.Apart ∧ p'.view = { p.view with
      datas := Function.update p.view.datas fd
        ((p.view.datas fd).map fun ctx => if hook then ctx.setTimeout optname v else ctx) } := by
  cases hook with
  | false =>
    cases hs
    refine ⟨h, ?_⟩
    have hsame : ((p.view.datas fd).map fun ctx => if false = true then ctx.setTimeout optname v else ctx) =
        p.view.datas fd := by simp
    rw [hsame, Function.update_eq_self]
  | true =>
    obtain ⟨⟨ctx, m⟩, hm, hs⟩ := Option.bind_eq_some_iff.mp hs
    obtain ⟨rfl, hctx⟩ := get_false h.sound hm
    cases hs
    have hfound : p.manager.context ctx = p.manager.contextOf fd := by rw [hctx, FdManager.contextOf]
    rw [hfound]
    obtain ⟨hapart, hcontext⟩ := store_contextOf h hctx (c := (p.manager.contextOf fd).map (·.setTimeout optname v))
      Option.isSome_map
    refine ⟨hapart, ?_⟩
    unfold view
    dsimp only
    rw [hcontext, store_kernel]
    rfl

theorem view_setMode (h : p.manager.Apart) (hopen : p.isOpen fd = true) {c : Call} (hs : p.setMode fd c = some p') :
    p'.manager.Apart ∧ p.view.setMode fd c = some p'.view := by
  obtain ⟨⟨ctx, m⟩, hm, hs⟩ := Option.bind_eq_some_iff.mp hs
  obtain ⟨rfl, hctx⟩ := get_false h.sound hm
  cases hs
  have hfound : p.manager.context ctx = p.manager.contextOf fd := by rw [hctx, FdManager.contextOf]
  rw [hfound]
  obtain ⟨hapart, hcontext⟩ := store_contextOf h hctx
    (c := ((Fd.mk (p.manager.contextOf fd) (p.manager.kernel fd)).call c).ctx) (Fd.call_isSome _ c)
  refine ⟨hapart.setKernel fd _, ?_⟩
  have hkernel := kernel_changed hopen p.manager.kernel
    ((Fd.mk (p.manager.contextOf fd) (p.manager.kernel fd)).call c).kernel
  rw [Sockets.setMode, kernel_open hopen, Option.bind_eq_bind, Option.bind_some]
  show some (Sockets.mk _ _ _) = some (Sockets.mk _ _ _)
  congr 2
  · exact hkernel.symm.trans (by rw [FdManager.setKernel, store_kernel]; rfl)
  · exact hcontext.symm

/-- A descriptor that was opened is given a context. -/
theorem view_made {t : Process} {u : Option Settings} (h : p.manager.Apart)
    (hmax : p.manager.intSize ≤ fd → (fd : Int) * 3 / 2 < 2 ^ 31) (ho : p.opens fd d = some t)
    (hg : (t.get fd).map (·.asks fd u) = some p') :
    p'.manager.Apart ∧ (p.view.opens fd d).map (fun s => (s.get fd d).asks fd u) = some p'.view := by
  obtain ⟨hapart, hopen, hd, hsize, hview⟩ := view_opens h ho
  obtain ⟨v, hv, rfl⟩ := Option.map_eq_some_iff.mp hg
  obtain ⟨hapart', hview'⟩ := view_get hapart hopen hd (hsize ▸ hmax) hv
  refine ⟨hapart', ?_⟩
  rw [hview, Option.map_some, ← hview']
  rfl

/-- A call is that call on the map. -/
theorem step_view (h : p.manager.Apart) (hroom : p.Room op) (hs : p.step op = some p') :
    p'.manager.Apart ∧ p.view.step op = some p'.view := by
  cases op with
  | socket fd d hook =>
    obtain ⟨hd, hs⟩ := Option.ite_none_right_eq_some.mp hs
    obtain ⟨t, ho, hs⟩ := Option.bind_eq_some_iff.mp hs
    cases hook with
    | true =>
      obtain ⟨hapart, hview⟩ := view_made h hroom ho hs
      exact ⟨hapart, (if_pos hd).trans hview⟩
    | false =>
      cases hs
      obtain ⟨hapart, -, -, -, hview⟩ := view_opens h ho
      exact ⟨hapart, (if_pos hd).trans (by rw [hview]; rfl)⟩
  | accept fd d =>
    obtain ⟨hd, hs⟩ := Option.ite_none_right_eq_some.mp hs
    obtain ⟨t, ho, hs⟩ := Option.bind_eq_some_iff.mp hs
    obtain ⟨hapart, hview⟩ := view_made h hroom ho hs
    exact ⟨hapart, (if_pos hd).trans hview⟩
  | foreign fd d =>
    obtain ⟨t, ho, rfl⟩ := Option.map_eq_some_iff.mp hs
    obtain ⟨hapart, -, -, -, hview⟩ := view_opens h ho
    exact ⟨hapart, by rw [Sockets.step, hview]; rfl⟩
  | close fd hook =>
    obtain ⟨hopen, hs⟩ := Option.ite_none_right_eq_some.mp hs
    obtain ⟨t, ht, hs⟩ := Option.bind_eq_some_iff.mp hs
    cases hs
    obtain ⟨hapart, hview⟩ := view_forget h ht
    refine ⟨hapart, ?_⟩
    rw [Sockets.step, kernel_open hopen, Option.bind_eq_bind, Option.bind_some, ← hview]
    exact congrArg (fun kernel => some ((Sockets.mk kernel t.manager.contextOf t.asked).asks fd none))
      (kernel_closed t.isOpen t.manager.kernel fd).symm
  | fcntl fd arg accepted =>
    obtain ⟨hopen, hs⟩ := Option.ite_none_right_eq_some.mp hs
    exact view_setMode h hopen hs
  | ioctl fd arg accepted =>
    obtain ⟨hopen, hs⟩ := Option.ite_none_right_eq_some.mp hs
    exact view_setMode h hopen hs
  | setsockopt fd optname tv_sec tv_usec hook =>
    obtain ⟨hopen, hs⟩ := Option.ite_none_right_eq_some.mp hs
    obtain ⟨t, ht, hs⟩ := Option.bind_eq_some_iff.mp hs
    cases hs
    obtain ⟨hapart, hview⟩ := view_setTimeout h ht
    refine ⟨hapart, ?_⟩
    rw [Sockets.step, kernel_open hopen, Option.bind_eq_bind, Option.bind_some]
    dsimp only
    rw [← hview]
    have hasked : t.asked = p.asked := congrArg Sockets.asked hview
    show some (t.view.asks fd _) = some (t.view.asks fd _)
    rw [hasked]
    rfl

/-! ## Runs -/

theorem init_view (kernel : Int → Descriptor) : (init kernel).view = Sockets.init := by
  have hnone : (FdManager.init kernel).contextOf = fun _ => none := by
    funext fd
    refine contextOf_eq_none fun a ha => ?_
    cases List.eq_of_mem_replicate (List.mem_of_getElem? ha.2)
  unfold view Sockets.init init
  dsimp only
  rw [hnone]
  rfl

/-- A run on the table is a run on the map. -/
theorem run_view {kernel : Int → Descriptor} {τ : History Process Op} (hr : Run step (init kernel) τ p)
    (hroom : Meets Room τ) :
    p.manager.Apart ∧ Run Sockets.step Sockets.init (τ.map fun x => (x.1.view, x.2)) p.view := by
  induction hr with
  | nil => exact ⟨FdManager.init_apart kernel, init_view kernel ▸ .nil⟩
  | step hr hs ih =>
    obtain ⟨hop, hroom'⟩ := Run.meets_cons.mp hroom
    obtain ⟨hapart, hrun⟩ := ih hroom'
    obtain ⟨hapart', hview⟩ := step_view hapart hop hs
    exact ⟨hapart', .step hrun hview⟩

/-- In every run: all descriptors are described all the way exactly when every call keeps them so. -/
theorem described_iff {kernel : Int → Descriptor} {τ : History Process Op} (hr : Run step (init kernel) τ p)
    (hroom : Meets Room τ) :
    (∀ q ∈ p :: τ.map Prod.fst, q.view.Described) ↔ Meets (fun q op => q.view.Fits op) τ := by
  have hiff := Sockets.described_throughout (run_view hr hroom).2
  simp only [Meets, List.forall_mem_cons, List.forall_mem_map] at hiff ⊢
  exact hiff

/-- A socket with a timeout is closed and its number given out again; another one, beyond the
    table, is set non-blocking. -/
theorem described_iff_grown : ∃ τ p, Run step (init fun _ => ⟨none, 0, false⟩) τ p ∧ p.manager.datas.length = 105 ∧
    p.asked 5 ≠ none ∧ ∀ q ∈ p :: τ.map Prod.fst, q.view.Described := by
  obtain ⟨τ, p, hr, hc, hlast⟩ := exists_run step (fun p op => p.Room op ∧ p.view.Fits op)
    (init fun _ => ⟨none, 0, false⟩)
    [.accept 5 ⟨some true, 2, true⟩, .setsockopt 5 .SO_RCVTIMEO 1 0 true, .close 5 true, .socket 70 ⟨some true, 2, true⟩ true,
      .fcntl 70 O_NONBLOCK true, .accept 5 ⟨some true, 2, true⟩]
    (fun _ p => p.manager.datas.length = 105 && (p.asked 5).isSome) (by decide +kernel)
  simp only [Bool.and_eq_true, decide_eq_true_eq, Option.isSome_iff_ne_none] at hlast
  exact ⟨τ, p, hr, hlast.1, hlast.2, (described_iff hr fun x hx => (hc x hx).1).mpr fun x hx => (hc x hx).2⟩

end Process

end LjrServer.Hook
