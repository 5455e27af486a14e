/-
  LjrServer.Hook.FdTable — one thread's calls of `FdManager::get` and `del` (fd_manager.cpp).

  A call is both sections of `FdManager` one after the other, and `none` is an access to
  `m_datas` at or past its size. The contexts handed out and not deleted since are a map from
  fds.

  Proved:
  - `call_spec`: a call that fits is in bounds and keeps the table to the map.
  - `served_iff`: in a sequence of calls every one is in bounds, every `get(fd, true)` returns a
    context, and `get(fd, false)` finds the contexts that are out, exactly when every call fits.
-/

import LjrServer.Hook.FdManager

namespace LjrServer.Hook

open LjrServer.Lib

/-- A call for an fd. -/
inductive Access where
  | get (fd : Int) (autoCreate : Bool)
  | del (fd : Int)
  deriving DecidableEq, Repr

namespace Access

def fd : Access → Int
  | .get fd _ => fd
  | .del fd => fd

/-- The fd is an `int`, and not negative. -/
def Natural (c : Access) : Prop := 0 ≤ c.fd ∧ c.fd < 2 ^ 31

instance (c : Access) : Decidable c.Natural := inferInstanceAs (Decidable (_ ∧ _))

end Access

namespace FdManager

/-- `get`: the context it returns. -/
def get (m : FdManager) (fd : Int) (autoCreate : Bool) : Option (Option Nat × FdManager) :=
  match m.lookup fd autoCreate with
  | .returns ctx => some (ctx, m)
  | .pastEnd => none
  | .creates =>
    let (m, ctx) := m.create fd
    if (m.slot fd).isSome then some (some ctx, m) else none

def call (m : FdManager) : Access → Option (Option Nat × FdManager)
  | .get fd autoCreate => m.get fd autoCreate
  | .del fd => if m.intSize ≤ fd ∨ (m.slot fd).isSome then some (none, m.del fd) else none

end FdManager

/-- The manager, and the contexts that are out. -/
structure Lending where
  manager : FdManager
  handed : Int → Option Nat

namespace Lending

def init (kernel : Int → Descriptor) : Lending := ⟨.init kernel, fun _ => none⟩

/-- What a call that returns `ctx` does to the map. -/
def hand (handed : Int → Option Nat) (ctx : Option Nat) : Access → Int → Option Nat
  | .get fd true => fun i => if i = fd then ctx else handed i
  | .get _ false => handed
  | .del fd => fun i => if i = fd then none else handed i

def exec (s : Lending) (c : Access) : Option (Option Nat × Lending) :=
  (s.manager.call c).map fun r => (r.1, ⟨r.2, hand s.handed r.1 c⟩)

def step (s : Lending) (c : Access) : Option Lending := (s.exec c).map (·.2)

/-- `get(fd, false)` finds the contexts that are out. -/
def Keeps (s : Lending) : Prop := ∀ fd ctx, s.handed fd = some ctx → s.manager.get fd false = some (some ctx, s.manager)

/-- The call is in bounds, creates what it is to create, and afterwards the table has what is out. -/
def Served (s : Lending) (c : Access) : Prop :=
  ∃ ctx s', s.exec c = some (ctx, s') ∧ (∀ fd, c = .get fd true → ctx ≠ none) ∧ s'.Keeps

/-- The fd is not the size of the table, and a table that grows stays within `INT_MAX`. -/
def Fits (s : Lending) : Access → Prop
  | .get fd autoCreate =>
    fd ≠ s.manager.datas.length ∧ (autoCreate = true ∧ s.manager.datas.length < fd → fd * 3 / 2 < 2 ^ 31)
  | .del _ => True

instance (s : Lending) (c : Access) : Decidable (s.Fits c) :=
  match c with
  | .get _ _ => inferInstanceAs (Decidable (_ ∧ (_ → _)))
  | .del _ => inferInstanceAs (Decidable True)

end Lending

/-! ## One call -/

namespace FdManager

variable {m : FdManager} {fd : Int}

theorem length_create (h : m.Sound) : (m.create fd).1.datas.length =
    if fd ≥ m.datas.length then (fd * 3 / 2).toNat else m.datas.length := by
  have hinit := h.initial
  rw [(create_eq m fd).2.1, List.length_set, intSize_eq h]
  split
  · unfold resize
    rw [List.length_append, List.length_take, List.length_replicate]
    omega
  · rfl

theorem create_spec (h : m.Sound) (hfd : 0 ≤ fd) (hmax : m.intSize ≤ fd → fd * 3 / 2 < 2 ^ 31) :
    (m.create fd).1.Sound ∧ (m.create fd).1.Holds fd (m.create fd).2 ∧
      ∀ i a, m.Holds i a → i ≠ fd → (m.create fd).1.Holds i a := by
  obtain ⟨more, hgrown, hroom, hbound⟩ := grown h hfd hmax
  obtain ⟨haddr, hdatas, hcontexts, hcreating⟩ := create_eq m fd
  rw [hgrown] at hdatas
  have hinit := h.initial
  have hlen : (m.create fd).1.datas.length = m.datas.length + more := by
    rw [hdatas, List.length_set, List.length_append, List.length_replicate]
  refine ⟨⟨by omega, by omega, ?_, hcreating ▸ h.creating⟩, ⟨hfd, ?_⟩, ?_⟩
  · intro a ha
    rw [hdatas] at ha
    rw [hcontexts, List.length_append, List.length_singleton]
    rcases List.mem_or_eq_of_mem_set ha with ha | ha
    · rcases List.mem_append.mp ha with ha | ha
      · exact Nat.lt_succ_of_lt (h.made a ha)
      · cases List.eq_of_mem_replicate ha
    · cases ha
      exact Nat.lt_succ_self _
  · rw [hdatas, haddr, List.getElem?_set_self (by rw [List.length_append, List.length_replicate]; omega)]
  · rintro i a ⟨hi, ha⟩ hne
    have hne' : fd.toNat ≠ i.toNat := by omega
    have hlt := (List.getElem?_eq_some_iff.mp ha).1
    exact ⟨hi, by rw [hdatas, List.getElem?_set_ne hne', List.getElem?_append_left hlt, ha]⟩

theorem del_spec (h : m.Sound) (hfd : 0 ≤ fd) :
    (m.intSize ≤ fd ∨ (m.slot fd).isSome) ∧ (m.del fd).Sound ∧ ∀ i a, m.Holds i a → i ≠ fd → (m.del fd).Holds i a := by
  have hsize := intSize_eq h
  unfold del
  split
  · rename_i hle
    exact ⟨.inl hle, h, fun i a ha _ => ha⟩
  · rename_i hle
    have hlt : fd.toNat < m.datas.length := by omega
    refine ⟨.inr ?_, ⟨?_, ?_, ?_, h.creating⟩, ?_⟩
    · rw [slot_eq hfd, List.getElem?_eq_getElem hlt]
      rfl
    · exact (List.length_set ..).symm ▸ h.initial
    · exact (List.length_set ..).symm ▸ h.size
    · intro a ha
      rcases List.mem_or_eq_of_mem_set ha with ha | ha
      · exact h.made a ha
      · cases ha
    · rintro i a ⟨hi, ha⟩ hne
      have hne' : fd.toNat ≠ i.toNat := by omega
      exact ⟨hi, by rw [List.getElem?_set_ne hne', ha]⟩

theorem holds_in_table {a : Nat} (ha : m.Holds fd a) : fd ≠ m.datas.length := by
  have hlt := (List.getElem?_eq_some_iff.mp ha.2).1
  omega

theorem holds_unique {a b : Nat} (ha : m.Holds fd a) (hb : m.Holds fd b) : a = b :=
  Option.some.inj (Option.some.inj (ha.2.symm.trans hb.2))

theorem get_of_holds {a : Nat} (h : m.Sound) (ha : m.Holds fd a) (autoCreate : Bool) :
    m.get fd autoCreate = some (some a, m) := by
  rcases lookup_eq h ha.1 (holds_in_table ha) autoCreate with ⟨b, hb, hfound⟩ | ⟨hnone, _⟩
  · rw [get, hfound, holds_unique ha hb]
  · exact absurd ha (hnone a)

theorem get_of_creates {autoCreate : Bool} (hfound : m.lookup fd autoCreate = .creates) (hfd : 0 ≤ fd)
    (hin : fd.toNat < (m.create fd).1.datas.length) :
    m.get fd autoCreate = some (some (m.create fd).2, (m.create fd).1) := by
  have hslot : ((m.create fd).1.slot fd).isSome := by
    rw [slot_eq hfd, List.getElem?_eq_getElem hin]
    rfl
  rw [get, hfound]
  exact if_pos hslot

/-- The look-up at the size of the table. -/
theorem get_past_end (h : m.Sound) (autoCreate : Bool) : m.get m.datas.length autoCreate = none := by
  have hinit := h.initial
  have hfound : m.lookup m.datas.length autoCreate = .pastEnd := by
    rw [lookup, if_neg (by omega), intSize_eq h, if_neg (by omega), slot_eq (by omega), Int.toNat_natCast,
      List.getElem?_eq_none (Nat.le_refl _)]
  rw [get, hfound]

/-- A table larger than `INT_MAX` has a negative size as an `int`. -/
theorem lookup_of_huge (hmin : 2 ^ 31 ≤ m.datas.length) (hmax : m.datas.length < 2 ^ 32) (hfd : 0 ≤ fd) :
    m.lookup fd false = .returns none := by
  have hsize : m.intSize < 0 := by
    rw [intSize, BitVec.toInt_eq_toNat_bmod, BitVec.toNat_ofNat, Int.bmod_def]
    omega
  rw [lookup, if_neg (by omega), if_pos (by omega), if_pos rfl]

end FdManager

namespace Lending

open FdManager (create_spec del_spec get_of_holds get_of_creates get_past_end lookup_of_huge)

variable {s : Lending}

/-- What is out is in the table. -/
structure Holding (s : Lending) : Prop where
  sound : s.manager.Sound
  holds : ∀ fd ctx, s.handed fd = some ctx → s.manager.Holds fd ctx

theorem init_holding (kernel : Int → Descriptor) : (init kernel).Holding :=
  ⟨FdManager.init_sound kernel, fun _ _ h => nomatch h⟩

theorem Holding.keeps (h : s.Holding) : s.Keeps := fun fd ctx hctx => get_of_holds h.sound (h.holds fd ctx hctx) false

/-- One fd's entry changed. -/
theorem Holding.update {s : Lending} {m : FdManager} {fd : Int} {ctx : Option Nat} (h : s.Holding) (hm : m.Sound)
    (hctx : ∀ a, ctx = some a → m.Holds fd a) (hothers : ∀ i a, s.manager.Holds i a → i ≠ fd → m.Holds i a) :
    Holding ⟨m, fun i => if i = fd then ctx else s.handed i⟩ := by
  refine ⟨hm, fun i a ha => ?_⟩
  dsimp only at ha ⊢
  by_cases hi : i = fd
  · subst hi
    rw [if_pos rfl] at ha
    exact hctx a ha
  · rw [if_neg hi] at ha
    exact hothers i a (h.holds i a ha) hi

theorem call_spec (h : s.Holding) {c : Access} (hn : c.Natural) (hf : s.Fits c) :
    ∃ ctx s', s.exec c = some (ctx, s') ∧ (∀ fd, c = .get fd true → ctx ≠ none) ∧ s'.Holding := by
  cases c with
  | get fd autoCreate =>
    obtain ⟨hne, hmax⟩ := hf
    have hfd : 0 ≤ fd := hn.1
    rcases FdManager.lookup_eq h.sound hfd hne autoCreate with ⟨a, ha, -⟩ | ⟨hnone, hfound⟩
    · have hget : s.manager.call (.get fd autoCreate) = some (some a, s.manager) := get_of_holds h.sound ha autoCreate
      refine ⟨some a, ⟨s.manager, hand s.handed (some a) (.get fd autoCreate)⟩, ?_,
        fun _ _ => Option.some_ne_none a, ?_⟩
      · rw [exec, hget]
        rfl
      · cases autoCreate with
        | true => exact h.update h.sound (fun b hb => Option.some.inj hb ▸ ha) fun i b hb _ => hb
        | false => exact h
    · cases autoCreate with
      | false =>
        have hget : s.manager.call (.get fd false) = some (none, s.manager) := by
          rw [FdManager.call, FdManager.get, hfound]
          rfl
        refine ⟨none, s, ?_, fun fd' heq => (nomatch heq), h⟩
        rw [exec, hget]
        rfl
      | true =>
        have hsize := FdManager.intSize_eq h.sound
        obtain ⟨hsound, hholds, hothers⟩ := create_spec h.sound hfd fun hle => hmax ⟨rfl, by omega⟩
        have hget : s.manager.call (.get fd true) = some (some (s.manager.create fd).2, (s.manager.create fd).1) :=
          get_of_creates hfound hfd (List.getElem?_eq_some_iff.mp hholds.2).1
        refine ⟨some (s.manager.create fd).2, ⟨(s.manager.create fd).1, _⟩, ?_, fun _ _ => Option.some_ne_none _,
          h.update hsound (fun b hb => Option.some.inj hb ▸ hholds) hothers⟩
        rw [exec, hget]
        rfl
  | del fd =>
    obtain ⟨hin, hsound, hothers⟩ := del_spec h.sound hn.1
    have hdel : s.manager.call (.del fd) = some (none, s.manager.del fd) := if_pos hin
    refine ⟨none, ⟨s.manager.del fd, _⟩, ?_, fun fd' heq => (nomatch heq),
      h.update hsound (fun b hb => absurd hb.symm (Option.some_ne_none b)) hothers⟩
    rw [exec, hdel]
    rfl

theorem fits_of_served (h : s.Holding) {c : Access} (hn : c.Natural) (hs : s.Served c) : s.Fits c := by
  obtain ⟨ctx, s', he, -, hkeeps⟩ := hs
  cases c with
  | del fd => trivial
  | get fd autoCreate =>
    have hfd : 0 ≤ fd ∧ fd < 2 ^ 31 := hn
    constructor
    · rintro rfl
      rw [exec, FdManager.call, get_past_end h.sound] at he
      cases he
    · rintro ⟨rfl, hlt⟩
      refine Int.not_le.mp fun hhuge => ?_
      have hlen : (s.manager.create fd).1.datas.length = (fd * 3 / 2).toNat := by
        rw [FdManager.length_create h.sound, if_pos (by omega)]
      have hfound : s.manager.lookup fd true = .creates := by
        rw [FdManager.lookup, if_neg (by omega), FdManager.intSize_eq h.sound, if_pos hlt]
        rfl
      rw [exec, FdManager.call, get_of_creates hfound hfd.1 (by omega)] at he
      cases he
      -- the context is out, and a look-up takes the table for too small
      have hmiss : (s.manager.create fd).1.get fd false = _ := hkeeps fd (s.manager.create fd).2 (if_pos rfl)
      rw [FdManager.get, lookup_of_huge (by omega) (by omega) hfd.1] at hmiss
      cases hmiss

/-! ## Sequences of calls -/

theorem served_iff_fits (h : s.Holding) {c : Access} (hn : c.Natural) : s.Served c ↔ s.Fits c := by
  constructor
  · exact fits_of_served h hn
  · intro hf
    obtain ⟨ctx, s', he, hctx, hs'⟩ := call_spec h hn hf
    exact ⟨ctx, s', he, hctx, hs'.keeps⟩

theorem step_holding {s' : Lending} (h : s.Holding) {c : Access} (hn : c.Natural) (hf : s.Fits c)
    (hs : s.step c = some s') :
    s'.Holding := by
  obtain ⟨ctx, t, he, -, ht⟩ := call_spec h hn hf
  rw [step, he] at hs
  cases hs
  exact ht

/-- Every call of a sequence, and one more that need not go through. -/
theorem served_iff (kernel : Int → Descriptor) {τ : History Lending Access} (hr : Run step (init kernel) τ s)
    {c : Access}
    (hn : Meets (fun _ c => c.Natural) ((s, c) :: τ)) : Meets Served ((s, c) :: τ) ↔ Meets Fits ((s, c) :: τ) := by
  have hboth : (Meets Served τ ↔ Meets Fits τ) ∧ (Meets Fits τ → s.Holding) := by
    have hnτ := (Run.meets_cons.mp hn).2
    clear hn
    induction hr with
    | nil => exact ⟨iff_of_true (fun _ h => nomatch h) (fun _ h => nomatch h), fun _ => init_holding kernel⟩
    | @step τ t s' a hr hs ih =>
      obtain ⟨ha, hτ⟩ := Run.meets_cons.mp hnτ
      obtain ⟨ihiff, ihholding⟩ := ih hτ
      refine ⟨?_, fun hf => ?_⟩
      · rw [Run.meets_cons, Run.meets_cons, ihiff, and_congr_left_iff]
        exact fun hf => served_iff_fits (ihholding hf) ha
      · obtain ⟨hfa, hfτ⟩ := Run.meets_cons.mp hf
        exact step_holding (ihholding hfτ) ha hfa hs
  obtain ⟨hiff, hholding⟩ := hboth
  rw [Run.meets_cons, Run.meets_cons, hiff, and_congr_left_iff]
  exact fun hf => served_iff_fits (hholding hf) (Run.meets_cons.mp hn).1

/-- A table that grew to 97 entries. -/
theorem served_iff_grown :
    ∃ τ s, Run step (init fun _ => ⟨some true, 2, true⟩) τ s ∧ s.manager.datas.length = 97 ∧
      (Meets Served ((s, .get 65 false) :: τ) ↔ Meets Fits ((s, .get 65 false) :: τ)) := by
  obtain ⟨τ, s, hr, hn, ht⟩ := exists_run step (fun _ c => c.Natural) (init fun _ => ⟨some true, 2, true⟩) [.get 65 true]
    (fun _ s => s.manager.datas.length = 97) (by decide +kernel)
  exact ⟨τ, s, hr, of_decide_eq_true ht, served_iff _ hr (Run.meets_cons.mpr ⟨by decide, hn⟩)⟩

/-- The first fd behind a new table. -/
theorem get_at_size : ¬ (init fun _ => ⟨some true, 2, true⟩).Served (.get 64 false) ∧
    ¬ (init fun _ => ⟨some true, 2, true⟩).Served (.get 64 true) := by
  constructor
  · rintro ⟨ctx, s', he, -⟩
    cases he
  · rintro ⟨ctx, s', he, -⟩
    cases he

end Lending

end LjrServer.Hook
