/-
  LjrServer.IoManager.Table — the table of fd contexts, grown by several threads.

  `addEvent` tests under a read lock whether the table has its fd and calls
  `contextResize(fd * 1.5)` under a write lock it takes afterwards, without testing again.
  A thread between the two is recorded with its fd. A context is known by its address,
  counted as `new` allocates them.

  Proved:
  - `contexts_only_grow`: if no resize finds a table larger than what it resizes to, and
    none goes past `INT_MAX`, the table is only ever extended, and every call on an fd uses
    the context the first one got.
  - `resize_drops_context`: two threads growing the table for different fds; the larger fd's
    context is gone.
-/

import LjrServer.Lib.Runs
import Mathlib.Algebra.GroupWithZero.Nat
import Mathlib.Algebra.Ring.Int.Defs

namespace LjrServer.IoManager

open LjrServer.Lib

/-- `m_fdContexts`, how many contexts were allocated, and who is about to resize for which fd. -/
structure Table where
  contexts : List Nat
  allocated : Nat
  growing : Nat → Option Nat

namespace Table

/-- `(int)m_fdContexts.size()`. -/
def intSize (t : Table) : Int := (BitVec.ofNat 32 t.contexts.length).toInt

/-- `resize`, and a new context in every null entry. -/
def contextResize (t : Table) (size : Nat) : Table :=
  let new := size - t.contexts.length
  { t with contexts := t.contexts.take size ++ (List.range new).map (t.allocated + ·), allocated := t.allocated + new }

/-- After the constructor. -/
def init : Table := contextResize ⟨[], 0, fun _ => none⟩ 32

/-- `addEvent` in its two sections; `find` is how `delEvent`, `cancelEvent` and `cancelAll` begin. -/
inductive Call where
  | addEvent (thread : Nat) (fd : Nat)
  | resize (thread : Nat)
  | find (fd : Nat)
  deriving DecidableEq, Repr

/-- `fd * 1.5`, converted back. -/
def target (fd : Nat) : Nat := fd * 3 / 2

def step (t : Table) : Call → Option Table
  | .addEvent thread fd =>
    if (t.growing thread).isSome then none
    else if t.intSize > fd then some t
    else some { t with growing := fun i => if i = thread then some fd else t.growing i }
  | .resize thread => do
    let fd ← t.growing thread
    some { t.contextResize (target fd) with growing := fun i => if i = thread then none else t.growing i }
  | .find _ => some t

/-- The fd a call is on, and the context it goes on with, if this is where it gets one. -/
def uses (t : Table) : Call → Option (Nat × Option Nat)
  | .addEvent _ fd => if t.intSize > fd then some (fd, t.contexts[fd]?) else none
  | .resize thread => (t.growing thread).map fun fd => (fd, (t.contextResize (target fd)).contexts[fd]?)
  | .find fd => some (fd, if t.intSize ≤ fd then none else t.contexts[fd]?)

/-- A resize is not to less than the table has, nor past `INT_MAX`. -/
def Extends (t : Table) : Call → Prop
  | .resize thread => ∀ fd, t.growing thread = some fd → t.contexts.length ≤ target fd ∧ target fd < 2 ^ 31
  | _ => True

/-! ## One call -/

theorem length_contextResize (t : Table) (size : Nat) : (t.contextResize size).contexts.length = size := by
  unfold contextResize
  rw [List.length_append, List.length_take, List.length_map, List.length_range]
  omega

theorem prefix_contextResize {t : Table} {size : Nat} (h : t.contexts.length ≤ size) :
    t.contexts <+: (t.contextResize size).contexts := by
  unfold contextResize
  rw [List.take_of_length_le h]
  exact List.prefix_append _ _

theorem intSize_eq {t : Table} (h : t.contexts.length < 2 ^ 31) : t.intSize = t.contexts.length := by
  have hn : (BitVec.ofNat 32 t.contexts.length).toNat = t.contexts.length := by
    rw [BitVec.toNat_ofNat, Nat.mod_eq_of_lt (by omega)]
  rw [intSize, BitVec.toInt_eq_toNat_of_lt (by omega), hn]

/-- A table within `INT_MAX`, and every thread about to resize is so for an fd from the first
    32 on. -/
structure Sound (t : Table) : Prop where
  size : t.contexts.length < 2 ^ 31
  initial : 32 ≤ t.contexts.length
  growing : ∀ i fd, t.growing i = some fd → 32 ≤ fd

theorem init_sound : Sound init := by
  refine ⟨by decide, by decide, ?_⟩
  intro i fd h
  cases h

theorem step_sound {t t' : Table} {c : Call} (h : t.Sound) (hc : t.Extends c) (hs : t.step c = some t') :
    t'.Sound ∧ t.contexts <+: t'.contexts := by
  cases c with
  | addEvent thread fd =>
    change (if (t.growing thread).isSome then none else if t.intSize > fd then some t else some _) = some t' at hs
    split at hs
    · cases hs
    · split at hs
      · cases hs
        exact ⟨h, List.prefix_rfl⟩
      · rename_i hsize
        cases hs
        refine ⟨⟨h.size, h.initial, fun i fd' hg => ?_⟩, List.prefix_rfl⟩
        dsimp only at hg
        split at hg
        · cases hg
          rw [intSize_eq h.size] at hsize
          have := h.initial
          omega
        · exact h.growing i fd' hg
  | resize thread =>
    obtain ⟨fd, hg, hs⟩ := Option.bind_eq_some_iff.mp hs
    cases hs
    obtain ⟨hle, hmax⟩ := hc fd hg
    have hfd := h.growing thread fd hg
    refine ⟨⟨?_, ?_, fun i fd' hg' => ?_⟩, prefix_contextResize hle⟩
    · show (t.contextResize (target fd)).contexts.length < 2 ^ 31
      rw [length_contextResize]
      exact hmax
    · show 32 ≤ (t.contextResize (target fd)).contexts.length
      rw [length_contextResize, target]
      omega
    · dsimp only at hg'
      split at hg'
      · cases hg'
      · exact h.growing i fd' hg'
  | find fd =>
    cases hs
    exact ⟨h, List.prefix_rfl⟩

/-- The context a call goes on with is the one at its fd in the table after it. -/
theorem uses_eq {t t' : Table} {c : Call} {fd : Nat} {x : Option Nat} (h : t.Sound) (hc : t.Extends c)
    (hs : t.step c = some t') (hu : t.uses c = some (fd, x)) : x = t'.contexts[fd]? := by
  cases c with
  | addEvent thread fd' =>
    change (if (t.growing thread).isSome then none else if t.intSize > fd' then some t else some _) = some t' at hs
    change (if t.intSize > fd' then some (fd', t.contexts[fd']?) else none) = some (fd, x) at hu
    split at hu
    · rename_i hsize
      rw [if_pos hsize] at hs
      split at hs
      · cases hs
      · cases hs
        cases hu
        rfl
    · cases hu
  | resize thread =>
    obtain ⟨fd', hg, hs⟩ := Option.bind_eq_some_iff.mp hs
    obtain ⟨fd'', hg', hu⟩ := Option.map_eq_some_iff.mp hu
    rw [hg] at hg'
    cases hg'
    cases hs
    cases hu
    rfl
  | find fd' =>
    change some (fd', if t.intSize ≤ fd' then none else t.contexts[fd']?) = some (fd, x) at hu
    cases hs
    cases hu
    split
    · rename_i hsize
      rw [intSize_eq h.size] at hsize
      rw [List.getElem?_eq_none (by omega)]
    · rfl

/-! ## Every run -/

theorem run_sound {t : Table} {τ : History Table Call} (hr : Run step init τ t) (hc : Meets Extends τ) : t.Sound :=
  hr.invariant init_sound (fun _ _ _ h hc hs => (step_sound h hc hs).1) hc

theorem run_extends {t₀ t : Table} {τ : History Table Call} (h₀ : t₀.Sound) (hr : Run step t₀ τ t) (hc : Meets Extends τ) :
    t.Sound ∧ t₀.contexts <+: t.contexts := by
  refine Run.invariant (I := fun t => t.Sound ∧ t₀.contexts <+: t.contexts) ⟨h₀, List.prefix_rfl⟩ ?_ hr hc
  rintro s c s' ⟨hs, hp⟩ hcall hstep
  obtain ⟨hs', hp'⟩ := step_sound hs hcall hstep
  exact ⟨hs', hp.trans hp'⟩

/-- The table only grows, and an fd's context is the same for every call from the first that
    got it. -/
theorem contexts_only_grow {t : Table} {τ : History Table Call} (hr : Run step init τ t) (hc : Meets Extends τ) :
    (∀ p ∈ τ, p.1.contexts <+: t.contexts) ∧
      ∀ later between earlier p q fd a x, τ = later ++ q :: (between ++ p :: earlier) →
        p.1.uses p.2 = some (fd, some a) → q.1.uses q.2 = some (fd, x) → x = some a := by
  -- a step of the run, the table after it, and the run from there
  have hcut : ∀ later p earlier, τ = later ++ p :: earlier → ∃ t', p.1.Sound ∧ p.1.Extends p.2 ∧ p.1.step p.2 = some t' ∧
      t'.Sound ∧ p.1.contexts <+: t'.contexts ∧ Run step t' later t ∧ Meets Extends later := by
    rintro later ⟨s, c⟩ earlier rfl
    obtain ⟨t', hr₀, hs, hr'⟩ := hr.cut_step
    have hlater : Meets Extends later := fun p hp => hc p (List.mem_append_left _ hp)
    have hcs : s.Extends c := hc (s, c) (List.mem_append_right _ List.mem_cons_self)
    have hsound := run_sound hr₀ fun p hp => hc p (List.mem_append_right _ (List.mem_cons_of_mem _ hp))
    obtain ⟨hsound', hpre⟩ := step_sound hsound hcs hs
    exact ⟨t', hsound, hcs, hs, hsound', hpre, hr', hlater⟩
  refine ⟨?_, ?_⟩
  · intro p hp
    obtain ⟨later, earlier, hτ⟩ := List.append_of_mem hp
    obtain ⟨t', _, _, _, hsound', hpre, hr', hlater⟩ := hcut later p earlier hτ
    exact hpre.trans (run_extends hsound' hr' hlater).2
  · intro later between earlier p q fd a x hτ hp hq
    obtain ⟨t', hsp, hep, hstepp, hsound', _, hr', hc'⟩ := hcut (later ++ q :: between) p earlier
      (by rw [hτ, List.append_assoc, List.cons_append])
    obtain ⟨t'', hsq, heq, hstepq, _, hpreq, _, _⟩ := hcut later q (between ++ p :: earlier) hτ
    obtain ⟨_, hr₁, _, _⟩ := hr'.cut_step
    have hbetween : Meets Extends between := fun z hz => hc' z (List.mem_append_right _ (List.mem_cons_of_mem _ hz))
    obtain ⟨_, hpre⟩ := run_extends hsound' hr₁ hbetween
    have ha := uses_eq hsp hep hstepp hp
    have hx := uses_eq hsq heq hstepq hq
    rw [hx]
    -- the entry got first is still there
    obtain ⟨rest, hrest⟩ := hpre.trans hpreq
    rw [← hrest, List.getElem?_append_left, ← ha]
    exact (List.getElem?_eq_some_iff.mp ha.symm).1

instance (t : Table) (c : Call) : Decidable (t.Extends c) :=
  match c with
  | .addEvent _ _ => inferInstanceAs (Decidable True)
  | .resize thread =>
    inferInstanceAs (Decidable (∀ fd ∈ t.growing thread, t.contexts.length ≤ target fd ∧ target fd < 2 ^ 31))
  | .find _ => inferInstanceAs (Decidable True)

/-- Both threads find the table too small; the one that resizes last resizes to less. -/
theorem resize_drops_context :
    ∃ τ t, Run step init τ t ∧ τ.map (·.2) = [.find 60, .resize 1, .resize 0, .addEvent 1 32, .addEvent 0 60] ∧
      τ.filterMap (fun p => p.1.uses p.2) = [(60, none), (32, some 32), (60, some 60)] ∧
      τ.map (·.1.contexts.length) = [48, 90, 32, 32, 32] := by
  obtain ⟨τ, t, hr, _, ht⟩ := exists_run step (fun _ _ => True) init
    [.addEvent 0 60, .addEvent 1 32, .resize 0, .resize 1, .find 60]
    (fun τ _ => τ.map (·.2) = [.find 60, .resize 1, .resize 0, .addEvent 1 32, .addEvent 0 60] &&
      τ.filterMap (fun p => p.1.uses p.2) = [(60, none), (32, some 32), (60, some 60)] &&
      τ.map (·.1.contexts.length) = [48, 90, 32, 32, 32]) (by decide +kernel)
  simp only [Bool.and_eq_true, decide_eq_true_eq] at ht
  exact ⟨τ, t, hr, ht.1.1, ht.1.2, ht.2⟩

/-- One after the other, the larger fd last. -/
theorem contexts_only_grow_in_turn :
    ∃ τ t, Run step init τ t ∧ τ.map (·.2) = [.find 32, .resize 0, .addEvent 0 60, .resize 1, .addEvent 1 32] ∧
      (∀ p ∈ τ, p.1.contexts <+: t.contexts) ∧
      ∀ later between earlier p q fd a x, τ = later ++ q :: (between ++ p :: earlier) →
        p.1.uses p.2 = some (fd, some a) → q.1.uses q.2 = some (fd, x) → x = some a := by
  obtain ⟨τ, t, hr, hc, ht⟩ := exists_run step Extends init
    [.addEvent 1 32, .resize 1, .addEvent 0 60, .resize 0, .find 32]
    (fun τ _ => τ.map (·.2) = [.find 32, .resize 0, .addEvent 0 60, .resize 1, .addEvent 1 32]) (by decide +kernel)
  exact ⟨τ, t, hr, of_decide_eq_true ht, contexts_only_grow hr hc⟩

end Table

end LjrServer.IoManager
