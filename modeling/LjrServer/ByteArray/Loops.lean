/-
  LjrServer.ByteArray.Loops — what the chain's loops do, block boundaries included.

  Over full-size blocks the three copy loops are operations on the concatenation of the
  blocks: `writeLoop` is a `splice`, `readLoop` a `slice`, and each leaves `m_cur` at the
  block of the new offset. Each is an induction over the blocks, one case for a copy that
  ends in the first block and one for a copy that goes on. `addCapacity` keeps the
  representation whatever it is asked for; whether it is enough is `Grows`.
-/

import LjrServer.ByteArray.Chain
import Mathlib.Tactic.Ring

namespace LjrServer.ByteArray

open LjrServer.Lib

/-! ## Blocks of one size -/

def Full (b : Nat) (ns : List Node) : Prop := ∀ n ∈ ns, n.size = b

@[simp] theorem full_nil (b : Nat) : Full b [] := by intro n h; cases h

@[simp] theorem full_cons {b : Nat} {n : Node} {ns : List Node} : Full b (n :: ns) ↔ n.size = b ∧ Full b ns := by
  simp [Full]

@[simp] theorem full_append {b : Nat} {ns ms : List Node} : Full b (ns ++ ms) ↔ Full b ns ∧ Full b ms := by
  simp only [Full, List.mem_append]
  exact ⟨fun h => ⟨fun n hn => h n (.inl hn), fun n hn => h n (.inr hn)⟩,
    fun h n hn => hn.elim (h.1 n) (h.2 n)⟩

@[simp] theorem flatten_nil : flatten [] = [] := rfl

@[simp] theorem flatten_cons (n : Node) (ns : List Node) : flatten (n :: ns) = n.ptr ++ flatten ns := rfl

@[simp] theorem flatten_append (ns ms : List Node) : flatten (ns ++ ms) = flatten ns ++ flatten ms :=
  List.flatMap_append

theorem flatten_length {b : Nat} : ∀ {ns : List Node}, Full b ns → (flatten ns).length = b * ns.length
  | [], _ => rfl
  | n :: ns, h => by
    obtain ⟨hn, hns⟩ := full_cons.mp h
    rw [flatten_cons, List.length_append, flatten_length hns, List.length_cons, Nat.mul_succ]
    have : n.ptr.length = b := hn
    omega

@[simp] theorem newNode_size (heap : Nat → UInt8) (b : Nat) : (newNode heap b).size = b := by
  simp [newNode, Node.size]

theorem full_take {b k : Nat} {ns : List Node} (h : Full b ns) : Full b (ns.take k) :=
  fun n hn => h n (List.mem_of_mem_take hn)

theorem full_drop {b k : Nat} {ns : List Node} (h : Full b ns) : Full b (ns.drop k) :=
  fun n hn => h n (List.mem_of_mem_drop hn)

theorem flatten_drop {b : Nat} : ∀ {ns : List Node} {k : Nat}, Full b ns →
    flatten (ns.drop k) = (flatten ns).drop (b * k)
  | _, 0, _ => by simp
  | [], k + 1, _ => by simp
  | n :: ns, k + 1, h => by
    obtain ⟨hn, hns⟩ := full_cons.mp h
    have hl : n.ptr.length = b := hn
    have hd : n.ptr.drop (b * (k + 1)) = [] := List.drop_of_length_le (by rw [hl, Nat.mul_succ]; omega)
    rw [List.drop_succ_cons, flatten_drop hns, flatten_cons, List.drop_append, hl, hd, List.nil_append, Nat.mul_succ,
      Nat.add_sub_cancel]

theorem node_div {b p : Nat} (hb : 0 < b) (ns : List Node) :
    node ns (p / b) = if p < b * ns.length then some (p / b) else none := by
  unfold node
  by_cases h : p < b * ns.length
  · rw [if_pos h, if_pos ((Nat.div_lt_iff_lt_mul hb).mpr (by rwa [Nat.mul_comm]))]
  · rw [if_neg h, if_neg fun hlt => h (by rw [Nat.mul_comm]; exact (Nat.div_lt_iff_lt_mul hb).mp hlt)]

/-! ## The copy loops -/

/-- `write`'s loop overwrites the bytes from `npos` on and moves to the block after them. -/
theorem writeLoop_spec {b : Nat} (hb : 0 < b) : ∀ (ns : List Node) (npos : Nat) (buf : List UInt8), Full b ns →
    npos < b → buf ≠ [] → npos + buf.length ≤ b * ns.length →
    ∃ ns', writeLoop ns npos buf = some (ns', (npos + buf.length) / b) ∧ Full b ns' ∧ ns'.length = ns.length ∧
      flatten ns' = splice (flatten ns) npos buf := by
  intro ns
  induction ns with
  | nil =>
    intro npos buf _ _ hne hroom
    have := List.length_pos_iff.mpr hne
    simp only [List.length_nil] at hroom; omega
  | cons n ns ih =>
    intro npos buf hfull hpos hne hroom
    obtain ⟨hn, hns⟩ := full_cons.mp hfull
    have hl : n.ptr.length = b := hn
    have hlen := List.length_pos_iff.mpr hne
    rw [List.length_cons, Nat.mul_succ] at hroom
    by_cases hfit : buf.length ≤ b - npos
    · -- the copy ends in this block
      have hput : n.put npos buf = some ⟨splice n.ptr npos buf⟩ := by rw [Node.put, if_pos (by rw [hn]; omega)]
      refine ⟨⟨splice n.ptr npos buf⟩ :: ns, ?_, ?_, rfl, ?_⟩
      · simp only [writeLoop, hn, hfit, if_true, hput, Option.map_some, Option.some.injEq, Prod.mk.injEq, true_and]
        by_cases he : b = npos + buf.length
        · rw [if_pos he, ← he, Nat.div_self hb]
        · rw [if_neg he, Nat.div_eq_of_lt (by omega)]
      · refine full_cons.mpr ⟨?_, hns⟩
        simp only [Node.size]; rw [splice_length (by omega), hl]
      · rw [flatten_cons, flatten_cons, splice_append_left (by omega)]
    · -- the copy fills this block and goes on in the next one
      have htl : (buf.take (b - npos)).length = b - npos := by rw [List.length_take]; omega
      have hdl : (buf.drop (b - npos)).length = buf.length - (b - npos) := List.length_drop
      have hput : n.put npos (buf.take (b - npos)) = some ⟨splice n.ptr npos (buf.take (b - npos))⟩ := by
        rw [Node.put, if_pos (by rw [hn, htl]; omega)]
      obtain ⟨ns', hloop, hfull', hlen', hflat⟩ := ih 0 (buf.drop (b - npos)) hns hb
        (List.ne_nil_of_length_pos (by omega)) (by omega)
      refine ⟨⟨splice n.ptr npos (buf.take (b - npos))⟩ :: ns', ?_, ?_, by simp [hlen'], ?_⟩
      · simp only [writeLoop, hn, hfit, if_false, hput, Option.bind_some, hloop, Option.map_some, Option.some.injEq,
          Prod.mk.injEq, true_and]
        rw [hdl, show npos + buf.length = 0 + (buf.length - (b - npos)) + b by omega, Nat.add_div_right _ hb]
      · refine full_cons.mpr ⟨?_, hfull'⟩
        simp only [Node.size]; rw [splice_length (by omega), hl]
      · rw [flatten_cons, flatten_cons, hflat, splice_append_split (by omega) (by omega), hl]

/-- Past the last block the loop follows a null `next`. -/
theorem writeLoop_none {b : Nat} : ∀ (ns : List Node) (npos : Nat) (buf : List UInt8), Full b ns →
    npos ≤ b → b * ns.length < npos + buf.length → writeLoop ns npos buf = none := by
  intro ns
  induction ns with
  | nil => intro _ _ _ _ _; rfl
  | cons n ns ih =>
    intro npos buf hfull hpos hroom
    obtain ⟨hn, hns⟩ := full_cons.mp hfull
    rw [List.length_cons, Nat.mul_succ] at hroom
    have hfit : ¬ buf.length ≤ b - npos := by omega
    have hrec := ih 0 (buf.drop (b - npos)) hns (Nat.zero_le _) (by rw [List.length_drop]; omega)
    simp only [writeLoop, hn, hfit, if_false, hrec, Option.map_none, Option.bind_fun_none]

/-- `read`'s loop returns the bytes from `npos` on and moves to the block after them. -/
theorem readLoop_spec {b : Nat} (hb : 0 < b) : ∀ (ns : List Node) (npos size : Nat), Full b ns → npos < b →
    npos + size ≤ b * ns.length → ns ≠ [] →
    readLoop ns npos size = some (slice (flatten ns) npos size, (npos + size) / b) := by
  intro ns
  induction ns with
  | nil => intro _ _ _ _ _ h; exact absurd rfl h
  | cons n ns ih =>
    intro npos size hfull hpos hroom _
    obtain ⟨hn, hns⟩ := full_cons.mp hfull
    have hl : n.ptr.length = b := hn
    rw [List.length_cons, Nat.mul_succ] at hroom
    by_cases h0 : size = 0
    · subst h0
      simp only [readLoop, if_true, slice_zero, Nat.add_zero, Nat.div_eq_of_lt hpos]
    by_cases hfit : size ≤ b - npos
    · -- the copy ends in this block
      have hget : n.get npos size = some (slice n.ptr npos size) := by rw [Node.get, if_pos (by rw [hn]; omega)]
      simp only [readLoop, h0, if_false, hn, hfit, if_true, hget, Option.map_some, flatten_cons, Option.some.injEq,
        Prod.mk.injEq]
      refine ⟨(slice_append_left (by omega)).symm, ?_⟩
      by_cases he : b = npos + size
      · rw [if_pos he, ← he, Nat.div_self hb]
      · rw [if_neg he, Nat.div_eq_of_lt (by omega)]
    · -- the copy drains this block and goes on in the next one
      have hget : n.get npos (b - npos) = some (slice n.ptr npos (b - npos)) := by
        rw [Node.get, if_pos (by rw [hn]; omega)]
      have hne : ns ≠ [] := by
        intro e
        rw [e, List.length_nil, Nat.mul_zero] at hroom
        omega
      have hrec := ih 0 (size - (b - npos)) hns hb (by omega) hne
      simp only [readLoop, h0, if_false, hn, hfit, hget, Option.bind_some, hrec, Option.map_some, flatten_cons,
        Option.some.injEq, Prod.mk.injEq]
      refine ⟨?_, ?_⟩
      · rw [slice_append_split (by omega) (by omega), hl]
      · rw [show npos + size = 0 + (size - (b - npos)) + b by omega, Nat.add_div_right _ hb]

/-- `setPostion`'s loop finds the block of the offset. -/
theorem seekLoop_spec {b : Nat} (hb : 0 < b) : ∀ (ns : List Node) (v k : Nat), Full b ns → v ≤ b * ns.length →
    ns ≠ [] → seekLoop ns v k = some (k + v / b) := by
  intro ns
  induction ns with
  | nil => intro _ _ _ _ h; exact absurd rfl h
  | cons n ns ih =>
    intro v k hfull hroom _
    obtain ⟨hn, hns⟩ := full_cons.mp hfull
    rw [List.length_cons, Nat.mul_succ] at hroom
    by_cases hlt : b < v
    · have hne : ns ≠ [] := by
        intro e
        rw [e, List.length_nil, Nat.mul_zero] at hroom
        omega
      simp only [seekLoop, hn, hlt, if_true, ih (v - b) (k + 1) hns (by omega) hne]
      have hd : v / b = (v - b) / b + 1 := by
        conv_lhs => rw [show v = v - b + b by omega]
        exact Nat.add_div_right _ hb
      rw [hd, Nat.add_assoc, Nat.add_comm 1]
    · by_cases he : v = b
      · simp only [seekLoop, hn, if_false, he, if_true, Nat.lt_irrefl, Nat.div_self hb]
      · simp only [seekLoop, hn, hlt, if_false, he, Nat.div_eq_of_lt (show v < b by omega), Nat.add_zero]

/-! ## addCapacity -/

/-- What `n` new blocks change: the chain, the capacity and the allocator. -/
theorem grow_spec : ∀ (n : Nat) (s : ByteArray), ∃ fresh heap, Full s.baseSize fresh ∧ fresh.length = n ∧
    grow n s = { s with chain := s.chain ++ fresh, capacity := s.capacity + s.baseSize * n, heap := heap }
  | 0, s => ⟨[], s.heap, by simp, rfl, by simp [grow]⟩
  | n + 1, s => by
    obtain ⟨fresh, heap, hfull, hlen, he⟩ := grow_spec n
      { s with chain := s.chain ++ [newNode s.heap s.baseSize], capacity := s.capacity + s.baseSize,
               heap := fun i => s.heap (i + s.baseSize) }
    refine ⟨newNode s.heap s.baseSize :: fresh, heap, by simpa using hfull, by simp [hlen], ?_⟩
    rw [grow, he]
    simp only [List.append_assoc, List.singleton_append, Nat.mul_succ]
    congr 1; omega

/-- When the blocks `addCapacity` adds are enough for `n` bytes. -/
def Grows (s : ByteArray) (n : Nat) : Prop :=
  n ≤ s.getCapacity ∨ (n - s.getCapacity) % s.baseSize = 0 ∨ s.getCapacity < (n - s.getCapacity) % s.baseSize

instance (s : ByteArray) (n : Nat) : Decidable (Grows s n) := by unfold Grows; infer_instance

/-- The number of blocks `addCapacity` adds. -/
def addedBlocks (s : ByteArray) (n : Nat) : Nat :=
  if n ≤ s.getCapacity then 0
  else (n - s.getCapacity) / s.baseSize + if s.getCapacity < (n - s.getCapacity) % s.baseSize then 1 else 0

/-- `addCapacity` appends `addedBlocks` blocks and, at the end of storage, points `m_cur`
    at the first of them. -/
theorem addCapacity_spec {s : ByteArray} (hs : Rep s) (n : Nat) : ∃ fresh heap cur, Full s.baseSize fresh ∧
    fresh.length = addedBlocks s n ∧ Rep (s.addCapacity n) ∧ s.addCapacity n =
      { s with chain := s.chain ++ fresh, capacity := s.capacity + s.baseSize * addedBlocks s n, cur := cur, heap := heap } := by
  by_cases hfit : n ≤ s.getCapacity
  · have he : s.addCapacity n = s := by
      unfold addCapacity
      split
      · rfl
      · rw [if_pos hfit]
    have h0 : addedBlocks s n = 0 := by rw [addedBlocks, if_pos hfit]
    refine ⟨[], s.heap, s.cur, by simp, by simp [h0], by rwa [he], ?_⟩
    rw [he, h0]; simp
  · have hn : ¬ n = 0 := by omega
    have hb := s.baseSize_pos
    obtain ⟨fresh, heap, hfull, hlen, hgrow⟩ := grow_spec (addedBlocks s n) s
    have hcount : addedBlocks s n = (n - s.getCapacity) / s.baseSize +
        if s.getCapacity < (n - s.getCapacity) % s.baseSize then 1 else 0 := by rw [addedBlocks, if_neg hfit]
    have he : s.addCapacity n = { s with
        chain := s.chain ++ fresh, capacity := s.capacity + s.baseSize * addedBlocks s n, heap := heap,
        cur := if s.getCapacity = 0 then (if addedBlocks s n = 0 then none else some s.chain.length) else s.cur } := by
      simp only [addCapacity, hn, if_false, hfit, ← hcount, hgrow]
      split <;> rfl
    refine ⟨fresh, heap, _, hfull, hlen, ?_, he⟩
    rw [he]
    have hcap : s.capacity + s.baseSize * addedBlocks s n = s.baseSize * (s.chain ++ fresh).length := by
      rw [List.length_append, Nat.mul_add, hlen, ← hs.capacity]
    refine ⟨full_append.mpr ⟨hs.blocks, hfull⟩, hcap, by simp [hs.root], hs.position_le,
      Nat.le_trans hs.size_le (Nat.le_add_right _ _), ?_⟩
    have hpos := hs.position_le
    have hsize := hs.size_le
    simp only
    by_cases hfree : s.getCapacity = 0
    · -- the cursor was at the end of storage
      have hp : s.position = s.capacity := by unfold getCapacity at hfree; omega
      rw [if_pos hfree, hp, hs.capacity, Nat.mul_div_cancel_left _ hb]
      by_cases hc : addedBlocks s n = 0
      · simp [hc]
      · rw [if_neg hc, if_pos (by have := Nat.mul_pos hb (Nat.pos_of_ne_zero hc); omega)]
    · have hp : s.position < s.capacity := by unfold getCapacity at hfree; omega
      rw [if_neg hfree, hs.cur, if_pos hp, if_pos (by omega)]

theorem addCapacity_rep {s : ByteArray} (hs : Rep s) (n : Nat) : Rep (s.addCapacity n) := by
  obtain ⟨_, _, _, _, _, h, _⟩ := addCapacity_spec hs n
  exact h

@[simp] theorem addCapacity_baseSize {s : ByteArray} (hs : Rep s) (n : Nat) : (s.addCapacity n).baseSize = s.baseSize := by
  obtain ⟨_, _, _, _, _, _, he⟩ := addCapacity_spec hs n
  rw [he]

@[simp] theorem addCapacity_position {s : ByteArray} (hs : Rep s) (n : Nat) : (s.addCapacity n).position = s.position := by
  obtain ⟨_, _, _, _, _, _, he⟩ := addCapacity_spec hs n
  rw [he]

@[simp] theorem addCapacity_size {s : ByteArray} (hs : Rep s) (n : Nat) : (s.addCapacity n).size = s.size := by
  obtain ⟨_, _, _, _, _, _, he⟩ := addCapacity_spec hs n
  rw [he]

theorem addCapacity_capacity {s : ByteArray} (hs : Rep s) (n : Nat) :
    (s.addCapacity n).capacity = s.capacity + s.baseSize * addedBlocks s n := by
  obtain ⟨_, _, _, _, _, _, he⟩ := addCapacity_spec hs n
  rw [he]

theorem content_length {s : ByteArray} (hs : Rep s) : s.content.length = s.size := by
  have h := flatten_length hs.blocks
  have := hs.size_le
  rw [hs.capacity] at this
  rw [content, List.length_take]; omega

/-- New blocks come after the data, so a caller sees the same bytes. -/
theorem addCapacity_content {s : ByteArray} (hs : Rep s) (n : Nat) : (s.addCapacity n).content = s.content := by
  obtain ⟨fresh, heap, cur, hfull, hlen, _, he⟩ := addCapacity_spec hs n
  have hle := hs.size_le
  rw [hs.capacity, ← flatten_length hs.blocks] at hle
  rw [he]
  simp only [content, flatten_append]
  rw [List.take_append_of_le_length hle]

/-- The blocks suffice exactly under `Grows`: the test on the remainder compares it with
    the old free room instead of with zero. -/
theorem addCapacity_enough_iff {s : ByteArray} (hs : Rep s) (n : Nat) :
    n ≤ (s.addCapacity n).getCapacity ↔ Grows s n := by
  have hb := s.baseSize_pos
  have hcap : (s.addCapacity n).getCapacity = s.getCapacity + s.baseSize * addedBlocks s n := by
    have := hs.position_le
    have := hs.size_le
    unfold getCapacity
    rw [addCapacity_capacity hs, addCapacity_position hs]; omega
  rw [hcap]
  unfold Grows addedBlocks
  by_cases hfit : n ≤ s.getCapacity
  · simp only [hfit, if_true, Nat.mul_zero, Nat.add_zero, true_or]
  · have hdm := Nat.div_add_mod (n - s.getCapacity) s.baseSize
    have hlt := Nat.mod_lt (n - s.getCapacity) hb
    simp only [hfit, if_false, false_or]
    by_cases hr : s.getCapacity < (n - s.getCapacity) % s.baseSize
    · simp only [hr, if_true, or_true, iff_true, Nat.mul_add, Nat.mul_one]; omega
    · simp only [hr, if_false, or_false, Nat.add_zero]; omega

end LjrServer.ByteArray
