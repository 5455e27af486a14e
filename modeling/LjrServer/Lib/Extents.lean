/-
  LjrServer.Lib.Extents — pieces of equal blocks, one after another.

  A store of blocks of `b` elements each is one sequence, the concatenation of the blocks. An
  extent is a piece inside a block; a list of extents covers a range of the sequence when the
  pieces follow each other from its start to its end. What the pieces hold is then that range
  (`covers_gathered`), and storing a list into the pieces, one after another, overwrites it
  (`covers_scattered`).

  Nothing here names a program: the element type is arbitrary.
-/

import LjrServer.Lib.Flat
import Mathlib.Data.List.Induction
import Mathlib.Algebra.GroupWithZero.Nat
import Mathlib.Algebra.Ring.Int.Defs

namespace LjrServer.Lib

variable {α : Type}

structure Extent where
  block : Nat
  offset : Nat
  length : Nat
  deriving DecidableEq, Repr

/-- The extents are the positions from `p` on, `n` of them, and none is empty. -/
def Covers (b : Nat) : List Extent → Nat → Nat → Prop
  | [], _, n => n = 0
  | e :: es, p, n => 0 < e.length ∧ e.offset + e.length ≤ b ∧ b * e.block + e.offset = p ∧ e.length ≤ n ∧
      Covers b es (p + e.length) (n - e.length)

/-- What the extents hold, in their order. -/
def gathered (blocks : List (List α)) (es : List Extent) : List α :=
  es.flatMap fun e => slice (blocks.getD e.block []) e.offset e.length

/-- The blocks after a list is stored in the extents, as much of it as each takes. -/
def scattered (blocks : List (List α)) : List Extent → List α → List (List α)
  | [], _ => blocks
  | e :: es, xs => scattered (blocks.modify e.block fun x => splice x e.offset (xs.take e.length)) es (xs.drop e.length)

/-- All blocks have `b` elements. -/
def Blocks (b : Nat) (blocks : List (List α)) : Prop := ∀ x ∈ blocks, x.length = b

variable {b p n k off : Nat} {blocks : List (List α)} {es : List Extent} {xs : List α}

theorem covers_lengths (h : Covers b es p n) : (∀ e ∈ es, 0 < e.length) ∧ (es.map Extent.length).sum = n := by
  induction es generalizing p n with
  | nil => exact ⟨by simp, h.symm⟩
  | cons e es ih =>
    obtain ⟨hpos, -, -, hle, hrest⟩ := h
    obtain ⟨hall, hsum⟩ := ih hrest
    exact ⟨List.forall_mem_cons.mpr ⟨hpos, hall⟩, by rw [List.map_cons, List.sum_cons, hsum]; omega⟩

theorem blocks_length (hb : Blocks b blocks) : blocks.flatten.length = b * blocks.length := by
  induction blocks with
  | nil => rfl
  | cons x blocks ih =>
    obtain ⟨hx, hb⟩ := List.forall_mem_cons.mp hb
    rw [List.flatten_cons, List.length_append, hx, ih hb, List.length_cons, Nat.mul_succ]
    omega

/-- A piece of a block is a piece of the sequence. -/
theorem slice_block (hb : Blocks b blocks) (hk : k < blocks.length) (hn : off + n ≤ b) :
    slice (blocks.getD k []) off n = slice blocks.flatten (b * k + off) n := by
  induction blocks generalizing k with
  | nil => cases hk
  | cons x blocks ih =>
    obtain ⟨hx, hb⟩ := List.forall_mem_cons.mp hb
    cases k with
    | zero => rw [List.getD_cons_zero, List.flatten_cons, Nat.mul_zero, Nat.zero_add, slice_append_left (by omega)]
    | succ k =>
      have hdrop : (x ++ blocks.flatten).drop (b * (k + 1) + off) = blocks.flatten.drop (b * k + off) := by
        rw [List.drop_append, List.drop_of_length_le (by rw [hx, Nat.mul_succ]; omega), List.nil_append, hx,
          show b * (k + 1) + off - b = b * k + off by rw [Nat.mul_succ]; omega]
      rw [List.getD_cons_succ, ih hb (by simpa using hk), List.flatten_cons]
      simp only [slice, hdrop]

/-- Storing into a block is storing into the sequence. -/
theorem splice_block (hb : Blocks b blocks) (hk : k < blocks.length) (hn : off + xs.length ≤ b) :
    (blocks.modify k fun x => splice x off xs).flatten = splice blocks.flatten (b * k + off) xs ∧
      Blocks b (blocks.modify k fun x => splice x off xs) := by
  induction blocks generalizing k with
  | nil => cases hk
  | cons x blocks ih =>
    obtain ⟨hx, hb⟩ := List.forall_mem_cons.mp hb
    cases k with
    | zero =>
      rw [List.modify_zero_cons, List.flatten_cons, List.flatten_cons, Nat.mul_zero, Nat.zero_add,
        splice_append_left (by omega)]
      exact ⟨rfl, List.forall_mem_cons.mpr ⟨by rw [splice_length (by omega), hx], hb⟩⟩
    | succ k =>
      obtain ⟨hflat, hblocks⟩ := ih hb (by simpa using hk)
      have hoff : b * (k + 1) + off - x.length = b * k + off := by
        rw [hx, Nat.mul_succ]
        omega
      rw [List.modify_succ_cons, List.flatten_cons, List.flatten_cons, hflat,
        splice_append_right (by rw [hx, Nat.mul_succ]; omega), hoff]
      exact ⟨rfl, List.forall_mem_cons.mpr ⟨hx, hblocks⟩⟩

/-- A covered range lies in the store. -/
theorem block_lt (hpos : 0 < n) (hp : b * k + off = p) (hroom : p + n ≤ b * blocks.length) : k < blocks.length := by
  by_contra hk
  have := Nat.mul_le_mul_left b (Nat.le_of_not_lt hk)
  omega

theorem slice_add (l : List α) (i n m : Nat) : slice l i (n + m) = slice l i n ++ slice l (i + n) m := by
  simp only [slice]
  rw [List.take_add, List.drop_drop]

theorem covers_gathered (hb : Blocks b blocks) (h : Covers b es p n) (hroom : p + n ≤ b * blocks.length) :
    gathered blocks es = slice blocks.flatten p n := by
  induction es generalizing p n with
  | nil =>
    have hn : n = 0 := h
    subst hn
    rw [slice_zero]
    rfl
  | cons e es ih =>
    obtain ⟨hpos, hoff, hp, hle, hrest⟩ := h
    have hk : e.block < blocks.length := block_lt hpos hp (by omega)
    have hfirst := slice_block hb hk hoff
    have hothers := ih hrest (by omega)
    rw [hp] at hfirst
    have hn : n = e.length + (n - e.length) := by omega
    rw [gathered, List.flatMap_cons, hfirst, hn, slice_add, ← hothers]
    rfl

theorem covers_scattered (hb : Blocks b blocks) (h : Covers b es p n) (hroom : p + n ≤ b * blocks.length)
    (hxs : xs.length ≤ n) :
    (scattered blocks es xs).flatten = splice blocks.flatten p xs ∧ Blocks b (scattered blocks es xs) ∧
      (scattered blocks es xs).length = blocks.length := by
  induction es generalizing blocks p n xs with
  | nil =>
    have hn : n = 0 := h
    have hnil : xs = [] := List.length_eq_zero_iff.mp (by omega)
    subst hnil
    exact ⟨by simp [scattered, splice], hb, rfl⟩
  | cons e es ih =>
    obtain ⟨hpos, hoff, hp, hle, hrest⟩ := h
    have hk : e.block < blocks.length := block_lt hpos hp (by omega)
    have htake : (xs.take e.length).length ≤ e.length := List.length_take_le _ _
    have hin : e.offset + (xs.take e.length).length ≤ b := by omega
    obtain ⟨hflat, hblocks⟩ := splice_block hb hk hin
    have hlength := blocks_length hb
    rw [hp] at hflat
    have hp' : p ≤ blocks.flatten.length := by omega
    obtain ⟨hflat', hblocks', hlen'⟩ := ih hblocks hrest (by rw [List.length_modify]; omega)
      (show (xs.drop e.length).length ≤ _ by rw [List.length_drop]; omega)
    refine ⟨?_, hblocks', by rw [scattered, hlen', List.length_modify]⟩
    rw [scattered, hflat', hflat]
    by_cases hshort : xs.length ≤ e.length
    · -- the list ends in this piece
      rw [List.take_of_length_le hshort, List.drop_of_length_le hshort]
      simp [splice]
    · have htl : (xs.take e.length).length = e.length := by rw [List.length_take]; omega
      calc splice (splice blocks.flatten p (xs.take e.length)) (p + e.length) (xs.drop e.length)
          _ = splice (splice blocks.flatten p (xs.take e.length)) (p + (xs.take e.length).length) (xs.drop e.length) := by
            rw [htl]
          _ = splice blocks.flatten p (xs.take e.length ++ xs.drop e.length) := splice_splice hp'
          _ = splice blocks.flatten p xs := by rw [List.take_append_drop]

end LjrServer.Lib
