/-
  LjrServer.Lib.Bits — masks of low and high ones, and counting the ones of a bit vector.

  Proved:
  - `shl_sub_one`: `(1 << k) - 1` is the mask of `k` low ones.
  - `cpop_and_pred`: `x & (x - 1)` has one bit less than `x`, and `and_pred_lt`: it is less.
  - `cpop_lowOnes`, `cpop_highOnes`: the masks of `k` low and of `k` high ones have `k` ones.
-/

namespace LjrServer.Lib

variable {w : Nat}

/-- The lowest `k` bits. -/
def lowOnes (w k : Nat) : BitVec w := (BitVec.allOnes k).setWidth w

/-- The highest `k` bits. -/
def highOnes (w k : Nat) : BitVec w := ~~~lowOnes w (w - k)

theorem getLsbD_lowOnes (w k i : Nat) : (lowOnes w k).getLsbD i = (decide (i < w) && decide (i < k)) := by
  rw [lowOnes, BitVec.getLsbD_setWidth, BitVec.getLsbD_allOnes]

theorem setWidth_lowOnes {v : Nat} (h : v ≤ w) (k : Nat) : (lowOnes w k).setWidth v = lowOnes v k := by
  apply BitVec.eq_of_getLsbD_eq
  intro i hi
  rw [BitVec.getLsbD_setWidth, getLsbD_lowOnes, getLsbD_lowOnes, decide_eq_true hi,
    decide_eq_true (Nat.lt_of_lt_of_le hi h),
    Bool.true_and]

/-- Also where the one is shifted out. -/
theorem shl_sub_one (w k : Nat) : (1#w <<< k) - 1#w = lowOnes w k := by
  apply BitVec.eq_of_getLsbD_eq
  intro i hi
  have hcut : (decide (i < w) && !decide (i < k) && decide (i - k < w)) = !decide (i < k) := by
    rw [decide_eq_true hi, decide_eq_true (show i - k < w by omega), Bool.true_and, Bool.and_true]
  rw [← BitVec.not_neg, ← BitVec.shiftLeft_neg, BitVec.getLsbD_not, BitVec.getLsbD_shiftLeft, BitVec.neg_one_eq_allOnes,
    BitVec.getLsbD_allOnes, hcut, Bool.not_not, getLsbD_lowOnes]

theorem cpop_lowOnes {k : Nat} (hk : k ≤ w) : (lowOnes w k).cpop.toNat = k := by
  rw [lowOnes, BitVec.toNat_cpop_setWidth_eq_of_le hk, BitVec.cpop_allOnes, BitVec.toNat_ofNat,
    Nat.mod_eq_of_lt Nat.lt_two_pow_self]

theorem cpop_highOnes {k : Nat} (hk : k ≤ w) : (highOnes w k).cpop.toNat = k := by
  rw [highOnes, BitVec.toNat_cpop_not, cpop_lowOnes (Nat.sub_le _ _)]
  omega

/-! ## The lowest one -/

theorem toNat_one {x : BitVec w} (h : x ≠ 0) : 0 < x.toNat ∧ (1 : BitVec w).toNat = 1 := by
  have hlt := x.isLt
  have hpos : 0 < x.toNat := Nat.pos_of_ne_zero fun h0 => h (BitVec.eq_of_toNat_eq h0)
  exact ⟨hpos, Nat.mod_eq_of_lt (Nat.lt_of_le_of_lt hpos hlt)⟩

theorem concat_true_sub_one (x : BitVec w) : x.concat true - 1 = x.concat false := by
  apply BitVec.eq_of_toNat_eq
  rw [BitVec.toNat_sub_of_le] <;> simp [BitVec.le_def]

/-- Borrowed from above. -/
theorem concat_false_sub_one {x : BitVec w} (h : x ≠ 0) : x.concat false - 1 = (x - 1).concat true := by
  obtain ⟨hpos, hone⟩ := toNat_one h
  apply BitVec.eq_of_toNat_eq
  rw [BitVec.toNat_sub_of_le, BitVec.toNat_concat, BitVec.toNat_concat, BitVec.toNat_sub_of_le, hone]
  · simp
    omega
  · rw [BitVec.le_def]
    omega
  · simp [BitVec.le_def]
    omega

theorem cpop_and_pred {x : BitVec w} (h : x ≠ 0) : (x &&& (x - 1)).cpop.toNat + 1 = x.cpop.toNat := by
  induction x using BitVec.concat_induction with
  | nil => exact absurd (BitVec.eq_nil _) h
  | concat x b ih =>
    cases b with
    | true =>
      rw [concat_true_sub_one, BitVec.concat_and_concat, BitVec.and_self, BitVec.toNat_cpop_concat,
        BitVec.toNat_cpop_concat]
      simp [Nat.add_comm]
    | false =>
      have hx : x ≠ 0 := by
        rintro rfl
        exact h (by simp [BitVec.concat])
      rw [concat_false_sub_one hx, BitVec.concat_and_concat, BitVec.toNat_cpop_concat, BitVec.toNat_cpop_concat]
      simpa using ih hx

theorem and_pred_lt {x : BitVec w} (h : x ≠ 0) : (x &&& (x - 1)).toNat < x.toNat := by
  obtain ⟨hpos, hone⟩ := toNat_one h
  calc (x &&& (x - 1)).toNat
      _ ≤ (x - 1).toNat := by
        rw [BitVec.toNat_and]
        exact Nat.and_le_right
      _ = x.toNat - 1 := by rw [BitVec.toNat_sub_of_le (by rw [BitVec.le_def]; omega), hone]
      _ < x.toNat := by omega

/-! ## A mask and the rest -/

theorem and_not_eq_and_iff {x m : BitVec w} : x &&& ~~~m = x &&& m ↔ x = 0 := by
  constructor
  · intro h
    apply BitVec.eq_of_getLsbD_eq
    intro i hi
    have hbit := congrArg (fun v => v.getLsbD i) h
    simp only [BitVec.getLsbD_and, BitVec.getLsbD_not, hi, decide_true, Bool.true_and] at hbit
    cases hx : x.getLsbD i <;> cases hm : m.getLsbD i <;> simp [hx, hm] at hbit ⊢
  · rintro rfl
    exact BitVec.zero_and.trans BitVec.zero_and.symm

/-- Where the mask is set, it does not matter what was there. -/
theorem or_eq_of_and_not_eq {x y m : BitVec w} (h : x &&& ~~~m = y &&& ~~~m) : x ||| m = y ||| m := by
  have hfill : ∀ v : BitVec w, v ||| m = v &&& ~~~m ||| m := by
    intro v
    apply BitVec.eq_of_getLsbD_eq
    intro i hi
    simp only [BitVec.getLsbD_or, BitVec.getLsbD_and, BitVec.getLsbD_not, hi, decide_true, Bool.true_and]
    cases v.getLsbD i <;> cases m.getLsbD i <;> rfl
  rw [hfill x, hfill y, h]

end LjrServer.Lib
