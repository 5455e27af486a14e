/-
  LjrServer.Lib.Radix — numbers as bytes.

  `leBytes w v` is `v` in `w` bytes, lowest first, and `ofLeBytes` the number they spell.
  `groups` is the base-128 form: seven bits a byte, lowest first, the high bit set on
  every byte but the last; `ungroups n` reads at most `n` bytes of it. A reader with
  enough rounds gets the number back (`ungroups_groups`), one with too few gets it
  modulo `128 ^ n` and stops short (`ungroups_short`). `zigzag` folds a signed bit
  pattern into an unsigned one with small numbers small.
-/

import Mathlib.Data.Nat.Bitwise

namespace LjrServer.Lib

theorem ofNat_toNat_lt {n : Nat} (h : n < 256) : (UInt8.ofNat n).toNat = n := by
  rw [UInt8.toNat_ofNat']; omega

/-! ## Fixed width -/

def leBytes : Nat → Nat → List UInt8
  | 0, _ => []
  | w + 1, v => UInt8.ofNat v :: leBytes w (v / 256)

def ofLeBytes : List UInt8 → Nat
  | [] => 0
  | b :: bs => b.toNat + 256 * ofLeBytes bs

@[simp] theorem leBytes_length : ∀ (w v : Nat), (leBytes w v).length = w
  | 0, _ => rfl
  | w + 1, v => by rw [leBytes, List.length_cons, leBytes_length w]

theorem ofLeBytes_leBytes : ∀ {w v : Nat}, v < 256 ^ w → ofLeBytes (leBytes w v) = v
  | 0, v, h => by
    rw [Nat.pow_zero] at h
    simp only [leBytes, ofLeBytes]; omega
  | w + 1, v, h => by
    rw [Nat.pow_succ] at h
    rw [leBytes, ofLeBytes, ofLeBytes_leBytes (show v / 256 < 256 ^ w by omega), UInt8.toNat_ofNat']
    omega

theorem leBytes_ofLeBytes : ∀ bs : List UInt8, leBytes bs.length (ofLeBytes bs) = bs
  | [] => rfl
  | b :: bs => by
    have hb := b.toNat_lt
    have hq : (b.toNat + 256 * ofLeBytes bs) / 256 = ofLeBytes bs := by omega
    have hr : UInt8.ofNat (b.toNat + 256 * ofLeBytes bs) = b := by
      apply UInt8.toNat_inj.mp
      rw [UInt8.toNat_ofNat']; omega
    rw [List.length_cons, ofLeBytes, leBytes, hq, hr, leBytes_ofLeBytes bs]

theorem ofLeBytes_lt (bs : List UInt8) : ofLeBytes bs < 256 ^ bs.length := by
  induction bs with
  | nil => exact Nat.one_pos
  | cons b bs ih =>
    have hb := b.toNat_lt
    rw [ofLeBytes, List.length_cons, Nat.pow_succ]
    omega

/-! ## Groups of seven bits -/

/-- At most `k` groups of `v`. -/
def groups : Nat → Nat → List UInt8
  | 0, _ => []
  | k + 1, v => if v < 128 then [UInt8.ofNat v] else UInt8.ofNat (v % 128 + 128) :: groups k (v / 128)

/-- The number at the front of the bytes and how many of them it took, from at most `n`;
    `none` when they end inside it. -/
def ungroups : Nat → List UInt8 → Option (Nat × Nat)
  | 0, _ => some (0, 0)
  | _ + 1, [] => none
  | n + 1, b :: bs =>
    if b.toNat < 128 then some (b.toNat, 1)
    else (ungroups n bs).map fun r => (b.toNat % 128 + 128 * r.1, r.2 + 1)

theorem groups_pos : ∀ {k v : Nat}, 0 < k → 0 < (groups k v).length
  | k + 1, v, _ => by rw [groups]; split <;> simp

theorem groups_length_le : ∀ (k v : Nat), (groups k v).length ≤ k
  | 0, _ => Nat.le_refl _
  | k + 1, v => by
    rw [groups]
    split
    · simp
    · rw [List.length_cons]
      exact Nat.succ_le_succ (groups_length_le k (v / 128))

/-- `v` takes `n` groups or fewer exactly when it is below `128 ^ n`. -/
theorem groups_length_le_iff : ∀ {k v : Nat} (n : Nat), v < 128 ^ k → 0 < k →
    ((groups k v).length ≤ n ↔ v < 128 ^ n ∧ 0 < n)
  | k + 1, v, 0, _, _ => by
    have := groups_pos (k := k + 1) (v := v) (Nat.succ_pos k)
    omega
  | k + 1, v, n + 1, h, _ => by
    rw [groups]
    by_cases hs : v < 128
    · have : 1 ≤ 128 ^ n := Nat.one_le_two_pow.trans (Nat.pow_le_pow_left (by decide) n)
      rw [if_pos hs, Nat.pow_succ]
      simp only [List.length_singleton]
      omega
    · rw [if_neg hs, List.length_cons, Nat.pow_succ]
      rw [Nat.pow_succ] at h
      have hk : 0 < k := by
        apply Nat.pos_of_ne_zero
        intro e
        subst e
        omega
      have ih := groups_length_le_iff (k := k) (v := v / 128) n (by omega) hk
      have hn : v / 128 < 128 ^ n → 0 < n := by
        intro hlt
        apply Nat.pos_of_ne_zero
        intro e
        subst e
        omega
      omega

/-- What is read lies inside the bytes, is at least a byte if there was a round, and fits
    the rounds. -/
theorem ungroups_bounds {n v k : Nat} {bs : List UInt8} (h : ungroups n bs = some (v, k)) :
    k ≤ bs.length ∧ (0 < n → 0 < k) ∧ v < 128 ^ n := by
  induction n generalizing bs v k with
  | zero =>
    cases h
    exact ⟨Nat.zero_le _, fun h => absurd h (Nat.lt_irrefl 0), by decide⟩
  | succ n ih =>
    cases bs with
    | nil => cases h
    | cons b bs =>
      rw [ungroups] at h
      rw [Nat.pow_succ]
      split at h
      · rename_i hb
        cases h
        have : 1 ≤ 128 ^ n := Nat.one_le_pow _ _ (by decide)
        exact ⟨Nat.succ_le_succ (Nat.zero_le _), fun _ => Nat.one_pos, by omega⟩
      · obtain ⟨⟨v', k'⟩, h', he⟩ := Option.map_eq_some_iff.mp h
        cases he
        obtain ⟨hle, -, hlt⟩ := ih h'
        exact ⟨Nat.succ_le_succ hle, fun _ => Nat.succ_pos _, by omega⟩

/-- Enough rounds read the number back and take exactly its groups. -/
theorem ungroups_groups : ∀ {k n v : Nat} (rest : List UInt8), v < 128 ^ k → 0 < k → (groups k v).length ≤ n →
    ungroups n (groups k v ++ rest) = some (v, (groups k v).length)
  | k + 1, 0, v, _, _, _, hn => by
    have := groups_pos (k := k + 1) (v := v) (Nat.succ_pos k)
    omega
  | k + 1, n + 1, v, rest, h, _, hn => by
    rw [groups] at hn ⊢
    by_cases hs : v < 128
    · simp only [hs, if_true, List.singleton_append, ungroups, ofNat_toNat_lt (show v < 256 by omega), List.length_singleton]
    · rw [if_neg hs, List.length_cons] at hn
      rw [Nat.pow_succ] at h
      have hk : 0 < k := by
        apply Nat.pos_of_ne_zero
        intro e
        subst e
        omega
      have ih := ungroups_groups (k := k) (n := n) (v := v / 128) rest (by omega) hk (by omega)
      have hb : ¬ v % 128 + 128 < 128 := by omega
      simp only [hs, if_false, List.cons_append, ungroups, ofNat_toNat_lt (show v % 128 + 128 < 256 by omega), hb, ih,
        Option.map_some, List.length_cons, Option.some.injEq, Prod.mk.injEq, and_true]
      omega

/-- Too few rounds read the number modulo `128 ^ n` and leave the rest of its groups. -/
theorem ungroups_short : ∀ {k n v : Nat} (rest : List UInt8), v < 128 ^ k → n < (groups k v).length →
    ungroups n (groups k v ++ rest) = some (v % 128 ^ n, n)
  | k, 0, v, _, _, _ => by simp [ungroups, Nat.mod_one]
  | 0, n + 1, v, _, _, hn => by simp [groups] at hn
  | k + 1, n + 1, v, rest, h, hn => by
    rw [groups] at hn ⊢
    by_cases hs : v < 128
    · rw [if_pos hs, List.length_singleton] at hn
      omega
    · rw [if_neg hs, List.length_cons] at hn
      rw [Nat.pow_succ] at h
      have ih := ungroups_short (k := k) (n := n) (v := v / 128) rest (by omega) (by omega)
      have hb : ¬ v % 128 + 128 < 128 := by omega
      have hm : v % 128 ^ (n + 1) = v % 128 + 128 * (v / 128 % 128 ^ n) := by
        rw [Nat.pow_succ, Nat.mul_comm, Nat.mod_mul]
      simp only [hs, if_false, List.cons_append, ungroups, ofNat_toNat_lt (show v % 128 + 128 < 256 by omega), hb, ih,
        Option.map_some, Option.some.injEq, Prod.mk.injEq, and_true, hm]
      omega

/-! ## Zigzag -/

variable {w : Nat}

def zigzag (v : BitVec w) : BitVec w := if v.msb then -v * 2#w - 1#w else v * 2#w

def unzigzag (e : BitVec w) : BitVec w := (e >>> 1) ^^^ -(e &&& 1#w)

theorem and_one_toNat (hw : 0 < w) (e : BitVec w) : (e &&& 1#w).toNat = e.toNat % 2 := by
  have h1 : (1#w).toNat = 1 := by simp [Nat.mod_eq_of_lt (Nat.one_lt_two_pow (by omega : w ≠ 0))]
  rw [BitVec.toNat_and, h1, Nat.and_one_is_mod]

theorem unzigzag_even (hw : 0 < w) {e : BitVec w} (h : e.toNat % 2 = 0) : (unzigzag e).toNat = e.toNat / 2 := by
  have h0 : e &&& 1#w = 0#w := BitVec.eq_of_toNat_eq (by rw [and_one_toNat hw, h]; simp)
  rw [unzigzag, h0]
  simp [Nat.shiftRight_eq_div_pow]

theorem unzigzag_odd (hw : 0 < w) {e : BitVec w} (h : e.toNat % 2 = 1) :
    (unzigzag e).toNat = 2 ^ w - 1 - e.toNat / 2 := by
  have h1 : e &&& 1#w = 1#w := BitVec.eq_of_toNat_eq (by
    rw [and_one_toNat hw, h]; simp [Nat.mod_eq_of_lt (Nat.one_lt_two_pow (by omega : w ≠ 0))])
  rw [unzigzag, h1, BitVec.neg_one_eq_allOnes, BitVec.xor_allOnes, BitVec.toNat_not]
  simp [Nat.shiftRight_eq_div_pow]

/-- Folding and unfolding is the identity on every bit pattern, the most negative included. -/
theorem unzigzag_zigzag (hw : 1 < w) (v : BitVec w) : unzigzag (zigzag v) = v := by
  apply BitVec.eq_of_toNat_eq
  have hlt := v.isLt
  obtain ⟨k, rfl⟩ : ∃ k, w = k + 1 := ⟨w - 1, by omega⟩
  have hp : 2 ^ (k + 1) = 2 * 2 ^ k := by rw [Nat.pow_succ, Nat.mul_comm]
  have hk : 2 ≤ 2 ^ k := by
    calc 2 = 2 ^ 1 := rfl
      _ ≤ 2 ^ k := Nat.pow_le_pow_right (by decide) (by omega)
  have h1 : (1#(k + 1)).toNat = 1 := by simp [Nat.mod_eq_of_lt (show 1 < 2 ^ (k + 1) by omega)]
  have h2 : (2#(k + 1)).toNat = 2 := by simp [Nat.mod_eq_of_lt (show 2 < 2 ^ (k + 1) by omega)]
  have hmsb := BitVec.msb_eq_decide v
  rw [Nat.add_sub_cancel] at hmsb
  by_cases hneg : 2 ^ k ≤ v.toNat
  · -- a negative pattern folds to an odd number
    have he : (zigzag v).toNat = 2 * (2 ^ (k + 1) - v.toNat) - 1 := by
      rw [zigzag, hmsb, decide_eq_true hneg, if_pos rfl, BitVec.toNat_sub, BitVec.toNat_mul, BitVec.toNat_neg, h1, h2]
      rw [Nat.mod_eq_of_lt (show 2 ^ (k + 1) - v.toNat < 2 ^ (k + 1) by omega)]
      by_cases hmin : v.toNat = 2 ^ k
      · rw [hmin, show (2 ^ (k + 1) - 2 ^ k) * 2 = 2 ^ (k + 1) by omega, Nat.mod_self, Nat.mod_eq_of_lt (by omega)]
        omega
      · rw [Nat.mod_eq_of_lt (show (2 ^ (k + 1) - v.toNat) * 2 < 2 ^ (k + 1) by omega),
          show 2 ^ (k + 1) - 1 + (2 ^ (k + 1) - v.toNat) * 2 = 2 * (2 ^ (k + 1) - v.toNat) - 1 + 2 ^ (k + 1) by omega,
          Nat.add_mod_right, Nat.mod_eq_of_lt (by omega)]
    rw [unzigzag_odd (by omega) (by omega), he]
    omega
  · have he : (zigzag v).toNat = 2 * v.toNat := by
      rw [zigzag, hmsb, decide_eq_false hneg, if_neg (by decide), BitVec.toNat_mul, h2,
        Nat.mod_eq_of_lt (by omega), Nat.mul_comm]
    rw [unzigzag_even (by omega) (by omega), he]
    omega

end LjrServer.Lib
