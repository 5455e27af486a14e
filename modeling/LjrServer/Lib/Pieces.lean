/-
  LjrServer.Lib.Pieces — a sequence that arrives in pieces and is read from the front.

  - `dropFront n`: what is left after `n` elements; a piece may be left in part.
  - `ends`: the offsets at which pieces end. `endAfter`: the first one past an offset.

  Nothing here names a program: the element type is arbitrary.
-/

import Mathlib.Data.List.Basic

namespace LjrServer.Lib

variable {α : Type}

/-! ## Reading from the front -/

def dropFront : Nat → List (List α) → List (List α)
  | _, [] => []
  | 0, p :: ps => p :: ps
  | n + 1, p :: ps => if p.length ≤ n + 1 then dropFront (n + 1 - p.length) ps else p.drop (n + 1) :: ps

@[simp] theorem dropFront_zero (ps : List (List α)) : dropFront 0 ps = ps := by
  cases ps <;> rfl

@[simp] theorem dropFront_nil (n : Nat) : dropFront n ([] : List (List α)) = [] := by
  cases n <;> rfl

theorem dropFront_of_le {n : Nat} {p : List α} {ps : List (List α)} (hp : p ≠ []) (h : p.length ≤ n) :
    dropFront n (p :: ps) = dropFront (n - p.length) ps := by
  have hpos : 0 < p.length := List.length_pos_iff.mpr hp
  cases n with
  | zero => omega
  | succ n => exact if_pos h

theorem dropFront_of_lt {n : Nat} {p : List α} {ps : List (List α)} (h : n < p.length) :
    dropFront n (p :: ps) = p.drop n :: ps := by
  cases n with
  | zero => rfl
  | succ n => exact if_neg (Nat.not_le.mpr h)

theorem flatten_dropFront {ps : List (List α)} : ∀ (n : Nat), (∀ p ∈ ps, p ≠ []) →
    (dropFront n ps).flatten = ps.flatten.drop n := by
  induction ps with
  | nil =>
    intro n _
    simp
  | cons p ps ih =>
    intro n h
    have hp := h p List.mem_cons_self
    by_cases hle : p.length ≤ n
    · rw [dropFront_of_le hp hle, ih _ fun q hq => h q (List.mem_cons_of_mem _ hq), List.flatten_cons, List.drop_append,
        List.drop_of_length_le hle, List.nil_append]
    · rw [dropFront_of_lt (Nat.lt_of_not_le hle), List.flatten_cons, List.flatten_cons,
        List.drop_append_of_le_length (by omega)]

/-- What holds of the pieces and of the ends of a piece holds of what is left. -/
theorem mem_dropFront {P : List α → Prop} (hdrop : ∀ (p : List α) (n : Nat), n < p.length → P p → P (p.drop n))
    {ps : List (List α)} : ∀ (n : Nat), (∀ p ∈ ps, p ≠ []) → (∀ p ∈ ps, P p) → ∀ p ∈ dropFront n ps, P p := by
  induction ps with
  | nil =>
    intro n _ _ p hp
    rw [dropFront_nil] at hp
    cases hp
  | cons q ps ih =>
    intro n hne h p hp
    by_cases hle : q.length ≤ n
    · rw [dropFront_of_le (hne q List.mem_cons_self) hle] at hp
      exact ih _ (fun r hr => hne r (List.mem_cons_of_mem _ hr)) (fun r hr => h r (List.mem_cons_of_mem _ hr)) p hp
    · rw [dropFront_of_lt (Nat.lt_of_not_le hle)] at hp
      rcases List.mem_cons.mp hp with rfl | hp
      · exact hdrop q n (Nat.lt_of_not_le hle) (h q List.mem_cons_self)
      · exact h p (List.mem_cons_of_mem _ hp)

theorem dropFront_ne_nil {ps : List (List α)} (n : Nat) (h : ∀ p ∈ ps, p ≠ []) : ∀ p ∈ dropFront n ps, p ≠ [] := by
  refine mem_dropFront (P := (· ≠ [])) (fun p n hn _ => ?_) n h h
  rw [← List.length_pos_iff, List.length_drop]
  omega

theorem dropFront_all {ps : List (List α)} {n : Nat} (hne : ∀ p ∈ ps, p ≠ []) (hn : ps.flatten.length ≤ n) :
    dropFront n ps = [] := by
  have hflat : (dropFront n ps).flatten = [] := by rw [flatten_dropFront n hne, List.drop_of_length_le hn]
  cases hcase : dropFront n ps with
  | nil => rfl
  | cons p qs =>
    have hp : p ≠ [] := dropFront_ne_nil n hne p (by rw [hcase]; exact List.mem_cons_self)
    rw [hcase, List.flatten_cons] at hflat
    exact absurd (List.append_eq_nil_iff.mp hflat).1 hp

theorem dropFront_add {ps : List (List α)} : ∀ (m n : Nat), (∀ p ∈ ps, p ≠ []) →
    dropFront (m + n) ps = dropFront n (dropFront m ps) := by
  induction ps with
  | nil =>
    intro m n _
    simp
  | cons p ps ih =>
    intro m n h
    have hp := h p List.mem_cons_self
    have hps : ∀ q ∈ ps, q ≠ [] := fun q hq => h q (List.mem_cons_of_mem _ hq)
    by_cases hm : p.length ≤ m
    · rw [dropFront_of_le hp hm, dropFront_of_le hp (by omega), ← ih _ n hps]
      congr 1
      omega
    · have hlt := Nat.lt_of_not_le hm
      have hrest : (p.drop m).length = p.length - m := List.length_drop
      have hne : p.drop m ≠ [] := by
        rw [← List.length_pos_iff]
        omega
      rw [dropFront_of_lt hlt]
      by_cases hn : p.length ≤ m + n
      · rw [dropFront_of_le hp hn, dropFront_of_le hne (by omega), hrest]
        congr 1
        omega
      · rw [dropFront_of_lt (by omega), dropFront_of_lt (by omega), List.drop_drop]

theorem length_le_flatten {ps : List (List α)} (h : ∀ p ∈ ps, p ≠ []) : ps.length ≤ ps.flatten.length := by
  induction ps with
  | nil => exact Nat.le_refl _
  | cons p ps ih =>
    have hp : 0 < p.length := List.length_pos_iff.mpr (h p List.mem_cons_self)
    have hps := ih fun q hq => h q (List.mem_cons_of_mem _ hq)
    rw [List.length_cons, List.flatten_cons, List.length_append]
    omega

/-! ## Where pieces end -/

/-- The ends of the pieces, the first of which begins at `B`. -/
def ends : Nat → List (List α) → List Nat
  | _, [] => []
  | B, p :: ps => (B + p.length) :: ends (B + p.length) ps

/-- The first end past `n`. -/
def endAfter (cuts : List Nat) (n : Nat) : Nat := (cuts.find? (n < ·)).getD 0

/-- Pieces end where they did. -/
theorem ends_dropFront {ps : List (List α)} : ∀ {A : Nat} (n : Nat), (∀ p ∈ ps, p ≠ []) → n ≤ ps.flatten.length →
    ∀ x ∈ ends (A + n) (dropFront n ps), x ∈ ends A ps := by
  induction ps with
  | nil =>
    intro A n _ _ x hx
    rw [dropFront_nil] at hx
    cases hx
  | cons p ps ih =>
    intro A n hne hn x hx
    rw [List.flatten_cons, List.length_append] at hn
    by_cases hle : p.length ≤ n
    · rw [dropFront_of_le (hne p List.mem_cons_self) hle] at hx
      refine List.mem_cons_of_mem _ (ih (n - p.length) (fun q hq => hne q (List.mem_cons_of_mem _ hq)) (by omega) x ?_)
      rwa [show A + p.length + (n - p.length) = A + n by omega]
    · rw [dropFront_of_lt (Nat.lt_of_not_le hle), ends, List.length_drop,
        show A + n + (p.length - n) = A + p.length by omega] at hx
      exact hx

/-- After `n` elements, the piece at the front reaches to the next end. -/
theorem find_ends_dropFront {q : List α} {qs : List (List α)} {ps : List (List α)} : ∀ {A n : Nat}, (∀ p ∈ ps, p ≠ []) →
    dropFront n ps = q :: qs → (ends A ps).find? (A + n < ·) = some (A + n + q.length) := by
  induction ps with
  | nil =>
    intro A n _ h
    rw [dropFront_nil] at h
    cases h
  | cons p ps ih =>
    intro A n hne h
    have hp := hne p List.mem_cons_self
    by_cases hle : p.length ≤ n
    · rw [dropFront_of_le hp hle] at h
      have hrest := ih (A := A + p.length) (fun r hr => hne r (List.mem_cons_of_mem _ hr)) h
      rw [show A + p.length + (n - p.length) = A + n by omega] at hrest
      rw [ends, List.find?_cons_of_neg (by simpa using hle), hrest]
    · have hlt := Nat.lt_of_not_le hle
      rw [dropFront_of_lt hlt] at h
      obtain ⟨rfl, -⟩ := List.cons.inj h
      rw [ends, List.find?_cons_of_pos (by simpa using hlt), List.length_drop]
      congr 1
      omega

theorem endAfter_dropFront {n : Nat} {q : List α} {qs ps : List (List α)} (hne : ∀ p ∈ ps, p ≠ [])
    (h : dropFront n ps = q :: qs) : endAfter (ends 0 ps) n = n + q.length ∧ n + q.length ∈ ends 0 ps := by
  have hfind := find_ends_dropFront (A := 0) hne h
  simp only [Nat.zero_add] at hfind
  exact ⟨by rw [endAfter, hfind]; rfl, List.mem_of_find?_eq_some hfind⟩

end LjrServer.Lib
