/-
  LjrServer.Lib.Census — how many members of a family are in a given phase.

  `census p ids w` counts the ids of a list whose member of the family `w` satisfies `p`. A
  counter that is moved along with the members is equal to it.

  Proved:
  - `census_move`: when one member changes, the census changes by what that member counted
    before and after.
  - `census_eq_zero`: it is zero when no listed member counts.
-/

namespace LjrServer.Lib

variable {ι α : Type} {p : α → Bool} {ids : List ι} {w w' : ι → α} {i : ι}

def census (p : α → Bool) (ids : List ι) (w : ι → α) : Nat := ids.countP fun i => p (w i)

theorem census_congr (h : ∀ j ∈ ids, w' j = w j) : census p ids w' = census p ids w :=
  List.countP_congr fun j hj => by rw [h j hj]

theorem census_move (hnd : ids.Nodup) (hi : i ∈ ids) (h : ∀ j, j ≠ i → w' j = w j) :
    census p ids w' + (p (w i)).toNat = census p ids w + (p (w' i)).toNat := by
  induction ids with
  | nil => cases hi
  | cons j ids ih =>
    obtain ⟨hj, hnd'⟩ := List.nodup_cons.mp hnd
    simp only [census, List.countP_cons]
    by_cases hij : i = j
    · subst hij
      have hrest : census p ids w' = census p ids w := census_congr fun k hk => h k fun e => hj (e ▸ hk)
      unfold census at hrest
      rw [hrest]
      cases p (w i) <;> cases p (w' i) <;> simp
    · have hrest := ih hnd' ((List.mem_cons.mp hi).resolve_left hij)
      unfold census at hrest
      rw [h j (Ne.symm hij)]
      omega

theorem census_pos (hi : i ∈ ids) (hp : p (w i) = true) : 0 < census p ids w :=
  List.countP_pos_iff.mpr ⟨i, hi, hp⟩

theorem census_eq_zero : census p ids w = 0 ↔ ∀ i ∈ ids, p (w i) = false := by
  unfold census
  simp only [List.countP_eq_zero, Bool.not_eq_true]

end LjrServer.Lib
