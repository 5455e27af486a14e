/-
  LjrServer.Lib.Roster — who is doing what: entries under distinct keys, in any order.

  Proved:
  - `lookup_put`, `lookup_remove`: what is looked up after a change.
  - `perm_cons_remove`: an entry that is looked up, and the rest.
  - `sum_put_new`, `sum_remove`, `holds_perm`: what the entries add up to, and what they hold
    between them, when one of them changes.
-/

import Mathlib.Algebra.BigOperators.Group.List.Basic
import Mathlib.Data.Int.Basic
import Mathlib.Algebra.GroupWithZero.Nat
import Mathlib.Algebra.Ring.Int.Defs

namespace LjrServer.Lib

abbrev Roster (ι α : Type) := List (ι × α)

namespace Roster

variable {ι α β : Type} {r : Roster ι α} {i : ι} {a b : α}

def Keyed (r : Roster ι α) : Prop := (r.map Prod.fst).Nodup

theorem keyed_nil : Keyed ([] : Roster ι α) := List.nodup_nil

/-- What the entries add up to. -/
def sum (f : α → Int) (r : Roster ι α) : Int := (r.map fun p => f p.2).sum

theorem sum_cons (f : α → Int) (i : ι) (a : α) (r : Roster ι α) : sum f ((i, a) :: r) = f a + sum f r :=
  List.sum_cons

/-- What the entries hold between them. -/
def holds (f : α → List β) (r : Roster ι α) : List β := r.flatMap fun p => f p.2

theorem mem_holds {f : α → List β} {x : β} : x ∈ holds f r ↔ ∃ i a, (i, a) ∈ r ∧ x ∈ f a := by
  simp [holds]

/-! ## Changing an entry -/

variable [DecidableEq ι]

def remove (r : Roster ι α) (i : ι) : Roster ι α := r.filter fun p => p.1 ≠ i

def put (r : Roster ι α) (i : ι) (a : α) : Roster ι α := (i, a) :: r.remove i

theorem remove_cons (p : ι × α) (r : Roster ι α) (i : ι) :
    remove (p :: r) i = if p.1 = i then r.remove i else p :: r.remove i := by
  by_cases h : p.1 = i
  · rw [if_pos h, remove, List.filter_cons_of_neg (by simpa using h)]
    rfl
  · rw [if_neg h, remove, List.filter_cons_of_pos (by simpa using h)]
    rfl

theorem lookup_remove (r : Roster ι α) (i j : ι) : (r.remove i).lookup j = if i = j then none else r.lookup j := by
  induction r with
  | nil => exact (ite_self none).symm
  | cons p r ih =>
    rw [remove_cons, List.lookup_cons]
    by_cases hp : p.1 = i
    · rw [if_pos hp, ih]
      by_cases hj : i = j
      · rw [if_pos hj, if_pos hj]
      · rw [if_neg hj, if_neg hj, beq_false_of_ne fun h : j = p.1 => hj (h.trans hp).symm]
    · rw [if_neg hp, List.lookup_cons, ih]
      by_cases hj : i = j
      · rw [if_pos hj, if_pos hj, beq_false_of_ne fun h : j = p.1 => hp (hj.trans h).symm]
      · rw [if_neg hj, if_neg hj]

theorem lookup_put (r : Roster ι α) (i : ι) (a : α) (j : ι) :
    (r.put i a).lookup j = if i = j then some a else r.lookup j := by
  rw [put, List.lookup_cons]
  by_cases hj : i = j
  · rw [if_pos hj, hj, beq_self_eq_true]
  · rw [if_neg hj, beq_false_of_ne (Ne.symm hj), lookup_remove, if_neg hj]

theorem keyed_remove (h : r.Keyed) (i : ι) : (r.remove i).Keyed :=
  h.sublist (List.filter_sublist.map _)

theorem not_mem_remove (r : Roster ι α) (i : ι) : i ∉ (r.remove i).map Prod.fst := by
  intro h
  obtain ⟨p, hp, rfl⟩ := List.mem_map.mp h
  simp [remove] at hp

theorem keyed_put (h : r.Keyed) (i : ι) (a : α) : (r.put i a).Keyed :=
  List.nodup_cons.mpr ⟨not_mem_remove r i, keyed_remove h i⟩

theorem remove_of_not_mem (h : i ∉ r.map Prod.fst) : r.remove i = r := by
  refine List.filter_eq_self.mpr ?_
  intro p hp
  simp only [ne_eq, decide_eq_true_eq]
  intro he
  exact h (List.mem_map.mpr ⟨p, hp, he⟩)

theorem remove_of_lookup_none (h : r.lookup i = none) : r.remove i = r := by
  refine remove_of_not_mem ?_
  intro hi
  obtain ⟨p, hp, rfl⟩ := List.mem_map.mp hi
  have hnone := List.lookup_eq_none_iff.mp h p hp
  simp at hnone

theorem perm_cons_remove (hk : r.Keyed) (h : r.lookup i = some a) : r.Perm ((i, a) :: r.remove i) := by
  induction r with
  | nil => cases h
  | cons p r ih =>
    obtain ⟨hp, hk'⟩ := List.nodup_cons.mp hk
    rw [List.lookup_cons] at h
    by_cases hi : i = p.1
    · subst hi
      simp only [beq_self_eq_true] at h
      cases h
      rw [remove, List.filter_cons_of_neg (by simp)]
      exact List.Perm.of_eq (congrArg _ (remove_of_not_mem hp).symm)
    · rw [beq_false_of_ne hi] at h
      rw [remove, List.filter_cons_of_pos (by simpa using Ne.symm hi)]
      exact ((ih hk' h).cons p).trans (List.Perm.swap ..)

theorem sum_remove (f : α → Int) (hk : r.Keyed) (h : r.lookup i = some a) : sum f (r.remove i) = sum f r - f a := by
  have hperm : sum f r = sum f ((i, a) :: r.remove i) := ((perm_cons_remove hk h).map fun p : ι × α => f p.2).sum_eq
  rw [sum_cons] at hperm
  omega

theorem sum_put_new (f : α → Int) (h : r.lookup i = none) : sum f (r.put i b) = sum f r + f b := by
  rw [put, remove_of_lookup_none h, sum_cons]
  omega

theorem holds_perm (f : α → List β) (hk : r.Keyed) (h : r.lookup i = some a) :
    (holds f r).Perm (f a ++ holds f (r.remove i)) :=
  (perm_cons_remove hk h).flatMap_right _

theorem holds_put (f : α → List β) : holds f (r.put i b) = f b ++ holds f (r.remove i) := rfl

end Roster

end LjrServer.Lib
