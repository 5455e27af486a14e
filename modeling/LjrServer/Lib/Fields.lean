/-
  LjrServer.Lib.Fields — texts made of fields with a separator between them, and the place where
  two separators meet.

  Proved:
  - `fields_joined`: the fields of a text are those it was joined from.
  - `cut_joined`: two joined texts with a double separator between them are cut apart there.
  - `doubles_eq_zero`, `doubles_eq`: how many double separators there are, by where it is cut.
-/

import Mathlib.Data.List.Basic

namespace LjrServer.Lib

section
variable {α : Type*} (sep : α)

def joined (fs : List (List α)) : List α := [sep].intercalate fs

/-- A separator before each field. -/
def behind (fs : List (List α)) : List α := fs.flatMap (sep :: ·)

/-- Fields with something in them and no separator. -/
def Plain (fs : List (List α)) : Prop := ∀ f ∈ fs, f ≠ [] ∧ sep ∉ f

theorem Plain.tail {sep : α} {f : List α} {fs : List (List α)} (h : Plain sep (f :: fs)) : Plain sep fs :=
  fun g hg => h g (List.mem_cons_of_mem _ hg)

theorem joined_cons {sep : α} (f : List α) : ∀ fs : List (List α), joined sep (f :: fs) = f ++ behind sep fs
  | [] => by simp [joined, behind]
  | g :: fs => by
    have ih : joined sep (g :: fs) = g ++ behind sep fs := joined_cons g fs
    unfold joined at ih ⊢
    rw [List.intercalate_cons_cons, ih]
    simp [behind]

variable [DecidableEq α]

def fields (t : List α) : List (List α) := if t = [] then [] else t.splitOn sep

/-- What is before the first double separator, and what is behind it. -/
def cut : List α → Option (List α × List α)
  | a :: b :: t => if a = sep ∧ b = sep then some ([], t) else (cut (b :: t)).map fun x => (a :: x.1, x.2)
  | _ => none

/-- The number of places where a double separator starts. -/
def doubles : List α → Nat
  | a :: b :: t => (if a = sep ∧ b = sep then 1 else 0) + doubles (b :: t)
  | _ => 0

variable {sep} {fs : List (List α)}

theorem fields_joined (h : Plain sep fs) : fields sep (joined sep fs) = fs := by
  cases fs with
  | nil => rfl
  | cons f fs =>
    have hne : joined sep (f :: fs) ≠ [] := by
      rw [joined_cons]
      exact fun h' => (h f List.mem_cons_self).1 (List.append_eq_nil_iff.mp h').1
    rw [fields, if_neg hne]
    exact List.splitOn_intercalate sep (fun g hg => (h g hg).2) (List.cons_ne_nil _ _)

/-! ## Cutting -/

theorem cut_cons {a : α} (h : a ≠ sep) (t : List α) : cut sep (a :: t) = (cut sep t).map fun x => (a :: x.1, x.2) := by
  cases t with
  | nil => rfl
  | cons b t => rw [cut, if_neg fun hab => h hab.1]

theorem cut_append : ∀ f : List α, sep ∉ f → ∀ t, cut sep (f ++ t) = (cut sep t).map fun x => (f ++ x.1, x.2)
  | [], _, t => by simp
  | a :: f, h, t => by
    have ha : a ≠ sep := fun h' => h (h' ▸ List.mem_cons_self)
    rw [List.cons_append, cut_cons ha, cut_append f (fun hf => h (List.mem_cons_of_mem _ hf)) t, Option.map_map]
    rfl

theorem cut_behind (t : List α) : ∀ fs : List (List α), Plain sep fs →
    cut sep (behind sep fs ++ t) = (cut sep t).map fun x => (behind sep fs ++ x.1, x.2)
  | [], _ => by simp [behind]
  | f :: fs, h => by
    obtain ⟨hne, hsep⟩ := h f List.mem_cons_self
    obtain ⟨a, f, rfl⟩ := List.exists_cons_of_ne_nil hne
    have ha : a ≠ sep := fun h' => hsep (h' ▸ List.mem_cons_self)
    have htext : behind sep ((a :: f) :: fs) ++ t = sep :: a :: (f ++ (behind sep fs ++ t)) := by simp [behind]
    have hfield := cut_append (a :: f) hsep (behind sep fs ++ t)
    rw [List.cons_append] at hfield
    -- the separator is followed by a field, not by another separator
    rw [htext, cut, if_neg fun hab => ha hab.2, hfield, cut_behind t fs h.tail, Option.map_map, Option.map_map]
    congr 1
    funext x
    simp [behind]

theorem cut_joined (h : Plain sep fs) (t : List α) :
    cut sep (joined sep fs ++ t) = (cut sep t).map fun x => (joined sep fs ++ x.1, x.2) := by
  cases fs with
  | nil => simp [joined]
  | cons f fs =>
    rw [joined_cons, List.append_assoc, cut_append f (h f List.mem_cons_self).2, cut_behind t fs h.tail, Option.map_map]
    congr 1
    funext x
    simp

theorem cut_double (t : List α) : cut sep (sep :: sep :: t) = some ([], t) := by rw [cut, if_pos ⟨rfl, rfl⟩]

theorem cut_joined_nil (h : Plain sep fs) : cut sep (joined sep fs) = none := by
  have hcut := cut_joined h []
  rwa [List.append_nil] at hcut

theorem cut_sep_joined (h : Plain sep fs) : cut sep (sep :: joined sep fs) = none := by
  cases fs with
  | nil => rfl
  | cons f fs =>
    have htext : sep :: joined sep (f :: fs) = behind sep (f :: fs) := by
      rw [joined_cons]
      rfl
    have hcut := cut_behind [] (f :: fs) h
    rwa [List.append_nil, ← htext] at hcut

/-! ## Double separators -/

theorem doubles_eq_zero : ∀ {t : List α}, cut sep t = none → doubles sep t = 0 := by
  intro t
  fun_induction cut sep t with
  | case1 => exact nofun
  | case2 a b t hab ih =>
    intro h
    rw [doubles, if_neg hab, ih (Option.map_eq_none_iff.mp h)]
  | case3 t ht =>
    intro _
    rw [doubles]
    exact ht

theorem doubles_eq {l r : List α} : ∀ {t : List α}, cut sep t = some (l, r) →
    doubles sep t = doubles sep (sep :: r) + 1 := by
  intro t
  fun_induction cut sep t generalizing l with
  | case1 t a b hab =>
    intro h
    cases h
    rw [doubles, if_pos hab, hab.2, Nat.add_comm]
  | case2 a b t hab ih =>
    intro h
    obtain ⟨x, hx, h⟩ := Option.map_eq_some_iff.mp h
    cases h
    rw [doubles, if_neg hab, ih hx, Nat.zero_add]
  | case3 => exact nofun

end

end LjrServer.Lib
