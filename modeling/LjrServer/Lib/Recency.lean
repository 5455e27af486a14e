/-
  LjrServer.Lib.Recency — tables that are written by key, and what a history of such changes
  leaves in them.

  A change puts a value under a key or drops the key. A dictionary forgets in which order
  its keys were put. A sequence keeps them in that order: a put takes the key out, where it
  is found first, and adds it at the end.

  Proved:
  - `lookup_foldl`: under a key a dictionary has the value of the last change of that key.
  - `foldl_move`: a sequence holds the puts that no later change of their key undid, in
    order, and each key once.
-/

import Mathlib.Data.List.Induction
import LjrServer.Lib.Roster

namespace LjrServer.Lib

variable {κ α : Type}

inductive Change (κ α : Type) where
  | put (k : κ) (a : α)
  | drop (k : κ)
  deriving DecidableEq, Repr

namespace Change

def key : Change κ α → κ
  | put k _ => k
  | drop k => k

def value : Change κ α → Option α
  | put _ a => some a
  | drop _ => none

variable [DecidableEq κ]

/-- The value of the last put of a key, if the key was not dropped behind it. -/
def latest (k : κ) (history : List (Change κ α)) : Option α :=
  (history.filter fun c => c.key = k).getLast?.bind value

/-- The puts whose key is not changed again. -/
def standing : List (Change κ α) → List (κ × α)
  | [] => []
  | drop _ :: later => standing later
  | put k a :: later => if later.any fun c => c.key = k then standing later else (k, a) :: standing later

theorem latest_append (k : κ) (history : List (Change κ α)) (c : Change κ α) :
    latest k (history ++ [c]) = if c.key = k then c.value else latest k history := by
  unfold latest
  rw [List.filter_append]
  by_cases h : c.key = k
  · rw [List.filter_cons_of_pos (by simpa using h), List.filter_nil, List.getLast?_concat, if_pos h]
    rfl
  · rw [List.filter_cons_of_neg (by simpa using h), List.filter_nil, List.append_nil, if_neg h]

/-! ## Dictionaries -/

def write (r : Roster κ α) : Change κ α → Roster κ α
  | put k a => r.put k a
  | drop k => r.remove k

theorem lookup_write (r : Roster κ α) (c : Change κ α) (k : κ) :
    (write r c).lookup k = if c.key = k then c.value else r.lookup k := by
  cases c with
  | put j a => exact Roster.lookup_put r j a k
  | drop j => exact Roster.lookup_remove r j k

theorem lookup_foldl (history : List (Change κ α)) (k : κ) : (history.foldl write []).lookup k = latest k history := by
  induction history using List.reverseRecOn with
  | nil => rfl
  | append_singleton history c ih =>
    rw [List.foldl_append, List.foldl_cons, List.foldl_nil, lookup_write, latest_append, ih]

/-! ## Sequences -/

/-- A search for the key stops at the first entry that has it. -/
def move (r : List (κ × α)) : Change κ α → List (κ × α)
  | put k a => r.eraseP (fun p => p.1 = k) ++ [(k, a)]
  | drop k => r.eraseP fun p => p.1 = k

theorem standing_keys {k : κ} : ∀ history : List (Change κ α), k ∈ (standing history).map Prod.fst →
    ∃ c ∈ history, c.key = k
  | [], h => by cases h
  | drop _ :: later, h => by
    obtain ⟨c, hc, hk⟩ := standing_keys later h
    exact ⟨c, List.mem_cons_of_mem _ hc, hk⟩
  | put j a :: later, h => by
    rw [standing] at h
    split at h
    · obtain ⟨c, hc, hk⟩ := standing_keys later h
      exact ⟨c, List.mem_cons_of_mem _ hc, hk⟩
    · rcases List.mem_cons.mp h with rfl | h
      · exact ⟨put k a, List.mem_cons_self, rfl⟩
      · obtain ⟨c, hc, hk⟩ := standing_keys later h
        exact ⟨c, List.mem_cons_of_mem _ hc, hk⟩

theorem standing_keyed : ∀ history : List (Change κ α), Roster.Keyed (standing history)
  | [] => List.nodup_nil
  | drop _ :: later => standing_keyed later
  | put k a :: later => by
    rw [standing]
    split
    · exact standing_keyed later
    · rename_i hlater
      refine List.nodup_cons.mpr ⟨fun hk => hlater ?_, standing_keyed later⟩
      obtain ⟨c, hc, hck⟩ := standing_keys later hk
      exact List.any_eq_true.mpr ⟨c, hc, by simpa using hck⟩

/-- A change behind a history takes its key out, and adds it again if it is a put. -/
theorem standing_append (c : Change κ α) : ∀ history : List (Change κ α),
    standing (history ++ [c]) = Roster.remove (standing history) c.key ++ standing [c]
  | [] => rfl
  | drop _ :: later => standing_append c later
  | put k a :: later => by
    rw [List.cons_append, standing, standing, List.any_append, standing_append c later]
    by_cases hlater : (later.any fun c => c.key = k) = true
    · rw [if_pos hlater, if_pos (by rw [hlater]; rfl)]
    · rw [if_neg hlater, Bool.eq_false_iff.mpr hlater, Bool.false_or]
      by_cases hc : c.key = k
      · rw [if_pos (by simpa using hc), Roster.remove_cons, if_pos hc.symm]
      · rw [if_neg (by simpa using hc), Roster.remove_cons, if_neg (Ne.symm hc)]
        rfl

/-- Where each key is there once, the first entry found is all of them. -/
theorem eraseP_eq_remove {r : List (κ × α)} (h : Roster.Keyed r) (k : κ) :
    r.eraseP (fun p => p.1 = k) = Roster.remove r k := by
  induction r with
  | nil => rfl
  | cons p r ih =>
    obtain ⟨hp, hr⟩ := List.nodup_cons.mp h
    rw [Roster.remove_cons]
    by_cases hk : p.1 = k
    · rw [List.eraseP_cons_of_pos (by simpa using hk), if_pos hk, Roster.remove_of_not_mem (hk ▸ hp)]
    · rw [List.eraseP_cons_of_neg (by simpa using hk), if_neg hk, ih hr]

theorem foldl_move (history : List (Change κ α)) : history.foldl move [] = standing history := by
  induction history using List.reverseRecOn with
  | nil => rfl
  | append_singleton history c ih =>
    rw [List.foldl_append, List.foldl_cons, List.foldl_nil, ih, standing_append]
    cases c with
    | put k a => rw [move, eraseP_eq_remove (standing_keyed history)]; rfl
    | drop k => rw [move, eraseP_eq_remove (standing_keyed history)]; exact (List.append_nil _).symm

end Change

end LjrServer.Lib
