/-
  LjrServer.Lib.OrderedSet — an ordered set kept as the sequence its iterators walk, with a
  comparator that is passed to every operation.

  Positions stand for iterators, and the length for `end()`. The operations look at the
  elements through the comparator only, so they say nothing useful about a sequence that is
  not sorted by it.

  Proved:
  - `find_mem`, `erase_mem`: a member is found, and erasing what was found takes out exactly
    that member.
  - `insert_new`: a new element goes in, in order; it is at the front exactly when it is
    less than every other element.
-/

namespace LjrServer.Lib.OrderedSet

variable {α : Type} {lt : α → α → Bool}

structure StrictTotal (lt : α → α → Bool) : Prop where
  irrefl : ∀ a, lt a a = false
  trans : ∀ a b c, lt a b = true → lt b c = true → lt a c = true
  connected : ∀ a b, lt a b = false → lt b a = false → a = b

theorem StrictTotal.asymm (h : StrictTotal lt) {a b : α} (hab : lt a b = true) : lt b a = false := by
  cases hba : lt b a with
  | false => rfl
  | true =>
    have haa := h.trans a b a hab hba
    rw [h.irrefl a] at haa
    cases haa

/-- Strictly increasing, hence without duplicates. -/
def Sorted (lt : α → α → Bool) (xs : List α) : Prop := xs.Pairwise fun a b => lt a b = true

/-- The first position whose element is not less than `x`. -/
def lowerBound (lt : α → α → Bool) (xs : List α) (x : α) : Nat := (xs.takeWhile (lt · x)).length

/-- The position of `x`'s equivalent, `none` for `end()`. -/
def find (lt : α → α → Bool) (xs : List α) (x : α) : Option Nat :=
  match xs[lowerBound lt xs x]? with
  | some y => if lt x y then none else some (lowerBound lt xs x)
  | none => none

/-- The position `x` is found at afterwards, and the set. -/
def insert (lt : α → α → Bool) (xs : List α) (x : α) : Nat × List α :=
  match find lt xs x with
  | some i => (i, xs)
  | none => (lowerBound lt xs x, xs.take (lowerBound lt xs x) ++ x :: xs.drop (lowerBound lt xs x))

/-- Erasing at an iterator; `end()` cannot be erased. -/
def erase (xs : List α) (it : Option Nat) : Option (List α) := do
  let i ← it
  if i < xs.length then some (xs.eraseIdx i) else none

theorem mem_take_or_drop (n : Nat) {xs : List α} {a : α} : a ∈ xs ↔ a ∈ xs.take n ∨ a ∈ xs.drop n := by
  rw [← List.mem_append, List.take_append_drop]

theorem Sorted.nodup (h : StrictTotal lt) {xs : List α} (hs : Sorted lt xs) : xs.Nodup := by
  refine List.Pairwise.imp ?_ hs
  intro a b hab e
  rw [e, h.irrefl] at hab
  cases hab

theorem Sorted.sublist {xs ys : List α} (hs : Sorted lt xs) (h : ys.Sublist xs) : Sorted lt ys := List.Pairwise.sublist h hs

/-! ## Looking up -/

theorem lowerBound_eq (h : StrictTotal lt) {pre post : List α} {x : α} (hs : Sorted lt (pre ++ x :: post)) :
    lowerBound lt (pre ++ x :: post) x = pre.length := by
  obtain ⟨_, _, hcross⟩ := List.pairwise_append.mp hs
  unfold lowerBound
  rw [List.takeWhile_append_of_pos fun a ha => hcross a ha x List.mem_cons_self,
    List.takeWhile_cons_of_neg (by rw [h.irrefl]; decide), List.append_nil]

/-- A member is found, at the position that splits the sequence around it. -/
theorem find_mem (h : StrictTotal lt) {xs : List α} {x : α} (hs : Sorted lt xs) (hx : x ∈ xs) :
    ∃ pre post, xs = pre ++ x :: post ∧ find lt xs x = some pre.length := by
  obtain ⟨pre, post, rfl⟩ := List.append_of_mem hx
  refine ⟨pre, post, rfl, ?_⟩
  have hget : (pre ++ x :: post)[pre.length]? = some x := by simp
  unfold find
  rw [lowerBound_eq h hs, hget]
  simp only [h.irrefl, Bool.false_eq_true, if_false]

theorem not_lt_lowerBound {xs : List α} {x y : α} (hy : xs[lowerBound lt xs x]? = some y) : lt y x = false := by
  unfold lowerBound at hy
  induction xs with
  | nil => cases hy
  | cons a xs ih =>
    cases hax : lt a x with
    | true =>
      rw [List.takeWhile_cons_of_pos (by exact hax), List.length_cons, List.getElem?_cons_succ] at hy
      exact ih hy
    | false =>
      rw [List.takeWhile_cons_of_neg (by rw [hax]; decide)] at hy
      cases hy
      exact hax

theorem find_not_mem (h : StrictTotal lt) {xs : List α} {x : α} (hx : x ∉ xs) : find lt xs x = none := by
  unfold find
  split
  · rename_i y hy
    have hxy : lt x y = true := by
      cases hxy : lt x y with
      | true => rfl
      | false => exact absurd (h.connected x y hxy (not_lt_lowerBound hy) ▸ List.mem_of_getElem? hy) hx
    rw [if_pos hxy]
  · rfl

/-- Erasing what `find` found. -/
theorem erase_mem (h : StrictTotal lt) {xs : List α} {x : α} (hs : Sorted lt xs) (hx : x ∈ xs) :
    ∃ ys, erase xs (find lt xs x) = some ys ∧ Sorted lt ys ∧ ∀ y, y ∈ ys ↔ y ∈ xs ∧ y ≠ x := by
  obtain ⟨pre, post, rfl, hfind⟩ := find_mem h hs hx
  have hlt : pre.length < (pre ++ x :: post).length := by simp
  have herase : (pre ++ x :: post).eraseIdx pre.length = pre ++ post := by
    rw [List.eraseIdx_append_of_length_le (Nat.le_refl _), Nat.sub_self, List.eraseIdx_cons_zero]
  refine ⟨pre ++ post, ?_, ?_, ?_⟩
  · rw [hfind, erase, Option.bind_eq_bind, Option.bind_some, if_pos hlt, herase]
  · exact hs.sublist (List.Sublist.append_left (List.sublist_cons_self x post) pre)
  · intro y
    obtain ⟨hxpost, hxpre⟩ : x ∉ post ∧ x ∉ pre := by
      have hn := Sorted.nodup h hs
      rw [List.nodup_append] at hn
      exact ⟨(List.nodup_cons.mp hn.2.1).1, fun hm => hn.2.2 x hm x List.mem_cons_self rfl⟩
    simp only [List.mem_append, List.mem_cons]
    constructor
    · rintro (hy | hy)
      · exact ⟨.inl hy, fun e => hxpre (e ▸ hy)⟩
      · exact ⟨.inr (.inr hy), fun e => hxpost (e ▸ hy)⟩
    · rintro ⟨hy | rfl | hy, hne⟩
      · exact .inl hy
      · exact absurd rfl hne
      · exact .inr hy

/-! ## Splitting and inserting -/

/-- Before the lower bound everything is less than `x`, from it on nothing is. -/
theorem lowerBound_split (h : StrictTotal lt) {xs : List α} {x : α} (hs : Sorted lt xs) :
    (∀ y ∈ xs.take (lowerBound lt xs x), lt y x = true) ∧ ∀ y ∈ xs.drop (lowerBound lt xs x), lt y x = false := by
  unfold lowerBound
  induction xs with
  | nil => simp
  | cons a xs ih =>
    obtain ⟨hfirst, hs'⟩ := List.pairwise_cons.mp hs
    cases hax : lt a x with
    | true =>
      rw [List.takeWhile_cons_of_pos (by exact hax), List.length_cons, List.take_succ_cons, List.drop_succ_cons]
      exact ⟨List.forall_mem_cons.mpr ⟨hax, (ih hs').1⟩, (ih hs').2⟩
    | false =>
      rw [List.takeWhile_cons_of_neg (by rw [hax]; decide), List.length_nil, List.take_zero, List.drop_zero]
      refine ⟨by simp, List.forall_mem_cons.mpr ⟨hax, ?_⟩⟩
      intro y hy
      cases hyx : lt y x with
      | false => rfl
      | true =>
        rw [h.trans a y x (hfirst y hy) hyx] at hax
        cases hax

/-- Where an iterator is after it moved on from `i` past the elements with `p`. -/
theorem skip_split (xs : List α) (i : Nat) (p : α → Bool) :
    xs.take (i + ((xs.drop i).takeWhile p).length) = xs.take i ++ (xs.drop i).takeWhile p ∧
      xs.drop (i + ((xs.drop i).takeWhile p).length) = (xs.drop i).dropWhile p := by
  rw [List.take_add, ← List.drop_drop]
  generalize xs.drop i = ys
  have hsplit : ys.takeWhile p ++ ys.dropWhile p = ys := List.takeWhile_append_dropWhile
  have htake : (ys.takeWhile p ++ ys.dropWhile p).take (ys.takeWhile p).length = ys.takeWhile p := List.take_left' rfl
  have hdrop : (ys.takeWhile p ++ ys.dropWhile p).drop (ys.takeWhile p).length = ys.dropWhile p := List.drop_left' rfl
  rw [hsplit] at htake hdrop
  exact ⟨by rw [htake], hdrop⟩

theorem insert_new (h : StrictTotal lt) {xs : List α} {x : α} (hs : Sorted lt xs) (hx : x ∉ xs) :
    Sorted lt (insert lt xs x).2 ∧ (∀ y, y ∈ (insert lt xs x).2 ↔ y = x ∨ y ∈ xs) ∧
      ((insert lt xs x).1 = 0 ↔ ∀ y ∈ xs, lt x y = true) := by
  obtain ⟨hbefore, hafter⟩ := lowerBound_split (x := x) h hs
  have hafter' : ∀ y ∈ xs.drop (lowerBound lt xs x), lt x y = true := by
    intro y hy
    cases hxy : lt x y with
    | true => rfl
    | false => exact absurd ((h.connected x y hxy (hafter y hy)) ▸ List.mem_of_mem_drop hy) hx
  simp only [insert, find_not_mem h hx]
  refine ⟨?_, ?_, ?_⟩
  · refine List.pairwise_append.mpr ⟨hs.sublist (List.take_sublist _ _), ?_, ?_⟩
    · exact List.pairwise_cons.mpr ⟨hafter', hs.sublist (List.drop_sublist _ _)⟩
    · intro a ha b hb
      rcases List.mem_cons.mp hb with rfl | hb
      · exact hbefore a ha
      · exact h.trans a x b (hbefore a ha) (hafter' b hb)
  · intro y
    have hmem : y ∈ xs ↔ _ := mem_take_or_drop (lowerBound lt xs x)
    rw [List.mem_append, List.mem_cons, hmem]
    exact or_left_comm
  · constructor
    · intro hzero y hy
      rw [hzero, List.drop_zero] at hafter'
      exact hafter' y hy
    · intro hall
      cases xs with
      | nil => rfl
      | cons a xs =>
        have hxa := hall a List.mem_cons_self
        unfold lowerBound
        rw [List.takeWhile_cons_of_neg (by rw [h.asymm hxa]; decide), List.length_nil]

end LjrServer.Lib.OrderedSet
