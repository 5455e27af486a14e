/-
  LjrServer.Lib.Flat — a flat sequence with a cursor: what a block store is for.

  `splice` overwrites or extends a list at an offset, `slice` reads from one. A `Flat`
  is the contents, a cursor inside them and the room the store has; `Flat.Step` is what
  each operation may do to it. Growing the contents by moving the cursor past their end
  exposes bytes nobody wrote, so that step leaves them open.

  Nothing here names a program: the element type is arbitrary.
-/

import Mathlib.Data.List.Basic

namespace LjrServer.Lib

variable {α : Type}

/-! ## Reading and overwriting at an offset -/

def slice (l : List α) (i n : Nat) : List α := (l.drop i).take n

def splice (l : List α) (i : Nat) (bs : List α) : List α := l.take i ++ bs ++ l.drop (i + bs.length)

@[simp] theorem slice_zero (l : List α) (i : Nat) : slice l i 0 = [] := by simp [slice]

theorem slice_length {l : List α} {i n : Nat} (h : i + n ≤ l.length) : (slice l i n).length = n := by
  simp only [slice, List.length_take, List.length_drop]; omega

theorem splice_length {l : List α} {i : Nat} {bs : List α} (h : i + bs.length ≤ l.length) :
    (splice l i bs).length = l.length := by
  simp only [splice, List.length_append, List.length_take, List.length_drop]; omega

/-- Reading back what was just written. -/
theorem slice_splice {l : List α} {i : Nat} {bs : List α} (h : i ≤ l.length) :
    slice (splice l i bs) i bs.length = bs := by
  have hi : (l.take i).length = i := by simp only [List.length_take]; omega
  simp only [slice, splice, List.append_assoc]
  rw [List.drop_append_of_le_length (by omega), List.drop_of_length_le (by omega)]
  simp

theorem slice_slice {l : List α} {i j n m : Nat} (h : j + m ≤ n) : slice (slice l i n) j m = slice l (i + j) m := by
  simp only [slice, List.drop_take, List.take_take, List.drop_drop]
  congr 1
  omega

theorem take_splice_start (l bs : List α) : (splice l 0 bs).take bs.length = bs := by
  simp [splice]

theorem length_le_splice (l : List α) (i : Nat) (bs : List α) : bs.length ≤ (splice l i bs).length := by
  simp only [splice, List.length_append]
  omega

theorem slice_append_left {l r : List α} {i n : Nat} (h : i + n ≤ l.length) : slice (l ++ r) i n = slice l i n := by
  simp only [slice]
  rw [List.drop_append_of_le_length (by omega), List.take_append_of_le_length (by simp only [List.length_drop]; omega)]

theorem slice_take {l : List α} {i n m : Nat} (h : i + n ≤ m) : slice (l.take m) i n = slice l i n := by
  simp only [slice, List.drop_take, List.take_take]
  congr 1; omega

/-- A slice that straddles a boundary is the two slices on either side of it. -/
theorem slice_append_split {l r : List α} {i n : Nat} (hi : i ≤ l.length) (hn : l.length ≤ i + n) :
    slice (l ++ r) i n = slice l i (l.length - i) ++ slice r 0 (n - (l.length - i)) := by
  simp only [slice, List.drop_zero]
  rw [List.drop_append_of_le_length hi, List.take_append, List.length_drop]
  congr 1
  rw [List.take_of_length_le (by simp only [List.length_drop]; omega),
    List.take_of_length_le (by simp only [List.length_drop]; omega)]

theorem splice_append_left {l r : List α} {i : Nat} {bs : List α} (h : i + bs.length ≤ l.length) :
    splice (l ++ r) i bs = splice l i bs ++ r := by
  simp only [splice, List.append_assoc]
  rw [List.take_append_of_le_length (by omega), List.drop_append_of_le_length (by omega)]

theorem splice_append_right {l r : List α} {i : Nat} {bs : List α} (h : l.length ≤ i) :
    splice (l ++ r) i bs = l ++ splice r (i - l.length) bs := by
  have hd : l.drop (i + bs.length) = [] := List.drop_of_length_le (by omega)
  simp only [splice, List.take_append, List.drop_append, List.take_of_length_le h, hd, List.nil_append, List.append_assoc]
  rw [show i + bs.length - l.length = i - l.length + bs.length by omega]

/-- A write that straddles a boundary fills the left part to its end and starts the right. -/
theorem splice_append_split {l r : List α} {i : Nat} {bs : List α} (hi : i ≤ l.length)
    (hn : l.length ≤ i + bs.length) :
    splice (l ++ r) i bs = splice l i (bs.take (l.length - i)) ++ splice r 0 (bs.drop (l.length - i)) := by
  have ht : (bs.take (l.length - i)).length = l.length - i := by simp only [List.length_take]; omega
  have h1 : l.drop (i + bs.length) = [] := List.drop_of_length_le hn
  have h2 : l.drop (i + (l.length - i)) = [] := List.drop_of_length_le (by omega)
  simp only [splice, List.take_append, List.drop_append, ht, h1, h2, show i - l.length = 0 by omega, List.take_zero,
    List.append_nil, List.nil_append, List.length_drop, List.append_assoc]
  rw [← List.append_assoc (bs.take _), List.take_append_drop,
    show i + bs.length - l.length = 0 + (bs.length - (l.length - i)) by omega]

/-- A write that begins where another ended. -/
theorem splice_splice {l : List α} {i : Nat} {bs cs : List α} (h : i ≤ l.length) :
    splice (splice l i bs) (i + bs.length) cs = splice l i (bs ++ cs) := by
  have htake : (l.take i).length = i := by rw [List.length_take]; omega
  have hfront : (l.take i ++ bs).length = i + bs.length := by rw [List.length_append, htake]
  simp only [splice, List.length_append]
  rw [List.take_append_of_le_length (Nat.le_of_eq hfront.symm), List.take_of_length_le (Nat.le_of_eq hfront),
    List.drop_append, List.drop_of_length_le (show (l.take i ++ bs).length ≤ _ by omega), List.drop_drop, hfront]
  simp only [List.nil_append, List.append_assoc]
  congr 4; omega

/-- What a write leaves of the first `n` elements, `n` past its end or the old end. -/
theorem take_splice {l : List α} {i n : Nat} {bs : List α} (hi : i ≤ n) (hn : n ≤ l.length) :
    (splice l i bs).take (max n (i + bs.length)) = splice (l.take n) i bs := by
  have hti : (l.take i).length = i := by simp only [List.length_take]; omega
  simp only [splice, List.append_assoc, List.take_append, hti, List.take_take, List.drop_take]
  have e1 : min (max n (i + bs.length)) i = i := by omega
  have e2 : min i n = i := by omega
  rw [e1, e2, List.take_of_length_le (l := bs) (by omega)]
  congr 3; omega

/-! ## A flat buffer with a cursor -/

structure Flat (α : Type) where
  bytes : List α
  pos : Nat
  room : Nat
  pos_le : pos ≤ bytes.length
  bytes_le : bytes.length ≤ room

inductive FlatOp (α : Type) where
  | write (buf : List α)
  | read (n : Nat)
  | seek (v : Nat)
  | clear
  deriving Repr

inductive FlatRes (α : Type) where
  | done
  | bytes (bs : List α)
  | outOfRange
  deriving DecidableEq, Repr

/-- What an operation may do. Only `write` may grow the room; `base` is the room of an
    empty buffer. -/
inductive Flat.Step (base : Nat) : Flat α → FlatOp α → FlatRes α → Flat α → Prop
  | write (f g : Flat α) (buf : List α) : g.bytes = splice f.bytes f.pos buf → g.pos = f.pos + buf.length →
      f.room ≤ g.room → Step base f (.write buf) .done g
  | read (f g : Flat α) (n : Nat) : n ≤ f.bytes.length - f.pos → g.bytes = f.bytes → g.pos = f.pos + n →
      g.room = f.room → Step base f (.read n) (.bytes (slice f.bytes f.pos n)) g
  | readPast (f : Flat α) (n : Nat) : f.bytes.length - f.pos < n → Step base f (.read n) .outOfRange f
  /-- Moving past the end exposes elements nobody wrote (`junk`). -/
  | seek (f g : Flat α) (v : Nat) (junk : List α) : v ≤ f.room → junk.length = v - f.bytes.length →
      g.bytes = f.bytes ++ junk → g.pos = v → g.room = f.room → Step base f (.seek v) .done g
  | seekPast (f : Flat α) (v : Nat) : f.room < v → Step base f (.seek v) .outOfRange f
  | clear (f g : Flat α) : g.bytes = [] → g.pos = 0 → g.room = base → Step base f .clear .done g

/-- A run of operations with the result of each. -/
inductive Flat.Run (base : Nat) : Flat α → List (FlatOp α) → List (FlatRes α) → Flat α → Prop
  | nil (f : Flat α) : Run base f [] [] f
  | cons {f g h : Flat α} {op : FlatOp α} {r : FlatRes α} {ops : List (FlatOp α)} {rs : List (FlatRes α)} :
      Step base f op r g → Run base g ops rs h → Run base f (op :: ops) (r :: rs) h

end LjrServer.Lib
