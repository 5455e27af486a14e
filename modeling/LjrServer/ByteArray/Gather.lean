/-
  LjrServer.ByteArray.Gather — reading without moving the cursor (bytearray.cpp: the const
  `read`, `toString` and the two `getReadBuffers`).

  The const `read` takes its offset from the position it is given and its block from the cursor.
  The two `getReadBuffers` walk the blocks in the same way and differ in where they begin: the
  cursor's block, or the block found by counting from the root. Both clamp the length with the
  data behind the cursor.

  Proved:
  - `readAt_iff`: a positional read is right exactly when its position is in the cursor's
    block, or what it reads instead happens to be the same, or it throws.
  - `getReadBuffers_readable`: the buffers are the data behind the cursor, and what `toString`
    returns.
  - `getReadBuffersAt_iff`: the buffers of a position are the data behind it exactly when the
    clamp makes no difference.
-/

import LjrServer.ByteArray.RoundTrip
import LjrServer.Lib.Extents

namespace LjrServer.ByteArray

open LjrServer.Lib

variable {s : ByteArray}

/-! ## The const read -/

/-- The bytes `read` copies from `position` on. It has its own `cur` and changes nothing. -/
def readAt (s : ByteArray) (size position : UInt64) : Option (Except OutOfRange (List UInt8)) :=
  if UInt64.ofNat s.size - position < size then some (.error ⟨"not enough len"⟩)
  else
    -- the block is `m_cur`, whatever the position
    s.cur.bind fun i =>
      (readLoop (s.chain.drop i) (position.toNat % s.baseSize) size.toNat).map fun r => .ok r.1

def toString (s : ByteArray) : Option (Except OutOfRange (List UInt8)) :=
  if s.getReadSize = 0 then some (.ok [])
  else s.readAt (.ofNat s.getReadSize) (.ofNat s.position)

/-- `read(buf, n, p)` throws outside the data and returns the bytes of the data otherwise. -/
structure ReadsAt (s : ByteArray) (n p : UInt64) : Prop where
  throws : (∃ e, s.readAt n p = some (.error e)) ↔ s.size < p.toNat ∨ s.size - p.toNat < n.toNat
  copies : p.toNat ≤ s.size → n.toNat ≤ s.size - p.toNat →
    s.readAt n p = some (.ok (slice s.content p.toNat n.toNat))

/-- Where the read begins: as far into the cursor's block as `p` is into its own. -/
def readStart (s : ByteArray) (p : Nat) : Nat := s.baseSize * (s.position / s.baseSize) + p % s.baseSize

/-- Past the data the difference wraps, and only a longer read throws. Inside it `m_cur` must
    not be null, and its block the block of `p` or one with the same bytes at the same place. -/
def ReadsBlock (s : ByteArray) (n p : Nat) : Prop :=
  if s.size < p then s.size + 2 ^ 64 - p < n
  else s.size - p < n ∨ (s.position < s.capacity ∧ (n = 0 ∨ p / s.baseSize = s.position / s.baseSize ∨
    (s.readStart p + n ≤ s.capacity ∧ slice (flatten s.chain) (s.readStart p) n = slice (flatten s.chain) p n)))

instance (s : ByteArray) (n p : Nat) : Decidable (ReadsBlock s n p) := by unfold ReadsBlock; infer_instance

theorem remaining_toNat (hz : s.size < 2 ^ 64) (p : UInt64) :
    (UInt64.ofNat s.size - p).toNat = if s.size < p.toNat then s.size + 2 ^ 64 - p.toNat else s.size - p.toNat := by
  have hp : p.toNat < 2 ^ 64 := p.toNat_lt
  rw [UInt64.toNat_sub, UInt64.toNat_ofNat', Nat.mod_eq_of_lt hz]
  split <;> omega

theorem readAt_throws_iff {n p : UInt64} :
    (∃ e, s.readAt n p = some (.error e)) ↔ UInt64.ofNat s.size - p < n := by
  unfold readAt
  constructor
  · intro ⟨e, he⟩
    by_contra hn
    rw [if_neg hn] at he
    obtain ⟨i, -, hi⟩ := Option.bind_eq_some_iff.mp he
    obtain ⟨r, -, hr⟩ := Option.map_eq_some_iff.mp hi
    cases hr
  · intro hn
    exact ⟨_, if_pos hn⟩

/-- Past the last block the loop follows a null `next`. -/
theorem readLoop_none {b : Nat} (ns : List Node) (npos size : Nat) (hfull : Full b ns) (hpos : npos ≤ b)
    (hsize : size ≠ 0) (hroom : b * ns.length < npos + size) : readLoop ns npos size = none := by
  induction ns generalizing npos size with
  | nil => rfl
  | cons n ns ih =>
    obtain ⟨hn, hns⟩ := full_cons.mp hfull
    rw [List.length_cons, Nat.mul_succ] at hroom
    have hfit : ¬ size ≤ b - npos := by omega
    have hrec := ih 0 (size - (b - npos)) hns (Nat.zero_le _) (by omega) (by omega)
    simp only [readLoop, hn, hsize, hfit, if_false, hrec, Option.map_none, Option.bind_fun_none]

variable {n p : UInt64}

theorem room_from_start (hs : Rep s) (hp : s.position < s.capacity) (n p : Nat) :
    p % s.baseSize + n ≤ s.baseSize * (s.chain.drop (s.position / s.baseSize)).length ↔ s.readStart p + n ≤ s.capacity := by
  obtain ⟨-, -, hdm, -⟩ := cur_split hs hp
  rw [List.length_drop, Nat.mul_sub, ← hs.capacity, readStart]
  omega

theorem readAt_null (hs : Rep s) (hn : ¬ UInt64.ofNat s.size - p < n) (hp : ¬ s.position < s.capacity) :
    s.readAt n p = none := by
  rw [readAt, if_neg hn, hs.cur, if_neg hp, Option.bind_none]

theorem readAt_nothing (hs : Rep s) (hn : ¬ UInt64.ofNat s.size - p < n) (hp : s.position < s.capacity)
    (h0 : n.toNat = 0) : s.readAt n p = some (.ok []) := by
  obtain ⟨hcur, hi, -, -⟩ := cur_split hs hp
  rw [readAt, if_neg hn, hcur, Option.bind_some, h0]
  cases hd : s.chain.drop (s.position / s.baseSize) with
  | nil => exact absurd hd (drop_ne_nil hi)
  | cons m ms => simp only [readLoop, if_true, Option.map_some]

theorem readAt_block (hs : Rep s) (hn : ¬ UInt64.ofNat s.size - p < n) (hp : s.position < s.capacity)
    (hroom : s.readStart p.toNat + n.toNat ≤ s.capacity) :
    s.readAt n p = some (.ok (slice (flatten s.chain) (s.readStart p.toNat) n.toNat)) := by
  obtain ⟨hcur, hi, -, -⟩ := cur_split hs hp
  have hloop := readLoop_spec s.baseSize_pos (s.chain.drop (s.position / s.baseSize)) (p.toNat % s.baseSize) n.toNat
    (full_drop hs.blocks) (Nat.mod_lt _ s.baseSize_pos) ((room_from_start hs hp _ _).mpr hroom) (drop_ne_nil hi)
  rw [readAt, if_neg hn, hcur, Option.bind_some, hloop, Option.map_some, flatten_drop hs.blocks]
  simp only [slice, List.drop_drop, readStart]

theorem readAt_past (hs : Rep s) (hn : ¬ UInt64.ofNat s.size - p < n) (hp : s.position < s.capacity)
    (h0 : n.toNat ≠ 0) (hroom : ¬ s.readStart p.toNat + n.toNat ≤ s.capacity) : s.readAt n p = none := by
  obtain ⟨hcur, -, -, -⟩ := cur_split hs hp
  have hloop := readLoop_none (s.chain.drop (s.position / s.baseSize)) (p.toNat % s.baseSize) n.toNat
    (full_drop hs.blocks) (Nat.le_of_lt (Nat.mod_lt _ s.baseSize_pos)) h0
    (Nat.lt_of_not_le fun h => hroom ((room_from_start hs hp _ _).mp h))
  rw [readAt, if_neg hn, hcur, Option.bind_some, hloop, Option.map_none]

/-- In the block of the cursor the read begins where it is asked to. -/
theorem readStart_same {p : Nat} (h : p / s.baseSize = s.position / s.baseSize) : s.readStart p = p := by
  rw [readStart, ← h, Nat.div_add_mod]

theorem slice_content {p n : Nat} (h : p + n ≤ s.size) : slice s.content p n = slice (flatten s.chain) p n := slice_take h

/-- Inside the data the read copies the data exactly when it begins in a block with that data. -/
theorem readAt_copies_iff (hs : Rep s) (hn : ¬ UInt64.ofNat s.size - p < n) (hp : p.toNat ≤ s.size)
    (hlen : n.toNat ≤ s.size - p.toNat) :
    s.readAt n p = some (.ok (slice s.content p.toNat n.toNat)) ↔ s.position < s.capacity ∧
      (n.toNat = 0 ∨ p.toNat / s.baseSize = s.position / s.baseSize ∨ (s.readStart p.toNat + n.toNat ≤ s.capacity ∧
        slice (flatten s.chain) (s.readStart p.toNat) n.toNat = slice (flatten s.chain) p.toNat n.toNat)) := by
  have hz := hs.size_le
  rw [slice_content (by omega)]
  by_cases hcap : s.position < s.capacity
  · rw [and_iff_right hcap]
    by_cases h0 : n.toNat = 0
    · rw [readAt_nothing hs hn hcap h0, h0, slice_zero]
      simp
    by_cases hroom : s.readStart p.toNat + n.toNat ≤ s.capacity
    · rw [readAt_block hs hn hcap hroom]
      simp only [Option.some.injEq, Except.ok.injEq]
      constructor
      · exact fun h => .inr (.inr ⟨hroom, h⟩)
      · intro h
        rcases h with h | h | ⟨-, h⟩
        · exact absurd h h0
        · rw [readStart_same h]
        · exact h
    · rw [readAt_past hs hn hcap h0 hroom]
      refine iff_of_false (by simp) fun h => ?_
      rcases h with h | h | ⟨h, -⟩
      · exact h0 h
      · rw [readStart_same h] at hroom
        omega
      · exact hroom h
  · rw [readAt_null hs hn hcap]
    exact iff_of_false (by simp) fun h => hcap h.1

/-- `m_size` is a `size_t`. -/
theorem readAt_iff (hs : Rep s) (hz : s.size < 2 ^ 64) (n p : UInt64) : ReadsAt s n p ↔ ReadsBlock s n.toNat p.toNat := by
  have hrest := remaining_toNat hz p
  unfold ReadsBlock
  by_cases hp : s.size < p.toNat
  · -- the difference wraps
    rw [if_pos hp] at hrest ⊢
    rw [← hrest, ← UInt64.lt_iff_toNat_lt, ← readAt_throws_iff]
    exact ⟨fun h => h.throws.mpr (.inl hp), fun h => ⟨iff_of_true h (.inl hp), fun hle => absurd hle (by omega)⟩⟩
  · rw [if_neg hp] at hrest ⊢
    have hlt : UInt64.ofNat s.size - p < n ↔ s.size - p.toNat < n.toNat := by rw [UInt64.lt_iff_toNat_lt, hrest]
    have hthrows : (∃ e, s.readAt n p = some (.error e)) ↔ s.size < p.toNat ∨ s.size - p.toNat < n.toNat := by
      rw [readAt_throws_iff, hlt, or_iff_right hp]
    by_cases hn : s.size - p.toNat < n.toNat
    · exact iff_of_true ⟨hthrows, fun _ hle => absurd hn (by omega)⟩ (.inl hn)
    · have hcopies := readAt_copies_iff hs (mt hlt.mp hn) (by omega) (by omega)
      rw [or_iff_right hn, ← hcopies]
      exact ⟨fun h => h.copies (by omega) (by omega), fun h => ⟨hthrows, fun _ _ => h⟩⟩

/-- Blocks of 4 and the cursor behind the first byte: two bytes from offset 3 are read right,
    though they lie in two blocks. -/
theorem readAt_iff_one_block : ∃ s, Reach 4 s ∧ ReadsAt s 2 3 :=
  have hreach : Reach 4 _ := .step (.seek 1) .done (.step (.write [1, 2, 3, 4, 5, 6, 7, 8]) .done
    (.init (by decide) fun _ => 0) rfl) rfl
  ⟨_, hreach, (readAt_iff (reach_rep hreach).1 (by decide) 2 3).mpr (by decide)⟩

/-- The cursor after the fifth byte and a read of the first: what comes back is the fifth. -/
theorem read_other_block : ∃ s, Reach 4 s ∧ ¬ ReadsAt s 1 0 := by
  have hreach : Reach 4 _ := .step (.seek 5) .done (.step (.write [1, 2, 3, 4, 5, 6, 7, 8]) .done
    (.init (by decide) fun _ => 0) rfl) rfl
  refine ⟨_, hreach, fun h => ?_⟩
  have hread := h.copies (by decide) (by decide)
  revert hread
  decide

theorem toString_spec (hs : Rep s) (hz : s.size < 2 ^ 64) : s.toString = some (.ok s.unread) := by
  have hlen := unread_length hs
  have hp := hs.position_le
  have hc := hs.size_le
  unfold toString getReadSize
  by_cases h0 : s.size - s.position = 0
  · rw [if_pos h0, List.length_eq_zero_iff.mp (hlen.trans h0)]
  · rw [if_neg h0]
    have hn : (UInt64.ofNat (s.size - s.position)).toNat = s.size - s.position := by
      rw [UInt64.toNat_ofNat', Nat.mod_eq_of_lt (by omega)]
    have hpos : (UInt64.ofNat s.position).toNat = s.position := by
      rw [UInt64.toNat_ofNat', Nat.mod_eq_of_lt (by omega)]
    have hlt : ¬ UInt64.ofNat s.size - UInt64.ofNat s.position < UInt64.ofNat (s.size - s.position) := by
      rw [UInt64.lt_iff_toNat_lt, remaining_toNat hz, hpos, hn, if_neg (by omega)]
      omega
    have hread := (readAt_copies_iff hs hlt (by omega) (by omega)).mpr ⟨by omega, .inr (.inl (by rw [hpos]))⟩
    rw [hread, hpos, hn, slice, unread, List.take_of_length_le (by rw [List.length_drop, content_length hs])]

/-! ## Gather buffers -/

/-- The loop of both `getReadBuffers` over the blocks from `cur` on, `cur` being block `k`. An
    iovec is a piece of a block. -/
def gatherLoop : List Node → Nat → Nat → Nat → Option (List Extent)
  | [], _, _, _ => none
  | n :: ns, k, npos, len =>
    let ncap := n.size - npos
    if len = 0 then some []
    else if len ≤ ncap then some [⟨k, npos, len⟩]
    else (gatherLoop ns (k + 1) 0 (len - ncap)).map (⟨k, npos, ncap⟩ :: ·)

/-- The length with which both go on. -/
def readable (s : ByteArray) (len : Nat) : Nat := if s.getReadSize < len then s.getReadSize else len

/-- What is returned, and the buffers. -/
def getReadBuffers (s : ByteArray) (buffers : List Extent) (len : Nat) : Option (Nat × List Extent) :=
  let len := s.readable len
  if len = 0 then some (0, buffers)
  else s.cur.bind fun i =>
    (gatherLoop (s.chain.drop i) i (s.position % s.baseSize) len).map fun iovs => (len, buffers ++ iovs)

/-- `count` steps along `next`. -/
def walk : List Node → Nat → Option (List Node)
  | ns, 0 => some ns
  | [], _ + 1 => none
  | _ :: ns, count + 1 => walk ns count

def getReadBuffersAt (s : ByteArray) (buffers : List Extent) (len position : Nat) : Option (Nat × List Extent) :=
  let len := s.readable len
  if len = 0 then some (0, buffers)
  else
    let count := position / s.baseSize
    (walk s.chain count).bind fun ns =>
      (gatherLoop ns count (position % s.baseSize) len).map fun iovs => (len, buffers ++ iovs)

/-- The memory the iovecs point into. -/
def memory (s : ByteArray) : List (List UInt8) := s.chain.map (·.ptr)

/-- The iovecs are the data from `p` on, `n` bytes of it. -/
structure Readable (s : ByteArray) (iovs : List Extent) (p n : Nat) : Prop where
  covers : Covers s.baseSize iovs p n
  nonempty : ∀ v ∈ iovs, 0 < v.length
  lengths : (iovs.map Extent.length).sum = n
  contents : gathered s.memory iovs = slice s.content p n

theorem memory_blocks (hs : Rep s) : Blocks s.baseSize s.memory := by
  intro x hx
  obtain ⟨n, hn, rfl⟩ := List.mem_map.mp hx
  exact hs.blocks n hn

theorem memory_flatten (s : ByteArray) : s.memory.flatten = flatten s.chain := rfl

theorem memory_length (s : ByteArray) : s.memory.length = s.chain.length := List.length_map _

/-- Pieces that cover a range of the data are that range of the data. -/
theorem readable_of_covers (hs : Rep s) {iovs : List Extent} {p n : Nat} (h : Covers s.baseSize iovs p n)
    (hle : p + n ≤ s.size) : Readable s iovs p n := by
  have hz := hs.size_le
  obtain ⟨hall, hsum⟩ := covers_lengths h
  refine ⟨h, hall, hsum, ?_⟩
  rw [covers_gathered (memory_blocks hs) h (by rw [memory_length, ← hs.capacity]; omega), memory_flatten, slice_content hle]

/-- The loop covers what it is asked for, as long as the blocks last. -/
theorem gatherLoop_covers {b : Nat} (ns : List Node) (k npos len : Nat) (hfull : Full b ns) (hpos : npos < b)
    (hlen : len ≠ 0) (hroom : npos + len ≤ b * ns.length) :
    ∃ iovs, gatherLoop ns k npos len = some iovs ∧ Covers b iovs (b * k + npos) len := by
  induction ns generalizing k npos len with
  | nil => rw [List.length_nil] at hroom; omega
  | cons n ns ih =>
    obtain ⟨hn, hns⟩ := full_cons.mp hfull
    rw [List.length_cons, Nat.mul_succ] at hroom
    by_cases hfit : len ≤ b - npos
    · refine ⟨[⟨k, npos, len⟩], by simp only [gatherLoop, hn, hlen, hfit, if_false, if_true], ?_⟩
      exact ⟨Nat.pos_of_ne_zero hlen, by simp only; omega, rfl, Nat.le_refl _, Nat.sub_self _⟩
    · obtain ⟨iovs, hloop, hcovers⟩ := ih (k + 1) 0 (len - (b - npos)) hns (by omega) (by omega) (by omega)
      refine ⟨⟨k, npos, b - npos⟩ :: iovs, by simp only [gatherLoop, hn, hlen, hfit, if_false, hloop, Option.map_some], ?_⟩
      have hnext : b * (k + 1) + 0 = b * k + npos + (b - npos) := by
        rw [Nat.mul_succ]
        omega
      rw [hnext] at hcovers
      exact ⟨by simp only; omega, by simp only; omega, rfl, by simp only; omega, hcovers⟩

theorem readable_eq (s : ByteArray) (len : Nat) : s.readable len = min len (s.size - s.position) := by
  unfold readable getReadSize
  split <;> omega

/-- In every state and for every length the buffers are the data behind the cursor; all of it
    is what `toString` returns. -/
theorem getReadBuffers_readable (hs : Rep s) (buffers : List Extent) (len : Nat) :
    ∃ iovs, s.getReadBuffers buffers len = some (min len (s.size - s.position), buffers ++ iovs) ∧
      Readable s iovs s.position (min len (s.size - s.position)) ∧
      (s.size < 2 ^ 64 → len = 2 ^ 64 - 1 → s.toString = some (.ok (gathered s.memory iovs))) := by
  have hp := hs.position_le
  have hz := hs.size_le
  have hcover : ∃ iovs, s.getReadBuffers buffers len = some (min len (s.size - s.position), buffers ++ iovs) ∧
      Covers s.baseSize iovs s.position (min len (s.size - s.position)) := by
    unfold getReadBuffers
    rw [readable_eq]
    generalize hk : min len (s.size - s.position) = k
    by_cases h0 : k = 0
    · exact ⟨[], by simp [h0], h0⟩
    · have hcap : s.position < s.capacity := by omega
      obtain ⟨hcur, hi, hdm, hmod⟩ := cur_split hs hcap
      obtain ⟨iovs, hloop, hcovers⟩ := gatherLoop_covers (s.chain.drop (s.position / s.baseSize))
        (s.position / s.baseSize) (s.position % s.baseSize) k (full_drop hs.blocks) hmod h0
        ((room_from_block hs hcap _).mpr (by omega))
      rw [hdm] at hcovers
      exact ⟨iovs, by simp only [h0, if_false, hcur, Option.bind_some, hloop, Option.map_some], hcovers⟩
  obtain ⟨iovs, hget, hcovers⟩ := hcover
  have hread := readable_of_covers hs hcovers (by omega)
  refine ⟨iovs, hget, hread, fun hlt hlen => ?_⟩
  rw [toString_spec hs hlt, hread.contents, unread, slice,
    List.take_of_length_le (by rw [List.length_drop, content_length hs]; omega)]

theorem getReadBuffers_readable_two_blocks : ∃ s, Reach 4 s ∧
    ∃ iovs, s.getReadBuffers [] (2 ^ 64 - 1) = some (min (2 ^ 64 - 1) (s.size - s.position), [] ++ iovs) ∧
      Readable s iovs s.position (min (2 ^ 64 - 1) (s.size - s.position)) ∧
      (s.size < 2 ^ 64 → 2 ^ 64 - 1 = 2 ^ 64 - 1 → s.toString = some (.ok (gathered s.memory iovs))) :=
  have hreach : Reach 4 _ := .step (.seek 1) .done (.step (.write [1, 2, 3, 4, 5, 6, 7, 8]) .done
    (.init (by decide) fun _ => 0) rfl) rfl
  ⟨_, hreach, getReadBuffers_readable (reach_rep hreach).1 [] (2 ^ 64 - 1)⟩

/-! ## Gather buffers of a position -/

/-- `getReadBuffers(buffers, len, p)` is the data from `p` on, and the two-argument call where
    `p` is the cursor. -/
structure GathersAt (s : ByteArray) (buffers : List Extent) (len p : Nat) : Prop where
  gathers : ∃ iovs, s.getReadBuffersAt buffers len p = some (min len (s.size - p), buffers ++ iovs) ∧
    Readable s iovs p (min len (s.size - p))
  agrees : p = s.position → s.getReadBuffersAt buffers len p = s.getReadBuffers buffers len

theorem walk_eq (ns : List Node) (count : Nat) (h : count ≤ ns.length) : walk ns count = some (ns.drop count) := by
  induction ns generalizing count with
  | nil =>
    have h0 : count = 0 := Nat.le_zero.mp h
    rw [h0]
    rfl
  | cons n ns ih =>
    cases count with
    | zero => rfl
    | succ count => exact ih count (Nat.le_of_succ_le_succ h)

/-- The walk and the loop from any position, whatever the clamp left of the length. -/
theorem getReadBuffersAt_eq (hs : Rep s) (buffers : List Extent) {len p : Nat} (hp : p ≤ s.capacity)
    (h0 : s.readable len ≠ 0) :
    s.getReadBuffersAt buffers len p = (gatherLoop (s.chain.drop (p / s.baseSize)) (p / s.baseSize) (p % s.baseSize)
      (s.readable len)).map fun iovs => (s.readable len, buffers ++ iovs) := by
  have hcount : p / s.baseSize ≤ s.chain.length := by
    rw [hs.capacity] at hp
    exact Nat.div_le_of_le_mul hp
  simp only [getReadBuffersAt, h0, if_false, walk_eq _ _ hcount, Option.bind_some]

theorem getReadBuffersAt_cursor (hs : Rep s) (buffers : List Extent) (len : Nat) :
    s.getReadBuffersAt buffers len s.position = s.getReadBuffers buffers len := by
  have hp := hs.position_le
  have hz := hs.size_le
  by_cases h0 : s.readable len = 0
  · simp only [getReadBuffersAt, getReadBuffers, h0, if_true]
  · have hcap : s.position < s.capacity := by
      rw [readable_eq] at h0
      omega
    obtain ⟨hcur, -, -, -⟩ := cur_split hs hcap
    rw [getReadBuffersAt_eq hs buffers (by omega) h0]
    simp only [getReadBuffers, h0, if_false, hcur, Option.bind_some]

/-- For a position in the data the call is right exactly when the data behind the cursor and
    the data behind the position clamp the length to the same. -/
theorem getReadBuffersAt_iff (hs : Rep s) (buffers : List Extent) (len : Nat) {p : Nat} (hp : p ≤ s.size) :
    GathersAt s buffers len p ↔ p = s.position ∨ len ≤ s.size - max p s.position := by
  have hpos := hs.position_le
  have hz := hs.size_le
  have hclamp : p = s.position ∨ len ≤ s.size - max p s.position ↔ s.readable len = min len (s.size - p) := by
    rw [readable_eq]
    omega
  rw [hclamp]
  constructor
  · intro h
    obtain ⟨iovs, hget, -⟩ := h.gathers
    -- what is returned is the clamped length
    by_cases h0 : s.readable len = 0
    · simp only [getReadBuffersAt, h0, if_true, Option.some.injEq, Prod.mk.injEq] at hget
      exact h0.trans hget.1
    · rw [getReadBuffersAt_eq hs buffers (by omega) h0] at hget
      obtain ⟨_, -, he⟩ := Option.map_eq_some_iff.mp hget
      exact congrArg Prod.fst he
  · intro h
    refine ⟨?_, fun he => he ▸ getReadBuffersAt_cursor hs buffers len⟩
    rw [← h]
    by_cases h0 : s.readable len = 0
    · refine ⟨[], by simp [getReadBuffersAt, h0], readable_of_covers hs h0 ?_⟩
      omega
    · have hb := s.baseSize_pos
      have hdm := Nat.div_add_mod p s.baseSize
      have hcount : s.baseSize * (p / s.baseSize) ≤ s.capacity := by omega
      obtain ⟨iovs, hloop, hcovers⟩ := gatherLoop_covers (s.chain.drop (p / s.baseSize)) (p / s.baseSize) (p % s.baseSize)
        (s.readable len) (full_drop hs.blocks) (Nat.mod_lt _ hb) h0 (by
          rw [List.length_drop, Nat.mul_sub, ← hs.capacity]
          omega)
      rw [hdm] at hcovers
      refine ⟨iovs, by rw [getReadBuffersAt_eq hs buffers (by omega) h0, hloop, Option.map_some], ?_⟩
      exact readable_of_covers hs hcovers (by omega)

theorem getReadBuffersAt_iff_behind :
    ∃ s, Reach 4 s ∧ (GathersAt s [] 3 5 ↔ 5 = s.position ∨ 3 ≤ s.size - max 5 s.position) :=
  have hreach : Reach 4 _ := .step (.seek 1) .done (.step (.write [1, 2, 3, 4, 5, 6, 7, 8]) .done
    (.init (by decide) fun _ => 0) rfl) rfl
  ⟨_, hreach, getReadBuffersAt_iff (reach_rep hreach).1 [] 3 (by decide)⟩

/-- The cursor at the end of the data: nothing is found at the start. -/
theorem position_behind_the_cursor : ∃ s, Reach 4 s ∧ ¬ GathersAt s [] 3 0 := by
  have hreach : Reach 4 _ := .step (.write [1, 2, 3, 4, 5, 6, 7, 8]) .done (.init (by decide) fun _ => 0) rfl
  refine ⟨_, hreach, fun h => ?_⟩
  obtain ⟨iovs, hget, -⟩ := h.gathers
  have hzero : (0 : Nat) = 3 := congrArg Prod.fst (Option.some.inj hget)
  cases hzero

end LjrServer.ByteArray
