/-
  LjrServer.ByteArray.Refinement — the block chain refines a flat buffer.

  Proved, over every run of write, read, setPostion and clear from the constructor:
  - `exec_cases`: an operation that does not crash keeps the representation.
  - `write_safe_iff`: `addCapacity(n)` makes room, and `write` of `n` bytes copies them
    all, exactly when `Grows` holds; otherwise `write` follows a null `m_cur`.
  - `runs_refine_flat`: where every write finds room, each run is a run of the flat
    buffer `Lib.Flat` with the same results, and a throwing call changes nothing.
  - `small_write_crashes`: with blocks of 4, three bytes and then two more.
-/

import LjrServer.ByteArray.Loops

namespace LjrServer.ByteArray

open LjrServer.Lib

/-! ## One operation -/

/-- The blocks around the cursor's block. -/
theorem cur_split {s : ByteArray} (hs : Rep s) (hp : s.position < s.capacity) :
    s.cur = some (s.position / s.baseSize) ∧ s.position / s.baseSize < s.chain.length ∧
      s.baseSize * (s.position / s.baseSize) + s.position % s.baseSize = s.position ∧
      s.position % s.baseSize < s.baseSize := by
  refine ⟨by rw [hs.cur, if_pos hp], ?_, Nat.div_add_mod _ _, Nat.mod_lt _ s.baseSize_pos⟩
  rw [Nat.div_lt_iff_lt_mul s.baseSize_pos, Nat.mul_comm, ← hs.capacity]
  exact hp

theorem drop_ne_nil {ns : List Node} {i : Nat} (h : i < ns.length) : ns.drop i ≠ [] :=
  List.ne_nil_of_length_pos (by rw [List.length_drop]; omega)

/-- The part of storage from the cursor's block on has room for `n` more bytes exactly when
    the capacity does. -/
theorem room_from_block {s : ByteArray} (hs : Rep s) (hp : s.position < s.capacity) (n : Nat) :
    s.position % s.baseSize + n ≤ s.baseSize * (s.chain.drop (s.position / s.baseSize)).length ↔
      s.position + n ≤ s.capacity := by
  obtain ⟨_, hi, hdm, _⟩ := cur_split hs hp
  rw [List.length_drop, Nat.mul_sub, ← hs.capacity]
  have : s.baseSize * (s.position / s.baseSize) ≤ s.capacity := by omega
  omega

/-- `write` when `addCapacity` made room: the data is overwritten or extended at the
    cursor, and the cursor is past it. -/
theorem write_room {s : ByteArray} (hs : Rep s) {buf : List UInt8} (hne : buf ≠ [])
    (hroom : buf.length ≤ (s.addCapacity buf.length).getCapacity) :
    ∃ s', s.write buf = some s' ∧ Rep s' ∧ s'.baseSize = s.baseSize ∧ s'.endian = s.endian ∧
      s'.capacity = (s.addCapacity buf.length).capacity ∧ s'.position = s.position + buf.length ∧
      s'.size = max s.size (s.position + buf.length) ∧ s'.content = splice s.content s.position buf := by
  have hlen := List.length_pos_iff.mpr hne
  have ht := addCapacity_rep hs buf.length
  have hend : (s.addCapacity buf.length).endian = s.endian := by
    obtain ⟨_, _, _, _, _, _, he⟩ := addCapacity_spec hs buf.length
    rw [he]
  have hcontent := addCapacity_content hs buf.length
  have hbase := addCapacity_baseSize hs buf.length
  have hposition := addCapacity_position hs buf.length
  have hsize := addCapacity_size hs buf.length
  generalize htt : s.addCapacity buf.length = t at *
  have hple := ht.position_le
  have hsle := ht.size_le
  unfold getCapacity at hroom
  have hp : t.position < t.capacity := by omega
  obtain ⟨hcur, hi, hdm, hmod⟩ := cur_split ht hp
  obtain ⟨ns', hloop, hfull', hlen', hflat⟩ := writeLoop_spec t.baseSize_pos (t.chain.drop (t.position / t.baseSize))
    (t.position % t.baseSize) buf (full_drop ht.blocks) hmod hne ((room_from_block ht hp _).mpr (by omega))
  have hflat' : flatten (t.chain.take (t.position / t.baseSize) ++ ns') = splice (flatten t.chain) t.position buf := by
    have htl : (flatten (t.chain.take (t.position / t.baseSize))).length = t.baseSize * (t.position / t.baseSize) := by
      rw [flatten_length (full_take ht.blocks), List.length_take, Nat.min_eq_left (by omega)]
    have hsplit : flatten t.chain =
        flatten (t.chain.take (t.position / t.baseSize)) ++ flatten (t.chain.drop (t.position / t.baseSize)) := by
      rw [← flatten_append, List.take_append_drop]
    rw [flatten_append, hflat, hsplit, splice_append_right (by omega), htl]
    congr 2; omega
  have hlen2 : (t.chain.take (t.position / t.baseSize) ++ ns').length = t.chain.length := by
    rw [List.length_append, List.length_take, hlen', List.length_drop]; omega
  refine ⟨{ t with chain := t.chain.take (t.position / t.baseSize) ++ ns', position := t.position + buf.length,
                   cur := node t.chain (t.position / t.baseSize + (t.position % t.baseSize + buf.length) / t.baseSize),
                   size := max t.size (t.position + buf.length) }, ?_, ?_, hbase, hend, rfl, by rw [← hposition],
    by rw [← hposition, ← hsize], ?_⟩
  · rw [write, if_neg (by omega)]
    simp only [htt, hcur, Option.bind_some, hloop, Option.map_some]
  · have hdiv : t.position / t.baseSize + (t.position % t.baseSize + buf.length) / t.baseSize =
        (t.position + buf.length) / t.baseSize := by
      conv_rhs => rw [← hdm, Nat.add_assoc, Nat.mul_add_div t.baseSize_pos]
    refine ⟨full_append.mpr ⟨full_take ht.blocks, hfull'⟩, by rw [hlen2]; exact ht.capacity, ?_,
      Nat.le_max_right _ _, Nat.max_le.mpr ⟨hsle, by show t.position + buf.length ≤ t.capacity; omega⟩, ?_⟩
    · exact List.ne_nil_of_length_pos (hlen2 ▸ Nat.lt_of_le_of_lt (Nat.zero_le _) hi)
    · simp only [hdiv]
      rw [node_div t.baseSize_pos, ← ht.capacity]
  · have hstore := flatten_length ht.blocks
    rw [← ht.capacity] at hstore
    rw [← hcontent, ← hposition]
    simp only [content, hflat']
    exact take_splice hple (by omega)

/-- `write` without room fills the last block and then follows its null `next`. -/
theorem write_no_room {s : ByteArray} (hs : Rep s) {buf : List UInt8} (hne : buf ≠ [])
    (hroom : ¬ buf.length ≤ (s.addCapacity buf.length).getCapacity) : s.write buf = none := by
  have hlen := List.length_pos_iff.mpr hne
  have ht := addCapacity_rep hs buf.length
  rw [write, if_neg (by omega)]
  generalize s.addCapacity buf.length = t at *
  unfold getCapacity at hroom
  by_cases hp : t.position < t.capacity
  · obtain ⟨hcur, hi, hdm, hmod⟩ := cur_split ht hp
    have hlong : t.baseSize * (t.chain.drop (t.position / t.baseSize)).length < t.position % t.baseSize + buf.length :=
      Nat.lt_of_not_le fun h => by have := (room_from_block ht hp _).mp h; omega
    simp only [hcur, Option.bind_some, writeLoop_none _ _ _ (full_drop ht.blocks) (Nat.le_of_lt hmod) hlong,
      Option.map_none]
  · simp only [ht.cur, if_neg hp, Option.bind_none]

/-- `read` of what is there: the bytes at the cursor, and the cursor past them. At the end
    of storage even a read of nothing needs a block to look at. -/
theorem read_ok {s : ByteArray} (hs : Rep s) {n : Nat} (hn : n ≤ s.getReadSize) (hp : s.position < s.capacity) :
    ∃ s', s.read n = some (.ok (slice s.content s.position n), s') ∧ Rep s' ∧ s'.baseSize = s.baseSize ∧
      s'.endian = s.endian ∧ s'.capacity = s.capacity ∧ s'.position = s.position + n ∧ s'.size = s.size ∧
      s'.content = s.content := by
  have hple := hs.position_le
  have hsle := hs.size_le
  unfold getReadSize at hn
  obtain ⟨hcur, hi, hdm, hmod⟩ := cur_split hs hp
  have hloop := readLoop_spec s.baseSize_pos (s.chain.drop (s.position / s.baseSize)) (s.position % s.baseSize) n
    (full_drop hs.blocks) hmod ((room_from_block hs hp _).mpr (by omega)) (drop_ne_nil hi)
  have hbytes : slice (flatten (s.chain.drop (s.position / s.baseSize))) (s.position % s.baseSize) n =
      slice s.content s.position n := by
    rw [flatten_drop hs.blocks, content, slice_take (by omega)]
    simp only [slice, List.drop_drop, hdm]
  refine ⟨{ s with cur := node s.chain (s.position / s.baseSize + (s.position % s.baseSize + n) / s.baseSize),
                   position := s.position + n }, ?_, ?_, rfl, rfl, rfl, rfl, rfl, rfl⟩
  · rw [read, if_neg (by unfold getReadSize; omega)]
    simp only [hcur, Option.bind_some, hloop, Option.map_some, hbytes]
  · have hdiv : s.position / s.baseSize + (s.position % s.baseSize + n) / s.baseSize = (s.position + n) / s.baseSize := by
      conv_rhs => rw [← hdm, Nat.add_assoc, Nat.mul_add_div s.baseSize_pos]
    refine ⟨hs.blocks, hs.capacity, hs.root, by simp only; omega, hs.size_le, ?_⟩
    simp only [hdiv]
    rw [node_div s.baseSize_pos, ← hs.capacity]

theorem read_throws {s : ByteArray} {n : Nat} (hn : s.getReadSize < n) :
    s.read n = some (.error ⟨"not enough len"⟩, s) := by rw [read, if_pos hn]

theorem setPostion_ok {s : ByteArray} (hs : Rep s) {v : Nat} (hv : v ≤ s.capacity) :
    ∃ s', s.setPostion v = some (.ok (), s') ∧ Rep s' ∧ s'.baseSize = s.baseSize ∧ s'.endian = s.endian ∧
      s'.capacity = s.capacity ∧ s'.position = v ∧ s'.size = max s.size v ∧ s'.chain = s.chain := by
  have hsle := hs.size_le
  have hloop := seekLoop_spec s.baseSize_pos s.chain v 0 hs.blocks (by rw [← hs.capacity]; exact hv) hs.root
  refine ⟨{ s with position := v, size := max s.size v, cur := node s.chain (0 + v / s.baseSize) }, ?_, ?_, rfl, rfl, rfl,
    rfl, rfl, rfl⟩
  · rw [setPostion, if_neg (by omega), hloop, Option.map_some]
  · refine ⟨hs.blocks, hs.capacity, hs.root, Nat.le_max_right _ _, by simp only; omega, ?_⟩
    simp only [Nat.zero_add]
    rw [node_div s.baseSize_pos, ← hs.capacity]

theorem setPostion_throws {s : ByteArray} {v : Nat} (hv : s.capacity < v) :
    s.setPostion v = some (.error ⟨"set_position out of range"⟩, s) := by rw [setPostion, if_pos hv]

theorem clear_rep {s : ByteArray} (hs : Rep s) : Rep s.clear := by
  have hl : (s.chain.take 1).length = 1 := by
    rw [List.length_take, Nat.min_eq_left (List.length_pos_iff.mpr hs.root)]
  have hb := s.baseSize_pos
  refine ⟨full_take hs.blocks, ?_, List.ne_nil_of_length_pos (by simp only [clear]; omega), Nat.le_refl _, Nat.zero_le _, ?_⟩
  · simp only [clear, hl, Nat.mul_one]
  · simp only [clear, hb, if_true, Nat.zero_div]

theorem new_rep (b : Nat) (h : 0 < b) (heap : Nat → UInt8) : Rep (new b h heap) :=
  ⟨by simp [new], by simp [new], by simp [new], Nat.le_refl _, Nat.zero_le _, by simp [new, h]⟩

/-! ## Every run -/

inductive Reach (b : Nat) : ByteArray → Prop
  | init (h : 0 < b) (heap : Nat → UInt8) : Reach b (new b h heap)
  | step {s s' : ByteArray} (op : FlatOp UInt8) (r : FlatRes UInt8) :
      Reach b s → s.exec op = some (r, s') → Reach b s'

/-- What an operation leaves, by its outcome. -/
theorem exec_cases {s s' : ByteArray} {op : FlatOp UInt8} {r : FlatRes UInt8} (hs : Rep s)
    (h : s.exec op = some (r, s')) : Rep s' ∧ s'.baseSize = s.baseSize := by
  have hb := s.baseSize_pos
  cases op with
  | write buf =>
    obtain ⟨t, ht, he⟩ := Option.map_eq_some_iff.mp h
    cases he
    by_cases hne : buf = []
    · subst hne
      rw [write, if_pos List.length_nil] at ht
      cases ht
      exact ⟨hs, rfl⟩
    by_cases hroom : buf.length ≤ (s.addCapacity buf.length).getCapacity
    · obtain ⟨t', ht', hrep, hbase, _⟩ := write_room hs hne hroom
      rw [ht] at ht'; cases ht'
      exact ⟨hrep, hbase⟩
    · rw [write_no_room hs hne hroom] at ht; cases ht
  | read n =>
    obtain ⟨⟨_, t⟩, ht, he⟩ := Option.map_eq_some_iff.mp h
    cases he
    by_cases hn : n ≤ s.getReadSize
    · by_cases hp : s.position < s.capacity
      · obtain ⟨t', ht', hrep, hbase, _⟩ := read_ok hs hn hp
        rw [ht] at ht'; cases ht'
        exact ⟨hrep, hbase⟩
      · rw [read, if_neg (by omega), hs.cur, if_neg hp] at ht; cases ht
    · rw [read_throws (by omega)] at ht; cases ht
      exact ⟨hs, rfl⟩
  | seek v =>
    obtain ⟨⟨_, t⟩, ht, he⟩ := Option.map_eq_some_iff.mp h
    cases he
    by_cases hv : v ≤ s.capacity
    · obtain ⟨t', ht', hrep, hbase, _⟩ := setPostion_ok hs hv
      rw [ht] at ht'; cases ht'
      exact ⟨hrep, hbase⟩
    · rw [setPostion_throws (by omega)] at ht; cases ht
      exact ⟨hs, rfl⟩
  | clear =>
    cases h
    exact ⟨clear_rep hs, rfl⟩

theorem reach_rep {b : Nat} {s : ByteArray} (h : Reach b s) : Rep s ∧ s.baseSize = b := by
  induction h with
  | init h heap => exact ⟨new_rep b h heap, rfl⟩
  | step op r _ he ih =>
    obtain ⟨hrep, hbase⟩ := exec_cases ih.1 he
    exact ⟨hrep, hbase.trans ih.2⟩

/-! ## Room for a write -/

/-- What `addCapacity(n)` is called for: room for `n` bytes at a cursor that points at
    its block, in a chain whose capacity is all of its blocks. -/
def RoomFor (s : ByteArray) (n : Nat) : Prop :=
  let t := s.addCapacity n
  n ≤ t.capacity - t.position ∧ t.capacity = t.baseSize * t.chain.length ∧ t.cur = some (t.position / t.baseSize)

/-- `write` runs to its end and the storage at the old cursor holds all of `buf`. -/
def Copies (s : ByteArray) (buf : List UInt8) : Prop :=
  ∃ s', s.write buf = some s' ∧ slice (flatten s'.chain) s.position buf.length = buf

theorem roomFor_iff {s : ByteArray} (hs : Rep s) {n : Nat} (hn : 1 ≤ n) :
    RoomFor s n ↔ n ≤ (s.addCapacity n).getCapacity := by
  have ht := addCapacity_rep hs n
  constructor
  · exact fun h => h.1
  · intro h
    unfold getCapacity at h
    exact ⟨h, ht.capacity, by rw [ht.cur, if_pos (by omega)]⟩

theorem copies_iff {s : ByteArray} (hs : Rep s) {buf : List UInt8} (hne : buf ≠ []) :
    Copies s buf ↔ buf.length ≤ (s.addCapacity buf.length).getCapacity := by
  constructor
  · rintro ⟨s', hw, _⟩
    apply Classical.byContradiction
    intro hroom
    rw [write_no_room hs hne hroom] at hw; cases hw
  · intro hroom
    obtain ⟨s', hw, hrep, _, _, _, hpos, hsize, hcontent⟩ := write_room hs hne hroom
    refine ⟨s', hw, ?_⟩
    have hlen := content_length hs
    have hple := hs.position_le
    have h : slice (splice s.content s.position buf) s.position buf.length = buf := slice_splice (by omega)
    rw [← hcontent, content, slice_take (by omega)] at h
    exact h

/-- In every reachable state, `addCapacity(n)` provides its `n` bytes and `write` copies
    them without a null `m_cur` exactly when `Grows` holds. -/
theorem write_safe_iff {b : Nat} {s : ByteArray} (h : Reach b s) (n : Nat) (hn : 1 ≤ n) :
    (RoomFor s n ∧ ∀ buf : List UInt8, buf.length = n → Copies s buf) ↔ Grows s n := by
  obtain ⟨hs, _⟩ := reach_rep h
  rw [roomFor_iff hs hn, ← addCapacity_enough_iff hs n]
  refine ⟨fun h => h.1, fun hroom => ⟨hroom, fun buf hbuf => ?_⟩⟩
  exact (copies_iff hs (List.ne_nil_of_length_pos (by omega))).mpr (by rwa [hbuf])

/-- Blocks of 4: after three bytes, `addCapacity(5)` adds the block that is missing. -/
theorem write_safe_iff_grown : ∃ s, Reach 4 s ∧ s.getCapacity = 1 ∧ Grows s 5 ∧
    ((RoomFor s 5 ∧ ∀ buf : List UInt8, buf.length = 5 → Copies s buf) ↔ Grows s 5) := by
  have hreach : Reach 4 _ := .step (.write [1, 2, 3]) .done (.init (by decide) fun _ => 0) rfl
  exact ⟨_, hreach, rfl, by decide, write_safe_iff hreach 5 (by decide)⟩

/-- Blocks of 4: after three bytes one is free, and `addCapacity(2)` adds no block because
    the one byte missing is not more than the one byte free. -/
theorem small_write_crashes : ∃ s, Reach 4 s ∧ ¬ RoomFor s 2 ∧ s.write [4, 5] = none := by
  refine ⟨_, .step (.write [1, 2, 3]) .done (.init (by decide) fun _ => 0) rfl, ?_, rfl⟩
  exact fun h => absurd h.1 (by decide)

/-! ## The flat buffer -/

def toFlat (s : ByteArray) (h : Rep s) : Flat UInt8 :=
  { bytes := s.content, pos := s.position, room := s.capacity
    pos_le := by rw [content_length h]; exact h.position_le
    bytes_le := by rw [content_length h]; exact h.size_le }

/-- The calls the flat buffer is compared on: something is written or read, and a write
    finds the room its `addCapacity` was for. -/
def Legal (s : ByteArray) : FlatOp UInt8 → Prop
  | .write buf => buf ≠ [] ∧ buf.length ≤ (s.addCapacity buf.length).capacity - (s.addCapacity buf.length).position
  | .read n => 1 ≤ n
  | .seek _ => True
  | .clear => True

/-- A legal operation does not crash, and the flat buffer makes the same step. -/
theorem exec_refines {s : ByteArray} (hs : Rep s) (op : FlatOp UInt8) (hl : Legal s op) :
    ∃ r s', s.exec op = some (r, s') ∧ ∃ hs' : Rep s', Flat.Step s.baseSize (toFlat s hs) op r (toFlat s' hs') := by
  have hlen := content_length hs
  have hple := hs.position_le
  have hsle := hs.size_le
  cases op with
  | write buf =>
    obtain ⟨s', hw, hrep, _, _, hcap, hpos, _, hcontent⟩ := write_room hs hl.1 hl.2
    refine ⟨.done, s', by simp [exec, hw], hrep, .write _ _ buf hcontent hpos ?_⟩
    show s.capacity ≤ s'.capacity
    rw [hcap, addCapacity_capacity hs]; omega
  | read n =>
    have hn1 : 1 ≤ n := hl
    by_cases hn : n ≤ s.getReadSize
    · have hn' := hn
      unfold getReadSize at hn'
      obtain ⟨s', hr, hrep, _, _, hcap, hpos, _, hcontent⟩ := read_ok hs hn (by omega)
      exact ⟨.bytes (slice s.content s.position n), s', by simp [exec, hr], hrep,
        .read (toFlat s hs) (toFlat s' hrep) n (by show n ≤ s.content.length - s.position; omega) hcontent hpos hcap⟩
    · refine ⟨.outOfRange, s, by simp [exec, read_throws (Nat.lt_of_not_le hn)], hs, .readPast _ n ?_⟩
      show s.content.length - s.position < n
      unfold getReadSize at hn; omega
  | seek v =>
    by_cases hv : v ≤ s.capacity
    · obtain ⟨s', hp, hrep, _, _, hcap, hpos, hsize, hchain⟩ := setPostion_ok hs hv
      refine ⟨.done, s', by simp [exec, hp], hrep, .seek (toFlat s hs) (toFlat s' hrep) v
        (slice (flatten s.chain) s.size (v - s.size)) hv ?_ ?_ hpos hcap⟩
      · show _ = v - s.content.length
        rw [hlen]
        by_cases hle : v ≤ s.size
        · rw [show v - s.size = 0 by omega]; simp
        · exact slice_length (by rw [flatten_length hs.blocks, ← hs.capacity]; omega)
      · show s'.content = s.content ++ _
        simp only [content, slice, hchain, hsize]
        by_cases hle : v ≤ s.size
        · rw [show v - s.size = 0 by omega, Nat.max_eq_left hle]; simp
        · rw [Nat.max_eq_right (by omega), show v = s.size + (v - s.size) by omega, List.take_add]
          congr 2; omega
    · exact ⟨.outOfRange, s, by simp [exec, setPostion_throws (Nat.lt_of_not_le hv)], hs,
        .seekPast (toFlat s hs) v (Nat.lt_of_not_le hv)⟩
  | clear =>
    refine ⟨.done, s.clear, rfl, clear_rep hs, .clear _ _ ?_ rfl rfl⟩
    show s.clear.content = []
    simp [content, clear]

/-- A call that throws leaves the whole state as it was. -/
theorem throw_unchanged {s s' : ByteArray} {op : FlatOp UInt8} (h : s.exec op = some (.outOfRange, s')) : s' = s := by
  cases op with
  | write buf => obtain ⟨_, _, he⟩ := Option.map_eq_some_iff.mp h; cases he
  | read n =>
    obtain ⟨⟨r, t⟩, ht, he⟩ := Option.map_eq_some_iff.mp h
    unfold read at ht
    split at ht
    · cases ht; cases he; rfl
    · obtain ⟨i, _, hi⟩ := Option.bind_eq_some_iff.mp ht
      obtain ⟨_, _, hr⟩ := Option.map_eq_some_iff.mp hi
      cases hr; cases he
  | seek v =>
    obtain ⟨⟨r, t⟩, ht, he⟩ := Option.map_eq_some_iff.mp h
    unfold setPostion at ht
    split at ht
    · cases ht; cases he; rfl
    · obtain ⟨_, _, hr⟩ := Option.map_eq_some_iff.mp ht
      cases hr; cases he
  | clear => cases h

inductive Runs : ByteArray → List (FlatOp UInt8) → List (FlatRes UInt8) → ByteArray → Prop
  | nil (s : ByteArray) : Runs s [] [] s
  | cons {s t u : ByteArray} {op : FlatOp UInt8} {r : FlatRes UInt8} {ops : List (FlatOp UInt8)}
      {rs : List (FlatRes UInt8)} : s.exec op = some (r, t) → Runs t ops rs u → Runs s (op :: ops) (r :: rs) u

/-- Every call of the sequence is legal where it is made. -/
def LegalRun : ByteArray → List (FlatOp UInt8) → Prop
  | _, [] => True
  | s, op :: ops => Legal s op ∧ ∀ r s', s.exec op = some (r, s') → LegalRun s' ops

theorem runs_refine : ∀ (ops : List (FlatOp UInt8)) (s : ByteArray) (hs : Rep s), LegalRun s ops →
    ∃ rs s', Runs s ops rs s' ∧ ∃ hs' : Rep s', Flat.Run s.baseSize (toFlat s hs) ops rs (toFlat s' hs') := by
  intro ops
  induction ops with
  | nil => intro s hs _; exact ⟨[], s, .nil s, hs, .nil _⟩
  | cons op ops ih =>
    intro s hs ⟨hl, hrest⟩
    obtain ⟨r, t, he, ht, hstep⟩ := exec_refines hs op hl
    obtain ⟨rs, u, hruns, hu, hflat⟩ := ih t ht (hrest r t he)
    rw [(exec_cases hs he).2] at hflat
    exact ⟨r :: rs, u, .cons he hruns, hu, .cons hstep hflat⟩

/-- From the constructor on, a legal sequence of calls never crashes, gives the results a
    flat buffer gives, keeps cursor, size and block pointer in step, and a call that throws
    changes nothing. -/
theorem runs_refine_flat (b : Nat) (hb : 0 < b) (heap : Nat → UInt8) (ops : List (FlatOp UInt8))
    (hl : LegalRun (new b hb heap) ops) :
    ∃ rs s', Runs (new b hb heap) ops rs s' ∧
      (∃ hs' : Rep s', Flat.Run b (toFlat _ (new_rep b hb heap)) ops rs (toFlat s' hs')) ∧
      (s'.position ≤ s'.size ∧ s'.size ≤ s'.capacity ∧
        (s'.position < s'.capacity → s'.cur = some (s'.position / b)) ∧ (s'.cur = none ↔ s'.position = s'.capacity)) ∧
      ∀ op t, s'.exec op = some (.outOfRange, t) → t = s' := by
  obtain ⟨rs, s', hruns, hs', hflat⟩ := runs_refine ops _ (new_rep b hb heap) hl
  have hbase : s'.baseSize = b := by
    have : ∀ {s ops rs u}, Runs s ops rs u → Rep s → u.baseSize = s.baseSize := by
      intro s ops rs u h
      induction h with
      | nil => intro _; rfl
      | cons he _ ih =>
        intro hs
        obtain ⟨ht, hb⟩ := exec_cases hs he
        exact (ih ht).trans hb
    exact this hruns (new_rep b hb heap)
  have hp := hs'.position_le
  have hz := hs'.size_le
  refine ⟨rs, s', hruns, ⟨hs', hflat⟩, ⟨hp, hz, fun h => by rw [hs'.cur, if_pos h, hbase], ?_⟩,
    fun op t h => throw_unchanged h⟩
  rw [hs'.cur]
  constructor
  · intro h
    split at h
    · cases h
    · omega
  · intro h; rw [if_neg (by omega)]

theorem runs_refine_flat_across_blocks :
    ∃ rs s', Runs (new 2 (by decide) fun _ => 0) [.write [1, 2, 3, 4], .seek 1, .read 2] rs s' ∧
      (∃ hs' : Rep s', Flat.Run 2 (toFlat _ (new_rep 2 (by decide) fun _ => 0)) [.write [1, 2, 3, 4], .seek 1, .read 2] rs
        (toFlat s' hs')) ∧
      (s'.position ≤ s'.size ∧ s'.size ≤ s'.capacity ∧
        (s'.position < s'.capacity → s'.cur = some (s'.position / 2)) ∧ (s'.cur = none ↔ s'.position = s'.capacity)) ∧
      ∀ op t, s'.exec op = some (.outOfRange, t) → t = s' := by
  refine runs_refine_flat 2 (by decide) (fun _ => 0) [.write [1, 2, 3, 4], .seek 1, .read 2] ?_
  refine ⟨⟨by decide, by decide⟩, fun r s' h => ?_⟩
  exact ⟨trivial, fun _ _ _ => ⟨(by decide : 1 ≤ 2), fun _ _ _ => trivial⟩⟩

end LjrServer.ByteArray
