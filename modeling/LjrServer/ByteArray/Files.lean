/-
  LjrServer.ByteArray.Files — the file dump (bytearray.cpp: `writeToFile`, `readFromFile`).

  The loop of `writeToFile` goes to the next block at every turn, whether or not the block was
  written to its end: the length it writes is what is left, at most a block, less the offset in
  the block. Lengths and positions are below 2^63, as sizes of allocated memory, so only the
  offset, an `int`, is cut off. Whether the file opens is a parameter, and a file is its bytes.

  Proved:
  - `writeToFile_iff`: the file is the data behind the cursor exactly when there is none, or
    the cursor's offset in its block is an `int` and either 0 or followed by a block's worth
    of data.
  - `dump_behind_the_start`: four bytes in a block of 4, dumped from the second on.
-/

import LjrServer.ByteArray.Gather

namespace LjrServer.ByteArray

open LjrServer.Lib

/-- One `ofs.write(cur->ptr + diff, len)`. -/
structure Written where
  block : Nat
  offset : Int
  length : Int
  deriving DecidableEq, Repr

/-- Conversion to `int`. -/
def toInt (x : Int) : Int := x.bmod (2 ^ 32)

/-- `cur` is block `k`. -/
def dumpLoop (baseSize : Nat) : List Node → Nat → Int → Int → Option (List Written)
  | [], _, _, readSize => if 0 < readSize then none else some []
  | _ :: ns, k, pos, readSize =>
    if 0 < readSize then
      let diff := toInt (pos % baseSize)
      let len := (if baseSize < readSize then (baseSize : Int) else readSize) - diff
      (dumpLoop baseSize ns (k + 1) (pos + len) (readSize - len)).map (⟨k, diff, len⟩ :: ·)
    else some []

/-- The blocks from `m_cur` on, and the number of the first. -/
def fromCur (s : ByteArray) : List Node × Nat :=
  match s.cur with
  | some i => (s.chain.drop i, i)
  | none => ([], 0)

/-- Whether the file was written, and the writes. -/
def writeToFile (s : ByteArray) (opens : Bool) : Option (Bool × List Written) :=
  if opens = false then some (false, [])
  else (dumpLoop s.baseSize s.fromCur.1 s.fromCur.2 s.position s.getReadSize).map fun ws => (true, ws)

/-- What the writes put into the file; nothing is read outside a block. -/
def written (blocks : List (List UInt8)) : List Written → Option (List UInt8)
  | [] => some []
  | w :: ws =>
    if 0 ≤ w.offset ∧ 0 ≤ w.length ∧ w.offset + w.length ≤ (blocks.getD w.block []).length then
      (written blocks ws).map (slice (blocks.getD w.block []) w.offset.toNat w.length.toNat ++ ·)
    else none

/-- The reads of `m_baseSize` bytes; the one that comes short sets `eof`. -/
def chunkLoop (s : ByteArray) (bytes : List UInt8) : Option ByteArray :=
  if bytes.length < s.baseSize then s.write bytes
  else (s.write (bytes.take s.baseSize)).bind fun s' => chunkLoop s' (bytes.drop s.baseSize)
termination_by bytes.length
decreasing_by
  have := s.baseSize_pos
  rw [List.length_drop]
  omega

/-- `file` is none if it does not open. -/
def readFromFile (s : ByteArray) : Option (List UInt8) → Option (Bool × ByteArray)
  | none => some (false, s)
  | some bytes => (chunkLoop s bytes).map fun s' => (true, s')

/-- A fresh `ByteArray` of any base size that reads the file and goes back to its start has
    what `s` has. -/
def ReadsBackFile (s : ByteArray) (file : List UInt8) : Prop :=
  ∀ (b : Nat) (h : 0 < b) (heap : Nat → UInt8), ∃ t u, (new b h heap).readFromFile (some file) = some (true, t) ∧
    t.setPostion 0 = some (.ok (), u) ∧ u.toString = s.toString

/-- The dump ends, writes something each time, and the file is the data behind the cursor. -/
def Dumps (s : ByteArray) : Prop :=
  ∃ ws, s.writeToFile true = some (true, ws) ∧ (∀ w ∈ ws, 0 < w.length) ∧ written s.memory ws = some s.unread ∧
    ReadsBackFile s s.unread

def Written.ofExtent (e : Extent) : Written := ⟨e.block, e.offset, e.length⟩

/-- And what it writes is, in order, the storage of `[m_position, m_size)`. -/
def DumpsStorage (s : ByteArray) : Prop :=
  Dumps s ∧ ∃ es, Covers s.baseSize es s.position (s.size - s.position) ∧
    s.writeToFile true = some (true, es.map Written.ofExtent)

/-- There is nothing to dump, or the offset in the block is an `int`, and 0 unless there is at
    least a block's worth to dump. -/
def Dumpable (s : ByteArray) : Prop :=
  s.position = s.size ∨ s.position % s.baseSize < 2 ^ 31 ∧
    (s.position % s.baseSize = 0 ∨ s.baseSize ≤ s.size - s.position)

instance (s : ByteArray) : Decidable (Dumpable s) := by unfold Dumpable; infer_instance

variable {s : ByteArray} {b k : Nat} {ns : List Node} {es : List Extent}

/-! ## The dump -/

theorem toInt_small {x : Int} (h : 0 ≤ x) (hlt : x < 2 ^ 31) : toInt x = x := by
  rw [toInt, Int.bmod_def]
  omega

theorem toInt_lt (x : Int) : toInt x < 2 ^ 31 := by
  rw [toInt, Int.bmod_def]
  omega

/-- Below 2^32 the conversion keeps what it does not make negative. -/
theorem toInt_nonneg {x : Int} (h0 : 0 ≤ x) (hlt : x < 2 ^ 32) (h : 0 ≤ toInt x) : toInt x = x := by
  rw [toInt, Int.bmod_def] at h ⊢
  omega

/-- One turn of the loop. -/
theorem dumpLoop_turn {n : Node} {pos readSize diff len : Int} (h : 0 < readSize)
    (hdiff : toInt (pos % b) = diff) (hlen : (if b < readSize then (b : Int) else readSize) - diff = len) :
    dumpLoop b (n :: ns) k pos readSize =
      (dumpLoop b ns (k + 1) (pos + len) (readSize - len)).map (⟨k, diff, len⟩ :: ·) := by
  simp only [dumpLoop, h, if_true, hdiff, hlen]

/-- From the start of a block on every turn writes a block, or what is left. -/
theorem dumpLoop_whole (hb : 0 < b) (n : Nat) (hroom : n ≤ b * ns.length) :
    ∃ es, dumpLoop b ns k ((b * k : Nat) : Int) n = some (es.map Written.ofExtent) ∧ Covers b es (b * k) n := by
  induction ns generalizing k n with
  | nil =>
    have h0 : n = 0 := by
      rw [List.length_nil] at hroom
      omega
    subst h0
    exact ⟨[], rfl, rfl⟩
  | cons m ns ih =>
    rw [List.length_cons, Nat.mul_succ] at hroom
    by_cases h0 : n = 0
    · subst h0
      exact ⟨[], rfl, rfl⟩
    · have hdiff : toInt (((b * k : Nat) : Int) % b) = 0 := by
        rw [← Int.natCast_mod, Nat.mul_mod_right]
        rfl
      have hlen : (if (b : Int) < n then (b : Int) else n) - 0 = (min b n : Nat) := by
        split <;> omega
      have hpos : ((b * k : Nat) : Int) + (min b n : Nat) = ((b * k + min b n : Nat) : Int) := by omega
      rw [dumpLoop_turn (by omega) hdiff hlen, hpos, show (n : Int) - (min b n : Nat) = ((n - min b n : Nat) : Int) by omega]
      by_cases hlast : n ≤ b
      · refine ⟨[⟨k, 0, n⟩], ?_, by simp only; omega, by simp only; omega, rfl, Nat.le_refl _, Nat.sub_self _⟩
        rw [Nat.min_eq_right hlast, Nat.sub_self]
        cases ns <;> rfl
      · obtain ⟨es, hloop, hcovers⟩ := ih (k := k + 1) (n - b) (by omega)
        rw [Nat.min_eq_left (by omega), ← Nat.mul_succ, hloop]
        exact ⟨⟨k, 0, b⟩ :: es, rfl, hb, by simp only; omega, rfl, by simp only; omega, hcovers⟩

theorem dumpLoop_nothing (ns : List Node) (k : Nat) (pos : Int) : dumpLoop b ns k pos 0 = some [] := by
  cases ns <;> rfl

theorem fromCur_inside (hs : Rep s) (hp : s.position < s.capacity) :
    s.fromCur = (s.chain.drop (s.position / s.baseSize), s.position / s.baseSize) := by
  rw [fromCur, (cur_split hs hp).1]

theorem offset_cast (p b : Nat) : (p : Int) % b = ((p % b : Nat) : Int) := (Int.natCast_mod p b).symm

theorem dump_covers (hs : Rep s) (h : Dumpable s) :
    ∃ es, s.writeToFile true = some (true, es.map Written.ofExtent) ∧
      Covers s.baseSize es s.position (s.size - s.position) := by
  have hp := hs.position_le
  have hz := hs.size_le
  have hb := s.baseSize_pos
  suffices hloop : ∃ es, dumpLoop s.baseSize s.fromCur.1 s.fromCur.2 s.position s.getReadSize =
      some (es.map Written.ofExtent) ∧ Covers s.baseSize es s.position (s.size - s.position) by
    obtain ⟨es, hloop, hcovers⟩ := hloop
    exact ⟨es, by simp only [writeToFile, Bool.true_eq_false, if_false, hloop, Option.map_some], hcovers⟩
  unfold getReadSize
  by_cases hend : s.position = s.size
  · rw [hend, Nat.sub_self]
    exact ⟨[], dumpLoop_nothing _ _ _, rfl⟩
  · have hcap : s.position < s.capacity := by omega
    obtain ⟨-, hi, hdm, hmod⟩ := cur_split hs hcap
    have hroom := (room_from_block hs hcap (s.size - s.position)).mpr (by omega)
    rw [fromCur_inside hs hcap]
    simp only
    have hwhole := (h.resolve_left hend).2
    have hdiff : toInt ((s.position : Int) % s.baseSize) = (s.position % s.baseSize : Nat) := by
      have hint := (h.resolve_left hend).1
      rw [offset_cast, toInt_small (by omega) (by omega)]
    generalize hk : s.position / s.baseSize = k at *
    rcases Nat.eq_zero_or_pos (s.position % s.baseSize) with hzero | hpos
    · -- the cursor is at the start of a block
      rw [hzero] at hdm hroom
      rw [← hdm, Nat.add_zero] at hroom ⊢
      exact dumpLoop_whole hb _ (by omega)
    · -- the first turn writes the rest of the cursor's block
      have hlong := hwhole.resolve_left (by omega)
      cases hd : s.chain.drop k with
      | nil => exact absurd hd (drop_ne_nil hi)
      | cons n ns =>
        rw [hd, List.length_cons, Nat.mul_succ] at hroom
        obtain ⟨es, hrest, hcovers⟩ := dumpLoop_whole (k := k + 1) hb
          (s.size - s.position - (s.baseSize - s.position % s.baseSize)) (show _ ≤ s.baseSize * ns.length by omega)
        have hlen : (if (s.baseSize : Int) < (s.size - s.position : Nat) then (s.baseSize : Int)
            else (s.size - s.position : Nat)) - (s.position % s.baseSize : Nat) =
              (s.baseSize - s.position % s.baseSize : Nat) := by
          split <;> omega
        have hnext : s.baseSize * (k + 1) = s.position + (s.baseSize - s.position % s.baseSize) := by
          rw [Nat.mul_succ]
          omega
        rw [dumpLoop_turn (by omega) hdiff hlen, ← Nat.cast_add, ← hnext, ← Nat.cast_sub (by omega), hrest]
        rw [hnext] at hcovers
        exact ⟨⟨k, s.position % s.baseSize, s.baseSize - s.position % s.baseSize⟩ :: es, rfl, by simp only; omega,
          by simp only; omega, hdm, by simp only; omega, hcovers⟩

/-- The file is what the pieces hold. -/
theorem written_extents {blocks : List (List UInt8)} {p n : Nat} (hb : Blocks b blocks) (h : Covers b es p n)
    (hroom : p + n ≤ b * blocks.length) : written blocks (es.map Written.ofExtent) = some (gathered blocks es) := by
  induction es generalizing p n with
  | nil => rfl
  | cons e es ih =>
    obtain ⟨hpos, hoff, hp, hle, hrest⟩ := h
    have hk : e.block < blocks.length := block_lt hpos hp (by omega)
    have hlength : (blocks.getD e.block []).length = b := by
      rw [List.getD_eq_getElem _ _ hk]
      exact hb _ (List.getElem_mem hk)
    have hin : 0 ≤ (Written.ofExtent e).offset ∧ 0 ≤ (Written.ofExtent e).length ∧
        (Written.ofExtent e).offset + (Written.ofExtent e).length ≤ (blocks.getD (Written.ofExtent e).block []).length := by
      simp only [Written.ofExtent, hlength]
      omega
    rw [List.map_cons, written, if_pos hin, ih hrest (by omega), Option.map_some]
    rfl

/-! ## Reading the file -/

/-- Where a chunk of at most a block is written at the end of the data, there is room: the
    storage is used up, or none of its last block is. -/
theorem chunk_room (hs : Rep s) {n : Nat} (hfree : s.getCapacity = 0 ∨ s.getCapacity = s.baseSize) (hn : n ≤ s.baseSize) :
    n ≤ (s.addCapacity n).getCapacity := by
  rw [addCapacity_enough_iff hs]
  unfold Grows
  rcases hfree with h | h
  · rw [h]
    omega
  · exact .inl (by omega)

/-- A whole block uses the storage up. -/
theorem chunk_full (hs : Rep s) (hfree : s.getCapacity = 0 ∨ s.getCapacity = s.baseSize) :
    (s.addCapacity s.baseSize).capacity = s.position + s.baseSize := by
  have hp := hs.position_le
  have hz := hs.size_le
  have hb := s.baseSize_pos
  rw [addCapacity_capacity hs, addedBlocks]
  unfold getCapacity at hfree ⊢
  rcases hfree with h | h
  · rw [h, if_neg (by omega), Nat.sub_zero, Nat.div_self hb, Nat.mod_self, if_neg (by omega)]
    omega
  · rw [h, if_pos (Nat.le_refl _)]
    omega

/-- Writing at the end of the data appends. -/
theorem splice_end (hs : Rep s) (hend : s.position = s.size) (buf : List UInt8) :
    splice s.content s.position buf = s.content ++ buf := by
  have hlen := content_length hs
  rw [splice, List.take_of_length_le (by omega), List.drop_of_length_le (by omega), List.append_nil]

theorem chunkLoop_appends (hs : Rep s) (hend : s.position = s.size)
    (hfree : s.getCapacity = 0 ∨ s.getCapacity = s.baseSize) (bytes : List UInt8) :
    ∃ t, chunkLoop s bytes = some t ∧ Rep t ∧ t.content = s.content ++ bytes := by
  fun_induction chunkLoop s bytes with
  | case1 s bytes hshort =>
    by_cases hne : bytes = []
    · subst hne
      exact ⟨s, by rw [write, if_pos List.length_nil], hs, (List.append_nil _).symm⟩
    · obtain ⟨t, hwrite, hrep, -, -, -, -, -, hcontent⟩ := write_room hs hne (chunk_room hs hfree (by omega))
      exact ⟨t, hwrite, hrep, by rw [hcontent, splice_end hs hend]⟩
  | case2 s bytes hlong ih =>
    have htake : (bytes.take s.baseSize).length = s.baseSize := by
      rw [List.length_take]
      omega
    have hb := s.baseSize_pos
    obtain ⟨t, hwrite, hrep, hbase, -, hcap, hpos, hsize, hcontent⟩ := write_room hs
      (List.ne_nil_of_length_pos (by omega)) (chunk_room hs hfree (Nat.le_of_eq htake))
    rw [htake] at hcap hpos hsize
    have hused : t.getCapacity = 0 := by
      unfold getCapacity
      rw [hcap, hpos, chunk_full hs hfree, Nat.sub_self]
    obtain ⟨u, hloop, hu, hcontent'⟩ := ih t hrep (by omega) (.inl hused)
    refine ⟨u, by rw [hwrite, Option.bind_some, hloop], hu, ?_⟩
    rw [hcontent', hcontent, splice_end hs hend, List.append_assoc, List.take_append_drop]

theorem readFromFile_back (hs : Rep s) (hz : s.size < 2 ^ 64) : ReadsBackFile s s.unread := by
  intro b h heap
  obtain ⟨t, hloop, hrep, hcontent⟩ := chunkLoop_appends (new_rep b h heap) rfl (.inr (Nat.sub_zero _)) s.unread
  have hempty : (new b h heap).content = [] := List.take_zero ..
  rw [hempty, List.nil_append] at hcontent
  obtain ⟨u, hseek, hu, -, -, -, hpos, hsize, hchain⟩ := setPostion_ok hrep (Nat.zero_le _)
  rw [Nat.max_eq_left (Nat.zero_le _)] at hsize
  have hunread : u.unread = s.unread := by
    rw [unread, hpos, List.drop_zero, content, hchain, hsize]
    exact hcontent
  have hlen := content_length hu
  have hlen' := unread_length hs
  have hsame : u.content = u.unread := by rw [unread, hpos, List.drop_zero]
  refine ⟨t, u, by rw [readFromFile, hloop, Option.map_some], hseek, ?_⟩
  rw [toString_spec hs hz, toString_spec hu (by rw [← hlen, hsame, hunread]; omega), hunread]

/-! ## The whole dump -/

theorem dumps_of_dumpable (hs : Rep s) (hz : s.size < 2 ^ 64) (h : Dumpable s) : DumpsStorage s := by
  have hp := hs.position_le
  have hc := hs.size_le
  obtain ⟨es, hdump, hcovers⟩ := dump_covers hs h
  have hread := readable_of_covers hs hcovers (by omega)
  have hroom : s.position + (s.size - s.position) ≤ s.baseSize * s.memory.length := by
    rw [memory_length, ← hs.capacity]
    omega
  have hbytes : gathered s.memory es = s.unread := by
    rw [hread.contents, slice, unread, List.take_of_length_le (by rw [List.length_drop, content_length hs])]
  refine ⟨⟨_, hdump, ?_, ?_, readFromFile_back hs hz⟩, es, hcovers, hdump⟩
  · intro w hw
    obtain ⟨e, he, rfl⟩ := List.mem_map.mp hw
    exact Int.natCast_pos.mpr (hread.nonempty e he)
  · rw [written_extents (memory_blocks hs) hcovers hroom, hbytes]

theorem written_offsets {blocks : List (List UInt8)} {ws : List Written} {bytes : List UInt8}
    (h : written blocks ws = some bytes) : ∀ w ∈ ws, 0 ≤ w.offset := by
  induction ws generalizing bytes with
  | nil => intro w hw; cases hw
  | cons w ws ih =>
    rw [written] at h
    split at h
    · next hin =>
      obtain ⟨rest, hrest, -⟩ := Option.map_eq_some_iff.mp h
      exact List.forall_mem_cons.mpr ⟨hin.1, ih hrest⟩
    · cases h

/-- The writes are, in order, the storage of `[p, p + n)`, or the blocks are small enough for a
    wrong offset to be negative. -/
def InPlace (b : Nat) (ws : List Written) (p n : Nat) : Prop :=
  b ≤ 2 ^ 32 ∨ ∃ es, Covers b es p n ∧ ws = es.map Written.ofExtent

theorem InPlace.head {q p n : Nat} {len : Int} {ws : List Written} (h : InPlace b (⟨k, toInt q, len⟩ :: ws) p n)
    (hq : q < b) (h0 : 0 ≤ toInt q) :
    (toInt q = q ∨ (b * k : Nat) + toInt q = p) ∧ InPlace b ws (p + len.toNat) (n - len.toNat) := by
  rcases h with hsmall | ⟨es, hcovers, hes⟩
  · exact ⟨.inl (toInt_nonneg (Int.natCast_nonneg q) (by omega) h0), .inl hsmall⟩
  · cases es with
    | nil => cases hes
    | cons e es =>
      obtain ⟨he, hws⟩ := List.cons.inj hes
      obtain ⟨-, -, hp, -, hrest⟩ := hcovers
      simp only [Written.ofExtent, Written.mk.injEq] at he
      obtain ⟨hblock, hoffset, hlength⟩ := he
      refine ⟨.inr ?_, .inr ⟨es, ?_, hws⟩⟩
      · rw [hoffset, hblock, ← hp, Nat.cast_add]
      · rw [hlength, Int.toNat_natCast]
        exact hrest

/-- A write that begins `r` bytes into its block and ends `d` bytes into it is followed by one that
    begins `d` bytes into the next block, with `r` bytes to write. -/
theorem second_write_misplaced {p r d : Nat} {ws : List Written} (hp : b * k + r = p) (hr : 0 < r) (hrd : r < d)
    (hd : d < b) (hloop : dumpLoop b ns (k + 1) ((p : Int) + ((d : Int) - r)) r = some ws)
    (hpos : ∀ w ∈ ws, 0 < w.length) (hoff : ∀ w ∈ ws, 0 ≤ w.offset) : ¬ InPlace b ws (p + (d - r)) r := by
  intro hplace
  have hmore : (0 : Int) < r := by omega
  have hless : ¬ (b : Int) < r := by omega
  have hat : ((p : Int) + (d - r)) % b = d := by
    have hsum : (p : Int) + (d - r) = ((b * k + d : Nat) : Int) := by omega
    rw [hsum, offset_cast, Nat.mul_add_mod, Nat.mod_eq_of_lt hd]
  cases ns with
  | nil => simp only [dumpLoop, hmore, if_true, reduceCtorEq] at hloop
  | cons m ms =>
    rw [dumpLoop_turn hmore rfl rfl, hat, if_neg hless] at hloop
    obtain ⟨last, -, rfl⟩ := Option.map_eq_some_iff.mp hloop
    obtain ⟨hoff, -⟩ := List.forall_mem_cons.mp hoff
    obtain ⟨hpos, -⟩ := List.forall_mem_cons.mp hpos
    simp only at hoff hpos
    obtain ⟨hsecond, -⟩ := hplace.head hd hoff
    rw [Nat.mul_succ] at hsecond
    generalize toInt d = q at *
    omega

/-- Where the writes are those of the storage, the first one reaches its block's end. -/
theorem dumpable_of_writes (hs : Rep s) {ws : List Written} (h : s.writeToFile true = some (true, ws))
    (hpos : ∀ w ∈ ws, 0 < w.length) (hoff : ∀ w ∈ ws, 0 ≤ w.offset)
    (hplace : InPlace s.baseSize ws s.position (s.size - s.position)) : Dumpable s := by
  have hp := hs.position_le
  have hz := hs.size_le
  by_cases hend : s.position = s.size
  · exact .inl hend
  · have hcap : s.position < s.capacity := by omega
    obtain ⟨-, hi, hdm, hmod⟩ := cur_split hs hcap
    have hloop : dumpLoop s.baseSize (s.chain.drop (s.position / s.baseSize)) (s.position / s.baseSize) s.position
        (s.size - s.position : Nat) = some ws := by
      simp only [writeToFile, Bool.true_eq_false, if_false, fromCur_inside hs hcap] at h
      obtain ⟨ws', hloop, he⟩ := Option.map_eq_some_iff.mp h
      have hsame : ws' = ws := congrArg Prod.snd he
      rw [← hsame]
      exact hloop
    generalize s.position / s.baseSize = k at *
    generalize hr : s.position % s.baseSize = r at *
    generalize hd : s.size - s.position = d at *
    cases hdrop : s.chain.drop k with
    | nil => exact absurd hdrop (drop_ne_nil hi)
    | cons n ns =>
      rw [hdrop, dumpLoop_turn (by omega) rfl rfl, offset_cast, hr] at hloop
      obtain ⟨rest, hrest, rfl⟩ := Option.map_eq_some_iff.mp hloop
      obtain ⟨hoff1, hoff⟩ := List.forall_mem_cons.mp hoff
      obtain ⟨hpos1, hpos⟩ := List.forall_mem_cons.mp hpos
      simp only at hoff1 hpos1
      obtain ⟨hfirst, hplace⟩ := hplace.head hmod hoff1
      have hoffset : toInt r = r := by
        rcases hfirst with hfirst | hfirst
        · exact hfirst
        · rw [← hdm, Nat.cast_add] at hfirst
          exact Int.add_left_cancel hfirst
      rw [Dumpable, hr, hd]
      refine .inr ⟨Int.ofNat_lt.mp (hoffset ▸ toInt_lt r), ?_⟩
      rw [hoffset] at hrest hplace hpos1
      clear hoffset hfirst
      by_contra hbad
      rw [if_neg (by omega)] at hrest hplace hpos1
      have hleft : (d : Int) - (d - r) = r := by omega
      have hlength : ((d : Int) - r).toNat = d - r := by omega
      have hbehind : d - (d - r) = r := by omega
      rw [hleft] at hrest
      rw [hlength, hbehind] at hplace
      exact second_write_misplaced hdm (by omega) (by omega) (by omega) hrest hpos hoff hplace

/-- The writes are the storage behind the cursor exactly in a dumpable state; with blocks of up
    to 2^32 bytes no other file has the right bytes either. `m_size` is a `size_t`. -/
theorem writeToFile_iff (hs : Rep s) (hz : s.size < 2 ^ 64) :
    (DumpsStorage s ↔ Dumpable s) ∧ (s.baseSize ≤ 2 ^ 32 → (Dumps s ↔ Dumpable s)) := by
  have hright := dumps_of_dumpable hs hz
  constructor
  · refine ⟨fun h => ?_, hright⟩
    obtain ⟨⟨ws, hdump, hpos, hbytes, -⟩, es, hcovers, hes⟩ := h
    have hws : ws = es.map Written.ofExtent := congrArg Prod.snd (Option.some.inj (hdump.symm.trans hes))
    exact dumpable_of_writes hs hdump hpos (written_offsets hbytes) (.inr ⟨es, hcovers, hws⟩)
  · intro hsmall
    refine ⟨fun h => ?_, fun h => (hright h).1⟩
    obtain ⟨ws, hdump, hpos, hbytes, -⟩ := h
    exact dumpable_of_writes hs hdump hpos (written_offsets hbytes) (.inl hsmall)

/-- Eight bytes in blocks of 4, dumped from the third on. -/
theorem writeToFile_iff_block : ∃ s, Reach 4 s ∧ DumpsStorage s :=
  have hreach : Reach 4 _ := .step (.seek 2) .done (.step (.write [1, 2, 3, 4, 5, 6, 7, 8]) .done
    (.init (by decide) fun _ => 0) rfl) rfl
  ⟨_, hreach, (writeToFile_iff (reach_rep hreach).1 (by decide)).1.mpr (by decide)⟩

/-- A block of 4 that is full, dumped from the second byte on: two bytes are written, and the
    third is looked for in the next block. -/
theorem dump_behind_the_start : ∃ s, Reach 4 s ∧ ¬ Dumps s := by
  have hreach : Reach 4 _ := .step (.seek 1) .done (.step (.write [1, 2, 3, 4]) .done
    (.init (by decide) fun _ => 0) rfl) rfl
  refine ⟨_, hreach, fun h => ?_⟩
  obtain ⟨ws, hdump, -⟩ := h
  cases hdump

end LjrServer.ByteArray
