/-
  LjrServer.ByteArray.Scatter — writing without moving the cursor (bytearray.cpp:
  `getWriteBuffers`; socket_stream.cpp: `read` into a `ByteArray`).

  The loop of `getWriteBuffers` counts down what is left but compares the block's room with
  the whole length. A length of at most one block ends in the first or the second block. A
  longer one takes whole blocks only: the count must come out even, and the loop looks at the
  block after the last one before it sees that. An uneven count wraps.

  Proved:
  - `scatters_iff`: where `addCapacity` made room, the buffers are the storage behind the
    cursor, and what a socket receives into them is the data there, exactly when the length
    is at most a block, or ends with a block that was there and is not the last.
  - `two_blocks_overrun`: six bytes in blocks of 4.
-/

import LjrServer.ByteArray.Gather

namespace LjrServer.ByteArray

open LjrServer.Lib

/-- `size` is the whole length, `len` what is left of it; `cur` is block `k`. -/
def scatterLoop (size : Nat) : List Node → Nat → Nat → UInt64 → Option (List Extent)
  | [], _, _, _ => none
  | n :: ns, k, npos, len =>
    let ncap := n.size - npos
    if len = 0 then some []
    else if size ≤ ncap then some [⟨k, npos, len.toNat⟩]
    else (scatterLoop size ns (k + 1) 0 (len - .ofNat ncap)).map (⟨k, npos, ncap⟩ :: ·)

def getWriteBuffers (s : ByteArray) (buffers : List Extent) (len : UInt64) :
    Option (UInt64 × List Extent × ByteArray) :=
  if len = 0 then some (0, buffers, s)
  else
    let s := s.addCapacity len.toNat
    s.cur.bind fun i =>
      (scatterLoop len.toNat (s.chain.drop i) i (s.position % s.baseSize) len).map fun iovs => (len, buffers ++ iovs, s)

/-- `recvmsg` stores what it received into the iovecs, one after another. -/
def fill (s : ByteArray) (iovs : List Extent) (bytes : List UInt8) : ByteArray :=
  { s with chain := (scattered s.memory iovs bytes).map Node.mk }

/-- What a socket received: the count it returns and the bytes. -/
structure Received where
  rt : Int32
  bytes : List UInt8

/-- `SocketStream::read(ba, length)`; `recv` is the socket's answer to the iovecs. -/
def SocketStream.read (isConnected : Bool) (recv : List Extent → Received) (ba : ByteArray) (length : UInt64) :
    Option (Except OutOfRange Int32 × ByteArray) :=
  if isConnected = false then some (.ok (-1), ba)
  else
    (ba.getWriteBuffers [] length).bind fun r =>
      let iovs := r.2.1
      let received := recv iovs
      let ba := r.2.2.fill iovs received.bytes
      if 0 < received.rt then
        (ba.setPostion (ba.position + received.rt.toInt.toNat)).map fun q => (q.1.map fun _ => received.rt, q.2)
      else some (.ok received.rt, ba)

/-- The buffers are the storage of `[m_position, m_position + len)`, and data a socket puts
    there is found there once the cursor is moved over it. -/
structure Scatters (s : ByteArray) (len : UInt64) : Prop where
  storage : ∀ buffers, ∃ iovs t, s.getWriteBuffers buffers len = some (len, buffers ++ iovs, t) ∧
    (iovs.map Extent.length).sum = len.toNat ∧ Covers s.baseSize iovs s.position len.toNat ∧
    t.position = s.position ∧ t.size = s.size
  received : ∀ (rt : Int32) (bytes : List UInt8), 0 < rt → bytes.length = rt.toInt.toNat → bytes.length ≤ len.toNat →
    ∃ u, SocketStream.read true (fun _ => ⟨rt, bytes⟩) s len = some (.ok rt, u) ∧
      u.position = s.position + bytes.length ∧ slice u.content s.position bytes.length = bytes

/-- The length is at most a block, or ends with a block that is there and not the last. -/
def EndsInBlocks (s : ByteArray) (len : Nat) : Prop :=
  len ≤ s.baseSize ∨ (s.position + len) % s.baseSize = 0 ∧ s.position + len < s.capacity

instance (s : ByteArray) (len : Nat) : Decidable (EndsInBlocks s len) := by unfold EndsInBlocks; infer_instance

variable {s : ByteArray} {b size k npos : Nat} {ns : List Node} {len : UInt64} {iovs : List Extent}

/-! ## The loop -/

theorem sub_ofNat_toNat {n : Nat} (h : n ≤ len.toNat) : (len - .ofNat n).toNat = len.toNat - n := by
  have hlt : len.toNat < 2 ^ 64 := len.toNat_lt
  have hn : (UInt64.ofNat n).toNat = n := by rw [UInt64.toNat_ofNat', Nat.mod_eq_of_lt (by omega)]
  rw [UInt64.toNat_sub_of_le _ _ (UInt64.le_iff_toNat_le.mpr (by omega)), hn]

theorem ne_zero_iff_toNat : len ≠ 0 ↔ len.toNat ≠ 0 := by
  rw [ne_eq, ne_eq, ← UInt64.toNat_inj]
  rfl

theorem scatterLoop_fits {n : Node} (hsize : size ≤ n.size - npos) (hlen : len.toNat ≠ 0) :
    scatterLoop size (n :: ns) k npos len = some [⟨k, npos, len.toNat⟩] := by
  simp only [scatterLoop, ne_zero_iff_toNat.mpr hlen, if_false, hsize, if_true]

theorem scatterLoop_next {n : Node} (hsize : ¬ size ≤ n.size - npos) (hlen : len.toNat ≠ 0) :
    scatterLoop size (n :: ns) k npos len =
      (scatterLoop size ns (k + 1) 0 (len - .ofNat (n.size - npos))).map (⟨k, npos, n.size - npos⟩ :: ·) := by
  simp only [scatterLoop, ne_zero_iff_toNat.mpr hlen, if_false, hsize]

/-- The piece of a whole rest of a block, and what covers the range after it. -/
theorem covers_next {n : Nat} (hpos : npos < b) (hle : b - npos ≤ n) (h : Covers b iovs (b * (k + 1) + 0) (n - (b - npos))) :
    Covers b (⟨k, npos, b - npos⟩ :: iovs) (b * k + npos) n := by
  have hnext : b * (k + 1) + 0 = b * k + npos + (b - npos) := by
    rw [Nat.mul_succ]
    omega
  rw [hnext] at h
  exact ⟨by simp only; omega, by simp only; omega, rfl, hle, h⟩

/-- A length of at most a block ends in the first block or in the next. -/
theorem scatterLoop_short (hfull : Full b ns) (hpos : npos < b) (hsize : len.toNat ≤ b) (hlen : len.toNat ≠ 0)
    (hroom : npos + len.toNat ≤ b * ns.length) :
    ∃ iovs, scatterLoop len.toNat ns k npos len = some iovs ∧ Covers b iovs (b * k + npos) len.toNat := by
  cases ns with
  | nil => rw [List.length_nil] at hroom; omega
  | cons n ns =>
    obtain ⟨hn, hns⟩ := full_cons.mp hfull
    rw [List.length_cons, Nat.mul_succ] at hroom
    by_cases hfit : len.toNat ≤ b - npos
    · refine ⟨_, scatterLoop_fits (by rw [hn]; exact hfit) hlen, ?_⟩
      exact ⟨Nat.pos_of_ne_zero hlen, by simp only; omega, rfl, Nat.le_refl _, Nat.sub_self _⟩
    · cases ns with
      | nil => rw [List.length_nil] at hroom; omega
      | cons m ms =>
        obtain ⟨hm, -⟩ := full_cons.mp hns
        have hrest : (len - .ofNat (b - npos)).toNat = len.toNat - (b - npos) := sub_ofNat_toNat (by omega)
        refine ⟨[⟨k, npos, b - npos⟩, ⟨k + 1, 0, len.toNat - (b - npos)⟩], ?_, covers_next hpos (by omega) ?_⟩
        · rw [scatterLoop_next (by rw [hn]; exact hfit) hlen, hn,
            scatterLoop_fits (by rw [hm]; exact hsize) (by rw [hrest]; omega), hrest, Option.map_some]
        · exact ⟨by simp only; omega, by simp only; omega, rfl, Nat.le_refl _, Nat.sub_self _⟩

/-- A longer one is right where it is whole blocks and another block follows them. -/
theorem scatterLoop_whole {m : Nat} (hfull : Full b ns) (hpos : npos < b) (hsize : b < size)
    (heven : npos + len.toNat = b * m) (hm : m < ns.length) :
    ∃ iovs, scatterLoop size ns k npos len = some iovs ∧ Covers b iovs (b * k + npos) len.toNat := by
  induction ns generalizing k npos len m with
  | nil => cases hm
  | cons n ns ih =>
    obtain ⟨hn, hns⟩ := full_cons.mp hfull
    by_cases h0 : len.toNat = 0
    · have hzero : len = 0 := UInt64.toNat_inj.mp h0
      exact ⟨[], by simp only [scatterLoop, hzero, if_true], h0⟩
    · cases m with
      | zero => omega
      | succ m =>
        rw [Nat.mul_succ] at heven
        rw [List.length_cons] at hm
        have hle : b - npos ≤ len.toNat := by omega
        have hrest := sub_ofNat_toNat hle
        obtain ⟨iovs, hloop, hcovers⟩ := ih (k := k + 1) (m := m) hns (show 0 < b by omega)
          (show 0 + (len - .ofNat (b - npos)).toNat = b * m by omega) (by omega)
        rw [hrest] at hcovers
        exact ⟨_, by rw [scatterLoop_next (by omega) h0, hn, hloop, Option.map_some], covers_next hpos hle hcovers⟩

/-- Whatever a longer one returns is whole blocks, and another block follows them. -/
theorem scatterLoop_blocks (hfull : Full b ns) (hpos : npos < b) (hsize : b < size)
    (h : scatterLoop size ns k npos len = some iovs) :
    iovs.length < ns.length ∧ (iovs = [] ∨ npos + (iovs.map Extent.length).sum = b * iovs.length) := by
  induction ns generalizing k npos len iovs with
  | nil => cases h
  | cons n ns ih =>
    obtain ⟨hn, hns⟩ := full_cons.mp hfull
    by_cases h0 : len.toNat = 0
    · have hzero : len = 0 := UInt64.toNat_inj.mp h0
      simp only [scatterLoop, hzero, if_true, Option.some.injEq] at h
      subst h
      exact ⟨Nat.succ_pos _, .inl rfl⟩
    · rw [scatterLoop_next (by omega) h0] at h
      obtain ⟨rest, hrest, rfl⟩ := Option.map_eq_some_iff.mp h
      obtain ⟨hlt, hsum⟩ := ih hns (by omega) hrest
      refine ⟨Nat.succ_lt_succ hlt, .inr ?_⟩
      rw [List.map_cons, List.sum_cons, List.length_cons, Nat.mul_succ]
      rcases hsum with hnil | hsum
      · rw [hnil, List.map_nil, List.sum_nil, List.length_nil, Nat.mul_zero]
        simp only
        omega
      · simp only
        omega

/-! ## Room -/

/-- A length that ends with a block is never given more than it needs. -/
theorem addCapacity_even (hs : Rep s) {n : Nat} (heven : (s.position + n) % s.baseSize = 0)
    (hlt : s.position + n < (s.addCapacity n).capacity) : s.position + n < s.capacity := by
  have hb := s.baseSize_pos
  have hp := hs.position_le
  have hz := hs.size_le
  by_contra hge
  rw [addCapacity_capacity hs] at hlt
  obtain ⟨m, hm⟩ := Nat.dvd_of_mod_eq_zero heven
  have hmore : s.position + n - s.capacity = s.baseSize * (m - s.chain.length) := by
    rw [hm, hs.capacity, Nat.mul_sub]
  by_cases hfit : n ≤ s.getCapacity
  · rw [addedBlocks, if_pos hfit] at hlt
    omega
  · have hneed : n - s.getCapacity = s.baseSize * (m - s.chain.length) := by
      rw [← hmore]
      unfold getCapacity
      omega
    rw [addedBlocks, if_neg hfit, hneed, Nat.mul_mod_right, Nat.mul_div_cancel_left _ hb, if_neg (Nat.not_lt_zero _),
      Nat.add_zero, ← hmore] at hlt
    omega

theorem addCapacity_fits {n : Nat} (h : n ≤ s.getCapacity) : s.addCapacity n = s := by
  unfold addCapacity
  split
  · rfl
  · rw [if_pos h]

/-! ## The buffers -/

theorem fill_spec (hs : Rep s) {p n : Nat} {bytes : List UInt8} (hcovers : Covers s.baseSize iovs p n)
    (hroom : p + n ≤ s.capacity) (hbytes : bytes.length ≤ n) :
    Rep (s.fill iovs bytes) ∧ flatten (s.fill iovs bytes).chain = splice (flatten s.chain) p bytes := by
  obtain ⟨hflat, hblocks, hlength⟩ := covers_scattered (memory_blocks hs) hcovers
    (by rw [memory_length, ← hs.capacity]; exact hroom) hbytes
  have hmap : ((scattered s.memory iovs bytes).map Node.mk).map (·.ptr) = scattered s.memory iovs bytes := by
    rw [List.map_map]
    exact List.map_id _
  refine ⟨⟨?_, ?_, ?_, hs.position_le, hs.size_le, hs.cur⟩, ?_⟩
  · intro m hm
    obtain ⟨x, hx, rfl⟩ := List.mem_map.mp hm
    exact hblocks x hx
  · show s.capacity = s.baseSize * ((scattered s.memory iovs bytes).map Node.mk).length
    rw [List.length_map, hlength, memory_length, ← hs.capacity]
  · apply List.ne_nil_of_length_pos
    show 0 < ((scattered s.memory iovs bytes).map Node.mk).length
    rw [List.length_map, hlength, memory_length]
    exact List.length_pos_iff.mpr hs.root
  · show (((scattered s.memory iovs bytes).map Node.mk).map (·.ptr)).flatten = _
    rw [hmap, hflat, memory_flatten]

/-- The loop's result is the call's, whatever buffers there were before. -/
theorem getWriteBuffers_eq (hs : Rep s) (hlen : len.toNat ≠ 0) (hroom : len.toNat ≤ (s.addCapacity len.toNat).getCapacity)
    (buffers : List Extent) :
    s.getWriteBuffers buffers len = (scatterLoop len.toNat ((s.addCapacity len.toNat).chain.drop (s.position / s.baseSize))
      (s.position / s.baseSize) (s.position % s.baseSize) len).map
        fun iovs => (len, buffers ++ iovs, s.addCapacity len.toNat) := by
  have ht := addCapacity_rep hs len.toNat
  have hcap : (s.addCapacity len.toNat).position < (s.addCapacity len.toNat).capacity := by
    unfold getCapacity at hroom
    omega
  obtain ⟨hcur, -, -, -⟩ := cur_split ht hcap
  rw [addCapacity_position hs, addCapacity_baseSize hs] at hcur
  simp only [getWriteBuffers, ne_zero_iff_toNat.mpr hlen, if_false, hcur, Option.bind_some, addCapacity_position hs,
    addCapacity_baseSize hs]

theorem getWriteBuffers_covers (hs : Rep s) (hlen : len.toNat ≠ 0)
    (hroom : len.toNat ≤ (s.addCapacity len.toNat).getCapacity) (h : EndsInBlocks s len.toNat) :
    ∃ iovs, (∀ buffers, s.getWriteBuffers buffers len = some (len, buffers ++ iovs, s.addCapacity len.toNat)) ∧
      Covers s.baseSize iovs s.position len.toNat := by
  have ht := addCapacity_rep hs len.toNat
  have hbase := addCapacity_baseSize hs len.toNat
  have hposition := addCapacity_position hs len.toNat
  have heq := getWriteBuffers_eq hs hlen hroom
  have hb := s.baseSize_pos
  have hdm := Nat.div_add_mod s.position s.baseSize
  have hmod := Nat.mod_lt s.position hb
  have hfull := full_drop (k := s.position / s.baseSize) ht.blocks
  have hblocks : s.baseSize * ((s.addCapacity len.toNat).chain.drop (s.position / s.baseSize)).length =
      (s.addCapacity len.toNat).capacity - s.baseSize * (s.position / s.baseSize) := by
    rw [List.length_drop, Nat.mul_sub, ht.capacity, hbase]
  rw [hbase] at hfull
  unfold getCapacity at hroom
  rw [hposition] at hroom
  have hloop : ∃ iovs, scatterLoop len.toNat ((s.addCapacity len.toNat).chain.drop (s.position / s.baseSize))
      (s.position / s.baseSize) (s.position % s.baseSize) len = some iovs ∧
        Covers s.baseSize iovs (s.baseSize * (s.position / s.baseSize) + s.position % s.baseSize) len.toNat := by
    by_cases hsize : len.toNat ≤ s.baseSize
    · exact scatterLoop_short hfull hmod hsize hlen (by omega)
    · rcases h with h | ⟨heven, hlt⟩
      · exact absurd h hsize
      · rw [addCapacity_fits (by unfold getCapacity; omega)] at hfull hblocks ⊢
        obtain ⟨m, hm⟩ := Nat.dvd_of_mod_eq_zero heven
        have hmul : s.position % s.baseSize + len.toNat = s.baseSize * (m - s.position / s.baseSize) := by
          rw [Nat.mul_sub, ← hm]
          omega
        refine scatterLoop_whole hfull hmod (by omega) hmul ?_
        apply Nat.lt_of_mul_lt_mul_left (a := s.baseSize)
        rw [← hmul, hblocks]
        omega
  obtain ⟨iovs, hsome, hcovers⟩ := hloop
  rw [hdm] at hcovers
  exact ⟨iovs, fun buffers => by rw [heq, hsome, Option.map_some], hcovers⟩

theorem scatters_of_covers (hs : Rep s) (hroom : len.toNat ≤ (s.addCapacity len.toNat).getCapacity)
    (h : ∀ buffers, s.getWriteBuffers buffers len = some (len, buffers ++ iovs, s.addCapacity len.toNat))
    (hcovers : Covers s.baseSize iovs s.position len.toNat) : Scatters s len := by
  have ht := addCapacity_rep hs len.toNat
  have hbase := addCapacity_baseSize hs len.toNat
  have hposition := addCapacity_position hs len.toNat
  refine ⟨fun buffers => ⟨iovs, _, h buffers, (covers_lengths hcovers).2, hcovers, hposition, addCapacity_size hs _⟩, ?_⟩
  intro rt bytes hrt hbytes hle
  unfold getCapacity at hroom
  generalize s.addCapacity len.toNat = t at *
  have hp := ht.position_le
  have hz := ht.size_le
  rw [← hbase, ← hposition] at hcovers
  obtain ⟨hrep, hflat⟩ := fill_spec ht hcovers (by omega) hle
  -- moving the cursor over the data puts it inside the contents
  obtain ⟨u, hseek, hu, -, -, -, hpos, hsize, hchain⟩ := setPostion_ok hrep (v := t.position + bytes.length)
    (show _ ≤ t.capacity by omega)
  have hstore := flatten_length ht.blocks
  rw [← ht.capacity] at hstore
  refine ⟨u, ?_, by rw [hpos, hposition], ?_⟩
  · have hread : (t.fill iovs bytes).setPostion ((t.fill iovs bytes).position + rt.toInt.toNat) = some (.ok (), u) := by
      rw [← hbytes]
      exact hseek
    simp only [SocketStream.read, Bool.true_eq_false, if_false, h, Option.bind_some, List.nil_append, hrt, if_true, hread,
      Option.map_some]
    rfl
  · have hin : s.position + bytes.length ≤ u.size := by
      rw [hsize, hposition]
      exact Nat.le_max_right _ _
    rw [slice_content hin, hchain, hflat, hposition]
    exact slice_splice (by omega)

/-- For every length `addCapacity` provides. -/
theorem scatters_iff (hs : Rep s) (hlen : 1 ≤ len.toNat) (hroom : len.toNat ≤ (s.addCapacity len.toNat).getCapacity) :
    Scatters s len ↔ EndsInBlocks s len.toNat := by
  constructor
  · intro h
    by_cases hsize : len.toNat ≤ s.baseSize
    · exact .inl hsize
    · obtain ⟨iovs, t, hget, hsum, -⟩ := h.storage []
      rw [getWriteBuffers_eq hs (by omega) hroom, List.nil_append] at hget
      obtain ⟨iovs', hloop, he⟩ := Option.map_eq_some_iff.mp hget
      have hsame : iovs' = iovs := congrArg (·.2.1) he
      have ht := addCapacity_rep hs len.toNat
      have hbase := addCapacity_baseSize hs len.toNat
      have hfull := full_drop (k := s.position / s.baseSize) ht.blocks
      have hdm := Nat.div_add_mod s.position s.baseSize
      have hcapacity := ht.capacity
      rw [hbase] at hfull hcapacity
      rw [hsame] at hloop
      obtain ⟨hlt, hblocks⟩ := scatterLoop_blocks hfull (Nat.mod_lt _ s.baseSize_pos) (by omega) hloop
      rcases hblocks with hnil | hblocks
      · rw [hnil, List.map_nil, List.sum_nil] at hsum
        omega
      · have htotal : s.position + len.toNat = s.baseSize * (s.position / s.baseSize + iovs.length) := by
          rw [Nat.mul_add, ← hblocks, hsum]
          omega
        have heven : (s.position + len.toNat) % s.baseSize = 0 := by rw [htotal, Nat.mul_mod_right]
        refine .inr ⟨heven, addCapacity_even hs heven ?_⟩
        rw [htotal, hcapacity]
        apply Nat.mul_lt_mul_of_pos_left _ s.baseSize_pos
        rw [List.length_drop] at hlt
        omega
  · intro h
    obtain ⟨iovs, hget, hcovers⟩ := getWriteBuffers_covers hs (by omega) hroom h
    exact scatters_of_covers hs hroom hget hcovers

/-- Three bytes in blocks of 4, from an offset from which they take two blocks. -/
theorem scatters_iff_short : ∃ s, Reach 4 s ∧ Scatters s 3 :=
  have hreach : Reach 4 _ := .step (.seek 2) .done (.step (.write [1, 2, 3, 4, 5, 6, 7, 8]) .done
    (.init (by decide) fun _ => 0) rfl) rfl
  ⟨_, hreach, (scatters_iff (reach_rep hreach).1 (by decide) (by decide)).mpr (by decide)⟩

/-- Blocks of 4, twelve bytes, and buffers for six at the start: the third block is taken for
    the last two, and the loop goes on past it. -/
theorem two_blocks_overrun : ∃ s, Reach 4 s ∧ 6 ≤ (s.addCapacity 6).getCapacity ∧ ¬ Scatters s 6 := by
  have hreach : Reach 4 _ := .step (.seek 0) .done (.step (.write [1, 2, 3, 4, 5, 6, 7, 8, 9, 10, 11, 12]) .done
    (.init (by decide) fun _ => 0) rfl) rfl
  refine ⟨_, hreach, by decide, fun h => ?_⟩
  obtain ⟨iovs, t, hget, -⟩ := h.storage []
  cases hget

end LjrServer.ByteArray
