/-
  LjrServer.ByteArray.RoundTrip — what the readers get back from what the writers wrote.

  Each writer appends the bytes `Value.bytes` says at the cursor (`Wrote`), each reader
  takes them off again (`Skipped`); a stream is an induction over its items.

  Proved:
  - `stream_round_trip`: fixed-width values, floats, doubles and 32-bit varints, in any
    order and under any byte order choices, read back as written, and a fixed-width value
    is stored big-endian unless `isLittleEndian`.
  - `varint64_round_trip_iff`: 64-bit varints read back exactly while every `uint64_t` is
    below 2^35 and every `int64_t` is in [0, 2^34): the reader stops after five bytes, and
    `EncodeZigzag64` never sees a negative number.
-/

import LjrServer.ByteArray.Codec
import LjrServer.ByteArray.Refinement

namespace LjrServer.ByteArray

open LjrServer.Lib

/-! ## Calls -/

/-- The call returns `a` and leaves `s'`: it neither throws nor crashes. -/
def Returns {α : Type} (c : Call α) (s : ByteArray) (a : α) (s' : ByteArray) : Prop := c s = some (.ok a, s')

theorem bind_apply {α β : Type} (c : Call α) (f : α → Call β) (s : ByteArray) :
    (c >>= f) s = (c s).bind fun r => match r with
      | (.ok a, t) => f a t
      | (.error e, t) => some (.error e, t) := by
  show (ExceptT.bind c f) s = _
  unfold ExceptT.bind ExceptT.mk
  show (StateT.bind c _) s = _
  unfold StateT.bind
  show Option.bind _ _ = _
  congr 1
  funext ⟨r, t⟩
  cases r <;> rfl

section
variable {α β : Type} {c : Call α} {f : α → Call β} {s t u : ByteArray} {a : α} {b : β}

theorem Returns.pure (a : α) (s : ByteArray) : Returns (Pure.pure a : Call α) s a s := rfl

theorem Returns.bind (h : Returns c s a t) (h' : Returns (f a) t b u) : Returns (c >>= f) s b u := by
  unfold Returns at h h' ⊢
  rw [bind_apply, h]
  exact h'

/-- A sequence returns through its first call. -/
theorem Returns.inv (h : Returns (c >>= f) s b u) : ∃ a t, Returns c s a t ∧ Returns (f a) t b u := by
  unfold Returns at h
  rw [bind_apply] at h
  obtain ⟨⟨r, t⟩, hc, hf⟩ := Option.bind_eq_some_iff.mp h
  cases r with
  | ok a => exact ⟨a, t, hc, hf⟩
  | error e => cases hf

theorem Returns.unique {a' : α} {t' : ByteArray} (h : Returns c s a t) (h' : Returns c s a' t') : a = a' ∧ t = t' := by
  unfold Returns at h h'
  rw [h] at h'
  cases h'
  exact ⟨rfl, rfl⟩

end

/-! ## Raw bytes -/

/-- `s'` is `s` with `bs` written at the cursor into room that was there. -/
structure Wrote (s : ByteArray) (bs : List UInt8) (s' : ByteArray) : Prop where
  rep : Rep s'
  capacity : s'.capacity = s.capacity
  position : s'.position = s.position + bs.length
  size : s'.size = max s.size (s.position + bs.length)
  content : s'.content = splice s.content s.position bs

/-- `s'` is `s` with the cursor moved over `n` bytes of data. -/
structure Skipped (s : ByteArray) (n : Nat) (s' : ByteArray) : Prop where
  rep : Rep s'
  capacity : s'.capacity = s.capacity
  position : s'.position = s.position + n
  size : s'.size = s.size
  content : s'.content = s.content

/-- The data from the cursor on. -/
def unread (s : ByteArray) : List UInt8 := s.content.drop s.position

theorem Wrote.refl {s : ByteArray} (hs : Rep s) : Wrote s [] s :=
  ⟨hs, rfl, rfl, by have := hs.position_le; simp only [List.length_nil]; omega, by simp [splice]⟩

theorem Wrote.trans {s t u : ByteArray} {bs cs : List UInt8} (hs : Rep s) (h : Wrote s bs t) (h' : Wrote t cs u) :
    Wrote s (bs ++ cs) u := by
  have hl := content_length hs
  have hp := hs.position_le
  refine ⟨h'.rep, h'.capacity.trans h.capacity, ?_, ?_, ?_⟩
  · rw [h'.position, h.position, List.length_append]; omega
  · rw [h'.size, h.size, h.position, List.length_append]; omega
  · -- the second write starts where the first ended
    rw [h'.content, h.content, h.position, splice_splice (by omega)]

/-- `s'` is `s` with `bs` written at the cursor, and blocks added if they were needed. -/
structure Put (s : ByteArray) (bs : List UInt8) (s' : ByteArray) : Prop where
  rep : Rep s'
  endian : s'.endian = s.endian
  position : s'.position = s.position + bs.length
  size : s'.size = max s.size (s.position + bs.length)
  content : s'.content = splice s.content s.position bs

theorem Put.refl {s : ByteArray} (hs : Rep s) : Put s [] s :=
  ⟨hs, rfl, rfl, by have := hs.position_le; simp only [List.length_nil]; omega, by simp [splice]⟩

theorem Put.trans {s t u : ByteArray} {bs cs : List UInt8} (hs : Rep s) (h : Put s bs t) (h' : Put t cs u) :
    Put s (bs ++ cs) u := by
  have hl := content_length hs
  have hp := hs.position_le
  refine ⟨h'.rep, h'.endian.trans h.endian, ?_, ?_, ?_⟩
  · rw [h'.position, h.position, List.length_append]; omega
  · rw [h'.size, h.size, h.position, List.length_append]; omega
  · rw [h'.content, h.content, h.position, splice_splice (by omega)]

theorem Skipped.refl {s : ByteArray} (hs : Rep s) : Skipped s 0 s := ⟨hs, rfl, rfl, rfl, rfl⟩

theorem Skipped.trans {s t u : ByteArray} {n m : Nat} (h : Skipped s n t) (h' : Skipped t m u) : Skipped s (n + m) u :=
  ⟨h'.rep, h'.capacity.trans h.capacity, by rw [h'.position, h.position]; omega, h'.size.trans h.size,
    h'.content.trans h.content⟩

theorem Skipped.unread {s t : ByteArray} {n : Nat} (h : Skipped s n t) : t.unread = s.unread.drop n := by
  rw [ByteArray.unread, ByteArray.unread, h.content, h.position, List.drop_drop]

theorem unread_length {s : ByteArray} (hs : Rep s) : s.unread.length = s.size - s.position := by
  rw [unread, List.length_drop, content_length hs]

theorem writeBytes_spec {s : ByteArray} (hs : Rep s) (bs : List UInt8) (hroom : s.position + bs.length ≤ s.capacity) :
    ∃ s', Returns (writeBytes bs) s () s' ∧ Wrote s bs s' ∧ s'.endian = s.endian := by
  by_cases hne : bs = []
  · subst hne
    exact ⟨s, by simp [Returns, writeBytes, write], .refl hs, rfl⟩
  · have h0 : addedBlocks s bs.length = 0 := by rw [addedBlocks, if_pos (by unfold getCapacity; omega)]
    have hcap : (s.addCapacity bs.length).capacity = s.capacity := by rw [addCapacity_capacity hs, h0]; omega
    obtain ⟨s', hw, hrep, _, hend, hc, hp, hz, hcontent⟩ := write_room hs hne (by
      unfold getCapacity
      rw [hcap, addCapacity_position hs]; omega)
    exact ⟨s', by simp [Returns, writeBytes, hw], ⟨hrep, hc.trans hcap, hp, hz, hcontent⟩, hend⟩

/-- A write that returns found room. -/
theorem writeBytes_put {s s' : ByteArray} (hs : Rep s) {bs : List UInt8} (h : Returns (writeBytes bs) s () s') :
    Put s bs s' := by
  by_cases hne : bs = []
  · subst hne
    have hsame : Returns (writeBytes []) s () s := by simp [Returns, writeBytes, write]
    obtain ⟨-, rfl⟩ := hsame.unique h
    exact .refl hs
  · by_cases hroom : bs.length ≤ (s.addCapacity bs.length).getCapacity
    · obtain ⟨t, hw, hrep, _, hend, _, hp, hz, hcontent⟩ := write_room hs hne hroom
      have ht : Returns (writeBytes bs) s () t := by simp [Returns, writeBytes, hw]
      obtain ⟨-, rfl⟩ := ht.unique h
      exact ⟨hrep, hend, hp, hz, hcontent⟩
    · have hnone : writeBytes bs s = none := by simp [writeBytes, write_no_room hs hne hroom]
      rw [Returns, hnone] at h
      cases h

/-- A read of nothing included, as long as there is a block to look at. -/
theorem readBytes_inside {s : ByteArray} (hs : Rep s) {n : Nat} (hle : n ≤ s.unread.length) (hp : s.position < s.capacity) :
    ∃ s', Returns (readBytes n) s (s.unread.take n) s' ∧ Skipped s n s' ∧ s'.endian = s.endian := by
  rw [unread_length hs] at hle
  obtain ⟨s', hr, hrep, _, hend, hc, hp', hsize, hcontent⟩ := read_ok hs (n := n) (by unfold getReadSize; omega) hp
  exact ⟨s', hr, ⟨hrep, hc, hp', hsize, hcontent⟩, hend⟩

theorem readBytes_spec {s : ByteArray} (hs : Rep s) {n : Nat} (hn : 1 ≤ n) (hle : n ≤ s.unread.length) :
    ∃ s', Returns (readBytes n) s (s.unread.take n) s' ∧ Skipped s n s' ∧ s'.endian = s.endian := by
  have hz := hs.size_le
  have hlen := unread_length hs
  exact readBytes_inside hs hle (by omega)

/-- A read that returns looked at a block and returned as much as it was asked for. -/
theorem readBytes_inv {s s' : ByteArray} (hs : Rep s) {n : Nat} {bs : List UInt8} (h : Returns (readBytes n) s bs s') :
    s.position < s.capacity ∧ n ≤ s.unread.length ∧ bs = s.unread.take n := by
  have hread : s.read n = some (.ok bs, s') := h
  by_cases hn : n ≤ s.getReadSize
  · by_cases hp : s.position < s.capacity
    · have hle : n ≤ s.unread.length := by
        rw [unread_length hs]
        exact hn
      obtain ⟨t, hr, -, -⟩ := readBytes_inside hs hle hp
      exact ⟨hp, hle, (Returns.unique h hr).1⟩
    · rw [read, if_neg (by omega), hs.cur, if_neg hp] at hread
      cases hread
  · rw [read_throws (by omega)] at hread
    cases hread

/-! ## Fixed width -/

variable (host : Endian)

/-- What a fixed-width value looks like in the buffer. -/
def fixedBytes (little : Bool) (w v : Nat) : List UInt8 := if little then leBytes w v else (leBytes w v).reverse

@[simp] theorem fixedBytes_length (little : Bool) (w v : Nat) : (fixedBytes little w v).length = w := by
  unfold fixedBytes
  split <;> simp

theorem writeFixed_eq (w v : Nat) (s : ByteArray) :
    writeFixed host w v s = writeBytes (fixedBytes s.isLittleEndian w v) s := by
  have he : layout host w (if s.endian ≠ host then byteswap w v else v) = fixedBytes s.isLittleEndian w v := by
    unfold isLittleEndian fixedBytes
    cases host <;> cases s.endian <;> simp [layout, leBytes_byteswap]
  rw [← he]
  rfl

theorem writeFixed_spec {s : ByteArray} (hs : Rep s) (w v : Nat) (hroom : s.position + w ≤ s.capacity) :
    ∃ s', Returns (writeFixed host w v) s () s' ∧ Wrote s (fixedBytes s.isLittleEndian w v) s' ∧ s'.endian = s.endian := by
  obtain ⟨s', hw, hwrote, hend⟩ := writeBytes_spec hs (fixedBytes s.isLittleEndian w v) (by simpa using hroom)
  refine ⟨s', ?_, hwrote, hend⟩
  rw [Returns, writeFixed_eq]
  exact hw

theorem readFixed_spec {s : ByteArray} (hs : Rep s) {w v : Nat} (hw : 1 ≤ w) (hv : v < 256 ^ w) {rest : List UInt8}
    (hu : s.unread = fixedBytes s.isLittleEndian w v ++ rest) :
    ∃ s', Returns (readFixed host w) s v s' ∧ Skipped s w s' ∧ s'.endian = s.endian := by
  obtain ⟨s', hr, hskip, hend⟩ := readBytes_spec hs hw (by rw [hu]; simp)
  have hbs : s.unread.take w = fixedBytes s.isLittleEndian w v := by
    rw [hu, List.take_append_of_le_length (by simp), List.take_of_length_le (by simp)]
  refine ⟨s', ?_, hskip, hend⟩
  refine hr.bind (Returns.bind (a := s') (t := s') rfl ?_)
  have hval : (if s'.endian = host then unlayout host (s.unread.take w) else byteswap w (unlayout host (s.unread.take w))) =
      v := by
    have hrev : byteswap w (ofLeBytes (leBytes w v).reverse) = v := by
      have h := leBytes_ofLeBytes (leBytes w v).reverse
      rw [List.length_reverse, leBytes_length] at h
      rw [byteswap, h, List.reverse_reverse, ofLeBytes_leBytes hv]
    have hfwd : byteswap w (ofLeBytes (leBytes w v)) = ofLeBytes (leBytes w v).reverse := by
      rw [byteswap, ofLeBytes_leBytes hv]
    have hdir : ofLeBytes (leBytes w v) = v := ofLeBytes_leBytes hv
    rw [hbs, hend]
    unfold isLittleEndian fixedBytes
    cases host <;> cases s.endian <;> simp [unlayout, hrev, hdir]
  rw [hval]
  rfl

/-! ## Varints -/

theorem varintLoop_eq_groups : ∀ (k v : Nat), varintLoop k v = groups k v
  | 0, _ => rfl
  | k + 1, v => by
    have hand : v &&& 0x7F = v % 128 := Nat.and_two_pow_sub_one_eq_mod v 7
    have hor : v % 128 ||| 0x80 = v % 128 + 128 := by
      have h := Nat.two_pow_add_eq_or_of_lt (show v % 128 < 2 ^ 7 by omega) 1
      rw [Nat.or_comm, Nat.add_comm]
      exact h.symm
    have hshift : v >>> 7 = v / 128 := Nat.shiftRight_eq_div_pow v 7
    rw [varintLoop, groups, hand, hor, hshift, varintLoop_eq_groups k]
    by_cases h : v < 128
    · rw [if_neg (by omega), if_pos h]
    · rw [if_pos (by omega), if_neg h]

theorem writeVarint_spec {s : ByteArray} (hs : Rep s) (k v : Nat) (hroom : s.position + (groups k v).length ≤ s.capacity) :
    ∃ s', Returns (writeBytes (varintLoop k v)) s () s' ∧ Wrote s (groups k v) s' ∧ s'.endian = s.endian := by
  rw [varintLoop_eq_groups]
  exact writeBytes_spec hs _ hroom

/-- `n` counter values of the read loop, from `i` on. -/
def sevens : Nat → Nat → List Nat
  | 0, _ => []
  | n + 1, i => i :: sevens n (i + 7)

/-- OR-ing the next group in is adding it. -/
theorem or_group (w i R b : Nat) (hR : R < 2 ^ i) :
    BitVec.ofNat w R ||| (BitVec.ofNat w b <<< i) = BitVec.ofNat w (R + b * 2 ^ i) := by
  have hs : BitVec.ofNat w b <<< i = BitVec.ofNat w (b <<< i) := by
    apply BitVec.eq_of_toNat_eq
    simp only [BitVec.toNat_shiftLeft, BitVec.toNat_ofNat, Nat.shiftLeft_eq, Nat.mod_mul_mod]
  rw [hs, ← BitVec.ofNat_or, Nat.shiftLeft_eq, Nat.or_comm, Nat.mul_comm b, ← Nat.two_pow_add_eq_or_of_lt hR b,
    Nat.add_comm]

theorem readFint8_spec {s : ByteArray} (hs : Rep s) {b : UInt8} {rest : List UInt8} (hu : s.unread = b :: rest) :
    ∃ s', Returns readFint8 s b.toInt8 s' ∧ Skipped s 1 s' ∧ s'.endian = s.endian := by
  obtain ⟨s', hr, hskip, hend⟩ := readBytes_spec hs (Nat.le_refl 1) (by rw [hu]; simp)
  have hb : UInt8.ofNat (ofLeBytes (s.unread.take 1)) = b := by rw [hu]; simp [ofLeBytes]
  exact ⟨s', hr.bind (by rw [hb]; exact .pure _ _), hskip, hend⟩

/-- The read loop takes at most as many groups as it has rounds. -/
theorem readVarint_spec (w : Nat) : ∀ (n i R v k : Nat) (s : ByteArray), Rep s → R < 2 ^ i →
    ungroups n s.unread = some (v, k) →
    ∃ s', Returns (readVarint w (sevens n i) (BitVec.ofNat w R)) s (BitVec.ofNat w (R + v * 2 ^ i)) s' ∧ Skipped s k s' ∧
      s'.endian = s.endian := by
  intro n
  induction n with
  | zero =>
    intro i R v k s hs _ h
    simp only [ungroups, Option.some.injEq, Prod.mk.injEq] at h
    obtain ⟨rfl, rfl⟩ := h
    exact ⟨s, by simpa [sevens, readVarint] using Returns.pure _ s, .refl hs, rfl⟩
  | succ n ih =>
    intro i R v k s hs hR h
    cases hu : s.unread with
    | nil => rw [hu] at h; simp [ungroups] at h
    | cons b rest =>
      obtain ⟨t, hr, hskip, hend⟩ := readFint8_spec hs hu
      have hlt : b < 0x80 ↔ b.toNat < 128 := UInt8.lt_iff_toNat_lt
      rw [hu, ungroups] at h
      by_cases hb : b.toNat < 128
      · rw [if_pos hb] at h
        cases h
        refine ⟨t, hr.bind ?_, hskip, hend⟩
        simp only [UInt8.toUInt8_toInt8, hlt.mpr hb, if_true, or_group w i R _ hR]
        exact .pure _ t
      · rw [if_neg hb] at h
        obtain ⟨⟨v', k'⟩, h', he⟩ := Option.map_eq_some_iff.mp h
        cases he
        have hmod : (b &&& 0x7F).toNat = b.toNat % 128 := by
          rw [UInt8.toNat_and]
          exact Nat.and_two_pow_sub_one_eq_mod _ 7
        have hR' : R + b.toNat % 128 * 2 ^ i < 2 ^ (i + 7) := by
          have hm : b.toNat % 128 ≤ 127 := by omega
          have := Nat.mul_le_mul_right (2 ^ i) hm
          rw [Nat.pow_add]; omega
        obtain ⟨u, hrec, hskip', hend'⟩ := ih (i + 7) (R + b.toNat % 128 * 2 ^ i) v' k' t hskip.rep hR' (by
          rw [hskip.unread, hu]; exact h')
        refine ⟨u, hr.bind ?_, by rw [Nat.add_comm]; exact hskip.trans hskip', hend'.trans hend⟩
        simp only [UInt8.toUInt8_toInt8, mt hlt.mp hb, if_false, hmod, or_group w i R _ hR]
        have hval : R + (b.toNat % 128 + 128 * v') * 2 ^ i = R + b.toNat % 128 * 2 ^ i + v' * 2 ^ (i + 7) := by
          rw [Nat.pow_add, Nat.add_mul]
          rw [Nat.mul_comm 128, Nat.mul_assoc v', Nat.mul_comm 128, Nat.add_assoc]
        rw [hval]
        exact hrec

theorem decode_encode32 (v : Int32) : decodeZigzag32 (encodeZigzag32 v) = v := by
  apply Int32.toBitVec.inj
  have h := unzigzag_zigzag (w := 32) (by decide) v.toBitVec
  have he : (encodeZigzag32 v).toBitVec = zigzag v.toBitVec := by
    unfold encodeZigzag32 zigzag
    have hneg : v < 0 ↔ v.toBitVec.msb = true := by
      rw [Int32.lt_iff_toBitVec_slt]
      exact BitVec.slt_zero_iff_msb_cond
    by_cases hn : v < 0
    · rw [if_pos hn, if_pos (hneg.mp hn)]; rfl
    · rw [if_neg hn, if_neg (mt hneg.mpr hn)]; rfl
  rw [← he] at h
  exact h

theorem readUint32_spec {s : ByteArray} (hs : Rep s) (v : UInt32) {rest : List UInt8}
    (hu : s.unread = groups 5 v.toNat ++ rest) :
    ∃ s', Returns readUint32 s v s' ∧ Skipped s (groups 5 v.toNat).length s' ∧ s'.endian = s.endian := by
  have hv := v.toNat_lt
  obtain ⟨s', hr, hskip, hend⟩ := readVarint_spec 32 5 0 0 v.toNat _ s hs (by decide) (by
    rw [hu]
    exact ungroups_groups rest (by omega) (by decide) (groups_length_le 5 v.toNat))
  have hval : UInt32.ofBitVec (BitVec.ofNat 32 (0 + v.toNat * 2 ^ 0)) = v := by
    rw [Nat.pow_zero, Nat.mul_one, Nat.zero_add]
    exact UInt32.ofNat_toNat
  exact ⟨s', hr.bind (by rw [hval]; exact .pure _ s'), hskip, hend⟩

/-- The reader's five rounds get back the low 35 bits of what ten groups hold. -/
theorem ungroups_five (v : Nat) (hv : v < 2 ^ 64) (rest : List UInt8) :
    ungroups 5 (groups 10 v ++ rest) = some (v % 2 ^ 35, min (groups 10 v).length 5) := by
  have hv' : v < 128 ^ 10 := by omega
  by_cases h : (groups 10 v).length ≤ 5
  · have hlt := ((groups_length_le_iff 5 hv' (by decide)).mp h).1
    rw [ungroups_groups rest hv' (by decide) h, Nat.mod_eq_of_lt (by omega), Nat.min_eq_left h]
  · rw [ungroups_short rest hv' (by omega), Nat.min_eq_right (by omega)]
    rfl

theorem readUint64_spec {s : ByteArray} (hs : Rep s) (v : UInt64) {rest : List UInt8}
    (hu : s.unread = groups 10 v.toNat ++ rest) :
    ∃ s', Returns readUint64 s (UInt64.ofNat (v.toNat % 2 ^ 35)) s' ∧ Skipped s (min (groups 10 v.toNat).length 5) s' ∧
      s'.endian = s.endian := by
  obtain ⟨s', hr, hskip, hend⟩ := readVarint_spec 64 5 0 0 _ _ s hs (by decide)
    (by rw [hu]; exact ungroups_five v.toNat v.toNat_lt rest)
  refine ⟨s', hr.bind ?_, hskip, hend⟩
  rw [Nat.pow_zero, Nat.mul_one, Nat.zero_add]
  exact .pure _ s'

/-- An even pattern unfolds to its half. -/
theorem decodeZigzag64_even {m : Nat} (hm : 2 * m < 2 ^ 64) : (decodeZigzag64 (UInt64.ofNat (2 * m))).toInt = m := by
  have h := unzigzag_even (w := 64) (by decide) (e := (UInt64.ofNat (2 * m)).toBitVec) (by
    show 2 * m % 2 ^ 64 % 2 = 0
    omega)
  have hval : (UInt64.ofNat (2 * m)).toBitVec.toNat = 2 * m := Nat.mod_eq_of_lt hm
  rw [hval, Nat.mul_div_cancel_left _ (by decide)] at h
  show (unzigzag (UInt64.ofNat (2 * m)).toBitVec).toInt = m
  rw [BitVec.toInt_eq_toNat_of_lt (by omega), h]

/-- `EncodeZigzag64` only doubles. -/
theorem encodeZigzag64_toNat (v : UInt64) : (encodeZigzag64 v).toNat = 2 * (v.toNat % 2 ^ 63) := by
  have h0 : ¬ v < 0 := by
    rw [UInt64.lt_iff_toNat_lt]
    exact Nat.not_lt_zero _
  rw [encodeZigzag64, if_neg h0, UInt64.toNat_mul]
  show v.toNat * 2 % 2 ^ 64 = _
  omega

/-- A signed value and its pattern. -/
theorem toInt_eq_or (v : Int64) :
    v.toInt = v.toUInt64.toNat ∧ v.toUInt64.toNat < 2 ^ 63 ∨
      v.toInt = v.toUInt64.toNat - 2 ^ 64 ∧ 2 ^ 63 ≤ v.toUInt64.toNat := by
  have h : v.toInt = if 2 * v.toUInt64.toNat < 2 ^ 64 then (v.toUInt64.toNat : Int) else v.toUInt64.toNat - 2 ^ 64 :=
    BitVec.toInt_eq_toNat_cond v.toBitVec
  rw [h]
  split <;> omega

theorem readInt64_spec {s : ByteArray} (hs : Rep s) (v : Int64) {rest : List UInt8}
    (hu : s.unread = groups 10 (encodeZigzag64 v.toUInt64).toNat ++ rest) :
    ∃ r s', Returns readInt64 s r s' ∧ r.toInt = v.toUInt64.toNat % 2 ^ 34 ∧
      Skipped s (min (groups 10 (encodeZigzag64 v.toUInt64).toNat).length 5) s' ∧ s'.endian = s.endian := by
  obtain ⟨s', hr, hskip, hend⟩ := readUint64_spec hs _ hu
  refine ⟨_, s', hr.bind (.pure _ s'), ?_, hskip, hend⟩
  have he : (encodeZigzag64 v.toUInt64).toNat % 2 ^ 35 = 2 * (v.toUInt64.toNat % 2 ^ 34) := by
    rw [encodeZigzag64_toNat]; omega
  rw [he, decodeZigzag64_even (by omega)]
  omega

/-! ## One value -/

/-- What a value's writer appends. -/
def Value.bytes (little : Bool) : Value → List UInt8
  | .fint8 v => [v.toUInt8]
  | .fuint8 v => [v]
  | .fint16 v => fixedBytes little 2 v.toUInt16.toNat
  | .fuint16 v => fixedBytes little 2 v.toNat
  | .fint32 v => fixedBytes little 4 v.toUInt32.toNat
  | .fuint32 v => fixedBytes little 4 v.toNat
  | .fint64 v => fixedBytes little 8 v.toUInt64.toNat
  | .fuint64 v => fixedBytes little 8 v.toNat
  | .int32 v => groups 5 (encodeZigzag32 v).toNat
  | .uint32 v => groups 5 v.toNat
  | .int64 v => groups 10 (encodeZigzag64 v.toUInt64).toNat
  | .uint64 v => groups 10 v.toNat
  | .float bits => fixedBytes little 4 bits.toNat
  | .double bits => fixedBytes little 8 bits.toNat

/-- Only 64-bit varints can fail to: the reader has five rounds and no sign. -/
def Value.Fits : Value → Prop
  | .int64 v => 0 ≤ v.toInt ∧ v.toInt < 2 ^ 34
  | .uint64 v => v.toNat < 2 ^ 35
  | _ => True

theorem write_value {s : ByteArray} (hs : Rep s) (v : Value)
    (hroom : s.position + (v.bytes s.isLittleEndian).length ≤ s.capacity) :
    ∃ s', Returns (v.write host) s () s' ∧ Wrote s (v.bytes s.isLittleEndian) s' ∧ s'.endian = s.endian := by
  cases v with
  | fint8 v => exact writeBytes_spec hs _ hroom
  | fuint8 v => exact writeBytes_spec hs _ hroom
  | fint16 v => exact writeFixed_spec host hs 2 _ (by simpa [Value.bytes] using hroom)
  | fuint16 v => exact writeFixed_spec host hs 2 _ (by simpa [Value.bytes] using hroom)
  | fint32 v => exact writeFixed_spec host hs 4 _ (by simpa [Value.bytes] using hroom)
  | fuint32 v => exact writeFixed_spec host hs 4 _ (by simpa [Value.bytes] using hroom)
  | fint64 v => exact writeFixed_spec host hs 8 _ (by simpa [Value.bytes] using hroom)
  | fuint64 v => exact writeFixed_spec host hs 8 _ (by simpa [Value.bytes] using hroom)
  | int32 v => exact writeVarint_spec hs 5 _ hroom
  | uint32 v => exact writeVarint_spec hs 5 _ hroom
  | int64 v => exact writeVarint_spec hs 10 _ hroom
  | uint64 v => exact writeVarint_spec hs 10 _ hroom
  | float bits => exact writeFixed_spec host hs 4 _ (by simpa [Value.bytes] using hroom)
  | double bits => exact writeFixed_spec host hs 8 _ (by simpa [Value.bytes] using hroom)

/-- A fixed-width reader is a conversion `f` of the raw value, tagged with its type. -/
theorem readFixed_value {α : Type} {s : ByteArray} (hs : Rep s) {w v : Nat} (hw : 1 ≤ w) (hv : v < 256 ^ w)
    {rest : List UInt8} (hu : s.unread = fixedBytes s.isLittleEndian w v ++ rest) (f : Nat → α) (tag : α → Value)
    {value : Value} (hval : tag (f v) = value) :
    ∃ s', Returns (do return tag (← (do return f (← readFixed host w)))) s value s' ∧
      Skipped s (fixedBytes s.isLittleEndian w v).length s' ∧ s'.endian = s.endian := by
  obtain ⟨s', hr, hskip, hend⟩ := readFixed_spec host hs hw hv hu
  subst hval
  have hf : Returns (do return f (← readFixed host w)) s (f v) s' := hr.bind (.pure _ s')
  exact ⟨s', hf.bind (.pure _ s'), by rw [fixedBytes_length]; exact hskip, hend⟩

/-- A value that fits reads back, and its reader takes exactly its bytes. -/
theorem read_value {s : ByteArray} (hs : Rep s) (v : Value) (hv : v.Fits) {rest : List UInt8}
    (hu : s.unread = v.bytes s.isLittleEndian ++ rest) :
    ∃ s', Returns (v.kind.read host) s v s' ∧ Skipped s (v.bytes s.isLittleEndian).length s' ∧ s'.endian = s.endian := by
  cases v with
  | fint8 v =>
    obtain ⟨s', hr, hskip, hend⟩ := readFint8_spec hs hu
    exact ⟨s', hr.bind (.pure _ s'), hskip, hend⟩
  | fuint8 v =>
    obtain ⟨s', hr, hskip, hend⟩ := readBytes_spec hs (Nat.le_refl 1) (by rw [hu]; simp [Value.bytes])
    have hb : UInt8.ofNat (ofLeBytes (s.unread.take 1)) = v := by rw [hu]; simp [ofLeBytes, Value.bytes]
    exact ⟨s', Returns.bind (hr.bind (.pure _ s')) (by rw [hb]; exact .pure _ s'), hskip, hend⟩
  | fint16 v =>
    exact readFixed_value host hs (by decide) v.toUInt16.toNat_lt hu (fun n => (UInt16.ofNat n).toInt16)
      .fint16 (by simp)
  | fuint16 v => exact readFixed_value host hs (by decide) v.toNat_lt hu (fun n => UInt16.ofNat n) .fuint16 (by simp)
  | fint32 v =>
    exact readFixed_value host hs (by decide) v.toUInt32.toNat_lt hu (fun n => (UInt32.ofNat n).toInt32)
      .fint32 (by simp)
  | fuint32 v => exact readFixed_value host hs (by decide) v.toNat_lt hu (fun n => UInt32.ofNat n) .fuint32 (by simp)
  | fint64 v =>
    exact readFixed_value host hs (by decide) v.toUInt64.toNat_lt hu (fun n => (UInt64.ofNat n).toInt64)
      .fint64 (by simp)
  | fuint64 v => exact readFixed_value host hs (by decide) v.toNat_lt hu (fun n => UInt64.ofNat n) .fuint64 (by simp)
  | int32 v =>
    obtain ⟨s', hr, hskip, hend⟩ := readUint32_spec hs _ hu
    exact ⟨s', Returns.bind (hr.bind (.pure _ s')) (by rw [decode_encode32]; exact .pure _ s'), hskip, hend⟩
  | uint32 v =>
    obtain ⟨s', hr, hskip, hend⟩ := readUint32_spec hs _ hu
    exact ⟨s', hr.bind (.pure _ s'), hskip, hend⟩
  | int64 v =>
    obtain ⟨hnn, hlt⟩ : 0 ≤ v.toInt ∧ v.toInt < 2 ^ 34 := hv
    obtain ⟨r, s', hr, hval, hskip, hend⟩ := readInt64_spec hs _ hu
    have htop : v.toInt = v.toUInt64.toNat := by
      have := toInt_eq_or v
      have := v.toUInt64.toNat_lt
      omega
    have hrv : r = v := Int64.toInt_inj.mp (by rw [hval, htop]; omega)
    refine ⟨s', hr.bind (by rw [hrv]; exact .pure _ s'), ?_, hend⟩
    have hlen := (groups_length_le_iff (k := 10) (v := (encodeZigzag64 v.toUInt64).toNat) 5
      (by have := (encodeZigzag64 v.toUInt64).toNat_lt; omega) (by decide)).mpr
      ⟨by rw [encodeZigzag64_toNat]; omega, by decide⟩
    rwa [Nat.min_eq_left hlen] at hskip
  | uint64 v =>
    have hlt : v.toNat < 2 ^ 35 := hv
    obtain ⟨s', hr, hskip, hend⟩ := readUint64_spec hs _ hu
    have hlen := (groups_length_le_iff (k := 10) (v := v.toNat) 5 (by omega) (by decide)).mpr ⟨by omega, by decide⟩
    rw [Nat.min_eq_left hlen] at hskip
    exact ⟨s', hr.bind (by rw [Nat.mod_eq_of_lt hlt, UInt64.ofNat_toNat]; exact .pure _ s'), hskip, hend⟩
  | float v => exact readFixed_value host hs (by decide) v.toNat_lt hu (fun n => UInt32.ofNat n) .float (by simp)
  | double v => exact readFixed_value host hs (by decide) v.toNat_lt hu (fun n => UInt64.ofNat n) .double (by simp)

/-- A value that does not fit reads back as another one. -/
theorem read_misfit {s : ByteArray} (hs : Rep s) (v : Value) (hv : ¬ v.Fits) {rest : List UInt8}
    (hu : s.unread = v.bytes s.isLittleEndian ++ rest) : ∃ v' s', Returns (v.kind.read host) s v' s' ∧ v' ≠ v := by
  cases v with
  | int64 v =>
    obtain ⟨r, s', hr, hval, _, _⟩ := readInt64_spec hs _ hu
    refine ⟨_, s', hr.bind (.pure _ s'), fun he => hv ?_⟩
    rw [Value.int64.inj he] at hval
    show 0 ≤ v.toInt ∧ v.toInt < 2 ^ 34
    omega
  | uint64 v =>
    obtain ⟨s', hr, _, _⟩ := readUint64_spec hs _ hu
    refine ⟨_, s', hr.bind (.pure _ s'), fun he => hv ?_⟩
    have hmod := congrArg UInt64.toNat (Value.uint64.inj he)
    have hlt := v.toNat_lt
    rw [UInt64.toNat_ofNat'] at hmod
    show v.toNat < 2 ^ 35
    omega
  | _ => exact absurd trivial hv

/-! ## Streams -/

/-- What a sequence of calls appends, from a byte order on. -/
def itemsBytes : Bool → List (Item Value) → List UInt8
  | _, [] => []
  | _, .setLittleEndian val :: items => itemsBytes val items
  | little, .value v :: items => v.bytes little ++ itemsBytes little items

theorem setLittleEndian_spec {s : ByteArray} (hs : Rep s) (val : Bool) :
    Returns (modify (·.setLittleEndian val)) s () (s.setLittleEndian val) ∧ Rep (s.setLittleEndian val) :=
  ⟨rfl, ⟨hs.blocks, hs.capacity, hs.root, hs.position_le, hs.size_le, hs.cur⟩⟩

theorem itemsBytes_setLittleEndian (s : ByteArray) (val little : Bool) (items : List (Item Value)) :
    itemsBytes little (.setLittleEndian val :: items) = itemsBytes (s.setLittleEndian val).isLittleEndian items := by
  cases val <;> rfl

theorem isLittleEndian_congr {s t : ByteArray} (h : t.endian = s.endian) : t.isLittleEndian = s.isLittleEndian := by
  rw [isLittleEndian, isLittleEndian, h]

theorem writeAll_spec : ∀ (items : List (Item Value)) {s : ByteArray}, Rep s →
    s.position + (itemsBytes s.isLittleEndian items).length ≤ s.capacity →
    ∃ s', Returns (writeAll host items) s () s' ∧ Wrote s (itemsBytes s.isLittleEndian items) s'
  | [], s, hs, _ => ⟨s, .pure _ s, .refl hs⟩
  | .setLittleEndian val :: items, s, hs, hroom => by
    obtain ⟨hset, hs'⟩ := setLittleEndian_spec hs val
    rw [itemsBytes_setLittleEndian s] at hroom ⊢
    obtain ⟨s', hr, hw⟩ := writeAll_spec items hs' hroom
    exact ⟨s', hset.bind hr, ⟨hw.rep, hw.capacity, hw.position, hw.size, hw.content⟩⟩
  | .value v :: items, s, hs, hroom => by
    rw [itemsBytes, List.length_append] at hroom
    obtain ⟨t, hr, hw, hend⟩ := write_value host hs v (by omega)
    have he := isLittleEndian_congr hend
    obtain ⟨s', hr', hw'⟩ := writeAll_spec items hw.rep (by rw [hw.position, hw.capacity, he]; omega)
    rw [he] at hw'
    exact ⟨s', hr.bind hr', hw.trans hs hw'⟩

theorem readAll_spec : ∀ (items : List (Item Value)) {s : ByteArray}, Rep s →
    (∀ v ∈ items.filterMap Item.value?, v.Fits) → ∀ {r : List UInt8},
    s.unread = itemsBytes s.isLittleEndian items ++ r →
    ∃ s', Returns (readAll host (items.map (Item.map Value.kind))) s (items.filterMap Item.value?) s' ∧
      Skipped s (itemsBytes s.isLittleEndian items).length s'
  | [], s, hs, _, _, _ => ⟨s, .pure _ s, .refl hs⟩
  | .setLittleEndian val :: items, s, hs, hfit, rest, hu => by
    obtain ⟨hset, hs'⟩ := setLittleEndian_spec hs val
    rw [itemsBytes_setLittleEndian s] at hu ⊢
    obtain ⟨s', hr, hk⟩ := readAll_spec items hs' hfit (r := rest) hu
    exact ⟨s', hset.bind hr, ⟨hk.rep, hk.capacity, hk.position, hk.size, hk.content⟩⟩
  | .value v :: items, s, hs, hfit, rest, hu => by
    have hfit' : v.Fits ∧ ∀ v ∈ items.filterMap Item.value?, v.Fits := List.forall_mem_cons.mp hfit
    rw [itemsBytes, List.append_assoc] at hu
    obtain ⟨t, hr, hk, hend⟩ := read_value host hs v hfit'.1 hu
    have he := isLittleEndian_congr hend
    obtain ⟨s', hr', hk'⟩ := readAll_spec items hk.rep hfit'.2 (r := rest) (by
      rw [hk.unread, hu, List.drop_left, he])
    rw [he] at hk'
    refine ⟨s', hr.bind (hr'.bind (.pure _ s')), ?_⟩
    rw [itemsBytes, List.length_append]
    exact hk.trans hk'

/-- Only values that fit come back from a stream as they were written. -/
theorem readAll_fits : ∀ (items : List (Item Value)) {s s' : ByteArray}, Rep s → ∀ {r : List UInt8},
    s.unread = itemsBytes s.isLittleEndian items ++ r →
    Returns (readAll host (items.map (Item.map Value.kind))) s (items.filterMap Item.value?) s' →
    ∀ v ∈ items.filterMap Item.value?, v.Fits
  | [], _, _, _, _, _, _ => by simp
  | .setLittleEndian val :: items, s, s', hs, rest, hu, h => by
    obtain ⟨hset, hs'⟩ := setLittleEndian_spec hs val
    obtain ⟨_, t, hset', h'⟩ := h.inv
    obtain ⟨_, rfl⟩ := hset.unique hset'
    rw [itemsBytes_setLittleEndian s] at hu
    exact readAll_fits items hs' (r := rest) hu h'
  | .value v :: items, s, s', hs, rest, hu, h => by
    rw [itemsBytes, List.append_assoc] at hu
    obtain ⟨a, t, ha, h'⟩ := h.inv
    obtain ⟨vs, t', hvs, h''⟩ := h'.inv
    obtain ⟨hcons, rfl⟩ := h''.unique (.pure _ _)
    obtain ⟨rfl, rfl⟩ : a = v ∧ vs = items.filterMap Item.value? := by
      have hc : v :: items.filterMap Item.value? = a :: vs := hcons
      exact ⟨(List.cons.inj hc).1.symm, (List.cons.inj hc).2.symm⟩
    have hfit : a.Fits := by
      apply Classical.byContradiction
      intro hmis
      obtain ⟨v', u, hr, hne⟩ := read_misfit host hs a hmis hu
      exact hne (hr.unique ha).1
    obtain ⟨u, hr, hk, hend⟩ := read_value host hs a hfit hu
    obtain ⟨_, rfl⟩ := hr.unique ha
    refine List.forall_mem_cons.mpr ⟨hfit, readAll_fits items hk.rep (r := rest) ?_ hvs⟩
    rw [hk.unread, hu, List.drop_left, isLittleEndian_congr hend]

/-- After bytes are written, going back to where they begin puts them under the cursor. -/
theorem rewind_written {s s' : ByteArray} {bs : List UInt8} (hs : Rep s) (hrep : Rep s')
    (hpos : s'.position = s.position + bs.length) (hcontent : s'.content = splice s.content s.position bs) :
    ∃ t, s'.setPostion s.position = some (.ok (), t) ∧ Rep t ∧ t.isLittleEndian = s'.isLittleEndian ∧
      t.capacity = s'.capacity ∧ t.position = s.position ∧ t.size = s'.size ∧
      t.unread = bs ++ s.content.drop (s.position + bs.length) := by
  have hl := content_length hs
  have hp := hs.position_le
  have hple := hrep.position_le
  have hsle := hrep.size_le
  obtain ⟨t, ht, hrep', _, hend, hc, hp', hz, hchain⟩ := setPostion_ok hrep (v := s.position) (by omega)
  have hz' : t.size = s'.size := by omega
  refine ⟨t, ht, hrep', isLittleEndian_congr hend, hc, hp', hz', ?_⟩
  have hcontent' : t.content = s'.content := by rw [content, content, hchain, hz']
  have htake : (s.content.take s.position).length = s.position := by rw [List.length_take]; omega
  rw [unread, hcontent', hcontent, hp', splice, List.append_assoc, List.drop_append_of_le_length (by omega),
    List.drop_of_length_le (by omega), List.nil_append]

theorem rewind {s s' : ByteArray} {bs : List UInt8} (hs : Rep s) (hw : Wrote s bs s') :
    ∃ t, s'.setPostion s.position = some (.ok (), t) ∧ Rep t ∧ t.isLittleEndian = s'.isLittleEndian ∧
      t.capacity = s.capacity ∧ t.position = s.position ∧ t.size = s'.size ∧
      t.unread = bs ++ s.content.drop (s.position + bs.length) := by
  have h := rewind_written hs hw.rep hw.position hw.content
  rwa [hw.capacity] at h

/-- A byte order choice before each value. -/
def choiceItems {α : Type} (cs : List (Bool × α)) : List (Item α) := cs.flatMap fun c => [.setLittleEndian c.1, .value c.2]

/-- What they append: fixed-width values in the byte order chosen for them. -/
def choiceBytes (cs : List (Bool × Value)) : List UInt8 := cs.flatMap fun c => c.2.bytes c.1

theorem itemsBytes_choices : ∀ (cs : List (Bool × Value)) (little : Bool), itemsBytes little (choiceItems cs) = choiceBytes cs
  | [], _ => rfl
  | c :: cs, _ => congrArg (c.2.bytes c.1 ++ ·) (itemsBytes_choices cs c.1)

theorem choiceItems_kinds : ∀ cs : List (Bool × Value),
    choiceItems (cs.map fun c => (c.1, c.2.kind)) = (choiceItems cs).map (Item.map Value.kind)
  | [] => rfl
  | _ :: cs => congrArg (Item.setLittleEndian _ :: Item.value _ :: ·) (choiceItems_kinds cs)

theorem choiceItems_values : ∀ cs : List (Bool × Value), (choiceItems cs).filterMap Item.value? = cs.map (·.2)
  | [] => rfl
  | c :: cs => congrArg (c.2 :: ·) (choiceItems_values cs)

/-- Written with `writeInt64` or `writeUint64`. -/
def Value.wide : Value → Bool
  | .int64 _ => true
  | .uint64 _ => true
  | _ => false

theorem fits_of_not_wide {v : Value} (h : v.wide = false) : v.Fits := by
  cases v with
  | int64 v => cases h
  | uint64 v => cases h
  | _ => trivial

/-- A stream without 64-bit varints: its bytes at the cursor, its values back under the
    same choices, and the cursor where the writing left it. -/
theorem stream_round_trip {s : ByteArray} (hs : Rep s) (cs : List (Bool × Value)) (hc : ∀ c ∈ cs, c.2.wide = false)
    (hroom : s.position + (choiceBytes cs).length ≤ s.capacity) :
    ∃ s' t t', Returns (writeAll host (choiceItems cs)) s () s' ∧
      s'.position = s.position + (choiceBytes cs).length ∧
      slice s'.content s.position (choiceBytes cs).length = choiceBytes cs ∧
      s'.setPostion s.position = some (.ok (), t) ∧
      Returns (readAll host (choiceItems (cs.map fun c => (c.1, c.2.kind)))) t (cs.map (·.2)) t' ∧
      t'.position = s'.position ∧ (s.size ≤ s'.position → t'.getReadSize = 0) := by
  have hb := itemsBytes_choices cs
  obtain ⟨s', hr, hw⟩ := writeAll_spec host (choiceItems cs) hs (by rw [hb]; exact hroom)
  rw [hb] at hw
  obtain ⟨t, ht, htrep, _, _, htp, htz, htu⟩ := rewind hs hw
  have hfit : ∀ v ∈ (choiceItems cs).filterMap Item.value?, v.Fits := by
    rw [choiceItems_values]
    intro v hv
    obtain ⟨c, hmem, rfl⟩ := List.mem_map.mp hv
    exact fits_of_not_wide (hc c hmem)
  obtain ⟨t', hr', hk⟩ := readAll_spec host (choiceItems cs) htrep hfit (by rw [hb]; exact htu)
  rw [hb] at hk
  rw [choiceItems_values] at hr'
  have hp := hw.position
  have hz := hw.size
  refine ⟨s', t, t', hr, hp, ?_, ht, by rw [choiceItems_kinds]; exact hr', by rw [hk.position, htp, hp], ?_⟩
  · have hl := content_length hs
    have hle := hs.position_le
    have htake : (s.content.take s.position).length = s.position := by rw [List.length_take]; omega
    rw [hw.content, slice, splice, List.append_assoc, List.drop_append_of_le_length (by omega),
      List.drop_of_length_le (by omega), List.nil_append, List.take_left]
  · intro hsize
    rw [getReadSize, hk.size, hk.position, htz, htp]; omega

/-- A 16-bit value big-endian and `INT32_MIN` as a varint, from the start of an array. -/
theorem stream_round_trip_int32_min :
    ∃ s' t t', Returns (writeAll .little (choiceItems [(false, .fint16 (-2)), (true, .int32 Int32.minValue)]))
        (new 16 (by decide) fun _ => 0) () s' ∧
      s'.position = 0 + (choiceBytes [(false, .fint16 (-2)), (true, .int32 Int32.minValue)]).length ∧
      slice s'.content 0 (choiceBytes [(false, .fint16 (-2)), (true, .int32 Int32.minValue)]).length =
        choiceBytes [(false, .fint16 (-2)), (true, .int32 Int32.minValue)] ∧
      s'.setPostion 0 = some (.ok (), t) ∧
      Returns (readAll .little (choiceItems [(false, .fint16), (true, .int32)])) t [.fint16 (-2), .int32 Int32.minValue] t' ∧
      t'.position = s'.position ∧ (0 ≤ s'.position → t'.getReadSize = 0) :=
  stream_round_trip .little (new_rep 16 (by decide) fun _ => 0) [(false, .fint16 (-2)), (true, .int32 Int32.minValue)]
    (by decide) (by decide)

/-! ## 64-bit varints -/

/-- A value for `writeInt64` or for `writeUint64`. -/
abbrev Wide := Int64 ⊕ UInt64

def Wide.toValue : Wide → Value
  | .inl v => .int64 v
  | .inr v => .uint64 v

/-- What the reader's five rounds can hold, and no negative number. -/
def Wide.Fits : Wide → Prop
  | .inl v => 0 ≤ v.toInt ∧ v.toInt < 2 ^ 34
  | .inr v => v.toNat < 2 ^ 35

def wideItems (vs : List Wide) : List (Item Value) := vs.map fun v => .value v.toValue

/-- Written, rewound and read with the matching readers: the values come back and no data
    is left. -/
def RoundTrips64 (s : ByteArray) (vs : List Wide) : Prop :=
  ∃ s' t t', Returns (writeAll host (wideItems vs)) s () s' ∧ s'.setPostion 0 = some (.ok (), t) ∧
    Returns (readAll host ((wideItems vs).map (Item.map Value.kind))) t (vs.map Wide.toValue) t' ∧ t'.getReadSize = 0

theorem wideItems_values : ∀ vs : List Wide, (wideItems vs).filterMap Item.value? = vs.map Wide.toValue
  | [] => rfl
  | v :: vs => congrArg (v.toValue :: ·) (wideItems_values vs)

theorem wide_fits (vs : List Wide) : (∀ v ∈ vs.map Wide.toValue, v.Fits) ↔ ∀ v ∈ vs, v.Fits := by
  rw [List.forall_mem_map]
  constructor
  · intro h v hv
    have := h v hv
    cases v <;> exact this
  · intro h v hv
    have := h v hv
    cases v <;> exact this

/-- The bytes a list of 64-bit varints takes. -/
def wideBytes (vs : List Wide) : List UInt8 := vs.flatMap fun v => v.toValue.bytes false

theorem itemsBytes_wide : ∀ (vs : List Wide) (little : Bool), itemsBytes little (wideItems vs) = wideBytes vs
  | [], _ => rfl
  | .inl _ :: vs, little => congrArg (_ ++ ·) (itemsBytes_wide vs little)
  | .inr _ :: vs, little => congrArg (_ ++ ·) (itemsBytes_wide vs little)

/-- From offset 0, with room, exactly the lists whose values all fit round-trip. -/
theorem varint64_round_trip_iff {s : ByteArray} (hs : Rep s) (hp : s.position = 0) (vs : List Wide)
    (hroom : (wideBytes vs).length ≤ s.capacity) (hsize : s.size ≤ (wideBytes vs).length) :
    RoundTrips64 host s vs ↔ ∀ v ∈ vs, v.Fits := by
  have hb := itemsBytes_wide vs
  obtain ⟨s', hr, hw⟩ := writeAll_spec host (wideItems vs) hs (by rw [hb, hp]; omega)
  rw [hb] at hw
  obtain ⟨t, ht, htrep, _, _, htp, htz, htu⟩ := rewind hs hw
  rw [hp] at ht htp
  rw [← wide_fits, ← wideItems_values]
  constructor
  · rintro ⟨s'', t'', t', hr'', ht'', hread, _⟩
    obtain ⟨_, rfl⟩ := hr.unique hr''
    obtain rfl : t = t'' := by
      rw [ht] at ht''
      cases ht''
      rfl
    rw [← wideItems_values] at hread
    exact readAll_fits host (wideItems vs) htrep (by rw [hb]; exact htu) hread
  · intro hfit
    obtain ⟨t', hr', hk⟩ := readAll_spec host (wideItems vs) htrep hfit (by rw [hb]; exact htu)
    rw [hb] at hk
    rw [wideItems_values] at hr'
    refine ⟨s', t, t', hr, ht, hr', ?_⟩
    rw [getReadSize, hk.size, hk.position, htz, htp, hw.size, hp]; omega

theorem varint64_round_trip_iff_at_start :
    RoundTrips64 .little (new 16 (by decide) fun _ => 0) [.inl 300, .inr 7] ↔ ∀ v ∈ [Sum.inl 300, Sum.inr 7], Wide.Fits v :=
  varint64_round_trip_iff .little (new_rep 16 (by decide) fun _ => 0) rfl [.inl 300, .inr 7] (by decide) (by decide)

/-- -1 encodes to 2^64 - 2, in ten bytes; the reader stops after five of them. -/
theorem minus_one_does_not_round_trip : ¬ RoundTrips64 .little (new 16 (by decide) fun _ => 0) [.inl (-1)] := by
  rintro ⟨s', t, t', hw, ht, hread, _⟩
  obtain ⟨s'', hw', hwrote⟩ := writeAll_spec .little (wideItems [.inl (-1)]) (new_rep 16 (by decide) fun _ => 0) (by decide)
  obtain ⟨_, rfl⟩ := hw'.unique hw
  obtain ⟨u, hu, hrep, _, _, _, _, hunread⟩ := rewind (new_rep 16 (by decide) fun _ => 0) hwrote
  obtain rfl : u = t := by
    have he := hu.symm.trans ht
    cases he
    rfl
  have hfit := readAll_fits .little (wideItems [.inl (-1)]) hrep hunread hread
  exact absurd (hfit (.int64 (-1)) (by decide)).1 (by decide)

end LjrServer.ByteArray
