/-
  LjrServer.ByteArray.Malformed — the readers on bytes nobody's writer wrote (bytearray.cpp).

  Varints and strings are read piece by piece, and every piece only looks for its own bytes.
  `decode` is what the bytes under the cursor say, whether or not the reader comes through.

  Proved:
  - `handled_iff`: a reader returns what the bytes say or throws and changes nothing, and
    makes no result longer than the data, exactly when not even its first piece is there, or
    all of it is, and no empty string ends where the storage ends.
  - `truncated_string`: the length of a string that is cut off has been taken.
-/

import LjrServer.ByteArray.Strings

namespace LjrServer.ByteArray

open LjrServer.Lib

variable (host : Endian)

/-- The readers that are made of several reads. -/
inductive Reader where
  | uint32
  | uint64
  | int32
  | int64
  | string (k : StringKind)
  deriving DecidableEq, Repr

/-- A number, or a string. -/
abbrev Result := Value ⊕ List UInt8

def Reader.read : Reader → Call Result
  | uint32 => do return .inl (.uint32 (← readUint32))
  | uint64 => do return .inl (.uint64 (← readUint64))
  | int32 => do return .inl (.int32 (← readInt32))
  | int64 => do return .inl (.int64 (← readInt64))
  | string k => do return .inr (← readString host k)

/-! ## What the bytes say -/

/-- The number that bytes in the array's byte order spell. -/
def fixedValue (little : Bool) (bs : List UInt8) : Nat := ofLeBytes (if little then bs else bs.reverse)

/-- The bytes of a fixed-width length. -/
def StringKind.width : StringKind → Nat
  | F16 => 2
  | F32 => 4
  | F64 => 8
  | Vint => 1

/-- The length at the front of the bytes, and how many of them it takes. -/
def StringKind.decodeLength (little : Bool) (k : StringKind) (bs : List UInt8) : Option (Nat × Nat) :=
  match k with
  | Vint => ungroups 5 bs
  | k => if k.width ≤ bs.length then some (fixedValue little (bs.take k.width), k.width) else none

/-- The string at the front of the bytes, and how many of them it takes. -/
def StringKind.decode (little : Bool) (k : StringKind) (bs : List UInt8) : Option (List UInt8 × Nat) :=
  (k.decodeLength little bs).bind fun r => if r.1 ≤ bs.length - r.2 then some (slice bs r.2 r.1, r.2 + r.1) else none

/-- A varint has at most five groups for the readers. -/
def Reader.decode (little : Bool) (r : Reader) (bs : List UInt8) : Option (Result × Nat) :=
  match r with
  | uint32 => (ungroups 5 bs).map fun r => (.inl (.uint32 (UInt32.ofNat r.1)), r.2)
  | uint64 => (ungroups 5 bs).map fun r => (.inl (.uint64 (UInt64.ofNat r.1)), r.2)
  | int32 => (ungroups 5 bs).map fun r => (.inl (.int32 (decodeZigzag32 (UInt32.ofNat r.1))), r.2)
  | int64 => (ungroups 5 bs).map fun r => (.inl (.int64 (decodeZigzag64 (UInt64.ofNat r.1))), r.2)
  | string k => (k.decode little bs).map fun r => (.inr r.1, r.2)

/-- What a reader is to do with any bytes: return what they say and stop behind it, or throw
    and change nothing; and make its result no longer than the data that is left. -/
structure Handled (r : Reader) (s : ByteArray) : Prop where
  safe : r.read host s ≠ none
  returned : ∀ v t, Returns (r.read host) s v t → ∃ n, r.decode s.isLittleEndian s.unread = some (v, n) ∧
    n ≤ s.unread.length ∧ Skipped s n t
  thrown : ∀ e t, r.read host s = some (.error e, t) → t = s
  sized : ∀ k, r = .string k → ∀ len t, Returns (k.readLength host) s len t → len ≤ t.getReadSize

/-- How many bytes the first piece of a reader takes. -/
def Reader.first : Reader → Nat
  | string k => k.width
  | _ => 1

/-- Not even the first piece is there. -/
def Untouched (r : Reader) (s : ByteArray) : Prop := s.unread.length < r.first

/-- All that the reader needs is there, a block behind an empty string's length included. -/
def Complete (r : Reader) (s : ByteArray) : Prop :=
  match r with
  | .string k => ∃ len n, k.decodeLength s.isLittleEndian s.unread = some (len, n) ∧ n + len ≤ s.unread.length ∧
      (len = 0 → s.position + n < s.capacity)
  | _ => ungroups 5 s.unread ≠ none

/-! ## Calls that throw -/

/-- The call throws and leaves `t`. -/
def Throws {α : Type} (c : Call α) (s t : ByteArray) : Prop := ∃ e, c s = some (.error e, t)

section
variable {α β : Type} {c : Call α} {f : α → Call β} {s t u : ByteArray} {a : α}

theorem Throws.bind (h : Throws c s t) : Throws (c >>= f) s t := by
  obtain ⟨e, h⟩ := h
  refine ⟨e, ?_⟩
  rw [bind_apply, h]
  rfl

theorem Returns.throws (h : Returns c s a t) (h' : Throws (f a) t u) : Throws (c >>= f) s u := by
  obtain ⟨e, h'⟩ := h'
  refine ⟨e, ?_⟩
  rw [bind_apply, h]
  exact h'

theorem bind_none (h : c s = none) : (c >>= f) s = none := by
  rw [bind_apply, h]
  rfl

theorem Returns.bind_none (h : Returns c s a t) (h' : f a t = none) : (c >>= f) s = none := by
  rw [bind_apply, h]
  exact h'

end

variable {k : StringKind} {s t : ByteArray}

theorem readBytes_throws {n : Nat} (hs : Rep s) (h : s.unread.length < n) : Throws (readBytes n) s s := by
  rw [unread_length hs] at h
  exact ⟨_, read_throws h⟩

/-- The read loop that the data ends in has taken all of it. -/
theorem readVarint_throws (w n i : Nat) (R : BitVec w) (hs : Rep s) (h : ungroups n s.unread = none) :
    ∃ t, Throws (readVarint w (sevens n i) R) s t ∧ Skipped s s.unread.length t := by
  induction n generalizing i R s with
  | zero => cases h
  | succ n ih =>
    cases hu : s.unread with
    | nil =>
      refine ⟨s, ?_, .refl hs⟩
      exact (readBytes_throws hs (by rw [hu]; decide : s.unread.length < 1)).bind.bind
    | cons b rest =>
      obtain ⟨t, hr, hskip, -⟩ := readFint8_spec hs hu
      rw [hu, ungroups] at h
      by_cases hb : b.toNat < 128
      · rw [if_pos hb] at h
        cases h
      · rw [if_neg hb, Option.map_eq_none_iff] at h
        have hut : t.unread = rest := by
          rw [hskip.unread, hu]
          rfl
        obtain ⟨u, hthrows, hskip'⟩ := ih (i + 7) (R ||| (BitVec.ofNat w (b &&& 0x7F).toNat <<< i)) hskip.rep (hut ▸ h)
        have hlt : ¬ b < 0x80 := fun hlt => hb (UInt8.lt_iff_toNat_lt.mp hlt)
        refine ⟨u, hr.throws ?_, ?_⟩
        · simp only [UInt8.toUInt8_toInt8, hlt, if_false]
          exact hthrows
        · rw [List.length_cons, Nat.add_comm, ← hut]
          exact hskip.trans hskip'

theorem Skipped.ne {n : Nat} (h : Skipped s n t) (hn : 0 < n) : t ≠ s := by
  intro heq
  have := h.position
  rw [heq] at this
  omega

theorem Skipped.getReadSize {n : Nat} (h : Skipped s n t) (hs : Rep s) : t.getReadSize = s.unread.length - n := by
  rw [ByteArray.getReadSize, h.size, h.position, unread_length hs]
  omega

/-! ## One reader -/

/-- A varint whose groups are all there. -/
theorem readVarint_returns (w : Nat) (hs : Rep s) {v n : Nat} (h : ungroups 5 s.unread = some (v, n)) :
    ∃ t, Returns (readVarint w shifts 0) s (BitVec.ofNat w v) t ∧ Skipped s n t := by
  obtain ⟨t, hr, hskip, -⟩ := readVarint_spec w 5 0 0 v n s hs (by decide) h
  refine ⟨t, ?_, hskip⟩
  rwa [Nat.pow_zero, Nat.mul_one, Nat.zero_add] at hr

theorem varint_returns (hs : Rep s) (r : Reader) (hr : ∀ k, r ≠ .string k) {v n : Nat}
    (h : ungroups 5 s.unread = some (v, n)) :
    ∃ x t, Returns (r.read host) s x t ∧ r.decode s.isLittleEndian s.unread = some (x, n) ∧ Skipped s n t := by
  obtain ⟨t32, h32, hskip32⟩ := readVarint_returns 32 hs h
  obtain ⟨t64, h64, hskip64⟩ := readVarint_returns 64 hs h
  have hu32 : Returns readUint32 s (UInt32.ofNat v) t32 := h32.bind (.pure _ t32)
  have hu64 : Returns readUint64 s (UInt64.ofNat v) t64 := h64.bind (.pure _ t64)
  cases r with
  | uint32 => exact ⟨_, t32, hu32.bind (.pure _ t32), by simp [Reader.decode, h], hskip32⟩
  | uint64 => exact ⟨_, t64, hu64.bind (.pure _ t64), by simp [Reader.decode, h], hskip64⟩
  | int32 =>
    have hi32 : Returns readInt32 s (decodeZigzag32 (UInt32.ofNat v)) t32 := hu32.bind (.pure _ t32)
    exact ⟨_, t32, hi32.bind (.pure _ t32), by simp [Reader.decode, h], hskip32⟩
  | int64 =>
    have hi64 : Returns readInt64 s (decodeZigzag64 (UInt64.ofNat v)) t64 := hu64.bind (.pure _ t64)
    exact ⟨_, t64, hi64.bind (.pure _ t64), by simp [Reader.decode, h], hskip64⟩
  | string k => exact absurd rfl (hr k)

/-- A varint that the data ends in is thrown at, and nothing is read only where there is none. -/
theorem readVarint_cut (w : Nat) (hs : Rep s) (h : ungroups 5 s.unread = none) :
    ∃ t, Throws (readVarint w shifts 0) s t ∧ (t = s ↔ s.unread.length < 1) := by
  by_cases hnone : s.unread.length < 1
  · exact ⟨s, (readBytes_throws hs hnone).bind.bind, iff_of_true rfl hnone⟩
  · obtain ⟨t, hthrows, hskip⟩ := readVarint_throws w 5 0 0 hs h
    exact ⟨t, hthrows, iff_of_false (hskip.ne (by omega)) hnone⟩

theorem varint_throws (hs : Rep s) (r : Reader) (hr : ∀ k, r ≠ .string k) (h : ungroups 5 s.unread = none) :
    ∃ t, Throws (r.read host) s t ∧ (t = s ↔ s.unread.length < 1) := by
  obtain ⟨t32, h32, hsame32⟩ := readVarint_cut 32 hs h
  obtain ⟨t64, h64, hsame64⟩ := readVarint_cut 64 hs h
  cases r with
  | uint32 => exact ⟨t32, h32.bind.bind, hsame32⟩
  | uint64 => exact ⟨t64, h64.bind.bind, hsame64⟩
  | int32 => exact ⟨t32, h32.bind.bind.bind, hsame32⟩
  | int64 => exact ⟨t64, h64.bind.bind.bind, hsame64⟩
  | string k => exact absurd rfl (hr k)

/-- Any `w` bytes are the fixed-width form of a number. -/
theorem fixedBytes_fixedValue (little : Bool) (bs : List UInt8) :
    fixedBytes little bs.length (fixedValue little bs) = bs := by
  unfold fixedBytes fixedValue
  cases little with
  | true => exact leBytes_ofLeBytes bs
  | false =>
    have h := leBytes_ofLeBytes bs.reverse
    rw [List.length_reverse] at h
    simp [h]

theorem fixedValue_lt (little : Bool) (bs : List UInt8) : fixedValue little bs < 256 ^ bs.length := by
  unfold fixedValue
  cases little with
  | true => exact ofLeBytes_lt bs
  | false => simpa using ofLeBytes_lt bs.reverse

theorem readFixed_returns (hs : Rep s) {w : Nat} (hw : 1 ≤ w) (hle : w ≤ s.unread.length) :
    ∃ t, Returns (readFixed host w) s (fixedValue s.isLittleEndian (s.unread.take w)) t ∧ Skipped s w t := by
  have hlen : (s.unread.take w).length = w := by rw [List.length_take, Nat.min_eq_left hle]
  have hlt := fixedValue_lt s.isLittleEndian (s.unread.take w)
  have hu : s.unread = fixedBytes s.isLittleEndian w (fixedValue s.isLittleEndian (s.unread.take w)) ++ s.unread.drop w := by
    have hbytes := fixedBytes_fixedValue s.isLittleEndian (s.unread.take w)
    rw [hlen] at hbytes
    rw [hbytes, List.take_append_drop]
  rw [hlen] at hlt
  obtain ⟨t, hr, hskip, -⟩ := readFixed_spec host hs hw hlt hu
  exact ⟨t, hr, hskip⟩

theorem readFixed_throws (hs : Rep s) {w : Nat} (h : s.unread.length < w) : Throws (readFixed host w) s s :=
  (readBytes_throws hs h).bind

theorem fixedLength_returns (hs : Rep s) {w len n : Nat} (hw : 1 ≤ w)
    (h : (if w ≤ s.unread.length then some (fixedValue s.isLittleEndian (s.unread.take w), w) else none) = some (len, n)) :
    len < 256 ^ w ∧ ∃ t, Returns (readFixed host w) s len t ∧ Skipped s n t := by
  split at h
  · rename_i hle
    cases h
    have hlt := fixedValue_lt s.isLittleEndian (s.unread.take w)
    rw [List.length_take, Nat.min_eq_left hle] at hlt
    exact ⟨hlt, readFixed_returns host hs hw hle⟩
  · cases h

theorem decodeLength_bounds {little : Bool} {bs : List UInt8} {len n : Nat} (h : k.decodeLength little bs = some (len, n)) :
    0 < n ∧ n ≤ bs.length ∧ k.width ≤ bs.length := by
  cases k with
  | Vint =>
    obtain ⟨hle, hpos, -⟩ := ungroups_bounds h
    have hn := hpos (by decide)
    exact ⟨hn, hle, Nat.le_trans hn hle⟩
  | _ =>
    simp only [StringKind.decodeLength] at h
    split at h
    · rename_i hle
      cases h
      exact ⟨by decide, hle, hle⟩
    · cases h

/-- A length that is all there. -/
theorem readLength_returns (hs : Rep s) {len n : Nat} (h : k.decodeLength s.isLittleEndian s.unread = some (len, n)) :
    ∃ t, Returns (k.readLength host) s len t ∧ Skipped s n t := by
  cases k with
  | F16 =>
    obtain ⟨hlt, t, hr, hskip⟩ := fixedLength_returns host hs (by decide : 1 ≤ 2) h
    have hr' : Returns (readFuint16 host) s (UInt16.ofNat len) t := hr.bind (.pure _ t)
    have hlen : (UInt16.ofNat len).toNat = len := UInt16.toNat_ofNat_of_lt' hlt
    exact ⟨t, hr'.bind (by rw [hlen]; exact .pure _ t), hskip⟩
  | F32 =>
    obtain ⟨hlt, t, hr, hskip⟩ := fixedLength_returns host hs (by decide : 1 ≤ 4) h
    have hr' : Returns (readFuint32 host) s (UInt32.ofNat len) t := hr.bind (.pure _ t)
    have hlen : (UInt32.ofNat len).toNat = len := UInt32.toNat_ofNat_of_lt' hlt
    exact ⟨t, hr'.bind (by rw [hlen]; exact .pure _ t), hskip⟩
  | F64 =>
    obtain ⟨hlt, t, hr, hskip⟩ := fixedLength_returns host hs (by decide : 1 ≤ 8) h
    have hr' : Returns (readFuint64 host) s (UInt64.ofNat len) t := hr.bind (.pure _ t)
    have hlen : (UInt64.ofNat len).toNat = len := UInt64.toNat_ofNat_of_lt' hlt
    exact ⟨t, hr'.bind (by rw [hlen]; exact .pure _ t), hskip⟩
  | Vint =>
    obtain ⟨-, -, hlt⟩ := ungroups_bounds h
    obtain ⟨t, hr, hskip⟩ := readVarint_returns 64 hs h
    have hu : Returns readUint64 s (UInt64.ofNat len) t := hr.bind (.pure _ t)
    have hlen : (UInt64.ofNat len).toNat = len := UInt64.toNat_ofNat_of_lt' (Nat.lt_trans hlt (by decide))
    exact ⟨t, hu.bind (by rw [hlen]; exact .pure _ t), hskip⟩

/-- Half a length, or none of it. -/
theorem readLength_throws (hs : Rep s) (h : k.decodeLength s.isLittleEndian s.unread = none) :
    ∃ t, Throws (k.readLength host) s t ∧ (t = s ↔ s.unread.length < k.width) := by
  have hshort : k ≠ .Vint → s.unread.length < k.width := by
    intro hk
    cases k with
    | Vint => exact absurd rfl hk
    | _ =>
      simp only [StringKind.decodeLength] at h
      split at h
      · cases h
      · omega
  cases k with
  | F16 => exact ⟨s, (readFixed_throws host hs (hshort (by decide))).bind.bind, iff_of_true rfl (hshort (by decide))⟩
  | F32 => exact ⟨s, (readFixed_throws host hs (hshort (by decide))).bind.bind, iff_of_true rfl (hshort (by decide))⟩
  | F64 => exact ⟨s, (readFixed_throws host hs (hshort (by decide))).bind.bind, iff_of_true rfl (hshort (by decide))⟩
  | Vint =>
    obtain ⟨t, hthrows, hsame⟩ := readVarint_cut 64 hs h
    exact ⟨t, hthrows.bind.bind, hsame⟩

/-! ## Every reader -/

theorem not_returns_of_throws {α : Type} {c : Call α} {a : α} {t' : ByteArray} (h : Throws c s t) : ¬ Returns c s a t' := by
  intro h'
  obtain ⟨e, h⟩ := h
  rw [Returns, h] at h'
  cases h'

/-- The reader returns what the bytes say. -/
theorem handled_of_returns {r : Reader} {v : Result} {n : Nat} (hr : Returns (r.read host) s v t)
    (hd : r.decode s.isLittleEndian s.unread = some (v, n)) (hn : n ≤ s.unread.length) (hskip : Skipped s n t)
    (hsized : ∀ k, r = .string k → ∀ len t, Returns (k.readLength host) s len t → len ≤ t.getReadSize) :
    Handled host r s := by
  refine ⟨?_, ?_, ?_, hsized⟩
  · intro hnone
    rw [Returns, hnone] at hr
    cases hr
  · intro v' t' hr'
    obtain ⟨rfl, rfl⟩ := hr.unique hr'
    exact ⟨n, hd, hn, hskip⟩
  · intro e t' hthrown
    exact absurd hr (not_returns_of_throws ⟨e, hthrown⟩)

/-- The reader throws at its first piece. -/
theorem handled_of_throws {r : Reader} (h : Throws (r.read host) s s)
    (hsized : ∀ k, r = .string k → ∀ len t, Returns (k.readLength host) s len t → len ≤ t.getReadSize) :
    Handled host r s := by
  refine ⟨?_, fun v t hr => absurd hr (not_returns_of_throws h), ?_, hsized⟩
  · intro hnone
    obtain ⟨e, h⟩ := h
    rw [hnone] at h
    cases h
  · intro e t hthrown
    obtain ⟨e', h⟩ := h
    rw [h] at hthrown
    cases hthrown
    rfl

/-- A reader that throws later, or does not come to an end. -/
theorem not_handled {r : Reader} (h : r.read host s = none ∨ ∃ t, Throws (r.read host) s t ∧ t ≠ s) : ¬ Handled host r s := by
  intro hh
  rcases h with hnone | ⟨t, ⟨e, hthrows⟩, hne⟩
  · exact hh.safe hnone
  · exact hne (hh.thrown e t hthrows)

/-- A reader that throws has handled what it found exactly when it did so at its first piece. -/
theorem handled_throws_iff {r : Reader} {P : Prop} (h : Throws (r.read host) s t) (hsame : t = s ↔ P)
    (hsized : t = s → ∀ k, r = .string k → ∀ len t', Returns (k.readLength host) s len t' → len ≤ t'.getReadSize) :
    Handled host r s ↔ P := by
  rw [← hsame]
  constructor
  · intro hh
    by_contra hne
    exact not_handled host (.inr ⟨t, h, hne⟩) hh
  · intro heq
    refine handled_of_throws host ?_ (hsized heq)
    rwa [heq] at h

theorem handled_varint (hs : Rep s) {r : Reader} (hr : ∀ k, r ≠ .string k) :
    Handled host r s ↔ s.unread.length < 1 ∨ ungroups 5 s.unread ≠ none := by
  cases hd : ungroups 5 s.unread with
  | some d =>
    obtain ⟨v, n⟩ := d
    obtain ⟨x, t, hret, hdecode, hskip⟩ := varint_returns host hs r hr hd
    exact iff_of_true (handled_of_returns host hret hdecode (ungroups_bounds hd).1 hskip fun k hk => absurd hk (hr k))
      (.inr (by simp))
  | none =>
    obtain ⟨t, hthrows, hsame⟩ := varint_throws host hs r hr hd
    rw [handled_throws_iff host hthrows hsame fun _ k hk => absurd hk (hr k)]
    simp

section
variable {len n : Nat}

theorem complete_string (hd : k.decodeLength s.isLittleEndian s.unread = some (len, n)) :
    Complete (.string k) s ↔ n + len ≤ s.unread.length ∧ (len = 0 → s.position + n < s.capacity) := by
  constructor
  · intro hc
    obtain ⟨len', n', hsome, hrest⟩ := hc
    rw [hd] at hsome
    cases hsome
    exact hrest
  · intro hc
    exact ⟨len, n, hd, hc⟩

/-- All of the string is there, and a block to look at. -/
theorem readString_complete (hs : Rep s) (hd : k.decodeLength s.isLittleEndian s.unread = some (len, n))
    (h : n + len ≤ s.unread.length ∧ (len = 0 → s.position + n < s.capacity)) :
    ∃ u, Returns (readString host k) s (slice s.unread n len) u ∧ Skipped s (n + len) u := by
  obtain ⟨t, hlength, hskip⟩ := readLength_returns host hs hd
  have htlen : t.unread.length = s.unread.length - n := by rw [hskip.unread, List.length_drop]
  have hp : t.position < t.capacity := by
    have hsize := hskip.rep.size_le
    have hleft := unread_length hskip.rep
    by_cases h0 : len = 0
    · rw [hskip.position, hskip.capacity]
      exact h.2 h0
    · omega
  obtain ⟨u, hbytes, hskip', -⟩ := readBytes_inside hskip.rep (n := len) (by omega) hp
  rw [hskip.unread] at hbytes
  exact ⟨u, hlength.bind hbytes, hskip.trans hskip'⟩

/-- The data ends behind the length, or the storage does and the string is empty. -/
theorem readString_incomplete (hs : Rep s) (hd : k.decodeLength s.isLittleEndian s.unread = some (len, n))
    (h : ¬ (n + len ≤ s.unread.length ∧ (len = 0 → s.position + n < s.capacity))) :
    readString host k s = none ∨ ∃ t, Throws (readString host k) s t ∧ t ≠ s := by
  obtain ⟨hn, hle, -⟩ := decodeLength_bounds hd
  obtain ⟨t, hlength, hskip⟩ := readLength_returns host hs hd
  have htlen : t.unread.length = s.unread.length - n := by rw [hskip.unread, List.length_drop]
  by_cases hfit : n + len ≤ s.unread.length
  · -- the read of nothing at the end of storage
    obtain ⟨rfl, hend⟩ : len = 0 ∧ ¬ s.position + n < s.capacity := by simpa [hfit] using h
    have hp : ¬ t.position < t.capacity := by rwa [hskip.position, hskip.capacity]
    have hcrash : readBytes 0 t = none := by
      rw [readBytes, read, if_neg (Nat.not_lt_zero _), hskip.rep.cur, if_neg hp]
      rfl
    exact .inl (hlength.bind_none hcrash)
  · have hthrows := readBytes_throws hskip.rep (n := len) (by omega)
    exact .inr ⟨t, hlength.throws hthrows, hskip.ne hn⟩

end

theorem handled_string (hs : Rep s) (k : StringKind) : Handled host (.string k) s ↔
    s.unread.length < k.width ∨ Complete (.string k) s := by
  cases hd : k.decodeLength s.isLittleEndian s.unread with
  | none =>
    obtain ⟨t, hthrows, hsame⟩ := readLength_throws host hs hd
    have hincomplete : ¬ Complete (.string k) s := by
      intro hc
      obtain ⟨len, n, hsome, -⟩ := hc
      rw [hd] at hsome
      cases hsome
    rw [or_iff_left hincomplete]
    refine handled_throws_iff host hthrows.bind.bind hsame ?_
    intro _ k' hk len t' hlen
    cases hk
    exact absurd hlen (not_returns_of_throws hthrows)
  | some d =>
    obtain ⟨len, n⟩ := d
    obtain ⟨-, hle, hwidth⟩ := decodeLength_bounds hd
    rw [complete_string hd, or_iff_right (by omega)]
    by_cases hall : n + len ≤ s.unread.length ∧ (len = 0 → s.position + n < s.capacity)
    · obtain ⟨u, hstring, hskip⟩ := readString_complete host hs hd hall
      have hfit := hall.1
      have hdecode : (Reader.string k).decode s.isLittleEndian s.unread = some (.inr (slice s.unread n len), n + len) := by
        rw [Reader.decode, StringKind.decode, hd, Option.bind_some, if_pos (show len ≤ s.unread.length - n by omega)]
        rfl
      refine iff_of_true (handled_of_returns host (hstring.bind (.pure _ u)) hdecode hfit hskip ?_) hall
      intro k' hk len' t' hlen'
      cases hk
      obtain ⟨t, hlength, hskip'⟩ := readLength_returns host hs hd
      obtain ⟨rfl, rfl⟩ := hlength.unique hlen'
      rw [hskip'.getReadSize hs]
      omega
    · refine iff_of_false (not_handled host ?_) hall
      rcases readString_incomplete host hs hd hall with hcrash | ⟨t, hthrows, hne⟩
      · exact .inl (bind_none hcrash)
      · exact .inr ⟨t, hthrows.bind, hne⟩

/-- In any state, a reader handles what it finds exactly when not even its first piece is
    there, or everything it needs is. -/
theorem handled_iff (hs : Rep s) (r : Reader) : Handled host r s ↔ Untouched r s ∨ Complete r s := by
  cases r with
  | string k => exact handled_string host hs k
  | _ => exact handled_varint host hs (by simp)

/-- A varint of one byte. -/
theorem handled_iff_varint : ∃ s, Reach 8 s ∧ Handled .little .uint32 s := by
  have hreach := Reach.step (.seek 0) .done (.step (.write [5, 104]) .done (.init (by decide : 0 < 8) fun _ => 0) rfl) rfl
  refine ⟨_, hreach, (handled_iff .little (reach_rep hreach).1 .uint32).mpr (.inr ?_)⟩
  change ungroups 5 [5, 104] ≠ none
  decide

/-- A length of 3 with two bytes behind it: the length is taken, and the result made that
    long. -/
theorem truncated_string : ∃ s, Reach 8 s ∧ ¬ Handled .little (.string .F16) s := by
  have hreach := Reach.step (.seek 0) .done
    (.step (.write [0, 3, 104, 105]) .done (.init (by decide : 0 < 8) fun _ => 0) rfl) rfl
  refine ⟨_, hreach, ?_⟩
  rw [handled_string .little (reach_rep hreach).1]
  intro h
  rcases h with h | ⟨len, n, hlength, hle, -⟩
  · exact absurd h (by decide)
  · obtain ⟨rfl, rfl⟩ : 3 = len ∧ 2 = n := by
      have hsome : some (3, 2) = some (len, n) := hlength
      simpa using hsome
    exact absurd hle (by decide)

end LjrServer.ByteArray
