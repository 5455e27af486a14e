/-
  LjrServer.ByteArray.Strings — strings behind their length (bytearray.cpp).

  The four writers differ in how the length is written. A reader reads the length, makes its
  result that long and reads the bytes into it; the read of no bytes still looks at the
  cursor's block.

  Proved:
  - `string_round_trip_iff`: strings read back as written exactly when every length behind a
    varint is below 2^35 and the last string is not an empty one that ends with the storage.
  - `empty_string_at_the_end`: blocks of 6, a string of two bytes and an empty one.
-/

import LjrServer.ByteArray.RoundTrip

namespace LjrServer.ByteArray

open LjrServer.Lib

variable (host : Endian)

inductive StringKind where
  | F16
  | F32
  | F64
  | Vint
  deriving DecidableEq, Repr

/-- `value.size()` before a string. -/
def StringKind.writeLength (size : Nat) : StringKind → Call Unit
  | F16 => writeFuint16 host (UInt16.ofNat size)
  | F32 => writeFuint32 host (UInt32.ofNat size)
  | F64 => writeFuint64 host (UInt64.ofNat size)
  | Vint => writeUint64 (UInt64.ofNat size)

/-- The length a reader makes its result, before it reads into it. -/
def StringKind.readLength : StringKind → Call Nat
  | F16 => do return (← readFuint16 host).toNat
  | F32 => do return (← readFuint32 host).toNat
  | F64 => do return (← readFuint64 host).toNat
  | Vint => do return (← readUint64).toNat

def writeString (k : StringKind) (value : List UInt8) : Call Unit := do
  k.writeLength host value.length
  writeBytes value

def readString (k : StringKind) : Call (List UInt8) := do
  let len ← k.readLength host
  readBytes len

def writeStringF16 (value : List UInt8) : Call Unit := writeString host .F16 value
def writeStringF32 (value : List UInt8) : Call Unit := writeString host .F32 value
def writeStringF64 (value : List UInt8) : Call Unit := writeString host .F64 value
def writeStringVint (value : List UInt8) : Call Unit := writeString host .Vint value

def readStringF16 : Call (List UInt8) := readString host .F16
def readStringF32 : Call (List UInt8) := readString host .F32
def readStringF64 : Call (List UInt8) := readString host .F64
def readStringVint : Call (List UInt8) := readString host .Vint

/-- A caller's sequence of strings, each with its writer. -/
def writeStrings : List (StringKind × List UInt8) → Call Unit
  | [] => pure ()
  | v :: vs => do
    writeString host v.1 v.2
    writeStrings vs

def readStrings : List StringKind → Call (List (List UInt8))
  | [] => pure []
  | k :: ks => do
    let v ← readString host k
    let vs ← readStrings ks
    return v :: vs

/-! ## The length -/

/-- What the length is written as. A `size_t` is below 2^64. -/
def StringKind.limit : StringKind → Nat
  | F16 => 2 ^ 16
  | F32 => 2 ^ 32
  | F64 => 2 ^ 64
  | Vint => 2 ^ 64

def StringKind.length (size : Nat) : StringKind → Value
  | F16 => .fuint16 (UInt16.ofNat size)
  | F32 => .fuint32 (UInt32.ofNat size)
  | F64 => .fuint64 (UInt64.ofNat size)
  | Vint => .uint64 (UInt64.ofNat size)

/-- The length that the reader gets; the varint reader has five rounds. -/
def StringKind.stored (size : Nat) : StringKind → Nat
  | Vint => size % 2 ^ 35
  | _ => size

/-- What a string takes in the buffer. -/
def stringBytes (little : Bool) (v : StringKind × List UInt8) : List UInt8 := (v.1.length v.2.length).bytes little ++ v.2

def stringsBytes (little : Bool) (vs : List (StringKind × List UInt8)) : List UInt8 := vs.flatMap (stringBytes little)

theorem stringsBytes_cons (little : Bool) (v : StringKind × List UInt8) (vs : List (StringKind × List UInt8)) :
    stringsBytes little (v :: vs) = stringBytes little v ++ stringsBytes little vs := List.flatMap_cons

theorem length_bytes_pos (little : Bool) (k : StringKind) (size : Nat) : 0 < ((k.length size).bytes little).length := by
  cases k with
  | Vint => exact groups_pos (by decide)
  | _ => simp [StringKind.length, Value.bytes]

/-- The length is written as one value. -/
theorem writeLength_eq (k : StringKind) (size : Nat) : k.writeLength host size = (k.length size).write host := by
  cases k <;> rfl

variable {k : StringKind} {s s' t : ByteArray} {size : Nat} {v : StringKind × List UInt8}
  {vs : List (StringKind × List UInt8)}

theorem writeLength_spec (hs : Rep s) (hroom : s.position + ((k.length size).bytes s.isLittleEndian).length ≤ s.capacity) :
    ∃ s', Returns (k.writeLength host size) s () s' ∧ Wrote s ((k.length size).bytes s.isLittleEndian) s' ∧
      s'.endian = s.endian := by
  rw [writeLength_eq]
  exact write_value host hs _ hroom

/-- However it is written, a length is one write of its bytes. -/
theorem writeLength_put (hs : Rep s) (h : Returns (k.writeLength host size) s () s') :
    Put s ((k.length size).bytes s.isLittleEndian) s' := by
  apply writeBytes_put hs
  rw [Returns] at h ⊢
  rw [← h]
  cases k with
  | F16 => exact (writeFixed_eq host 2 _ s).symm
  | F32 => exact (writeFixed_eq host 4 _ s).symm
  | F64 => exact (writeFixed_eq host 8 _ s).symm
  | Vint => exact congrArg (fun bs => writeBytes bs s) (varintLoop_eq_groups 10 _).symm

/-- The reader of a length returns what is stored; it stops behind the length unless the
    varint is too long for it. -/
theorem readLength_spec (hs : Rep s) (hsize : size < k.limit) {rest : List UInt8}
    (hu : s.unread = (k.length size).bytes s.isLittleEndian ++ rest) :
    ∃ s' n, Returns (k.readLength host) s (k.stored size) s' ∧ Skipped s n s' ∧ s'.endian = s.endian ∧
      (k.stored size = size → n = ((k.length size).bytes s.isLittleEndian).length) := by
  cases k with
  | F16 =>
    have hn : (UInt16.ofNat size).toNat = size := UInt16.toNat_ofNat_of_lt' hsize
    obtain ⟨s', hr, hskip, hend⟩ := readFixed_spec host hs (by decide : 1 ≤ 2) (UInt16.ofNat size).toNat_lt hu
    have hr' : Returns (readFuint16 host) s (UInt16.ofNat (UInt16.ofNat size).toNat) s' := hr.bind (.pure _ s')
    refine ⟨s', 2, ?_, hskip, hend, fun _ => (fixedBytes_length _ _ _).symm⟩
    rw [UInt16.ofNat_toNat] at hr'
    exact hr'.bind (by rw [hn]; exact .pure _ s')
  | F32 =>
    have hn : (UInt32.ofNat size).toNat = size := UInt32.toNat_ofNat_of_lt' hsize
    obtain ⟨s', hr, hskip, hend⟩ := readFixed_spec host hs (by decide : 1 ≤ 4) (UInt32.ofNat size).toNat_lt hu
    have hr' : Returns (readFuint32 host) s (UInt32.ofNat (UInt32.ofNat size).toNat) s' := hr.bind (.pure _ s')
    refine ⟨s', 4, ?_, hskip, hend, fun _ => (fixedBytes_length _ _ _).symm⟩
    rw [UInt32.ofNat_toNat] at hr'
    exact hr'.bind (by rw [hn]; exact .pure _ s')
  | F64 =>
    have hn : (UInt64.ofNat size).toNat = size := UInt64.toNat_ofNat_of_lt' hsize
    obtain ⟨s', hr, hskip, hend⟩ := readFixed_spec host hs (by decide : 1 ≤ 8) (UInt64.ofNat size).toNat_lt hu
    have hr' : Returns (readFuint64 host) s (UInt64.ofNat (UInt64.ofNat size).toNat) s' := hr.bind (.pure _ s')
    refine ⟨s', 8, ?_, hskip, hend, fun _ => (fixedBytes_length _ _ _).symm⟩
    rw [UInt64.ofNat_toNat] at hr'
    exact hr'.bind (by rw [hn]; exact .pure _ s')
  | Vint =>
    have hn : (UInt64.ofNat size).toNat = size := UInt64.toNat_ofNat_of_lt' hsize
    obtain ⟨s', hr, hskip, hend⟩ := readUint64_spec hs (UInt64.ofNat size) hu
    rw [hn] at hr hskip
    have hlow : (UInt64.ofNat (size % 2 ^ 35)).toNat = size % 2 ^ 35 :=
      UInt64.toNat_ofNat_of_lt' (Nat.lt_trans (Nat.mod_lt size (by decide)) (by decide))
    refine ⟨s', _, hr.bind (by rw [hlow]; exact .pure _ s'), hskip, hend, ?_⟩
    intro hfits
    have hsmall : size < 2 ^ 35 := by
      change size % 2 ^ 35 = size at hfits
      omega
    have hfive : (groups 10 size).length ≤ 5 :=
      (groups_length_le_iff 5 (Nat.lt_trans hsmall (by decide)) (by decide)).mpr ⟨hsmall, by decide⟩
    change min (groups 10 size).length 5 = (groups 10 (UInt64.ofNat size).toNat).length
    rw [hn, Nat.min_eq_left hfive]

/-! ## Sequences of strings -/

theorem writeString_spec (hs : Rep s) (hroom : s.position + (stringBytes s.isLittleEndian v).length ≤ s.capacity) :
    ∃ s', Returns (writeString host v.1 v.2) s () s' ∧ Wrote s (stringBytes s.isLittleEndian v) s' ∧
      s'.endian = s.endian := by
  rw [stringBytes, List.length_append] at hroom
  obtain ⟨t, hr, hw, hend⟩ := writeLength_spec host hs (k := v.1)
    (show s.position + ((v.1.length v.2.length).bytes s.isLittleEndian).length ≤ s.capacity by omega)
  obtain ⟨u, hr', hw', hend'⟩ := writeBytes_spec hw.rep v.2 (by rw [hw.position, hw.capacity]; omega)
  exact ⟨u, hr.bind hr', hw.trans hs hw', hend'.trans hend⟩

theorem writeStrings_spec (hs : Rep s) (hroom : s.position + (stringsBytes s.isLittleEndian vs).length ≤ s.capacity) :
    ∃ s', Returns (writeStrings host vs) s () s' ∧ Wrote s (stringsBytes s.isLittleEndian vs) s' ∧ s'.endian = s.endian := by
  induction vs generalizing s with
  | nil => exact ⟨s, .pure _ s, .refl hs, rfl⟩
  | cons v vs ih =>
    rw [stringsBytes_cons, List.length_append] at hroom
    obtain ⟨t, hr, hw, hend⟩ := writeString_spec host hs (v := v) (by omega)
    have hlittle : t.isLittleEndian = s.isLittleEndian := isLittleEndian_congr hend
    obtain ⟨u, hr', hw', hend'⟩ := ih hw.rep (by rw [hlittle, hw.position, hw.capacity]; omega)
    rw [hlittle] at hw'
    exact ⟨u, hr.bind hr', hw.trans hs hw', hend'.trans hend⟩

theorem writeString_put (hs : Rep s) (h : Returns (writeString host v.1 v.2) s () s') :
    Put s (stringBytes s.isLittleEndian v) s' := by
  obtain ⟨_, t, hlength, hbytes⟩ := h.inv
  have hput := writeLength_put host hs hlength
  exact hput.trans hs (writeBytes_put hput.rep hbytes)

theorem writeStrings_put (hs : Rep s) (h : Returns (writeStrings host vs) s () s') :
    Put s (stringsBytes s.isLittleEndian vs) s' := by
  induction vs generalizing s with
  | nil =>
    obtain ⟨-, rfl⟩ := Returns.unique (.pure () s) h
    exact .refl hs
  | cons v vs ih =>
    obtain ⟨_, t, hfirst, hrest⟩ := h.inv
    have hput := writeString_put host hs hfirst
    have hput' := ih hput.rep hrest
    rw [isLittleEndian_congr hput.endian] at hput'
    rw [stringsBytes_cons]
    exact hput.trans hs hput'

/-- What comes back is what was written, and the read of it looks at a block. -/
def ReadsBack (s : ByteArray) (vs : List (StringKind × List UInt8)) : Prop :=
  (∀ v ∈ vs, v.1.stored v.2.length = v.2.length) ∧
    (s.position + (stringsBytes s.isLittleEndian vs).length = s.capacity → ∀ v, vs.getLast? = some v → v.2 ≠ [])

/-- After the first string the question is the same for the others. -/
theorem readsBack_cons (ht : t.position = s.position + (stringBytes s.isLittleEndian v).length)
    (hcap : t.capacity = s.capacity) (hlittle : t.isLittleEndian = s.isLittleEndian) (hne : vs ≠ []) :
    ReadsBack s (v :: vs) ↔ v.1.stored v.2.length = v.2.length ∧ ReadsBack t vs := by
  have hlast : (v :: vs).getLast? = vs.getLast? := List.getLast?_cons_of_ne_nil hne
  simp only [ReadsBack, List.forall_mem_cons, stringsBytes_cons, List.length_append, hlast, ht, hcap, hlittle, and_assoc,
    Nat.add_assoc]

theorem stringsBytes_pos (little : Bool) (hne : vs ≠ []) : 0 < (stringsBytes little vs).length := by
  cases vs with
  | nil => exact absurd rfl hne
  | cons v vs =>
    have h := length_bytes_pos little v.1 v.2.length
    rw [stringsBytes_cons, stringBytes, List.length_append, List.length_append]
    omega

/-- Reading one string whose length fits, and whose bytes are not at the end of storage. -/
theorem readString_spec (hs : Rep s) (hsize : v.2.length < v.1.limit) (hlow : v.1.stored v.2.length = v.2.length)
    {rest : List UInt8} (hu : s.unread = stringBytes s.isLittleEndian v ++ rest)
    (hend : v.2 = [] → s.position + (stringBytes s.isLittleEndian v).length < s.capacity) :
    ∃ t, Returns (readString host v.1) s v.2 t ∧ Skipped s (stringBytes s.isLittleEndian v).length t ∧
      t.endian = s.endian := by
  rw [stringBytes, List.append_assoc] at hu
  obtain ⟨t, n, hr, hskip, hendian, hn⟩ := readLength_spec host hs hsize hu
  rw [hlow] at hr
  obtain rfl := hn hlow
  have hut : t.unread = v.2 ++ rest := by rw [hskip.unread, hu, List.drop_left]
  have hlen := unread_length hskip.rep
  have hsize' := hskip.rep.size_le
  rw [hut, List.length_append] at hlen
  have hp : t.position < t.capacity := by
    by_cases hv : v.2 = []
    · have h := hend hv
      rw [stringBytes, List.length_append, hv, List.length_nil] at h
      rw [hskip.position, hskip.capacity]
      simpa [hv] using h
    · have := List.length_pos_iff.mpr hv
      omega
  obtain ⟨u, hr', hskip', hendian'⟩ := readBytes_inside hskip.rep (n := v.2.length) (by rw [hut]; simp) hp
  refine ⟨u, hr.bind ?_, ?_, hendian'.trans hendian⟩
  · rwa [hut, List.take_left] at hr'
  · rw [stringBytes, List.length_append]
    exact hskip.trans hskip'

/-- A string that comes back had a length that fits, and was not an empty one at the end. -/
theorem readString_inv (hs : Rep s) (hsize : v.2.length < v.1.limit) {rest : List UInt8}
    (hu : s.unread = stringBytes s.isLittleEndian v ++ rest) (h : Returns (readString host v.1) s v.2 t) :
    v.1.stored v.2.length = v.2.length ∧ (v.2 = [] → s.position + (stringBytes s.isLittleEndian v).length < s.capacity) := by
  rw [stringBytes, List.append_assoc] at hu
  obtain ⟨t', n, hr, hskip, -, hn⟩ := readLength_spec host hs hsize hu
  obtain ⟨len, t'', hr', hbytes⟩ := h.inv
  obtain ⟨rfl, rfl⟩ := hr.unique hr'
  obtain ⟨hp, hle, hv⟩ := readBytes_inv hskip.rep hbytes
  have hlow : v.1.stored v.2.length = v.2.length := by
    have hlen := congrArg List.length hv
    rw [List.length_take, Nat.min_eq_left hle] at hlen
    exact hlen.symm
  refine ⟨hlow, ?_⟩
  intro hempty
  rw [hskip.position, hskip.capacity, hn hlow] at hp
  rw [stringBytes, List.length_append, hempty, List.length_nil]
  simpa [hempty] using hp

theorem readStrings_spec (hs : Rep s) (hsize : ∀ v ∈ vs, v.2.length < v.1.limit) {rest : List UInt8}
    (hu : s.unread = stringsBytes s.isLittleEndian vs ++ rest) (hback : ReadsBack s vs) :
    ∃ t, Returns (readStrings host (vs.map Prod.fst)) s (vs.map Prod.snd) t ∧
      Skipped s (stringsBytes s.isLittleEndian vs).length t := by
  induction vs generalizing s with
  | nil => exact ⟨s, .pure _ s, .refl hs⟩
  | cons v vs ih =>
    obtain ⟨hv, hvs⟩ := List.forall_mem_cons.mp hsize
    have hlen := unread_length hs
    have hple := hs.position_le
    have hsle := hs.size_le
    rw [hu, List.length_append, stringsBytes_cons, List.length_append] at hlen
    rw [stringsBytes_cons, List.append_assoc] at hu
    have hend : v.2 = [] → s.position + (stringBytes s.isLittleEndian v).length < s.capacity := by
      intro hempty
      by_cases hne : vs = []
      · -- the string is the last one
        subst hne
        have hlast := hback.2
        rw [stringsBytes_cons, List.length_append] at hlast
        have hroom : s.position + (stringBytes s.isLittleEndian v).length ≠ s.capacity := fun heq =>
          hlast (by simpa [stringsBytes] using heq) v rfl hempty
        omega
      · have := stringsBytes_pos s.isLittleEndian hne
        omega
    obtain ⟨t, hr, hskip, hendian⟩ := readString_spec host hs hv (hback.1 v List.mem_cons_self) hu hend
    have hlittle : t.isLittleEndian = s.isLittleEndian := isLittleEndian_congr hendian
    have hut : t.unread = stringsBytes t.isLittleEndian vs ++ rest := by rw [hskip.unread, hu, List.drop_left, hlittle]
    have hback' : ReadsBack t vs := by
      by_cases hne : vs = []
      · subst hne
        exact ⟨by simp, fun _ v hv => nomatch hv⟩
      · exact ((readsBack_cons hskip.position hskip.capacity hlittle hne).mp hback).2
    obtain ⟨u, hr', hskip'⟩ := ih hskip.rep hvs hut hback'
    rw [hlittle] at hskip'
    refine ⟨u, hr.bind (hr'.bind (.pure _ u)), ?_⟩
    rw [stringsBytes_cons, List.length_append]
    exact hskip.trans hskip'

theorem readStrings_inv (hs : Rep s) (hsize : ∀ v ∈ vs, v.2.length < v.1.limit) {rest : List UInt8}
    (hu : s.unread = stringsBytes s.isLittleEndian vs ++ rest)
    (h : Returns (readStrings host (vs.map Prod.fst)) s (vs.map Prod.snd) t) : ReadsBack s vs := by
  induction vs generalizing s t with
  | nil => exact ⟨by simp, fun _ v hv => nomatch hv⟩
  | cons v vs ih =>
    obtain ⟨hv, hvs⟩ := List.forall_mem_cons.mp hsize
    rw [stringsBytes_cons, List.append_assoc] at hu
    obtain ⟨x, t₁, hr, hrest⟩ := h.inv
    obtain ⟨xs, t₂, hr', hpure⟩ := hrest.inv
    have heq : x = v.2 ∧ xs = vs.map Prod.snd := by
      have := (Returns.unique (.pure (x :: xs) t₂) hpure).1
      simpa using this
    obtain ⟨rfl, rfl⟩ := heq
    obtain ⟨hlow, hend⟩ := readString_inv host hs hv hu hr
    obtain ⟨t₃, hr₃, hskip, hendian⟩ := readString_spec host hs hv hlow hu hend
    obtain ⟨-, rfl⟩ := hr.unique hr₃
    have hlittle : t₁.isLittleEndian = s.isLittleEndian := isLittleEndian_congr hendian
    have hut : t₁.unread = stringsBytes t₁.isLittleEndian vs ++ rest := by rw [hskip.unread, hu, List.drop_left, hlittle]
    have hback := ih hskip.rep hvs hut hr'
    by_cases hne : vs = []
    · subst hne
      refine ⟨by simpa using hlow, ?_⟩
      intro hroom w hw hempty
      cases hw
      have := hend hempty
      rw [stringsBytes_cons, List.length_append] at hroom
      simp only [stringsBytes, List.flatMap_nil, List.length_nil] at hroom
      omega
    · exact (readsBack_cons hskip.position hskip.capacity hlittle hne).mpr ⟨hlow, hback⟩

/-- Rewound and read with the matching readers, the strings come back and no data is left. -/
def StringsComeBack (s : ByteArray) (vs : List (StringKind × List UInt8)) : Prop :=
  ∃ t t', s.setPostion 0 = some (.ok (), t) ∧ Returns (readStrings host (vs.map Prod.fst)) t (vs.map Prod.snd) t' ∧
    t'.getReadSize = 0

theorem comeBack_iff_readsBack (hs : Rep s) (hp : s.position = 0) (hsize : ∀ v ∈ vs, v.2.length < v.1.limit)
    (hw : Returns (writeStrings host vs) s () s') (hold : s.size ≤ (stringsBytes s.isLittleEndian vs).length) :
    StringsComeBack host s' vs ↔ (∀ v ∈ vs, v.1.stored v.2.length = v.2.length) ∧
      (s'.position = s'.capacity → ∀ v, vs.getLast? = some v → v.2 ≠ []) := by
  have hput := writeStrings_put host hs hw
  have hend := hput.position
  obtain ⟨t, ht, htrep, hlittle, hcap, htp, htz, htu⟩ := rewind_written hs hput.rep hput.position hput.content
  have hlittle : t.isLittleEndian = s.isLittleEndian := hlittle.trans (isLittleEndian_congr hput.endian)
  have hback : ReadsBack t vs ↔ (∀ v ∈ vs, v.1.stored v.2.length = v.2.length) ∧
      (s'.position = s'.capacity → ∀ v, vs.getLast? = some v → v.2 ≠ []) := by
    rw [ReadsBack, hlittle, hcap, htp, ← hend]
  rw [hp] at ht
  rw [← hlittle] at htu
  rw [← hback]
  constructor
  · intro h
    obtain ⟨t₁, t', ht₁, hread, -⟩ := h
    rw [ht] at ht₁
    cases ht₁
    exact readStrings_inv host htrep hsize htu hread
  · intro h
    obtain ⟨t', hr', hskip⟩ := readStrings_spec host htrep hsize htu h
    refine ⟨t, t', ht, hr', ?_⟩
    rw [getReadSize, hskip.size, hskip.position, htz, htp, hput.size, hp, hlittle]
    omega

/-- Written from offset 0, exactly the lists come back whose varint lengths are below 2^35
    and that do not end with an empty string where the storage ends. -/
theorem string_round_trip_iff (hs : Rep s) (hp : s.position = 0) (vs : List (StringKind × List UInt8))
    (hsize : ∀ v ∈ vs, v.2.length < v.1.limit) (hw : Returns (writeStrings host vs) s () s')
    (hold : s.size ≤ (stringsBytes s.isLittleEndian vs).length) :
    StringsComeBack host s' vs ↔ (∀ v ∈ vs, v.1 = .Vint → v.2.length < 2 ^ 35) ∧
      ¬ (s'.position = s'.capacity ∧ ∃ k, vs.getLast? = some (k, [])) := by
  have hsame : ∀ k : StringKind, ∀ n, k.stored n = n ↔ (k = .Vint → n < 2 ^ 35) := by
    intro k n
    cases k with
    | Vint =>
      simp only [StringKind.stored, forall_const]
      omega
    | _ => simp [StringKind.stored]
  rw [comeBack_iff_readsBack host hs hp hsize hw hold]
  simp only [hsame]
  refine and_congr_right fun _ => ?_
  constructor
  · intro h hlast
    obtain ⟨hfull, k, hk⟩ := hlast
    exact h hfull (k, []) hk rfl
  · intro h hfull v hv hempty
    exact h ⟨hfull, v.1, by rw [hv, ← hempty]⟩

/-- Blocks of 4 that grow. -/
theorem string_round_trip_iff_grown : ∃ s', Returns (writeStrings .little [(.F16, [104, 105]), (.F16, [])])
    (new 4 (by decide) fun _ => 0) () s' ∧ StringsComeBack .little s' [(.F16, [104, 105]), (.F16, [])] := by
  obtain ⟨s', hw⟩ : ∃ s', Returns (writeStrings .little [(.F16, [104, 105]), (.F16, [])])
      (new 4 (by decide) fun _ => 0) () s' ∧ s'.position ≠ s'.capacity := by
    refine ⟨_, rfl, by decide⟩
  refine ⟨s', hw.1, ?_⟩
  exact (string_round_trip_iff .little (new_rep 4 (by decide) fun _ => 0) rfl [(.F16, [104, 105]), (.F16, [])] (by decide)
    hw.1 (by decide)).mpr ⟨by decide, fun h => hw.2 h.1⟩

/-- The length of the empty string ends with the storage, and the read of nothing that
    follows looks at the block after it. -/
theorem empty_string_at_the_end : ∃ s', Returns (writeStrings .little [(.F16, [104, 105]), (.F16, [])])
    (new 6 (by decide) fun _ => 0) () s' ∧ ¬ StringsComeBack .little s' [(.F16, [104, 105]), (.F16, [])] := by
  obtain ⟨s', hr, hwrote, -⟩ := writeStrings_spec .little (new_rep 6 (by decide) fun _ => 0)
    (show 0 + (stringsBytes false [(.F16, [104, 105]), (.F16, [])]).length ≤ 6 by decide)
  refine ⟨s', hr, ?_⟩
  rw [comeBack_iff_readsBack .little (new_rep 6 (by decide) fun _ => 0) rfl (by decide) hr (by decide)]
  intro h
  refine h.2 ?_ (.F16, []) rfl rfl
  rw [hwrote.position, hwrote.capacity]
  rfl

end LjrServer.ByteArray
