/-
  LjrServer.Http.Reading — what the reads of a connection return while bytes are pending.

  Proved:
  - `Socket.read_pending`: a read takes some bytes from the front, one at least.
  - `readFixSize_pending`: `readFixSize` takes as many as it is asked for.
  - `readFixSize_ended`: and returns 0 where there are not as many.
  - `recvBody_pending`: a body is the bytes in the buffer and those behind them.
  - `recvHeader_parsed`: a turn of the header loop is a call of the parser and its tests.
-/

import LjrServer.Lib.Pieces
import LjrServer.Http.Stream

namespace LjrServer.Http

open LjrServer.Lib

namespace Socket

/-- A connection on which these bytes are to be read. -/
def of (pending : List Bytes) : Socket := { pending }

@[simp] theorem rest_of (ps : List Bytes) : (of ps).rest = ps.flatten := rfl

theorem read_length {sock sock' : Socket} {n : Nat} {bs : Bytes} (h : sock.read n = (some bs, sock')) : bs.length ≤ n := by
  unfold read at h
  split at h
  · cases h
  · split at h
    · cases h
      exact Nat.zero_le n
    · cases h
      exact List.length_take_le _ _

theorem read_cons {p : Bytes} {k : Nat} (hk : p.length ≤ k) (ps : List Bytes) : (of (p :: ps)).read k = (some p, of ps) := by
  simp only [read, of, not_true, if_false, List.take_of_length_le hk, if_pos hk]

/-- A read of `k` bytes takes some bytes from the front, at least one. -/
theorem read_pending {ps : List Bytes} (hne : ∀ p ∈ ps, p ≠ []) (hps : ps ≠ []) {k : Nat} (hk : 0 < k) :
    ∃ n, 0 < n ∧ n ≤ k ∧ n ≤ ps.flatten.length ∧
      (of ps).read k = (some (ps.flatten.take n), of (dropFront n ps)) := by
  cases ps with
  | nil => exact absurd rfl hps
  | cons p ps =>
    have hp := hne p List.mem_cons_self
    have hpos : 0 < p.length := List.length_pos_iff.mpr hp
    have hlen : p.length ≤ (p :: ps).flatten.length := by
      rw [List.flatten_cons, List.length_append]
      omega
    by_cases hle : p.length ≤ k
    · refine ⟨p.length, hpos, hle, hlen, ?_⟩
      rw [read_cons hle, dropFront_of_le hp (Nat.le_refl _), Nat.sub_self, dropFront_zero, List.flatten_cons, List.take_left]
    · refine ⟨k, hk, Nat.le_refl k, by omega, ?_⟩
      rw [dropFront_of_lt (Nat.lt_of_not_le hle), List.flatten_cons, List.take_append_of_le_length (by omega)]
      simp only [read, of, not_true, if_false, if_neg hle]

theorem readFixSize_pending (length : Nat) : ∀ (fuel left : Nat) {ps : List Bytes} (buf : Bytes), (∀ p ∈ ps, p ≠ []) →
    left ≤ fuel → left ≤ ps.flatten.length →
    readFixSize length fuel (of ps) left buf =
      some (toInt32 length, buf ++ ps.flatten.take left, of (dropFront left ps)) := by
  intro fuel
  induction fuel with
  | zero =>
    intro left ps buf _ hfuel _
    have h0 : left = 0 := by omega
    subst h0
    rw [readFixSize, List.take_zero, List.append_nil, dropFront_zero]
  | succ fuel ih =>
    intro left ps buf hne hfuel hleft
    cases left with
    | zero => rw [readFixSize, List.take_zero, List.append_nil, dropFront_zero]
    | succ left =>
      have hps : ps ≠ [] := by
        rintro rfl
        rw [List.flatten_nil, List.length_nil] at hleft
        omega
      obtain ⟨n, hn0, hn, hlen, hread⟩ := read_pending hne hps (Nat.succ_pos left)
      have hflat := flatten_dropFront n hne
      have hbs : (ps.flatten.take n).length = n := List.length_take_of_le hlen
      have hrest := ih (left + 1 - n) (buf ++ ps.flatten.take n) (dropFront_ne_nil n hne) (by omega)
        (by rw [hflat, List.length_drop]; omega)
      rw [readFixSize, hread]
      cases hcase : ps.flatten.take n with
      | nil =>
        rw [hcase] at hbs
        rw [List.length_nil] at hbs
        omega
      | cons b bs =>
        rw [hcase] at hbs hrest
        dsimp only
        rw [hbs, hrest, hflat, ← dropFront_add n _ hne, List.append_assoc, ← hcase, ← List.take_add,
          show n + (left + 1 - n) = left + 1 by omega]

/-- Where fewer bytes are to come, it is the end of the stream that is returned. -/
theorem readFixSize_ended (length : Nat) : ∀ (fuel left : Nat) {ps : List Bytes} (buf : Bytes), (∀ p ∈ ps, p ≠ []) →
    left ≤ fuel → ps.flatten.length < left →
    ∃ bs, readFixSize length fuel (of ps) left buf = some (0, bs, of []) := by
  intro fuel
  induction fuel with
  | zero =>
    intro left ps buf _ hfuel hleft
    omega
  | succ fuel ih =>
    intro left ps buf hne hfuel hleft
    obtain ⟨left, rfl⟩ := Nat.exists_eq_succ_of_ne_zero (Nat.ne_of_gt (Nat.zero_lt_of_lt hleft))
    by_cases hps : ps = []
    · subst hps
      exact ⟨buf, rfl⟩
    · obtain ⟨n, hn0, hn, hlen, hread⟩ := read_pending hne hps (Nat.succ_pos left)
      have hflat := flatten_dropFront n hne
      have hbs : (ps.flatten.take n).length = n := List.length_take_of_le hlen
      obtain ⟨bs, hrest⟩ := ih (left + 1 - n) (buf ++ ps.flatten.take n) (dropFront_ne_nil n hne) (by omega)
        (by rw [hflat, List.length_drop]; omega)
      refine ⟨bs, ?_⟩
      rw [readFixSize, hread]
      cases hcase : ps.flatten.take n with
      | nil =>
        rw [hcase, List.length_nil] at hbs
        omega
      | cons b bytes =>
        rw [hcase] at hbs hrest
        dsimp only
        rw [hbs, hrest]

end Socket

/-- There is no string of such a length. -/
theorem recvBody_thrown (sock : Socket) (data : Bytes) (offset : Nat) {length : Nat} (h : maxSize < length) :
    recvBody sock data offset length = none := if_pos h

theorem recvBody_buffered {sock : Socket} {data extra : Bytes} {offset length : Nat} (hextra : data.take offset = extra)
    (hsize : length ≤ maxSize) (hle : length ≤ offset) :
    recvBody sock data offset length = some (some (extra.take length), sock) := by
  rw [recvBody, if_neg (Nat.not_lt.mpr hsize), Nat.min_eq_left hle, if_pos hle, slice, List.drop_zero, ← hextra, List.take_take, Nat.min_eq_left hle]

theorem recvBody_ended {ps : List Bytes} (hne : ∀ p ∈ ps, p ≠ []) {data : Bytes} {offset length : Nat}
    (hsize : length ≤ maxSize) (hended : offset + ps.flatten.length < length) :
    recvBody (Socket.of ps) data offset length = some (none, (Socket.of []).close) := by
  obtain ⟨bs, hread⟩ := Socket.readFixSize_ended (length - offset) (length - offset) (length - offset) [] hne
    (Nat.le_refl _) (by omega)
  have hlt : ¬ length ≤ offset := by omega
  simp only [recvBody, if_neg (Nat.not_lt.mpr hsize), if_neg hlt, hread, Int.le_refl, if_true]

/-- A length that is not positive as an `int` is taken for a failure. -/
theorem recvBody_refused {ps : List Bytes} (hne : ∀ p ∈ ps, p ≠ []) {data : Bytes} {offset length : Nat}
    (hsize : length ≤ maxSize) (hoffset : offset < length) (hpending : length - offset ≤ ps.flatten.length)
    (hint : toInt32 ((length - offset : Nat) : Int) ≤ 0) :
    recvBody (Socket.of ps) data offset length = some (none, (Socket.of (dropFront (length - offset) ps)).close) := by
  have hread := Socket.readFixSize_pending (length - offset) (length - offset) (length - offset) [] hne (Nat.le_refl _)
    hpending
  simp only [recvBody, if_neg (Nat.not_lt.mpr hsize), if_neg (Nat.not_le.mpr hoffset), hread, if_pos hint]

/-- A body of which `extra` is in the buffer and the rest pending. The length still to come
    is handed through an `int`. -/
theorem recvBody_pending {ps : List Bytes} (hne : ∀ p ∈ ps, p ≠ []) {data extra : Bytes} {offset : Nat}
    (hextra : data.take offset = extra) {length : Nat} (hsize : length ≤ maxSize) (hoffset : offset ≤ length)
    (hpending : length - offset ≤ ps.flatten.length) (hint : length = offset ∨ 0 < toInt32 ((length - offset : Nat) : Int)) :
    recvBody (Socket.of ps) data offset length =
      some (some (extra ++ ps.flatten.take (length - offset)), Socket.of (dropFront (length - offset) ps)) := by
  have hbuffered : slice data 0 (min length offset) = extra := by
    rw [Nat.min_eq_right hoffset, slice, List.drop_zero, hextra]
  by_cases hle : length ≤ offset
  · have h0 : length - offset = 0 := by omega
    simp only [recvBody, if_neg (Nat.not_lt.mpr hsize), hbuffered, if_pos hle, h0, List.take_zero, List.append_nil, dropFront_zero]
  · have hpos : ¬ toInt32 ((length - offset : Nat) : Int) ≤ 0 := by
      rcases hint with h | h
      · omega
      · omega
    simp only [recvBody, if_neg (Nat.not_lt.mpr hsize), hbuffered, if_neg hle,
      Socket.readFixSize_pending (length - offset) (length - offset) (length - offset) [] hne (Nat.le_refl _) hpending,
      if_neg hpos, List.nil_append]

/-! ## A turn of the header loop -/

variable {P : Type} {N offset : Nat} {sock sock' : Socket}

theorem recvHeader_ended (I : HeaderParser P) (fuel : Nat) (p : P) (data : Bytes)
    (hread : sock.read (N - offset) = (none, sock') ∨ sock.read (N - offset) = (some [], sock')) :
    recvHeader I N (fuel + 1) sock p data offset = some (none, sock'.close) := by
  rcases hread with hread | hread
  · rw [recvHeader, hread]
  · rw [recvHeader, hread]

theorem recvHeader_parsed (I : HeaderParser P) (fuel : Nat) (p : P) (data : Bytes) {bs : Bytes}
    (hread : sock.read (N - offset) = (some bs, sock')) (hne : bs ≠ []) :
    recvHeader I N (fuel + 1) sock p data offset =
      (I.execute p (splice data offset bs) (bs.length + offset)).bind fun r =>
        if I.hasError r.2.1 then some (none, sock'.close)
        else if ((bs.length + offset - r.1 : Nat) : Int) = toInt32 N then some (none, sock'.close)
        else if I.isFinished r.2.1 ≠ 0 then some (some (r.2.1, r.2.2, bs.length + offset - r.1), sock')
        else recvHeader I N fuel sock' r.2.1 r.2.2 (bs.length + offset - r.1) := by
  rw [recvHeader, hread]
  cases bs with
  | nil => exact absurd rfl hne
  | cons b bs =>
    dsimp only
    cases I.execute p (splice data offset (b :: bs)) ((b :: bs).length + offset) with
    | none => rfl
    | some r => rfl

end LjrServer.Http
