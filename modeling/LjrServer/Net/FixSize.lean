/-
  LjrServer.Net.FixSize — the loops that read or write a fixed number of bytes (stream.cpp).

  There are four: reading and writing, each with a buffer and with a `ByteArray`. Each asks
  the stream for the bytes that are left until there are none. What the stream's own `read`
  or `write` answers is the input; the result is taken as a `size_t`, which is never below
  zero.

  Proved:
  - `fixSize_iff`: the transfer is exact, and ends with the first answer that is not
    positive, exactly when no such answer is an error.
  - `http_readFixSize`: the reads of a body are such a transfer.
  - `error_not_seen`: an error that is answered is counted as bytes.
-/

import LjrServer.Http.Stream
import Mathlib.Algebra.Order.BigOperators.Group.List
import Mathlib.Algebra.GroupWithZero.Nat
import Mathlib.Algebra.Ring.Int.Defs

namespace LjrServer.Net

open LjrServer.Http

/-- A call of the stream's `read` or `write`: from where, and how many bytes. -/
structure Request where
  offset : Nat
  length : Nat
  deriving DecidableEq, Repr

/-- The calls of a loop, and what it returned; none while it waits for the last call. -/
structure Transfer where
  requests : List Request
  rt : Option Int
  deriving DecidableEq, Repr

/-- An `int` as a `size_t`. -/
def toSize (r : Int) : Nat := (r % 2 ^ 64).toNat

/-- What the four loops have in common; `advance` is where the next call begins. -/
def fixSize (advance : Nat → Int → Nat) (length : Nat) : List Int → Nat → Nat → Transfer
  | _, _, 0 => ⟨[], some (toInt32 length)⟩
  | [], offset, left + 1 => ⟨[⟨offset, left + 1⟩], none⟩
  | r :: rs, offset, left + 1 =>
    let len := toSize r
    if len ≤ 0 then ⟨[⟨offset, left + 1⟩], some (toInt32 len)⟩
    else
      let rest := fixSize advance length rs (advance offset r) ((left + 1 + 2 ^ 64 - len) % 2 ^ 64)
      { rest with requests := ⟨offset, left + 1⟩ :: rest.requests }

inductive Overload where
  | buffer
  | byteArray
  deriving DecidableEq, Repr

/-- The loop adds to its own offset; the position of a `ByteArray` is moved by the call, when
    it transferred something. -/
def Overload.advance : Overload → Nat → Int → Nat
  | buffer, offset, r => (offset + toSize r) % 2 ^ 64
  | byteArray, position, r => if 0 < r then position + r.toNat else position

namespace Stream

/-- `offset` counts from the buffer's start, or from the position at the start. -/
def readFixSize (o : Overload) (length : Nat) (results : List Int) : Transfer := fixSize o.advance length results 0 length

def writeFixSize (o : Overload) (length : Nat) (results : List Int) : Transfer := fixSize o.advance length results 0 length

end Stream

/-- So many calls transferred everything, each something. -/
def Filled (length : Nat) (rs : List Int) (n : Nat) : Prop :=
  n ≤ rs.length ∧ (∀ r ∈ rs.take n, 0 < r) ∧ (rs.take n).sum = length

/-- This answer is the first that is not positive, and there was something left. -/
def Stopped (length : Nat) (rs : List Int) (n : Nat) (r : Int) : Prop :=
  (∀ x ∈ rs.take n, 0 < x) ∧ (rs.take n).sum < length ∧ rs[n]? = some r ∧ r ≤ 0

/-- Each call is for what the calls before it left, and from where they ended; the loop
    returns `length` after the calls that transferred it, or the first answer that is not
    positive after this call. -/
structure Exact (length : Nat) (rs : List Int) (t : Transfer) : Prop where
  request : ∀ i q, t.requests[i]? = some q → (∀ r ∈ rs.take i, 0 < r) ∧ q.offset = (rs.take i).sum ∧
    q.length = length - (rs.take i).sum ∧ 0 < q.length
  filled : ∀ n, Filled length rs n → t.requests.length = n ∧ t.rt = some (length : Int)
  stopped : ∀ n r, Stopped length rs n r → t.requests.length = n + 1 ∧ t.rt = some r
  returned : ∀ v, t.rt = some v → (v = length ∧ ∃ n, Filled length rs n) ∨ ∃ n, Stopped length rs n v

/-- What the stream promises: it never transfers more than it was asked for. -/
def Bounded (rs : List Int) (t : Transfer) : Prop :=
  ∀ (i : Nat) (q : Request) (r : Int), t.requests[i]? = some q → rs[i]? = some r → r ≤ q.length

/-- No error is answered while there is something left. -/
def NoError (length : Nat) (rs : List Int) : Prop := ∀ n r, Stopped length rs n r → r = 0

variable {advance : Nat → Int → Nat} {o : Overload} {length offset left n : Nat} {r v : Int} {rs : List Int} {t : Transfer}

/-! ## The loop -/

theorem toSize_of_nonneg (h0 : 0 ≤ r) (h : r < 2 ^ 64) : toSize r = r.toNat := by
  rw [toSize, Int.emod_eq_of_lt h0 h]

theorem filled_cons {n : Nat} (left : Nat) (r : Int) (rs : List Int) (h0 : 0 < r) (h : r ≤ left) :
    Filled left (r :: rs) (n + 1) ↔ Filled (left - r.toNat) rs n := by
  simp only [Filled, List.take_succ_cons, List.forall_mem_cons, List.sum_cons, h0, true_and, List.length_cons,
    Nat.add_le_add_iff_right]
  constructor
  · intro hf
    exact ⟨hf.1, hf.2.1, by omega⟩
  · intro hf
    exact ⟨hf.1, hf.2.1, by omega⟩

theorem stopped_cons {n : Nat} (left : Nat) (r : Int) (rs : List Int) (h0 : 0 < r) (h : r ≤ left) :
    Stopped left (r :: rs) (n + 1) v ↔ Stopped (left - r.toNat) rs n v := by
  simp only [Stopped, List.take_succ_cons, List.forall_mem_cons, List.sum_cons, h0, true_and, List.getElem?_cons_succ]
  constructor
  · intro hs
    exact ⟨hs.1, by omega, hs.2.2⟩
  · intro hs
    exact ⟨hs.1, by omega, hs.2.2⟩

/-- `Exact` for what the loop does from here. -/
structure ExactFrom (total base left : Nat) (rs : List Int) (t : Transfer) : Prop where
  request : ∀ (i : Nat) (q : Request), t.requests[i]? = some q → (∀ r ∈ rs.take i, 0 < r) ∧
    q.offset = base + (rs.take i).sum ∧ q.length = left - (rs.take i).sum ∧ 0 < q.length
  filled : ∀ n, Filled left rs n → t.requests.length = n ∧ t.rt = some (total : Int)
  stopped : ∀ n r, Stopped left rs n r → t.requests.length = n + 1 ∧ t.rt = some r
  returned : ∀ v, t.rt = some v → (v = total ∧ ∃ n, Filled left rs n) ∨ ∃ n, Stopped left rs n v

theorem ExactFrom.exact (h : ExactFrom length 0 length rs t) : Exact length rs t :=
  ⟨by simpa using h.request, h.filled, h.stopped, h.returned⟩

variable {total base : Nat}

/-- The first call transferred something, and the rest is exact. -/
theorem exactFrom_cons (h0 : 0 < r) (h : r ≤ left) (hrest : ExactFrom total (base + r.toNat) (left - r.toNat) rs t) :
    ExactFrom total base left (r :: rs) { t with requests := ⟨base, left⟩ :: t.requests } := by
  refine ⟨?_, ?_, ?_, ?_⟩
  · intro i q hq
    cases i with
    | zero =>
      cases hq
      refine ⟨by simp, by simp, by simp, ?_⟩
      change 0 < left
      omega
    | succ i =>
      obtain ⟨hpos, hoffset, hlength, hq0⟩ := hrest.request i q hq
      refine ⟨List.forall_mem_cons.mpr ⟨h0, hpos⟩, ?_, ?_, hq0⟩
      · rw [hoffset, List.take_succ_cons, List.sum_cons]
        omega
      · rw [hlength, List.take_succ_cons, List.sum_cons]
        omega
  · intro n hf
    cases n with
    | zero =>
      have hsum : (0 : Int) = left := by simpa using hf.2.2
      omega
    | succ n =>
      obtain ⟨hlen, hrt⟩ := hrest.filled n ((filled_cons left r rs h0 h).mp hf)
      exact ⟨congrArg (· + 1) hlen, hrt⟩
  · intro n v hs
    cases n with
    | zero =>
      have hr : r = v := Option.some.inj hs.2.2.1
      have hv := hs.2.2.2
      omega
    | succ n =>
      obtain ⟨hlen, hrt⟩ := hrest.stopped n v ((stopped_cons left r rs h0 h).mp hs)
      exact ⟨congrArg (· + 1) hlen, hrt⟩
  · intro v hv
    rcases hrest.returned v hv with ⟨rfl, n, hf⟩ | ⟨n, hs⟩
    · exact .inl ⟨rfl, n + 1, (filled_cons left r rs h0 h).mpr hf⟩
    · exact .inr ⟨n + 1, (stopped_cons left r rs h0 h).mpr hs⟩

/-- Nothing was left. -/
theorem exactFrom_done (total base : Nat) (rs : List Int) : ExactFrom total base 0 rs ⟨[], some total⟩ := by
  have hsum : ∀ l : List Int, (∀ r ∈ l, 0 < r) → 0 ≤ l.sum := fun l hl => List.sum_nonneg fun r hr => Int.le_of_lt (hl r hr)
  refine ⟨fun i q hq => (nomatch hq), ?_, ?_, ?_⟩
  · intro n hf
    cases n with
    | zero => exact ⟨rfl, rfl⟩
    | succ n =>
      cases rs with
      | nil => exact absurd hf.1 (by simp)
      | cons r rs =>
        obtain ⟨hr, hpos⟩ := List.forall_mem_cons.mp hf.2.1
        have h0 : r + (rs.take n).sum = 0 := by simpa using hf.2.2
        have := hsum _ hpos
        omega
  · intro n r hs
    have := hsum _ hs.1
    exact absurd hs.2.1 (by omega)
  · intro v hv
    cases hv
    exact .inl ⟨rfl, 0, by simp [Filled]⟩

/-- The loop waits for its first call. -/
theorem exactFrom_waiting (h : 0 < left) : ExactFrom total base left [] ⟨[⟨base, left⟩], none⟩ := by
  refine ⟨?_, ?_, ?_, fun v hv => (nomatch hv)⟩
  · intro i q hq
    cases i with
    | zero =>
      cases hq
      exact ⟨by simp, by simp, by simp, h⟩
    | succ i => cases hq
  · intro n hf
    have hsum : (0 : Int) = left := by simpa using hf.2.2
    omega
  · intro n r hs
    have hr := hs.2.2.1
    simp at hr

/-- The first call transferred nothing. -/
theorem exactFrom_zero (h : 0 < left) : ExactFrom total base left (0 :: rs) ⟨[⟨base, left⟩], some 0⟩ := by
  have hfirst : ∀ n, (∀ x ∈ (0 :: rs).take n, (0 : Int) < x) → n = 0 := by
    intro n hpos
    cases n with
    | zero => rfl
    | succ n => exact absurd (hpos 0 (by simp)) (Int.lt_irrefl 0)
  refine ⟨?_, ?_, ?_, ?_⟩
  · intro i q hq
    cases i with
    | zero =>
      cases hq
      exact ⟨by simp, by simp, by simp, h⟩
    | succ i => cases hq
  · intro n hf
    have hn := hfirst n hf.2.1
    subst hn
    have hsum : (0 : Int) = left := by simpa using hf.2.2
    omega
  · intro n r hs
    have hn := hfirst n hs.1
    subst hn
    exact ⟨rfl, hs.2.2.1⟩
  · intro v hv
    cases hv
    exact .inr ⟨0, by simp, by simpa using h, rfl, Int.le_refl 0⟩

/-- An error is never returned. -/
theorem fixSize_rt (h : (fixSize advance length rs offset left).rt = some v) : v = 0 ∨ v = toInt32 length := by
  induction rs generalizing offset left with
  | nil =>
    cases left with
    | zero => exact .inr (Option.some.inj h).symm
    | succ left => cases h
  | cons r rs ih =>
    cases left with
    | zero => exact .inr (Option.some.inj h).symm
    | succ left =>
      rw [fixSize] at h
      simp only at h
      split at h
      · rename_i hlen
        rw [Nat.le_zero.mp hlen] at h
        exact .inl (Option.some.inj h).symm
      · exact ih h

theorem exact_of_noError (hlength : length < 2 ^ 31) (hbound : offset + left < 2 ^ 64)
    (hadv : ∀ offset r, 0 < r → offset + r.toNat < 2 ^ 64 → advance offset r = offset + r.toNat)
    (ha : Bounded rs (fixSize advance length rs offset left)) (hne : NoError left rs) :
    ExactFrom length offset left rs (fixSize advance length rs offset left) := by
  induction rs generalizing offset left with
  | nil =>
    cases left with
    | zero => simpa [fixSize, toInt32_of_lt hlength] using exactFrom_done length offset []
    | succ left => exact exactFrom_waiting (Nat.succ_pos left)
  | cons r rs ih =>
    cases left with
    | zero => simpa [fixSize, toInt32_of_lt hlength] using exactFrom_done length offset (r :: rs)
    | succ left =>
      by_cases hr : r ≤ 0
      · -- the first answer that is not positive is not an error
        have hzero : r = 0 := hne 0 r ⟨by simp, by simp, rfl, hr⟩
        subst hzero
        exact exactFrom_zero (Nat.succ_pos left)
      · have h0 : 0 < r := by omega
        have hcall : r ≤ (left + 1 : Nat) := by
          refine ha 0 ⟨offset, left + 1⟩ r ?_ rfl
          rw [fixSize]
          simp only
          split <;> rfl
        have hsize : toSize r = r.toNat := toSize_of_nonneg (by omega) (by omega)
        have hleft : (left + 1 + 2 ^ 64 - r.toNat) % 2 ^ 64 = left + 1 - r.toNat := by omega
        have hstep : fixSize advance length (r :: rs) offset (left + 1) =
            { fixSize advance length rs (offset + r.toNat) (left + 1 - r.toNat) with
              requests := ⟨offset, left + 1⟩ ::
                (fixSize advance length rs (offset + r.toNat) (left + 1 - r.toNat)).requests } := by
          rw [fixSize]
          simp only [hsize, hleft, hadv offset r h0 (by omega)]
          rw [if_neg (by omega)]
        rw [hstep] at ha ⊢
        apply exactFrom_cons h0 hcall
        refine ih (by omega) (fun i q x hq hx => ha (i + 1) q x hq hx) ?_
        intro n x hs
        exact hne (n + 1) x ((stopped_cons _ _ _ h0 hcall).mpr hs)

theorem advance_eq (o : Overload) (offset : Nat) (r : Int) (h0 : 0 < r) (h : offset + r.toNat < 2 ^ 64) :
    o.advance offset r = offset + r.toNat := by
  cases o with
  | buffer => rw [Overload.advance, toSize_of_nonneg (Int.le_of_lt h0) (by omega), Nat.mod_eq_of_lt h]
  | byteArray => rw [Overload.advance, if_pos h0]

theorem fixSize_exact_iff (o : Overload) (hlength : length < 2 ^ 31)
    (ha : Bounded rs (fixSize o.advance length rs 0 length)) :
    Exact length rs (fixSize o.advance length rs 0 length) ↔ NoError length rs := by
  constructor
  · intro h n r hs
    have hrt : r = 0 ∨ r = toInt32 length := fixSize_rt (h.stopped n r hs).2
    rw [toInt32_of_lt hlength] at hrt
    have hr := hs.2.2.2
    omega
  · intro hne
    exact (exact_of_noError hlength (by omega) (advance_eq o) ha hne).exact

/-- Every one of the four transfers is exact exactly when no error is answered while there
    is something left. -/
theorem fixSize_iff (length : Nat) (rs : List Int) (o : Overload) (h : length < 2 ^ 31) :
    (Bounded rs (Stream.readFixSize o length rs) → (Exact length rs (Stream.readFixSize o length rs) ↔ NoError length rs)) ∧
      (Bounded rs (Stream.writeFixSize o length rs) →
        (Exact length rs (Stream.writeFixSize o length rs) ↔ NoError length rs)) :=
  ⟨fixSize_exact_iff o h, fixSize_exact_iff o h⟩

/-- Five bytes in two calls, with no error. -/
theorem fixSize_iff_both : NoError 5 [2, 3] ∧
    (Exact 5 [2, 3] (Stream.readFixSize .byteArray 5 [2, 3]) ↔ NoError 5 [2, 3]) := by
  constructor
  · intro n r hstopped
    obtain ⟨-, -, hr, hle⟩ := hstopped
    match n with
    | 0 =>
      cases hr
      exact absurd hle (by decide)
    | 1 =>
      cases hr
      exact absurd hle (by decide)
    | n + 2 => simp at hr
  · apply (fixSize_iff 5 [2, 3] .byteArray (by decide)).1
    intro i q r hq hr
    match i with
    | 0 =>
      cases hq
      cases hr
      decide
    | 1 =>
      cases hq
      cases hr
      decide
    | i + 2 => simp at hr

/-- A read of a body asks the socket in such a loop. -/
theorem http_readFixSize {fuel : Nat} {s s' : Http.Socket} {buf bs : Bytes} (hleft : left < 2 ^ 63)
    (h : Http.Socket.readFixSize length fuel s left buf = some (v, bs, s')) :
    ∃ rs, (∀ r ∈ rs, 0 ≤ r) ∧ (fixSize Overload.buffer.advance length rs offset left).rt = some v := by
  have hdone : ∀ fuel s buf offset, Http.Socket.readFixSize length fuel s 0 buf = some (v, bs, s') →
      (fixSize Overload.buffer.advance length [] offset 0).rt = some v := by
    intro fuel s buf offset h
    rw [Http.Socket.readFixSize, Option.some.injEq, Prod.mk.injEq] at h
    rw [fixSize, h.1]
  induction fuel generalizing s left buf offset with
  | zero =>
    cases left with
    | zero => exact ⟨[], by simp, hdone _ _ _ _ h⟩
    | succ left => cases h
  | succ fuel ih =>
    cases left with
    | zero => exact ⟨[], by simp, hdone _ _ _ _ h⟩
    | succ left =>
      unfold Http.Socket.readFixSize at h
      split at h
      · cases h
      · exact ⟨[0], by simp, congrArg (Option.map Prod.fst) h⟩
      · rename_i bs' s₁ hne hread
        have hlen : 0 < bs'.length := List.length_pos_iff.mpr hne
        have hle : bs'.length ≤ left + 1 := by
          unfold Http.Socket.read at hread
          split at hread
          · cases hread
          · split at hread
            · cases hread
              exact Nat.zero_le _
            · cases hread
              exact List.length_take_le _ _
        obtain ⟨rs, hpos, hrt⟩ : ∃ rs, (∀ r ∈ rs, 0 ≤ r) ∧ (fixSize Overload.buffer.advance length rs
            (Overload.buffer.advance offset bs'.length) (left + 1 - bs'.length)).rt = some v := ih (by omega) h
        refine ⟨bs'.length :: rs, List.forall_mem_cons.mpr ⟨Int.natCast_nonneg _, hpos⟩, ?_⟩
        have hsize : toSize bs'.length = bs'.length := toSize_of_nonneg (Int.natCast_nonneg _) (by omega)
        have hrest : (left + 1 + 2 ^ 64 - bs'.length) % 2 ^ 64 = left + 1 - bs'.length := by omega
        rw [fixSize]
        simp only [hsize, hrest]
        rw [if_neg (by omega)]
        exact hrt

/-- After the error the next call is for six bytes from before the buffer, and if it
    transfers them the loop returns 5. -/
theorem error_not_seen : Stream.readFixSize .buffer 5 [-1, 6] = ⟨[⟨0, 5⟩, ⟨2 ^ 64 - 1, 6⟩], some 5⟩ ∧
    ¬ Exact 5 [-1, 6] (Stream.readFixSize .buffer 5 [-1, 6]) := by
  have hrun : Stream.readFixSize .buffer 5 [-1, 6] = ⟨[⟨0, 5⟩, ⟨2 ^ 64 - 1, 6⟩], some 5⟩ := by decide
  refine ⟨hrun, ?_⟩
  intro h
  have hrt := (h.stopped 0 (-1) ⟨by simp, by simp, rfl, by decide⟩).2
  rw [hrun] at hrt
  exact absurd hrt (by decide)

end LjrServer.Net
