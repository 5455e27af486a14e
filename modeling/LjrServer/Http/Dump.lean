/-
  LjrServer.Http.Dump — `HttpRequest::dump` (http.cpp), and the header map as it is written
  line by line and read back.

  Proved:
  - `get_put`: what a key finds after `m[key] = val`.
  - `get_puts`: what it finds when the lines of another map have been put.
  - `lexicalCast_decimal`: a number is read as it is printed.
-/

import Mathlib.Data.List.Pairwise
import LjrServer.Http.Message

namespace LjrServer.Http

/-! ## Writing -/

/-- `HttpMethodToString`: the entry at the method's number. The test lets `INVALID_METHOD`
    through, whose number is one past the end: `none`. -/
def httpMethodToString (m : HttpMethod) : Option Bytes := (methodMap.find? fun x => x.1 = m).map (·.2)

/-- An unsigned number on an `ostream`. -/
def decimal (n : Nat) : Bytes := bytes (Nat.toDigits 10 n)

/-- `(x.empty() ? "" : mark) << x` -/
def marked (mark : UInt8) (x : Bytes) : Bytes := if x = [] then [] else mark :: x

def HTTP_ : Bytes := bytes ['H', 'T', 'T', 'P', '/']

def CLOSE : Bytes := bytes ['c', 'l', 'o', 's', 'e']

namespace HttpRequest

def uriText (q : HttpRequest) : Bytes := q.path ++ (marked 63 q.query ++ marked 35 q.fragment)

/-- `HTTP/1.1` and the end of the line. -/
def versionText (q : HttpRequest) : Bytes :=
  HTTP_ ++ (decimal (q.version.toNat >>> 4) ++ 46 :: decimal (q.version &&& 0x0F).toNat) ++ [13, 10]

def fieldText (x : Bytes × Bytes) : Bytes := x.1 ++ 58 :: (x.2 ++ [13, 10])

/-- The line `dump` writes with a blank behind the colon. -/
def ownFieldText (x : Bytes × Bytes) : Bytes := x.1 ++ 58 :: 32 :: (x.2 ++ [13, 10])

def connectionValue (q : HttpRequest) : Bytes := if q.close then CLOSE else KEEP_ALIVE

/-- The header lines that are not skipped. -/
def dumped (q : HttpRequest) : MapType := q.headers.filter fun x => !strcasecmpEq x.1 CONNECTION

/-- The header block. -/
def dumpHeader (q : HttpRequest) : Option Bytes :=
  (httpMethodToString q.method).map fun method =>
    method ++ 32 :: (q.uriText ++ 32 :: (q.versionText ++ (ownFieldText (CONNECTION, q.connectionValue) ++
      (q.dumped.flatMap fieldText ++
        (if q.body = [] then [] else ownFieldText (CONTENT_LENGTH, decimal q.body.length)) ++ [13, 10]))))

def dump (q : HttpRequest) : Option Bytes := q.dumpHeader.map (· ++ q.body)

end HttpRequest

/-! ## Numbers -/

theorem digitVal_ofNat : ∀ c : Char, c.isDigit = true → digitVal 10 (UInt8.ofNat c.toNat) = some (c.toNat - 48) := by
  intro c hc
  have hrange : 48 ≤ c.toNat ∧ c.toNat ≤ 57 := by
    simpa [Char.isDigit, UInt32.le_iff_toNat_le] using hc
  have hbyte : (UInt8.ofNat c.toNat).toNat = c.toNat := by
    rw [UInt8.toNat_ofNat']
    omega
  have hval : c.toNat - 48 < 10 := by omega
  simp only [digitVal, hbyte, if_pos hrange, if_pos hval]

theorem digits_bytes : ∀ (cs : List Char) (acc : Nat), (∀ c ∈ cs, c.isDigit = true) →
    digits 10 acc (bytes cs) = Nat.ofDigitChars 10 cs acc
  | [], _, _ => rfl
  | c :: cs, acc, h => by
    have hc := digitVal_ofNat c (h c List.mem_cons_self)
    have ih := digits_bytes cs (acc * 10 + (c.toNat - 48)) fun d hd => h d (List.mem_cons_of_mem _ hd)
    simp only [bytes, List.map_cons, digits, hc] at ih ⊢
    rw [ih, Nat.ofDigitChars_cons, Nat.mul_comm]
    rfl

theorem decimal_digit {n : Nat} {b : UInt8} (hb : b ∈ decimal n) : (digitVal 10 b).isSome = true := by
  obtain ⟨c, hc, rfl⟩ := List.mem_map.mp hb
  rw [digitVal_ofNat c (Nat.isDigit_of_mem_toDigits (by decide) (by decide) hc)]
  rfl

theorem decimal_ne_nil (n : Nat) : decimal n ≠ [] := by
  intro h
  exact Nat.toDigits_ne_nil (List.map_eq_nil_iff.mp h)

theorem digits_decimal (n : Nat) : digits 10 0 (decimal n) = n := by
  rw [decimal, digits_bytes _ _ fun c hc => Nat.isDigit_of_mem_toDigits (by decide) (by decide) hc,
    Nat.ofDigitChars_ten_toDigits]

theorem decimal_printable {n : Nat} {b : UInt8} (hb : b ∈ decimal n) : 48 ≤ b.toNat ∧ b.toNat ≤ 57 := by
  obtain ⟨c, hc, rfl⟩ := List.mem_map.mp hb
  have hdigit := Nat.isDigit_of_mem_toDigits (b := 10) (by decide) (by decide) hc
  have hrange : 48 ≤ c.toNat ∧ c.toNat ≤ 57 := by
    simpa [Char.isDigit, UInt32.le_iff_toNat_le] using hdigit
  rw [UInt8.toNat_ofNat']
  omega

/-- A number is read as it is printed. -/
theorem lexicalCast_decimal {n : Nat} (h : n < 2 ^ 64) : lexicalCast (decimal n) = some n := by
  obtain ⟨b, bs, hb⟩ := List.exists_cons_of_ne_nil (decimal_ne_nil n)
  have hhead : (decimal n).headD 0 = b := by rw [hb]; rfl
  have hrange := decimal_printable (n := n) (b := b) (by rw [hb]; exact List.mem_cons_self)
  have hminus : b ≠ 45 := by rintro rfl; revert hrange; decide
  have hplus : b ≠ 43 := by rintro rfl; revert hrange; decide
  have hall : (decimal n).all (fun b => (digitVal 10 b).isSome) = true :=
    List.all_eq_true.mpr fun b hb => decimal_digit hb
  simp only [lexicalCast, hhead, hminus, hplus, or_self, if_false]
  rw [if_pos ⟨decimal_ne_nil n, hall, by rwa [digits_decimal]⟩, digits_decimal]

/-! ## The header map -/

theorem strcasecmpEq_iff {a b : Bytes} : strcasecmpEq a b = true ↔ (cstr a).map toLower = (cstr b).map toLower := beq_iff_eq

theorem strcasecmpEq_refl (a : Bytes) : strcasecmpEq a a = true := strcasecmpEq_iff.mpr rfl

/-- Names that compare equal are the same to every third. -/
theorem strcasecmpEq_congr {a b : Bytes} (h : strcasecmpEq a b = true) (c : Bytes) :
    strcasecmpEq a c = strcasecmpEq b c := by
  unfold strcasecmpEq
  rw [strcasecmpEq_iff.mp h]

theorem lexLess_irrefl : ∀ a : Bytes, lexLess a a = false
  | [] => rfl
  | b :: a => by simp [lexLess, lexLess_irrefl a]

theorem eq_of_not_lexLess : ∀ {a b : Bytes}, lexLess a b = false → lexLess b a = false → a = b
  | [], [], _, _ => rfl
  | [], _ :: _, h, _ => by cases h
  | _ :: _, [], _, h => by cases h
  | x :: a, y :: b, hab, hba => by
    simp only [lexLess] at hab hba
    split at hab
    · cases hab
    · rename_i hxy
      split at hba
      · cases hba
      · rename_i hyx
        rw [if_neg hyx] at hab
        have heq : x = y := UInt8.toNat_inj.mp (by omega)
        rw [heq, eq_of_not_lexLess hab hba]

theorem caseInsensitiveLess_irrefl {a b : Bytes} (h : strcasecmpEq a b = true) : caseInsensitiveLess a b = false := by
  rw [caseInsensitiveLess, strcasecmpEq_iff.mp h]
  exact lexLess_irrefl _

theorem eq_of_not_less {a b : Bytes} (hab : caseInsensitiveLess a b = false) (hba : caseInsensitiveLess b a = false) :
    strcasecmpEq a b = true := strcasecmpEq_iff.mpr (eq_of_not_lexLess hab hba)

namespace MapType

variable {key k v : Bytes} {m : MapType}

theorem get_cons : get key ((k, v) :: m) = if strcasecmpEq k key then some v else get key m := by
  unfold get
  rw [List.find?_cons]
  cases strcasecmpEq k key <;> rfl

/-- A key finds the value put under it, whatever its case. -/
theorem get_put : get key (put k v m) = if strcasecmpEq k key then some v else get key m := by
  induction m with
  | nil => exact get_cons
  | cons x m ih =>
    obtain ⟨k', v'⟩ := x
    rw [put]
    split
    · exact get_cons
    · rename_i hlt
      split
      · rename_i hgt
        rw [get_cons, ih, get_cons]
        by_cases hk : strcasecmpEq k' key = true
        · -- the key passed is not the one put
          have hne : strcasecmpEq k key = false := by
            rw [Bool.eq_false_iff]
            intro heq
            have hsame : strcasecmpEq k' k = true := by
              rw [strcasecmpEq_congr hk k, ← strcasecmpEq_congr heq k]
              exact strcasecmpEq_refl k
            rw [caseInsensitiveLess_irrefl hsame] at hgt
            cases hgt
          rw [if_pos hk, hne, if_neg Bool.false_ne_true, if_pos hk]
        · rw [if_neg hk, if_neg hk]
      · rename_i hgt
        have hsame : strcasecmpEq k k' = true :=
          eq_of_not_less (Bool.eq_false_iff.mpr hlt) (Bool.eq_false_iff.mpr hgt)
        rw [get_cons, get_cons, strcasecmpEq_congr hsame key]
        split <;> rfl

/-- The lines of a map put one after the other. -/
def puts (lines m : MapType) : MapType := lines.foldl (fun m x => put x.1 x.2 m) m

theorem get_none (h : ∀ x ∈ m, strcasecmpEq x.1 key = false) : get key m = none := by
  unfold get
  rw [List.find?_eq_none.mpr fun x hx => by simp [h x hx]]
  rfl

theorem get_puts {lines : MapType} (h : lines.Pairwise fun x y => caseInsensitiveLess x.1 y.1 = true) :
    get key (puts lines m) = (get key lines).or (get key m) := by
  induction lines generalizing m with
  | nil => rfl
  | cons x lines ih =>
    obtain ⟨k, v⟩ := x
    obtain ⟨hfirst, hrest⟩ := List.pairwise_cons.mp h
    rw [puts, List.foldl_cons, ← puts, ih hrest, get_put, get_cons]
    by_cases hk : strcasecmpEq k key = true
    · have hnone : get key lines = none := by
        refine get_none fun y hy => ?_
        rw [Bool.eq_false_iff]
        intro heq
        have hsame : strcasecmpEq k y.1 = true := by
          rw [strcasecmpEq_congr hk y.1, ← strcasecmpEq_congr heq y.1]
          exact strcasecmpEq_refl y.1
        have hless : caseInsensitiveLess k y.1 = true := hfirst y hy
        rw [caseInsensitiveLess_irrefl hsame] at hless
        cases hless
      rw [if_pos hk, if_pos hk, hnone]
      rfl
    · rw [if_neg hk, if_neg hk]

/-- Lines left out do not change what other keys find. -/
theorem get_filter {name : Bytes} (h : strcasecmpEq name key = false) :
    get key (m.filter fun x => !strcasecmpEq x.1 name) = get key m := by
  induction m with
  | nil => rfl
  | cons x m ih =>
    obtain ⟨k, v⟩ := x
    rw [List.filter_cons, get_cons]
    split
    · rw [get_cons, ih]
    · rename_i hk
      have hname : strcasecmpEq k name = true := by simpa using hk
      rw [ih, strcasecmpEq_congr hname key, h]
      rfl

end MapType

end LjrServer.Http
