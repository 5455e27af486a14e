/-
  LjrServer.Http.Message — requests, responses and their header map (http.h, http.cpp), and
  the C library functions the parsers call on raw memory.

  A string is its bytes. A pointer is what memory holds from it on; past the end of what
  is modelled it reads as NUL.
-/

import Mathlib.Algebra.GroupWithZero.Nat
import Mathlib.Algebra.Ring.Int.Defs

namespace LjrServer.Http

abbrev Bytes := List UInt8

def bytes (cs : List Char) : Bytes := cs.map fun c => UInt8.ofNat c.toNat

/-! ## C strings -/

/-- `c_str()`: up to the first NUL. -/
def cstr (s : Bytes) : Bytes := s.takeWhile (· ≠ 0)

/-- `strncmp(a, b, n) == 0`. -/
def strncmpEq : Nat → Bytes → Bytes → Bool
  | 0, _, _ => true
  | n + 1, a, b =>
    let x := a.headD 0
    if x ≠ b.headD 0 then false else if x = 0 then true else strncmpEq n a.tail b.tail

def toLower (b : UInt8) : UInt8 := if 65 ≤ b.toNat ∧ b.toNat ≤ 90 then b + 32 else b

def lexLess : Bytes → Bytes → Bool
  | _, [] => false
  | [], _ :: _ => true
  | a :: as, b :: bs => if a.toNat < b.toNat then true else if b.toNat < a.toNat then false else lexLess as bs

/-- `CaseInsensitiveLess`: `strcasecmp(lhs, rhs) < 0`. -/
def caseInsensitiveLess (lhs rhs : Bytes) : Bool := lexLess ((cstr lhs).map toLower) ((cstr rhs).map toLower)

/-- `strcasecmp(lhs, rhs) == 0`. -/
def strcasecmpEq (lhs rhs : Bytes) : Bool := (cstr lhs).map toLower == (cstr rhs).map toLower

def isSpace (b : UInt8) : Bool := b = 32 ∨ (9 ≤ b.toNat ∧ b.toNat ≤ 13)

/-- The value of a digit in a base up to 36. -/
def digitVal (base : Nat) (b : UInt8) : Option Nat :=
  let v :=
    if 48 ≤ b.toNat ∧ b.toNat ≤ 57 then b.toNat - 48
    else if 97 ≤ b.toNat ∧ b.toNat ≤ 122 then b.toNat - 87
    else if 65 ≤ b.toNat ∧ b.toNat ≤ 90 then b.toNat - 55
    else base
  if v < base then some v else none

/-- The number the leading digits spell, on top of `acc`. -/
def digits (base : Nat) : Nat → Bytes → Nat
  | acc, [] => acc
  | acc, b :: bs =>
    match digitVal base b with
    | some v => digits base (acc * base + v) bs
    | none => acc

/-- `strtol(s, NULL, base)` for base 10 or 16, with a 64-bit `long`. -/
def strtol (base : Nat) (s : Bytes) : Int :=
  let s := s.dropWhile isSpace
  let neg := s.headD 0 = 45
  let s := if s.headD 0 = 45 ∨ s.headD 0 = 43 then s.tail else s
  let s :=
    match s with
    | z :: x :: d :: rest => if base = 16 ∧ z = 48 ∧ (x = 120 ∨ x = 88) ∧ (digitVal 16 d).isSome then d :: rest else s
    | _ => s
  let n : Int := digits base 0 s
  if neg then max (-n) (-(2 ^ 63)) else min n (2 ^ 63 - 1)

/-- A `long` stored in an `int`. -/
def toInt32 (v : Int) : Int := v.bmod (2 ^ 32)

theorem toInt32_of_lt {n : Nat} (h : n < 2 ^ 31) : toInt32 n = n := by
  rw [toInt32, Int.bmod_def]
  omega

theorem toInt32_eq (n : Nat) :
    toInt32 n = if n % 2 ^ 32 < 2 ^ 31 then ((n % 2 ^ 32 : Nat) : Int) else ((n % 2 ^ 32 : Nat) : Int) - 2 ^ 32 := by
  have h := Int.bmod_def n (2 ^ 32)
  unfold toInt32
  split at h <;> split <;> omega

def atoi (s : Bytes) : Int := toInt32 (strtol 10 s)

/-- `boost::lexical_cast<uint64_t>`; `none` is `bad_lexical_cast`. -/
def lexicalCast (s : Bytes) : Option Nat :=
  let neg := s.headD 0 = 45
  let ds := if s.headD 0 = 45 ∨ s.headD 0 = 43 then s.tail else s
  if ds ≠ [] ∧ ds.all (fun b => (digitVal 10 b).isSome) ∧ digits 10 0 ds < 2 ^ 64 then
    some (if neg then (2 ^ 64 - digits 10 0 ds) % 2 ^ 64 else digits 10 0 ds)
  else none

theorem lexicalCast_lt {s : Bytes} {n : Nat} (h : lexicalCast s = some n) : n < 2 ^ 64 := by
  unfold lexicalCast at h
  generalize (if s.headD 0 = 45 ∨ s.headD 0 = 43 then s.tail else s) = ds at h
  dsimp only at h
  split at h
  · rename_i hdigits
    rw [Option.some.injEq] at h
    rw [← h]
    split
    · exact Nat.mod_lt _ (by decide)
    · exact hdigits.2.2
  · cases h

/-! ### Numbers that end where their token does -/

theorem digitVal_not_sign {b : UInt8} (h : (digitVal 16 b).isSome = true) :
    isSpace b = false ∧ b ≠ 45 ∧ b ≠ 43 ∧ b ≠ 120 ∧ b ≠ 88 := by
  have hv : 48 ≤ b.toNat ∧ b.toNat ≤ 57 ∨ 97 ≤ b.toNat ∧ b.toNat ≤ 102 ∨ 65 ≤ b.toNat ∧ b.toNat ≤ 70 := by
    grind [digitVal]
  have hne : ∀ c : UInt8,
      ¬ (48 ≤ c.toNat ∧ c.toNat ≤ 57 ∨ 97 ≤ c.toNat ∧ c.toNat ≤ 102 ∨ 65 ≤ c.toNat ∧ c.toNat ≤ 70) → b ≠ c := by
    intro c hc hbc
    exact hc (hbc ▸ hv)
  refine ⟨?_, hne _ (by decide), hne _ (by decide), hne _ (by decide), hne _ (by decide)⟩
  have h32 : b ≠ 32 := hne _ (by decide)
  simp only [isSpace, h32, false_or, decide_eq_false_iff_not]
  omega

/-- A number without a sign or a prefix. -/
theorem strtol_of_digit {base : Nat} {b : UInt8} {bs : Bytes} (hb : (digitVal 16 b).isSome = true)
    (hx : base ≠ 16 ∨ bs.headD 0 ≠ 120 ∧ bs.headD 0 ≠ 88) :
    strtol base (b :: bs) = min (digits base 0 (b :: bs) : Int) (2 ^ 63 - 1) := by
  obtain ⟨hspace, hminus, hplus, _, _⟩ := digitVal_not_sign hb
  have hdrop : (b :: bs).dropWhile isSpace = b :: bs := by rw [List.dropWhile_cons_of_neg (by simp [hspace])]
  have hhead : (b :: bs).headD 0 = b := rfl
  simp only [strtol, hdrop, hhead, hminus, hplus, or_self, if_false]
  match bs, hx with
  | [], _ => rfl
  | [_], _ => rfl
  | x :: d :: rest, hx =>
    have hx' : ¬ (base = 16 ∧ b = 48 ∧ (x = 120 ∨ x = 88) ∧ (digitVal 16 d).isSome = true) := by
      rintro ⟨h16, _, h | h, _⟩
      · exact hx.elim (· h16) (·.1 h)
      · exact hx.elim (· h16) (·.2 h)
    simp only [if_neg hx']

theorem digits_append {base : Nat} (rest : Bytes) : ∀ (ds : Bytes) (acc : Nat),
    (∀ b ∈ ds, (digitVal base b).isSome = true) →
    digits base acc (ds ++ rest) = digits base (digits base acc ds) rest
  | [], _, _ => rfl
  | b :: ds, acc, h => by
    obtain ⟨v, hv⟩ := Option.isSome_iff_exists.mp (h b List.mem_cons_self)
    simp only [List.cons_append, digits, hv]
    exact digits_append rest ds _ fun c hc => h c (List.mem_cons_of_mem _ hc)

theorem digits_stop {base acc : Nat} {b : UInt8} (h : digitVal base b = none) (bs : Bytes) :
    digits base acc (b :: bs) = acc := by
  simp only [digits, h]

/-- What is behind the first byte that is no digit does not count. -/
theorem digits_congr {base : Nat} : ∀ (n : Nat) {x y : Bytes} (acc : Nat), x.take (n + 1) = y.take (n + 1) →
    (∃ b, x[n]? = some b ∧ digitVal base b = none) → digits base acc x = digits base acc y
  | n, [], _, _, _, ⟨_, hb, _⟩ => by cases hb
  | n, _ :: _, [], _, h, _ => by cases h
  | n, b :: x, c :: y, acc, h, ⟨e, he, hnone⟩ => by
    obtain ⟨rfl, htail⟩ := List.cons.inj h
    cases hv : digitVal base b with
    | none => rw [digits_stop hv, digits_stop hv]
    | some v =>
      cases n with
      | zero =>
        cases he
        rw [hv] at hnone
        cases hnone
      | succ n =>
        simp only [digits, hv]
        exact digits_congr n _ htail ⟨e, he, hnone⟩

/-! ## Methods -/

inductive HttpMethod where
  | DELETE | GET | HEAD | POST | PUT | CONNECT | OPTIONS | TRACE | COPY | LOCK | MKCOL | MOVE | PROPFIND | PROPPATCH
  | SEARCH | UNLOCK | BIND | REBIND | UNBIND | ACL | REPORT | MKACTIVITY | CHECKOUT | MERGE | MSEARCH | NOTIFY
  | SUBSCRIBE | UNSUBSCRIBE | PATCH | PURGE | MKCALENDAR | LINK | UNLINK | SOURCE | INVALID_METHOD
  deriving DecidableEq, Repr

/-- `HTTP_METHOD_MAP`; the preprocessor puts spaces around the minus of `M - SEARCH`. -/
def methodMap : List (HttpMethod × Bytes) :=
  [(.DELETE, bytes ['D', 'E', 'L', 'E', 'T', 'E']),
   (.GET, bytes ['G', 'E', 'T']),
   (.HEAD, bytes ['H', 'E', 'A', 'D']),
   (.POST, bytes ['P', 'O', 'S', 'T']),
   (.PUT, bytes ['P', 'U', 'T']),
   (.CONNECT, bytes ['C', 'O', 'N', 'N', 'E', 'C', 'T']),
   (.OPTIONS, bytes ['O', 'P', 'T', 'I', 'O', 'N', 'S']),
   (.TRACE, bytes ['T', 'R', 'A', 'C', 'E']),
   (.COPY, bytes ['C', 'O', 'P', 'Y']),
   (.LOCK, bytes ['L', 'O', 'C', 'K']),
   (.MKCOL, bytes ['M', 'K', 'C', 'O', 'L']),
   (.MOVE, bytes ['M', 'O', 'V', 'E']),
   (.PROPFIND, bytes ['P', 'R', 'O', 'P', 'F', 'I', 'N', 'D']),
   (.PROPPATCH, bytes ['P', 'R', 'O', 'P', 'P', 'A', 'T', 'C', 'H']),
   (.SEARCH, bytes ['S', 'E', 'A', 'R', 'C', 'H']),
   (.UNLOCK, bytes ['U', 'N', 'L', 'O', 'C', 'K']),
   (.BIND, bytes ['B', 'I', 'N', 'D']),
   (.REBIND, bytes ['R', 'E', 'B', 'I', 'N', 'D']),
   (.UNBIND, bytes ['U', 'N', 'B', 'I', 'N', 'D']),
   (.ACL, bytes ['A', 'C', 'L']),
   (.REPORT, bytes ['R', 'E', 'P', 'O', 'R', 'T']),
   (.MKACTIVITY, bytes ['M', 'K', 'A', 'C', 'T', 'I', 'V', 'I', 'T', 'Y']),
   (.CHECKOUT, bytes ['C', 'H', 'E', 'C', 'K', 'O', 'U', 'T']),
   (.MERGE, bytes ['M', 'E', 'R', 'G', 'E']),
   (.MSEARCH, bytes ['M', ' ', '-', ' ', 'S', 'E', 'A', 'R', 'C', 'H']),
   (.NOTIFY, bytes ['N', 'O', 'T', 'I', 'F', 'Y']),
   (.SUBSCRIBE, bytes ['S', 'U', 'B', 'S', 'C', 'R', 'I', 'B', 'E']),
   (.UNSUBSCRIBE, bytes ['U', 'N', 'S', 'U', 'B', 'S', 'C', 'R', 'I', 'B', 'E']),
   (.PATCH, bytes ['P', 'A', 'T', 'C', 'H']),
   (.PURGE, bytes ['P', 'U', 'R', 'G', 'E']),
   (.MKCALENDAR, bytes ['M', 'K', 'C', 'A', 'L', 'E', 'N', 'D', 'A', 'R']),
   (.LINK, bytes ['L', 'I', 'N', 'K']),
   (.UNLINK, bytes ['U', 'N', 'L', 'I', 'N', 'K']),
   (.SOURCE, bytes ['S', 'O', 'U', 'R', 'C', 'E'])]

/-- `CharsToHttpMethod`: the first name that is a prefix of what `m` points at. -/
def charsToHttpMethod (m : Bytes) : HttpMethod :=
  ((methodMap.find? fun x => strncmpEq x.2.length x.2 m).map (·.1)).getD .INVALID_METHOD

/-- `StringToHttpMethod`: the name that `m` is, by `strcmp`. -/
def stringToHttpMethod (m : Bytes) : HttpMethod :=
  ((methodMap.find? fun x => cstr x.2 == cstr m).map (·.1)).getD .INVALID_METHOD

/-! ## The header map -/

/-- `std::map` under `CaseInsensitiveLess`, in its order. -/
abbrev MapType := List (Bytes × Bytes)

/-- `m[key] = val`; a key that is there keeps its spelling. -/
def MapType.put (key val : Bytes) : MapType → MapType
  | [] => [(key, val)]
  | (k, v) :: m =>
    if caseInsensitiveLess key k then (key, val) :: (k, v) :: m
    else if caseInsensitiveLess k key then (k, v) :: put key val m
    else (k, val) :: m

def MapType.get (key : Bytes) (m : MapType) : Option Bytes := (m.find? fun x => strcasecmpEq x.1 key).map (·.2)

/-- `getAs<uint64_t>(m, key, 0)`. -/
def MapType.getAs (key : Bytes) (m : MapType) : Nat := ((m.get key).bind lexicalCast).getD 0

theorem MapType.getAs_lt (key : Bytes) (m : MapType) : m.getAs key < 2 ^ 64 := by
  unfold getAs
  cases hcast : (m.get key).bind lexicalCast with
  | none => decide
  | some n =>
    obtain ⟨s, -, hs⟩ := Option.bind_eq_some_iff.mp hcast
    exact lexicalCast_lt hs

/-! ## Messages -/

structure HttpRequest where
  method : HttpMethod := .GET
  version : UInt8 := 0x11
  close : Bool := true
  path : Bytes := bytes ['/']
  query : Bytes := []
  fragment : Bytes := []
  body : Bytes := []
  headers : MapType := []
  deriving DecidableEq, Repr

/-- `status` is whatever number was cast to `HttpStatus`. -/
structure HttpResponse where
  status : Int := 200
  version : UInt8 := 0x11
  close : Bool := true
  body : Bytes := []
  reason : Bytes := []
  headers : MapType := []
  deriving DecidableEq, Repr

def CONTENT_LENGTH : Bytes := bytes ['c', 'o', 'n', 't', 'e', 'n', 't', '-', 'l', 'e', 'n', 'g', 't', 'h']

def CONNECTION : Bytes := bytes ['c', 'o', 'n', 'n', 'e', 'c', 't', 'i', 'o', 'n']

def KEEP_ALIVE : Bytes := bytes ['k', 'e', 'e', 'p', '-', 'a', 'l', 'i', 'v', 'e']

end LjrServer.Http
