/-
  LjrServer.Net.IPv6Text — `IPv6Address::insert` (address.cpp), on a stream with its default flags.

  Proved:
  - `insert_faithful`: what is written between the brackets is a text of RFC 4291, with one `::`
    at most, for the groups of the address, and the number behind is the port; so addresses with
    the same text have the same groups and ports.
-/

import LjrServer.Http.Dump
import LjrServer.Lib.Fields
import LjrServer.Net.Subnet

namespace LjrServer.Net

open LjrServer.Lib
open LjrServer.Http (Bytes bytes decimal digits digitVal digits_append digits_decimal)

/-- Two bytes read as one `uint16_t`. -/
def uint16At (host : Endian) (a b : BitVec 8) : BitVec 16 :=
  match host with
  | .little => b ++ a
  | .big => a ++ b

/-- An unsigned number behind `std::hex`. -/
def hex (n : Nat) : Bytes := bytes (Nat.toDigits 16 n)

/-! ## Texts of RFC 4291 -/

/-- A group: one to four hexadecimal digits. -/
def group (f : Bytes) : Option Nat :=
  if 1 ≤ f.length ∧ f.length ≤ 4 ∧ f.all (fun b => (digitVal 16 b).isSome) then some (digits 16 0 f) else none

/-- The eight groups a text stands for. `::` is for one or more groups of zeros, and there is one at
    most. The form that ends in an IPv4 address is left out. -/
def parse (t : Bytes) : Option (List Nat) :=
  match cut 58 t with
  | none => do
    let gs ← (fields 58 t).mapM group
    if gs.length = 8 then some gs else none
  | some (l, r) => do
    let ls ← (fields 58 l).mapM group
    let rs ← (fields 58 r).mapM group
    if ls.length + rs.length ≤ 7 then some (ls ++ List.replicate (8 - (ls.length + rs.length)) 0 ++ rs) else none

namespace IPv6Address

variable (host : Endian)

/-- `(uint16_t *)m_addr.sin6_addr.s6_addr` -/
def addr (m_addr : SockaddrIn6) : List (BitVec 16) :=
  List.ofFn fun i : Fin 8 =>
    uint16At host (m_addr.s6_addr.get ⟨2 * i, by omega⟩) (m_addr.s6_addr.get ⟨2 * i + 1, by omega⟩)

/-- The loop from a group on, with the group before it; what is written, and `used_zeros` at the end. -/
def insertFrom : Option (BitVec 16) → Bool → List (BitVec 16) → Bytes × Bool
  | _, used_zeros, [] => ([], used_zeros)
  | prev, used_zeros, g :: gs =>
    if g = 0 ∧ ¬ used_zeros then insertFrom (some g) used_zeros gs
    else
      let closes := prev = some 0 ∧ ¬ used_zeros
      let rest := insertFrom (some g) (used_zeros || closes) gs
      ((if closes then [58] else []) ++ ((if prev = none then [] else [58]) ++
        (hex (byteswapOnLittleEndian host g).toNat ++ rest.1)), rest.2)

/-- What is written between the brackets. -/
def insertGroups (m_addr : SockaddrIn6) : Bytes :=
  let (text, used_zeros) := insertFrom host none false (addr host m_addr)
  text ++ if ¬ used_zeros ∧ (addr host m_addr)[7]? = some 0 then [58, 58] else []

def insert (m_addr : SockaddrIn6) : Bytes :=
  91 :: (insertGroups host m_addr ++ 93 :: 58 :: decimal (byteswapOnLittleEndian host m_addr.sin6_port.toBitVec).toNat)

def getPort (m_addr : SockaddrIn6) : UInt32 :=
  UInt32.ofBitVec ((byteswapOnLittleEndian host m_addr.sin6_port.toBitVec).setWidth 32)

/-- The eight groups of an address, in network order. -/
def groups (m_addr : SockaddrIn6) : List Nat :=
  List.ofFn fun i : Fin 8 => (m_addr.s6_addr.get ⟨2 * i, by omega⟩ ++ m_addr.s6_addr.get ⟨2 * i + 1, by omega⟩).toNat

end IPv6Address

/-! ## Numbers -/

theorem digitVal_digitChar : ∀ d < 16, digitVal 16 (UInt8.ofNat d.digitChar.toNat) = some d := by decide

theorem hex_of_le {n : Nat} (h : 16 ≤ n) : hex n = hex (n / 16) ++ hex (n % 16) := by
  unfold hex bytes
  rw [Nat.toDigits_of_base_le (by omega) h, List.map_append, Nat.toDigits_of_lt_base (Nat.mod_lt n (by omega))]

theorem hex_of_lt {n : Nat} (h : n < 16) : hex n = [UInt8.ofNat n.digitChar.toNat] := by
  unfold hex
  rw [Nat.toDigits_of_lt_base h]
  rfl

theorem hex_digit {n : Nat} : ∀ b ∈ hex n, (digitVal 16 b).isSome = true := by
  induction n using Nat.strongRecOn with
  | ind n ih =>
    intro b hb
    by_cases h : n < 16
    · rw [hex_of_lt h, List.mem_singleton] at hb
      rw [hb, digitVal_digitChar n h]
      rfl
    · rw [hex_of_le (by omega), List.mem_append] at hb
      exact hb.elim (ih _ (by omega) b) (ih _ (by omega) b)

theorem digits_hex (n : Nat) : digits 16 0 (hex n) = n := by
  induction n using Nat.strongRecOn with
  | ind n ih =>
    have hone : ∀ d < 16, ∀ acc, digits 16 acc (hex d) = acc * 16 + d := by
      intro d hd acc
      simp only [hex_of_lt hd, digits, digitVal_digitChar d hd]
    by_cases h : n < 16
    · rw [hone n h]
      omega
    · rw [hex_of_le (by omega), digits_append _ _ _ hex_digit, ih _ (by omega), hone _ (Nat.mod_lt n (by omega))]
      omega

theorem group_hex {n : Nat} (h : n < 65536) : group (hex n) = some n := by
  have hlen : (hex n).length = (Nat.toDigits 16 n).length := List.length_map ..
  have hpos : 1 ≤ (hex n).length := by
    rw [hlen]
    exact Nat.length_toDigits_pos
  have hle : (hex n).length ≤ 4 := by
    rw [hlen, Nat.length_toDigits_le_iff (by omega) (by omega)]
    omega
  unfold group
  rw [if_pos ⟨hpos, hle, List.all_eq_true.mpr hex_digit⟩, digits_hex]

theorem byteswap_uint16At (host : Endian) (a b : BitVec 8) :
    byteswapOnLittleEndian host (uint16At host a b) = a ++ b := by
  cases host with
  | big => rfl
  | little => exact swap_two b a

namespace IPv6Address

variable (host : Endian)

/-! ## The loop -/

def value (g : BitVec 16) : Nat := (byteswapOnLittleEndian host g).toNat

def text (g : BitVec 16) : Bytes := hex (value host g)

variable {m_addr : SockaddrIn6} {prev : Option (BitVec 16)} {used_zeros : Bool} {g : BitVec 16} {gs : List (BitVec 16)}

theorem value_zero : value host 0 = 0 := by cases host <;> decide

theorem values_addr : (addr host m_addr).map (value host) = groups m_addr := by
  unfold addr groups value
  rw [List.map_ofFn]
  simp only [Function.comp_def, byteswap_uint16At]

theorem group_text : group (text host g) = some (value host g) := group_hex (byteswapOnLittleEndian host g).isLt

theorem mapM_group : ∀ gs : List (BitVec 16), (gs.map (text host)).mapM group = some (gs.map (value host))
  | [] => rfl
  | g :: gs => by
    rw [List.map_cons, List.mapM_cons, group_text, mapM_group gs]
    rfl

theorem plain_text (gs : List (BitVec 16)) : Plain 58 (gs.map (text host)) := by
  intro f hf
  obtain ⟨g, _, rfl⟩ := List.mem_map.mp hf
  refine ⟨fun h => Nat.toDigits_ne_nil (List.map_eq_nil_iff.mp h), fun h => ?_⟩
  have hcolon := hex_digit 58 h
  revert hcolon
  decide

/-- After the zeros that are left out, every group is written. -/
theorem insertFrom_used : ∀ (gs : List (BitVec 16)) (g : BitVec 16),
    insertFrom host (some g) true gs = (behind 58 (gs.map (text host)), true)
  | [], _ => rfl
  | x :: gs, g => by
    have ih := insertFrom_used gs x
    simp [insertFrom, ih, behind, text, value]

theorem insertFrom_zeros (hhead : gs.head? ≠ some 0) : ∀ k : Nat,
    insertFrom host (some 0) false (List.replicate k 0 ++ gs) =
      if gs = [] then ([], false) else (58 :: behind 58 (gs.map (text host)), true)
  | 0 => by
    cases gs with
    | nil => rfl
    | cons g gs =>
      have hg : g ≠ 0#16 := fun h => hhead (h ▸ rfl)
      have hrest := insertFrom_used host gs g
      simp [insertFrom, hg, hrest, behind, text, value]
  | k + 1 => by
    have ih := insertFrom_zeros hhead k
    rw [List.replicate_succ, List.cons_append, insertFrom, if_pos ⟨rfl, Bool.false_ne_true⟩, ih]

/-- Up to the first zero. -/
theorem insertFrom_nonzero {rest : List (BitVec 16)} {x : Bytes × Bool}
    (hrest : ∀ prev, insertFrom host prev false rest = x) :
    ∀ (gs : List (BitVec 16)) (g : BitVec 16), g ≠ 0#16 → (∀ y ∈ gs, y ≠ 0) →
      insertFrom host (some g) false (gs ++ rest) = (behind 58 (gs.map (text host)) ++ x.1, x.2)
  | [], g, _, _ => by rw [List.nil_append, hrest]; rfl
  | y :: gs, g, hg, h => by
    have hy : y ≠ 0#16 := h y List.mem_cons_self
    have ih := insertFrom_nonzero hrest gs y hy fun z hz => h z (List.mem_cons_of_mem _ hz)
    simp [insertFrom, hy, hg, ih, behind, text, value]

theorem insertFrom_start {rest : List (BitVec 16)} {x : Bytes × Bool}
    (hrest : ∀ prev, insertFrom host prev false rest = x) (h : ∀ y ∈ gs, y ≠ 0) : insertFrom host none false (gs ++ rest) = (joined 58 (gs.map (text host)) ++ x.1, x.2) := by
  cases gs with
  | nil =>
    rw [List.nil_append, hrest]
    rfl
  | cons g gs =>
    have hg : g ≠ 0#16 := h g List.mem_cons_self
    have hgs := insertFrom_nonzero host hrest gs g hg fun z hz => h z (List.mem_cons_of_mem _ hz)
    rw [List.map_cons, joined_cons]
    simp [insertFrom, hg, hgs, text, value]

theorem exists_replicate : ∀ gs : List (BitVec 16), ∃ k post, gs = List.replicate k 0 ++ post ∧ post.head? ≠ some 0
  | [] => ⟨0, [], rfl, nofun⟩
  | g :: gs => by
    by_cases hg : g = 0
    · obtain ⟨k, post, hgs, hpost⟩ := exists_replicate gs
      exact ⟨k + 1, post, by rw [hg, hgs]; rfl, hpost⟩
    · exact ⟨0, g :: gs, rfl, fun h => hg (Option.some.inj h)⟩

/-- The first zeros of an address, if it has any. -/
theorem exists_zeros : ∀ gs : List (BitVec 16), (∀ g ∈ gs, g ≠ 0) ∨
    ∃ pre k post, gs = pre ++ 0 :: (List.replicate k 0 ++ post) ∧ (∀ g ∈ pre, g ≠ 0) ∧ post.head? ≠ some 0
  | [] => .inl nofun
  | g :: gs => by
    by_cases hg : g = 0
    · obtain ⟨k, post, hgs, hpost⟩ := exists_replicate gs
      exact .inr ⟨[], k, post, by rw [hg, hgs]; rfl, nofun, hpost⟩
    · cases exists_zeros gs with
      | inl h => exact .inl (List.forall_mem_cons.mpr ⟨hg, h⟩)
      | inr h =>
        obtain ⟨pre, k, post, hgs, hpre, hpost⟩ := h
        exact .inr ⟨g :: pre, k, post, by rw [hgs]; rfl, List.forall_mem_cons.mpr ⟨hg, hpre⟩, hpost⟩

theorem last_addr : (addr host m_addr)[7]? = (addr host m_addr).getLast? := by
  rw [List.getLast?_eq_getElem?]
  unfold addr
  rw [List.length_ofFn]

theorem insertGroups_nonzero (h : ∀ g ∈ addr host m_addr, g ≠ 0) :
    insertGroups host m_addr = joined 58 ((addr host m_addr).map (text host)) := by
  have hend : ∀ prev, insertFrom host prev false [] = ([], false) := fun _ => rfl
  have hloop := insertFrom_start host hend h
  have hlast : (addr host m_addr).getLast? ≠ some 0 := fun hg => h 0 (List.mem_of_getLast? hg) rfl
  rw [List.append_nil, List.append_nil] at hloop
  simp only [insertGroups, hloop, last_addr, hlast, and_false, if_false, List.append_nil]

theorem insertGroups_zeros {pre post : List (BitVec 16)} {k : Nat}
    (haddr : addr host m_addr = pre ++ 0 :: (List.replicate k 0 ++ post)) (hpre : ∀ g ∈ pre, g ≠ 0)
    (hpost : post.head? ≠ some 0) :
    insertGroups host m_addr = joined 58 (pre.map (text host)) ++ 58 :: 58 :: joined 58 (post.map (text host)) := by
  have hskip : ∀ prev, insertFrom host prev false (0 :: (List.replicate k 0 ++ post)) =
      if post = [] then ([], false) else (58 :: behind 58 (post.map (text host)), true) := by
    intro prev
    rw [insertFrom, if_pos ⟨rfl, Bool.false_ne_true⟩, insertFrom_zeros host hpost]
  have hloop := insertFrom_start host hskip hpre
  rw [← haddr] at hloop
  cases post with
  | nil =>
    have hlast : (addr host m_addr).getLast? = some 0 := by
      rw [haddr, List.append_nil, ← List.replicate_succ, List.getLast?_append, List.getLast?_replicate]
      rfl
    rw [insertGroups, hloop, last_addr, hlast]
    simp [joined]
  | cons g post =>
    have htail : behind 58 ((g :: post).map (text host)) = 58 :: joined 58 ((g :: post).map (text host)) := by
      rw [List.map_cons, joined_cons]
      rfl
    rw [insertGroups, hloop, if_neg (List.cons_ne_nil g post), htail]
    simp

/-! ## What the text stands for -/

theorem length_groups : (groups m_addr).length = 8 := List.length_ofFn

theorem parse_insertGroups : parse (insertGroups host m_addr) = some (groups m_addr) := by
  have hvalues : (addr host m_addr).map (value host) = groups m_addr := values_addr host
  have hlen : (groups m_addr).length = 8 := length_groups
  cases exists_zeros (addr host m_addr) with
  | inl h =>
    have hplain := plain_text host (addr host m_addr)
    rw [insertGroups_nonzero host h, parse, cut_joined_nil hplain]
    simp only [fields_joined hplain, mapM_group, hvalues, Option.bind_eq_bind, Option.bind_some, hlen, if_true]
  | inr h =>
    obtain ⟨pre, k, post, haddr, hpre, hpost⟩ := h
    rw [insertGroups_zeros host haddr hpre hpost, parse, cut_joined (plain_text host pre), cut_double]
    have hgroups : groups m_addr = pre.map (value host) ++ (List.replicate (k + 1) 0 ++ post.map (value host)) := by
      rw [← hvalues, haddr, List.map_append, List.map_cons, List.map_append, List.map_replicate, value_zero,
        List.replicate_succ]
      rfl
    have hcount : pre.length + (k + 1 + post.length) = 8 := by
      rw [← hlen, hgroups]
      simp
    simp only [Option.map_some, List.append_nil, fields_joined (plain_text host _), mapM_group, Option.bind_eq_bind,
      Option.bind_some]
    rw [List.length_map, List.length_map, if_pos (by omega), hgroups, List.append_assoc,
      show 8 - (pre.length + post.length) = k + 1 by omega]

theorem doubles_insertGroups : doubles 58 (insertGroups host m_addr) ≤ 1 := by
  cases exists_zeros (addr host m_addr) with
  | inl h =>
    rw [insertGroups_nonzero host h, doubles_eq_zero (cut_joined_nil (plain_text host _))]
    exact Nat.zero_le 1
  | inr h =>
    obtain ⟨pre, k, post, haddr, hpre, hpost⟩ := h
    have hcut : cut 58 (insertGroups host m_addr) =
        some (joined 58 (pre.map (text host)), joined 58 (post.map (text host))) := by
      rw [insertGroups_zeros host haddr hpre hpost, cut_joined (plain_text host pre), cut_double, Option.map_some,
        List.append_nil]
    have hone : doubles 58 (insertGroups host m_addr) = 1 := by
      rw [doubles_eq hcut, doubles_eq_zero (cut_sep_joined (plain_text host post))]
    exact Nat.le_of_eq hone

theorem mem_insertFrom (b : UInt8) (hb : b ∈ (insertFrom host prev used_zeros gs).1) :
    b = 58 ∨ (digitVal 16 b).isSome = true := by
  fun_induction insertFrom host prev used_zeros gs with
  | case1 => cases hb
  | case2 prev used_zeros g gs _ ih => exact ih hb
  | case3 prev used_zeros g gs _ closes rest ih =>
    simp only [List.mem_append] at hb
    obtain hb | hb | hb | hb := hb
    · split at hb
      · exact .inl (List.mem_singleton.mp hb)
      · cases hb
    · split at hb
      · cases hb
      · exact .inl (List.mem_singleton.mp hb)
    · exact .inr (hex_digit b hb)
    · exact ih hb

theorem bracket_insertGroups : 93 ∉ insertGroups host m_addr := by
  intro h
  cases hloop : insertFrom host none false (addr host m_addr) with
  | mk text used_zeros =>
    have hmem : 93 ∈ (insertFrom host none false (addr host m_addr)).1 → _ := mem_insertFrom host 93
    rw [hloop] at hmem
    simp only [insertGroups, hloop, List.mem_append] at h
    cases h with
    | inl h => exact absurd (hmem h) (by decide)
    | inr h =>
      split at h
      · exact absurd h (by decide)
      · cases h

theorem getPort_toNat : (getPort host m_addr).toNat =
    (byteswapOnLittleEndian host m_addr.sin6_port.toBitVec).toNat := by
  show (BitVec.setWidth 32 _).toNat = _
  rw [BitVec.toNat_setWidth]
  omega

/-- A text is printed for one address only. -/
theorem insert_inj {a b : SockaddrIn6} (h : insert host a = insert host b) :
    groups a = groups b ∧ getPort host a = getPort host b := by
  have htext := congrArg List.tail h
  have hgroups := congrArg (List.takeWhile (· ≠ 93)) htext
  have hstop : ∀ m_addr rest, (insertGroups host m_addr ++ 93 :: rest).takeWhile (· ≠ 93) =
      insertGroups host m_addr := by
    intro m_addr rest
    have hother : ∀ b ∈ insertGroups host m_addr, decide (b ≠ 93) = true := fun b hb =>
      decide_eq_true (ne_of_mem_of_not_mem hb (bracket_insertGroups host))
    rw [List.takeWhile_append_of_pos hother, List.takeWhile_cons_of_neg (by decide), List.append_nil]
  simp only [insert, List.tail_cons, hstop] at hgroups htext
  have hport : decimal (getPort host a).toNat = decimal (getPort host b).toNat := by
    rw [getPort_toNat, getPort_toNat]
    rw [hgroups] at htext
    exact (List.cons.inj (List.cons.inj (List.append_cancel_left htext)).2).2
  refine ⟨?_, UInt32.toNat_inj.mp ?_⟩
  · have hparse := congrArg parse hgroups
    rw [parse_insertGroups, parse_insertGroups] at hparse
    exact Option.some.inj hparse
  · rw [← digits_decimal (getPort host a).toNat, hport, digits_decimal]

theorem insert_faithful (host : Endian) :
    (∀ m_addr : SockaddrIn6, ∃ t, insert host m_addr = 91 :: (t ++ 93 :: 58 :: decimal (getPort host m_addr).toNat) ∧
      93 ∉ t ∧ parse t = some (groups m_addr) ∧ doubles 58 t ≤ 1) ∧
    ∀ a b : SockaddrIn6, groups a ≠ groups b ∨ getPort host a ≠ getPort host b → insert host a ≠ insert host b := by
  constructor
  · intro m_addr
    refine ⟨insertGroups host m_addr, ?_, bracket_insertGroups host, parse_insertGroups host, doubles_insertGroups host⟩
    rw [getPort_toNat]
    rfl
  · intro a b hne h
    obtain ⟨hgroups, hport⟩ := insert_inj host h
    exact hne.elim (· hgroups) (· hport)

/-- `::1` and `::2` -/
def oneGroup (last : BitVec 8) : SockaddrIn6 :=
  { sin6_family := AF_INET6, sin6_port := 80, s6_addr := (Vector.replicate 16 0).set 15 last }

theorem insert_faithful_last : groups (oneGroup 1) ≠ groups (oneGroup 2) ∧
    insert .little (oneGroup 1) ≠ insert .little (oneGroup 2) := by
  have hgroups : groups (oneGroup 1) ≠ groups (oneGroup 2) := by decide
  exact ⟨hgroups, (insert_faithful .little).2 _ _ (.inl hgroups)⟩

end IPv6Address

end LjrServer.Net
