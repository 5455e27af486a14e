/-
  LjrServer.Net.Subnet — subnet masks, network and broadcast addresses (address.cpp).

  An address is in memory in network order. `host` is the machine's byte order. `none` is a
  shift by 32 or more, or an index outside an array. `INT_MIN - 1`, for a prefix of length 1,
  wraps.

  Proved:
  - `countBytes_eq`: the loop counts the ones.
  - `IPv4Address.right_iff`: the masks and broadcast addresses of IPv4 are right but for the
    prefix of length 0, the network addresses for 0.0.0.0 only.
  - `IPv6Address.network_wrong`, `IPv6Address.mask_wrong`: no IPv6 network address is right, nor
    any mask, so `IPv6Address.never_right`; `IPv6Address.broadcast_iff` says which broadcast
    addresses are.
-/

import LjrServer.Endian
import LjrServer.Lib.Bits
import LjrServer.Net.Socket

namespace LjrServer.Net

open LjrServer.Lib

/-- For a `T` of `size` bytes; the `1` is an `int`. -/
def createMask (size : Nat) (bits : UInt32) : Option (BitVec (8 * size)) :=
  let shift := UInt64.ofNat (size * 8) - bits.toUInt64
  if shift < 32 then some (((1#32 <<< shift.toNat) - 1#32).setWidth (8 * size)) else none

def countBytes {w : Nat} (value : BitVec w) : Nat := if value = 0 then 0 else countBytes (value &&& (value - 1)) + 1
termination_by value.toNat
decreasing_by exact and_pred_lt ‹_›

/-! ## Masks -/

theorem countBytes_eq {w : Nat} (value : BitVec w) : countBytes value = value.cpop.toNat := by
  fun_induction countBytes value with
  | case1 => simp
  | case2 value h ih => rw [ih, cpop_and_pred h]

theorem createMask_eq {size : Nat} (hsize : size ≤ 4) {bits : UInt32} (hbits : bits.toNat ≤ 8 * size) :
    createMask size bits =
      if 8 * size - bits.toNat < 32 then some (lowOnes (8 * size) (8 * size - bits.toNat)) else none := by
  have hshift : (UInt64.ofNat (size * 8) - bits.toUInt64).toNat = 8 * size - bits.toNat := by
    have hfull : (UInt64.ofNat (size * 8)).toNat = size * 8 := UInt64.toNat_ofNat_of_lt' (by unfold UInt64.size; omega)
    rw [UInt64.toNat_sub_of_le, hfull, UInt32.toNat_toUInt64, Nat.mul_comm]
    rw [UInt64.le_iff_toNat_le, hfull, UInt32.toNat_toUInt64]
    omega
  have hlt : UInt64.ofNat (size * 8) - bits.toUInt64 < 32 ↔ 8 * size - bits.toNat < 32 := by
    rw [UInt64.lt_iff_toNat_lt, hshift]
    rfl
  have hmask : ((1#32 <<< (8 * size - bits.toNat)) - 1#32).setWidth (8 * size) =
      lowOnes (8 * size) (8 * size - bits.toNat) := by
    rw [← setWidth_lowOnes (show 8 * size ≤ 32 by omega), ← shl_sub_one]
  unfold createMask
  simp only [hlt, hshift, hmask]

theorem exists_append (v : BitVec 32) : ∃ a b c d : BitVec 8, v = a ++ b ++ c ++ d := by
  refine ⟨v.extractLsb' 24 8, v.extractLsb' 16 8, v.extractLsb' 8 8, v.extractLsb' 0 8, ?_⟩
  have high : v.extractLsb' 24 8 ++ v.extractLsb' 16 8 = v.extractLsb' 16 16 :=
    BitVec.extractLsb'_append_extractLsb'_eq_extractLsb' (show 24 = 16 + 8 from rfl)
  have upper : v.extractLsb' 16 16 ++ v.extractLsb' 8 8 = v.extractLsb' 8 24 :=
    BitVec.extractLsb'_append_extractLsb'_eq_extractLsb' (show 16 = 8 + 8 from rfl)
  have all : v.extractLsb' 8 24 ++ v.extractLsb' 0 8 = v.extractLsb' 0 32 :=
    BitVec.extractLsb'_append_extractLsb'_eq_extractLsb' (show 8 = 0 + 8 from rfl)
  rw [high, upper, all, BitVec.extractLsb'_eq_self]

section
variable (host : Endian) (v w : BitVec 32)

theorem byteswapOnLittleEndian_self : byteswapOnLittleEndian host (byteswapOnLittleEndian host v) = v := by
  cases host with
  | big => rfl
  | little =>
    obtain ⟨a, b, c, d, rfl⟩ := exists_append v
    rw [swap_four, swap_four]

theorem byteswapOnLittleEndian_not : byteswapOnLittleEndian host (~~~v) = ~~~byteswapOnLittleEndian host v := by
  cases host with
  | big => rfl
  | little =>
    obtain ⟨a, b, c, d, rfl⟩ := exists_append v
    rw [swap_four, BitVec.not_append, BitVec.not_append, BitVec.not_append, swap_four, BitVec.not_append,
      BitVec.not_append, BitVec.not_append]

theorem cpop_byteswapOnLittleEndian : (byteswapOnLittleEndian host v).cpop.toNat = v.cpop.toNat := by
  cases host with
  | big => rfl
  | little =>
    obtain ⟨a, b, c, d, rfl⟩ := exists_append v
    rw [swap_four]
    simp only [BitVec.toNat_cpop_append]
    omega

end

/-! ## IPv4 -/

/-- `sockaddr_in`. -/
structure SockaddrIn where
  sin_family : Int
  sin_port : UInt16
  s_addr : BitVec 32
  deriving DecidableEq, Repr

namespace IPv4Address

variable (host : Endian)

/-- The inner `none` is a null pointer. -/
def broadcastAddress (m_addr : SockaddrIn) (prefix_len : UInt32) : Option (Option SockaddrIn) :=
  if prefix_len > 32 then some none
  else do
    let mask ← createMask 4 prefix_len
    some (some { m_addr with s_addr := m_addr.s_addr ||| byteswapOnLittleEndian host mask })

def networdAddress (m_addr : SockaddrIn) (prefix_len : UInt32) : Option (Option SockaddrIn) :=
  if prefix_len > 32 then some none
  else do
    let mask ← createMask 4 prefix_len
    some (some { m_addr with s_addr := m_addr.s_addr &&& byteswapOnLittleEndian host mask })

def subnetMask (prefix_len : UInt32) : Option SockaddrIn := do
  let mask ← createMask 4 prefix_len
  some { sin_family := AF_INET, sin_port := 0, s_addr := ~~~byteswapOnLittleEndian host mask }

/-- The mask has the ones it should have. -/
structure MaskRight (prefix_len : UInt32) (mask : SockaddrIn) : Prop where
  made : subnetMask host prefix_len = some mask
  ones : byteswapOnLittleEndian host mask.s_addr = highOnes 32 prefix_len.toNat
  count : countBytes mask.s_addr = prefix_len.toNat

structure BroadcastRight (m_addr : SockaddrIn) (prefix_len : UInt32) (mask : SockaddrIn)
    (broadcast : SockaddrIn) : Prop where
  made : broadcastAddress host m_addr prefix_len = some (some broadcast)
  addr : broadcast.s_addr = m_addr.s_addr ||| ~~~mask.s_addr
  port : broadcast.sin_port = m_addr.sin_port
  shared : ∀ other : SockaddrIn, other.s_addr &&& mask.s_addr = m_addr.s_addr &&& mask.s_addr →
    ∃ r, broadcastAddress host other prefix_len = some (some r) ∧ r.s_addr = broadcast.s_addr

structure NetworkRight (m_addr : SockaddrIn) (prefix_len : UInt32) (mask : SockaddrIn)
    (network : SockaddrIn) : Prop where
  made : networdAddress host m_addr prefix_len = some (some network)
  addr : network.s_addr = m_addr.s_addr &&& mask.s_addr
  port : network.sin_port = m_addr.sin_port
  shared : ∀ other : SockaddrIn, other.s_addr &&& mask.s_addr = m_addr.s_addr &&& mask.s_addr →
    ∃ r, networdAddress host other prefix_len = some (some r) ∧ r.s_addr = network.s_addr

/-- The three results are what they should be, and are made without a shift by 32. -/
def Right (m_addr : SockaddrIn) (prefix_len : UInt32) : Prop :=
  ∃ mask, MaskRight host prefix_len mask ∧ (∃ network, NetworkRight host m_addr prefix_len mask network) ∧
    ∃ broadcast, BroadcastRight host m_addr prefix_len mask broadcast

/-! ### The host mask -/

variable {host} {prefix_len : UInt32} {m_addr mask : SockaddrIn}

/-- The ones of the host part, as they are in memory. -/
def hostMask (host : Endian) (prefix_len : UInt32) : BitVec 32 :=
  byteswapOnLittleEndian host (lowOnes 32 (32 - prefix_len.toNat))

theorem createMask_four (hle : prefix_len.toNat ≤ 32) :
    createMask 4 prefix_len = if prefix_len.toNat = 0 then none else some (lowOnes 32 (32 - prefix_len.toNat)) := by
  rw [createMask_eq (Nat.le_refl 4) hle]
  by_cases h0 : prefix_len.toNat = 0
  · rw [if_pos h0, if_neg (by omega)]
  · rw [if_neg h0, if_pos (by omega)]

theorem subnetMask_eq (hle : prefix_len.toNat ≤ 32) :
    subnetMask host prefix_len =
      if prefix_len.toNat = 0 then none else some ⟨AF_INET, 0, ~~~hostMask host prefix_len⟩ := by
  unfold subnetMask
  rw [createMask_four hle]
  split <;> rfl

theorem broadcastAddress_eq (hle : prefix_len.toNat ≤ 32) (m_addr : SockaddrIn) :
    broadcastAddress host m_addr prefix_len = if prefix_len.toNat = 0 then none else
      some (some { m_addr with s_addr := m_addr.s_addr ||| hostMask host prefix_len }) := by
  have hnot : ¬ prefix_len > 32 := by
    rw [gt_iff_lt, UInt32.lt_iff_toNat_lt]
    exact Nat.not_lt.mpr hle
  unfold broadcastAddress
  rw [if_neg hnot, createMask_four hle]
  split <;> rfl

theorem networdAddress_eq (hle : prefix_len.toNat ≤ 32) (m_addr : SockaddrIn) :
    networdAddress host m_addr prefix_len = if prefix_len.toNat = 0 then none else
      some (some { m_addr with s_addr := m_addr.s_addr &&& hostMask host prefix_len }) := by
  have hnot : ¬ prefix_len > 32 := by
    rw [gt_iff_lt, UInt32.lt_iff_toNat_lt]
    exact Nat.not_lt.mpr hle
  unfold networdAddress
  rw [if_neg hnot, createMask_four hle]
  split <;> rfl

/-! ### What is right -/

theorem mask_right_iff (hle : prefix_len.toNat ≤ 32) :
    MaskRight host prefix_len mask ↔ prefix_len.toNat ≠ 0 ∧ mask = ⟨AF_INET, 0, ~~~hostMask host prefix_len⟩ := by
  constructor
  · intro h
    have hmade := h.made
    rw [subnetMask_eq hle] at hmade
    split at hmade
    · cases hmade
    · rename_i h0
      exact ⟨h0, (Option.some.inj hmade).symm⟩
  · rintro ⟨h0, rfl⟩
    have hones : byteswapOnLittleEndian host (~~~hostMask host prefix_len) = highOnes 32 prefix_len.toNat := by
      rw [byteswapOnLittleEndian_not, hostMask, byteswapOnLittleEndian_self]
      rfl
    refine ⟨by rw [subnetMask_eq hle, if_neg h0], hones, ?_⟩
    rw [countBytes_eq, ← cpop_byteswapOnLittleEndian host, hones, cpop_highOnes hle]

theorem broadcast_right (hle : prefix_len.toNat ≤ 32) (hmask : MaskRight host prefix_len mask) (m_addr : SockaddrIn) :
    ∃ broadcast, BroadcastRight host m_addr prefix_len mask broadcast := by
  obtain ⟨h0, rfl⟩ := (mask_right_iff hle).mp hmask
  have hmade : ∀ a : SockaddrIn, broadcastAddress host a prefix_len =
      some (some { a with s_addr := a.s_addr ||| hostMask host prefix_len }) := fun a => by
    rw [broadcastAddress_eq hle, if_neg h0]
  refine ⟨_, hmade m_addr, ?_, rfl, fun other hsame => ⟨_, hmade other, or_eq_of_and_not_eq hsame⟩⟩
  rw [BitVec.not_not]

theorem cpop_hostMask (host : Endian) (prefix_len : UInt32) :
    (hostMask host prefix_len).cpop.toNat = 32 - prefix_len.toNat := by
  rw [hostMask, cpop_byteswapOnLittleEndian, cpop_lowOnes (Nat.sub_le _ _)]

/-- The network address is masked with the host part. -/
theorem network_right_iff (hle : prefix_len.toNat ≤ 32) (hmask : MaskRight host prefix_len mask) :
    (∃ network, NetworkRight host m_addr prefix_len mask network) ↔ prefix_len.toNat = 32 ∧ m_addr.s_addr = 0 := by
  obtain ⟨h0, rfl⟩ := (mask_right_iff hle).mp hmask
  have hmade : ∀ a : SockaddrIn, networdAddress host a prefix_len =
      some (some { a with s_addr := a.s_addr &&& hostMask host prefix_len }) := fun a => by
    rw [networdAddress_eq hle, if_neg h0]
  constructor
  · rintro ⟨network, h⟩
    have hnetwork : network = { m_addr with s_addr := m_addr.s_addr &&& hostMask host prefix_len } :=
      (Option.some.inj (Option.some.inj ((hmade m_addr).symm.trans h.made))).symm
    have hzero : m_addr.s_addr = 0 := and_not_eq_and_iff.mp ((hnetwork ▸ h.addr).symm)
    refine ⟨?_, hzero⟩
    -- the address with all ones in the host part is in the same subnet
    obtain ⟨r, hr, hsame⟩ := h.shared { m_addr with s_addr := hostMask host prefix_len } (by
      rw [hzero, BitVec.and_not_self]
      exact BitVec.zero_and.symm)
    have hr' : r.s_addr = hostMask host prefix_len := by
      rw [hmade] at hr
      cases hr
      exact BitVec.and_self
    have hhost : hostMask host prefix_len = 0 := by
      rw [← hr', hsame, hnetwork, hzero]
      exact BitVec.zero_and
    have hcount := cpop_hostMask host prefix_len
    rw [hhost] at hcount
    simp at hcount
    omega
  · rintro ⟨hfull, hzero⟩
    have hhost : hostMask host prefix_len = 0 := by
      rw [hostMask, hfull]
      cases host <;> decide
    refine ⟨_, hmade m_addr, ?_, rfl, fun other hsame => ⟨_, hmade other, ?_⟩⟩
    · exact (and_not_eq_and_iff.mpr hzero).symm
    · show other.s_addr &&& _ = m_addr.s_addr &&& _
      rw [hhost]
      exact BitVec.and_zero.trans BitVec.and_zero.symm

theorem full_of_right (hle : prefix_len.toNat ≤ 32) (h : Right host m_addr prefix_len) :
    prefix_len.toNat = 32 ∧ m_addr.s_addr = 0 := by
  obtain ⟨mask, hmask, hnetwork, -⟩ := h
  exact (network_right_iff hle hmask).mp hnetwork

/-- For every address and every prefix. -/
theorem right_iff (hle : prefix_len.toNat ≤ 32) :
    Right host m_addr prefix_len ↔ prefix_len.toNat = 32 ∧ m_addr.s_addr = 0 := by
  constructor
  · exact full_of_right hle
  · intro h
    have hmask : MaskRight host prefix_len _ := (mask_right_iff hle).mpr ⟨by omega, rfl⟩
    exact ⟨_, hmask, (network_right_iff hle hmask).mpr h, broadcast_right hle hmask m_addr⟩

theorem right_iff_host : Right .little ⟨AF_INET, 0, 0⟩ 32 ↔
    (32 : UInt32).toNat = 32 ∧ (0 : BitVec 32) = 0 := right_iff (by decide)

/-- 192.168.1.10 in a /24, on a little-endian machine: the network address keeps the 10. -/
theorem network_keeps_host :
    networdAddress .little ⟨AF_INET, 0, 0x0a01a8c0⟩ 24 = some (some ⟨AF_INET, 0, 0x0a000000⟩) ∧
      ¬ Right .little ⟨AF_INET, 0, 0x0a01a8c0⟩ 24 := by
  refine ⟨by decide, fun h => ?_⟩
  exact absurd (full_of_right (by decide) h).1 (by decide)

end IPv4Address

/-! ## IPv6 -/

/-- `sockaddr_in6`. -/
structure SockaddrIn6 where
  sin6_family : Int
  sin6_port : UInt16
  s6_addr : Vector (BitVec 8) 16
  deriving DecidableEq

namespace IPv6Address

/-- `s6_addr[i] = f(s6_addr[i])` -/
def modify (s6_addr : Vector (BitVec 8) 16) (i : Nat) (f : BitVec 8 → BitVec 8) : Option (Vector (BitVec 8) 16) :=
  if h : i < 16 then some (s6_addr.set i (f s6_addr[i])) else none

/-- A loop that stores `0xff` `n` times, from index `i` on. -/
def fill (s6_addr : Vector (BitVec 8) 16) (i : Nat) : Nat → Option (Vector (BitVec 8) 16)
  | 0 => some s6_addr
  | n + 1 => (modify s6_addr i fun _ => 0xff).bind fun s6_addr => fill s6_addr (i + 1) n

/-- The index of the byte with the first bit behind the prefix. -/
def index (prefix_len : UInt32) : Nat := (prefix_len / 8).toNat

def broadcastAddress (m_addr : SockaddrIn6) (prefix_len : UInt32) : Option SockaddrIn6 := do
  let mask ← createMask 1 (prefix_len % 8)
  let s6_addr ← modify m_addr.s6_addr (index prefix_len) (· ||| mask)
  let s6_addr ← fill s6_addr (index prefix_len) (16 - index prefix_len)
  some { m_addr with s6_addr }

def networdAddress (m_addr : SockaddrIn6) (prefix_len : UInt32) : Option SockaddrIn6 := do
  let mask ← createMask 1 (prefix_len % 8)
  let s6_addr ← modify m_addr.s6_addr (index prefix_len) (· ||| mask)
  some { m_addr with s6_addr }

def subnetMask (prefix_len : UInt32) : Option SockaddrIn6 := do
  let mask ← createMask 4 (prefix_len % 8)
  let s6_addr ← modify (Vector.replicate 16 0) (index prefix_len) fun _ => (~~~mask).setWidth 8
  let s6_addr ← fill s6_addr 0 (index prefix_len)
  some { sin6_family := AF_INET6, sin6_port := 0, s6_addr }

/-- The bits of an address in their order, from the highest of the first byte on. -/
def bit (s6_addr : Vector (BitVec 8) 16) (i : Fin 128) : Bool := (s6_addr.get ⟨i / 8, by omega⟩).getMsbD (i % 8)

structure Right (m_addr : SockaddrIn6) (prefix_len : UInt32) (mask network broadcast : SockaddrIn6) : Prop where
  mask_made : subnetMask prefix_len = some mask
  network_made : networdAddress m_addr prefix_len = some network
  broadcast_made : broadcastAddress m_addr prefix_len = some broadcast
  ones : ∀ i, bit mask.s6_addr i = decide (i.val < prefix_len.toNat)
  masked : ∀ i, bit network.s6_addr i = (bit m_addr.s6_addr i && bit mask.s6_addr i)
  filled : ∀ i, bit broadcast.s6_addr i = (bit m_addr.s6_addr i || !bit mask.s6_addr i)

/-! ### Bytes -/

variable {s6_addr t : Vector (BitVec 8) 16} {m_addr : SockaddrIn6} {prefix_len : UInt32}

theorem index_eq (prefix_len : UInt32) : index prefix_len = prefix_len.toNat / 8 := UInt32.toNat_div prefix_len 8

theorem mod_eq (prefix_len : UInt32) : (prefix_len % 8).toNat = prefix_len.toNat % 8 := UInt32.toNat_mod prefix_len 8

theorem modify_get {i : Nat} {f : BitVec 8 → BitVec 8} (h : modify s6_addr i f = some t) :
    i < 16 ∧ ∀ j : Fin 16, t.get j = if j.val = i then f (s6_addr.get j) else s6_addr.get j := by
  unfold modify at h
  split at h
  · rename_i hi
    cases h
    refine ⟨hi, fun j => ?_⟩
    show (s6_addr.set i (f s6_addr[i]))[j.val] = if j.val = i then f s6_addr[j.val] else s6_addr[j.val]
    rw [Vector.getElem_set]
    by_cases hj : i = j.val
    · subst hj
      rw [if_pos rfl]
    · rw [if_neg hj, if_neg fun hji => hj hji.symm]
  · cases h

theorem fill_get {i n : Nat} (h : fill s6_addr i n = some t) (j : Fin 16) :
    t.get j = if i ≤ j.val ∧ j.val < i + n then 0xff else s6_addr.get j := by
  induction n generalizing s6_addr i with
  | zero =>
    cases h
    rw [if_neg (by omega)]
  | succ n ih =>
    obtain ⟨u, hu, hfill⟩ := Option.bind_eq_some_iff.mp h
    rw [ih hfill, (modify_get hu).2 j]
    by_cases hj : j.val = i
    · rw [if_neg (by omega), if_pos hj, if_pos (by omega)]
    · by_cases hin : i + 1 ≤ j.val ∧ j.val < i + 1 + n
      · rw [if_pos hin, if_pos (by omega)]
      · rw [if_neg hin, if_neg hj, if_neg (by omega)]

theorem createMask_one (prefix_len : UInt32) :
    createMask 1 (prefix_len % 8) = some (lowOnes 8 (8 - prefix_len.toNat % 8)) := by
  have hmod := Nat.mod_lt prefix_len.toNat (show 0 < 8 by decide)
  rw [createMask_eq (by decide) (by rw [mod_eq]; omega), mod_eq, if_pos (by omega)]

theorem createMask_four (prefix_len : UInt32) :
    createMask 4 (prefix_len % 8) = if prefix_len.toNat % 8 = 0 then none else some (lowOnes 32 (32 - prefix_len.toNat % 8)) := by
  have hmod := Nat.mod_lt prefix_len.toNat (show 0 < 8 by decide)
  rw [createMask_eq (by decide) (by rw [mod_eq]; omega), mod_eq]
  by_cases h0 : prefix_len.toNat % 8 = 0
  · rw [if_pos h0, if_neg (by omega)]
  · rw [if_neg h0, if_pos (by omega)]

/-! ### Bits -/

theorem bit_eq {b : BitVec 8} {i : Fin 128} {j : Fin 16} (hj : i.val / 8 = j.val) (hget : s6_addr.get j = b) :
    bit s6_addr i = b.getMsbD (i % 8) := by
  have hfin : (⟨i / 8, by omega⟩ : Fin 16) = j := Fin.ext hj
  rw [bit, hfin, hget]

theorem networdAddress_get {network : SockaddrIn6} (h : networdAddress m_addr prefix_len = some network) :
    prefix_len.toNat / 8 < 16 ∧ ∀ j : Fin 16, network.s6_addr.get j =
      if j.val = prefix_len.toNat / 8 then m_addr.s6_addr.get j ||| lowOnes 8 (8 - prefix_len.toNat % 8)
      else m_addr.s6_addr.get j := by
  unfold networdAddress at h
  rw [createMask_one, index_eq, Option.bind_eq_bind, Option.bind_some] at h
  obtain ⟨t, ht, hret⟩ := Option.bind_eq_some_iff.mp h
  cases hret
  exact modify_get ht

/-- The last bit of the byte at the prefix is set. -/
theorem network_wrong {network : SockaddrIn6} (h : networdAddress m_addr prefix_len = some network) :
    ∃ i : Fin 128, bit network.s6_addr i = true ∧ prefix_len.toNat ≤ i.val := by
  obtain ⟨hin, hget⟩ := networdAddress_get h
  have hmod := Nat.mod_lt prefix_len.toNat (show 0 < 8 by decide)
  have hsplit := Nat.div_add_mod prefix_len.toNat 8
  refine ⟨⟨8 * (prefix_len.toNat / 8) + 7, by omega⟩, ?_, ?_⟩
  · rw [bit_eq (j := ⟨prefix_len.toNat / 8, hin⟩) (by dsimp only; omega) ((hget _).trans (if_pos rfl))]
    have hlast : (8 * (prefix_len.toNat / 8) + 7) % 8 = 7 := by omega
    dsimp only
    rw [hlast, BitVec.getMsbD_eq_getLsbD, BitVec.getLsbD_or, getLsbD_lowOnes,
      decide_eq_true (by omega : (8 : Nat) - 1 - 7 < 8),
      decide_eq_true (by omega : (8 : Nat) - 1 - 7 < 8 - prefix_len.toNat % 8)]
    simp
  · dsimp only
    omega

/-- The first bit of the byte at the prefix is not set. -/
theorem mask_wrong {mask : SockaddrIn6} (h : subnetMask prefix_len = some mask) :
    ∃ i : Fin 128, bit mask.s6_addr i = false ∧ i.val < prefix_len.toNat := by
  have hmod := Nat.mod_lt prefix_len.toNat (show 0 < 8 by decide)
  have hsplit := Nat.div_add_mod prefix_len.toNat 8
  unfold subnetMask at h
  rw [createMask_four, index_eq] at h
  split at h
  · cases h
  · rename_i h0
    rw [Option.bind_eq_bind, Option.bind_some] at h
    obtain ⟨t, ht, h⟩ := Option.bind_eq_some_iff.mp h
    obtain ⟨u, hu, hret⟩ := Option.bind_eq_some_iff.mp h
    cases hret
    obtain ⟨hin, hget⟩ := modify_get ht
    refine ⟨⟨8 * (prefix_len.toNat / 8), by omega⟩, ?_, by dsimp only; omega⟩
    have hbyte : u.get ⟨prefix_len.toNat / 8, hin⟩ = (~~~lowOnes 32 (32 - prefix_len.toNat % 8)).setWidth 8 := by
      rw [fill_get hu, if_neg (by dsimp only; omega), hget, if_pos rfl]
    have hfirst : 8 * (prefix_len.toNat / 8) % 8 = 0 := by omega
    rw [bit_eq (j := ⟨prefix_len.toNat / 8, hin⟩) (by dsimp only; omega) hbyte]
    dsimp only
    rw [hfirst, BitVec.getMsbD_eq_getLsbD, BitVec.getLsbD_setWidth, BitVec.getLsbD_not, getLsbD_lowOnes,
      decide_eq_true (by omega : (8 : Nat) - 1 - 0 < 32 - prefix_len.toNat % 8)]
    simp

/-- From the byte at the prefix on all bits are set. -/
theorem broadcastAddress_bit {broadcast : SockaddrIn6} (h : broadcastAddress m_addr prefix_len = some broadcast)
    (i : Fin 128) :
    bit broadcast.s6_addr i = (bit m_addr.s6_addr i || decide (prefix_len.toNat / 8 ≤ i.val / 8)) := by
  unfold broadcastAddress at h
  rw [createMask_one, index_eq, Option.bind_eq_bind, Option.bind_some] at h
  obtain ⟨t, ht, h⟩ := Option.bind_eq_some_iff.mp h
  obtain ⟨u, hu, hret⟩ := Option.bind_eq_some_iff.mp h
  cases hret
  obtain ⟨hin, hget⟩ := modify_get ht
  have hbyte := fill_get hu ⟨i / 8, by omega⟩
  rw [hget] at hbyte
  dsimp only at hbyte
  by_cases hk : prefix_len.toNat / 8 ≤ i.val / 8
  · rw [if_pos (by omega)] at hbyte
    have hones : ∀ j < 8, (0xff : BitVec 8).getMsbD j = true := by decide
    rw [decide_eq_true hk, Bool.or_true, bit_eq rfl hbyte, hones _ (Nat.mod_lt _ (by decide))]
  · rw [if_neg (by omega), if_neg (by omega)] at hbyte
    rw [decide_eq_false hk, Bool.or_false, bit_eq rfl hbyte, bit]

/-- A broadcast address is right exactly when the bits of the prefix in the byte where it ends
    are set already. -/
theorem broadcast_iff {broadcast : SockaddrIn6} (h : broadcastAddress m_addr prefix_len = some broadcast) :
    (∀ i, bit broadcast.s6_addr i = (bit m_addr.s6_addr i || !decide (i.val < prefix_len.toNat))) ↔
      ∀ i : Fin 128, prefix_len.toNat / 8 ≤ i.val / 8 → i.val < prefix_len.toNat → bit m_addr.s6_addr i = true := by
  refine forall_congr' fun i => ?_
  rw [broadcastAddress_bit h]
  by_cases hk : prefix_len.toNat / 8 ≤ i.val / 8
  · by_cases hp : i.val < prefix_len.toNat
    · simp [hk, hp]
    · simp [hk, hp]
  · have hp : i.val < prefix_len.toNat := by omega
    simp [hk, hp]

theorem not_right {mask network broadcast : SockaddrIn6} : ¬ Right m_addr prefix_len mask network broadcast := by
  intro h
  obtain ⟨i, hbit, hle⟩ := network_wrong h.network_made
  rw [h.masked i, h.ones i, decide_eq_false (Nat.not_lt.mpr hle), Bool.and_false] at hbit
  cases hbit

/-- For every address and every prefix. -/
theorem never_right (m_addr : SockaddrIn6) (prefix_len : UInt32) :
    ¬ ∃ mask network broadcast, Right m_addr prefix_len mask network broadcast := by
  rintro ⟨mask, network, broadcast, h⟩
  exact not_right h

/-- 2001:db8::1 in a /68: the last bits of the ninth byte are set, and the mask has no ones in it. -/
theorem network_sets_bits :
    ((networdAddress ⟨AF_INET6, 0, #v[0x20, 1, 0x0d, 0xb8, 0, 0, 0, 0, 0, 0, 0, 0, 0, 0, 0, 1]⟩ 68).map (·.s6_addr) =
      some #v[0x20, 1, 0x0d, 0xb8, 0, 0, 0, 0, 0x0f, 0, 0, 0, 0, 0, 0, 1]) ∧
    ((subnetMask 68).map (·.s6_addr) =
      some #v[0xff, 0xff, 0xff, 0xff, 0xff, 0xff, 0xff, 0xff, 0, 0, 0, 0, 0, 0, 0, 0]) ∧
    ¬ ∃ mask network broadcast,
      Right ⟨AF_INET6, 0, #v[0x20, 1, 0x0d, 0xb8, 0, 0, 0, 0, 0, 0, 0, 0, 0, 0, 0, 1]⟩ 68 mask network broadcast :=
  ⟨by decide +kernel, by decide +kernel, fun ⟨_, _, _, h⟩ => not_right h⟩

end IPv6Address

end LjrServer.Net
