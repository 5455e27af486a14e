/-
  LjrServer.Endian — the two byte orders, and swapping a value's bytes (endian.h).

  The template has a value of 2, 4 or 8 bytes; the number of bytes is an argument here. A bit
  vector is swapped as the number it is.

  Proved:
  - `leBytes_byteswap`: the bytes of the swapped value are those of the value, the other way round.
  - `swap_two`, `swap_four`: what that is for the 16 and the 32 bits of an address.
-/

import LjrServer.Lib.Radix

namespace LjrServer

open Lib

inductive Endian where
  | little
  | big
  deriving DecidableEq, Repr

/-- `bswap_16`, `bswap_32`, `bswap_64`. -/
def byteswap (w v : Nat) : Nat := ofLeBytes (leBytes w v).reverse

def byteswapOnLittleEndian (host : Endian) {n : Nat} (v : BitVec n) : BitVec n :=
  match host with
  | .little => .ofNat n (byteswap (n / 8) v.toNat)
  | .big => v

theorem leBytes_byteswap (w v : Nat) : leBytes w (byteswap w v) = (leBytes w v).reverse := by
  have h := leBytes_ofLeBytes (leBytes w v).reverse
  rwa [List.length_reverse, leBytes_length] at h

/-! ## The bytes of a bit vector -/

theorem toNat_append_byte {n : Nat} (x : BitVec n) (b : BitVec 8) : (x ++ b).toNat = b.toNat + 256 * x.toNat := by
  rw [BitVec.toNat_append, ← Nat.shiftLeft_add_eq_or_of_lt b.isLt, Nat.shiftLeft_eq]
  omega

theorem leBytes_append_byte {n : Nat} (w : Nat) (x : BitVec n) (b : BitVec 8) :
    leBytes (w + 1) (x ++ b).toNat = .ofBitVec b :: leBytes w x.toNat := by
  have hb := b.isLt
  have hlow : UInt8.ofNat (b.toNat + 256 * x.toNat) = .ofBitVec b := by
    apply UInt8.toNat_inj.mp
    rw [UInt8.toNat_ofNat', UInt8.toNat_ofBitVec]
    omega
  have hrest : (b.toNat + 256 * x.toNat) / 256 = x.toNat := by omega
  rw [toNat_append_byte, leBytes, hlow, hrest]

theorem leBytes_byte (b : BitVec 8) : leBytes 1 b.toNat = [.ofBitVec b] := by
  have hb : UInt8.ofNat b.toNat = .ofBitVec b := by
    apply UInt8.toNat_inj.mp
    rw [UInt8.toNat_ofNat', UInt8.toNat_ofBitVec]
    exact Nat.mod_eq_of_lt b.isLt
  rw [leBytes, hb, leBytes]

theorem swap_two (a b : BitVec 8) : byteswapOnLittleEndian .little (a ++ b) = b ++ a := by
  apply BitVec.eq_of_toNat_eq
  show (BitVec.ofNat 16 (byteswap 2 (a ++ b).toNat)).toNat = _
  rw [byteswap, leBytes_append_byte, leBytes_byte, toNat_append_byte, BitVec.toNat_ofNat]
  simp only [List.reverse_cons, List.reverse_nil, List.nil_append, List.cons_append, ofLeBytes, UInt8.toNat_ofBitVec]
  omega

theorem swap_four (a b c d : BitVec 8) : byteswapOnLittleEndian .little (a ++ b ++ c ++ d) = d ++ c ++ b ++ a := by
  apply BitVec.eq_of_toNat_eq
  show (BitVec.ofNat 32 (byteswap 4 (a ++ b ++ c ++ d).toNat)).toNat = _
  rw [byteswap, leBytes_append_byte, leBytes_append_byte, leBytes_append_byte, leBytes_byte, toNat_append_byte,
    toNat_append_byte, toNat_append_byte, BitVec.toNat_ofNat]
  simp only [List.reverse_cons, List.reverse_nil, List.nil_append, List.cons_append, ofLeBytes, UInt8.toNat_ofBitVec]
  omega

end LjrServer
