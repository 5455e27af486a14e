/-
  LjrServer.ByteArray.Codec — the typed readers and writers of `ByteArray`
  (bytearray.cpp, endian.h).

  `host` is the machine's byte order: how `memcpy` lays a value out, and what
  `LJRSERVER_BYTE_ORDER` is. Signed arithmetic is two's complement. A float or a double
  is its bit pattern. A varint writer collects its groups in a local array of 5 or 10
  bytes; the loop bound here is that array's size.

  A call may throw or crash, and keeps the state it had reached when it throws.
-/

import LjrServer.ByteArray.Chain
import LjrServer.Lib.Radix

namespace LjrServer.ByteArray

open LjrServer.Lib

abbrev Call (α : Type) := ExceptT OutOfRange (StateT ByteArray Option) α

def writeBytes (buf : List UInt8) : Call Unit := fun s => (s.write buf).map fun s' => (.ok (), s')

def readBytes (size : Nat) : Call (List UInt8) := fun s => s.read size

/-! ## Zigzag -/

def encodeZigzag32 (v : Int32) : UInt32 := if v < 0 then (-v).toUInt32 * 2 - 1 else (v * 2).toUInt32

def decodeZigzag32 (v : UInt32) : Int32 := ((v >>> 1) ^^^ -(v &&& 1)).toInt32

/-- Its parameter is a `uint64_t`, so the first branch is never taken. -/
def encodeZigzag64 (v : UInt64) : UInt64 := if v < 0 then -v * 2 - 1 else v * 2

def decodeZigzag64 (v : UInt64) : Int64 := ((v >>> 1) ^^^ -(v &&& 1)).toInt64

/-! ## Fixed width -/

variable (host : Endian)

/-- The bytes of a `w`-byte value in memory. -/
def layout (w v : Nat) : List UInt8 :=
  match host with
  | .little => leBytes w v
  | .big => (leBytes w v).reverse

/-- The value of bytes in memory. -/
def unlayout (bs : List UInt8) : Nat :=
  match host with
  | .little => ofLeBytes bs
  | .big => ofLeBytes bs.reverse

def writeFixed (w v : Nat) : Call Unit := do
  let s ← get
  writeBytes (layout host w (if s.endian ≠ host then byteswap w v else v))

def readFixed (w : Nat) : Call Nat := do
  let bs ← readBytes w
  let s ← get
  return if s.endian = host then unlayout host bs else byteswap w (unlayout host bs)

def writeFint8 (value : Int8) : Call Unit := writeBytes [value.toUInt8]
def writeFuint8 (value : UInt8) : Call Unit := writeBytes [value]
def writeFint16 (value : Int16) : Call Unit := writeFixed host 2 value.toUInt16.toNat
def writeFuint16 (value : UInt16) : Call Unit := writeFixed host 2 value.toNat
def writeFint32 (value : Int32) : Call Unit := writeFixed host 4 value.toUInt32.toNat
def writeFuint32 (value : UInt32) : Call Unit := writeFixed host 4 value.toNat
def writeFint64 (value : Int64) : Call Unit := writeFixed host 8 value.toUInt64.toNat
def writeFuint64 (value : UInt64) : Call Unit := writeFixed host 8 value.toNat

def writeFloat (bits : UInt32) : Call Unit := writeFuint32 host bits
def writeDouble (bits : UInt64) : Call Unit := writeFuint64 host bits

def readFuint8 : Call UInt8 := do
  let bs ← readBytes 1
  return UInt8.ofNat (ofLeBytes bs)

def readFint8 : Call Int8 := do
  let bs ← readBytes 1
  return (UInt8.ofNat (ofLeBytes bs)).toInt8

def readFint16 : Call Int16 := do return (UInt16.ofNat (← readFixed host 2)).toInt16
def readFuint16 : Call UInt16 := do return UInt16.ofNat (← readFixed host 2)
def readFint32 : Call Int32 := do return (UInt32.ofNat (← readFixed host 4)).toInt32
def readFuint32 : Call UInt32 := do return UInt32.ofNat (← readFixed host 4)
def readFint64 : Call Int64 := do return (UInt64.ofNat (← readFixed host 8)).toInt64
def readFuint64 : Call UInt64 := do return UInt64.ofNat (← readFixed host 8)

def readFloat : Call UInt32 := readFuint32 host
def readDouble : Call UInt64 := readFuint64 host

/-! ## Varints -/

/-- The loop of `writeUint32` and `writeUint64` over a `tmp` of `k` bytes. -/
def varintLoop : Nat → Nat → List UInt8
  | 0, _ => []
  | k + 1, value =>
    if 0x80 ≤ value then UInt8.ofNat ((value &&& 0x7F) ||| 0x80) :: varintLoop k (value >>> 7)
    else [UInt8.ofNat value]

def writeUint32 (value : UInt32) : Call Unit := writeBytes (varintLoop 5 value.toNat)
def writeInt32 (value : Int32) : Call Unit := writeUint32 (encodeZigzag32 value)
def writeUint64 (value : UInt64) : Call Unit := writeBytes (varintLoop 10 value.toNat)
def writeInt64 (value : Int64) : Call Unit := writeUint64 (encodeZigzag64 value.toUInt64)

/-- The read loop into a `w`-bit `result`, over the values its counter takes. -/
def readVarint (w : Nat) : List Nat → BitVec w → Call (BitVec w)
  | [], result => pure result
  | i :: is, result => do
    let b := (← readFint8).toUInt8
    if b < 0x80 then return result ||| (BitVec.ofNat w b.toNat <<< i)
    else readVarint w is (result ||| (BitVec.ofNat w (b &&& 0x7F).toNat <<< i))

/-- `for (int i = 0; i < 32; i += 7)`, in the 64-bit reader too. -/
def shifts : List Nat := [0, 7, 14, 21, 28]

def readUint32 : Call UInt32 := do return UInt32.ofBitVec (← readVarint 32 shifts 0)
def readInt32 : Call Int32 := do return decodeZigzag32 (← readUint32)
def readUint64 : Call UInt64 := do return UInt64.ofBitVec (← readVarint 64 shifts 0)
def readInt64 : Call Int64 := do return decodeZigzag64 (← readUint64)

/-! ## Streams of typed values -/

inductive Value where
  | fint8 (v : Int8)
  | fuint8 (v : UInt8)
  | fint16 (v : Int16)
  | fuint16 (v : UInt16)
  | fint32 (v : Int32)
  | fuint32 (v : UInt32)
  | fint64 (v : Int64)
  | fuint64 (v : UInt64)
  | int32 (v : Int32)
  | uint32 (v : UInt32)
  | int64 (v : Int64)
  | uint64 (v : UInt64)
  | float (bits : UInt32)
  | double (bits : UInt64)
  deriving DecidableEq

/-- Which reader and writer a value goes through. -/
inductive Kind where
  | fint8 | fuint8 | fint16 | fuint16 | fint32 | fuint32 | fint64 | fuint64
  | int32 | uint32 | int64 | uint64 | float | double
  deriving DecidableEq, Repr

def Value.kind : Value → Kind
  | .fint8 _ => .fint8
  | .fuint8 _ => .fuint8
  | .fint16 _ => .fint16
  | .fuint16 _ => .fuint16
  | .fint32 _ => .fint32
  | .fuint32 _ => .fuint32
  | .fint64 _ => .fint64
  | .fuint64 _ => .fuint64
  | .int32 _ => .int32
  | .uint32 _ => .uint32
  | .int64 _ => .int64
  | .uint64 _ => .uint64
  | .float _ => .float
  | .double _ => .double

def Value.write : Value → Call Unit
  | .fint8 v => writeFint8 v
  | .fuint8 v => writeFuint8 v
  | .fint16 v => writeFint16 host v
  | .fuint16 v => writeFuint16 host v
  | .fint32 v => writeFint32 host v
  | .fuint32 v => writeFuint32 host v
  | .fint64 v => writeFint64 host v
  | .fuint64 v => writeFuint64 host v
  | .int32 v => writeInt32 v
  | .uint32 v => writeUint32 v
  | .int64 v => writeInt64 v
  | .uint64 v => writeUint64 v
  | .float v => writeFloat host v
  | .double v => writeDouble host v

def Kind.read : Kind → Call Value
  | .fint8 => do return .fint8 (← readFint8)
  | .fuint8 => do return .fuint8 (← readFuint8)
  | .fint16 => do return .fint16 (← readFint16 host)
  | .fuint16 => do return .fuint16 (← readFuint16 host)
  | .fint32 => do return .fint32 (← readFint32 host)
  | .fuint32 => do return .fuint32 (← readFuint32 host)
  | .fint64 => do return .fint64 (← readFint64 host)
  | .fuint64 => do return .fuint64 (← readFuint64 host)
  | .int32 => do return .int32 (← readInt32)
  | .uint32 => do return .uint32 (← readUint32)
  | .int64 => do return .int64 (← readInt64)
  | .uint64 => do return .uint64 (← readUint64)
  | .float => do return .float (← readFloat host)
  | .double => do return .double (← readDouble host)

/-- A caller's sequence of calls: byte order choices and values. -/
inductive Item (α : Type) where
  | setLittleEndian (val : Bool)
  | value (v : α)
  deriving DecidableEq

def Item.map {α β : Type} (f : α → β) : Item α → Item β
  | .setLittleEndian val => .setLittleEndian val
  | .value v => .value (f v)

def Item.value? {α : Type} : Item α → Option α
  | .setLittleEndian _ => none
  | .value v => some v

def writeAll : List (Item Value) → Call Unit
  | [] => pure ()
  | .setLittleEndian val :: items => do
    modify (·.setLittleEndian val)
    writeAll items
  | .value v :: items => do
    v.write host
    writeAll items

def readAll : List (Item Kind) → Call (List Value)
  | [] => pure []
  | .setLittleEndian val :: items => do
    modify (·.setLittleEndian val)
    readAll items
  | .value k :: items => do
    let v ← k.read host
    let vs ← readAll items
    return v :: vs

end LjrServer.ByteArray
