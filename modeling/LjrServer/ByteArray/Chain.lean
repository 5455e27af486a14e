/-
  LjrServer.ByteArray.Chain — the block chain of `ByteArray` (bytearray.cpp).

  Storage is a chain of blocks of `baseSize` bytes each. The cursor is kept twice: as
  an offset (`position`) and as the block it falls in (`cur`, `none` for a null `m_cur`).
  `write`, `read` and `setPostion` walk the chain block by block. A step through a null
  pointer or a `memcpy` outside a block is `none`: the program has no behaviour there.
  An exception is an ordinary outcome and comes with the state it leaves.

  `new char[s]` leaves its bytes indeterminate, so the state carries what the allocator
  hands out next (`heap`): any stream will do, and nothing depends on it. Offsets and
  sizes are `Nat`: every capacity is the length of memory that was really allocated, so
  no `size_t` sum of them wraps.
-/

import LjrServer.Endian
import LjrServer.Lib.Flat

namespace LjrServer

open Lib

/-- A storage block. -/
structure ByteArray.Node where
  ptr : List UInt8
  deriving DecidableEq, Repr

structure ByteArray where
  baseSize : Nat
  /-- `m_position % m_baseSize` divides by it. -/
  baseSize_pos : 0 < baseSize
  position : Nat
  capacity : Nat
  size : Nat
  endian : Endian
  /-- The blocks from `m_root` on, along `next`. -/
  chain : List ByteArray.Node
  /-- The block `m_cur` points at, counted from `m_root`. -/
  cur : Option Nat
  heap : Nat → UInt8

/-- `std::out_of_range`. -/
structure OutOfRange where
  what : String
  deriving DecidableEq, Repr

namespace ByteArray

def Node.size (n : Node) : Nat := n.ptr.length

/-- `memcpy` into the block. -/
def Node.put (n : Node) (npos : Nat) (bs : List UInt8) : Option Node :=
  if npos + bs.length ≤ n.size then some ⟨splice n.ptr npos bs⟩ else none

/-- `memcpy` out of the block. -/
def Node.get (n : Node) (npos len : Nat) : Option (List UInt8) :=
  if npos + len ≤ n.size then some (slice n.ptr npos len) else none

def newNode (heap : Nat → UInt8) (s : Nat) : Node := ⟨(List.range s).map heap⟩

def new (baseSize : Nat) (h : 0 < baseSize) (heap : Nat → UInt8) : ByteArray :=
  { baseSize, baseSize_pos := h, position := 0, capacity := baseSize, size := 0, endian := .big,
    chain := [newNode heap baseSize], cur := some 0, heap := fun i => heap (i + baseSize) }

def getReadSize (s : ByteArray) : Nat := s.size - s.position

def getCapacity (s : ByteArray) : Nat := s.capacity - s.position

/-- The block `k` along the chain, or null past its end. -/
def node (chain : List Node) (k : Nat) : Option Nat := if k < chain.length then some k else none

/-! ## addCapacity -/

/-- `n` new blocks at the end of the chain. -/
def grow : Nat → ByteArray → ByteArray
  | 0, s => s
  | n + 1, s => grow n { s with
      chain := s.chain ++ [newNode s.heap s.baseSize]
      capacity := s.capacity + s.baseSize
      heap := fun i => s.heap (i + s.baseSize) }

def addCapacity (s : ByteArray) (size : Nat) : ByteArray :=
  if size = 0 then s
  else
    let oldCap := s.getCapacity
    if size ≤ oldCap then s
    else
      let size := size - oldCap
      let count := size / s.baseSize + if oldCap < size % s.baseSize then 1 else 0
      -- `first` stays null when the loop adds no block
      let first := if count = 0 then none else some s.chain.length
      let s' := grow count s
      if oldCap = 0 then { s' with cur := first } else s'

/-! ## write, read, setPostion, clear -/

/-- The copy loop of `write` over the blocks from `m_cur` on: the blocks after it, and
    how many `m_cur` moved. -/
def writeLoop : List Node → Nat → List UInt8 → Option (List Node × Nat)
  | [], _, _ => none
  | n :: ns, npos, buf =>
    let ncap := n.size - npos
    if buf.length ≤ ncap then
      (n.put npos buf).map fun n' => (n' :: ns, if n.size = npos + buf.length then 1 else 0)
    else
      (n.put npos (buf.take ncap)).bind fun n' =>
        (writeLoop ns 0 (buf.drop ncap)).map fun r => (n' :: r.1, r.2 + 1)

def write (s : ByteArray) (buf : List UInt8) : Option ByteArray :=
  if buf.length = 0 then some s
  else
    let s := s.addCapacity buf.length
    s.cur.bind fun i =>
      (writeLoop (s.chain.drop i) (s.position % s.baseSize) buf).map fun r =>
        let position := s.position + buf.length
        { s with chain := s.chain.take i ++ r.1, cur := node s.chain (i + r.2), position, size := max s.size position }

/-- The copy loop of `read`: the bytes, and how many blocks `m_cur` moved. -/
def readLoop : List Node → Nat → Nat → Option (List UInt8 × Nat)
  | [], _, _ => none
  | n :: ns, npos, size =>
    let ncap := n.size - npos
    if size = 0 then some ([], 0)
    else if size ≤ ncap then
      (n.get npos size).map fun bs => (bs, if n.size = npos + size then 1 else 0)
    else
      (n.get npos ncap).bind fun bs =>
        (readLoop ns 0 (size - ncap)).map fun r => (bs ++ r.1, r.2 + 1)

def read (s : ByteArray) (size : Nat) : Option (Except OutOfRange (List UInt8) × ByteArray) :=
  if s.getReadSize < size then some (.error ⟨"not enough len"⟩, s)
  else
    -- `m_cur->size` is read before the loop, so a null `m_cur` is fatal even for size 0
    s.cur.bind fun i =>
      (readLoop (s.chain.drop i) (s.position % s.baseSize) size).map fun r =>
        (.ok r.1, { s with cur := node s.chain (i + r.2), position := s.position + size })

/-- The block `v` bytes into the chain, counted from `k`. -/
def seekLoop : List Node → Nat → Nat → Option Nat
  | [], _, _ => none
  | n :: ns, v, k =>
    if n.size < v then seekLoop ns (v - n.size) (k + 1)
    else if v = n.size then some (k + 1)
    else some k

def setPostion (s : ByteArray) (v : Nat) : Option (Except OutOfRange Unit × ByteArray) :=
  if s.capacity < v then some (.error ⟨"set_position out of range"⟩, s)
  else
    (seekLoop s.chain v 0).map fun k =>
      (.ok (), { s with position := v, size := max s.size v, cur := node s.chain k })

def clear (s : ByteArray) : ByteArray :=
  { s with position := 0, size := 0, capacity := s.baseSize, chain := s.chain.take 1, cur := some 0 }

def isLittleEndian (s : ByteArray) : Bool := s.endian == .little

def setLittleEndian (s : ByteArray) (val : Bool) : ByteArray := { s with endian := if val then .little else .big }

/-- One operation, with its outcome. -/
def exec (s : ByteArray) : FlatOp UInt8 → Option (FlatRes UInt8 × ByteArray)
  | .write buf => (s.write buf).map fun s' => (.done, s')
  | .read n =>
    (s.read n).map fun r => (match r.1 with | .ok bs => .bytes bs | .error _ => .outOfRange, r.2)
  | .seek v =>
    (s.setPostion v).map fun r => (match r.1 with | .ok _ => .done | .error _ => .outOfRange, r.2)
  | .clear => some (.done, s.clear)

/-! ## The representation invariant -/

def flatten (ns : List Node) : List UInt8 := ns.flatMap (·.ptr)

/-- What the chain holds up to `size`: the bytes a caller can reach. -/
def content (s : ByteArray) : List UInt8 := (flatten s.chain).take s.size

/-- Every block is full size, the offset stays inside the data and the data inside the
    storage, and `m_cur` is the block of the offset, null exactly at the end of storage. -/
structure Rep (s : ByteArray) : Prop where
  blocks : ∀ n ∈ s.chain, n.size = s.baseSize
  capacity : s.capacity = s.baseSize * s.chain.length
  root : s.chain ≠ []
  position_le : s.position ≤ s.size
  size_le : s.size ≤ s.capacity
  cur : s.cur = if s.position < s.capacity then some (s.position / s.baseSize) else none

end ByteArray

end LjrServer
