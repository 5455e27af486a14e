/-
  LjrServer.Http.Stream — reading from a connection (stream.cpp, socket_stream.cpp) and the
  loop that reads a header block, written out twice in the source (http_session.cpp,
  http_connection.cpp) for the two parsers.

  A socket holds what has arrived and not been read, in the pieces it arrived in; a read
  takes from the first piece, as many bytes as it asked for at most, and 0 bytes once the
  peer has sent everything. `none` is undefined behaviour, a failed assertion or an exception
  that the call does not catch. A loop takes as its bound the bytes that are still to come.
-/

import LjrServer.Lib.Flat
import LjrServer.Http.Message

namespace LjrServer.Http

open LjrServer.Lib

structure Socket where
  pending : List Bytes
  connected : Bool := true
  deriving DecidableEq, Repr

namespace Socket

def close (s : Socket) : Socket := { s with connected := false }

/-- `SocketStream::read`: the bytes read, `none` for -1. -/
def read (s : Socket) (length : Nat) : Option Bytes × Socket :=
  if ¬ s.connected then (none, s)
  else
    match s.pending with
    | [] => (some [], s)
    | p :: ps => (some (p.take length), { s with pending := if p.length ≤ length then ps else p.drop length :: ps })

/-- What is still to be read. -/
def rest (s : Socket) : Bytes := s.pending.flatten

/-- `Stream::readFixSize`: what it returns and the bytes. Its `size_t len` makes -1 a huge length. -/
def readFixSize (length : Nat) : Nat → Socket → Nat → Bytes → Option (Int × Bytes × Socket)
  | _, s, 0, buf => some (toInt32 length, buf, s)
  | 0, _, _ + 1, _ => none
  | fuel + 1, s, left + 1, buf =>
    match s.read (left + 1) with
    | (none, _) => none
    | (some [], s) => some (0, buf, s)
    | (some bs, s) => readFixSize length fuel s (left + 1 - bs.length) (buf ++ bs)

end Socket

/-- `http.request.buffer_size`, whose size an `int` holds. -/
structure BufferSize where
  val : Nat
  pos : 0 < val
  lt : val < 2 ^ 31

/-- What the loop needs of a parser. -/
structure HeaderParser (P : Type) where
  /-- `nparse`, the parser and the buffer. -/
  execute : P → Bytes → Nat → Option (Nat × P × Bytes)
  hasError : P → Bool
  isFinished : P → Int

/-- The `do … while (true)` loop: the parser, the buffer and the bytes left in it, or
    `nullptr` after a `close`. -/
def recvHeader {P : Type} (I : HeaderParser P) (buffSize : Nat) :
    Nat → Socket → P → Bytes → Nat → Option (Option (P × Bytes × Nat) × Socket)
  | 0, _, _, _, _ => none
  | fuel + 1, sock, parser, data, offset =>
    match sock.read (buffSize - offset) with
    | (none, sock) => some (none, sock.close)
    | (some [], sock) => some (none, sock.close)
    | (some bs, sock) =>
      let data := splice data offset bs
      let len := bs.length + offset
      match I.execute parser data len with
      | none => none
      | some (nparse, parser, data) =>
        if I.hasError parser then some (none, sock.close)
        else
          let offset := len - nparse
          if (offset : Int) = toInt32 buffSize then some (none, sock.close)
          else if I.isFinished parser ≠ 0 then some (some (parser, data, offset), sock)
          else recvHeader I buffSize fuel sock parser data offset

/-- `std::string::max_size()`, of which libstdc++ keeps half of what its allocator can give. -/
def maxSize : Nat := (2 ^ 63 - 1 - 1) / 2

theorem maxSize_lt : maxSize < 2 ^ 63 := by decide

/-- A body of `length` bytes: those in the buffer, then those read. `none` inside is a failed read. -/
def recvBody (sock : Socket) (data : Bytes) (offset length : Nat) : Option (Option Bytes × Socket) :=
  let buffered := slice data 0 (min length offset)
  -- `body.resize(length)` throws `std::length_error`
  if maxSize < length then none
  else if length ≤ offset then some (some buffered, sock)
  else
    match sock.readFixSize (length - offset) (length - offset) (length - offset) [] with
    | none => none
    | some (rt, bs, sock) => if rt ≤ 0 then some (none, sock.close) else some (some (buffered ++ bs), sock)

end LjrServer.Http
