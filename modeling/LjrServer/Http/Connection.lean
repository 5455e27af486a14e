/-
  LjrServer.Http.Connection — `HttpConnection::recvResponse` (http_connection.cpp).

  The buffer has a byte more than is read into it, for the NUL the parser asserts behind
  what it is given. `none` is undefined behaviour or a failed assertion; a loop takes as its
  bound what is still to come.
-/

import LjrServer.Http.HttpClientParser
import LjrServer.Http.Session

namespace LjrServer.Http

open LjrServer.Lib

namespace HttpConnection

/-- `data[len] = '\0'; parser->execute(data, len, chunck)` -/
def execute (chunck : Bool) (p : HttpResponseParser) (data : Bytes) (len : Nat) :
    Option (Nat × HttpResponseParser × Bytes) :=
  p.execute (splice data len [0]) len chunck

def headerParser : HeaderParser HttpResponseParser where
  execute := execute false
  hasError := HttpResponseParser.hasError
  isFinished := HttpResponseParser.isFinished

def chunkParser : HeaderParser HttpResponseParser where
  execute := execute true
  hasError := HttpResponseParser.hasError
  isFinished := HttpResponseParser.isFinished

/-- The loop that reads a chunk header; `begin` is false once it has parsed something. -/
def recvChunkHeader (parse : HeaderParser HttpResponseParser) (buffSize : Nat) :
    Nat → Bool → Socket → HttpResponseParser → Bytes → Nat →
    Option (Option (HttpResponseParser × Bytes × Nat) × Socket)
  | 0, _, _, _, _, _ => none
  | fuel + 1, begin, sock, parser, data, len =>
    let received : Option (Bytes × Nat) × Socket :=
      if ¬ begin ∨ len = 0 then
        match sock.read (buffSize - len) with
        | (none, sock) => (none, sock)
        | (some [], sock) => (none, sock)
        | (some bs, sock) => (some (splice data len bs, len + bs.length), sock)
      else (some (data, len), sock)
    match received with
    | (none, sock) => some (none, sock.close)
    | (some (data, len), sock) =>
      match parse.execute parser data len with
      | none => none
      | some (nparse, parser, data) =>
        if parse.hasError parser then some (none, sock.close)
        else
          let len := len - nparse
          if (len : Int) = toInt32 buffSize then some (none, sock.close)
          else if parse.isFinished parser ≠ 0 then some (some (parser, data, len), sock)
          else recvChunkHeader parse buffSize fuel false sock parser data len

/-- The loop over what is left of a chunk and its line end: the body and the buffer. `none`
    inside is a failed read. -/
def recvLeft (buffSize : Nat) : Nat → Socket → Nat → Bytes → Bytes → Option (Option (Bytes × Bytes) × Socket)
  | _, sock, 0, body, data => some (some (body, data), sock)
  | 0, _, _ + 1, _, _ => none
  | fuel + 1, sock, left + 1, body, data =>
    match sock.read (min (left + 1) buffSize) with
    | (none, sock) => some (none, sock.close)
    | (some [], sock) => some (none, sock.close)
    | (some bs, sock) => recvLeft buffSize fuel sock (left + 1 - bs.length) (body ++ bs) (splice data 0 bs)

/-- The data of a chunk of `contentLen` bytes: the body, the buffer and the bytes left in it.
    `append` throws on a negative size, `resize` on one below 2, and `content_len + 2` is an
    `int`. -/
def recvChunkData (buffSize : Nat) (contentLen : Int) (sock : Socket) (data : Bytes) (len : Nat) (body : Bytes) :
    Option (Option (Bytes × Bytes × Nat) × Socket) :=
  if 2 ^ 31 ≤ contentLen + 2 then none
  else if contentLen + 2 ≤ len then
    if contentLen < 0 then none
    else
      let n := contentLen.toNat
      some (some (body ++ data.take n, splice data 0 (slice data (n + 2) (len - n - 2)), len - (n + 2)), sock)
  else
    let left := (contentLen + 2 - len).toNat
    match recvLeft buffSize left sock left (body ++ data.take len) data with
    | none => none
    | some (none, sock) => some (none, sock)
    | some (some (body, data), sock) =>
      if body.length < 2 then none else some (some (body.take (body.length - 2), data, 0), sock)

/-- The chunk loop: the parser and the body. -/
def recvChunks (parse : HeaderParser HttpResponseParser) (buffSize : Nat) :
    Nat → Socket → HttpResponseParser → Bytes → Nat → Bytes →
    Option (Option (HttpResponseParser × Bytes) × Socket)
  | 0, _, _, _, _, _ => none
  | fuel + 1, sock, parser, data, len, body =>
    match recvChunkHeader parse buffSize (sock.rest.length + 2) true sock parser data len with
    | none => none
    | some (none, sock) => some (none, sock)
    | some (some (parser, data, len), sock) =>
      match recvChunkData buffSize parser.parser.contentLen sock data len body with
      | none => none
      | some (none, sock) => some (none, sock)
      | some (some (body, data, len), sock) =>
        if parser.parser.chunksDone then some (some (parser, body), sock)
        else recvChunks parse buffSize fuel sock parser data len body

def recvResponse (buffSize : BufferSize) (buffer : Bytes) (sock : Socket) : Option (Option HttpResponse × Socket) := do
  let (header, sock) ← recvHeader headerParser buffSize.val (sock.rest.length + 1) sock .new buffer 0
  match header with
  | none => some (none, sock)
  | some (parser, data, offset) =>
    if parser.parser.chunked then
      let (chunks, sock) ← recvChunks chunkParser buffSize.val (offset + sock.rest.length + 1) sock parser data offset []
      match chunks with
      | none => some (none, sock)
      | some (parser, body) => some (some { parser.data with body }, sock)
    else
      -- `int64_t length`
      let length := (parser.getContentLength : Int).bmod (2 ^ 64)
      if 0 < length then
        let (body, sock) ← recvBody sock data offset length.toNat
        match body with
        | none => some (none, sock)
        -- `setBody` is commented out
        | some _ => some (some parser.data, sock)
      else some (some parser.data, sock)

end HttpConnection

end LjrServer.Http
