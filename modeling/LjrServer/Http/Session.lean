/-
  LjrServer.Http.Session — `HttpSession::recvRequest` (http_session.cpp).
-/

import LjrServer.Http.Http11Parser
import LjrServer.Http.Stream

namespace LjrServer.Http

open LjrServer.Lib

/-- What a call finds in memory it does not initialise. -/
structure Uninit where
  uriRelaxed : Bool
  queryStart : Nat
  buffer : Bytes

namespace HttpSession

def headerParser : HeaderParser HttpRequestParser where
  execute := HttpRequestParser.execute
  hasError := HttpRequestParser.hasError
  isFinished := HttpRequestParser.isFinished

/-- The keep-alive decision at the end of `recvRequest`. -/
def withConnection (q : HttpRequest) : HttpRequest :=
  let conn := (q.headers.get CONNECTION).getD []
  if conn ≠ [] then { q with close := !strcasecmpEq conn KEEP_ALIVE } else q

def recvRequest (buffSize : BufferSize) (u : Uninit) (sock : Socket) : Option (Option HttpRequest × Socket) := do
  let (header, sock) ← recvHeader headerParser buffSize.val (sock.rest.length + 1) sock
    (.new u.uriRelaxed u.queryStart) u.buffer 0
  match header with
  | none => some (none, sock)
  | some (parser, data, offset) =>
    -- `int64_t length`
    let length := (parser.getContentLength : Int).bmod (2 ^ 64)
    if 0 < length then
      let (body, sock) ← recvBody sock data offset length.toNat
      match body with
      | none => some (none, sock)
      | some body => some (some (withConnection { parser.data with body }), sock)
    else some (some (withConnection parser.data), sock)

end HttpSession

end LjrServer.Http
