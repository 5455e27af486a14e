/-
  LjrServer.Http.HttpClientParser — `httpclient_parser` (httpclient_parser.rl) and
  `HttpResponseParser` (http_parser.cpp).

  What the actions do to the parser's own fields is done with the callbacks, in order, when
  the buffer is scanned.

  The states of the generated machine are numbered depth first, along lower bytes first, and
  the final ones behind the others. A digit is the lowest byte that begins a message and a
  newline the lowest behind it, so `first_final` is what a chunk header without extension ends
  in: the final state that no byte leaves. A header whose last line is "Connection:",
  "Content-Length:" or "Transfer-Encoding:" without a value ends in another one, where the
  blanks behind the colon may still go on.
-/

import LjrServer.Lib.Flat
import LjrServer.Lib.RagelScan
import LjrServer.Http.HttpClientMachine
import LjrServer.Http.Http11Parser

namespace LjrServer.Http

open LjrServer.Lib LjrServer.Lib.Scanner

namespace HttpClient

/-- The offsets an `httpclient_parser` saves. -/
inductive Reg where
  | mark
  | fieldStart
  deriving DecidableEq, Repr

inductive Callback where
  | contentLen
  | connectionClose
  | httpField
  | reasonPhrase
  | statusCode
  | httpVersion
  | chunkSize
  | chunked
  | done
  deriving DecidableEq, Repr

def Action.effects : Action → List (Effect Reg Callback)
  | .mark => [.save .mark]
  | .startField => [.save .fieldStart]
  | .writeField => [.measure .fieldStart]
  | .startValue => [.save .mark]
  | .writeContentLen => [.emit .contentLen [.upto .mark]]
  | .writeConnectionClose => [.emit .connectionClose []]
  | .writeValue => [.emit .httpField [.span .fieldStart, .upto .mark]]
  | .reasonPhrase => [.emit .reasonPhrase [.upto .mark]]
  | .statusCode => [.emit .statusCode [.upto .mark]]
  | .httpVersion => [.emit .httpVersion [.upto .mark]]
  | .chunkSize => [.emit .chunkSize [.upto .mark]]
  | .transChunked => [.emit .chunked []]
  | .done => [.emit .done [], .stop]

/-- `httpclient_parser_first_final` -/
def isFirstFinal (cs : Ragel.Threads Action) : Bool := Ragel.isFinal cs && Ragel.isStuck cs

/-- The generated machine. -/
abbrev automaton : Automaton (Ragel.Threads Action) Reg Callback := Ragel.automaton Action.effects

end HttpClient

open HttpClient

structure HttpClientParser where
  cs : Ragel.Threads Action
  bodyStart : Nat
  contentLen : Int
  chunked : Bool
  chunksDone : Bool
  close : Bool
  nread : Nat
  regs : Regs HttpClient.Reg

namespace HttpClientParser

def zero : Regs HttpClient.Reg := { off := fun _ => 0, len := fun _ => 0 }

def init : HttpClientParser :=
  { cs := [HttpClient.main], bodyStart := 0, contentLen := -1, chunked := false, chunksDone := false, close := false
    nread := 0, regs := zero }

/-- What an event does to the parser itself. -/
def note (buffer : Bytes) (p : HttpClientParser) (e : Event HttpClient.Callback) : HttpClientParser :=
  match e.kind, e.args with
  | .contentLen, [m] => { p with contentLen := toInt32 (strtol 10 (buffer.drop m.start)) }
  | .connectionClose, _ => { p with close := true }
  | .chunkSize, [m] =>
    let contentLen := toInt32 (strtol 16 (buffer.drop m.start))
    { p with chunked := true, contentLen, chunksDone := contentLen ≤ 0 }
  | .chunked, _ => { p with chunked := true }
  | .done, _ => { p with bodyStart := e.pos + 1 }
  | _, _ => p

/-- `httpclient_parser_execute` up to its last assertions. -/
def run (p : HttpClientParser) (buffer : Bytes) (len off : Nat) :
    Scan (Ragel.Threads Action) HttpClient.Reg HttpClient.Callback :=
  scan automaton ((buffer.take len).drop off) off p.cs zero

def finishRun (p : HttpClientParser) (buffer : Bytes) (off : Nat)
    (r : Scan (Ragel.Threads Action) HttpClient.Reg HttpClient.Callback) : HttpClientParser :=
  let p := r.events.foldl (note buffer) p
  { p with cs := if r.ending = .error then [] else r.state, regs := r.regs, nread := r.pos - off }

/-- `none` is an assertion, or the -1 of a failed check, which the caller takes for an offset. -/
def execute (p : HttpClientParser) (buffer : Bytes) (len off : Nat) :
    Option (Nat × HttpClientParser × List (Event HttpClient.Callback)) :=
  if ¬ HttpParser.enters len off then none
  else if (buffer.drop len).headD 0 ≠ 0 then none
  else
    let r := p.run buffer len off
    let p' := p.finishRun buffer off r
    if p'.nread ≤ len ∧ p'.bodyStart ≤ len ∧ r.regs.off .mark < len ∧ r.regs.len .fieldStart ≤ len ∧
        r.regs.off .fieldStart < len then
      some (p'.nread, p', r.events)
    else none

def hasError (p : HttpClientParser) : Bool := p.cs = []

/-- `cs == httpclient_parser_first_final` -/
def isFinished (p : HttpClientParser) : Bool := isFirstFinal p.cs

/-- `httpclient_parser_finish` -/
def finish (p : HttpClientParser) : Int := if p.hasError then -1 else if p.isFinished then 1 else 0

end HttpClientParser

/-! ## HttpResponseParser -/

structure HttpResponseParser where
  parser : HttpClientParser
  data : HttpResponse
  error : Nat

namespace HttpResponseParser

def new : HttpResponseParser := { parser := .init, data := {}, error := 0 }

/-- The response and the error a callback leaves. -/
def callback (data : Bytes) (e : Event HttpClient.Callback) (q : HttpResponse × Nat) : Option (HttpResponse × Nat) :=
  match e.kind, e.args with
  | .reasonPhrase, [m] => (stringAt data m).map fun reason => ({ q.1 with reason }, q.2)
  | .statusCode, [m] => some ({ q.1 with status := atoi (data.drop m.start) }, q.2)
  | .httpVersion, [m] =>
    match charsToVersion data m with
    | some version => some ({ q.1 with version }, q.2)
    | none => (stringAt data m).map fun _ => (q.1, 1001)
  | .httpField, [field, value] =>
    if field.length = 0 then some q
    else do
      let k ← stringAt data field
      let v ← stringAt data value
      some ({ q.1 with headers := q.1.headers.put k v }, q.2)
  | _, _ => some q

def callbacks (data : Bytes) : List (Event HttpClient.Callback) → HttpResponse × Nat → Option (HttpResponse × Nat)
  | [], q => some q
  | e :: es, q => (callback data e q).bind (callbacks data es)

/-- With `chunck`, a chunk header is parsed from its start. -/
def execute (p : HttpResponseParser) (data : Bytes) (len : Nat) (chunck : Bool) :
    Option (Nat × HttpResponseParser × Bytes) := do
  let (offset, parser, events) ← (if chunck then HttpClientParser.init else p.parser).execute data len 0
  let q ← callbacks data events (p.data, p.error)
  some (offset, { parser, data := q.1, error := q.2 }, splice data 0 (slice data offset (len - offset)))

def isFinished (p : HttpResponseParser) : Int := p.parser.finish

def hasError (p : HttpResponseParser) : Bool := p.error ≠ 0 || p.parser.hasError

def getContentLength (p : HttpResponseParser) : Nat := p.data.headers.getAs CONTENT_LENGTH

end HttpResponseParser

end LjrServer.Http
