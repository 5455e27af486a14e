/-
  LjrServer.Http.Http11Parser — `http_parser` (http11_parser.rl) and `HttpRequestParser`
  (http_parser.cpp).

  A callback is an event with its `(at, length)` as offsets into the buffer; the callbacks
  of a call are applied in order when it has scanned its buffer, which nothing they do can
  be seen by. `query_start` and `uri_relaxed` are not initialised: they are parameters.
-/

import LjrServer.Lib.Flat
import LjrServer.Lib.RagelScan
import LjrServer.Http.Http11Machine
import LjrServer.Http.Message

namespace LjrServer.Http

open LjrServer.Lib LjrServer.Lib.Scanner

namespace Http11

/-- The offsets an `http_parser` saves; `field_len` is the measured length of `fieldStart`. -/
inductive Reg where
  | mark
  | fieldStart
  | queryStart
  deriving DecidableEq, Repr

inductive Callback where
  | requestMethod
  | requestUri
  | fragment
  | queryString
  | httpVersion
  | requestPath
  | httpField
  | done
  | xml
  | json
  deriving DecidableEq, Repr

def Action.effects : Action → List (Effect Reg Callback)
  | .mark => [.save .mark]
  | .startField => [.save .fieldStart]
  | .writeField => [.measure .fieldStart]
  | .startValue => [.save .mark]
  | .writeValue => [.emit .httpField [.span .fieldStart, .upto .mark]]
  | .requestMethod => [.emit .requestMethod [.upto .mark]]
  | .requestUri => [.emit .requestUri [.upto .mark]]
  | .fragment => [.emit .fragment [.upto .mark]]
  | .startQuery => [.save .queryStart]
  | .queryString => [.emit .queryString [.upto .queryStart]]
  | .httpVersion => [.emit .httpVersion [.upto .mark]]
  | .requestPath => [.emit .requestPath [.upto .mark]]
  | .done => [.emit .done [.upto .mark], .stop]
  | .xml => [.emit .xml []]
  | .json => [.emit .json []]

/-- The generated machine. -/
abbrev automaton : Automaton (Ragel.Threads Action) Reg Callback := Ragel.automaton Action.effects

end Http11

open Http11

structure HttpParser where
  cs : Ragel.Threads Action
  bodyStart : Nat
  contentLen : Int
  nread : Nat
  regs : Regs Reg
  xmlSent : Bool
  jsonSent : Bool
  uriRelaxed : Bool

namespace HttpParser

def init (uriRelaxed : Bool) (queryStart : Nat) : HttpParser :=
  { cs := [Http11.main uriRelaxed], bodyStart := 0, contentLen := 0, nread := 0
    regs := { off := Scanner.set (fun _ => 0) .queryStart queryStart, len := fun _ => 0 }
    xmlSent := false, jsonSent := false, uriRelaxed }

/-- What `http_parser_execute` resets first. -/
def reset (p : HttpParser) : HttpParser :=
  { p with
    nread := 0
    regs := { off := Scanner.set (Scanner.set p.regs.off .mark 0) .fieldStart 0, len := fun _ => 0 } }

/-- The parts of `xml`, `json` and `done` that are not callbacks. -/
def note (p : HttpParser) (e : Event Callback) : HttpParser :=
  match e.kind, e.args with
  | .xml, _ => { p with xmlSent := true }
  | .json, _ => { p with jsonSent := true }
  | .done, [m] =>
    if p.xmlSent || p.jsonSent then
      { p with bodyStart := m.start, contentLen := toInt32 ((e.pos : Int) - m.start + 1) }
    else { p with bodyStart := e.pos + 1 }
  | _, _ => p

/-- `http_parser_execute` up to its last assertions, from offset `off` of the `len` bytes. -/
def run (p : HttpParser) (buffer : Bytes) (len off : Nat) : Scan (Ragel.Threads Action) Reg Callback :=
  scan automaton ((buffer.take len).drop off) off p.reset.cs p.reset.regs

def finishRun (p : HttpParser) (off : Nat) (r : Scan (Ragel.Threads Action) Reg Callback) : HttpParser :=
  let p := r.events.foldl note p.reset
  { p with cs := if r.ending = .error then [] else r.state, regs := r.regs, nread := r.pos - off }

/-- The assertions before the machine runs; `pe - p` is compared with a difference of `int`s. -/
def enters (len off : Nat) : Bool := off ≤ len ∧ ((len - off : Nat) : Int) = toInt32 len - toInt32 off

/-- `none` is an assertion. The error state is kept, since it has no way out. -/
def execute (p : HttpParser) (buffer : Bytes) (len off : Nat) : Option (Nat × HttpParser × List (Event Callback)) :=
  if len = 0 then some (0, p, [])
  else if ¬ enters len off then none
  else
    let r := p.run buffer len off
    let p' := p.finishRun off r
    if p'.nread ≤ len ∧ p'.bodyStart ≤ len ∧ r.regs.off .mark < len ∧ r.regs.len .fieldStart ≤ len ∧
        r.regs.off .fieldStart < len then
      some (p'.nread, p', r.events)
    else none

theorem execute_some {p p' : HttpParser} {buffer : Bytes} {len off n : Nat} {evs : List (Event Callback)}
    (h : p.execute buffer len off = some (n, p', evs)) :
    (len = 0 ∧ n = 0 ∧ p' = p ∧ evs = []) ∨
      (p' = p.finishRun off (p.run buffer len off) ∧ n = p'.nread ∧ evs = (p.run buffer len off).events) := by
  by_cases h0 : len = 0
  · rw [execute, if_pos h0] at h
    cases h
    exact .inl ⟨h0, rfl, rfl, rfl⟩
  · by_cases he : enters len off = true
    · simp only [execute, if_neg h0, he, not_true, if_false] at h
      split at h
      · cases h
        exact .inr ⟨rfl, rfl, rfl⟩
      · cases h
    · simp only [execute, if_neg h0, he] at h
      cases h

def hasError (p : HttpParser) : Bool := p.cs = []

def isFinished (p : HttpParser) : Bool := Ragel.isFinal p.cs

/-- `http_parser_finish` -/
def finish (p : HttpParser) : Int := if p.hasError then -1 else if p.isFinished then 1 else 0

end HttpParser

/-! ## HttpRequestParser -/

/-- `std::string(at, length)`; `none` when the bytes are not all in the buffer. -/
def stringAt (data : Bytes) (s : Slice) : Option Bytes :=
  if s.start + s.length ≤ data.length then some (slice data s.start s.length) else none

def HTTP_1_1 : Bytes := bytes ['H', 'T', 'T', 'P', '/', '1', '.', '1']

def HTTP_1_0 : Bytes := bytes ['H', 'T', 'T', 'P', '/', '1', '.', '0']

/-- The version a token spells, as `on_request_version` compares it. -/
def charsToVersion (data : Bytes) (at' : Slice) : Option UInt8 :=
  if strncmpEq at'.length (data.drop at'.start) HTTP_1_1 then some 0x11
  else if strncmpEq at'.length (data.drop at'.start) HTTP_1_0 then some 0x10
  else none

structure HttpRequestParser where
  parser : HttpParser
  data : HttpRequest
  error : Nat

namespace HttpRequestParser

def new (uriRelaxed : Bool) (queryStart : Nat) : HttpRequestParser :=
  { parser := .init uriRelaxed queryStart, data := {}, error := 0 }

/-- The request and the error a callback leaves. -/
def callback (data : Bytes) (e : Event Callback) (q : HttpRequest × Nat) : Option (HttpRequest × Nat) :=
  match e.kind, e.args with
  | .requestMethod, [m] =>
    match charsToHttpMethod (data.drop m.start) with
    | .INVALID_METHOD => (stringAt data m).map fun _ => (q.1, 1000)
    | method => some ({ q.1 with method }, q.2)
  | .fragment, [m] => (stringAt data m).map fun fragment => ({ q.1 with fragment }, q.2)
  | .requestPath, [m] => (stringAt data m).map fun path => ({ q.1 with path }, q.2)
  | .queryString, [m] => (stringAt data m).map fun query => ({ q.1 with query }, q.2)
  | .httpVersion, [m] =>
    match charsToVersion data m with
    | some version => some ({ q.1 with version }, q.2)
    | none => (stringAt data m).map fun _ => (q.1, 1001)
  | .httpField, [field, value] =>
    if field.length = 0 then some q
    else do
      let k ← stringAt data field
      let v ← stringAt data value
      some ({ q.1 with headers := q.1.headers.put k v }, q.2)
  | _, _ => some q

def callbacks (data : Bytes) : List (Event Callback) → HttpRequest × Nat → Option (HttpRequest × Nat)
  | [], q => some q
  | e :: es, q => (callback data e q).bind (callbacks data es)

/-- The bytes left are moved to the front of the buffer. -/
def execute (p : HttpRequestParser) (data : Bytes) (len : Nat) : Option (Nat × HttpRequestParser × Bytes) := do
  let (offset, parser, events) ← p.parser.execute data len 0
  let q ← callbacks data events (p.data, p.error)
  some (offset, { parser, data := q.1, error := q.2 }, splice data 0 (slice data offset (len - offset)))

def isFinished (p : HttpRequestParser) : Int := p.parser.finish

def hasError (p : HttpRequestParser) : Bool := p.error ≠ 0 || p.parser.hasError

def getContentLength (p : HttpRequestParser) : Nat := p.data.headers.getAs CONTENT_LENGTH

end HttpRequestParser

end LjrServer.Http
