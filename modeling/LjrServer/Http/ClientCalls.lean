/-
  LjrServer.Http.ClientCalls — the calls of `httpclient_parser_execute` in a call of
  `recvResponse`.

  The -1 of a failed check would be an offset to the caller. Of the offsets, `body_start` is
  the one that a call does not set anew. It is set at the end of a block, and behind that the
  parser is initialised again or not called, if it says that it is finished. It does not behind
  a last line "Connection:", "Content-Length:" or "Transfer-Encoding:" without a value: it is
  called again, and the next buffer may be shorter than the block was.

  Proved:
  - `recvResponse_run`: a call of `recvResponse` is a run of its turns.
  - `calls_end`: in every run that does not call the parser behind the end of a header block,
    each call of it ends with its offsets inside the buffer.
-/

import LjrServer.Lib.Runs
import LjrServer.Http.Chunks

namespace LjrServer.Http

open LjrServer.Lib LjrServer.Lib.Scanner LjrServer.Http.HttpClient

/-! ## The parser between two calls -/

/-- The end of the block has not been seen. -/
structure HttpClientParser.Unfinished (p : HttpClientParser) : Prop where
  alone : Ragel.Alone 28 .done p.cs
  bodyStart : p.bodyStart = 0

theorem HttpClientParser.unfinished_init : init.Unfinished where
  alone m hm := ⟨_, List.mem_singleton.mp hm, by decide⟩
  bodyStart := rfl

theorem action_stops (a : Action) (h : a.effects.any isStop = true) : a = .done := by
  cases a with
  | done => rfl
  | _ => cases h

/-- A call that neither fails nor comes to the end of the block leaves it so. -/
theorem HttpClientParser.Unfinished.after {p : HttpClientParser} (h : p.Unfinished) {buffer : Bytes} {len : Nat}
    (herror : (p.after buffer len).hasError = false) (hgoes : Ragel.isFinal (p.after buffer len).cs = false) :
    (p.after buffer len).Unfinished := by
  have hcs : (p.run buffer len 0).ending ≠ .error → (p.after buffer len).cs = (p.run buffer len 0).state :=
    fun hending => if_neg hending
  cases hcase : (p.run buffer len 0).ending with
  | error =>
    rw [hasError, HttpClientParser.after, finishRun, if_pos hcase] at herror
    simp at herror
  | stopped =>
    have hfinal : Ragel.isFinal (p.run buffer len 0).state = true := Ragel.final_of_stopped action_stops h.alone hcase
    rw [hcs (by rw [hcase]; exact End.noConfusion), hfinal] at hgoes
    cases hgoes
  | more =>
    refine ⟨?_, ?_⟩
    · rw [hcs (by rw [hcase]; exact End.noConfusion)]
      exact Ragel.alone_scan action_stops h.alone
    · exact (note_quiet buffer _ p (Ragel.no_event_of_more emit_client_done _ _ _ _ hcase)).trans h.bodyStart

theorem HttpClientParser.execute_after {p p' : HttpClientParser} {buffer : Bytes} {len n : Nat}
    {events : List (Event Callback)} (h : p.execute buffer len 0 = some (n, p', events)) : p' = p.after buffer len := by
  unfold execute at h
  split at h
  · cases h
  · split at h
    · cases h
    · dsimp only at h
      split at h
      · cases h
        rfl
      · cases h

theorem headD_splice_nul (data : Bytes) (len : Nat) : ((splice data len [0]).drop len).headD 0 = 0 := by
  by_cases hlen : len ≤ data.length
  · exact (splice_nul hlen).2.2
  · rw [splice, List.take_of_length_le (by omega), List.drop_of_length_le, List.headD_nil]
    rw [List.length_append, List.length_append, List.length_drop]
    dsimp only [List.length_singleton]
    omega

namespace HttpConnection

/-- The parser that a call begins with. -/
def entered (chunck : Bool) (p : HttpResponseParser) : HttpClientParser := if chunck then .init else p.parser

/-- The offset is not -1, and `memmove` is given no less than nothing. -/
def Returns (p : HttpClientParser) (buffer : Bytes) (len : Nat) : Prop :=
  ∃ offset p' events, p.execute buffer len 0 = some (offset, p', events) ∧ offset ≤ len

/-- No more is left in the buffer than was there. -/
theorem recvChunkData_len {N : Nat} {k : Int} {sock sock' : Socket} {data data' body body' : Bytes} {len len' : Nat}
    (h : recvChunkData N k sock data len body = some (some (body', data', len'), sock')) : len' ≤ len := by
  unfold recvChunkData at h
  split at h
  · cases h
  · split at h
    · split at h
      · cases h
      · cases h
        exact Nat.sub_le _ _
    · dsimp only at h
      split at h
      · cases h
      · cases h
      · split at h
        · cases h
        · cases h
          exact Nat.zero_le _

/-! ## The call as a run -/

inductive Stage where
  | header
  | chunkHeader (begin : Bool)
  | chunkData
  | body
  | returned (response : Option HttpResponse)

/-- What the next call of the parser has for `chunck`. -/
def Stage.chunck : Stage → Option Bool
  | .header => some false
  | .chunkHeader _ => some true
  | _ => none

/-- `begin` -/
def Stage.begins : Stage → Bool
  | .chunkHeader begin => begin
  | _ => true

/-- Whether there is a read before it. -/
def Stage.reads (len : Nat) : Stage → Bool
  | .chunkHeader begin => !begin || len == 0
  | _ => true

/-- What comes when a block has ended. -/
def Stage.behind (chunck : Bool) (p : HttpResponseParser) : Stage :=
  if chunck then .chunkData else if p.parser.chunked then .chunkHeader true else .body

/-- What comes when it has not. -/
def Stage.again (chunck : Bool) : Stage := if chunck then .chunkHeader false else .header

theorem Stage.chunck_cases {chunck : Bool} {stage : Stage} (h : stage.chunck = some chunck) :
    (stage = .header ∧ chunck = false) ∨ ((∃ begin, stage = .chunkHeader begin) ∧ chunck = true) := by
  cases stage with
  | header =>
    cases h
    exact .inl ⟨rfl, rfl⟩
  | chunkHeader begin =>
    cases h
    exact .inr ⟨⟨begin, rfl⟩, rfl⟩
  | _ => cases h

theorem Stage.chunck_again {chunck : Bool} {stage : Stage} (h : stage = .again chunck) :
    stage.chunck = some chunck := by
  rw [h]
  cases chunck with
  | true => rfl
  | false => rfl

/-- What a loop leaves: the parser, the buffer and the bytes in it, or null. -/
abbrev LoopEnd := Option (HttpResponseParser × Bytes × Nat) × Socket

/-- A call, with what is in the buffer and the body so far. -/
structure Receiving where
  sock : Socket
  parser : HttpResponseParser
  data : Bytes
  len : Nat
  content : Bytes
  stage : Stage

namespace Receiving

def start (buffer : Bytes) (sock : Socket) : Receiving := ⟨sock, .new, buffer, 0, [], .header⟩

/-- `close()` and `return nullptr` -/
def refuse (c : Receiving) (sock : Socket) : Receiving := { c with sock := sock.close, stage := .returned none }

/-- The bytes to be parsed; `none` is a failed read. -/
def received (buffSize : Nat) (c : Receiving) : Option (Bytes × Nat) × Socket :=
  if c.stage.reads c.len then
    match c.sock.read (buffSize - c.len) with
    | (none, sock) => (none, sock)
    | (some [], sock) => (none, sock)
    | (some bs, sock) => (some (splice c.data c.len bs, c.len + bs.length), sock)
  else (some (c.data, c.len), c.sock)

/-- The tests behind a call of the parser. -/
def tested (buffSize : Nat) (chunck : Bool) (c : Receiving) (sock : Socket) (len nparse : Nat)
    (parser : HttpResponseParser) (data : Bytes) : Receiving :=
  let len := len - nparse
  if parser.hasError then c.refuse sock
  else if (len : Int) = toInt32 buffSize then c.refuse sock
  else if parser.isFinished ≠ 0 then
    { c with sock, parser, data, len, stage := .behind chunck parser }
  else { c with sock, parser, data, len, stage := .again chunck }

/-- A turn of the header loop or of the loop of a chunk header. -/
def turn (buffSize : Nat) (chunck : Bool) (c : Receiving) : Option Receiving :=
  match c.received buffSize with
  | (none, sock) => some (c.refuse sock)
  | (some (data, len), sock) =>
    (execute chunck c.parser data len).map fun r => c.tested buffSize chunck sock len r.1 r.2.1 r.2.2

def readChunk (buffSize : Nat) (c : Receiving) : Option Receiving :=
  (recvChunkData buffSize c.parser.parser.contentLen c.sock c.data c.len c.content).map fun r =>
    match r with
    | (none, sock) => { c with sock, stage := .returned none }
    | (some (content, data, len), sock) =>
      let stage :=
        if c.parser.parser.chunksDone then .returned (some { c.parser.data with body := content }) else .chunkHeader true
      { c with sock, content, data, len, stage }

def readBody (c : Receiving) : Option Receiving :=
  let length := (c.parser.getContentLength : Int).bmod (2 ^ 64)
  if 0 < length then
    (recvBody c.sock c.data c.len length.toNat).map fun r =>
      { c with sock := r.2, stage := .returned (r.1.map fun _ => c.parser.data) }
  else some { c with stage := .returned (some c.parser.data) }

def step (buffSize : BufferSize) (c : Receiving) (_ : Unit) : Option Receiving :=
  match c.stage with
  | .header => c.turn buffSize.val false
  | .chunkHeader _ => c.turn buffSize.val true
  | .chunkData => c.readChunk buffSize.val
  | .body => c.readBody
  | .returned _ => none

variable {buffSize : BufferSize} {buffer : Bytes} {sock : Socket} {c c' : Receiving} {τ : History Receiving Unit}
  {chunck : Bool}

/-! ## Turns -/

/-- What is parsed is not empty and fits the buffer. -/
theorem received_length {data : Bytes} {len : Nat} {sock' : Socket} (hlen : c.len ≤ buffSize.val)
    (h : c.received buffSize.val = (some (data, len), sock')) : 0 < len ∧ len ≤ buffSize.val := by
  unfold received at h
  split at h
  · rcases hread : c.sock.read (buffSize.val - c.len) with ⟨_ | bs, sock''⟩
    · rw [hread] at h
      cases h
    · rw [hread] at h
      cases bs with
      | nil => cases h
      | cons b bs =>
        cases h
        have hle := Socket.read_length hread
        rw [List.length_cons] at hle ⊢
        omega
  · rename_i hreads
    cases h
    refine ⟨Nat.pos_of_ne_zero fun h0 => hreads ?_, hlen⟩
    cases c.stage with
    | chunkHeader begin => simp [Stage.reads, h0]
    | _ => rfl

theorem execute_entered {p p' : HttpResponseParser} {data data' : Bytes} {len nparse : Nat}
    (h : execute chunck p data len = some (nparse, p', data')) :
    ∃ events, (entered chunck p).execute (splice data len [0]) len 0 = some (nparse, p'.parser, events) := by
  rw [execute, HttpResponseParser.execute, ← entered] at h
  obtain ⟨⟨n, parser, events⟩, hexec, h⟩ := Option.bind_eq_some_iff.mp h
  obtain ⟨q, -, h⟩ := Option.bind_eq_some_iff.mp h
  cases h
  exact ⟨events, hexec⟩

/-- The two ends of a turn: it gives up, or goes on behind what is parsed. -/
inductive Turned (buffSize : BufferSize) (chunck : Bool) (c : Receiving) : Receiving → Prop
  | refused (sock : Socket) : Turned buffSize chunck c (c.refuse sock)
  | parsed (data : Bytes) (len : Nat) (sock : Socket) (nparse : Nat) (parser : HttpResponseParser) (data' : Bytes)
      (stage : Stage) :
      c.received buffSize.val = (some (data, len), sock) →
      execute chunck c.parser data len = some (nparse, parser, data') → parser.hasError = false →
      (parser.isFinished ≠ 0 ∧ stage = .behind chunck parser ∨ parser.isFinished = 0 ∧ stage = .again chunck) →
      Turned buffSize chunck c { c with sock, parser, data := data', len := len - nparse, stage }

theorem turn_turned (h : c.turn buffSize.val chunck = some c') : Turned buffSize chunck c c' := by
  unfold turn at h
  rcases hreceived : c.received buffSize.val with ⟨_ | ⟨data, len⟩, sock⟩
  · rw [hreceived] at h
    cases h
    exact .refused sock
  · rw [hreceived] at h
    obtain ⟨⟨nparse, parser, data'⟩, hexec, rfl⟩ := Option.map_eq_some_iff.mp h
    dsimp only [tested]
    split
    · exact .refused sock
    · rename_i herror
      have hok : parser.hasError = false := by simpa using herror
      split
      · exact .refused sock
      · split
        · rename_i hfinished
          exact .parsed data len sock nparse parser data' _ hreceived hexec hok (.inl ⟨hfinished, rfl⟩)
        · rename_i hfinished
          exact .parsed data len sock nparse parser data' _ hreceived hexec hok (.inr ⟨not_not.mp hfinished, rfl⟩)

/-! ## The loops go by turns -/

/-- What a loop returns, or where it goes on. -/
def outcome (loop : Receiving → Option LoopEnd) (c : Receiving) : Option LoopEnd :=
  match c.stage with
  | .header => loop c
  | .chunkHeader false => loop c
  | .returned _ => some (none, c.sock)
  | _ => some (some (c.parser, c.data, c.len), c.sock)

variable {loop : Receiving → Option LoopEnd}

theorem outcome_behind {p : HttpResponseParser} (hstage : c.stage = .behind chunck p) :
    outcome loop c = some (some (c.parser, c.data, c.len), c.sock) := by
  rw [outcome, hstage, Stage.behind]
  cases chunck with
  | true => rfl
  | false =>
    cases p.parser.chunked with
    | true => rfl
    | false => rfl

theorem outcome_again (hstage : c.stage = .again chunck) : outcome loop c = loop c := by
  rw [outcome, hstage]
  cases chunck with
  | true => rfl
  | false => rfl

theorem outcome_tested (loop : Receiving → Option LoopEnd) (N : Nat) (chunck : Bool) (c : Receiving) (sock : Socket)
    (len nparse : Nat) (parser : HttpResponseParser) (data : Bytes) :
    outcome loop (c.tested N chunck sock len nparse parser data) =
      if parser.hasError then some (none, sock.close)
      else if ((len - nparse : Nat) : Int) = toInt32 N then some (none, sock.close)
      else if parser.isFinished ≠ 0 then some (some (parser, data, len - nparse), sock)
      else loop { c with sock, parser, data, len := len - nparse, stage := .again chunck } := by
  unfold tested
  dsimp only
  by_cases herror : parser.hasError = true
  · rw [if_pos herror, if_pos herror]
    rfl
  · rw [if_neg herror, if_neg herror]
    by_cases hfull : ((len - nparse : Nat) : Int) = toInt32 N
    · rw [if_pos hfull, if_pos hfull]
      rfl
    · rw [if_neg hfull, if_neg hfull]
      by_cases hfinished : parser.isFinished ≠ 0
      · rw [if_pos hfinished, if_pos hfinished]
        exact outcome_behind rfl
      · rw [if_neg hfinished, if_neg hfinished]
        exact outcome_again rfl

theorem recvChunkHeader_parsed (I : HeaderParser HttpResponseParser) {N : Nat} (fuel : Nat) (p : HttpResponseParser)
    {begin : Bool} (hstage : c.stage = .chunkHeader begin) :
    recvChunkHeader I N (fuel + 1) begin c.sock p c.data c.len =
      match c.received N with
      | (none, sock) => some (none, sock.close)
      | (some (data, len), sock) =>
        (I.execute p data len).bind fun r =>
          if I.hasError r.2.1 then some (none, sock.close)
          else if ((len - r.1 : Nat) : Int) = toInt32 N then some (none, sock.close)
          else if I.isFinished r.2.1 ≠ 0 then some (some (r.2.1, r.2.2, len - r.1), sock)
          else recvChunkHeader I N fuel false sock r.2.1 r.2.2 (len - r.1) := by
  have hreads : (c.stage.reads c.len = true) = (¬ begin = true ∨ c.len = 0) := by
    rw [hstage]
    cases begin with
    | false => simp [Stage.reads]
    | true => simp [Stage.reads]
  rw [recvChunkHeader, received]
  simp only [hreads]
  generalize (if ¬ begin = true ∨ c.len = 0 then _ else _ : Option (Bytes × Nat) × Socket) = received
  obtain ⟨_ | ⟨data, len⟩, sock⟩ := received
  · rfl
  · dsimp only
    cases I.execute p data len with
    | none => rfl
    | some r => rfl

def headerLoop (N fuel : Nat) (c : Receiving) : Option LoopEnd :=
  recvHeader headerParser N fuel c.sock c.parser c.data c.len

def chunkLoop (N fuel : Nat) (c : Receiving) : Option LoopEnd :=
  recvChunkHeader chunkParser N fuel c.stage.begins c.sock c.parser c.data c.len

theorem headerLoop_turn (N fuel : Nat) (hstage : c.stage.chunck = some false) :
    headerLoop N (fuel + 1) c = (c.turn N false).bind (outcome (headerLoop N fuel)) := by
  have hreads : c.stage.reads c.len = true := by
    rcases Stage.chunck_cases hstage with ⟨hheader, -⟩ | ⟨-, hfalse⟩
    · rw [hheader]
      rfl
    · cases hfalse
  rw [turn, received, if_pos hreads, headerLoop]
  rcases hread : c.sock.read (N - c.len) with ⟨_ | bs, sock⟩
  · exact recvHeader_ended headerParser fuel c.parser c.data (.inl hread)
  · by_cases hne : bs = []
    · subst hne
      exact recvHeader_ended headerParser fuel c.parser c.data (.inr hread)
    · rw [recvHeader_parsed headerParser fuel c.parser c.data hread hne, Nat.add_comm bs.length]
      cases bs with
      | nil => exact absurd rfl hne
      | cons b bs =>
        dsimp only
        rw [Option.bind_map]
        refine congrArg _ (funext fun r => ?_)
        exact (outcome_tested (headerLoop N fuel) N false c sock _ r.1 r.2.1 r.2.2).symm

theorem chunkLoop_turn (N fuel : Nat) (hstage : c.stage.chunck = some true) :
    chunkLoop N (fuel + 1) c = (c.turn N true).bind (outcome (chunkLoop N fuel)) := by
  obtain ⟨⟨begin, hbegin⟩, -⟩ := (Stage.chunck_cases hstage).resolve_left fun h => Bool.noConfusion h.2
  have hbegins : c.stage.begins = begin := by rw [hbegin]; rfl
  rw [turn, chunkLoop, hbegins, recvChunkHeader_parsed chunkParser fuel c.parser hbegin]
  obtain ⟨_ | ⟨data, len⟩, sock⟩ := c.received N
  · rfl
  · dsimp only
    rw [Option.bind_map]
    refine congrArg _ (funext fun r => ?_)
    exact (outcome_tested (chunkLoop N fuel) N true c sock len r.1 r.2.1 r.2.2).symm

theorem step_turn (hstage : c.stage.chunck = some chunck) : step buffSize c () = c.turn buffSize.val chunck := by
  rcases Stage.chunck_cases hstage with ⟨hheader, rfl⟩ | ⟨⟨begin, hbegin⟩, rfl⟩
  · rw [step, hheader]
  · rw [step, hbegin]

/-- There is a run to where a loop ends. -/
def Reaches (buffSize : BufferSize) (chunck : Bool) (c : Receiving) (r : LoopEnd) : Prop :=
  ∃ τ c', Run (step buffSize) c τ c' ∧ c'.sock = r.2 ∧ c'.content = c.content ∧
    (r.1 = none ∧ c'.stage = .returned none ∨
      r.1 = some (c'.parser, c'.data, c'.len) ∧ c'.stage = Stage.behind chunck c'.parser)

/-- A loop that goes by turns is a run of them. -/
theorem loop_run (loop : Nat → Receiving → Option LoopEnd) (hzero : ∀ c, loop 0 c = none)
    (hturn : ∀ fuel c, c.stage.chunck = some chunck →
      loop (fuel + 1) c = (c.turn buffSize.val chunck).bind (outcome (loop fuel))) :
    ∀ {fuel : Nat} {c : Receiving} {r : LoopEnd}, c.stage.chunck = some chunck → loop fuel c = some r →
      Reaches buffSize chunck c r := by
  intro fuel
  induction fuel with
  | zero =>
    intro c r _ h
    rw [hzero] at h
    cases h
  | succ fuel ih =>
    intro c r hstage h
    rw [hturn fuel c hstage] at h
    obtain ⟨c', hc', h⟩ := Option.bind_eq_some_iff.mp h
    have hrun : Run (step buffSize) c [(c, ())] c' := .step .nil ((step_turn hstage).trans hc')
    cases turn_turned hc' with
    | refused sock =>
      cases h
      exact ⟨_, _, hrun, rfl, rfl, .inl ⟨rfl, rfl⟩⟩
    | parsed data len sock nparse parser data' stage hreceived hexec herror hwhere =>
      rcases hwhere with ⟨-, hbehind⟩ | ⟨-, hagain⟩
      · rw [outcome_behind hbehind] at h
        cases h
        exact ⟨_, _, hrun, rfl, rfl, .inr ⟨rfl, hbehind⟩⟩
      · rw [outcome_again hagain] at h
        obtain ⟨τ, c'', hlater, hresult⟩ := ih (Stage.chunck_again hagain) h
        exact ⟨τ ++ [(c, ())], c'', hrun.append hlater, hresult⟩

theorem headerLoop_run {fuel : Nat} {r : LoopEnd} (hstage : c.stage = .header)
    (h : recvHeader headerParser buffSize.val fuel c.sock c.parser c.data c.len = some r) :
    Reaches buffSize false c r :=
  loop_run (headerLoop buffSize.val) (fun _ => rfl) (fun fuel _ => headerLoop_turn buffSize.val fuel)
    (by rw [hstage]; rfl) h

theorem chunkLoop_run {fuel : Nat} {r : LoopEnd} (hstage : c.stage = .chunkHeader true)
    (h : recvChunkHeader chunkParser buffSize.val fuel true c.sock c.parser c.data c.len = some r) :
    Reaches buffSize true c r :=
  loop_run (chunkLoop buffSize.val) (fun _ => rfl) (fun fuel _ => chunkLoop_turn buffSize.val fuel)
    (by rw [hstage]; rfl) (by rw [chunkLoop, hstage]; exact h)

theorem recvChunks_succ (I : HeaderParser HttpResponseParser) (N fuel : Nat) (sock : Socket) (p : HttpResponseParser)
    (data : Bytes) (len : Nat) (body : Bytes) :
    recvChunks I N (fuel + 1) sock p data len body =
      (recvChunkHeader I N (sock.rest.length + 2) true sock p data len).bind fun
        | (none, sock) => some (none, sock)
        | (some (p, data, len), sock) =>
          (recvChunkData N p.parser.contentLen sock data len body).bind fun
            | (none, sock) => some (none, sock)
            | (some (body, data, len), sock) =>
              if p.parser.chunksDone then some (some (p, body), sock)
              else recvChunks I N fuel sock p data len body := by
  rw [recvChunks]
  cases recvChunkHeader I N (sock.rest.length + 2) true sock p data len with
  | none => rfl
  | some r =>
    obtain ⟨_ | ⟨p, data, len⟩, sock⟩ := r
    · rfl
    · dsimp only [Option.bind_some]
      cases recvChunkData N p.parser.contentLen sock data len body with
      | none => rfl
      | some r => obtain ⟨_ | ⟨body, data, len⟩, sock⟩ := r <;> rfl

theorem recvChunks_run : ∀ {fuel : Nat} {c : Receiving} {r : Option (HttpResponseParser × Bytes) × Socket},
    c.stage = .chunkHeader true →
    recvChunks chunkParser buffSize.val fuel c.sock c.parser c.data c.len c.content = some r →
    ∃ τ c', Run (step buffSize) c τ c' ∧ c'.sock = r.2 ∧
      c'.stage = .returned (r.1.map fun q => { q.1.data with body := q.2 }) := by
  intro fuel
  induction fuel with
  | zero =>
    intro c r _ h
    cases h
  | succ fuel ih =>
    intro c r hstage h
    rw [recvChunks_succ] at h
    obtain ⟨⟨header, sock⟩, hheader, h⟩ := Option.bind_eq_some_iff.mp h
    obtain ⟨τ, c₁, hrun, hsock, hcontent, hresult⟩ := chunkLoop_run hstage hheader
    dsimp only at hsock hresult
    rcases hresult with ⟨rfl, hreturned⟩ | ⟨rfl, hbehind⟩
    · cases h
      exact ⟨τ, c₁, hrun, hsock, hreturned⟩
    · obtain ⟨⟨chunk, sock'⟩, hchunk, h⟩ := Option.bind_eq_some_iff.mp h
      rw [← hsock, ← hcontent] at hchunk
      have hdata : c₁.stage = .chunkData := hbehind
      have hstep : step buffSize c₁ () = c₁.readChunk buffSize.val := by rw [step, hdata]
      rw [readChunk, hchunk, Option.map_some] at hstep
      cases chunk with
      | none =>
        cases h
        exact ⟨_, _, .step hrun hstep, rfl, rfl⟩
      | some q =>
        obtain ⟨body, data, len⟩ := q
        dsimp only at h hstep
        by_cases hdone : c₁.parser.parser.chunksDone = true
        · rw [if_pos hdone] at h hstep
          cases h
          exact ⟨_, _, .step hrun hstep, rfl, rfl⟩
        · rw [if_neg hdone] at h hstep
          obtain ⟨τ', c₂, hlater, hresult⟩ :=
            ih (c := { c₁ with sock := sock', content := body, data, len, stage := .chunkHeader true }) rfl h
          exact ⟨_, c₂, (Run.step hrun hstep).append hlater, hresult⟩

/-- `recvResponse` returns what a run of its turns comes to. -/
theorem recvResponse_run {r : Option HttpResponse × Socket} (h : recvResponse buffSize buffer sock = some r) :
    ∃ τ c, Run (step buffSize) (start buffer sock) τ c ∧ c.stage = .returned r.1 ∧ c.sock = r.2 := by
  obtain ⟨⟨header, sock'⟩, hheader, h⟩ := Option.bind_eq_some_iff.mp h
  obtain ⟨τ, c, hrun, hsock, hcontent, hresult⟩ := headerLoop_run (c := start buffer sock) rfl hheader
  dsimp only at hsock hresult h
  rcases hresult with ⟨rfl, hreturned⟩ | ⟨rfl, hstage⟩
  · cases h
    exact ⟨τ, c, hrun, hreturned, hsock⟩
  · dsimp only at h
    rw [← hsock] at h
    by_cases hchunked : c.parser.parser.chunked = true
    · rw [if_pos hchunked] at h
      rw [Stage.behind, if_neg Bool.false_ne_true, if_pos hchunked] at hstage
      obtain ⟨⟨chunks, sock''⟩, hchunks, h⟩ := Option.bind_eq_some_iff.mp h
      rw [show ([] : Bytes) = c.content from hcontent.symm] at hchunks
      obtain ⟨τ', c', hlater, hsock', hstage'⟩ := recvChunks_run hstage hchunks
      refine ⟨_, c', hrun.append hlater, ?_⟩
      cases chunks with
      | none =>
        cases h
        exact ⟨hstage', hsock'⟩
      | some q =>
        cases h
        exact ⟨hstage', hsock'⟩
    · rw [if_neg hchunked] at h
      rw [Stage.behind, if_neg Bool.false_ne_true, if_neg hchunked] at hstage
      have hlast : ∀ {c' : Receiving}, c.readBody = some c' →
          Run (step buffSize) (start buffer sock) ((c, ()) :: τ) c' :=
        fun hbody => .step hrun (by rw [step, hstage]; exact hbody)
      unfold readBody at hlast
      dsimp only at hlast
      by_cases hlength : 0 < (c.parser.getContentLength : Int).bmod (2 ^ 64)
      · rw [if_pos hlength] at h
        obtain ⟨⟨body, sock''⟩, hbody, h⟩ := Option.bind_eq_some_iff.mp h
        refine ⟨_, _, hlast (by rw [if_pos hlength, hbody]; rfl), ?_⟩
        cases body with
        | none =>
          cases h
          exact ⟨rfl, rfl⟩
        | some body =>
          cases h
          exact ⟨rfl, rfl⟩
      · rw [if_neg hlength] at h
        cases h
        exact ⟨_, _, hlast (if_neg hlength), rfl, rfl⟩

/-! ## Every call ends -/

/-- The parser is not called for a header whose end it has seen. -/
def InHeader (c : Receiving) : Prop := c.stage.chunck = some false → Ragel.isFinal c.parser.parser.cs = false

instance (c : Receiving) : Decidable c.InHeader := inferInstanceAs (Decidable (_ → _))

/-- Between two calls of the parser: the buffer is not exceeded, and before a header's end
    `body_start` is not set. -/
structure Waiting (buffSize : BufferSize) (c : Receiving) : Prop where
  len : c.len ≤ buffSize.val
  header : c.stage = .header → Ragel.isFinal c.parser.parser.cs = false → c.parser.parser.Unfinished

theorem start_waiting : Waiting buffSize (start buffer sock) where
  len := Nat.zero_le _
  header _ _ := HttpClientParser.unfinished_init

/-- The parser of a call, with or without a new start. -/
theorem Waiting.entered (h : Waiting buffSize c) (hin : c.InHeader) (hstage : c.stage.chunck = some chunck) :
    (entered chunck c.parser).Unfinished := by
  rcases Stage.chunck_cases hstage with ⟨hheader, rfl⟩ | ⟨-, rfl⟩
  · exact h.header hheader (hin hstage)
  · exact HttpClientParser.unfinished_init

theorem Waiting.turned (h : Waiting buffSize c) (hin : c.InHeader) (hstage : c.stage.chunck = some chunck)
    (hturn : Turned buffSize chunck c c') : Waiting buffSize c' := by
  cases hturn with
  | refused sock => exact ⟨h.len, fun hheader => by cases hheader⟩
  | parsed data len sock nparse parser data' stage hreceived hexec herror hwhere =>
    obtain ⟨-, hle⟩ := received_length h.len hreceived
    refine ⟨Nat.le_trans (Nat.sub_le _ _) hle, fun _ hgoes => ?_⟩
    dsimp only at hgoes ⊢
    obtain ⟨events, hcall⟩ := execute_entered hexec
    obtain ⟨-, hfailed⟩ := Bool.or_eq_false_iff.mp herror
    rw [HttpClientParser.execute_after hcall] at hfailed hgoes ⊢
    exact (h.entered hin hstage).after hfailed hgoes

theorem Waiting.step (h : Waiting buffSize c) (hin : c.InHeader) (hs : step buffSize c () = some c') :
    Waiting buffSize c' := by
  cases hcase : c.stage with
  | header =>
    have hstage : c.stage.chunck = some false := by rw [hcase]; rfl
    rw [step_turn hstage] at hs
    exact h.turned hin hstage (turn_turned hs)
  | chunkHeader begin =>
    have hstage : c.stage.chunck = some true := by rw [hcase]; rfl
    rw [step_turn hstage] at hs
    exact h.turned hin hstage (turn_turned hs)
  | chunkData =>
    rw [Receiving.step, hcase] at hs
    obtain ⟨⟨chunk, sock⟩, hchunk, rfl⟩ := Option.map_eq_some_iff.mp hs
    cases chunk with
    | none => exact ⟨h.len, fun hheader => by cases hheader⟩
    | some q =>
      obtain ⟨body, data, len⟩ := q
      refine ⟨Nat.le_trans (recvChunkData_len hchunk) h.len, fun hheader => ?_⟩
      dsimp only at hheader
      split at hheader
      · cases hheader
      · cases hheader
  | body =>
    rw [Receiving.step, hcase] at hs
    unfold readBody at hs
    dsimp only at hs
    split at hs
    · obtain ⟨r, -, rfl⟩ := Option.map_eq_some_iff.mp hs
      exact ⟨h.len, fun hheader => by cases hheader⟩
    · cases hs
      exact ⟨h.len, fun hheader => by cases hheader⟩
  | returned response =>
    rw [Receiving.step, hcase] at hs
    cases hs

/-- In a run in which the parser is not called behind the end of a header, every call of
    `httpclient_parser_execute` that `recvResponse` comes to ends with its offsets inside the
    buffer, whatever there is to parse, and returns no -1. -/
theorem calls_end (hr : Run (step buffSize) (start buffer sock) τ c) (hin : ∀ v ∈ c :: τ.map Prod.fst, v.InHeader)
    (hstage : c.stage.chunck = some chunck) :
    (∀ m len, 0 < len → (entered chunck c.parser).Ends m len ∧
        (HttpParser.enters len 0 = true → (m.drop len).headD 0 = 0 → Returns (entered chunck c.parser) m len)) ∧
      ∀ data len sock', c.received buffSize.val = (some (data, len), sock') →
        0 < len ∧ len ≤ buffSize.val ∧ Returns (entered chunck c.parser) (splice data len [0]) len := by
  have hwaiting : Waiting buffSize c :=
    hr.invariant (C := fun v _ => v.InHeader) start_waiting (fun _ _ _ h hv => h.step hv)
      fun p hp => hin p.1 (List.mem_cons_of_mem _ (List.mem_map_of_mem hp))
  have hbody := (hwaiting.entered (hin c List.mem_cons_self) hstage).bodyStart
  have hends : ∀ m len, 0 < len → (entered chunck c.parser).Ends m len :=
    fun m len => HttpClientParser.ends (by rw [hbody]; exact Nat.zero_le len)
  have hreturns : ∀ m len, 0 < len → HttpParser.enters len 0 = true → (m.drop len).headD 0 = 0 →
      Returns (entered chunck c.parser) m len :=
    fun m len hpos henters hnul => ⟨_, _, _, (hends m len hpos).returns henters hnul, (hends m len hpos).nread⟩
  refine ⟨fun m len hpos => ⟨hends m len hpos, hreturns m len hpos⟩, fun data len sock' hreceived => ?_⟩
  obtain ⟨hpos, hle⟩ := received_length hwaiting.len hreceived
  have henters : HttpParser.enters len 0 = true := enters_iff.mpr (Nat.lt_of_le_of_lt hle buffSize.lt)
  exact ⟨hpos, hle, hreturns _ len hpos henters (headD_splice_nul data len)⟩

/-- The call for the size line behind the header of a chunked response. -/
theorem calls_end_chunked : ∃ (c : Receiving) (data : Bytes) (len : Nat) (sock' : Socket),
    c.stage.chunck = some true ∧ c.received 4096 = (some (data, len), sock') ∧
    Returns (entered true c.parser) (splice data len [0]) len := by
  obtain ⟨τ, c, hr, hmeets, htest⟩ := exists_run (step ⟨4096, by decide, by decide⟩) (fun v _ => v.InHeader)
    (start [] (Socket.of [okChunked ++ bytes ['5', '\r'], bytes ['\n']])) [()]
    (fun _ c => decide (c.stage.chunck = some true) && (c.received 4096).1.isSome) (by decide +kernel)
  obtain ⟨hstage, hsome⟩ := Bool.and_eq_true_iff.mp htest
  have hchunck : c.stage.chunck = some true := of_decide_eq_true hstage
  have hin : ∀ v ∈ c :: τ.map Prod.fst, v.InHeader := by
    refine List.forall_mem_cons.mpr ⟨fun hfalse => ?_, List.forall_mem_map.mpr hmeets⟩
    cases hchunck.symm.trans hfalse
  rcases hreceived : c.received 4096 with ⟨_ | ⟨data, len⟩, sock'⟩
  · rw [hreceived] at hsome
    cases hsome
  · exact ⟨c, data, len, sock', hchunck, hreceived, ((calls_end hr hin hchunck).2 data len sock' hreceived).2.2⟩

/-- `HTTP/1.1 200 OK` with "Connection:" for its last line. -/
def okConnection : Bytes :=
  bytes ['H', 'T', 'T', 'P', '/', '1', '.', '1', ' ', '2', '0', '0', ' ', 'O', 'K', '\r', '\n', 'C', 'o', 'n', 'n', 'e', 'c',
    't', 'i', 'o', 'n', ':', '\r', '\n', '\r', '\n']

/-- Behind it one byte arrives: `body_start` is behind the end of the buffer. -/
theorem okConnection_asserts : ∃ (τ : History Receiving Unit) (c : Receiving) (data : Bytes) (len : Nat) (sock' : Socket),
    Run (step ⟨4096, by decide, by decide⟩) (start [] (Socket.of [okConnection, bytes [' ']])) τ c ∧
    c.stage.chunck = some false ∧ c.received 4096 = (some (data, len), sock') ∧ 0 < len ∧
    ¬ (entered false c.parser).Ends (splice data len [0]) len ∧
    ¬ Returns (entered false c.parser) (splice data len [0]) len := by
  obtain ⟨τ, c, hr, -, htest⟩ := exists_run (step ⟨4096, by decide, by decide⟩) (fun _ _ => True)
    (start [] (Socket.of [okConnection, bytes [' ']])) [()]
    (fun _ c => decide (c.stage.chunck = some false) && (c.received 4096).1.any fun r : Bytes × Nat =>
      decide (0 < r.2 ∧ r.2 < ((entered false c.parser).after (splice r.1 r.2 [0]) r.2).bodyStart)) (by decide +kernel)
  obtain ⟨hstage, hany⟩ := Bool.and_eq_true_iff.mp htest
  rcases hreceived : c.received 4096 with ⟨_ | ⟨data, len⟩, sock'⟩
  · rw [hreceived] at hany
    cases hany
  · rw [hreceived] at hany
    obtain ⟨hpos, hlong⟩ := of_decide_eq_true hany
    have hends : ¬ (entered false c.parser).Ends (splice data len [0]) len :=
      fun h => Nat.not_lt_of_le h.bodyStart hlong
    refine ⟨τ, c, data, len, sock', hr, of_decide_eq_true hstage, hreceived, hpos, hends, ?_⟩
    rintro ⟨offset, p', events, hexec, -⟩
    unfold HttpClientParser.execute at hexec
    split at hexec
    · cases hexec
    · split at hexec
      · cases hexec
      · dsimp only at hexec
        split at hexec
        · rename_i hchecks
          exact Nat.not_lt_of_le hchecks.2.1 hlong
        · cases hexec

end Receiving

end HttpConnection

end LjrServer.Http
