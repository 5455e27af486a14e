/-
  LjrServer.Http.HeaderReads — header blocks that arrive in several reads.

  Each call of a parser consumes all it is given and begins the next at offset 0, so a
  token is handed out whole only when it lies in one read.

  Proved:
  - `header_of_uncut_tokens`: a block accepted in one call is accepted, with the same
    result, from any reads that cut no token a callback uses.
-/

import LjrServer.Http.ResponseHeader

namespace LjrServer.Http

open LjrServer.Lib LjrServer.Lib.Scanner

/-- Successive reads that are not empty and fit the buffer. -/
def Reads (buffSize : BufferSize) (pieces : List Bytes) : Prop :=
  ∀ piece ∈ pieces, piece ≠ [] ∧ piece.length ≤ buffSize.val

instance (buffSize : BufferSize) (pieces : List Bytes) : Decidable (Reads buffSize pieces) :=
  inferInstanceAs (Decidable (∀ piece ∈ pieces, _ ∧ _))

namespace HttpSession

/-- No read ends inside a token that a callback uses. -/
def Uncut (u : Uninit) (pieces : List Bytes) : Prop :=
  Scanner.Uncut Http11.recorded Http11.automaton [Http11.main u.uriRelaxed]
    (HttpParser.init u.uriRelaxed u.queryStart).reset.regs pieces

instance (u : Uninit) (pieces : List Bytes) : Decidable (Uncut u pieces) :=
  inferInstanceAs (Decidable (Scanner.Uncut _ _ _ _ _))

/-- The parse of a header block in one call. -/
def Parses (u : Uninit) (block : Bytes) (q : HttpRequest) : Prop :=
  ∃ p, ScanParser.Accepts headerParser (.new u.uriRelaxed u.queryStart) block p ∧ p.data = q

theorem parses_of_check {u : Uninit} {block : Bytes} {q : HttpRequest} (hne : block ≠ [])
    (h : (HttpRequestParser.execute (.new u.uriRelaxed u.queryStart) block block.length).any (fun r =>
      decide (r.1 = block.length) && !r.2.1.hasError && decide (r.2.1.isFinished ≠ 0) && decide (r.2.1.data = q)) = true) :
    Parses u block q := by
  obtain ⟨p, haccepts, hdata⟩ := ScanParser.Accepts.of_check (I := headerParser) hne (fun p => p.data = q) h
  exact ⟨p, haccepts, of_decide_eq_true hdata⟩

/-- The loop of `recvRequest` reads a header block to its end. -/
def Receives (buffSize : BufferSize) (u : Uninit) (pieces : List Bytes) (q : HttpRequest) : Prop :=
  ∃ p data, recvHeader headerParser buffSize.val ((Socket.of pieces).rest.length + 1) (Socket.of pieces)
    (.new u.uriRelaxed u.queryStart) u.buffer 0 = some (some (p, data, 0), Socket.of []) ∧ p.data = q

theorem receives_of_uncut (buffSize : BufferSize) (u : Uninit) {pieces : List Bytes} {q : HttpRequest}
    (hparse : Parses u pieces.flatten q) (hreads : Reads buffSize pieces) (huncut : Uncut u pieces) :
    Receives buffSize u pieces q := by
  obtain ⟨p₁, haccepts, rfl⟩ := hparse
  obtain ⟨p, data, hrecv, hdata⟩ := request_implements.recvHeader_cut
    (request_ready_new u.uriRelaxed u.queryStart) haccepts (request_stable haccepts) rfl hreads huncut u.buffer
  exact ⟨p, data, hrecv, (Prod.mk.inj hdata).1⟩

end HttpSession

namespace HttpConnection

/-- No read ends inside a token that a callback uses. -/
def Uncut (pieces : List Bytes) : Prop :=
  Scanner.Uncut HttpClient.recorded HttpClient.automaton [HttpClient.main] HttpClientParser.zero pieces

instance (pieces : List Bytes) : Decidable (Uncut pieces) := inferInstanceAs (Decidable (Scanner.Uncut _ _ _ _ _))

/-- The parse of a header block in one call. -/
def Parses (block : Bytes) (q : HttpResponse) : Prop := ∃ p, ScanParser.Accepts headerParser .new block p ∧ p.data = q

theorem parses_of_check {block : Bytes} {q : HttpResponse} (hne : block ≠ [])
    (h : (HttpConnection.execute false .new block block.length).any (fun r =>
      decide (r.1 = block.length) && !r.2.1.hasError && decide (r.2.1.isFinished ≠ 0) && decide (r.2.1.data = q)) = true) :
    Parses block q := by
  obtain ⟨p, haccepts, hdata⟩ := ScanParser.Accepts.of_check (I := headerParser) hne (fun p => p.data = q) h
  exact ⟨p, haccepts, of_decide_eq_true hdata⟩

/-- The loop of `recvResponse` reads a header block to its end. -/
def Receives (buffSize : BufferSize) (buffer : Bytes) (pieces : List Bytes) (q : HttpResponse) : Prop :=
  ∃ p data, recvHeader headerParser buffSize.val ((Socket.of pieces).rest.length + 1) (Socket.of pieces) .new buffer 0 =
    some (some (p, data, 0), Socket.of []) ∧ p.data = q

theorem receives_of_uncut (buffSize : BufferSize) (buffer : Bytes) {pieces : List Bytes} {q : HttpResponse}
    (hparse : Parses pieces.flatten q) (hreads : Reads buffSize pieces) (huncut : Uncut pieces) :
    Receives buffSize buffer pieces q := by
  obtain ⟨p₁, haccepts, rfl⟩ := hparse
  obtain ⟨p, data, hrecv, hdata⟩ := response_implements.recvHeader_cut response_ready_new haccepts
    (response_stable _ _) rfl hreads huncut buffer
  exact ⟨p, data, hrecv, (Prod.mk.inj (Prod.mk.inj hdata).1).1⟩

end HttpConnection

/-- A block accepted in one call is accepted with the same result from any reads that cut
    none of its tokens, for requests and for responses. -/
theorem header_of_uncut_tokens (buffSize : BufferSize) :
    (∀ (u : Uninit) (pieces : List Bytes) (q : HttpRequest), HttpSession.Parses u pieces.flatten q →
      Reads buffSize pieces → HttpSession.Uncut u pieces → HttpSession.Receives buffSize u pieces q) ∧
    (∀ (buffer : Bytes) (pieces : List Bytes) (q : HttpResponse), HttpConnection.Parses pieces.flatten q →
      Reads buffSize pieces → HttpConnection.Uncut pieces → HttpConnection.Receives buffSize buffer pieces q) :=
  ⟨fun u _ _ => HttpSession.receives_of_uncut buffSize u,
    fun buffer _ _ => HttpConnection.receives_of_uncut buffSize buffer⟩

/-- `GET ` and then `/a HTTP/1.1`, `HTTP/1.1 ` and then `200 OK`: the reads end between tokens. -/
theorem header_of_uncut_tokens_two_reads : HttpSession.Receives ⟨4096, by decide, by decide⟩ ⟨false, 0, []⟩
      [bytes ['G', 'E', 'T', ' '], bytes ['/', 'a', ' ', 'H', 'T', 'T', 'P', '/', '1', '.', '1', '\n', '\n']]
      { method := .GET, path := bytes ['/', 'a'] } ∧
    HttpConnection.Receives ⟨4096, by decide, by decide⟩ [] [bytes ['H', 'T', 'T', 'P', '/', '1', '.', '1', ' '],
      bytes ['2', '0', '0', ' ', 'O', 'K', '\n', '\n']] { status := 200, reason := bytes ['O', 'K'] } := by
  constructor
  · exact (header_of_uncut_tokens _).1 _ _ _ (HttpSession.parses_of_check (by decide) (by decide +kernel)) (by decide)
      (by decide +kernel)
  · exact (header_of_uncut_tokens _).2 _ _ _ (HttpConnection.parses_of_check (by decide) (by decide +kernel)) (by decide)
      (by decide +kernel)

/-- `GE` and then `T / HTTP/1.1`: there is no method `T`. -/
theorem method_cut_in_two : HttpSession.Parses ⟨false, 0, []⟩ (bytes ['G', 'E'] ++
      bytes ['T', ' ', '/', ' ', 'H', 'T', 'T', 'P', '/', '1', '.', '1', '\n', '\n']) {} ∧
    ∀ q, ¬ HttpSession.Receives ⟨4096, by decide, by decide⟩ ⟨false, 0, []⟩ [bytes ['G', 'E'],
      bytes ['T', ' ', '/', ' ', 'H', 'T', 'T', 'P', '/', '1', '.', '1', '\n', '\n']] q := by
  constructor
  · exact HttpSession.parses_of_check (by decide) (by decide +kernel)
  · rintro q ⟨p, data, hrecv, _⟩
    have hnull : (recvHeader HttpSession.headerParser 4096 17 (Socket.of [bytes ['G', 'E'],
        bytes ['T', ' ', '/', ' ', 'H', 'T', 'T', 'P', '/', '1', '.', '1', '\n', '\n']]) (.new false 0) [] 0).all
          (fun r => r.1.isNone) = true := by
      decide +kernel
    have hlen : (Socket.of [bytes ['G', 'E'],
        bytes ['T', ' ', '/', ' ', 'H', 'T', 'T', 'P', '/', '1', '.', '1', '\n', '\n']]).rest.length + 1 = 17 := rfl
    rw [hlen] at hrecv
    rw [hrecv] at hnull
    cases hnull

end LjrServer.Http
