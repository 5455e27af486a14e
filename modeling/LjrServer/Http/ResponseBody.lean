/-
  LjrServer.Http.ResponseBody — what `recvResponse` makes of the bytes behind a header block
  that arrives in one read.

  Proved:
  - `recvHeader_block`: the block is read, and the bytes behind it are in the buffer.
  - `content_length_body_dropped`: with a `Content-Length` and no chunks, the body is read
    and the response has none.
-/

import LjrServer.Http.ResponseHeader

namespace LjrServer.Http

open LjrServer.Lib LjrServer.Lib.Scanner LjrServer.Http.HttpClient

namespace HttpConnection

/-- The memory that `R ++ extra` is parsed in, when one read brings them. -/
theorem received_memory (buffer R extra : Bytes) :
    let m := splice (splice buffer 0 (R ++ extra)) (R ++ extra).length [0]
    m.take R.length = R ∧ R.length < m.length ∧ slice m R.length extra.length = extra := by
  intro m
  obtain ⟨hmt, hml, _⟩ := splice_nul (length_le_splice buffer 0 (R ++ extra))
  rw [take_splice_start] at hmt
  refine ⟨?_, Nat.lt_of_le_of_lt (by rw [List.length_append]; omega) hml, ?_⟩
  · have h := congrArg (List.take R.length) hmt
    rw [List.take_take, List.length_append, Nat.min_eq_left (by omega), List.take_left] at h
    simp only [m, List.length_append]
    exact h
  · rw [slice, ← List.take_append_drop (R ++ extra).length m, hmt, List.append_assoc, List.drop_left, List.take_left]

/-- The scan of an accepted block, and what its callbacks store. -/
theorem accepts_callbacks {R : Bytes} {p₁ : HttpResponseParser} (h : ScanParser.Accepts headerParser .new R p₁) :
    let r := scan automaton R 0 [main] HttpClientParser.zero
    r.ending = .stopped ∧ r.pos = R.length ∧ responseScan.final r.state = true ∧
      HttpResponseParser.callbacks (R ++ [0]) r.events ({}, 0) = some (p₁.data, 0) ∧
      (false || r.events.any marksChunked) = p₁.parser.chunked := by
  obtain ⟨hstop, hpos, hfinal, hcb, herr⟩ := response_implements.accepts_scan response_ready_new h
  have hstate : responseScan.state .new = [main] := rfl
  have hregs : responseScan.regs .new = HttpClientParser.zero := rfl
  have hautomaton : responseScan.automaton = automaton := rfl
  rw [hstate, hregs, hautomaton] at hstop hpos hfinal hcb
  have hmem : responseScan.memory R R.length = R ++ [0] := by
    show splice R R.length [0] = R ++ [0]
    rw [splice, List.take_length, List.drop_of_length_le (Nat.le_add_right _ _), List.append_nil]
  have hdata₁ : responseScan.data p₁ = ((p₁.data, p₁.error), p₁.parser.chunked) := rfl
  have hdata₀ : responseScan.data .new = (({}, 0), false) := rfl
  rw [hmem, hdata₀, hdata₁, response_callbacks] at hcb
  obtain ⟨r, hr, hr₁⟩ := Option.map_eq_some_iff.mp hcb
  obtain ⟨rfl, hchunked⟩ := Prod.mk.inj hr₁
  have herror : p₁.error = 0 := by simpa [responseScan] using herr
  rw [herror] at hr
  exact ⟨hstop, hpos, hfinal, hr, hchunked⟩

/-- The callbacks read nothing behind the block, except a version's terminator. -/
theorem accepts_callbacks_longer {R m : Bytes} {p₁ : HttpResponseParser}
    (h : ScanParser.Accepts headerParser .new R p₁) (hm : m.take R.length = R) (hlen : R.length < m.length) :
    ∃ q, HttpResponseParser.callbacks m (scan automaton R 0 [main] HttpClientParser.zero).events ({}, 0) = some q ∧
      q.2 = 0 := by
  obtain ⟨_, _, _, hr, _⟩ := accepts_callbacks h
  have hversion : ∀ e ∈ (scan automaton R 0 [main] HttpClientParser.zero).events, e.kind = .httpVersion →
      ∀ a ∈ e.args, a.start + a.length ≤ R.length := by
    intro e he hk a ha
    have hend := scan_upto automaton (fun s b s' es => version_upto) R 0 [main]
      (g := HttpClientParser.zero) (fun _ => Nat.le_refl 0) e he (by rw [hk]; rfl) a ha
    have := (scan_pos_lt automaton R 0 [main] HttpClientParser.zero e he).2
    omega
  obtain ⟨q, hq, hqq⟩ := callbacks_longer hm hlen hversion hr (rfl : (({}, 0) : HttpResponse × Nat).2 = 0)
  exact ⟨q, hq, hqq.symm⟩

/-- A header block arrives in one read, with the bytes `extra` behind it. -/
theorem recvHeader_block {buffSize : BufferSize} {R extra : Bytes} {p₁ : HttpResponseParser}
    (h : ScanParser.Accepts headerParser .new R p₁) (hle : (R ++ extra).length ≤ buffSize.val) (later : List Bytes)
    (buffer : Bytes) (fuel : Nat) :
    ∃ p data, recvHeader headerParser buffSize.val (fuel + 1) (Socket.of ((R ++ extra) :: later)) .new buffer 0 =
        some (some (p, data, extra.length), Socket.of later) ∧
      p.parser.chunked = p₁.parser.chunked ∧ p.data.body = [] ∧ p.error = 0 ∧ data.take extra.length = extra := by
  obtain ⟨hstop, hpos, hfinal, _, hchunked⟩ := accepts_callbacks h
  obtain ⟨hmR, hlen, hslice⟩ := received_memory buffer R extra
  obtain ⟨r', hr', hrr⟩ := accepts_callbacks_longer h hmR hlen
  have hstate : responseScan.state .new = [main] := rfl
  have hregs : responseScan.regs .new = HttpClientParser.zero := rfl
  have hautomaton : responseScan.automaton = automaton := rfl
  have hRne := h.nonempty
  have hRpos : 0 < R.length := List.length_pos_iff.mpr hRne
  have hm : responseScan.memory (splice buffer 0 (R ++ extra)) (R ++ extra).length =
      splice (splice buffer 0 (R ++ extra)) (R ++ extra).length [0] := rfl
  -- the scan stops at the block's end, whatever is behind it
  have happ := scan_append_end automaton extra R 0 [main] HttpClientParser.zero (by rw [hstop]; exact End.noConfusion)
  have hcb' : responseScan.callbacks (responseScan.memory (splice buffer 0 (R ++ extra)) (R ++ extra).length)
      (scan automaton (R ++ extra) 0 [main] HttpClientParser.zero).events (({}, 0), false) =
        some (r', p₁.parser.chunked) := by
    rw [happ, hm, response_callbacks, hr', Option.map_some, hchunked]
  have hread := response_implements.recvHeader_read fuel (R ++ extra) later buffer (q := (r', p₁.parser.chunked))
    response_ready_new (by simp [hRne]) hle (by rw [hstate, hregs, hautomaton, happ, hstop]; exact End.noConfusion)
    (by rw [hstate, hregs, hautomaton, happ, hpos]; exact hRpos) hcb'
    (by simp only [responseScan, ne_eq, decide_not, Bool.not_eq_false', decide_eq_true_eq]; exact hrr)
  simp only [hstate, hregs, hautomaton, happ] at hread
  have hbehind : (R ++ extra).length - R.length = extra.length := by
    rw [List.length_append, Nat.add_sub_cancel_left]
  rw [if_pos hfinal, hpos, hbehind, hm, hslice] at hread
  have hbody : r'.1.body = [] := response_callbacks_body hr'
  exact ⟨_, _, hread, rfl, hbody, hrr, take_splice_start _ _⟩

/-- Behind the header block of a response without chunks, nothing is added to what it says. -/
theorem recvResponse_plain {buffSize : BufferSize} {buffer : Bytes} {sock sock' sock'' : Socket} {p : HttpResponseParser}
    {data : Bytes} {offset : Nat} {r : HttpResponse}
    (h : recvHeader headerParser buffSize.val (sock.rest.length + 1) sock .new buffer 0 =
      some (some (p, data, offset), sock')) (hchunked : p.parser.chunked = false)
    (hr : recvResponse buffSize buffer sock = some (some r, sock'')) : r = p.data := by
  unfold recvResponse at hr
  rw [h, Option.bind_eq_bind, Option.bind_some] at hr
  dsimp only at hr
  rw [hchunked, if_neg Bool.false_ne_true] at hr
  by_cases hlen : 0 < (p.getContentLength : Int).bmod (2 ^ 64)
  · rw [if_pos hlen, Option.bind_eq_bind] at hr
    obtain ⟨⟨body, sock₁⟩, _, hr⟩ := Option.bind_eq_some_iff.mp hr
    cases body with
    | none => cases hr
    | some body =>
      cases hr
      rfl
  · rw [if_neg hlen] at hr
    cases hr
    rfl

end HttpConnection

/-- With a `Content-Length` and no chunks, no response has the body that follows the header
    block: it has none. -/
theorem content_length_body_dropped (buffSize : BufferSize) (buffer : Bytes) {block : Bytes} {p₁ : HttpResponseParser}
    (haccepts : ScanParser.Accepts HttpConnection.headerParser .new block p₁) (hchunked : p₁.parser.chunked = false)
    (hlength : 0 < p₁.getContentLength) {extra : Bytes} {later : List Bytes} (hfits : (block ++ extra).length ≤ buffSize.val)
    (hbody : (extra ++ later.flatten).length = p₁.getContentLength) :
    ¬ ∃ r sock, HttpConnection.recvResponse buffSize buffer (Socket.of ((block ++ extra) :: later)) = some (some r, sock) ∧
      r.body = extra ++ later.flatten := by
  intro ⟨r, sock, hr, hB⟩
  obtain ⟨p, data, hheader, hp, hempty, _, _⟩ := HttpConnection.recvHeader_block haccepts hfits later buffer
    (Socket.of ((block ++ extra) :: later)).rest.length
  have hrp := HttpConnection.recvResponse_plain hheader (hp.trans hchunked) hr
  rw [hrp, hempty] at hB
  rw [← hB, List.length_nil] at hbody
  omega

/-- `HTTP/1.1 200 OK` with the header of a body of two bytes. -/
def okTwoBytes : Bytes :=
  bytes ['H', 'T', 'T', 'P', '/', '1', '.', '1', ' ', '2', '0', '0', ' ', 'O', 'K', '\n'] ++ CONTENT_LENGTH ++
    bytes [':', ' ', '2', '\n', '\n']

theorem content_length_body_dropped_two_bytes : ¬ ∃ r sock,
    HttpConnection.recvResponse ⟨4096, by decide, by decide⟩ [] (Socket.of [okTwoBytes ++ bytes ['h'], bytes ['i']]) =
      some (some r, sock) ∧ r.body = bytes ['h', 'i'] := by
  obtain ⟨p, haccepts, hp⟩ := ScanParser.Accepts.of_check (I := HttpConnection.headerParser) (p := .new) (R := okTwoBytes)
    (by decide) (fun p => !p.parser.chunked && decide (p.getContentLength = 2)) (by decide +kernel)
  simp only [Bool.and_eq_true, Bool.not_eq_true', decide_eq_true_eq] at hp
  exact @content_length_body_dropped ⟨4096, by decide, by decide⟩ [] okTwoBytes p haccepts hp.1 (by rw [hp.2]; decide)
    (bytes ['h']) [bytes ['i']] (by decide) (by rw [hp.2]; decide)

/-- The response that is returned there. -/
theorem content_length_body_missing : (HttpConnection.recvResponse ⟨4096, by decide, by decide⟩ []
    (Socket.of [okTwoBytes ++ bytes ['h'], bytes ['i']])).map (fun r => (r.1.map (·.body), r.2)) =
      some (some [], Socket.of []) := by
  decide +kernel

end LjrServer.Http
