/-
  LjrServer.Http.Exchange — a client and a server on one connection: `HttpConnection`
  (sendRequest, recvResponse) and the turns of `HttpServer::handleClient`.

  A turn of the server and a call of the client happen in any order. A read finds nothing
  when the other side has closed or its own timeout is over; both are a failed call. What
  the servlets make of a request is a parameter.

  Proved:
  - `exchange_sound`: whatever the order, the servlets are given the requests sent, in order
    and once, and a response that a call returns is the one made for its request.
  - `exchange_completes`: between calls, while the server is in its loop, a request is served
    and its call returns.
-/

import LjrServer.Lib.Runs
import LjrServer.Http.DumpReceived
import LjrServer.Http.ResponseReceived

namespace LjrServer.Http

open LjrServer.Lib

structure Exchange where
  /-- What is on its way, in the pieces it is to arrive in. -/
  toServer : List Bytes := []
  toClient : List Bytes := []
  /-- The client's socket is not closed. -/
  client : Bool := true
  /-- The server is in the loop. -/
  server : Bool := true
  /-- The client has sent a request and not called `recvResponse`. -/
  waiting : Bool := false
  sent : List HttpRequest := []
  /-- What the servlets were given. -/
  handled : List HttpRequest := []
  /-- What the calls of `recvResponse` returned. -/
  results : List (Option HttpResponse) := []

namespace Exchange

inductive Act where
  | sendRequest (q : HttpRequest) (pieces : List Bytes)
  | handleClient (u : Uninit) (pieces : List Bytes)
  | recvResponse (buffer : Bytes)

section
variable (buffSize : BufferSize) (isKeepalive : Bool) (handle : HttpRequest → HttpResponse → HttpResponse)

/-- The response to a request: what `m_dispatch->handle` leaves in it. -/
def answer (req : HttpRequest) : HttpResponse :=
  handle req { version := req.version, close := req.close || !isKeepalive }

/-- A step; the pieces are how the network cuts what is sent. -/
def step (s : Exchange) : Act → Option Exchange
  | .sendRequest q pieces =>
    if s.client ∧ ¬ s.waiting ∧ q.dump = some pieces.flatten then
      some { s with toServer := s.toServer ++ pieces, waiting := true, sent := s.sent ++ [q] }
    else none
  | .handleClient u pieces =>
    if ¬ s.server then none
    else
      match HttpSession.recvRequest buffSize u (Socket.of s.toServer) with
      | none => none
      | some (none, sock) => some { s with toServer := sock.pending, server := false }
      | some (some req, sock) =>
        if (answer isKeepalive handle req).dump = pieces.flatten then
          some { s with
            toServer := sock.pending
            toClient := s.toClient ++ pieces
            handled := s.handled ++ [req]
            server := isKeepalive && !req.close }
        else none
  | .recvResponse buffer =>
    if s.client ∧ s.waiting then
      match HttpConnection.recvResponse buffSize buffer (Socket.of s.toClient) with
      | none => none
      | some (rsp, sock) =>
        some { s with
          toClient := sock.pending
          client := sock.connected
          waiting := false
          results := s.results ++ [rsp] }
    else none

end

/-! ## What arrives -/

/-- The first read brings the header block of a request, and the next ones what is left of
    the body. -/
structure RequestArrives (buffSize : BufferSize) (q : HttpRequest) (pieces : List Bytes) : Prop where
  sendable : ∀ uriRelaxed, q.Sendable uriRelaxed
  /-- A "content-length" of the header map is not skipped. -/
  length_ok : q.body = [] → q.headers.getAs CONTENT_LENGTH = 0
  body_le : q.body.length ≤ maxSize
  nonempty : ∀ p ∈ pieces, p ≠ []
  header_read : ∃ header first later, q.dumpHeader = some header ∧ pieces = first :: later ∧
    header.length ≤ first.length ∧ first.length ≤ buffSize.val ∧
    (first.length = pieces.flatten.length ∨ 0 < toInt32 ((pieces.flatten.length - first.length : Nat) : Int))

/-- The reads cut no token of the header block of a response. -/
structure ResponseArrives (buffSize : BufferSize) (r : HttpResponse) (pieces : List Bytes) : Prop where
  sendable : r.Sendable
  header_lt : r.dumpHeader.length < 2 ^ 31
  body_le : r.body.length ≤ maxSize
  reads : Reads buffSize pieces
  header_read : ∃ front tail extra later, pieces = front ++ (tail ++ extra) :: later ∧
    front.flatten ++ tail = r.dumpHeader ∧ tail ≠ [] ∧ (front = [] ∨ HttpConnection.Uncut (front ++ [tail])) ∧
    (r.body.length = extra.length ∨ 0 < toInt32 ((r.body.length - extra.length : Nat) : Int))

/-- What is sent arrives so. -/
def Arriving (buffSize : BufferSize) (isKeepalive : Bool) (handle : HttpRequest → HttpResponse → HttpResponse)
    (s : Exchange) : Act → Prop
  | .sendRequest q pieces => RequestArrives buffSize q pieces
  | .handleClient u pieces => ∀ req sock, HttpSession.recvRequest buffSize u (Socket.of s.toServer) = some (some req, sock) →
      ResponseArrives buffSize (answer isKeepalive handle req) pieces
  | .recvResponse _ => True

section
variable {buffSize : BufferSize} {q : HttpRequest} {r : HttpResponse} {pieces : List Bytes}

theorem RequestArrives.recv (h : RequestArrives buffSize q pieces) (hdump : q.dump = some pieces.flatten) (u : Uninit) :
    ∃ req, HttpSession.recvRequest buffSize u (Socket.of pieces) = some (some req, Socket.of []) ∧ req.SameMessage q := by
  obtain ⟨header, first, later, hheader, rfl, hle, hfits, hint⟩ := h.header_read
  have hbody := h.body_le
  have hmax := maxSize_lt
  have hwire : (first :: later).flatten = header ++ q.body := by
    rw [HttpRequest.dump, hheader, Option.map_some] at hdump
    exact (Option.some.inj hdump).symm
  have hlength : q.described.headers.getAs CONTENT_LENGTH = q.body.length := by
    rw [described_length (h.sendable u.uriRelaxed)]
    split
    · rename_i hnil
      rw [h.length_ok hnil, hnil]
      rfl
    · rw [lexicalCast_decimal (by omega)]
      rfl
  have hlt := buffSize.lt
  let m : Sent := ⟨u, header, q.described, q.body, parses_dump (h.sendable u.uriRelaxed) hheader (by omega), hlength⟩
  have hm : m.wire = (first :: later).flatten := hwire.symm
  have hnonempty : ∀ p ∈ later, p ≠ [] := fun p hp => h.nonempty p (List.mem_cons_of_mem _ hp)
  have hfirst : (first :: later).flatten.length = first.length + later.flatten.length := by
    rw [List.flatten_cons, List.length_append]
  have hwire' : (first :: later).flatten = m.wire ++ [] := by rw [hm, List.append_nil]
  have hread := HttpSession.recvRequest_read (m := m) hfits hnonempty hwire' hle
    (by rw [hm]; omega) (by rw [hm]; exact hint.imp_left Eq.symm) hbody
  rw [hm, dropFront_all hnonempty (by omega)] at hread
  exact ⟨_, hread, described_sameMessage (h.sendable u.uriRelaxed)⟩

theorem ResponseArrives.recv (h : ResponseArrives buffSize r pieces) (hdump : r.dump = pieces.flatten) (buffer : Bytes) :
    HttpConnection.recvResponse buffSize buffer (Socket.of pieces) = some (some r.described, Socket.of []) := by
  obtain ⟨front, tail, extra, later, rfl, hheader, htail, huncut, hleft⟩ := h.header_read
  have hbytes : extra ++ later.flatten = r.body ++ [] := by
    rw [HttpResponse.dump, ← hheader, List.flatten_append, List.flatten_cons] at hdump
    simp only [List.append_assoc] at hdump
    rw [List.append_nil]
    exact (List.append_cancel_left (List.append_cancel_left hdump)).symm
  have hlength := congrArg List.length hbytes
  rw [List.length_append, List.append_nil] at hlength
  have hlater : ∀ p ∈ later, p ≠ [] := fun p hp =>
    (h.reads p (List.mem_append_right _ (List.mem_cons_of_mem _ hp))).1
  rw [HttpConnection.recvResponse_dump buffSize buffer h.sendable hheader htail huncut h.reads hbytes (by omega) hleft
    h.header_lt h.body_le, dropFront_all hlater (by omega)]

/-- Where nothing has arrived the call fails. -/
theorem recvRequest_nothing (u : Uninit) :
    HttpSession.recvRequest buffSize u (Socket.of []) = some (none, (Socket.of []).close) := rfl

theorem recvResponse_nothing (buffer : Bytes) :
    HttpConnection.recvResponse buffSize buffer (Socket.of []) = some (none, (Socket.of []).close) := rfl

end

/-! ## Runs -/

section
variable {buffSize : BufferSize} {isKeepalive : Bool} {handle : HttpRequest → HttpResponse → HttpResponse}
  {pieces : List Bytes}

/-- The servlets are one request behind at most, the client's calls one response. -/
structure Inv (buffSize : BufferSize) (isKeepalive : Bool) (handle : HttpRequest → HttpResponse → HttpResponse)
    (s : Exchange) : Prop where
  same : List.Forall₂ HttpRequest.SameMessage s.handled (s.sent.take s.handled.length)
  handled_le : s.handled.length ≤ s.sent.length
  answered : ∀ (k : Nat) r, s.results[k]? = some (some r) →
    ∃ req, s.handled[k]? = some req ∧ r.SameHead (answer isKeepalive handle req)
  toServer : s.server = true → s.toServer = [] ∧ s.handled.length = s.sent.length ∨
    ∃ q, s.sent[s.handled.length]? = some q ∧ s.sent.length = s.handled.length + 1 ∧ q.dump = some s.toServer.flatten ∧
      RequestArrives buffSize q s.toServer
  toClient : s.client = true → s.toClient = [] ∧ s.results.length = s.handled.length ∨
    ∃ req, s.handled[s.results.length]? = some req ∧ s.handled.length = s.results.length + 1 ∧
      (answer isKeepalive handle req).dump = s.toClient.flatten ∧
      ResponseArrives buffSize (answer isKeepalive handle req) s.toClient
  turn : s.client = true → s.sent.length = s.results.length + if s.waiting then 1 else 0

/-- Between calls everything sent has been received. -/
theorem Inv.idle {s : Exchange} (h : Inv buffSize isKeepalive handle s) (hclient : s.client = true)
    (hwaiting : s.waiting = false) : s.toClient = [] ∧ s.results.length = s.handled.length ∧
      s.handled.length = s.sent.length := by
  have hturn := h.turn hclient
  rw [hwaiting, if_neg Bool.false_ne_true] at hturn
  have hle := h.handled_le
  rcases h.toClient hclient with ⟨hnil, hlength⟩ | ⟨_, _, hlength, _⟩
  · exact ⟨hnil, hlength, by omega⟩
  · omega

theorem Inv.sendRequest {s s' : Exchange} {q : HttpRequest} (h : Inv buffSize isKeepalive handle s)
    (hc : RequestArrives buffSize q pieces) (hs : step buffSize isKeepalive handle s (.sendRequest q pieces) = some s') :
    Inv buffSize isKeepalive handle s' := by
  rw [step] at hs
  split at hs
  · rename_i hguard
    obtain ⟨hclient, hwaiting, hdump⟩ := hguard
    cases hs
    obtain ⟨hnil, hresults, hhandled⟩ := h.idle hclient (Bool.eq_false_iff.mpr hwaiting)
    have hturn := h.turn hclient
    rw [if_neg hwaiting] at hturn
    refine ⟨?_, ?_, h.answered, fun hserver => .inr ?_, fun _ => .inl ⟨hnil, hresults⟩, fun _ => ?_⟩
    · dsimp only
      rw [List.take_append_of_le_length h.handled_le]
      exact h.same
    · rw [List.length_append]
      exact Nat.le_add_right_of_le h.handled_le
    · rcases h.toServer hserver with ⟨hempty, _⟩ | ⟨_, _, hlength, _⟩
      · rw [hempty]
        refine ⟨q, ?_, ?_, hdump, hc⟩
        · rw [hhandled]
          exact List.getElem?_concat_length
        · rw [List.length_append, hhandled]
          rfl
      · omega
    · rw [List.length_append, hturn]
      rfl
  · cases hs

theorem Inv.handleClient {s s' : Exchange} {u : Uninit} (h : Inv buffSize isKeepalive handle s)
    (hc : Arriving buffSize isKeepalive handle s (.handleClient u pieces))
    (hs : step buffSize isKeepalive handle s (.handleClient u pieces) = some s') : Inv buffSize isKeepalive handle s' := by
  rw [step] at hs
  split at hs
  · cases hs
  · rename_i hguard
    have hserver : s.server = true := by simpa using hguard
    rcases h.toServer hserver with ⟨hnil, hlength⟩ | ⟨q, hq, hlength, hdump, harrives⟩
    · -- the read finds nothing: the loop ends
      rw [hnil, recvRequest_nothing] at hs
      cases hs
      exact ⟨h.same, h.handled_le, h.answered, nofun, h.toClient, h.turn⟩
    · obtain ⟨req, hrecv, hsame⟩ := harrives.recv hdump u
      have hresponse := hc req _ hrecv
      rw [hrecv] at hs
      dsimp only at hs
      split at hs
      · rename_i hdump'
        cases hs
        refine ⟨?_, ?_, fun k r hr => ?_, fun _ => .inl ⟨rfl, ?_⟩, fun hclient => .inr ?_, h.turn⟩
        · obtain ⟨hlt, hget⟩ := List.getElem?_eq_some_iff.mp hq
          dsimp only
          rw [List.length_append, List.length_singleton, List.take_succ_eq_append_getElem hlt, hget]
          exact List.rel_append h.same (.cons hsame .nil)
        · rw [List.length_append, List.length_singleton]
          exact Nat.le_of_eq hlength.symm
        · obtain ⟨req', hreq', hhead⟩ := h.answered k r hr
          exact ⟨req', (List.getElem?_append_left (List.getElem?_eq_some_iff.mp hreq').1).trans hreq', hhead⟩
        · rw [List.length_append, List.length_singleton, hlength]
        · -- the client waits for this response, so the one before has been received
          have hturn := h.turn hclient
          rcases h.toClient hclient with ⟨hempty, hresults⟩ | ⟨_, _, hresults, _⟩
          · rw [hempty]
            refine ⟨req, ?_, ?_, hdump', hresponse⟩
            · rw [hresults]
              exact List.getElem?_concat_length
            · rw [List.length_append, hresults]
              rfl
          · split at hturn
            · omega
            · omega
      · cases hs

/-- One more call has returned. -/
theorem answered_concat {P : Nat → HttpResponse → Prop} {results : List (Option HttpResponse)} {rsp : Option HttpResponse}
    (h : ∀ (k : Nat) r, results[k]? = some (some r) → P k r) (hrsp : ∀ r, rsp = some r → P results.length r) :
    ∀ (k : Nat) r, (results ++ [rsp])[k]? = some (some r) → P k r := by
  intro k r hr
  rw [List.getElem?_append] at hr
  split at hr
  · exact h k r hr
  · obtain ⟨hk, hr⟩ := List.getElem?_eq_some_iff.mp hr
    rw [List.length_singleton] at hk
    obtain rfl : k = results.length := by omega
    exact hrsp r (by simpa using hr)

theorem Inv.recvResponse {s s' : Exchange} {buffer : Bytes} (h : Inv buffSize isKeepalive handle s)
    (hs : step buffSize isKeepalive handle s (.recvResponse buffer) = some s') : Inv buffSize isKeepalive handle s' := by
  rw [step] at hs
  split at hs
  · rename_i hguard
    obtain ⟨hclient, hwaiting⟩ := hguard
    have hturn := h.turn hclient
    rw [if_pos hwaiting] at hturn
    rcases h.toClient hclient with ⟨hnil, hresults⟩ | ⟨req, hreq, hlength, hdump, harrives⟩
    · rw [hnil, recvResponse_nothing] at hs
      cases hs
      exact ⟨h.same, h.handled_le, answered_concat h.answered nofun, h.toServer, nofun, nofun⟩
    · rw [harrives.recv hdump buffer] at hs
      cases hs
      refine ⟨h.same, h.handled_le, answered_concat h.answered fun r hr => ?_, h.toServer, fun _ => .inl ⟨rfl, ?_⟩,
        fun _ => ?_⟩
      · cases hr
        exact ⟨req, hreq, HttpResponse.described_sameHead harrives.sendable⟩
      · rw [List.length_append, hlength]
        rfl
      · rw [List.length_append, hturn]
        rfl
  · cases hs

theorem Inv.step {s s' : Exchange} {a : Act} (h : Inv buffSize isKeepalive handle s)
    (hc : Arriving buffSize isKeepalive handle s a) (hs : Exchange.step buffSize isKeepalive handle s a = some s') :
    Inv buffSize isKeepalive handle s' := by
  cases a with
  | sendRequest q pieces => exact h.sendRequest hc hs
  | handleClient u pieces => exact h.handleClient hc hs
  | recvResponse buffer => exact h.recvResponse hs

theorem inv_run {τ : History Exchange Act} {s : Exchange} (hr : Run (step buffSize isKeepalive handle) {} τ s)
    (hc : Meets (Arriving buffSize isKeepalive handle) τ) : Inv buffSize isKeepalive handle s := by
  have hfirst : Inv buffSize isKeepalive handle {} :=
    ⟨.nil, Nat.le_refl _, by simp, fun _ => .inl ⟨rfl, rfl⟩, fun _ => .inl ⟨rfl, rfl⟩, fun _ => rfl⟩
  exact hr.invariant hfirst (fun _ _ _ h hc hs => h.step hc hs) hc

end

/-- The three steps of one exchange. -/
theorem exchanged {buffSize : BufferSize} (isKeepalive : Bool) (handle : HttpRequest → HttpResponse → HttpResponse)
    {s : Exchange} {q : HttpRequest} {pieces : List Bytes} (htoServer : s.toServer = []) (htoClient : s.toClient = [])
    (hclient : s.client = true) (hserver : s.server = true) (hwaiting : s.waiting = false)
    (hdump : q.dump = some pieces.flatten) (harrives : RequestArrives buffSize q pieces) (u : Uninit) (buffer : Bytes) :
    ∃ req, req.SameMessage q ∧ ∀ pieces', (answer isKeepalive handle req).dump = pieces'.flatten →
      ResponseArrives buffSize (answer isKeepalive handle req) pieces' →
      ∃ τ s', Run (step buffSize isKeepalive handle) s τ s' ∧ Meets (Arriving buffSize isKeepalive handle) τ ∧
        τ.reverse.map Prod.snd = [.sendRequest q pieces, .handleClient u pieces', .recvResponse buffer] ∧
        s' = { s with
          server := isKeepalive && !q.close
          sent := s.sent ++ [q]
          handled := s.handled ++ [req]
          results := s.results ++ [some (answer isKeepalive handle req).described] } := by
  obtain ⟨req, hrecv, hsame⟩ := harrives.recv hdump u
  refine ⟨req, hsame, fun pieces' hdump' harrives' => ?_⟩
  obtain ⟨toServer, toClient, client, server, waiting, sent, handled, results⟩ := s
  dsimp only at htoServer htoClient hclient hserver hwaiting
  subst htoServer htoClient hclient hserver hwaiting
  have hsend : step buffSize isKeepalive handle ⟨[], [], true, true, false, sent, handled, results⟩ (.sendRequest q pieces) =
      some ⟨pieces, [], true, true, true, sent ++ [q], handled, results⟩ := by
    rw [step, if_pos ⟨rfl, Bool.false_ne_true, hdump⟩]
    rfl
  have hhandle : step buffSize isKeepalive handle ⟨pieces, [], true, true, true, sent ++ [q], handled, results⟩
      (.handleClient u pieces') =
        some ⟨[], pieces', true, isKeepalive && !q.close, true, sent ++ [q], handled ++ [req], results⟩ := by
    rw [step, if_neg (not_not.mpr rfl), hrecv]
    dsimp only
    rw [if_pos hdump', hsame.close]
    rfl
  have hreceive : step buffSize isKeepalive handle
      ⟨[], pieces', true, isKeepalive && !q.close, true, sent ++ [q], handled ++ [req], results⟩ (.recvResponse buffer) =
        some ⟨[], [], true, isKeepalive && !q.close, false, sent ++ [q], handled ++ [req],
          results ++ [some (answer isKeepalive handle req).described]⟩ := by
    rw [step, if_pos ⟨rfl, rfl⟩, harrives'.recv hdump' buffer]
    rfl
  refine ⟨_, _, .step (.step (.step .nil hsend) hhandle) hreceive, ?_, rfl, rfl⟩
  refine Run.meets_cons.mpr ⟨trivial, Run.meets_cons.mpr ⟨fun req' sock hrecv' => ?_, Run.meets_cons.mpr ⟨harrives, ?_⟩⟩⟩
  · obtain ⟨hreq, -⟩ := Prod.mk.inj (Option.some.inj (hrecv.symm.trans hrecv'))
    rw [← Option.some.inj hreq]
    exact harrives'
  · exact List.forall_mem_nil _

/-- In whatever order the two sides take their steps: the servlets are given the requests
    that were sent, in order, none twice and none left out, and a response that a call
    returned is the one made for the request it was called for. -/
theorem exchange_sound (buffSize : BufferSize) (isKeepalive : Bool) (handle : HttpRequest → HttpResponse → HttpResponse)
    {τ : History Exchange Act} {s : Exchange} (hr : Run (step buffSize isKeepalive handle) {} τ s)
    (hc : Meets (Arriving buffSize isKeepalive handle) τ) :
    List.Forall₂ HttpRequest.SameMessage s.handled (s.sent.take s.handled.length) ∧
      ∀ (k : Nat) r, s.results[k]? = some (some r) → ∃ q req, s.sent[k]? = some q ∧ s.handled[k]? = some req ∧
        req.SameMessage q ∧ r.SameHead (answer isKeepalive handle req) := by
  have hinv := inv_run hr hc
  refine ⟨hinv.same, fun k r hk => ?_⟩
  obtain ⟨req, hreq, hhead⟩ := hinv.answered k r hk
  obtain ⟨hlt, hget⟩ := List.getElem?_eq_some_iff.mp hreq
  have hlt' : k < s.sent.length := Nat.lt_of_lt_of_le hlt hinv.handled_le
  refine ⟨s.sent[k], req, List.getElem?_eq_getElem hlt', hreq, ?_, hhead⟩
  have hsame := hinv.same.get hlt (by rw [List.length_take]; omega)
  simpa [hget] using hsame

/-- Between calls, while the server is in its loop, the next request is served and its call
    returns the response; the server stays in its loop unless it or the request closes. -/
theorem exchange_completes (buffSize : BufferSize) (isKeepalive : Bool)
    (handle : HttpRequest → HttpResponse → HttpResponse) {τ : History Exchange Act} {s : Exchange}
    (hr : Run (step buffSize isKeepalive handle) {} τ s) (hc : Meets (Arriving buffSize isKeepalive handle) τ)
    (hclient : s.client = true) (hserver : s.server = true) (hwaiting : s.waiting = false) {q : HttpRequest}
    {pieces : List Bytes} (hdump : q.dump = some pieces.flatten) (harrives : RequestArrives buffSize q pieces) (u : Uninit)
    (buffer : Bytes) :
    ∃ req, req.SameMessage q ∧ ∀ pieces', (answer isKeepalive handle req).dump = pieces'.flatten →
      ResponseArrives buffSize (answer isKeepalive handle req) pieces' →
      ∃ τ' s' r, Run (step buffSize isKeepalive handle) {} (τ' ++ τ) s' ∧
        Meets (Arriving buffSize isKeepalive handle) (τ' ++ τ) ∧
        τ'.reverse.map Prod.snd = [.sendRequest q pieces, .handleClient u pieces', .recvResponse buffer] ∧
        s'.handled = s.handled ++ [req] ∧ s'.results = s.results ++ [some r] ∧
        r.SameHead (answer isKeepalive handle req) ∧ s'.client = true ∧ s'.waiting = false ∧
        s'.server = (isKeepalive && !q.close) := by
  have hinv := inv_run hr hc
  obtain ⟨htoClient, _, hlength⟩ := hinv.idle hclient hwaiting
  have htoServer : s.toServer = [] := by
    rcases hinv.toServer hserver with ⟨hnil, _⟩ | ⟨_, _, hlate, _⟩
    · exact hnil
    · omega
  obtain ⟨req, hsame, hexchanged⟩ := exchanged isKeepalive handle htoServer htoClient hclient hserver hwaiting hdump harrives
    u buffer
  refine ⟨req, hsame, fun pieces' hdump' harrives' => ?_⟩
  obtain ⟨τ', s', hr', hc', hacts, rfl⟩ := hexchanged pieces' hdump' harrives'
  refine ⟨τ', _, _, hr.append hr', fun p hp => ?_, hacts, rfl, rfl,
    HttpResponse.described_sameHead harrives'.sendable, hclient, hwaiting, rfl⟩
  rcases List.mem_append.mp hp with hp | hp
  · exact hc' p hp
  · exact hc p hp

/-! ## One exchange -/

theorem putRequest_arrives :
    RequestArrives ⟨4096, by decide, by decide⟩ putRequest [(putRequest.dump).getD []] where
  sendable uriRelaxed := by
    cases uriRelaxed with
    | false => exact putRequest_sendable
    | true =>
      exact ⟨⟨_, rfl, by decide +kernel⟩, .inr rfl, rfl, by decide +kernel, by decide +kernel, by decide +kernel, by decide,
        by decide +kernel⟩
  length_ok h := absurd h (by decide)
  body_le := by decide
  nonempty := by decide
  header_read := ⟨_, _, _, rfl, rfl, by decide, by decide, .inl (by decide)⟩

theorem notFound_arrives : ResponseArrives ⟨4096, by decide, by decide⟩ notFound [notFound.dump] where
  sendable := notFound_sendable
  header_lt := by decide
  body_le := by decide
  reads := by decide
  header_read := ⟨[], notFound.dumpHeader, notFound.body, [], rfl, rfl, by decide, .inl rfl, .inl rfl⟩

/-- The answer is the same for every request. -/
theorem exchange_sound_put : ∃ τ s, Run (step ⟨4096, by decide, by decide⟩ true fun _ _ => notFound) {} τ s ∧
    s.sent = [putRequest] ∧ s.results.length = 1 ∧
    List.Forall₂ HttpRequest.SameMessage s.handled (s.sent.take s.handled.length) ∧
      ∀ (k : Nat) r, s.results[k]? = some (some r) → ∃ q req, s.sent[k]? = some q ∧ s.handled[k]? = some req ∧
        req.SameMessage q ∧ r.SameHead (answer true (fun _ _ => notFound) req) := by
  obtain ⟨req, _, hexchanged⟩ := exchanged (s := {}) true (fun _ _ => notFound) rfl rfl rfl rfl rfl
    (by decide : putRequest.dump = some [(putRequest.dump).getD []].flatten) putRequest_arrives ⟨false, 0, []⟩ []
  obtain ⟨τ, s, hr, hc, _, hs⟩ := hexchanged [notFound.dump] (List.append_nil _).symm notFound_arrives
  exact ⟨τ, s, hr, by rw [hs]; rfl, by rw [hs]; rfl,
    exchange_sound ⟨4096, by decide, by decide⟩ true (fun _ _ => notFound) hr hc⟩

theorem exchange_completes_put : ∃ req, req.SameMessage putRequest ∧
    ∃ τ s r, Run (step ⟨4096, by decide, by decide⟩ true fun _ _ => notFound) {} τ s ∧ s.handled = [req] ∧
      s.results = [some r] ∧ r.SameHead notFound ∧ s.server = true := by
  obtain ⟨req, hsame, hcompletes⟩ := exchange_completes ⟨4096, by decide, by decide⟩ true (fun _ _ => notFound) .nil
    (fun _ h => absurd h List.not_mem_nil) rfl rfl rfl
    (by decide : putRequest.dump = some [(putRequest.dump).getD []].flatten) putRequest_arrives ⟨false, 0, []⟩ []
  obtain ⟨τ, s, r, hr, _, _, hhandled, hresults, hhead, _, _, hserver⟩ :=
    hcompletes [notFound.dump] (List.append_nil _).symm notFound_arrives
  exact ⟨req, hsame, τ ++ [], s, r, hr, hhandled, hresults, hhead, hserver⟩

end Exchange

end LjrServer.Http
