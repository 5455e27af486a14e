/-
  LjrServer.Http.KeepAlive — requests that follow one another on a connection, as
  `HttpServer::handleClient` receives them.

  The buffer belongs to one `recvRequest`. What a read brings from behind the request is in
  it when the call returns.

  Proved:
  - `requests_in_order`: when no read that brings a header block goes past the end of its
    request, successive calls return the requests with their bodies.
-/

import LjrServer.Http.HeaderReads

namespace LjrServer.Http

open LjrServer.Lib LjrServer.Lib.Scanner

/-! ## Requests on the wire -/

/-- A request as it is sent, with what the call that is to read it finds in memory. The
    body has the length its header says. -/
structure Sent where
  uninit : Uninit
  header : Bytes
  parsed : HttpRequest
  body : Bytes
  parses : HttpSession.Parses uninit header parsed
  length_eq : parsed.headers.getAs CONTENT_LENGTH = body.length

namespace Sent

def wire (m : Sent) : Bytes := m.header ++ m.body

/-- What `recvRequest` is to return. -/
def request (m : Sent) : HttpRequest := HttpSession.withConnection { m.parsed with body := m.body }

/-- No read of a header block ends inside it, for the buffer or for the network; the first
    block begins at `B`. -/
def HeadersUncut (buffSize : BufferSize) (cuts : List Nat) : Nat → List Sent → Prop
  | _, [] => True
  | B, m :: ms =>
    (m.header.length ≤ buffSize.val ∧ ∀ c ∈ cuts, ¬ (B < c ∧ c < B + m.header.length)) ∧
      HeadersUncut buffSize cuts (B + m.wire.length) ms

/-- The read that begins at `B` does not go past the request that begins there, and
    `readFixSize` can return the length still to come. -/
def Arrives (buffSize : BufferSize) (cuts : List Nat) (B : Nat) (m : Sent) : Prop :=
  let arrived := min (endAfter cuts B) (B + buffSize.val)
  let past := B + m.wire.length
  arrived ≤ past ∧ (past = arrived ∨ 0 < toInt32 ((past - arrived : Nat) : Int)) ∧ m.body.length ≤ maxSize

instance (buffSize : BufferSize) (cuts : List Nat) (B : Nat) (m : Sent) : Decidable (Arrives buffSize cuts B m) :=
  inferInstanceAs (Decidable (_ ∧ _ ∧ _))

def AllArrive (buffSize : BufferSize) (cuts : List Nat) : Nat → List Sent → Prop
  | _, [] => True
  | B, m :: ms => Arrives buffSize cuts B m ∧ AllArrive buffSize cuts (B + m.wire.length) ms

theorem header_ne_nil (m : Sent) : m.header ≠ [] := by
  obtain ⟨_, haccepts, _⟩ := m.parses
  exact haccepts.nonempty

theorem parsed_body (m : Sent) : m.parsed.body = [] := by
  obtain ⟨p, haccepts, hparsed⟩ := m.parses
  rw [← hparsed]
  exact accepts_body haccepts

end Sent

namespace HttpSession

/-- Successive calls. -/
def recvRequests (buffSize : BufferSize) : List Uninit → Socket → Option (List (Option HttpRequest) × Socket)
  | [], sock => some ([], sock)
  | u :: us, sock => do
    let (request, sock) ← recvRequest buffSize u sock
    let (requests, sock) ← recvRequests buffSize us sock
    some (request :: requests, sock)

/-- A header block arrives in one read, with the bytes `extra` behind it. -/
theorem recvHeader_block (buffSize : BufferSize) {u : Uninit} {header : Bytes} {parsed : HttpRequest}
    (hparses : Parses u header parsed) (extra : Bytes) (later : List Bytes)
    (hle : (header ++ extra).length ≤ buffSize.val) (fuel : Nat) :
    ∃ p data, recvHeader headerParser buffSize.val (fuel + 1) (Socket.of ((header ++ extra) :: later))
        (.new u.uriRelaxed u.queryStart) u.buffer 0 =
          some (some (p, data, extra.length), Socket.of later) ∧ p.data = parsed ∧ data.take extra.length = extra := by
  obtain ⟨p₁, haccepts, hparsed⟩ := hparses
  have huncut : Uncut u ([] ++ [header]) := uncut_single _ _ (accepts_inside haccepts)
  obtain ⟨p, data, hrecv, hdata, hextra⟩ := request_implements.recvHeader_pieces
    (request_ready_new u.uriRelaxed u.queryStart) haccepts (request_stable haccepts)
    (rfl : ([] : List Bytes).flatten ++ header = header) haccepts.nonempty (fun _ h => by cases h)
    huncut extra hle later u.buffer (Nat.succ_pos fuel)
  exact ⟨p, data, hrecv, hparsed ▸ (Prod.mk.inj hdata).1, hextra⟩

theorem bmod_length {n : Nat} (h : n < 2 ^ 63) : (n : Int).bmod (2 ^ 64) = n := by
  apply Int.bmod_eq_of_le <;> omega

/-- What follows the header block. -/
theorem recvRequest_header {buffSize : BufferSize} {u : Uninit} {sock sock' : Socket} {p : HttpRequestParser} {data : Bytes}
    {offset : Nat} (h : recvHeader headerParser buffSize.val (sock.rest.length + 1) sock (.new u.uriRelaxed u.queryStart)
      u.buffer 0 = some (some (p, data, offset), sock')) :
    recvRequest buffSize u sock =
      if 0 < (p.getContentLength : Int).bmod (2 ^ 64) then
        (recvBody sock' data offset ((p.getContentLength : Int).bmod (2 ^ 64)).toNat).bind fun r =>
          match r.1 with
          | none => some (none, r.2)
          | some body => some (some (withConnection { p.data with body }), r.2)
      else some (some (withConnection p.data), sock') := by
  unfold recvRequest
  rw [h, Option.bind_eq_bind, Option.bind_some]
  dsimp only
  by_cases hlen : 0 < (p.getContentLength : Int).bmod (2 ^ 64)
  · refine (if_pos hlen).trans (Eq.trans ?_ (if_pos hlen).symm)
    cases recvBody sock' data offset ((p.getContentLength : Int).bmod (2 ^ 64)).toNat with
    | none => rfl
    | some r =>
      obtain ⟨body, sock⟩ := r
      cases body with
      | none => rfl
      | some body => rfl
  · rw [if_neg hlen, if_neg hlen]

/-- One call whose first read brings `q`: the header block of `m` and nothing behind `m`. -/
theorem recvRequest_read {buffSize : BufferSize} {m : Sent} {q : Bytes} {ps : List Bytes} {later : Bytes}
    (hqle : q.length ≤ buffSize.val) (hne : ∀ p ∈ ps, p ≠ []) (hwire : (q :: ps).flatten = m.wire ++ later)
    (hheader : m.header.length ≤ q.length) (hq : q.length ≤ m.wire.length)
    (hint : m.wire.length = q.length ∨ 0 < toInt32 ((m.wire.length - q.length : Nat) : Int))
    (hbody : m.body.length ≤ maxSize) :
    recvRequest buffSize m.uninit (Socket.of (q :: ps)) =
      some (some m.request, Socket.of (dropFront (m.wire.length - q.length) ps)) := by
  have hwlen : m.wire.length = m.header.length + m.body.length := List.length_append
  -- the read is the header block and the beginning of the body
  have hsplit : q = m.header ++ m.body.take (q.length - m.header.length) := by
    have h := congrArg (List.take q.length) hwire
    rw [List.flatten_cons, List.take_left, List.take_append_of_le_length hq, Sent.wire, List.take_append,
      List.take_of_length_le hheader] at h
    exact h
  have hextra : (m.body.take (q.length - m.header.length)).length = q.length - m.header.length := by
    rw [List.length_take]
    omega
  have hflat : ps.flatten = m.body.drop (q.length - m.header.length) ++ later := by
    have h := congrArg (List.drop q.length) hwire
    rw [List.flatten_cons, List.drop_left, List.drop_append_of_le_length hq, Sent.wire, List.drop_append,
      List.drop_of_length_le hheader, List.nil_append] at h
    exact h
  obtain ⟨p, data, hrecv, hparsed, hdata⟩ := recvHeader_block buffSize m.parses
    (m.body.take (q.length - m.header.length)) ps (by rw [← hsplit]; exact hqle)
    (Socket.of (q :: ps)).rest.length
  rw [← hsplit, hextra] at hrecv
  rw [hextra] at hdata
  have hsub : m.body.length - (q.length - m.header.length) = m.wire.length - q.length := by omega
  have hrecvBody := recvBody_pending hne hdata hbody (by omega)
    (by rw [hflat, List.length_append, List.length_drop]; omega)
    (by rw [hsub]; exact hint.imp_left fun h => by omega)
  have htake : ps.flatten.take (m.wire.length - q.length) = m.body.drop (q.length - m.header.length) := by
    rw [hflat, ← hsub, List.take_left' (by rw [List.length_drop])]
  rw [hsub, htake, List.take_append_drop] at hrecvBody
  have hlength : p.getContentLength = m.body.length := by rw [HttpRequestParser.getContentLength, hparsed, m.length_eq]
  rw [recvRequest_header hrecv, hlength, bmod_length (Nat.lt_of_le_of_lt hbody maxSize_lt), Int.toNat_natCast]
  by_cases h0 : m.body.length = 0
  · -- no body to read: the parser has left it empty
    have hnil : m.body = [] := List.length_eq_zero_iff.mp h0
    have hps : m.wire.length - q.length = 0 := by omega
    have hneg : ¬ (0 : Int) < (m.body.length : Int) := by omega
    rw [if_neg hneg, hps, dropFront_zero, hparsed, Sent.request, hnil, ← m.parsed_body]
  · have hpos : (0 : Int) < (m.body.length : Int) := by omega
    rw [if_pos hpos, hrecvBody]
    simp only [Option.bind_some, hparsed, Sent.request]

/-- Only the first read tells whether the buffer or the network has cut it. -/
theorem recvRequest_congr {buffSize : BufferSize} (u : Uninit) {sock sock' : Socket} (hrest : sock.rest = sock'.rest)
    (hread : sock.read buffSize.val = sock'.read buffSize.val) :
    recvRequest buffSize u sock = recvRequest buffSize u sock' := by
  have hheader : recvHeader headerParser buffSize.val (sock.rest.length + 1) sock (.new u.uriRelaxed u.queryStart)
        u.buffer 0 =
      recvHeader headerParser buffSize.val (sock'.rest.length + 1) sock' (.new u.uriRelaxed u.queryStart) u.buffer 0 := by
    rw [recvHeader, recvHeader, Nat.sub_zero, hread, hrest]
  rw [recvRequest, recvRequest, hheader]

/-- One call: the read that brings the header block of `m` brings nothing behind `m`. -/
theorem recvRequest_sent {buffSize : BufferSize} {m : Sent} {q : Bytes} {ps : List Bytes} {later : Bytes}
    (hne : ∀ p ∈ q :: ps, p ≠ []) (hwire : (q :: ps).flatten = m.wire ++ later) {n : Nat}
    (hn : n = min q.length buffSize.val) (hheader : m.header.length ≤ n) (hle : n ≤ m.wire.length)
    (hint : m.wire.length = n ∨ 0 < toInt32 ((m.wire.length - n : Nat) : Int)) (hbody : m.body.length ≤ maxSize) :
    recvRequest buffSize m.uninit (Socket.of (q :: ps)) =
      some (some m.request, Socket.of (dropFront m.wire.length (q :: ps))) := by
  have hflat : (q.take n :: dropFront n (q :: ps)).flatten = (q :: ps).flatten := by
    rw [List.flatten_cons, flatten_dropFront n hne, List.flatten_cons, List.drop_append_of_le_length (by omega),
      ← List.append_assoc, List.take_append_drop]
  have hread : (Socket.of (q :: ps)).read buffSize.val =
      (Socket.of (q.take n :: dropFront n (q :: ps))).read buffSize.val := by
    have hpiece : (q.take n).length ≤ buffSize.val := by
      rw [List.length_take]
      omega
    rw [Socket.read_cons hpiece (dropFront n (q :: ps))]
    by_cases hfits : q.length ≤ buffSize.val
    · have hnq : n = q.length := by omega
      rw [Socket.read_cons hfits, hnq, List.take_length, dropFront_of_le (hne q List.mem_cons_self) (Nat.le_refl _),
        Nat.sub_self, dropFront_zero]
    · have hnb : n = buffSize.val := by omega
      rw [hnb, dropFront_of_lt (Nat.lt_of_not_le hfits)]
      simp only [Socket.read, Socket.of, not_true, if_false, if_neg hfits]
  have hlen : (q.take n).length = n := List.length_take_of_le (by omega)
  have hsame : recvRequest buffSize m.uninit (Socket.of (q :: ps)) =
      recvRequest buffSize m.uninit (Socket.of (q.take n :: dropFront n (q :: ps))) :=
    recvRequest_congr m.uninit (by rw [Socket.rest_of, Socket.rest_of, hflat]) hread
  rw [hsame, recvRequest_read (by omega) (dropFront_ne_nil n hne) (hflat.trans hwire) (by omega) (by omega)
      (by rw [hlen]; exact hint) hbody, hlen, ← dropFront_add n _ hne, Nat.add_sub_cancel' hle]

/-! ## Successive calls -/

theorem recvRequests_from {buffSize : BufferSize} {pieces : List Bytes} (hne : ∀ p ∈ pieces, p ≠ []) :
    ∀ (ms : List Sent) (B : Nat), pieces.flatten.drop B = (ms.map Sent.wire).flatten →
      Sent.HeadersUncut buffSize (ends 0 pieces) B ms → Sent.AllArrive buffSize (ends 0 pieces) B ms →
      ∃ sock, recvRequests buffSize (ms.map Sent.uninit) (Socket.of (dropFront B pieces)) =
        some (ms.map fun m => some m.request, sock) := by
  intro ms
  induction ms with
  | nil =>
    intro B _ _ _
    exact ⟨_, rfl⟩
  | cons m ms ih =>
    intro B hwire hheaders harrive
    obtain ⟨⟨hfits, huncut⟩, hheaders⟩ := hheaders
    obtain ⟨⟨hpast, hint, hbody⟩, harrive⟩ := harrive
    rw [List.map_cons, List.flatten_cons] at hwire
    have hflat := flatten_dropFront B hne
    cases hpending : dropFront B pieces with
    | nil =>
      rw [hpending, hwire, List.flatten_nil] at hflat
      exact absurd (List.append_eq_nil_iff.mp (List.append_eq_nil_iff.mp hflat.symm).1).1 m.header_ne_nil
    | cons q ps =>
      have hne' := dropFront_ne_nil B hne
      rw [hpending] at hflat hne'
      obtain ⟨hend, hmem⟩ := endAfter_dropFront hne hpending
      have hq0 : 0 < q.length := List.length_pos_iff.mpr (hne' q List.mem_cons_self)
      have hcut := huncut _ hmem
      rw [hend] at hpast hint
      have hcall := recvRequest_sent (m := m) hne' (hflat.trans hwire) (n := min q.length buffSize.val) rfl (by omega)
        (by omega)
        (by
          rw [show B + m.wire.length - min (B + q.length) (B + buffSize.val) =
            m.wire.length - min q.length buffSize.val by omega] at hint
          exact hint.imp_left fun h => by omega) hbody
      have hrest : pieces.flatten.drop (B + m.wire.length) = (ms.map Sent.wire).flatten := by
        rw [← List.drop_drop, hwire, List.drop_left]
      obtain ⟨sock, hcalls⟩ := ih (B + m.wire.length) hrest hheaders harrive
      rw [dropFront_add B _ hne, hpending] at hcalls
      refine ⟨sock, ?_⟩
      rw [List.map_cons, recvRequests, hcall, Option.bind_eq_bind, Option.bind_some]
      dsimp only
      rw [hcalls]
      rfl

end HttpSession

/-- Requests sent back to back are received in order, each with its body, when every read of
    a header block ends at the end of that request at the latest. -/
theorem requests_in_order (buffSize : BufferSize) (ms : List Sent) {pieces : List Bytes} (hne : ∀ p ∈ pieces, p ≠ [])
    (hwire : pieces.flatten = (ms.map Sent.wire).flatten) (hheaders : Sent.HeadersUncut buffSize (ends 0 pieces) 0 ms)
    (harrive : Sent.AllArrive buffSize (ends 0 pieces) 0 ms) :
    ∃ sock, HttpSession.recvRequests buffSize (ms.map Sent.uninit) (Socket.of pieces) =
      some (ms.map fun m => some m.request, sock) := by
  obtain ⟨sock, hcalls⟩ := HttpSession.recvRequests_from hne ms 0 (by rw [List.drop_zero, hwire]) hheaders harrive
  rw [dropFront_zero] at hcalls
  exact ⟨sock, hcalls⟩

/-- `GET / HTTP/1.1` -/
def getRoot : Bytes := bytes ['G', 'E', 'T', ' ', '/', ' ', 'H', 'T', 'T', 'P', '/', '1', '.', '1', '\n', '\n']

/-- `PUT / HTTP/1.1` with the header of a body of two bytes. -/
def putRoot : Bytes :=
  bytes ['P', 'U', 'T', ' ', '/', ' ', 'H', 'T', 'T', 'P', '/', '1', '.', '1', '\n'] ++ CONTENT_LENGTH ++
    bytes [':', ' ', '2', '\n', '\n']

/-- A request with a body, cut behind its first byte, and the next one in a read of its own. -/
theorem requests_in_order_two : ∃ sock, HttpSession.recvRequests ⟨4096, by decide, by decide⟩
    [⟨false, 0, []⟩, ⟨false, 0, []⟩] (Socket.of [putRoot ++ bytes ['h'], bytes ['i'], getRoot]) =
      some ([some { method := .PUT, body := bytes ['h', 'i'], headers := [(CONTENT_LENGTH, bytes ['2'])] },
        some {}], sock) :=
  requests_in_order ⟨4096, by decide, by decide⟩
    [{ uninit := ⟨false, 0, []⟩, header := putRoot, body := bytes ['h', 'i']
       parsed := { method := .PUT, headers := [(CONTENT_LENGTH, bytes ['2'])] }
       parses := HttpSession.parses_of_check (by decide) (by decide +kernel), length_eq := by decide },
     { uninit := ⟨false, 0, []⟩, header := getRoot, body := [], parsed := {}
       parses := HttpSession.parses_of_check (by decide) (by decide +kernel), length_eq := by decide }]
    (by decide) (by decide) ⟨⟨by decide, by decide⟩, ⟨by decide, by decide⟩, trivial⟩ ⟨by decide, by decide, trivial⟩

/-- Two requests in one read: the second call finds the connection at its end. -/
theorem second_request_lost : HttpSession.Parses ⟨false, 0, []⟩ getRoot {} ∧
    (HttpSession.recvRequests ⟨4096, by decide, by decide⟩ [⟨false, 0, []⟩, ⟨false, 0, []⟩]
      (Socket.of [getRoot ++ getRoot])).map (·.1) = some [some {}, none] :=
  ⟨HttpSession.parses_of_check (by decide) (by decide +kernel), by decide +kernel⟩

end LjrServer.Http
