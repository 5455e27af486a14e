/-
  LjrServer.Http.ResponseReceived — a response that is dumped and received.

  `dump` skips the "connection" line of the header map and writes one of its own behind the
  map's lines. The body is read to its end and not kept.

  Proved:
  - `scan_dump`: what a call of the parser makes of the header block that `dump` writes.
  - `response_received`: the response comes back as it was, but for the body, and what is behind
    it is still on the wire.
-/

import LjrServer.Http.KeepAlive
import LjrServer.Http.StatusLine

namespace LjrServer.Http

open LjrServer.Lib LjrServer.Lib.Scanner LjrServer.Lib.Ragel LjrServer.Http.HttpClient

/-- What a response has to be for its text to be one of the grammar, with a body of the
    length the header says. -/
structure HttpResponse.Sendable (q : HttpResponse) : Prop where
  version_ok : q.version = 0x11 ∨ q.version = 0x10
  /-- `HttpStatus` is an `int`. -/
  status_ok : -2 ^ 31 ≤ q.status ∧ q.status < 2 ^ 31
  reason_ok : ∀ b ∈ q.reason, b ≠ 13 ∧ b ≠ 10
  headers_sorted : q.headers.Pairwise fun x y => caseInsensitiveLess x.1 y.1 = true
  headers_ok : ∀ x ∈ q.headers, IsName x.1 ∧ IsValue x.2
  /-- A "content-length" of the header map is not skipped. -/
  length_ok : q.body ≠ [] ∨ (q.headers.getAs CONTENT_LENGTH : Int).bmod (2 ^ 64) ≤ 0

namespace HttpResponse

/-- The response the header block describes. -/
def described (q : HttpResponse) : HttpResponse :=
  { status := q.status, version := q.version, reason := q.reasonText, headers := (q.dumped ++ q.ownFields).puts [] }

/-- The same message, but for the "content-length" header and the body. -/
structure SameHead (a b : HttpResponse) : Prop where
  status : a.status = b.status
  version : a.version = b.version
  reason : a.reason = b.reasonText
  connection : a.headers.get CONNECTION = some b.connectionValue
  headers : ∀ key, strcasecmpEq key CONNECTION = false → strcasecmpEq key CONTENT_LENGTH = false →
    a.headers.get key = b.headers.get key

end HttpResponse

/-! ## The header block -/

theorem isName_own : IsName CONNECTION ∧ IsName CONTENT_LENGTH := by
  decide

theorem isValue_decimal (n : Nat) : IsValue (decimal n) := by
  have hdigit : ∀ b ∈ decimal n, 48 ≤ b.toNat ∧ b.toNat ≤ 57 := fun b => decimal_printable
  refine ⟨fun b hb => ⟨?_, ?_⟩, ?_⟩
  · rintro rfl
    exact absurd (hdigit 13 hb) (by decide)
  · rintro rfl
    exact absurd (hdigit 10 hb) (by decide)
  · cases hn : decimal n with
    | nil => rfl
    | cons b x =>
      obtain ⟨hlow, _⟩ := hdigit b (by rw [hn]; exact List.mem_cons_self)
      rw [List.head?_cons, Option.all_some, Bool.not_eq_true', Bool.eq_false_iff]
      intro hspace
      simp only [spaceSet, CharSet.mem, CharSet.within, Bool.or_false, Bool.not_false, Bool.and_true, Bool.and_eq_true,
        Bool.or_eq_true, Nat.ble_eq] at hspace
      omega

theorem connectionValue_isValue (q : HttpResponse) : IsValue q.connectionValue := by
  have hown : IsValue CLOSE ∧ IsValue KEEP_ALIVE := by decide
  unfold HttpResponse.connectionValue
  cases q.close
  · exact hown.2
  · exact hown.1

namespace HttpResponse

theorem statusCode_int {n : Int} (h : -2 ^ 31 ≤ n ∧ n < 2 ^ 31) : toInt32 ((n % 2 ^ 32).toNat : Int) = n := by
  have hpos : 0 ≤ n % 2 ^ 32 := Int.emod_nonneg _ (by decide)
  have hmod : n % 2 ^ 32 = n % ((2 ^ 32 : Nat) : Int) := rfl
  rw [Int.toNat_of_nonneg hpos, toInt32, hmod, Int.emod_bmod]
  apply Int.bmod_eq_of_le <;> omega

theorem puts_append (a b m : MapType) : (a ++ b).puts m = b.puts (a.puts m) := List.foldl_append

section
variable {q : HttpResponse} (hq : q.Sendable)
include hq

theorem versionText_ok : ∃ v, HTTP_ ++ (decimal (q.version.toNat >>> 4) ++ 46 :: decimal (q.version &&& 0x0F).toNat) = v ∧
    ((v = HTTP_1_1 ∧ q.version = 0x11) ∨ (v = HTTP_1_0 ∧ q.version = 0x10)) := by
  rcases hq.version_ok with h | h
  · refine ⟨HTTP_1_1, ?_, .inl ⟨rfl, h⟩⟩
    rw [h]
    decide
  · refine ⟨HTTP_1_0, ?_, .inr ⟨rfl, h⟩⟩
    rw [h]
    decide

theorem lines_ok : ∀ x ∈ q.dumped ++ q.ownFields, IsName x.1 ∧ IsValue x.2 := by
  intro x hx
  rcases List.mem_append.mp hx with hx | hx
  · exact hq.headers_ok x (List.mem_filter.mp hx).1
  · unfold ownFields at hx
    rcases List.mem_cons.mp hx with rfl | hx
    · exact ⟨isName_own.1, connectionValue_isValue q⟩
    · split at hx
      · cases hx
      · rw [List.mem_singleton.mp hx]
        exact ⟨isName_own.2, isValue_decimal _⟩

omit hq in
theorem connectionValue_ne_nil (q : HttpResponse) : q.connectionValue ≠ [] := by
  unfold HttpResponse.connectionValue
  cases q.close <;> exact List.cons_ne_nil _ _

omit hq in
/-- The last line is one of the dump's own, which says something. -/
theorem lastLine_ne_nil : ∀ x ∈ (q.dumped ++ q.ownFields).getLast?, x.2 ≠ [] := by
  intro x hx
  have hmem : x ∈ q.ownFields := by
    rw [List.getLast?_append_of_ne_nil _ (by unfold ownFields; exact List.cons_ne_nil _ _)] at hx
    exact List.mem_of_getLast? hx
  unfold ownFields at hmem
  rcases List.mem_cons.mp hmem with rfl | hmem
  · exact connectionValue_ne_nil q
  · split at hmem
    · cases hmem
    · rw [List.mem_singleton.mp hmem]
      exact decimal_ne_nil _

/-- The parser reads the header block to its end, whatever is behind it. -/
theorem scan_dump (h64 : q.dumpHeader.length < 2 ^ 64) :
    ∃ s g es, scan HttpClient.automaton q.dumpHeader 0 [main] HttpClientParser.zero =
        ⟨s, g, q.dumpHeader.length, .stopped, es⟩ ∧ isFirstFinal s = true ∧
      ∀ r, responseScan.callbacks (q.dumpHeader ++ r) es (({}, 0), false) = some ((q.described, 0), false) := by
  obtain ⟨v, hv, hversion⟩ := versionText_ok hq
  obtain ⟨hne, hreason⟩ := reasonText_ok hq.reason_ok
  have htext : q.statusText = v ++ 32 :: (decimal q.statusCode ++ 32 :: (q.reasonText ++ [13, 10])) := by
    rw [statusText, hv]
  have hcode : q.statusCode < 2 ^ 32 := by
    unfold statusCode
    omega
  have hlens : q.reasonText.length < 2 ^ 64 ∧ ((q.dumped ++ q.ownFields).flatMap fieldText).length < 2 ^ 64 := by
    rw [dumpHeader, htext] at h64
    simp only [List.length_append, List.length_cons] at h64 ⊢
    omega
  have hall : ∀ r, ∃ s g es, scan HttpClient.automaton q.dumpHeader 0 [main] HttpClientParser.zero =
        ⟨s, g, q.dumpHeader.length, .stopped, es⟩ ∧ isFirstFinal s = true ∧
      responseScan.callbacks (q.dumpHeader ++ r) es (({}, 0), false) = some ((q.described, 0), false) := by
    intro r
    obtain ⟨g₁, h₁⟩ := takes_statusLine (R := q.dumpHeader ++ r) (g := HttpClientParser.zero) (d := (({}, 0), false)) hversion
      hcode (statusCode_int hq.status_ok) hne hreason hlens.1
      (r := (q.dumped ++ q.ownFields).flatMap fieldText ++ [13, 10] ++ r) (by rw [dumpHeader, htext]; simp)
    rw [← htext] at h₁
    obtain ⟨s₂, g₂, hs₂, hplain, h₂⟩ := takes_lines (R := q.dumpHeader ++ r) (w := q.statusText) (g := g₁)
      (d := (({ version := q.version, status := q.status, reason := q.reasonText }, 0), false)) at_start (lines_ok hq)
      (r := [13, 10] ++ r) (by rw [dumpHeader]; simp) hlens.2
    obtain ⟨s₃, g₃, es, hscan, hfinal, hdata⟩ := scan_lines (h₁.append h₂) hs₂
      (hplain (fun _ => atStart_start) lastLine_ne_nil)
    exact ⟨s₃, g₃, es, hscan, hfinal, hdata⟩
  obtain ⟨s, g, es, hscan, hfinal, _⟩ := hall []
  refine ⟨s, g, es, hscan, hfinal, fun r => ?_⟩
  obtain ⟨s', g', es', hscan', _, hdata⟩ := hall r
  have hevents : es = es' := congrArg Scan.events (hscan.symm.trans hscan')
  rwa [← hevents] at hdata

/-! ### What it says -/

omit hq in
theorem strcasecmpEq_comm (a b : Bytes) : strcasecmpEq a b = strcasecmpEq b a := by
  rw [Bool.eq_iff_iff, strcasecmpEq_iff, strcasecmpEq_iff]
  exact eq_comm

omit hq in
theorem ownFields_get (key : Bytes) : q.ownFields.get key = if strcasecmpEq CONNECTION key then some q.connectionValue
    else if q.body = [] then none else if strcasecmpEq CONTENT_LENGTH key then some (decimal q.body.length) else none := by
  rw [ownFields, MapType.get_cons]
  split
  · rfl
  · split
    · rfl
    · rw [MapType.get_cons]
      rfl

theorem described_get (key : Bytes) : q.described.headers.get key = (q.ownFields.get key).or (q.dumped.get key) := by
  have hown : q.ownFields.Pairwise fun x y => caseInsensitiveLess x.1 y.1 = true := by
    unfold ownFields
    split
    · exact List.pairwise_singleton _ _
    · refine List.pairwise_pair.mpr ?_
      have hless : caseInsensitiveLess CONNECTION CONTENT_LENGTH = true := by decide
      exact hless
  have hdumped : q.dumped.Pairwise fun x y => caseInsensitiveLess x.1 y.1 = true := hq.headers_sorted.filter _
  rw [described, puts_append, MapType.get_puts hown, MapType.get_puts hdumped]
  exact congrArg _ Option.or_none

theorem described_sameHead : q.described.SameHead q where
  status := rfl
  version := rfl
  reason := rfl
  connection := by
    rw [described_get hq, ownFields_get, if_pos (strcasecmpEq_refl CONNECTION)]
    rfl
  headers key hconn hlength := by
    rw [strcasecmpEq_comm] at hconn hlength
    have hnone : q.ownFields.get key = none := by
      rw [ownFields_get, hconn, hlength, if_neg Bool.false_ne_true, if_neg Bool.false_ne_true]
      exact ite_self none
    rw [described_get hq, hnone, Option.none_or, dumped, MapType.get_filter hconn]

theorem described_length (h : q.body.length < 2 ^ 64) : q.described.headers.getAs CONTENT_LENGTH =
    if q.body = [] then q.headers.getAs CONTENT_LENGTH else q.body.length := by
  have hconn : strcasecmpEq CONNECTION CONTENT_LENGTH = false := by decide
  rw [MapType.getAs, described_get hq, ownFields_get, hconn, if_neg Bool.false_ne_true,
    if_pos (strcasecmpEq_refl CONTENT_LENGTH)]
  by_cases hbody : q.body = []
  · rw [if_pos hbody, if_pos hbody, Option.none_or, dumped, MapType.get_filter hconn]
    rfl
  · rw [if_neg hbody, if_neg hbody, Option.some_or, Option.bind_some, lexicalCast_decimal h]
    rfl

end

end HttpResponse

/-! ## Receiving -/

namespace HttpConnection

variable {buffSize : BufferSize} {q : HttpResponse} {front later : List Bytes} {tail extra : Bytes}

/-- The header block in reads that cut none of its tokens, with the bytes `extra` behind it
    in the last one. -/
theorem recvHeader_dump (hq : q.Sendable) (hheader : front.flatten ++ tail = q.dumpHeader) (htail : tail ≠ [])
    (huncut : front = [] ∨ Uncut (front ++ [tail])) (hreads : Reads buffSize (front ++ (tail ++ extra) :: later))
    (hlt : q.dumpHeader.length < 2 ^ 31) (buffer : Bytes) :
    ∃ p data, recvHeader headerParser buffSize.val ((Socket.of (front ++ (tail ++ extra) :: later)).rest.length + 1)
        (Socket.of (front ++ (tail ++ extra) :: later)) .new buffer 0 =
          some (some (p, data, extra.length), Socket.of later) ∧
      p.data = q.described ∧ p.parser.chunked = false ∧ data.take extra.length = extra := by
  obtain ⟨s, g, es, hscan, hfinal, hdata⟩ := HttpResponse.scan_dump hq (by omega)
  have hfront : ∀ piece ∈ front, piece ≠ [] ∧ piece.length ≤ buffSize.val := fun piece hp =>
    hreads piece (List.mem_append_left _ hp)
  obtain ⟨_, hfits⟩ := hreads _ (List.mem_append_right front List.mem_cons_self)
  have hsaid : ∀ {p : HttpResponseParser}, responseScan.data p = ((q.described, 0), false) →
      p.data = q.described ∧ p.parser.chunked = false := by
    intro p hp
    obtain ⟨hresult, hchunked⟩ := Prod.mk.inj hp
    exact ⟨(Prod.mk.inj hresult).1, hchunked⟩
  rcases huncut with rfl | huncut
  · rw [List.flatten_nil, List.nil_append] at hheader
    rw [hheader] at htail hfits ⊢
    obtain ⟨p, data, hrecv, hp, hextra⟩ := response_implements.recvHeader_stopped response_ready_new htail hfits hscan hfinal
      hdata rfl later buffer (Socket.of ([] ++ (q.dumpHeader ++ extra) :: later)).rest.length
    exact ⟨p, data, hrecv, (hsaid hp).1, (hsaid hp).2, hextra⟩
  · have hne : q.dumpHeader ≠ [] := by
      rw [← hheader]
      simp [htail]
    have hfuel : front.length < (Socket.of (front ++ (tail ++ extra) :: later)).rest.length + 1 := by
      have := length_le_flatten fun piece hp => (hfront piece hp).1
      simp only [Socket.rest_of, List.flatten_append, List.length_append]
      omega
    have hmemory : responseScan.memory q.dumpHeader q.dumpHeader.length = q.dumpHeader ++ [0] := by
      show splice q.dumpHeader q.dumpHeader.length [0] = _
      rw [splice, List.take_length, List.drop_of_length_le (Nat.le_add_right _ _), List.append_nil]
    have hscan' : scan responseScan.automaton q.dumpHeader 0 (responseScan.state .new) (responseScan.regs .new) = _ := hscan
    obtain ⟨p₁, haccepts, hp₁⟩ := response_implements.accepts_of_scan response_ready_new hne hlt (by rw [hscan'])
      (by rw [hscan']) (by rw [hscan']; exact hfinal) (by rw [hscan', hmemory]; exact hdata [0]) rfl
    obtain ⟨p, data, hrecv, hp, hextra⟩ := response_implements.recvHeader_pieces response_ready_new haccepts
      (response_stable _ _) hheader htail hfront huncut extra hfits later buffer hfuel
    rw [hp₁] at hp
    exact ⟨p, data, hrecv, (hsaid hp).1, (hsaid hp).2, hextra⟩

end HttpConnection

/-- What a call returns, and what it leaves on the wire. -/
theorem HttpConnection.recvResponse_dump (buffSize : BufferSize) (buffer : Bytes) {q : HttpResponse} (hq : q.Sendable)
    {front later : List Bytes} {tail extra after : Bytes} (hheader : front.flatten ++ tail = q.dumpHeader)
    (htail : tail ≠ []) (huncut : front = [] ∨ HttpConnection.Uncut (front ++ [tail]))
    (hreads : Reads buffSize (front ++ (tail ++ extra) :: later)) (hbytes : extra ++ later.flatten = q.body ++ after)
    (hextra : extra.length ≤ q.body.length)
    (hleft : q.body.length = extra.length ∨ 0 < toInt32 ((q.body.length - extra.length : Nat) : Int))
    (hlt : q.dumpHeader.length < 2 ^ 31) (hbody : q.body.length ≤ maxSize) :
    HttpConnection.recvResponse buffSize buffer (Socket.of (front ++ (tail ++ extra) :: later)) =
      some (some q.described, Socket.of (dropFront (q.body.length - extra.length) later)) := by
  obtain ⟨p, data, hrecv, hp, hchunked, hdata⟩ := HttpConnection.recvHeader_dump hq hheader htail huncut hreads hlt buffer
  have hint64 : q.body.length < 2 ^ 63 := Nat.lt_of_le_of_lt hbody maxSize_lt
  have hlater : ∀ piece ∈ later, piece ≠ [] := fun piece hp =>
    (hreads piece (List.mem_append_right _ (List.mem_cons_of_mem _ hp))).1
  have hlength : p.getContentLength = if q.body = [] then q.headers.getAs CONTENT_LENGTH else q.body.length := by
    rw [HttpResponseParser.getContentLength, hp, HttpResponse.described_length hq (by omega)]
  unfold HttpConnection.recvResponse
  rw [hrecv, Option.bind_eq_bind, Option.bind_some]
  dsimp only
  rw [hchunked, if_neg Bool.false_ne_true, hlength, hp]
  have htotal := congrArg List.length hbytes
  rw [List.length_append, List.length_append] at htotal
  by_cases hnil : q.body = []
  · have hle : ¬ 0 < (q.headers.getAs CONTENT_LENGTH : Int).bmod (2 ^ 64) := by
      have hok := hq.length_ok.resolve_left (not_not.mpr hnil)
      omega
    rw [if_pos hnil, if_neg hle, hnil, List.length_nil, Nat.zero_sub, dropFront_zero]
  · have hpos : 0 < q.body.length := List.length_pos_iff.mpr hnil
    have hread := recvBody_pending hlater hdata hbody hextra (by omega) hleft
    rw [if_neg hnil, HttpSession.bmod_length hint64, if_pos (by omega), Int.toNat_natCast, hread]
    rfl

/-- A response is received as it was dumped, from any reads that cut no token of its header
    and of which none that brings a part of the header goes past its body; what is behind it
    stays. -/
theorem response_received (buffSize : BufferSize) (buffer : Bytes) {q : HttpResponse} (hq : q.Sendable)
    {front later : List Bytes} {tail extra after : Bytes} (hheader : front.flatten ++ tail = q.dumpHeader)
    (htail : tail ≠ []) (huncut : front = [] ∨ HttpConnection.Uncut (front ++ [tail]))
    (hreads : Reads buffSize (front ++ (tail ++ extra) :: later)) (hbytes : extra ++ later.flatten = q.body ++ after)
    (hextra : extra.length ≤ q.body.length)
    (hleft : q.body.length = extra.length ∨ 0 < toInt32 ((q.body.length - extra.length : Nat) : Int))
    (hlt : q.dumpHeader.length < 2 ^ 31) (hbody : q.body.length ≤ maxSize) :
    ∃ r sock, HttpConnection.recvResponse buffSize buffer (Socket.of (front ++ (tail ++ extra) :: later)) =
        some (some r, sock) ∧ r.SameHead q ∧ r.body = [] ∧ sock.rest = after := by
  have hlater : ∀ piece ∈ later, piece ≠ [] := fun piece hp =>
    (hreads piece (List.mem_append_right _ (List.mem_cons_of_mem _ hp))).1
  have hrest : later.flatten.drop (q.body.length - extra.length) = after := by
    have hdrop := congrArg (List.drop q.body.length) hbytes
    rwa [List.drop_left, List.drop_append, List.drop_of_length_le hextra, List.nil_append] at hdrop
  refine ⟨_, _, HttpConnection.recvResponse_dump buffSize buffer hq hheader htail huncut hreads hbytes hextra hleft hlt hbody,
    HttpResponse.described_sameHead hq, rfl, ?_⟩
  rw [Socket.rest_of, flatten_dropFront _ hlater, hrest]

/-- `HTTP/1.0 404 Not Found` with an empty field, a "Connection" line that is skipped and a body. -/
def notFound : HttpResponse :=
  { status := 404, version := 0x10, close := false, body := bytes ['h', 'i']
    headers := [(bytes ['C', 'o', 'n', 'n', 'e', 'c', 't', 'i', 'o', 'n'], CLOSE), (bytes ['x'], [])] }

theorem notFound_sendable : notFound.Sendable :=
  ⟨.inr rfl, by simp [notFound], by simp [notFound], by decide, by decide, .inl (by decide)⟩

/-- The body comes in two reads. -/
theorem response_received_notFound : ∃ r sock, HttpConnection.recvResponse ⟨4096, by decide, by decide⟩ []
    (Socket.of [notFound.dumpHeader ++ bytes ['h'], bytes ['i']]) = some (some r, sock) ∧ r.SameHead notFound ∧ r.body = [] ∧
      sock.rest = [] := by
  have hheader : ([] : List Bytes).flatten ++ notFound.dumpHeader = notFound.dumpHeader := rfl
  have hreads : Reads ⟨4096, by decide, by decide⟩ ([] ++ (notFound.dumpHeader ++ bytes ['h']) :: [bytes ['i']]) := by
    decide
  have hbytes : bytes ['h'] ++ [bytes ['i']].flatten = notFound.body ++ [] := rfl
  have hreceived := response_received ⟨4096, by decide, by decide⟩ [] notFound_sendable hheader (by decide) (.inl rfl) hreads
    hbytes (by decide) (.inr (by decide)) (by decide) (by decide)
  exact hreceived

end LjrServer.Http
