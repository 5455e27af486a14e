/-
  LjrServer.Http.BodyFraming — the body behind a header block, as `HttpSession::recvRequest`
  takes it from the buffer and the connection.

  The length is an `int64_t` where the header has a `uint64_t`, and what `readFixSize` returns
  is that length as an `int`. A length from 2^63 on is no body, one that no string can have is an
  exception, and one of which 2^31 bytes are still to come is read and taken for a failure.

  Proved:
  - `framed_iff`: below these, the body is the bytes behind the header and no others are read,
    and a stream that ends before is closed.
-/

import LjrServer.Http.KeepAlive

namespace LjrServer.Http.HttpSession

open LjrServer.Lib

/-- What is to come of a body of `n` bytes when these are in the buffer and those are read later. -/
structure Framed (parsed : HttpRequest) (n : Nat) (buffered : Bytes) (later : List Bytes)
    (r : Option HttpRequest × Socket) : Prop where
  whole : n ≤ (buffered ++ later.flatten).length →
    r.1 = some (withConnection { parsed with body := (buffered ++ later.flatten).take n }) ∧
      r.2.rest = later.flatten.drop (n - buffered.length)
  ended : (buffered ++ later.flatten).length < n → r.1 = none ∧ r.2.connected = false

/-- So many bytes are to come, and no `int` says otherwise. -/
def LengthFits (n : Nat) (buffered : Bytes) (later : List Bytes) : Prop :=
  n ≤ maxSize ∧ (n ≤ (buffered ++ later.flatten).length → n ≤ buffered.length ∨ 0 < toInt32 (n - buffered.length : Nat))

theorem withConnection_body (q : HttpRequest) : (withConnection q).body = q.body := by
  unfold withConnection
  dsimp only
  split <;> rfl

variable {buffSize : BufferSize} {u : Uninit} {header buffered : Bytes} {parsed : HttpRequest} {later : List Bytes}
  {n : Nat} {r : Option HttpRequest × Socket}

/-- A call on a header block that arrives whole goes on with its body. -/
theorem recvRequest_block (later : List Bytes) (hparses : Parses u header parsed)
    (hle : (header ++ buffered).length ≤ buffSize.val)
    (hn : parsed.headers.getAs CONTENT_LENGTH = n) :
    ∃ data, data.take buffered.length = buffered ∧
      recvRequest buffSize u (Socket.of ((header ++ buffered) :: later)) =
        if 0 < (n : Int).bmod (2 ^ 64) then
          (recvBody (Socket.of later) data buffered.length ((n : Int).bmod (2 ^ 64)).toNat).map fun r =>
            (r.1.map fun body => withConnection { parsed with body }, r.2)
        else some (some (withConnection parsed), Socket.of later) := by
  obtain ⟨p, data, hrecv, hparsed, hdata⟩ := recvHeader_block buffSize hparses buffered later hle
    (Socket.of ((header ++ buffered) :: later)).rest.length
  refine ⟨data, hdata, ?_⟩
  rw [recvRequest_header hrecv, HttpRequestParser.getContentLength, hparsed, hn]
  generalize (n : Int).bmod (2 ^ 64) = length
  cases recvBody (Socket.of later) data buffered.length length.toNat with
  | none => rfl
  | some r =>
    obtain ⟨body, sock⟩ := r
    cases body <;> rfl

theorem parses_body (hparses : Parses u header parsed) : parsed.body = [] := by
  obtain ⟨p, haccepts, rfl⟩ := hparses
  exact accepts_body haccepts

/-- A length that is no `int64_t`: the body is not taken, nor the stream closed. -/
theorem not_framed_wide (hparses : Parses u header parsed) (hpos : 0 < n) :
    ¬ Framed parsed n buffered later (some (withConnection parsed), Socket.of later) := by
  intro h
  by_cases hall : n ≤ (buffered ++ later.flatten).length
  · have hbody := congrArg (Option.map HttpRequest.body) (h.whole hall).1
    rw [Option.map_some, Option.map_some, withConnection_body, withConnection_body, Option.some.injEq,
      parses_body hparses] at hbody
    have hlen := congrArg List.length hbody
    rw [List.length_nil, List.length_take, Nat.min_eq_left hall] at hlen
    omega
  · cases (h.ended (Nat.lt_of_not_le hall)).1

theorem recvRequest_wide (hparses : Parses u header parsed) (hle : (header ++ buffered).length ≤ buffSize.val)
    (hn : parsed.headers.getAs CONTENT_LENGTH = n) (hwide : 2 ^ 63 ≤ n) :
    recvRequest buffSize u (Socket.of ((header ++ buffered) :: later)) =
      some (some (withConnection parsed), Socket.of later) := by
  have hneg : ¬ 0 < (n : Int).bmod (2 ^ 64) := by
    have hlt : n < 2 ^ 64 := hn ▸ MapType.getAs_lt CONTENT_LENGTH parsed.headers
    rw [Int.bmod_def]
    omega
  obtain ⟨data, -, hcall⟩ := recvRequest_block later hparses hle hn
  rw [hcall, if_neg hneg]

/-- What `recvBody` returns decides the call. -/
theorem recvRequest_body (later : List Bytes) (hparses : Parses u header parsed)
    (hle : (header ++ buffered).length ≤ buffSize.val)
    (hn : parsed.headers.getAs CONTENT_LENGTH = n) (hpos : 0 < n) (hlt : n < 2 ^ 63) :
    ∃ data, data.take buffered.length = buffered ∧
      recvRequest buffSize u (Socket.of ((header ++ buffered) :: later)) =
        (recvBody (Socket.of later) data buffered.length n).map fun r =>
          (r.1.map fun body => withConnection { parsed with body }, r.2) := by
  obtain ⟨data, hdata, hcall⟩ := recvRequest_block later hparses hle hn
  refine ⟨data, hdata, ?_⟩
  rw [hcall, bmod_length hlt, Int.toNat_natCast, if_pos (Int.natCast_pos.mpr hpos)]

/-- Nor is anything taken or closed where the string cannot be made. -/
theorem not_framed_large (hparses : Parses u header parsed) (hle : (header ++ buffered).length ≤ buffSize.val)
    (hn : parsed.headers.getAs CONTENT_LENGTH = n) (hpos : 0 < n) (hlarge : maxSize < n) :
    ¬ ∃ r, recvRequest buffSize u (Socket.of ((header ++ buffered) :: later)) = some r ∧
      Framed parsed n buffered later r := by
  rintro ⟨r, hr, hframed⟩
  by_cases hlt : n < 2 ^ 63
  · obtain ⟨data, -, hcall⟩ := recvRequest_body later hparses hle hn hpos hlt
    rw [hcall, recvBody_thrown _ _ _ hlarge] at hr
    cases hr
  · rw [recvRequest_wide hparses hle hn (Nat.le_of_not_lt hlt)] at hr
    cases hr
    exact not_framed_wide hparses hpos hframed

/-- A length that is not positive as an `int`: what was read is lost. -/
theorem not_framed_refused (hparses : Parses u header parsed) (hle : (header ++ buffered).length ≤ buffSize.val)
    (hn : parsed.headers.getAs CONTENT_LENGTH = n) (hsize : n ≤ maxSize) (hne : ∀ p ∈ later, p ≠ [])
    (hbuffered : buffered.length < n) (hall : n ≤ (buffered ++ later.flatten).length)
    (hint : toInt32 ((n - buffered.length : Nat) : Int) ≤ 0) :
    ¬ ∃ r, recvRequest buffSize u (Socket.of ((header ++ buffered) :: later)) = some r ∧
      Framed parsed n buffered later r := by
  obtain ⟨data, -, hcall⟩ := recvRequest_body later hparses hle hn (Nat.zero_lt_of_lt hbuffered)
    (Nat.lt_of_le_of_lt hsize maxSize_lt)
  have htotal : (buffered ++ later.flatten).length = buffered.length + later.flatten.length := List.length_append
  rw [hcall, recvBody_refused hne hsize hbuffered (by omega) hint]
  rintro ⟨r, hr, hframed⟩
  cases hr
  cases (hframed.whole hall).1

/-- Either the bytes are taken from the buffer and the reads or, where these end before, the
    connection is closed; unless no string has the length, or the length that is left is
    negative as it is returned. -/
theorem framed_iff (hparses : Parses u header parsed) (hle : (header ++ buffered).length ≤ buffSize.val)
    (hn : parsed.headers.getAs CONTENT_LENGTH = n) (hpos : 0 < n) (hne : ∀ p ∈ later, p ≠ []) :
    (∃ r, recvRequest buffSize u (Socket.of ((header ++ buffered) :: later)) = some r ∧
      Framed parsed n buffered later r) ↔ LengthFits n buffered later := by
  by_cases hsize : n ≤ maxSize
  case neg =>
    refine iff_of_false ?_ fun h => hsize h.1
    exact not_framed_large hparses hle hn hpos (Nat.lt_of_not_le hsize)
  case pos =>
    obtain ⟨data, hdata, hcall⟩ := recvRequest_body later hparses hle hn hpos (Nat.lt_of_le_of_lt hsize maxSize_lt)
    have htotal : (buffered ++ later.flatten).length = buffered.length + later.flatten.length := List.length_append
    by_cases hended : (buffered ++ later.flatten).length < n
    · refine iff_of_true ?_ ⟨hsize, fun hall => absurd hall (Nat.not_le.mpr hended)⟩
      rw [hcall, recvBody_ended hne hsize (by omega)]
      exact ⟨_, rfl, fun hall => absurd hall (Nat.not_le.mpr hended), fun _ => ⟨rfl, rfl⟩⟩
    · have hall : n ≤ (buffered ++ later.flatten).length := Nat.le_of_not_lt hended
      by_cases hbuffered : n ≤ buffered.length
      · refine iff_of_true ?_ ⟨hsize, fun _ => .inl hbuffered⟩
        rw [hcall, recvBody_buffered hdata hsize hbuffered]
        refine ⟨_, rfl, fun _ => ⟨?_, ?_⟩, fun h => absurd h hended⟩
        · rw [List.take_append_of_le_length hbuffered]
          rfl
        · rw [Nat.sub_eq_zero_of_le hbuffered]
          rfl
      · by_cases hint : 0 < toInt32 ((n - buffered.length : Nat) : Int)
        · refine iff_of_true ?_ ⟨hsize, fun _ => .inr hint⟩
          rw [hcall, recvBody_pending hne hdata hsize (by omega) (by omega) (.inr hint)]
          refine ⟨_, rfl, fun _ => ⟨?_, ?_⟩, fun h => absurd h hended⟩
          · rw [List.take_append, List.take_of_length_le (Nat.le_of_not_le hbuffered)]
            rfl
          · exact flatten_dropFront _ hne
        · refine iff_of_false ?_ fun h => (h.2 hall).elim hbuffered hint
          exact not_framed_refused hparses hle hn hsize hne (Nat.lt_of_not_le hbuffered) hall (Int.not_lt.mp hint)

/-- `PUT / HTTP/1.1` with the header of a body of this length. -/
def putOf (length : List Char) : Bytes :=
  bytes ['P', 'U', 'T', ' ', '/', ' ', 'H', 'T', 'T', 'P', '/', '1', '.', '1', '\n'] ++ CONTENT_LENGTH ++
    bytes ([':', ' '] ++ length ++ ['\n', '\n'])

def putOfParsed (length : List Char) : HttpRequest := { method := .PUT, headers := [(CONTENT_LENGTH, bytes length)] }

theorem parses_putOf_three : Parses ⟨false, 0, []⟩ (putOf ['3']) (putOfParsed ['3']) :=
  parses_of_check (by decide) (by decide +kernel)

/-- A body of three bytes, one of them read with the header, and a byte behind it. -/
theorem framed_iff_three :
    ∃ r, recvRequest ⟨4096, by decide, by decide⟩ ⟨false, 0, []⟩
        (Socket.of ((putOf ['3'] ++ bytes ['a']) :: [bytes ['b'], bytes ['c', 'd']])) = some r ∧
      Framed (putOfParsed ['3']) 3 (bytes ['a']) [bytes ['b'], bytes ['c', 'd']] r :=
  (framed_iff parses_putOf_three (by decide) (by decide) (by decide) (by decide)).mpr
    ⟨by decide, fun _ => .inr (by decide)⟩

/-- The digits of 2^31. -/
def twoGiB : List Char := ['2', '1', '4', '7', '4', '8', '3', '6', '4', '8']

theorem parses_putOf_twoGiB : Parses ⟨false, 0, []⟩ (putOf twoGiB) (putOfParsed twoGiB) :=
  parses_of_check (by decide) (by decide +kernel)

/-- A body of 2^31 bytes that is read to its end is refused. -/
theorem twoGiB_body_refused :
    ¬ ∃ r, recvRequest ⟨4096, by decide, by decide⟩ ⟨false, 0, []⟩
        (Socket.of ((putOf twoGiB ++ []) :: [List.replicate (2 ^ 31) 0])) = some r ∧
      Framed (putOfParsed twoGiB) (2 ^ 31) [] [List.replicate (2 ^ 31) 0] r := by
  have hbytes : (([] : Bytes) ++ [List.replicate (2 ^ 31) (0 : UInt8)].flatten).length = 2 ^ 31 := by
    rw [List.nil_append, List.flatten_cons, List.flatten_nil, List.append_nil, List.length_replicate]
  refine not_framed_refused parses_putOf_twoGiB (by decide) (by decide) (by decide) ?_ (by decide)
    (Nat.le_of_eq hbytes.symm) (by decide)
  intro p hp
  rw [List.mem_singleton.mp hp, ne_eq, List.replicate_eq_nil_iff]
  decide

end LjrServer.Http.HttpSession
