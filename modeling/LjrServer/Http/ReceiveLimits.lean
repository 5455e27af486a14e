/-
  LjrServer.Http.ReceiveLimits — the limits of a request: `http.request.buffer_size` for its
  header and `http.request.max_body_size` for its body.

  A call of `recvRequest` as its turns: each read of the header loop with the parse of what it
  brought, and the body. Nothing in the call looks at `max_body_size`. The size of the buffer
  bounds one read: a parser that has not come to the end of the block has consumed all there
  is, so the test of what is left over finds the buffer empty.

  Proved:
  - `recvRequest_run`: the call is a run of these turns.
  - `enforced_iff`: a run keeps both limits exactly when each header byte it receives is within
    the first, or refused, or behind the end of the block, and no length is past the second.
-/

import LjrServer.Lib.Runs
import LjrServer.Http.BodyFraming

namespace LjrServer.Http.HttpSession

open LjrServer.Lib LjrServer.Lib.Scanner

inductive Stage where
  | header
  | body
  | returned (request : Option HttpRequest)

/-- A call, with the header bytes that the parser has consumed and the size of the body. -/
structure Receiving where
  sock : Socket
  parser : HttpRequestParser
  data : Bytes
  offset : Nat
  stage : Stage := .header
  consumed : Nat := 0
  allocated : Nat := 0

namespace Receiving

def start (u : Uninit) (sock : Socket) : Receiving := ⟨sock, .new u.uriRelaxed u.queryStart, u.buffer, 0, .header, 0, 0⟩

/-- `close()` and `return nullptr` -/
def refuse (c : Receiving) (sock : Socket) : Receiving := { c with sock := sock.close, stage := .returned none }

/-- A turn of the loop of `recvRequest`. -/
def readHeader (buffSize : Nat) (c : Receiving) : Option Receiving :=
  match c.sock.read (buffSize - c.offset) with
  | (none, sock) => some (c.refuse sock)
  | (some [], sock) => some (c.refuse sock)
  | (some bs, sock) =>
    let data := splice c.data c.offset bs
    let len := bs.length + c.offset
    match c.parser.execute data len with
    | none => none
    | some (nparse, parser, data) =>
      let c := { c with sock, parser, data, offset := len - nparse, consumed := c.consumed + nparse }
      if parser.hasError then some (c.refuse sock)
      else if (c.offset : Int) = toInt32 buffSize then some (c.refuse sock)
      else if parser.isFinished ≠ 0 then some { c with stage := .body }
      else some c

/-- What is behind the loop. -/
def readBody (c : Receiving) : Option Receiving :=
  let length := (c.parser.getContentLength : Int).bmod (2 ^ 64)
  if 0 < length then
    (recvBody c.sock c.data c.offset length.toNat).map fun r =>
      { c with
        sock := r.2
        stage := .returned (r.1.map fun body => withConnection { c.parser.data with body })
        allocated := length.toNat }
  else some { c with stage := .returned (some (withConnection c.parser.data)) }

def step (buffSize : BufferSize) (c : Receiving) (_ : Unit) : Option Receiving :=
  match c.stage with
  | .header => c.readHeader buffSize.val
  | .body => c.readBody
  | .returned _ => none

/-- Within `max_body_size`, and within `buffer_size` unless the session is closed. -/
structure Enforced (buffSize : BufferSize) (maxBody : Nat) (c : Receiving) : Prop where
  header : c.consumed ≤ buffSize.val ∨ c.stage = .returned none ∧ c.sock.connected = false
  body : c.allocated ≤ maxBody

/-- What the read brings: nothing, or bytes that are refused, or no more than there may be, or
    the end of the block within the bytes there may be. The length of the body, as the
    `int64_t` it is kept in, is not too large. -/
def Within (buffSize : BufferSize) (maxBody : Nat) (c : Receiving) (_ : Unit) : Prop :=
  match c.stage with
  | .header =>
    ∀ bs, (c.sock.read (buffSize.val - c.offset)).1 = some bs → bs ≠ [] →
      let data := splice c.data c.offset bs
      let len := bs.length + c.offset
      (c.parser.execute data len).any (fun r => r.2.1.hasError) = true ∨ c.consumed + len ≤ buffSize.val ∨
        (c.parser.parser.run data (buffSize.val - c.consumed) 0).ending = .stopped
  | .body => (c.parser.getContentLength : Int).bmod (2 ^ 64) ≤ maxBody
  | .returned _ => True

variable {buffSize : BufferSize} {maxBody : Nat} {u : Uninit} {sock : Socket} {c c' : Receiving}
  {τ : History Receiving Unit}

/-! ## What a read does -/

/-- The three ends of a turn: nothing is read, what is read is refused, or it is taken. -/
inductive Turned (buffSize : BufferSize) (c : Receiving) : Receiving → Prop
  | ended (sock : Socket) :
      (∀ bs, (c.sock.read (buffSize.val - c.offset)).1 = some bs → bs = []) → Turned buffSize c (c.refuse sock)
  | refused (bs : Bytes) (sock : Socket) (nparse : Nat) (parser : HttpRequestParser) (data : Bytes) :
      c.sock.read (buffSize.val - c.offset) = (some bs, sock) → bs ≠ [] →
      c.parser.execute (splice c.data c.offset bs) (bs.length + c.offset) = some (nparse, parser, data) →
      (parser.hasError = true ∨ ((bs.length + c.offset - nparse : Nat) : Int) = toInt32 buffSize.val) →
      Turned buffSize c
        ({ c with
          sock, parser, data, offset := bs.length + c.offset - nparse, consumed := c.consumed + nparse }.refuse sock)
  | taken (bs : Bytes) (sock : Socket) (nparse : Nat) (parser : HttpRequestParser) (data : Bytes) (stage : Stage) :
      c.sock.read (buffSize.val - c.offset) = (some bs, sock) → bs ≠ [] →
      c.parser.execute (splice c.data c.offset bs) (bs.length + c.offset) = some (nparse, parser, data) →
      parser.hasError = false → (stage = .header ∨ stage = .body) →
      Turned buffSize c
        { c with
          sock, parser, data, stage, offset := bs.length + c.offset - nparse, consumed := c.consumed + nparse }

theorem readHeader_turned (hstage : c.stage = .header) (h : c.readHeader buffSize.val = some c') :
    Turned buffSize c c' := by
  unfold readHeader at h
  rcases hread : c.sock.read (buffSize.val - c.offset) with ⟨_ | bs, sock⟩
  · rw [hread] at h
    cases h
    exact .ended sock (by rw [hread]; exact fun _ hbs => by cases hbs)
  · rw [hread] at h
    by_cases hne : bs = []
    · subst hne
      cases h
      exact .ended sock (by rw [hread]; exact fun _ hbs => (Option.some.inj hbs).symm)
    · cases bs with
      | nil => exact absurd rfl hne
      | cons b bs =>
        dsimp only at h
        cases hexec : c.parser.execute (splice c.data c.offset (b :: bs)) ((b :: bs).length + c.offset) with
        | none =>
          rw [hexec] at h
          cases h
        | some r =>
          obtain ⟨nparse, parser, data⟩ := r
          rw [hexec] at h
          dsimp only at h
          split at h
          · rename_i herror
            cases h
            exact .refused _ sock nparse parser data hread hne hexec (.inl herror)
          · rename_i herror
            have hok : parser.hasError = false := by simpa using herror
            split at h
            · rename_i hfull
              cases h
              exact .refused _ sock nparse parser data hread hne hexec (.inr hfull)
            · split at h
              · cases h
                exact .taken _ sock nparse parser data .body hread hne hexec hok (.inr rfl)
              · cases h
                exact .taken _ sock nparse parser data c.stage hread hne hexec hok (.inl hstage)

/-- What the parser has consumed when it has no error. -/
theorem execute_consumed {p p' : HttpRequestParser} {data data' : Bytes} {len nparse : Nat}
    (h : p.execute data len = some (nparse, p', data')) (hlen : 0 < len) (herror : p'.hasError = false) :
    (p.parser.run data len 0).ending ≠ .error ∧ nparse = (p.parser.run data len 0).pos := by
  obtain ⟨⟨n, parser, events⟩, hexec, h⟩ := Option.bind_eq_some_iff.mp h
  obtain ⟨q, -, h⟩ := Option.bind_eq_some_iff.mp h
  cases h
  rcases HttpParser.execute_some hexec with ⟨h0, -⟩ | ⟨rfl, rfl, -⟩
  · omega
  · refine ⟨fun hending => ?_, rfl⟩
    rw [HttpRequestParser.hasError, HttpParser.hasError, HttpParser.finishRun, if_pos hending] at herror
    simp at herror

theorem length_read {bs : Bytes} (hc : c.offset ≤ c.data.length) :
    bs.length + c.offset ≤ (splice c.data c.offset bs).length := by
  rw [splice, List.length_append, List.length_append, List.length_take]
  omega

/-- Something is always consumed, so the buffer is never full. -/
theorem not_full {bs data : Bytes} {sock' : Socket} {nparse : Nat} {parser : HttpRequestParser}
    (hoffset : c.offset ≤ c.data.length) (hread : c.sock.read (buffSize.val - c.offset) = (some bs, sock'))
    (hne : bs ≠ [])
    (hexec : c.parser.execute (splice c.data c.offset bs) (bs.length + c.offset) = some (nparse, parser, data))
    (herror : parser.hasError = false) : ((bs.length + c.offset - nparse : Nat) : Int) ≠ toInt32 buffSize.val := by
  have hlen := Socket.read_length hread
  have hpos : 0 < bs.length := List.length_pos_iff.mpr hne
  have hmem : bs.length + c.offset ≤ (splice c.data c.offset bs).length := length_read hoffset
  obtain ⟨hending, hnparse⟩ := execute_consumed hexec (by omega) herror
  have hconsumed : 0 < nparse := by
    rw [hnparse]
    cases hcase : (c.parser.parser.run (splice c.data c.offset bs) (bs.length + c.offset) 0).ending with
    | error => exact absurd hcase hending
    | stopped => exact scan_stopped_pos Http11.automaton _ _ _ _ hcase
    | more =>
      rw [HttpParser.run, List.drop_zero] at hcase ⊢
      rw [scan_more_pos Http11.automaton _ _ _ _ hcase, List.length_take]
      omega
  rw [toInt32_of_lt buffSize.lt]
  omega

/-- The bytes that are taken are within the limit when they all are, or when the block ends
    before it. -/
theorem consumed_within {p : HttpParser} {data : Bytes} {len : Nat} (limit : Nat) (hlen : len ≤ data.length)
    (hending : (p.run data len 0).ending ≠ .error) :
    (p.run data len 0).pos ≤ limit ↔ len ≤ limit ∨ (p.run data limit 0).ending = .stopped := by
  have hpos : (p.run data len 0).pos ≤ len := by
    have h := (scan_pos_le Http11.automaton ((data.take len).drop 0) 0 p.reset.cs p.reset.regs).2
    rw [List.drop_zero, List.length_take_of_le hlen, Nat.zero_add] at h
    rw [HttpParser.run, List.drop_zero]
    exact h
  by_cases hle : len ≤ limit
  · exact iff_of_true (Nat.le_trans hpos hle) (.inl hle)
  · rw [HttpParser.run, List.drop_zero] at hending ⊢
    have hlimit : limit ≤ (data.take len).length := by rw [List.length_take_of_le hlen]; omega
    have htake := scan_take_stopped Http11.automaton hending hlimit
    rw [List.take_take, Nat.min_eq_left (Nat.le_of_not_le hle), Nat.zero_add] at htake
    rw [or_iff_right hle, HttpParser.run, List.drop_zero, htake]
    refine ⟨fun h => ⟨?_, h⟩, And.right⟩
    cases hcase : (scan Http11.automaton (data.take len) 0 p.reset.cs p.reset.regs).ending with
    | stopped => rfl
    | error => exact absurd hcase hending
    | more =>
      rw [scan_more_pos Http11.automaton _ _ _ _ hcase, List.length_take_of_le hlen] at h
      omega

/-- Until the call returns, the limit of the header is kept. -/
theorem Enforced.consumed_le (hc : Enforced buffSize maxBody c) (hopen : c.stage ≠ .returned none) :
    c.consumed ≤ buffSize.val :=
  hc.header.resolve_right fun h => hopen h.1

/-- A read keeps the limit exactly when it is within it. -/
theorem readHeader_enforced (hstage : c.stage = .header) (hoffset : c.offset ≤ c.data.length)
    (hc : Enforced buffSize maxBody c) (h : Turned buffSize c c') :
    Enforced buffSize maxBody c' ↔ Within buffSize maxBody c () := by
  have hconsumed : c.consumed ≤ buffSize.val := hc.consumed_le (by rw [hstage]; exact Stage.noConfusion)
  unfold Within
  rw [hstage]
  cases h with
  | ended sock hread =>
    exact iff_of_true ⟨.inr ⟨rfl, rfl⟩, hc.body⟩ fun bs hbs hne => absurd (hread bs hbs) hne
  | refused bs sock nparse parser data hread hne hexec hwhy =>
    refine iff_of_true ⟨.inr ⟨rfl, rfl⟩, hc.body⟩ fun bs' hbs _ => ?_
    rw [hread, Option.some.injEq] at hbs
    subst hbs
    refine .inl ?_
    rw [hexec]
    cases herror : parser.hasError with
    | true => exact herror
    | false =>
      exact absurd (hwhy.resolve_left (by rw [herror]; exact Bool.false_ne_true))
        (not_full hoffset hread hne hexec herror)
  | taken bs sock nparse parser data stage hread hne hexec herror hstage' =>
    have hpos : 0 < bs.length := List.length_pos_iff.mpr hne
    obtain ⟨hending, hnparse⟩ := execute_consumed hexec (by omega) herror
    have hwithin := consumed_within (buffSize.val - c.consumed) (length_read hoffset) hending
    rw [← hnparse] at hwithin
    have hopen : ¬ (stage = .returned none ∧ sock.connected = false) := by
      rintro ⟨rfl, -⟩
      rcases hstage' with h | h <;> cases h
    constructor
    · intro h bs' hbs _
      rw [hread, Option.some.injEq] at hbs
      subst hbs
      have hle := h.header.resolve_right hopen
      dsimp only at hle
      rcases hwithin.mp (by omega) with hlen | hstopped
      · exact .inr (.inl (by omega))
      · exact .inr (.inr hstopped)
    · intro h
      refine ⟨.inl ?_, hc.body⟩
      dsimp only
      rcases h bs (by rw [hread]) hne with hrefused | hlen | hstopped
      · rw [hexec, Option.any_some, herror] at hrefused
        cases hrefused
      · have hle := hwithin.mpr (.inl (by omega))
        omega
      · have hle := hwithin.mpr (.inr hstopped)
        omega

theorem readBody_enforced (hstage : c.stage = .body) (hc : Enforced buffSize maxBody c) (h : c.readBody = some c') :
    Enforced buffSize maxBody c' ↔ Within buffSize maxBody c () := by
  have hconsumed : c.consumed ≤ buffSize.val := hc.consumed_le (by rw [hstage]; exact Stage.noConfusion)
  unfold Within
  rw [hstage]
  unfold readBody at h
  dsimp only at h ⊢
  split at h
  · rename_i hlength
    obtain ⟨r, -, rfl⟩ := Option.map_eq_some_iff.mp h
    constructor
    · intro henforced
      have hbody := henforced.body
      dsimp only at hbody
      omega
    · intro hle
      exact ⟨.inl hconsumed, by dsimp only; omega⟩
  · rename_i hlength
    cases h
    exact iff_of_true ⟨.inl hconsumed, hc.body⟩ (by omega)

/-! ## The call as a run -/

/-- The loop goes by such turns. -/
theorem recvHeader_turn (hstage : c.stage = .header) (fuel : Nat) :
    recvHeader headerParser buffSize.val (fuel + 1) c.sock c.parser c.data c.offset =
      (c.readHeader buffSize.val).bind fun c' =>
        match c'.stage with
        | .header => recvHeader headerParser buffSize.val fuel c'.sock c'.parser c'.data c'.offset
        | .body => some (some (c'.parser, c'.data, c'.offset), c'.sock)
        | .returned _ => some (none, c'.sock) := by
  rw [readHeader]
  rcases hread : c.sock.read (buffSize.val - c.offset) with ⟨_ | bs, sock⟩
  · exact recvHeader_ended headerParser fuel c.parser c.data (.inl hread)
  · by_cases hne : bs = []
    · subst hne
      exact recvHeader_ended headerParser fuel c.parser c.data (.inr hread)
    · rw [recvHeader_parsed headerParser fuel c.parser c.data hread hne]
      cases bs with
      | nil => exact absurd rfl hne
      | cons b bs =>
        dsimp only [headerParser]
        cases c.parser.execute (splice c.data c.offset (b :: bs)) ((b :: bs).length + c.offset) with
        | none => rfl
        | some r =>
          obtain ⟨nparse, parser, data⟩ := r
          dsimp only [Option.bind_some]
          by_cases herror : parser.hasError = true
          · refine (if_pos herror).trans ?_
            rw [if_pos herror]
            rfl
          · refine (if_neg herror).trans ?_
            rw [if_neg herror]
            by_cases hfull : (((b :: bs).length + c.offset - nparse : Nat) : Int) = toInt32 buffSize.val
            · rw [if_pos hfull, if_pos hfull]
              rfl
            · rw [if_neg hfull, if_neg hfull]
              by_cases hfinished : parser.isFinished ≠ 0
              · refine (if_pos hfinished).trans ?_
                rw [if_pos hfinished]
                rfl
              · refine (if_neg hfinished).trans ?_
                rw [if_neg hfinished, Option.bind_some, hstage]

/-- A turn of the loop returns null or nothing. -/
theorem readHeader_stage (hstage : c.stage = .header) (h : c.readHeader buffSize.val = some c') :
    c'.stage = .header ∨ c'.stage = .body ∨ c'.stage = .returned none := by
  cases readHeader_turned hstage h with
  | ended => exact .inr (.inr rfl)
  | refused => exact .inr (.inr rfl)
  | taken _ _ _ _ _ stage _ _ _ _ hstage' => exact hstage'.imp_right .inl

theorem recvHeader_run : ∀ {fuel : Nat} {c : Receiving} {r : Option (HttpRequestParser × Bytes × Nat) × Socket},
    c.stage = .header → recvHeader headerParser buffSize.val fuel c.sock c.parser c.data c.offset = some r →
    ∃ τ c', Run (step buffSize) c τ c' ∧ c'.sock = r.2 ∧
      ((r.1 = none ∧ c'.stage = .returned none) ∨ (r.1 = some (c'.parser, c'.data, c'.offset) ∧ c'.stage = .body)) := by
  intro fuel
  induction fuel with
  | zero => exact fun _ h => by cases h
  | succ fuel ih =>
    intro c r hstage h
    rw [recvHeader_turn hstage] at h
    obtain ⟨c', hturn, h⟩ := Option.bind_eq_some_iff.mp h
    have hrun : Run (step buffSize) c [(c, ())] c' := .step .nil (by rw [step, hstage]; exact hturn)
    rcases readHeader_stage hstage hturn with hheader | hbody | hreturned
    · rw [hheader] at h
      obtain ⟨τ, c'', hlater, hresult⟩ := ih hheader h
      exact ⟨τ ++ [(c, ())], c'', hrun.append hlater, hresult⟩
    · rw [hbody] at h
      cases h
      exact ⟨_, c', hrun, rfl, .inr ⟨rfl, hbody⟩⟩
    · rw [hreturned] at h
      cases h
      exact ⟨_, c', hrun, rfl, .inl ⟨rfl, hreturned⟩⟩

/-- `recvRequest` returns what a run of its turns comes to. -/
theorem recvRequest_run {r : Option HttpRequest × Socket} (h : recvRequest buffSize u sock = some r) :
    ∃ τ c, Run (step buffSize) (start u sock) τ c ∧ c.stage = .returned r.1 ∧ c.sock = r.2 := by
  obtain ⟨⟨header, sock'⟩, hheader, h⟩ := Option.bind_eq_some_iff.mp h
  obtain ⟨τ, c, hrun, hsock, hresult⟩ := recvHeader_run (c := start u sock) rfl hheader
  dsimp only at hsock hresult h
  rcases hresult with ⟨rfl, hstage⟩ | ⟨rfl, hstage⟩
  · cases h
    exact ⟨τ, c, hrun, hstage, hsock⟩
  · dsimp only at h
    have hlast : ∀ {c' : Receiving}, c.readBody = some c' → Run (step buffSize) (start u sock) ((c, ()) :: τ) c' :=
      fun hbody => .step hrun (by rw [step, hstage]; exact hbody)
    unfold readBody at hlast
    dsimp only at hlast
    rw [← hsock] at h
    by_cases hlength : 0 < (c.parser.getContentLength : Int).bmod (2 ^ 64)
    · rw [if_pos hlength] at h
      obtain ⟨⟨body, sock''⟩, hbody, h⟩ := Option.bind_eq_some_iff.mp h
      refine ⟨_, _, hlast (by rw [if_pos hlength, hbody]; rfl), ?_⟩
      cases body with
      | none =>
        cases h
        exact ⟨rfl, rfl⟩
      | some body =>
        cases h
        exact ⟨rfl, rfl⟩
    · rw [if_neg hlength] at h
      cases h
      exact ⟨_, _, hlast (if_neg hlength), rfl, rfl⟩

/-! ## Runs -/

theorem execute_leaves {p p' : HttpRequestParser} {data data' : Bytes} {len nparse : Nat}
    (h : p.execute data len = some (nparse, p', data')) (hlen : len ≤ data.length) : len - nparse ≤ data'.length := by
  obtain ⟨⟨n, parser, events⟩, -, h⟩ := Option.bind_eq_some_iff.mp h
  obtain ⟨q, -, h⟩ := Option.bind_eq_some_iff.mp h
  cases h
  refine Nat.le_trans ?_ (length_le_splice data 0 (slice data nparse (len - nparse)))
  rw [slice, List.length_take, List.length_drop]
  omega

/-- What is left over is in the buffer. -/
theorem offset_le (h : c.offset ≤ c.data.length) (hs : step buffSize c () = some c') : c'.offset ≤ c'.data.length := by
  unfold step at hs
  split at hs
  · rename_i hstage
    cases readHeader_turned hstage hs with
    | ended => exact h
    | refused bs sock nparse parser data _ _ hexec _ => exact execute_leaves hexec (length_read h)
    | taken bs sock nparse parser data stage _ _ hexec _ _ => exact execute_leaves hexec (length_read h)
  · unfold readBody at hs
    dsimp only at hs
    split at hs
    · obtain ⟨r, -, rfl⟩ := Option.map_eq_some_iff.mp hs
      exact h
    · cases hs
      exact h
  · cases hs

theorem start_enforced (buffSize : BufferSize) (maxBody : Nat) (u : Uninit) (sock : Socket) :
    Enforced buffSize maxBody (start u sock) := ⟨.inl (Nat.zero_le _), Nat.zero_le _⟩

/-- Both limits hold in all states of a call exactly when each of its turns is within them. -/
theorem enforced_iff (maxBody : Nat) (hr : Run (step buffSize) (start u sock) τ c) :
    (∀ t ∈ c :: τ.map Prod.fst, Enforced buffSize maxBody t) ↔ Meets (Within buffSize maxBody) τ := by
  have hstep : ∀ t a t', t.offset ≤ t.data.length → Enforced buffSize maxBody t → step buffSize t a = some t' →
      (Enforced buffSize maxBody t' ↔ Within buffSize maxBody t a) := by
    intro t a t' hoffset ht hs
    unfold step at hs
    split at hs
    · rename_i hstage
      exact readHeader_enforced hstage hoffset ht (readHeader_turned hstage hs)
    · rename_i hstage
      exact readBody_enforced hstage ht hs
    · cases hs
  have hstart : (start u sock).offset ≤ (start u sock).data.length := Nat.zero_le _
  exact (hr.throughout_iff (J := fun t => t.offset ≤ t.data.length) hstart (start_enforced buffSize maxBody u sock)
    (fun _ _ _ => offset_le) hstep).2

/-- A turn that keeps the limits whatever the parser makes of what is read. -/
def isSmall (buffSize maxBody : Nat) (c : Receiving) : Bool :=
  match c.stage with
  | .header => (c.sock.read (buffSize - c.offset)).1.all fun bs => c.consumed + (bs.length + c.offset) ≤ buffSize
  | .body => (c.parser.getContentLength : Int).bmod (2 ^ 64) ≤ maxBody
  | .returned _ => true

theorem within_of_isSmall (h : c.isSmall buffSize.val maxBody = true) : Within buffSize maxBody c () := by
  unfold isSmall at h
  unfold Within
  split at h
  · intro bs hbs _
    rw [hbs, Option.all_some] at h
    exact .inr (.inl (of_decide_eq_true h))
  · exact of_decide_eq_true h
  · trivial

/-- `PUT / HTTP/1.1`, its "content-length" line with one byte of the body, and two more. -/
theorem enforced_iff_put : ∃ τ c, Run (step ⟨4096, by decide, by decide⟩) (start ⟨false, 0, []⟩
      (Socket.of [(putOf ['3']).take 15, (putOf ['3']).drop 15 ++ bytes ['a'], bytes ['b', 'c']])) τ c ∧
    (τ.length = 3 ∧ c.allocated = 3) ∧
    ∀ t ∈ c :: τ.map Prod.fst, Enforced ⟨4096, by decide, by decide⟩ (64 * 1024 * 1024) t := by
  obtain ⟨τ, c, hr, hmeets, htest⟩ := exists_run (step ⟨4096, by decide, by decide⟩)
    (fun c _ => c.isSmall 4096 (64 * 1024 * 1024) = true) (start ⟨false, 0, []⟩
      (Socket.of [(putOf ['3']).take 15, (putOf ['3']).drop 15 ++ bytes ['a'], bytes ['b', 'c']])) [(), (), ()]
    (fun τ c => decide (τ.length = 3 ∧ c.allocated = 3)) (by decide +kernel)
  exact ⟨τ, c, hr, of_decide_eq_true htest,
    (enforced_iff (64 * 1024 * 1024) hr).mpr fun p hp => within_of_isSmall (hmeets p hp)⟩

/-- `GET / HTTP/1.1` and two headers, 26 bytes in two reads. -/
def twoHeaders : List Bytes :=
  [bytes ['G', 'E', 'T', ' ', '/', ' ', 'H', 'T', 'T', 'P', '/', '1', '.', '1', '\n'],
    bytes ['a', ':', ' ', 'b', '\n', 'c', ':', ' ', 'd', '\n', '\n']]

/-- A header of 26 bytes is taken with a buffer of 16, and a body allocated that is a byte
    larger than `max_body_size`. -/
theorem limits_passed :
    (∃ τ c, Run (step ⟨16, by decide, by decide⟩) (start ⟨false, 0, []⟩ (Socket.of twoHeaders)) τ c ∧
      ¬ Enforced ⟨16, by decide, by decide⟩ (64 * 1024 * 1024) c) ∧
    ∃ τ c, Run (step ⟨4096, by decide, by decide⟩)
        (start ⟨false, 0, []⟩ (Socket.of [putOf ['6', '7', '1', '0', '8', '8', '6', '5']])) τ c ∧
      ¬ Enforced ⟨4096, by decide, by decide⟩ (64 * 1024 * 1024) c := by
  constructor
  · obtain ⟨τ, c, hr, -, htest⟩ := exists_run (step ⟨16, by decide, by decide⟩) (fun _ _ => True)
      (start ⟨false, 0, []⟩ (Socket.of twoHeaders)) [(), ()] (fun _ c => decide (16 < c.consumed) && c.sock.connected)
      (by decide +kernel)
    obtain ⟨hconsumed, hconnected⟩ := Bool.and_eq_true_iff.mp htest
    refine ⟨τ, c, hr, fun h => ?_⟩
    rcases h.header with hle | ⟨-, hclosed⟩
    · exact absurd hle (Nat.not_le.mpr (of_decide_eq_true hconsumed))
    · rw [hconnected] at hclosed
      cases hclosed
  · obtain ⟨τ, c, hr, -, htest⟩ := exists_run (step ⟨4096, by decide, by decide⟩) (fun _ _ => True)
      (start ⟨false, 0, []⟩ (Socket.of [putOf ['6', '7', '1', '0', '8', '8', '6', '5']])) [(), ()]
      (fun _ c => decide (64 * 1024 * 1024 < c.allocated)) (by decide +kernel)
    exact ⟨τ, c, hr, fun h => absurd h.body (Nat.not_le.mpr (of_decide_eq_true htest))⟩

end Receiving

end LjrServer.Http.HttpSession
