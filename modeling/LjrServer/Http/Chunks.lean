/-
  LjrServer.Http.Chunks — chunked responses (the chunk loop of `HttpConnection::recvResponse`).

  Every attempt at a chunk header starts a new parser on what is in the buffer, and consumes
  it. The line with a chunk's size is therefore read only when it is there as a whole; the
  data and the line end behind it may be cut anywhere.

  Proved:
  - `recvChunkHeader_line`: a size line that is there as a whole is read.
  - `recvChunkData_pending`: a chunk's data is taken from the buffer and the connection.
  - `chunks_decoded`: when no read ends inside a size line, the response has the chunks'
    data as its body and the line end of the last chunk has been read.
-/

import LjrServer.Http.HeaderReads
import LjrServer.Http.ResponseBody

namespace LjrServer.Http

open LjrServer.Lib LjrServer.Lib.Scanner LjrServer.Lib.Ragel LjrServer.Http.HttpClient

def lineEnd : Bytes := [13, 10]

/-- A chunk, with the hexadecimal digits that spell its size. -/
structure Chunk where
  size : Bytes
  data : Bytes
  size_ne : size ≠ []
  hex : ∀ b ∈ size, (digitVal 16 b).isSome = true
  spells : digits 16 0 size = data.length

namespace Chunk

def line (c : Chunk) : Bytes := c.size ++ lineEnd

def wire (c : Chunk) : Bytes := c.line ++ (c.data ++ lineEnd)

theorem line_length (c : Chunk) : c.line.length = c.size.length + 2 := List.length_append

theorem wire_length (c : Chunk) : c.wire.length = c.line.length + (c.data.length + 2) := by
  simp only [wire, List.length_append]
  rfl

end Chunk

/-! ## The size line -/

namespace HttpClient

def hexDigits : List Nat :=
  (List.range 10).map (· + 48) ++ (List.range 6).map (· + 65) ++ (List.range 6).map (· + 97)

/-- Inside the size, and behind its carriage return. -/
def inSize : State := (step [main] 48).1
def behindSize : State := (step inSize 13).1
def behindLine : State := (step behindSize 10).1

theorem size_evaluated : (∀ d ∈ hexDigits, step [main] d = (inSize, [.mark]) ∧ step inSize d = (inSize, [])) ∧
    step inSize 13 = (behindSize, [.chunkSize]) ∧ step behindSize 10 = (behindLine, [.done]) ∧
    isFirstFinal behindLine = true ∧ inSize ≠ [] ∧ behindSize ≠ [] ∧ behindLine ≠ [] := by
  decide +kernel

theorem mem_hexDigits {b : UInt8} (h : (digitVal 16 b).isSome = true) : b.toNat ∈ hexDigits := by
  have hv : 48 ≤ b.toNat ∧ b.toNat ≤ 57 ∨ 97 ≤ b.toNat ∧ b.toNat ≤ 102 ∨ 65 ≤ b.toNat ∧ b.toNat ≤ 70 := by
    grind [digitVal]
  simp only [hexDigits, List.mem_append, List.mem_map, List.mem_range]
  rcases hv with hv | hv | hv
  · exact .inl (.inl ⟨b.toNat - 48, by omega, by omega⟩)
  · exact .inr ⟨b.toNat - 97, by omega, by omega⟩
  · exact .inl (.inr ⟨b.toNat - 65, by omega, by omega⟩)

theorem automaton_of_step {s s' : State} {b : UInt8} {acts : List Action} (h : step s b.toNat = (s', acts))
    (hne : s' ≠ []) :
    automaton s b = some (s', acts.flatMap Action.effects) := by
  show (if (step s b.toNat).1 = [] then none
    else some ((step s b.toNat).1, (step s b.toNat).2.flatMap Action.effects)) = _
  rw [h, if_neg hne]

theorem scan_digits (tail : Bytes) : ∀ (ds : Bytes) (p : Nat) (g : Regs Reg),
    (∀ b ∈ ds, (digitVal 16 b).isSome = true) →
    scan automaton (ds ++ tail) p inSize g = scan automaton tail (p + ds.length) inSize g
  | [], _, _, _ => rfl
  | b :: ds, p, g, h => by
    obtain ⟨hdigits, _, _, _, hin, _, _⟩ := size_evaluated
    have hb := automaton_of_step (hdigits _ (mem_hexDigits (h b List.mem_cons_self))).2 hin
    have ih := scan_digits tail ds (p + 1) g fun c hc => h c (List.mem_cons_of_mem _ hc)
    rw [List.cons_append, scan, hb]
    simp only [List.flatMap_nil, List.any_nil, Bool.false_eq_true, if_false, applyAll, Scan.prepend, ih,
      List.nil_append, List.length_cons]
    rw [show p + 1 + ds.length = p + (ds.length + 1) by omega]

/-- The scan of a size line, whatever is behind it. -/
theorem scan_line (c : Chunk) (tail : Bytes) :
    let r := scan automaton (c.line ++ tail) 0 [main] HttpClientParser.zero
    r.pos = c.line.length ∧ r.ending = .stopped ∧ r.state = behindLine ∧
      r.events = [⟨.chunkSize, c.size.length, [⟨0, distance c.size.length 0⟩]⟩, ⟨.done, c.size.length + 1, []⟩] := by
  obtain ⟨hdigits, hcr, hlf, _, hin, hbehind, hend⟩ := size_evaluated
  have hsize := c.hex
  rw [Chunk.line_length, Chunk.line]
  cases hds : c.size with
  | nil => exact absurd hds c.size_ne
  | cons b ds =>
    rw [hds] at hsize
    have hb := automaton_of_step (hdigits _ (mem_hexDigits (hsize b List.mem_cons_self))).1 hin
    have hcr' : automaton inSize 13 = some (behindSize, Action.chunkSize.effects) :=
      (automaton_of_step (b := 13) hcr hbehind).trans (by rw [List.flatMap_singleton])
    have hlf' : automaton behindSize 10 = some (behindLine, Action.done.effects) :=
      (automaton_of_step (b := 10) hlf hend).trans (by rw [List.flatMap_singleton])
    have hrest := scan_digits (lineEnd ++ tail) ds 1 (applyAll 0 HttpClientParser.zero Action.mark.effects).1
      fun d hd => hsize d (List.mem_cons_of_mem _ hd)
    have hline : b :: ds ++ lineEnd ++ tail = b :: (ds ++ (lineEnd ++ tail)) := by simp
    have hmark : Action.mark.effects.any isStop = false := rfl
    have hchunk : Action.chunkSize.effects.any isStop = false := rfl
    have hdone : Action.done.effects.any isStop = true := rfl
    rw [hline, scan, hb]
    simp only [List.flatMap_singleton, hmark, Bool.false_eq_true, if_false, Nat.zero_add, hrest]
    simp only [lineEnd, List.cons_append, List.nil_append, scan, hcr', hlf', hchunk, hdone, Bool.false_eq_true,
      if_false, if_true, Scan.prepend]
    refine ⟨?_, trivial, trivial, ?_⟩
    · rw [List.length_cons]
      omega
    · rw [List.length_cons, Nat.add_comm 1 ds.length]
      rfl

end HttpClient

theorem Chunk.strtol_line (c : Chunk) (hsize : c.data.length < 2 ^ 31) (rest : Bytes) :
    toInt32 (strtol 16 (c.line ++ rest)) = c.data.length := by
  have hdigits : digits 16 0 (c.line ++ rest) = c.data.length := by
    rw [Chunk.line, List.append_assoc, digits_append _ _ _ c.hex, lineEnd, List.cons_append, digits_stop (by decide),
      c.spells]
  have hhex := c.hex
  rw [Chunk.line] at hdigits ⊢
  cases hs : c.size with
  | nil => exact absurd hs c.size_ne
  | cons b bs =>
    rw [hs] at hdigits hhex
    have hnext : (bs ++ lineEnd ++ rest).headD 0 ≠ 120 ∧ (bs ++ lineEnd ++ rest).headD 0 ≠ 88 := by
      cases bs with
      | nil => exact ⟨(by decide : (13 : UInt8) ≠ 120), (by decide : (13 : UInt8) ≠ 88)⟩
      | cons d ds =>
        obtain ⟨_, _, _, hx, hX⟩ := digitVal_not_sign (hhex d (List.mem_cons_of_mem _ List.mem_cons_self))
        exact ⟨hx, hX⟩
    have hnum : strtol 16 (b :: (bs ++ lineEnd ++ rest)) =
        min (digits 16 0 (b :: (bs ++ lineEnd ++ rest)) : Int) (2 ^ 63 - 1) :=
      strtol_of_digit (hhex b List.mem_cons_self) (.inr hnext)
    rw [List.cons_append, List.cons_append] at hdigits ⊢
    have hmin : min (c.data.length : Int) (2 ^ 63 - 1) = c.data.length := Int.min_eq_left (by omega)
    rw [hnum, hdigits, hmin, toInt32_of_lt hsize]

/-- What the scan of a size line leaves in a new parser. -/
theorem finishRun_line (c : Chunk) (hsize : c.data.length < 2 ^ 31) {m rest : Bytes} (tail : Bytes)
    (hm : m = c.line ++ rest) :
    let q := HttpClientParser.init.finishRun m 0 (scan automaton (c.line ++ tail) 0 [main] HttpClientParser.zero)
    q.contentLen = c.data.length ∧ q.chunksDone = decide (c.data.length = 0) ∧ q.cs = behindLine := by
  intro q
  obtain ⟨_, hending, hstate, hevents⟩ := scan_line c tail
  have hcontent : q.contentLen = c.data.length := by
    have hnum := c.strtol_line hsize rest
    rw [← hm] at hnum
    simp only [q, HttpClientParser.finishRun, hevents]
    exact hnum
  have hflag : q.chunksDone = decide (q.contentLen ≤ 0) := by
    simp only [q, HttpClientParser.finishRun, hevents]
    rfl
  refine ⟨hcontent, ?_, ?_⟩
  · rw [hflag, hcontent]
    exact decide_eq_decide.mpr (by omega)
  · simp only [q, HttpClientParser.finishRun, hending, reduceCtorEq, if_false, hstate]

namespace HttpConnection

/-- A chunk header that is parsed from its start, with `tail` behind it. -/
theorem execute_line (c : Chunk) {p : HttpResponseParser} (herror : p.error = 0) {data tail : Bytes} {len : Nat}
    (hdata : data.take len = c.line ++ tail) (hlen : len ≤ data.length) (hlt : len < 2 ^ 31)
    (hsize : c.data.length < 2 ^ 31) :
    ∃ p' data', execute true p data len = some (c.line.length, p', data') ∧ data'.take tail.length = tail ∧
      p'.data = p.data ∧ p'.error = 0 ∧ p'.hasError = false ∧ p'.isFinished ≠ 0 ∧
      p'.parser.contentLen = c.data.length ∧ p'.parser.chunksDone = decide (c.data.length = 0) := by
  have hlen' : len = c.line.length + tail.length := by
    have h := congrArg List.length hdata
    rw [List.length_take, List.length_append] at h
    omega
  have hline := c.line_length
  obtain ⟨hmt, _, _⟩ := splice_nul hlen
  have hmem : splice data len [0] = c.line ++ (tail ++ (splice data len [0]).drop len) := by
    rw [← List.append_assoc, ← hdata, ← hmt, List.take_append_drop]
  have hexec := HttpClientParser.execute_runs (p := .init) rfl (by omega) hlen hlt
  have hscan : HttpClientParser.init.run data len 0 =
      scan automaton (c.line ++ tail) 0 [main] HttpClientParser.zero := by
    rw [HttpClientParser.run, hdata]
    rfl
  rw [hscan] at hexec
  obtain ⟨hpos, _, _, hevents⟩ := scan_line c tail
  obtain ⟨hcontent, hdone, hcs⟩ := finishRun_line c hsize tail hmem
  obtain ⟨_, _, _, hfinal, _, _, hne⟩ := size_evaluated
  generalize scan automaton (c.line ++ tail) 0 [main] HttpClientParser.zero = r at *
  generalize HttpClientParser.init.finishRun (splice data len [0]) 0 r = q at *
  have hcb : HttpResponseParser.callbacks (splice data len [0]) r.events (p.data, p.error) =
      some (p.data, p.error) := by
    rw [hevents]
    rfl
  have hslice : slice (splice data len [0]) c.line.length (len - c.line.length) = tail := by
    rw [hmem, slice, List.drop_left, hlen', Nat.add_sub_cancel_left, List.take_left]
  refine ⟨{ parser := q, data := p.data, error := p.error }, splice (splice data len [0]) 0 tail, ?_,
    take_splice_start _ _, rfl, herror, ?_, ?_, hcontent, hdone⟩
  · simp only [execute, HttpResponseParser.execute, if_true, hexec, Option.bind_eq_bind, Option.bind_some, hcb, hpos,
      hslice]
  · simp only [HttpResponseParser.hasError, herror, ne_eq, not_true, decide_false, Bool.false_or,
      HttpClientParser.hasError, hcs, decide_eq_false_iff_not]
    exact hne
  · simp only [HttpResponseParser.isFinished, HttpClientParser.finish, HttpClientParser.hasError,
      HttpClientParser.isFinished, hcs, decide_eq_true_eq, hne, if_false, hfinal, if_true]
    decide

/-! ## The buffer and the connection -/

/-- At offset `B` of what follows the header block, `rest` is still to be parsed: `len` bytes
    of it are in the buffer. `cuts` are the ends of the reads. -/
structure Holding (buffSize : BufferSize) (cuts : List Nat) (B : Nat) (rest : Bytes) (ps : List Bytes) (data : Bytes)
    (len : Nat) : Prop where
  reads : Reads buffSize ps
  len_le : len ≤ data.length
  fits : len ≤ buffSize.val
  bytes : data.take len ++ ps.flatten = rest
  buffered : 0 < len → B + len ∈ cuts
  pending : ∀ x ∈ ends (B + len) ps, x ∈ cuts

variable {buffSize : BufferSize} {cuts : List Nat} {B len : Nat} {rest data : Bytes} {ps : List Bytes}

theorem Holding.pieces_ne (h : Holding buffSize cuts B rest ps data len) : ∀ p ∈ ps, p ≠ [] :=
  fun p hp => (h.reads p hp).1

/-- What arrived, when it is at least the `front` that is parsed next. -/
theorem arrived_split {arrived more front back : Bytes} (h : arrived ++ more = front ++ back)
    (hlen : front.length ≤ arrived.length) :
    arrived = front ++ arrived.drop front.length ∧ arrived.drop front.length ++ more = back := by
  have htake := congrArg (List.take front.length) h
  have hdrop := congrArg (List.drop front.length) h
  rw [List.take_append_of_le_length hlen, List.take_left] at htake
  rw [List.drop_append_of_le_length hlen, List.drop_left] at hdrop
  have hsplit := List.take_append_drop front.length arrived
  rw [htake] at hsplit
  exact ⟨hsplit.symm, hdrop⟩

/-- The first `n` of `len` bytes have been parsed, and `tail` moved to the buffer's start. -/
theorem Holding.parsed {n : Nat} {tail : Bytes} (hreads : Reads buffSize ps) (hfits : len ≤ buffSize.val)
    (hn : n + tail.length = len) (hdata : data.take tail.length = tail) (hbytes : tail ++ ps.flatten = rest)
    (hcut : B + len ∈ cuts) (hpending : ∀ x ∈ ends (B + len) ps, x ∈ cuts) :
    Holding buffSize cuts (B + n) rest ps data (len - n) := by
  have htail : len - n = tail.length := by omega
  have hend : B + n + tail.length = B + len := by omega
  rw [htail]
  refine ⟨hreads, ?_, by omega, ?_, fun _ => ?_, ?_⟩
  · have hlen := congrArg List.length hdata
    rw [List.length_take] at hlen
    omega
  · rw [hdata]
    exact hbytes
  · rw [hend]
    exact hcut
  · rw [hend]
    exact hpending

/-- What a chunk header's loop is to do with `arrived` bytes, the size line among them. -/
theorem recvChunkHeader_arrived (c : Chunk) {p : HttpResponseParser} (herror : p.error = 0) {arrived tail : Bytes}
    (hsize : c.data.length < 2 ^ 31) (hdata : data.take len = arrived) (hlen : len ≤ data.length)
    (hfits : len ≤ buffSize.val) (harrived : arrived = c.line ++ tail) :
    ∃ p' data', execute true p data len = some (c.line.length, p', data') ∧ p'.hasError = false ∧ p'.isFinished ≠ 0 ∧
      ¬ ((len - c.line.length : Nat) : Int) = toInt32 buffSize.val ∧ len - c.line.length = tail.length ∧
      data'.take tail.length = tail ∧ p'.data = p.data ∧ p'.error = 0 ∧ p'.parser.contentLen = c.data.length ∧
      p'.parser.chunksDone = decide (c.data.length = 0) := by
  have hline := c.line_length
  subst harrived
  obtain ⟨p', data', hexec, htail, hpdata, hperror, hhas, hfin, hcontent, hdone⟩ :=
    execute_line c herror hdata hlen (Nat.lt_of_le_of_lt hfits buffSize.lt) hsize
  have htotal := congrArg List.length hdata
  rw [List.length_take, List.length_append] at htotal
  exact ⟨p', data', hexec, hhas, hfin, by rw [toInt32_of_lt buffSize.lt]; omega, by omega, htail, hpdata, hperror,
    hcontent, hdone⟩

theorem recvChunkHeader_buffered {I : HeaderParser HttpResponseParser} {N n : Nat} (fuel : Nat) (sock : Socket)
    {p p' : HttpResponseParser} {data data' : Bytes} {len : Nat} (h0 : len ≠ 0)
    (hexec : I.execute p data len = some (n, p', data')) (hhas : I.hasError p' = false)
    (hfull : ¬ ((len - n : Nat) : Int) = toInt32 N) (hfin : I.isFinished p' ≠ 0) :
    recvChunkHeader I N (fuel + 1) true sock p data len = some (some (p', data', len - n), sock) := by
  have hbegin : ¬ (¬ (true = true) ∨ len = 0) := by simp [h0]
  rw [recvChunkHeader, if_neg hbegin]
  dsimp only
  rw [hexec]
  dsimp only
  rw [hhas, if_neg Bool.false_ne_true, if_neg hfull, if_pos hfin]

theorem recvChunkHeader_read {I : HeaderParser HttpResponseParser} {N n : Nat} (fuel : Nat) {q : Bytes} (hq : q ≠ [])
    (hqle : q.length ≤ N) (ps : List Bytes) {p p' : HttpResponseParser} {data data' : Bytes}
    (hexec : I.execute p (splice data 0 q) q.length = some (n, p', data'))
    (hhas : I.hasError p' = false) (hfull : ¬ ((q.length - n : Nat) : Int) = toInt32 N) (hfin : I.isFinished p' ≠ 0) :
    recvChunkHeader I N (fuel + 1) true (Socket.of (q :: ps)) p data 0 =
      some (some (p', data', q.length - n), Socket.of ps) := by
  have hread : (Socket.of (q :: ps)).read (N - 0) = (some q, Socket.of ps) := Socket.read_cons hqle ps
  cases q with
  | nil => exact absurd rfl hq
  | cons b bs =>
    rw [recvChunkHeader, if_pos (.inr rfl), hread]
    dsimp only
    rw [Nat.zero_add, hexec]
    dsimp only
    rw [hhas, if_neg Bool.false_ne_true, if_neg hfull, if_pos hfin]

/-- The loop that reads a chunk header, when no read ends inside the size line. -/
theorem recvChunkHeader_line {c : Chunk} (h : Holding buffSize cuts B (c.line ++ rest) ps data len)
    (huncut : ∀ x ∈ cuts, ¬ (B < x ∧ x < B + c.line.length)) (hsize : c.data.length < 2 ^ 31) {p : HttpResponseParser}
    (herror : p.error = 0) (fuel : Nat) :
    ∃ p' data' len' ps', recvChunkHeader chunkParser buffSize.val (fuel + 1) true (Socket.of ps) p data len =
        some (some (p', data', len'), Socket.of ps') ∧ Holding buffSize cuts (B + c.line.length) rest ps' data' len' ∧
      p'.data = p.data ∧ p'.error = 0 ∧ p'.parser.contentLen = c.data.length ∧
      p'.parser.chunksDone = decide (c.data.length = 0) := by
  have hline := c.line_length
  obtain ⟨hreads, hlenle, hfits, hbytes, hbuffered, hpending⟩ := h
  by_cases h0 : len = 0
  · -- one read brings the line
    subst h0
    cases ps with
    | nil =>
      have := congrArg List.length hbytes
      rw [List.take_zero, List.flatten_nil, List.append_nil, List.length_nil, List.length_append] at this
      omega
    | cons q ps =>
      obtain ⟨hq0, hqle⟩ := hreads q List.mem_cons_self
      have hqpos : 0 < q.length := List.length_pos_iff.mpr hq0
      have hqcut : B + q.length ∈ cuts := hpending _ List.mem_cons_self
      have hlong := huncut _ hqcut
      rw [List.take_zero, List.nil_append, List.flatten_cons] at hbytes
      obtain ⟨hq, hrest⟩ := arrived_split hbytes (by omega)
      obtain ⟨p', data', hexec, hhas, hfin, hfull, hlen', htail, hpdata, hperror, hcontent, hdone⟩ :=
        recvChunkHeader_arrived c herror hsize (take_splice_start data q)
          (length_le_splice data 0 q) hqle hq
      have hreads' : Reads buffSize ps := fun r hr => hreads r (List.mem_cons_of_mem _ hr)
      have hpending' : ∀ x ∈ ends (B + q.length) ps, x ∈ cuts := fun x hx =>
        hpending x (List.mem_cons_of_mem _ hx)
      have hheld : Holding buffSize cuts (B + c.line.length) rest ps data' (q.length - c.line.length) :=
        .parsed hreads' hqle (by omega) htail hrest hqcut hpending'
      refine ⟨p', data', q.length - c.line.length, ps, ?_, hheld, hpdata, hperror, hcontent, hdone⟩
      exact recvChunkHeader_read (I := chunkParser) fuel hq0 hqle ps hexec hhas hfull hfin
  · -- it is in the buffer
    have hcut := hbuffered (Nat.pos_of_ne_zero h0)
    have hlong := huncut _ hcut
    have htaken : (data.take len).length = len := List.length_take_of_le hlenle
    obtain ⟨hbuf, hrest⟩ := arrived_split hbytes (by omega)
    obtain ⟨p', data', hexec, hhas, hfin, hfull, hlen', htail, hpdata, hperror, hcontent, hdone⟩ :=
      recvChunkHeader_arrived c herror hsize (rfl : data.take len = data.take len) hlenle hfits hbuf
    have hheld : Holding buffSize cuts (B + c.line.length) rest ps data' (len - c.line.length) :=
      .parsed hreads hfits (by omega) htail hrest hcut hpending
    refine ⟨p', data', len - c.line.length, ps, ?_, hheld, hpdata, hperror, hcontent, hdone⟩
    exact recvChunkHeader_buffered (I := chunkParser) fuel _ h0 hexec hhas hfull hfin

/-! ## The data of a chunk -/

theorem recvLeft_pending {N : Nat} (hN : 0 < N) : ∀ (fuel left : Nat) {ps : List Bytes} (body data : Bytes),
    (∀ p ∈ ps, p ≠ []) → left ≤ fuel → left ≤ ps.flatten.length →
    ∃ data', recvLeft N fuel (Socket.of ps) left body data =
      some (some (body ++ ps.flatten.take left, data'), Socket.of (dropFront left ps)) := by
  intro fuel
  induction fuel with
  | zero =>
    intro left ps body data _ hfuel _
    have h0 : left = 0 := by omega
    subst h0
    exact ⟨data, by rw [recvLeft, List.take_zero, List.append_nil, dropFront_zero]⟩
  | succ fuel ih =>
    intro left ps body data hne hfuel hleft
    cases left with
    | zero => exact ⟨data, by rw [recvLeft, List.take_zero, List.append_nil, dropFront_zero]⟩
    | succ left =>
      have hps : ps ≠ [] := by
        rintro rfl
        rw [List.flatten_nil, List.length_nil] at hleft
        omega
      obtain ⟨n, hn0, hn, hlen, hread⟩ := Socket.read_pending hne hps (k := min (left + 1) N) (by omega)
      have hflat := flatten_dropFront n hne
      have hbs : (ps.flatten.take n).length = n := List.length_take_of_le hlen
      obtain ⟨data', hrest⟩ := ih (left + 1 - n) (body ++ ps.flatten.take n) (splice data 0 (ps.flatten.take n))
        (dropFront_ne_nil n hne) (by omega) (by rw [hflat, List.length_drop]; omega)
      refine ⟨data', ?_⟩
      rw [recvLeft, hread]
      cases hcase : ps.flatten.take n with
      | nil =>
        rw [hcase, List.length_nil] at hbs
        omega
      | cons b bs =>
        rw [hcase] at hbs hrest
        dsimp only
        rw [hbs, hrest, hflat, ← dropFront_add n _ hne, List.append_assoc, ← hcase, ← List.take_add,
          show n + (left + 1 - n) = left + 1 by omega]

/-- A chunk's data and its line end, from the buffer and the connection. -/
theorem recvChunkData_pending {bytes : Bytes} (h : Holding buffSize cuts B (bytes ++ lineEnd ++ rest) ps data len)
    (hsize : bytes.length + 2 < 2 ^ 31) (body : Bytes) :
    ∃ data' len' ps', recvChunkData buffSize.val bytes.length (Socket.of ps) data len body =
        some (some (body ++ bytes, data', len'), Socket.of ps') ∧
      Holding buffSize cuts (B + (bytes.length + 2)) rest ps' data' len' := by
  have hne := h.pieces_ne
  obtain ⟨hreads, hlenle, hfits, hbytes, hbuffered, hpending⟩ := h
  have htaken : (data.take len).length = len := List.length_take_of_le hlenle
  have hlineEnd : (bytes ++ lineEnd).length = bytes.length + 2 := List.length_append
  have hok : ¬ 2 ^ 31 ≤ (bytes.length : Int) + 2 := by omega
  have hnonneg : ¬ (bytes.length : Int) < 0 := by omega
  have hwithin : ((bytes.length : Int) + 2 ≤ len) = (bytes.length + 2 ≤ len) := propext (by omega)
  by_cases hfast : bytes.length + 2 ≤ len
  · -- all of it is in the buffer
    obtain ⟨hbuf, hrest⟩ := arrived_split hbytes (by omega)
    rw [hlineEnd] at hbuf hrest
    have hslice : slice data (bytes.length + 2) (len - bytes.length - 2) = (data.take len).drop (bytes.length + 2) := by
      rw [slice, List.drop_take, Nat.sub_sub]
    have htail : ((data.take len).drop (bytes.length + 2)).length = len - (bytes.length + 2) := by
      rw [List.length_drop, htaken]
    have hdata : data.take bytes.length = bytes := by
      have htake := congrArg (List.take bytes.length) hbuf
      rw [List.take_take, Nat.min_eq_left (by omega), List.append_assoc, List.take_left] at htake
      exact htake
    refine ⟨splice data 0 ((data.take len).drop (bytes.length + 2)), len - (bytes.length + 2), ps, ?_, ?_⟩
    · simp only [recvChunkData, if_neg hok, if_neg hnonneg, hwithin, Int.toNat_natCast, if_pos hfast, hslice, hdata]
    · exact .parsed hreads hfits (by omega) (take_splice_start _ _) hrest (hbuffered (by omega)) hpending
  · -- what the buffer lacks is read, the line end with it
    have htotal := congrArg List.length hbytes
    rw [List.length_append, List.length_append, hlineEnd, htaken] at htotal
    have hleft : bytes.length + 2 - len ≤ ps.flatten.length := by omega
    obtain ⟨data', hrecv⟩ := recvLeft_pending buffSize.pos (bytes.length + 2 - len) (bytes.length + 2 - len)
      (body ++ data.take len) data hne (Nat.le_refl _) hleft
    have hall : data.take len ++ ps.flatten.take (bytes.length + 2 - len) = bytes ++ lineEnd := by
      have htake := congrArg (List.take (bytes.length + 2)) hbytes
      rw [List.take_append, htaken, List.take_of_length_le (by omega), List.take_left' hlineEnd] at htake
      exact htake
    have hrest : (dropFront (bytes.length + 2 - len) ps).flatten = rest := by
      have hdrop := congrArg (List.drop (bytes.length + 2)) hbytes
      rw [List.drop_append, htaken, List.drop_of_length_le (by omega), List.nil_append, List.drop_left' hlineEnd]
        at hdrop
      rw [flatten_dropFront _ hne, hdrop]
    refine ⟨data', 0, dropFront (bytes.length + 2 - len) ps, ?_, ?_, Nat.zero_le _, Nat.zero_le _, ?_,
      fun h0 => absurd h0 (Nat.lt_irrefl 0), ?_⟩
    · have hbody : body ++ data.take len ++ ps.flatten.take (bytes.length + 2 - len) = body ++ bytes ++ lineEnd := by
        rw [List.append_assoc, hall, List.append_assoc]
      have htrim : (body ++ bytes ++ lineEnd).take ((body ++ bytes ++ lineEnd).length - 2) = body ++ bytes := by
        rw [List.length_append, show lineEnd.length = 2 from rfl, Nat.add_sub_cancel, List.take_left]
      have hmissing : ((bytes.length : Int) + 2 - len).toNat = bytes.length + 2 - len := by omega
      have henough : ¬ (body ++ bytes ++ lineEnd).length < 2 := by
        rw [List.length_append]
        exact Nat.not_lt.mpr (Nat.le_add_left 2 _)
      rw [hbody] at hrecv
      simp only [recvChunkData, if_neg hok, hwithin, hmissing, if_neg hfast, hrecv, if_neg henough, htrim]
    · refine mem_dropFront (P := fun p => p ≠ [] ∧ p.length ≤ buffSize.val) (fun p n hn hp => ⟨?_, ?_⟩) _ hne hreads
      · rw [← List.length_pos_iff, List.length_drop]
        omega
      · rw [List.length_drop]
        omega
    · rw [List.take_zero, List.nil_append, hrest]
    · intro x hx
      refine hpending x (ends_dropFront (bytes.length + 2 - len) hne hleft x ?_)
      rwa [show B + len + (bytes.length + 2 - len) = B + (bytes.length + 2) + 0 by omega]

/-! ## All the chunks -/

/-- From offset `B` on, no read ends inside a size line. -/
def LinesUncut (cuts : List Nat) : Nat → List Chunk → Prop
  | _, [] => True
  | B, c :: cs => (∀ x ∈ cuts, ¬ (B < x ∧ x < B + c.line.length)) ∧ LinesUncut cuts (B + c.wire.length) cs

instance decidableLinesUncut (cuts : List Nat) : ∀ (B : Nat) (cs : List Chunk), Decidable (LinesUncut cuts B cs)
  | _, [] => .isTrue trivial
  | B, c :: cs =>
    have := decidableLinesUncut cuts (B + c.wire.length) cs
    inferInstanceAs (Decidable ((∀ x ∈ cuts, ¬ (B < x ∧ x < B + c.line.length)) ∧ LinesUncut cuts _ cs))

/-- One turn of the chunk loop. -/
theorem recvChunks_chunk {c : Chunk} (h : Holding buffSize cuts B (c.wire ++ rest) ps data len)
    (huncut : ∀ x ∈ cuts, ¬ (B < x ∧ x < B + c.line.length)) (hsize : c.data.length + 2 < 2 ^ 31)
    {p : HttpResponseParser} (herror : p.error = 0) (fuel : Nat) (body : Bytes) :
    ∃ p' data' len' ps', recvChunks chunkParser buffSize.val (fuel + 1) (Socket.of ps) p data len body =
        (if c.data.length = 0 then some (some (p', body ++ c.data), Socket.of ps')
          else recvChunks chunkParser buffSize.val fuel (Socket.of ps') p' data' len' (body ++ c.data)) ∧
      Holding buffSize cuts (B + c.wire.length) rest ps' data' len' ∧ p'.data = p.data ∧ p'.error = 0 := by
  have hwire : c.wire ++ rest = c.line ++ (c.data ++ lineEnd ++ rest) := by
    rw [Chunk.wire, List.append_assoc]
  rw [hwire] at h
  obtain ⟨p', data₁, len₁, ps₁, hheader, hheld, hpdata, hperror, hcontent, hdone⟩ :=
    recvChunkHeader_line h huncut (by omega) herror ((Socket.of ps).rest.length + 1)
  obtain ⟨data', len', ps', hchunk, hheld'⟩ := recvChunkData_pending hheld hsize body
  rw [Nat.add_assoc, ← Chunk.wire_length] at hheld'
  refine ⟨p', data', len', ps', ?_, hheld', hpdata, hperror⟩
  rw [recvChunks, hheader]
  dsimp only
  rw [hcontent, hchunk]
  dsimp only
  rw [hdone]
  simp only [decide_eq_true_eq]

/-- The chunk loop reads chunks with data until one that has none. -/
theorem recvChunks_all {last : Chunk} (hlast : last.data = []) {after : Bytes} : ∀ (cs : List Chunk) {B len fuel : Nat}
    {ps : List Bytes} {data : Bytes} {p : HttpResponseParser} (body : Bytes),
    (∀ c ∈ cs, c.data ≠ [] ∧ c.data.length + 2 < 2 ^ 31) → cs.length < fuel → p.error = 0 →
    Holding buffSize cuts B ((cs ++ [last]).flatMap Chunk.wire ++ after) ps data len →
    LinesUncut cuts B (cs ++ [last]) →
    ∃ p' ps', recvChunks chunkParser buffSize.val fuel (Socket.of ps) p data len body =
        some (some (p', body ++ cs.flatMap Chunk.data), Socket.of ps') ∧
      p'.data = p.data ∧ ∃ used, used ++ ps'.flatten = after := by
  intro cs
  induction cs with
  | nil =>
    intro B len fuel ps data p body _ hfuel herror hheld huncut
    cases fuel with
    | zero => exact absurd hfuel (Nat.not_lt_zero _)
    | succ fuel =>
      rw [List.nil_append, List.flatMap_singleton] at hheld
      have hzero : last.data.length = 0 := by rw [hlast, List.length_nil]
      obtain ⟨p', data', len', ps', hrun, hheld', hpdata, _⟩ :=
        recvChunks_chunk hheld huncut.1 (by omega) herror fuel body
      rw [if_pos hzero, hlast] at hrun
      exact ⟨p', ps', hrun, hpdata, data'.take len', hheld'.bytes⟩
  | cons c cs ih =>
    intro B len fuel ps data p body hcs hfuel herror hheld huncut
    cases fuel with
    | zero => exact absurd hfuel (Nat.not_lt_zero _)
    | succ fuel =>
      rw [List.cons_append, List.flatMap_cons, List.append_assoc] at hheld
      obtain ⟨hne, hsize⟩ := hcs c List.mem_cons_self
      have hpos : c.data.length ≠ 0 := fun h => hne (List.length_eq_zero_iff.mp h)
      obtain ⟨p₁, data₁, len₁, ps₁, hrun, hheld', hpdata, hperror⟩ :=
        recvChunks_chunk hheld huncut.1 hsize herror fuel body
      rw [if_neg hpos] at hrun
      obtain ⟨p', ps', hrest, hdata, hused⟩ := ih (body ++ c.data) (fun d hd => hcs d (List.mem_cons_of_mem _ hd))
        (Nat.lt_of_succ_lt_succ hfuel) hperror hheld' huncut.2
      rw [List.append_assoc, ← List.flatMap_cons] at hrest
      exact ⟨p', ps', hrun.trans hrest, hdata.trans hpdata, hused⟩

theorem length_le_wires : ∀ (cs : List Chunk), cs.length ≤ (cs.flatMap Chunk.wire).length
  | [] => Nat.le_refl _
  | c :: cs => by
    have := length_le_wires cs
    have := c.wire_length
    rw [List.flatMap_cons, List.length_append, List.length_cons]
    omega

/-- What `recvResponse` does behind the header block of a chunked response. -/
theorem recvResponse_chunked {sock : Socket} {buffer : Bytes} {p : HttpResponseParser} {offset : Nat}
    {later : List Bytes} {after : Bytes} {cs : List Chunk} {last : Chunk}
    (h : recvHeader headerParser buffSize.val (sock.rest.length + 1) sock .new buffer 0 =
      some (some (p, data, offset), Socket.of later)) (hchunked : p.parser.chunked = true) (herror : p.error = 0)
    (hcs : ∀ c ∈ cs, c.data ≠ [] ∧ c.data.length + 2 < 2 ^ 31) (hlast : last.data = [])
    (hheld : Holding buffSize cuts 0 ((cs ++ [last]).flatMap Chunk.wire ++ after) later data offset)
    (huncut : LinesUncut cuts 0 (cs ++ [last])) :
    ∃ r sock', recvResponse buffSize buffer sock = some (some r, sock') ∧ r.body = cs.flatMap Chunk.data ∧
      ∃ used, used ++ sock'.rest = after := by
  have hfuel : cs.length < offset + (Socket.of later).rest.length + 1 := by
    have htotal := congrArg List.length hheld.bytes
    have hlen := hheld.len_le
    have := length_le_wires (cs ++ [last])
    rw [List.length_append, List.length_append, List.length_take] at htotal
    rw [List.length_append, List.length_singleton] at this
    rw [Socket.rest_of]
    omega
  obtain ⟨p', ps', hrun, hdata, hused⟩ := recvChunks_all hlast cs [] hcs hfuel herror hheld huncut
  rw [List.nil_append] at hrun
  refine ⟨{ p'.data with body := cs.flatMap Chunk.data }, Socket.of ps', ?_, rfl, hused⟩
  unfold recvResponse
  rw [h, Option.bind_eq_bind, Option.bind_some]
  dsimp only
  rw [hchunked, if_pos rfl, hrun, Option.bind_eq_bind, Option.bind_some]

end HttpConnection

/-- Chunks with data and the last one without, behind a header block that comes in one read
    or in reads that cut none of its tokens: if no read ends inside a size line, the response
    has the chunks' data, and all the chunks have been read. -/
theorem chunks_decoded (buffSize : BufferSize) (buffer : Bytes) {front : List Bytes} {tail extra : Bytes}
    {later : List Bytes} {p₁ : HttpResponseParser}
    (haccepts : ScanParser.Accepts HttpConnection.headerParser .new (front.flatten ++ tail) p₁)
    (hchunked : p₁.parser.chunked = true) (htail : tail ≠ [])
    (hheader : front = [] ∨ HttpConnection.Uncut (front ++ [tail]))
    (hreads : Reads buffSize (front ++ (tail ++ extra) :: later)) {cs : List Chunk} {last : Chunk} {after : Bytes}
    (hcs : ∀ c ∈ cs, c.data ≠ [] ∧ c.data.length + 2 < 2 ^ 31) (hlast : last.data = [])
    (hbytes : extra ++ later.flatten = (cs ++ [last]).flatMap Chunk.wire ++ after)
    (huncut : HttpConnection.LinesUncut (ends 0 (extra :: later)) 0 (cs ++ [last])) :
    ∃ r sock, HttpConnection.recvResponse buffSize buffer (Socket.of (front ++ (tail ++ extra) :: later)) =
        some (some r, sock) ∧ r.body = cs.flatMap Chunk.data ∧ ∃ used, used ++ sock.rest = after := by
  have hfront : ∀ piece ∈ front, piece ≠ [] ∧ piece.length ≤ buffSize.val := fun piece hp =>
    hreads piece (List.mem_append_left _ hp)
  have hlater : Reads buffSize later := fun piece hp =>
    hreads piece (List.mem_append_right _ (List.mem_cons_of_mem _ hp))
  obtain ⟨_, hfits⟩ := hreads _ (List.mem_append_right front List.mem_cons_self)
  have hreceived : ∃ p data, recvHeader HttpConnection.headerParser buffSize.val
      ((Socket.of (front ++ (tail ++ extra) :: later)).rest.length + 1)
        (Socket.of (front ++ (tail ++ extra) :: later)) .new buffer 0 =
          some (some (p, data, extra.length), Socket.of later) ∧
      p.parser.chunked = true ∧ p.error = 0 ∧ data.take extra.length = extra := by
    rcases hheader with rfl | hheader
    · obtain ⟨p, data, hrecv, hp, _, herror, hdata⟩ := HttpConnection.recvHeader_block haccepts hfits later buffer
        (Socket.of ([] ++ (tail ++ extra) :: later)).rest.length
      exact ⟨p, data, hrecv, hp.trans hchunked, herror, hdata⟩
    · have hfuel : front.length < (Socket.of (front ++ (tail ++ extra) :: later)).rest.length + 1 := by
        have := length_le_flatten fun piece hp => (hfront piece hp).1
        simp only [Socket.rest_of, List.flatten_append, List.length_append]
        omega
      obtain ⟨p, data, hrecv, hp, hdata⟩ := response_implements.recvHeader_pieces response_ready_new haccepts
        (response_stable _ _) rfl htail hfront hheader extra hfits later buffer hfuel
      obtain ⟨_, _, _, _, herror⟩ := response_implements.accepts_scan response_ready_new haccepts
      obtain ⟨hresult, hflag⟩ := Prod.mk.inj hp
      have herror₁ : p₁.error = 0 := by simpa [responseScan] using herror
      exact ⟨p, data, hrecv, hflag.trans hchunked, (Prod.mk.inj hresult).2.trans herror₁, hdata⟩
  obtain ⟨p, data, hrecv, hp, herror, hdata⟩ := hreceived
  have hextra : extra.length ≤ data.length := by
    have := congrArg List.length hdata
    rw [List.length_take] at this
    omega
  refine HttpConnection.recvResponse_chunked hrecv hp herror hcs hlast
    ⟨hlater, hextra, ?_, ?_, fun _ => ?_, fun x hx => ?_⟩ huncut
  · rw [List.length_append] at hfits
    omega
  · rw [hdata, hbytes]
  · exact List.mem_cons_self
  · exact List.mem_cons_of_mem _ hx

/-- `HTTP/1.1 200 OK` with the header of a chunked response. -/
def okChunked : Bytes :=
  bytes ['H', 'T', 'T', 'P', '/', '1', '.', '1', ' ', '2', '0', '0', ' ', 'O', 'K', '\n', 'T', 'r', 'a', 'n', 's', 'f',
    'e', 'r', '-', 'E', 'n', 'c', 'o', 'd', 'i', 'n', 'g', ':', ' ', 'c', 'h', 'u', 'n', 'k', 'e', 'd', '\n', '\n']

def chunkHello : Chunk :=
  ⟨bytes ['5'], bytes ['h', 'e', 'l', 'l', 'o'], by decide, List.all_eq_true.mp (by decide), by decide⟩

def chunkEnd : Chunk := ⟨bytes ['0'], [], by decide, List.all_eq_true.mp (by decide), by decide⟩

/-- The chunk's data is cut in two, and both line ends. -/
theorem chunks_decoded_hello : ∃ r sock, HttpConnection.recvResponse ⟨4096, by decide, by decide⟩ []
    (Socket.of [okChunked ++ bytes ['5', '\r', '\n', 'h'], bytes ['e', 'l', 'l', 'o', '\r'],
      bytes ['\n', '0', '\r', '\n', '\r'], bytes ['\n']]) = some (some r, sock) ∧
        r.body = [chunkHello].flatMap Chunk.data ∧ ∃ used, used ++ sock.rest = [] := by
  obtain ⟨p, haccepts, hp⟩ := ScanParser.Accepts.of_check (I := HttpConnection.headerParser) (p := .new)
    (R := okChunked) (by decide) (fun p => p.parser.chunked) (by decide +kernel)
  exact @chunks_decoded ⟨4096, by decide, by decide⟩ [] [] okChunked _ _ p haccepts hp (by decide) (.inl rfl)
    (by decide) [chunkHello] chunkEnd [] (by decide) rfl (by decide) (by decide)

/-- A read ends behind the `1` of the size line `1`: the connection is closed. -/
theorem size_line_cut : ¬ ∃ r sock, HttpConnection.recvResponse ⟨4096, by decide, by decide⟩ []
    (Socket.of [okChunked, bytes ['1'], bytes ['\r', '\n', 'x', '\r', '\n', '0', '\r', '\n', '\r', '\n']]) =
      some (some r, sock) ∧ r.body = bytes ['x'] := by
  intro ⟨r, sock, hr, _⟩
  have hnull : (HttpConnection.recvResponse ⟨4096, by decide, by decide⟩ [] (Socket.of [okChunked, bytes ['1'],
      bytes ['\r', '\n', 'x', '\r', '\n', '0', '\r', '\n', '\r', '\n']])).all (fun r => r.1.isNone) = true := by
    decide +kernel
  rw [hr] at hnull
  cases hnull

end LjrServer.Http
