/-
  LjrServer.Http.HeaderLoop — the loop that reads a header block, for a parser that scans
  its buffer and then calls back.

  Proved:
  - `recvHeader_pieces`: a block the parser accepts in one call, read in pieces none of
    which cuts a token that is called back, leaves the parser with the data of the one call,
    and what arrived behind the block in the buffer.
-/

import LjrServer.Lib.Offsets
import LjrServer.Lib.Tokens
import LjrServer.Http.Reading

namespace LjrServer.Http

open LjrServer.Lib LjrServer.Lib.Scanner

variable {P Q σ ρ κ : Type} [DecidableEq ρ] {I : HeaderParser P}

/-! ## Parsers that scan -/

/-- How a parser scans: the state a call starts from, the registers it starts with, and
    what the callbacks do to its data. -/
structure ScanParser (P Q σ ρ κ : Type) where
  automaton : Automaton σ ρ κ
  final : σ → Bool
  /-- The callbacks that keep something of what they are given. -/
  recorded : κ → Bool
  callback : Bytes → Event κ → Q → Option Q
  error : Q → Bool
  /-- The memory the callbacks point into. -/
  memory : Bytes → Nat → Bytes
  state : P → σ
  regs : P → Regs ρ
  data : P → Q
  /-- The parser when the callbacks have left this data. -/
  after : P → Bytes → Nat → Q → P
  /-- Between the calls that read a block. -/
  ready : P → Prop

namespace ScanParser

variable (S : ScanParser P Q σ ρ κ)

def scanned (p : P) (data : Bytes) (len : Nat) : Scan σ ρ κ :=
  scan S.automaton (data.take len) 0 (S.state p) (S.regs p)

def callbacks (m : Bytes) : List (Event κ) → Q → Option Q
  | [], q => some q
  | e :: es, q => (S.callback m e q).bind (callbacks m es)

/-- `I.execute` is this scan and these callbacks. -/
structure Implements (S : ScanParser P Q σ ρ κ) (I : HeaderParser P) : Prop where
  error_stays {m : Bytes} {e : Event κ} {q r : Q} : S.callback m e q = some r → S.error q = true → S.error r = true
  memory_take {data : Bytes} {len : Nat} : len ≤ data.length →
    (S.memory data len).take len = data.take len ∧ len ≤ (S.memory data len).length
  execute_eq {p : P} {data : Bytes} {len : Nat} : S.ready p → 0 < len → len ≤ data.length → len < 2 ^ 31 →
    I.execute p data len =
      (S.callbacks (S.memory data len) (S.scanned p data len).events (S.data p)).map fun q =>
        ((S.scanned p data len).pos, S.after p data len q,
          splice (S.memory data len) 0
            (slice (S.memory data len) (S.scanned p data len).pos (len - (S.scanned p data len).pos)))
  execute_lt {p : P} {data : Bytes} {len : Nat} : (I.execute p data len).isSome = true → len < 2 ^ 31
  hasError {p : P} {data : Bytes} {len : Nat} {q : Q} : S.ready p →
    (I.hasError (S.after p data len q) = true ↔ S.error q = true ∨ (S.scanned p data len).ending = .error)
  isFinished {p : P} {data : Bytes} {len : Nat} {q : Q} : S.ready p → (S.scanned p data len).ending ≠ .error →
    (I.isFinished (S.after p data len q) ≠ 0 ↔ S.final (S.scanned p data len).state = true)
  data_after {p : P} {data : Bytes} {len : Nat} {q : Q} : S.data (S.after p data len q) = q
  state_after {p : P} {data : Bytes} {len : Nat} {q : Q} : (S.scanned p data len).ending ≠ .error →
    S.state (S.after p data len q) = (S.scanned p data len).state
  ready_after {p : P} {data : Bytes} {len : Nat} {q : Q} : S.ready p → 0 < len → len ≤ data.length →
    (S.scanned p data len).ending = .more →
    S.ready (S.after p data len q) ∧ S.final (S.scanned p data len).state = false

variable {S}

omit [DecidableEq ρ] in
theorem callbacks_append (m : Bytes) : ∀ (es fs : List (Event κ)) (q : Q),
    S.callbacks m (es ++ fs) q = (S.callbacks m es q).bind (S.callbacks m fs)
  | [], _, _ => rfl
  | e :: es, fs, q => by
    rw [List.cons_append, callbacks, callbacks, Option.bind_assoc]
    exact congrArg _ (funext fun q => callbacks_append m es fs q)

omit [DecidableEq ρ] in
theorem callbacks_mem {m : Bytes} {e : Event κ} : ∀ {es : List (Event κ)} {q r : Q}, S.callbacks m es q = some r → e ∈ es →
    ∃ q r, S.callback m e q = some r
  | [], _, _, _, he => by cases he
  | f :: es, q, r, h, he => by
    obtain ⟨q', hq', h⟩ := Option.bind_eq_some_iff.mp h
    rcases List.mem_cons.mp he with rfl | he
    · exact ⟨q, q', hq'⟩
    · exact callbacks_mem h he

omit [DecidableEq ρ] in
/-- What no callback changes. -/
theorem callbacks_keep {β : Type} {f : Q → β} {m : Bytes} (hkeep : ∀ e q r, S.callback m e q = some r → f r = f q) :
    ∀ {es : List (Event κ)} {q r : Q}, S.callbacks m es q = some r → f r = f q
  | [], _, _, h => by
    cases h
    rfl
  | e :: es, q, r, h => by
    obtain ⟨q', hq', h⟩ := Option.bind_eq_some_iff.mp h
    rw [callbacks_keep hkeep h, hkeep e q q' hq']

theorem Implements.callbacks_error (hS : S.Implements I) {m : Bytes} : ∀ {es : List (Event κ)} {q r : Q},
    S.callbacks m es q = some r → S.error q = true → S.error r = true
  | [], _, _, h, hq => by
    cases h
    exact hq
  | e :: es, q, r, h, hq => by
    obtain ⟨q', he, h⟩ := Option.bind_eq_some_iff.mp h
    exact hS.callbacks_error h (hS.error_stays he hq)

/-! ## One call -/

/-- The parser accepts `R` in one call, with nothing left over. -/
structure Accepts (I : HeaderParser P) (p : P) (R : Bytes) (p' : P) : Prop where
  nonempty : R ≠ []
  execute : (I.execute p R R.length).map (fun r => (r.1, r.2.1)) = some (R.length, p')
  noError : I.hasError p' = false
  finished : I.isFinished p' ≠ 0

theorem Accepts.of_check {p : P} {R : Bytes} (hne : R ≠ []) (f : P → Bool)
    (h : (I.execute p R R.length).any (fun r =>
      decide (r.1 = R.length) && !I.hasError r.2.1 && decide (I.isFinished r.2.1 ≠ 0) && f r.2.1) = true) :
    ∃ p', Accepts I p R p' ∧ f p' = true := by
  cases hr : I.execute p R R.length with
  | none =>
    rw [hr] at h
    cases h
  | some r =>
    rw [hr] at h
    simp only [Option.any_some, Bool.and_eq_true, decide_eq_true_eq, Bool.not_eq_true'] at h
    obtain ⟨⟨⟨hlen, herr⟩, hfin⟩, hf⟩ := h
    exact ⟨r.2.1, ⟨hne, by rw [hr, Option.map_some, hlen], herr, hfin⟩, hf⟩

/-- What the scan of an accepted block is. -/
theorem Implements.accepts_scan (hS : S.Implements I) {p p' : P} {R : Bytes} (hp : S.ready p)
    (h : Accepts I p R p') :
    (scan S.automaton R 0 (S.state p) (S.regs p)).ending = .stopped ∧
      (scan S.automaton R 0 (S.state p) (S.regs p)).pos = R.length ∧
      S.final (scan S.automaton R 0 (S.state p) (S.regs p)).state = true ∧
      S.callbacks (S.memory R R.length) (scan S.automaton R 0 (S.state p) (S.regs p)).events (S.data p) =
        some (S.data p') ∧ S.error (S.data p') = false := by
  have hpos : 0 < R.length := List.length_pos_iff.mpr h.nonempty
  have hscan : S.scanned p R R.length = scan S.automaton R 0 (S.state p) (S.regs p) := by
    rw [scanned, List.take_length]
  obtain ⟨r, hr, hr'⟩ := Option.map_eq_some_iff.mp h.execute
  have hlt := hS.execute_lt (by rw [hr]; rfl)
  rw [hS.execute_eq hp hpos (Nat.le_refl _) hlt] at hr
  obtain ⟨q, hq, rfl⟩ := Option.map_eq_some_iff.mp hr
  obtain ⟨hlen, rfl⟩ := Prod.mk.inj hr'
  have hnoError := h.noError
  have hok : ¬ (S.error q = true ∨ (S.scanned p R R.length).ending = .error) := by
    rw [← hS.hasError hp, hnoError]
    exact Bool.false_ne_true
  rw [not_or] at hok
  have hfinal := (hS.isFinished hp hok.2).mp h.finished
  have hstopped : (S.scanned p R R.length).ending = .stopped := by
    cases he : (S.scanned p R R.length).ending with
    | stopped => rfl
    | error => exact absurd he hok.2
    | more =>
      have := (hS.ready_after (q := q) hp hpos (Nat.le_refl _) he).2
      rw [hfinal] at this
      cases this
  rw [hS.data_after]
  rw [hscan] at hstopped hlen hfinal hq
  exact ⟨hstopped, hlen, hfinal, hq, Bool.eq_false_iff.mpr hok.1⟩

/-- A scan of the whole block that is stopped at its end accepts it. -/
theorem Implements.accepts_of_scan (hS : S.Implements I) {p : P} {R : Bytes} {q : Q} (hp : S.ready p) (hne : R ≠ [])
    (hlt : R.length < 2 ^ 31) (hend : (scan S.automaton R 0 (S.state p) (S.regs p)).ending = .stopped)
    (hpos : (scan S.automaton R 0 (S.state p) (S.regs p)).pos = R.length)
    (hfinal : S.final (scan S.automaton R 0 (S.state p) (S.regs p)).state = true)
    (hcb : S.callbacks (S.memory R R.length) (scan S.automaton R 0 (S.state p) (S.regs p)).events (S.data p) = some q)
    (herr : S.error q = false) : ∃ p', Accepts I p R p' ∧ S.data p' = q := by
  have hscan : S.scanned p R R.length = scan S.automaton R 0 (S.state p) (S.regs p) := by
    rw [scanned, List.take_length]
  rw [← hscan] at hend hpos hfinal hcb
  have hok : (S.scanned p R R.length).ending ≠ .error := by
    rw [hend]
    exact End.noConfusion
  refine ⟨S.after p R R.length q, ⟨hne, ?_, ?_, (hS.isFinished hp hok).mpr hfinal⟩, hS.data_after⟩
  · rw [hS.execute_eq hp (List.length_pos_iff.mpr hne) (Nat.le_refl _) hlt, hcb, hpos]
    rfl
  · rw [Bool.eq_false_iff, ne_eq, hS.hasError hp, herr]
    exact fun h => h.elim (fun h => Bool.false_ne_true h) hok

/-! ## Callbacks in a piece -/

/-- The callback keeps the same of an event from any buffer that holds its token. -/
def Stable (S : ScanParser P Q σ ρ κ) (W : Bytes) (e : Event κ) : Prop :=
  ∀ (B n : Nat) (e' : Event κ) (m : Bytes) (q : Q), Seen S.recorded B n e' e → e'.pos < n → n ≤ m.length →
    m.take n = slice W B n → S.callback m e' q = S.callback W e q

omit [DecidableEq ρ] in
theorem callbacks_sim {W m : Bytes} {B n : Nat} (hm : m.take n = slice W B n) (hlen : n ≤ m.length) :
    ∀ {es' es : List (Event κ)}, List.Forall₂ (Seen S.recorded B n) es' es → (∀ e ∈ es, S.Stable W e) →
      (∀ e ∈ es', e.pos < n) → ∀ q, S.callbacks m es' q = S.callbacks W es q
  | _, _, .nil, _, _, _ => rfl
  | e' :: es', e :: es, .cons he hes, hstable, hpos, q => by
    rw [callbacks, callbacks, hstable e List.mem_cons_self B n e' m q he (hpos e' List.mem_cons_self) hlen hm]
    exact congrArg _ (funext fun q => callbacks_sim hm hlen hes (fun f hf => hstable f (List.mem_cons_of_mem _ hf))
      (fun f hf => hpos f (List.mem_cons_of_mem _ hf)) q)

/-! ## The loop -/

/-- A read that the parser takes: the block is finished or the loop goes on. -/
theorem Implements.recvHeader_read (hS : S.Implements I) {buffSize : BufferSize} (fuel : Nat) (piece : Bytes)
    (later : List Bytes) {p : P} (data : Bytes) {q : Q} (hp : S.ready p) (hne : piece ≠ [])
    (hle : piece.length ≤ buffSize.val)
    (hend : (scan S.automaton piece 0 (S.state p) (S.regs p)).ending ≠ .error)
    (hpos : 0 < (scan S.automaton piece 0 (S.state p) (S.regs p)).pos)
    (hcb : S.callbacks (S.memory (splice data 0 piece) piece.length)
      (scan S.automaton piece 0 (S.state p) (S.regs p)).events (S.data p) = some q) (hq : S.error q = false) :
    let r := scan S.automaton piece 0 (S.state p) (S.regs p)
    let m := S.memory (splice data 0 piece) piece.length
    let left := splice m 0 (slice m r.pos (piece.length - r.pos))
    let p' := S.after p (splice data 0 piece) piece.length q
    recvHeader I buffSize.val (fuel + 1) (Socket.of (piece :: later)) p data 0 =
      if S.final r.state = true then some (some (p', left, piece.length - r.pos), Socket.of later)
      else recvHeader I buffSize.val fuel (Socket.of later) p' left (piece.length - r.pos) := by
  intro r m left p'
  have hplen : 0 < piece.length := List.length_pos_iff.mpr hne
  have hsize : buffSize.val < 2 ^ 31 := buffSize.lt
  have hread : (Socket.of (piece :: later)).read (buffSize.val - 0) = (some piece, Socket.of later) :=
    Socket.read_cons hle later
  have hscan : S.scanned p (splice data 0 piece) piece.length = r := by
    rw [scanned, take_splice_start]
  have hspl := length_le_splice data 0 piece
  have hexec : I.execute p (splice data 0 piece) piece.length = some (r.pos, p', left) := by
    rw [hS.execute_eq hp hplen hspl (by omega), hscan, hcb]
    rfl
  have herr : I.hasError p' = false := by
    rw [Bool.eq_false_iff, ne_eq, hS.hasError hp, hscan, hq]
    simp [hend, r]
  have hrpos : 0 < r.pos := hpos
  have hfull : ¬ ((piece.length - r.pos : Nat) : Int) = toInt32 buffSize.val := by
    rw [toInt32_of_lt buffSize.lt]
    omega
  have hfin := hS.isFinished (q := q) hp (by rw [hscan]; exact hend)
  rw [hscan] at hfin
  rw [recvHeader_parsed I fuel p data hread hne, Nat.add_zero, hexec, Option.bind_some, herr,
    if_neg Bool.false_ne_true, if_neg hfull]
  by_cases hf : S.final r.state = true
  · rw [if_pos hf, if_pos (hfin.mpr hf)]
  · rw [if_neg hf, if_neg (fun h => hf (hfin.mp h))]

/-! From the middle of a block: `W` is the memory of the one call, `B` where this read begins. -/

section
variable {buffSize : BufferSize} {W : Bytes} {B : Nat} {p : P} {gw : Regs ρ} {k : Marks ρ} {q : Q}

/-- The read that ends the block, with what stands behind the block in it. -/
theorem Implements.recvHeader_last (hS : S.Implements I) {last extra : Bytes} (later : List Bytes) (fuel : Nat) (data : Bytes)
    (hp : S.ready p) (hlast : last ≠ []) (hlastle : (last ++ extra).length ≤ buffSize.val) (hq : S.error q = false)
    (hagrees : Agrees B 0 k (S.regs p) gw) (hbelow : k.Below (B + 1))
    (hwhole : WholeIn B last.length (tokens S.recorded S.automaton last B (S.state p) gw k))
    (hW : slice W B last.length = last) (hend : (scan S.automaton last B (S.state p) gw).ending = .stopped)
    (hpos : (scan S.automaton last B (S.state p) gw).pos = B + last.length)
    (hfinal : S.final (scan S.automaton last B (S.state p) gw).state = true)
    (hstable : ∀ e ∈ (scan S.automaton last B (S.state p) gw).events, S.Stable W e)
    (hcb : S.callbacks W (scan S.automaton last B (S.state p) gw).events (S.data p) = some q) :
    ∃ p' data', recvHeader I buffSize.val (fuel + 1) (Socket.of ((last ++ extra) :: later)) p data 0 =
        some (some (p', data', extra.length), Socket.of later) ∧ S.data p' = q ∧ data'.take extra.length = extra := by
  obtain ⟨hstate, hending, hsp, hev⟩ :=
    scan_seen S.automaton last 0 (S.state p) (Nat.zero_add _) hagrees (by rwa [Nat.zero_add]) (by rwa [Nat.zero_add])
  rw [Nat.zero_add] at hstate hending hsp hev
  have hstop : (scan S.automaton last 0 (S.state p) (S.regs p)).ending = .stopped := by rw [← hending, hend]
  have happ := scan_append_end S.automaton extra last 0 (S.state p) (S.regs p) (by rw [hstop]; exact End.noConfusion)
  have hrpos : (scan S.automaton last 0 (S.state p) (S.regs p)).pos = last.length := by omega
  have hlpos : 0 < last.length := List.length_pos_iff.mpr hlast
  have hspl := length_le_splice data 0 (last ++ extra)
  obtain ⟨hmt, hml⟩ := hS.memory_take hspl
  rw [take_splice_start] at hmt
  have hmlast : (S.memory (splice data 0 (last ++ extra)) (last ++ extra).length).take last.length =
      slice W B last.length := by
    have h := congrArg (List.take last.length) hmt
    rw [List.take_take, List.length_append, Nat.min_eq_left (by omega), List.take_left] at h
    rw [hW, List.length_append]
    exact h
  have hcb' := callbacks_sim (S := S) hmlast (Nat.le_trans (by rw [List.length_append]; omega) hml) hev hstable
    (fun e he => by have := scan_pos_lt S.automaton last 0 (S.state p) (S.regs p) e he; omega) (S.data p)
  rw [hcb] at hcb'
  have hread := hS.recvHeader_read fuel (last ++ extra) later data (q := q) hp (by simp [hlast]) hlastle
    (by rw [happ, hstop]; exact End.noConfusion) (by rw [happ]; omega) (by rw [happ]; exact hcb') hq
  simp only [happ] at hread
  rw [if_pos (by rw [← hstate]; exact hfinal), hrpos, List.length_append, Nat.add_sub_cancel_left] at hread
  refine ⟨_, _, hread, hS.data_after, ?_⟩
  have hslice : slice (S.memory (splice data 0 (last ++ extra)) (last.length + extra.length)) last.length extra.length =
      extra := by
    rw [List.length_append] at hmt
    rw [slice, ← List.take_append_drop (last.length + extra.length) (S.memory _ _), hmt, List.append_assoc, List.drop_left,
      List.take_left]
  rw [hslice]
  simp [splice]

/-- A read inside the block: all of it is consumed, and the loop goes on. -/
theorem Implements.recvHeader_piece (hS : S.Implements I) {piece : Bytes} (later : List Bytes) (fuel : Nat) (data : Bytes)
    (hp : S.ready p) (hne : piece ≠ []) (hle : piece.length ≤ buffSize.val) (hq : S.error q = false)
    (hagrees : Agrees B 0 k (S.regs p) gw) (hbelow : k.Below (B + 1))
    (hwhole : WholeIn B piece.length (tokens S.recorded S.automaton piece B (S.state p) gw k))
    (hW : slice W B piece.length = piece) (hmore : (scan S.automaton piece B (S.state p) gw).ending = .more)
    (hstable : ∀ e ∈ (scan S.automaton piece B (S.state p) gw).events, S.Stable W e)
    (hcb : S.callbacks W (scan S.automaton piece B (S.state p) gw).events (S.data p) = some q) :
    ∃ p' data', recvHeader I buffSize.val (fuel + 1) (Socket.of (piece :: later)) p data 0 =
        recvHeader I buffSize.val fuel (Socket.of later) p' data' 0 ∧ S.ready p' ∧ S.data p' = q ∧
      S.state p' = (scan S.automaton piece B (S.state p) gw).state := by
  have hplen : 0 < piece.length := List.length_pos_iff.mpr hne
  obtain ⟨hstate, hending, hsp, hev⟩ :=
    scan_seen S.automaton piece 0 (S.state p) (Nat.zero_add _) hagrees (by rwa [Nat.zero_add]) (by rwa [Nat.zero_add])
  rw [Nat.zero_add] at hstate hending hsp hev
  have hmore' : (scan S.automaton piece 0 (S.state p) (S.regs p)).ending = .more := by rw [← hending, hmore]
  have hrpos := scan_more_pos S.automaton piece 0 (S.state p) (S.regs p) hmore'
  have hspl := length_le_splice data 0 piece
  obtain ⟨hmt, hml⟩ := hS.memory_take hspl
  rw [take_splice_start] at hmt
  have hcb' := callbacks_sim (S := S) (hmt.trans hW.symm) hml hev hstable
    (fun e he => by have := scan_pos_lt S.automaton piece 0 (S.state p) (S.regs p) e he; omega) (S.data p)
  rw [hcb] at hcb'
  have hread := hS.recvHeader_read fuel piece later data (q := q) hp hne hle (by rw [hmore']; exact End.noConfusion)
    (by omega) hcb' hq
  have hscanned : S.scanned p (splice data 0 piece) piece.length = scan S.automaton piece 0 (S.state p) (S.regs p) := by
    rw [scanned, take_splice_start]
  have hafter := hS.ready_after (q := q) hp hplen hspl (by rw [hscanned]; exact hmore')
  rw [hscanned] at hafter
  simp only [hafter.2, Bool.false_eq_true, if_false, hrpos, Nat.zero_add, Nat.sub_self] at hread
  refine ⟨_, _, hread, hafter.1, hS.data_after, ?_⟩
  rw [hS.state_after (by rw [hscanned, hmore']; exact End.noConfusion), hscanned, ← hstate]

end

/-- A text in memory is there from its front and behind it. -/
theorem slice_of_append {W x y : Bytes} {B : Nat} (h : slice W B (x ++ y).length = x ++ y) :
    slice W B x.length = x ∧ slice W (B + x.length) y.length = y := by
  rw [List.length_append] at h
  constructor
  · have hfront := congrArg (List.take x.length) h
    rwa [slice, List.take_take, Nat.min_eq_left (by omega), List.take_left] at hfront
  · have hback := congrArg (List.drop x.length) h
    rwa [slice, List.drop_take, List.drop_drop, List.drop_left, Nat.add_sub_cancel_left] at hback

/-- The reads from the middle of a block to its end. -/
theorem Implements.recvHeader_run (hS : S.Implements I) {buffSize : BufferSize} {W last extra : Bytes} {later : List Bytes}
    {q : Q} (hlast : last ≠ []) (hlastle : (last ++ extra).length ≤ buffSize.val) (hq : S.error q = false) :
    ∀ (pieces : List Bytes) {fuel B : Nat} {p : P} {data : Bytes} {gw : Regs ρ} {k : Marks ρ}, S.ready p →
      pieces.length < fuel → (∀ piece ∈ pieces, piece ≠ [] ∧ piece.length ≤ buffSize.val) →
      Agrees B 0 k (S.regs p) gw → k.Below (B + 1) →
      (∀ t ∈ tokens S.recorded S.automaton (pieces.flatten ++ last) B (S.state p) gw k,
        ∀ c ∈ B :: ends B (pieces ++ [last]), ¬ t.CutAt c) →
      slice W B (pieces.flatten ++ last).length = pieces.flatten ++ last →
      let r := scan S.automaton (pieces.flatten ++ last) B (S.state p) gw
      r.ending = .stopped → r.pos = B + (pieces.flatten ++ last).length → S.final r.state = true →
      (∀ e ∈ r.events, S.Stable W e) → S.callbacks W r.events (S.data p) = some q →
      ∃ p' data', recvHeader I buffSize.val fuel (Socket.of (pieces ++ (last ++ extra) :: later)) p data 0 =
          some (some (p', data', extra.length), Socket.of later) ∧
        S.data p' = q ∧ data'.take extra.length = extra
  | [], fuel + 1, B, p, data, gw, k, hp, _, _, hagrees, hbelow, huncut, hW, hend, hpos, hfinal, hstable, hcb => by
    simp only [List.flatten_nil, List.nil_append, ends, List.mem_cons, List.not_mem_nil, or_false]
      at huncut hW hend hpos hfinal hstable hcb ⊢
    have hwhole : WholeIn B last.length (tokens S.recorded S.automaton last B (S.state p) gw k) :=
      fun t ht => ⟨huncut t ht B (.inl rfl), huncut t ht _ (.inr rfl)⟩
    exact hS.recvHeader_last later fuel data hp hlast hlastle hq hagrees hbelow hwhole hW hend hpos hfinal hstable hcb
  | piece :: pieces, fuel + 1, B, p, data, gw, k, hp, hfuel, hpieces, hagrees, hbelow, huncut, hW, hend, hpos, hfinal,
      hstable, hcb => by
    obtain ⟨hne, hle⟩ := hpieces piece List.mem_cons_self
    have hlpos : 0 < last.length := List.length_pos_iff.mpr hlast
    simp only [List.flatten_cons, List.append_assoc, List.cons_append, ends] at huncut hW hend hpos hfinal hstable hcb ⊢
    obtain ⟨hWpiece, hWrest⟩ := slice_of_append hW
    rw [List.length_append, List.length_append] at hpos
    have hmore : (scan S.automaton piece B (S.state p) gw).ending = .more := by
      by_contra h
      rw [scan_append_end S.automaton _ piece B (S.state p) gw h] at hpos
      have := (scan_pos_le S.automaton piece B (S.state p) gw).2
      omega
    rw [tokens_append S.recorded S.automaton _ piece B (S.state p) gw k hmore] at huncut
    have hwhole : WholeIn B piece.length (tokens S.recorded S.automaton piece B (S.state p) gw k) :=
      fun t ht => ⟨huncut t (List.mem_append_left _ ht) B List.mem_cons_self,
        huncut t (List.mem_append_left _ ht) _ (List.mem_cons_of_mem _ List.mem_cons_self)⟩
    have hbelow' := Marks.Below.after S.automaton piece B (S.state p) hne hbelow
    rw [scan_append S.automaton _ piece B (S.state p) gw hmore] at hend hpos hfinal hstable hcb
    simp only [Scan.prepend] at hend hpos hfinal hstable hcb
    rw [callbacks_append] at hcb
    obtain ⟨q₁, hq₁, hcb⟩ := Option.bind_eq_some_iff.mp hcb
    have herr₁ : S.error q₁ = false := by
      by_contra h
      have := hS.callbacks_error hcb (by simpa using h)
      rw [hq] at this
      cases this
    obtain ⟨p₁, data₁, hread, hready, hdata, hst⟩ := hS.recvHeader_piece (pieces ++ (last ++ extra) :: later) fuel data hp hne
      hle herr₁ hagrees hbelow hwhole hWpiece hmore (fun e he => hstable e (List.mem_append_left _ he)) hq₁
    rw [hread]
    rw [← hst] at hend hpos hfinal hstable hcb huncut
    rw [← hdata] at hcb
    refine hS.recvHeader_run hlast hlastle hq pieces hready (by simpa using hfuel)
      (fun x hx => hpieces x (List.mem_cons_of_mem _ hx)) (Agrees.later hbelow' 0 _ _) (hbelow'.mono (Nat.le_succ _))
      (fun t ht c hc => huncut t (List.mem_append_right _ ht) c (List.mem_cons_of_mem _ hc)) hWrest hend ?_ hfinal
      (fun e he => hstable e (List.mem_append_right _ he)) hcb
    rw [hpos, List.length_append]
    omega

/-- A block accepted in one call, read in pieces that cut no token, with more behind it. -/
theorem Implements.recvHeader_pieces (hS : S.Implements I) {buffSize : BufferSize} {p p₁ : P} {R : Bytes} (hp : S.ready p)
    (h : Accepts I p R p₁)
    (hstable : ∀ e ∈ (scan S.automaton R 0 (S.state p) (S.regs p)).events, S.Stable (S.memory R R.length) e)
    {pieces : List Bytes} {last : Bytes} (hR : pieces.flatten ++ last = R) (hlast : last ≠ [])
    (hpieces : ∀ piece ∈ pieces, piece ≠ [] ∧ piece.length ≤ buffSize.val)
    (huncut : Uncut S.recorded S.automaton (S.state p) (S.regs p) (pieces ++ [last])) (extra : Bytes)
    (hlastle : (last ++ extra).length ≤ buffSize.val) (later : List Bytes) (data : Bytes) {fuel : Nat}
    (hfuel : pieces.length < fuel) :
    ∃ p' data', recvHeader I buffSize.val fuel (Socket.of (pieces ++ (last ++ extra) :: later)) p data 0 =
        some (some (p', data', extra.length), Socket.of later) ∧
      S.data p' = S.data p₁ ∧ data'.take extra.length = extra := by
  obtain ⟨hstop, hpos, hfinal, hcb, herr⟩ := hS.accepts_scan hp h
  subst hR
  have hm : slice (S.memory (pieces.flatten ++ last) (pieces.flatten ++ last).length) 0 (pieces.flatten ++ last).length =
      pieces.flatten ++ last := by
    rw [slice, List.drop_zero, (hS.memory_take (Nat.le_refl _)).1, List.take_length]
  have huncut' : ∀ t ∈ tokens S.recorded S.automaton (pieces.flatten ++ last) 0 (S.state p) (S.regs p) .start,
      ∀ c ∈ 0 :: ends 0 (pieces ++ [last]), ¬ t.CutAt c := by
    intro t ht c hc
    rcases List.mem_cons.mp hc with rfl | hc
    · exact fun h => Nat.not_lt_zero _ h.1
    · exact huncut t (by rwa [List.flatten_append, List.flatten_singleton]) c hc
  exact hS.recvHeader_run hlast hlastle herr pieces hp hfuel hpieces (Agrees.start _ _) Marks.below_start huncut' hm hstop
    (by rw [hpos, Nat.zero_add]) hfinal hstable hcb

/-- A block accepted in one call and nothing else, read in pieces that cut no token. -/
theorem Implements.recvHeader_cut (hS : S.Implements I) {buffSize : BufferSize} {p p₁ : P} {R : Bytes} (hp : S.ready p)
    (h : Accepts I p R p₁)
    (hstable : ∀ e ∈ (scan S.automaton R 0 (S.state p) (S.regs p)).events, S.Stable (S.memory R R.length) e)
    {pieces : List Bytes} (hR : pieces.flatten = R)
    (hpieces : ∀ piece ∈ pieces, piece ≠ [] ∧ piece.length ≤ buffSize.val)
    (huncut : Uncut S.recorded S.automaton (S.state p) (S.regs p) pieces) (data : Bytes) :
    ∃ p' data', recvHeader I buffSize.val ((Socket.of pieces).rest.length + 1) (Socket.of pieces) p data 0 =
        some (some (p', data', 0), Socket.of []) ∧ S.data p' = S.data p₁ := by
  rcases List.eq_nil_or_concat pieces with rfl | ⟨pieces, last, rfl⟩
  · exact absurd hR.symm h.nonempty
  · rw [List.concat_eq_append] at hR hpieces huncut ⊢
    rw [List.flatten_append, List.flatten_singleton] at hR
    obtain ⟨hlast, hlastle⟩ := hpieces last (List.mem_append_right _ (List.mem_singleton_self last))
    have hfuel : pieces.length < (Socket.of (pieces ++ [last])).rest.length + 1 := by
      have := length_le_flatten fun piece hpiece => (hpieces piece (List.mem_append_left _ hpiece)).1
      simp only [Socket.rest_of, List.flatten_append, List.length_append]
      omega
    obtain ⟨p', data', hrecv, hdata, _⟩ := hS.recvHeader_pieces hp h hstable hR hlast
      (fun piece hpiece => hpieces piece (List.mem_append_left _ hpiece)) huncut []
      (by rw [List.append_nil]; exact hlastle) [] data hfuel
    rw [List.append_nil] at hrecv
    exact ⟨p', data', hrecv, hdata⟩

end ScanParser

end LjrServer.Http
