/-
  LjrServer.Http.ResponseHeader — what `HttpResponseParser` keeps of a token does not depend on
  the read that brought it.

  `atoi` looks past its token, at the byte that ended it: that is no digit.

  Proved:
  - `HttpClientParser.ends`: a call leaves the offsets inside its buffer.
  - `response_implements`: `HttpResponseParser.execute` without `chunck` is a scan and its
    callbacks.
  - `response_stable`: the callbacks of a block keep the same from any buffer.
-/

import LjrServer.Http.Connection
import LjrServer.Http.HttpClientPhases
import LjrServer.Http.RequestHeader

namespace LjrServer.Http

open LjrServer.Lib LjrServer.Lib.Scanner LjrServer.Http.HttpClient

/-! ## The parser as a scan -/

/-- The callbacks whose arguments are used. -/
def HttpClient.recorded : Callback → Bool
  | .contentLen | .connectionClose | .chunked | .done => false
  | _ => true

/-- Whether the parser takes the response for chunked from this event on. -/
def HttpClient.marksChunked (e : Event Callback) : Bool :=
  match e.kind, e.args with
  | .chunkSize, [_] => true
  | .chunked, _ => true
  | _, _ => false

def responseScan : ScanParser HttpResponseParser ((HttpResponse × Nat) × Bool) HttpClient.State Reg Callback where
  automaton := HttpClient.automaton
  final := isFirstFinal
  recorded := HttpClient.recorded
  callback m e q := (HttpResponseParser.callback m e q.1).map fun r => (r, q.2 || marksChunked e)
  error q := q.1.2 ≠ 0
  memory data len := splice data len [0]
  state p := p.parser.cs
  regs _ := HttpClientParser.zero
  data p := ((p.data, p.error), p.parser.chunked)
  after p data len q :=
    { parser := { p.parser.finishRun (splice data len [0]) 0 (p.parser.run data len 0) with chunked := q.2 }
      data := q.1.1, error := q.1.2 }
  ready p := Ragel.Under 28 .done p.parser.cs ∧ p.parser.cs ≠ [] ∧ p.parser.bodyStart = 0

theorem response_ready_new : responseScan.ready .new :=
  ⟨fun _ hm => ⟨_, List.mem_singleton.mp hm⟩, List.cons_ne_nil _ _, rfl⟩

theorem response_callbacks (m : Bytes) : ∀ (es : List (Event Callback)) (q : HttpResponse × Nat) (c : Bool),
    responseScan.callbacks m es (q, c) =
      (HttpResponseParser.callbacks m es q).map fun r => (r, c || es.any marksChunked)
  | [], q, c => by simp [ScanParser.callbacks, HttpResponseParser.callbacks]
  | e :: es, q, c => by
    have hcall : responseScan.callback m e (q, c) =
        (HttpResponseParser.callback m e q).map fun r => (r, c || marksChunked e) := rfl
    rw [ScanParser.callbacks, HttpResponseParser.callbacks, hcall, Option.bind_map, Option.map_bind]
    refine congrArg _ (funext fun r => ?_)
    simp only [Function.comp_apply, response_callbacks m es, List.any_cons, Bool.or_assoc]

theorem response_callback_error {m : Bytes} {e : Event Callback} {q r : HttpResponse × Nat}
    (h : HttpResponseParser.callback m e q = some r) (hq : q.2 ≠ 0) : r.2 ≠ 0 := by
  unfold HttpResponseParser.callback at h
  split at h
  · obtain ⟨_, _, rfl⟩ := Option.map_eq_some_iff.mp h
    exact hq
  · cases h
    exact hq
  · split at h
    · cases h
      exact hq
    · obtain ⟨_, _, rfl⟩ := Option.map_eq_some_iff.mp h
      exact Nat.succ_ne_zero _
  · split at h
    · cases h
      exact hq
    · obtain ⟨_, _, h⟩ := Option.bind_eq_some_iff.mp h
      obtain ⟨_, _, h⟩ := Option.bind_eq_some_iff.mp h
      cases h
      exact hq
  · cases h
    exact hq

/-! ### What the events leave in the parser -/

theorem HttpClientParser.note_chunked (m : Bytes) : ∀ (es : List (Event Callback)) (p : HttpClientParser),
    (es.foldl (note m) p).chunked = (p.chunked || es.any marksChunked)
  | [], p => by simp
  | e :: es, p => by
    have he : (note m p e).chunked = (p.chunked || marksChunked e) := by
      unfold note marksChunked
      split <;> simp_all
    rw [List.foldl_cons, note_chunked m es, he, List.any_cons, Bool.or_assoc]

theorem HttpClientParser.note_bodyStart (m : Bytes) {n : Nat} : ∀ (es : List (Event Callback)) (p : HttpClientParser),
    p.bodyStart ≤ n → (∀ e ∈ es, e.pos < n) → (es.foldl (note m) p).bodyStart ≤ n
  | [], _, h, _ => h
  | e :: es, p, h, hes => by
    refine note_bodyStart m es _ ?_ fun f hf => hes f (List.mem_cons_of_mem _ hf)
    unfold note
    split
    · exact h
    · exact h
    · exact h
    · exact h
    · exact hes e List.mem_cons_self
    · exact h

theorem HttpClientParser.note_quiet (m : Bytes) : ∀ (es : List (Event Callback)) (p : HttpClientParser),
    (∀ e ∈ es, e.kind ≠ .done) → (es.foldl (note m) p).bodyStart = p.bodyStart
  | [], _, _ => rfl
  | e :: es, p, h => by
    rw [List.foldl_cons, note_quiet m es _ fun f hf => h f (List.mem_cons_of_mem _ hf)]
    have hk := h e List.mem_cons_self
    unfold note
    split
    · rfl
    · rfl
    · rfl
    · rfl
    · next hdone => exact absurd hdone hk
    · rfl

/-! ### One call -/

theorem splice_nul {data : Bytes} {len : Nat} (h : len ≤ data.length) :
    (splice data len [0]).take len = data.take len ∧ len < (splice data len [0]).length ∧
      ((splice data len [0]).drop len).headD 0 = 0 := by
  have hlen : (data.take len).length = len := by rw [List.length_take]; omega
  refine ⟨?_, ?_, ?_⟩
  · rw [splice, List.append_assoc, List.take_append_of_le_length (Nat.le_of_eq hlen.symm),
      List.take_of_length_le (Nat.le_of_eq hlen)]
  · simp only [splice, List.length_append, hlen, List.length_singleton]
    omega
  · rw [splice, List.append_assoc, List.drop_append_of_le_length (Nat.le_of_eq hlen.symm),
      List.drop_of_length_le (Nat.le_of_eq hlen)]
    rfl

/-- The parser after `len` bytes of the buffer. -/
def HttpClientParser.after (p : HttpClientParser) (buffer : Bytes) (len : Nat) : HttpClientParser :=
  p.finishRun buffer 0 (p.run buffer len 0)

/-- Its offsets are inside them. -/
structure HttpClientParser.Ends (p : HttpClientParser) (buffer : Bytes) (len : Nat) : Prop where
  nread : (p.after buffer len).nread ≤ len
  bodyStart : (p.after buffer len).bodyStart ≤ len
  mark : (p.after buffer len).regs.off .mark < len
  fieldStart : (p.after buffer len).regs.off .fieldStart < len
  fieldLen : (p.after buffer len).regs.len .fieldStart ≤ len

/-- Only `body_start` may come from another buffer. -/
theorem HttpClientParser.ends {p : HttpClientParser} {buffer : Bytes} {len : Nat} (hbody : p.bodyStart ≤ len)
    (hpos : 0 < len) : p.Ends buffer len := by
  have hbuf : 0 + ((buffer.take len).drop 0).length ≤ len := by
    rw [List.drop_zero, List.length_take]
    omega
  have hnread : (p.run buffer len 0).pos ≤ 0 + ((buffer.take len).drop 0).length :=
    (scan_pos_le automaton ((buffer.take len).drop 0) 0 p.cs zero).2
  have hmark := scan_regs_lt automaton (r := .mark) (n := len) ((buffer.take len).drop 0) 0 p.cs zero hbuf
    ⟨Nat.le_refl 0, hpos⟩ (Nat.zero_le _)
  have hfield := scan_regs_lt automaton (r := .fieldStart) (n := len) ((buffer.take len).drop 0) 0 p.cs zero hbuf
    ⟨Nat.le_refl 0, hpos⟩ (Nat.zero_le _)
  refine ⟨?_, ?_, hmark.1, hfield.1, hfield.2⟩
  · show (p.run buffer len 0).pos - 0 ≤ len
    omega
  · refine note_bodyStart _ _ p hbody fun e he => ?_
    have := scan_pos_lt automaton _ _ _ _ e he
    omega

/-- Then no check fails. -/
theorem HttpClientParser.Ends.returns {p : HttpClientParser} {buffer : Bytes} {len : Nat} (h : p.Ends buffer len)
    (henters : HttpParser.enters len 0 = true) (hnul : (buffer.drop len).headD 0 = 0) :
    p.execute buffer len 0 = some ((p.after buffer len).nread, p.after buffer len, (p.run buffer len 0).events) := by
  rw [execute, if_neg (not_not.mpr henters), if_neg (not_not.mpr hnul)]
  exact if_pos ⟨h.nread, h.bodyStart, h.mark, h.fieldLen, h.fieldStart⟩

/-- Between calls, `httpclient_parser_execute` runs to its end. -/
theorem HttpClientParser.execute_runs {p : HttpClientParser} (hbody : p.bodyStart = 0) {data : Bytes} {len : Nat}
    (hpos : 0 < len) (hlen : len ≤ data.length) (hlt : len < 2 ^ 31) :
    p.execute (splice data len [0]) len 0 =
      some ((p.run data len 0).pos, p.finishRun (splice data len [0]) 0 (p.run data len 0), (p.run data len 0).events) := by
  obtain ⟨htake, _, hnul⟩ := splice_nul hlen
  have hends : p.Ends (splice data len [0]) len := ends (by rw [hbody]; exact Nat.zero_le len) hpos
  have hrun : p.run (splice data len [0]) len 0 = p.run data len 0 := by
    rw [run, run, htake]
  rw [hends.returns (enters_iff.mpr hlt) hnul, after, hrun]
  rfl

theorem emit_client_done (a : Action) (args : List (Arg Reg)) (h : Effect.emit Callback.done args ∈ a.effects) :
    a.effects.any isStop = true := by
  cases a with
  | done => rfl
  | _ => simp [Action.effects] at h

theorem response_implements : responseScan.Implements HttpConnection.headerParser where
  error_stays {m e q r} h hq := by
    obtain ⟨r', hr', rfl⟩ := Option.map_eq_some_iff.mp h
    simp only [responseScan, ne_eq, decide_not, Bool.not_eq_true', decide_eq_false_iff_not] at hq ⊢
    exact response_callback_error hr' hq
  memory_take h := ⟨(splice_nul h).1, Nat.le_of_lt (splice_nul h).2.1⟩
  execute_eq {p data len} hp hpos hlen hlt := by
    have hrun := HttpClientParser.execute_runs hp.2.2 hpos hlen hlt
    have hscan : responseScan.scanned p data len = p.parser.run data len 0 := rfl
    have hchunked : (p.parser.finishRun (splice data len [0]) 0 (p.parser.run data len 0)).chunked =
        (p.parser.chunked || (p.parser.run data len 0).events.any marksChunked) :=
      HttpClientParser.note_chunked _ _ _
    have hdata : responseScan.data p = ((p.data, p.error), p.parser.chunked) := rfl
    have hmem : responseScan.memory data len = splice data len [0] := rfl
    simp only [HttpConnection.headerParser, HttpConnection.execute, HttpResponseParser.execute, Bool.false_eq_true,
      if_false, hrun, Option.bind_eq_bind, Option.bind_some, hscan, hdata, hmem, response_callbacks, Option.map_map]
    cases HttpResponseParser.callbacks (splice data len [0]) (p.parser.run data len 0).events (p.data, p.error) with
    | none => rfl
    | some r => simp only [Option.bind_some, Option.map_some, Function.comp_apply, responseScan, ← hchunked]
  execute_lt {p data len} h := by
    by_contra hlt
    have henters : HttpParser.enters len 0 = false := by rw [Bool.eq_false_iff, ne_eq, enters_iff]; exact hlt
    simp [HttpConnection.headerParser, HttpConnection.execute, HttpResponseParser.execute, HttpClientParser.execute,
      henters] at h
  hasError {p data len q} hp := by
    have hne : (p.parser.run data len 0).state ≠ [] := Ragel.scan_ne_nil _ _ _ _ hp.2.1
    simp only [HttpConnection.headerParser, HttpResponseParser.hasError, HttpClientParser.hasError, responseScan,
      HttpClientParser.finishRun, Bool.or_eq_true, decide_eq_true_eq]
    refine or_congr Iff.rfl ?_
    split
    · next he => exact ⟨fun _ => he, fun _ => rfl⟩
    · next he => exact ⟨fun h => absurd h hne, fun h => absurd h he⟩
  isFinished {p data len q} hp hend := by
    have hne : (p.parser.run data len 0).state ≠ [] := Ragel.scan_ne_nil _ _ _ _ hp.2.1
    have hscan : responseScan.scanned p data len = p.parser.run data len 0 := rfl
    rw [hscan] at hend ⊢
    have hcs : (p.parser.finishRun (splice data len [0]) 0 (p.parser.run data len 0)).cs =
        (p.parser.run data len 0).state := by
      simp only [HttpClientParser.finishRun, if_neg hend]
    simp only [HttpConnection.headerParser, HttpResponseParser.isFinished, responseScan, HttpClientParser.finish,
      HttpClientParser.hasError, HttpClientParser.isFinished, hcs, decide_eq_true_eq, hne, if_false]
    by_cases hf : isFirstFinal (p.parser.run data len 0).state = true
    · simp [hf]
    · simp [hf]
  data_after := rfl
  state_after {p data len q} hend := by
    have hscan : responseScan.scanned p data len = p.parser.run data len 0 := rfl
    rw [hscan] at hend ⊢
    simp only [responseScan, HttpClientParser.finishRun, if_neg hend]
  ready_after {p data len q} hp hpos hlen hmore := by
    obtain ⟨hunder, hne, hbody⟩ := hp
    have hscan : responseScan.scanned p data len = p.parser.run data len 0 := rfl
    rw [hscan] at hmore ⊢
    have hbs : (data.take len).drop 0 ≠ [] := by
      rw [List.drop_zero, ← List.length_pos_iff, List.length_take]
      omega
    have hcs : (p.parser.finishRun (splice data len [0]) 0 (p.parser.run data len 0)).cs =
        (p.parser.run data len 0).state := by
      simp only [HttpClientParser.finishRun, hmore, reduceCtorEq, if_false]
    refine ⟨⟨?_, ?_, ?_⟩, Bool.and_eq_false_iff.mpr (.inl (Ragel.not_final_of_more rfl hunder hbs hmore))⟩
    · simp only [responseScan, hcs]
      exact Ragel.under_scan rfl hunder
    · simp only [responseScan, hcs]
      exact Ragel.scan_ne_nil _ _ _ _ hne
    · show ((p.parser.run data len 0).events.foldl (HttpClientParser.note _) p.parser).bodyStart = 0
      exact (HttpClientParser.note_quiet _ _ _ (Ragel.no_event_of_more emit_client_done _ _ _ _ hmore)).trans hbody

/-! ## Tokens in memory that agrees -/

theorem isDigit_digitVal {b : UInt8} (h : isDigit b.toNat = true) : (digitVal 16 b).isSome = true := by
  simp only [isDigit, decide_eq_true_eq] at h
  grind [digitVal]

theorem digitVal_of_not_isDigit {b : UInt8} (h : isDigit b.toNat = false) : digitVal 10 b = none := by
  simp only [isDigit, decide_eq_false_iff_not] at h
  grind [digitVal]

/-- `atoi` of a number that begins at `i` and ends at `n` at the latest. -/
theorem atoi_sim {m W : Bytes} {B n i len : Nat} (hm : m.take len = slice W B len) (hn : n < len) (hi : i ≤ n) {d c : UInt8}
    (hd : W[i + B]? = some d) (hdigit : isDigit d.toNat = true) (hc : W[n + B]? = some c)
    (hend : isDigit c.toNat = false) : atoi (m.drop i) = atoi (W.drop (i + B)) := by
  have htake : (m.drop i).take (n - i + 1) = (W.drop (i + B)).take (n - i + 1) :=
    slice_sim hm (a := ⟨i, n - i + 1⟩) (by dsimp only; omega)
  have hget : ∀ j, j ≤ n - i → (m.drop i)[j]? = (W.drop (i + B))[j]? := by
    intro j hj
    rw [← List.getElem?_take_of_lt (show j < n - i + 1 by omega), htake, List.getElem?_take_of_lt (by omega)]
  have hfirst : (W.drop (i + B))[0]? = some d := by rw [List.getElem?_drop, Nat.add_zero, hd]
  have hlast : (m.drop i)[n - i]? = some c := by
    rw [hget _ (Nat.le_refl _), List.getElem?_drop, show i + B + (n - i) = n + B by omega, hc]
  have hdigits : digits 10 0 (m.drop i) = digits 10 0 (W.drop (i + B)) :=
    digits_congr (n - i) 0 htake ⟨c, hlast, digitVal_of_not_isDigit hend⟩
  have hstrtol : ∀ {x : Bytes}, x[0]? = some d → strtol 10 x = min (digits 10 0 x : Int) (2 ^ 63 - 1) := by
    intro x hx
    cases x with
    | nil => cases hx
    | cons b x =>
      cases hx
      exact strtol_of_digit (isDigit_digitVal hdigit) (.inl (by decide))
  rw [atoi, atoi, hstrtol (by rw [hget 0 (Nat.zero_le _), hfirst]), hstrtol hfirst, hdigits]

/-! ## A block's callbacks -/

theorem response_callback_sim {m W : Bytes} {B n : Nat} {e e' : Event Callback} (q : HttpResponse × Nat)
    (h : Seen HttpClient.recorded B n e' e) (h0 : 0 < n) (hn : n ≤ m.length)
    (hm : m.take n = slice W B n)
    (hstatus : e.kind = .statusCode → ∀ a, e'.args = [a] → atoi (m.drop a.start) = atoi (W.drop (a.shift B).start)) :
    HttpResponseParser.callback m e' q = HttpResponseParser.callback W e q := by
  obtain ⟨k, pos, args⟩ := e
  obtain ⟨k', pos', args'⟩ := e'
  obtain ⟨hk, hp, hargs, hinside⟩ := h
  dsimp only at hk hp hargs hinside hstatus
  subst hk hp
  have hstring : HttpClient.recorded k = true → ∀ a ∈ args', stringAt m a = stringAt W (a.shift B) :=
    fun hk a ha => stringAt_sim hm h0 hn (hinside hk a ha)
  cases k with
  | contentLen | connectionClose | chunkSize | chunked | done => rfl
  | reasonPhrase =>
    cases hargs rfl
    match args' with
    | [] => rfl
    | [a] =>
      have hs := hstring rfl a (List.mem_singleton_self a)
      simp only [HttpResponseParser.callback, List.map_cons, List.map_nil, hs]
    | _ :: _ :: _ => rfl
  | statusCode =>
    cases hargs rfl
    match args' with
    | [] => rfl
    | [a] => simp only [HttpResponseParser.callback, List.map_cons, List.map_nil, hstatus rfl a rfl]
    | _ :: _ :: _ => rfl
  | httpVersion =>
    cases hargs rfl
    match args' with
    | [] => rfl
    | [a] =>
      have hs := hstring rfl a (List.mem_singleton_self a)
      have hv := charsToVersion_sim hm (hinside rfl a (List.mem_singleton_self a))
      simp only [HttpResponseParser.callback, List.map_cons, List.map_nil, hs, hv]
    | _ :: _ :: _ => rfl
  | httpField =>
    cases hargs rfl
    match args' with
    | [] => rfl
    | [_] => rfl
    | [a, b] =>
      have ha := hstring rfl a List.mem_cons_self
      have hb := hstring rfl b (List.mem_cons_of_mem _ (List.mem_singleton_self b))
      simp only [HttpResponseParser.callback, List.map_cons, List.map_nil, ha, hb]
      rfl
    | _ :: _ :: _ :: _ => rfl

theorem marksChunked_sim {B n : Nat} {e e' : Event Callback} (h : Seen HttpClient.recorded B n e' e) :
    marksChunked e' = marksChunked e := by
  obtain ⟨k, pos, args⟩ := e
  obtain ⟨k', pos', args'⟩ := e'
  obtain ⟨hk, -, hargs, -⟩ := h
  dsimp only at hk hargs
  subst hk
  cases k with
  | chunkSize =>
    cases hargs rfl
    match args' with
    | [] => rfl
    | [_] => rfl
    | _ :: _ :: _ => rfl
  | _ => rfl

/-- The callbacks of a block keep the same from any buffer that holds their token. -/
theorem response_stable (R : Bytes) (g : Regs Reg) :
    ∀ e ∈ (scan automaton R 0 [main] g).events, responseScan.Stable (responseScan.memory R R.length) e := by
  intro e he B n e' m q hseen hpos hn hm
  have hmem : responseScan.memory R R.length = R ++ [0] := by
    show splice R R.length [0] = R ++ [0]
    rw [splice, List.take_length, List.drop_of_length_le (Nat.le_add_right _ _), List.append_nil]
  rw [hmem] at hm ⊢
  have hget : ∀ {i : Nat} {b : UInt8}, R[i]? = some b → (R ++ [0])[i]? = some b := by
    intro i b hi
    rw [List.getElem?_append_left (List.getElem?_eq_some_iff.mp hi).1, hi]
  have hcall : HttpResponseParser.callback m e' q.1 = HttpResponseParser.callback (R ++ [0]) e q.1 := by
    refine response_callback_sim q.1 hseen (Nat.zero_lt_of_lt hpos) hn hm fun hk a ha => ?_
    obtain ⟨i, hargs, hi, ⟨d, hd, hdigit⟩, c, hc, hend⟩ := status_event R g e he hk
    have hshift := hseen.args (by rw [← hseen.kind, hk]; rfl)
    rw [hargs, ha, List.map_singleton] at hshift
    obtain ⟨hstart, _⟩ := Slice.mk.inj (List.cons.inj hshift).1
    have hp := hseen.pos
    subst hstart
    exact atoi_sim hm hpos (by omega) (hget hd) hdigit (hget (hp ▸ hc)) hend
  show Option.map _ (HttpResponseParser.callback m e' q.1) = Option.map _ (HttpResponseParser.callback (R ++ [0]) e q.1)
  rw [hcall, marksChunked_sim hseen]

/-! ## A block with more behind it -/

def isVersion (k : Callback) : Bool := k = .httpVersion

theorem version_upto {s s' : HttpClient.State} {b : UInt8} {es : List (Effect Reg Callback)}
    (h : automaton s b = some (s', es)) : ∀ k args, isVersion k = true → Effect.emit k args ∈ es →
      ∀ a ∈ args, ∃ r, a = .upto r := by
  intro k args hk hmem a ha
  obtain ⟨_, _, rfl⟩ := Ragel.automaton_some h
  obtain ⟨x, _, hx⟩ := List.mem_flatMap.mp hmem
  rw [of_decide_eq_true hk] at hx
  cases x with
  | httpVersion =>
    cases List.mem_singleton.mp hx
    exact ⟨.mark, List.mem_singleton.mp ha⟩
  | _ => simp [Action.effects] at hx

/-- A callback that succeeds on a block succeeds on any memory that begins with it, with the
    same error. -/
theorem callback_longer {R m : Bytes} {e : Event Callback} {q q' r : HttpResponse × Nat} (hm : m.take R.length = R)
    (hlen : R.length < m.length)
    (hversion : e.kind = .httpVersion → ∀ a ∈ e.args, a.start + a.length ≤ R.length)
    (h : HttpResponseParser.callback (R ++ [0]) e q = some r) (hq : q.2 = q'.2) :
    ∃ r', HttpResponseParser.callback m e q' = some r' ∧ r.2 = r'.2 := by
  have hstring : ∀ {a : Slice} {x : Bytes}, stringAt (R ++ [0]) a = some x → ∃ y, stringAt m a = some y := by
    intro a x hx
    unfold stringAt at hx ⊢
    split at hx
    · next hle =>
      rw [List.length_append, List.length_singleton] at hle
      exact ⟨_, if_pos (by omega)⟩
    · cases hx
  unfold HttpResponseParser.callback at h ⊢
  split at h
  · next a hk ha =>
    obtain ⟨x, hx, rfl⟩ := Option.map_eq_some_iff.mp h
    obtain ⟨y, hy⟩ := hstring hx
    exact ⟨({ q'.1 with reason := y }, q'.2), by rw [hy, Option.map_some], hq⟩
  · next a hk ha =>
    cases h
    exact ⟨({ q'.1 with status := atoi (m.drop a.start) }, q'.2), rfl, hq⟩
  · next a hk ha =>
    have hsame : charsToVersion m a = charsToVersion (R ++ [0]) a := by
      have hW : m.take R.length = slice (R ++ [0]) 0 R.length := by
        rw [hm, slice, List.drop_zero, List.take_left]
      exact charsToVersion_sim (B := 0) hW (hversion hk a (by rw [ha]; exact List.mem_singleton_self a))
    cases hv : charsToVersion (R ++ [0]) a with
    | some version =>
      rw [hv] at h
      cases h
      exact ⟨({ q'.1 with version }, q'.2), by rw [hsame, hv], hq⟩
    | none =>
      rw [hv] at h
      obtain ⟨x, hx, rfl⟩ := Option.map_eq_some_iff.mp h
      obtain ⟨y, hy⟩ := hstring hx
      exact ⟨(q'.1, 1001), by rw [hsame, hv, hy, Option.map_some], rfl⟩
  · next a b hk ha =>
    by_cases h0 : a.length = 0
    · rw [if_pos h0] at h
      cases h
      exact ⟨q', by rw [if_pos h0], hq⟩
    · rw [if_neg h0] at h
      obtain ⟨x, hx, h⟩ := Option.bind_eq_some_iff.mp h
      obtain ⟨y, hy, h⟩ := Option.bind_eq_some_iff.mp h
      cases h
      obtain ⟨x', hx'⟩ := hstring hx
      obtain ⟨y', hy'⟩ := hstring hy
      exact ⟨({ q'.1 with headers := q'.1.headers.put x' y' }, q'.2), by rw [if_neg h0, hx', hy']; rfl, hq⟩
  · cases h
    exact ⟨q', rfl, hq⟩

theorem callbacks_longer {R m : Bytes} (hm : m.take R.length = R) (hlen : R.length < m.length) :
    ∀ {es : List (Event Callback)} {q q' r : HttpResponse × Nat},
      (∀ e ∈ es, e.kind = .httpVersion → ∀ a ∈ e.args, a.start + a.length ≤ R.length) →
      HttpResponseParser.callbacks (R ++ [0]) es q = some r → q.2 = q'.2 →
      ∃ r', HttpResponseParser.callbacks m es q' = some r' ∧ r.2 = r'.2
  | [], _, q', _, _, h, hq => by
    cases h
    exact ⟨q', rfl, hq⟩
  | e :: es, q, q', r, hversion, h, hq => by
    obtain ⟨q₁, h₁, h⟩ := Option.bind_eq_some_iff.mp h
    obtain ⟨q₁', h₁', hq₁⟩ := callback_longer hm hlen (hversion e List.mem_cons_self) h₁ hq
    obtain ⟨r', hr', hr⟩ := callbacks_longer hm hlen (fun f hf => hversion f (List.mem_cons_of_mem _ hf)) h hq₁
    exact ⟨r', by rw [HttpResponseParser.callbacks, h₁', Option.bind_some, hr'], hr⟩

theorem response_callback_body {m : Bytes} {e : Event Callback} {q r : HttpResponse × Nat}
    (h : HttpResponseParser.callback m e q = some r) : r.1.body = q.1.body := by
  unfold HttpResponseParser.callback at h
  split at h
  · obtain ⟨_, _, rfl⟩ := Option.map_eq_some_iff.mp h
    rfl
  · cases h
    rfl
  · split at h
    · cases h
      rfl
    · obtain ⟨_, _, rfl⟩ := Option.map_eq_some_iff.mp h
      rfl
  · split at h
    · cases h
      rfl
    · obtain ⟨_, _, h⟩ := Option.bind_eq_some_iff.mp h
      obtain ⟨_, _, h⟩ := Option.bind_eq_some_iff.mp h
      cases h
      rfl
  · cases h
    rfl

theorem response_callbacks_body {m : Bytes} : ∀ {es : List (Event Callback)} {q r : HttpResponse × Nat},
    HttpResponseParser.callbacks m es q = some r → r.1.body = q.1.body
  | [], _, _, h => by
    cases h
    rfl
  | e :: es, q, r, h => by
    obtain ⟨q', hq', h⟩ := Option.bind_eq_some_iff.mp h
    rw [response_callbacks_body h, response_callback_body hq']

end LjrServer.Http
