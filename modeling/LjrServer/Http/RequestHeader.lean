/-
  LjrServer.Http.RequestHeader — what `HttpRequestParser` keeps of a token does not depend on
  the read that brought it.

  Only `on_request_method` looks past its token: a method is a prefix of what follows `at`.
  One name, `M - SEARCH`, goes on behind the space that ends a token, but the grammar
  accepts no request that begins with it.

  Proved:
  - `request_implements`: `HttpRequestParser.execute` is a scan and its callbacks.
  - `accepts_inside`: what they are handed lies in the block.
  - `request_stable`: the callbacks of an accepted block keep the same from any buffer.
-/

import Mathlib.Data.List.Find
import LjrServer.Http.HeaderLoop
import LjrServer.Http.Http11Calls
import LjrServer.Http.Session

namespace LjrServer.Http

open LjrServer.Lib LjrServer.Lib.Scanner LjrServer.Http.Http11

/-! ## The parser as a scan -/

/-- The callbacks whose arguments are kept. -/
def Http11.recorded : Callback → Bool
  | .requestUri | .done | .xml | .json => false
  | _ => true

def requestScan (uriRelaxed : Bool) : ScanParser HttpRequestParser (HttpRequest × Nat) State Reg Callback where
  automaton := Http11.automaton
  final := Ragel.isFinal
  recorded := Http11.recorded
  callback := HttpRequestParser.callback
  error q := q.2 ≠ 0
  memory data _ := data
  state p := p.parser.cs
  regs p := p.parser.reset.regs
  data p := (p.data, p.error)
  after p data len q :=
    { parser := p.parser.finishRun 0 (p.parser.run data len 0), data := q.1, error := q.2 }
  ready p := (∃ measured, Phase uriRelaxed p.parser.cs measured) ∧ Ragel.Under 31 .done p.parser.cs ∧ p.parser.cs ≠ [] ∧
    p.parser.bodyStart = 0

variable {uriRelaxed : Bool}

theorem request_ready_new (uriRelaxed : Bool) (queryStart : Nat) :
    (requestScan uriRelaxed).ready (.new uriRelaxed queryStart) :=
  ⟨⟨true, .start⟩, fun _ hm => ⟨_, List.mem_singleton.mp hm⟩, List.cons_ne_nil _ _, rfl⟩

theorem request_callbacks (uriRelaxed : Bool) (data : Bytes) : ∀ (es : List (Event Callback)) (q : HttpRequest × Nat),
    HttpRequestParser.callbacks data es q = (requestScan uriRelaxed).callbacks data es q
  | [], _ => rfl
  | _ :: es, _ => congrArg _ (funext (request_callbacks uriRelaxed data es))

theorem callback_error {m : Bytes} {e : Event Callback} {q r : HttpRequest × Nat}
    (h : HttpRequestParser.callback m e q = some r) (hq : q.2 ≠ 0) : r.2 ≠ 0 := by
  unfold HttpRequestParser.callback at h
  split at h
  · split at h
    · obtain ⟨_, _, rfl⟩ := Option.map_eq_some_iff.mp h
      exact Nat.succ_ne_zero _
    · cases h
      exact hq
  · obtain ⟨_, _, rfl⟩ := Option.map_eq_some_iff.mp h
    exact hq
  · obtain ⟨_, _, rfl⟩ := Option.map_eq_some_iff.mp h
    exact hq
  · obtain ⟨_, _, rfl⟩ := Option.map_eq_some_iff.mp h
    exact hq
  · split at h
    · cases h
      exact hq
    · obtain ⟨_, _, rfl⟩ := Option.map_eq_some_iff.mp h
      exact Nat.succ_ne_zero _
  · split at h
    · cases h
      exact hq
    · obtain ⟨_, _, h⟩ := Option.bind_eq_some_iff.mp h
      obtain ⟨_, _, h⟩ := Option.bind_eq_some_iff.mp h
      cases h
      exact hq
  · cases h
    exact hq

theorem callback_body {m : Bytes} {e : Event Callback} {q r : HttpRequest × Nat}
    (h : HttpRequestParser.callback m e q = some r) : r.1.body = q.1.body := by
  unfold HttpRequestParser.callback at h
  split at h
  · split at h
    · obtain ⟨_, _, rfl⟩ := Option.map_eq_some_iff.mp h
      rfl
    · cases h
      rfl
  · obtain ⟨_, _, rfl⟩ := Option.map_eq_some_iff.mp h
    rfl
  · obtain ⟨_, _, rfl⟩ := Option.map_eq_some_iff.mp h
    rfl
  · obtain ⟨_, _, rfl⟩ := Option.map_eq_some_iff.mp h
    rfl
  · split at h
    · cases h
      rfl
    · obtain ⟨_, _, rfl⟩ := Option.map_eq_some_iff.mp h
      rfl
  · split at h
    · cases h
      rfl
    · obtain ⟨_, _, h⟩ := Option.bind_eq_some_iff.mp h
      obtain ⟨_, _, h⟩ := Option.bind_eq_some_iff.mp h
      cases h
      rfl
  · cases h
    rfl

/-! ### The assertions at the end of a call -/

theorem note_bodyStart {n : Nat} : ∀ (es : List (Event Callback)) (p : HttpParser), p.bodyStart ≤ n →
    (∀ e ∈ es, e.pos < n ∧ (e.kind = .done → ∀ a ∈ e.args, a.start ≤ n)) → (es.foldl HttpParser.note p).bodyStart ≤ n
  | [], _, h, _ => h
  | e :: es, p, h, hes => by
    refine note_bodyStart es _ ?_ fun f hf => hes f (List.mem_cons_of_mem _ hf)
    obtain ⟨hpos, hdone⟩ := hes e List.mem_cons_self
    unfold HttpParser.note
    split
    · exact h
    · exact h
    · next m hk ha =>
      split
      · exact hdone hk m (by rw [ha]; exact List.mem_singleton_self m)
      · exact hpos
    · exact h

theorem note_quiet : ∀ (es : List (Event Callback)) (p : HttpParser), (∀ e ∈ es, e.kind ≠ .done) →
    (es.foldl HttpParser.note p).bodyStart = p.bodyStart
  | [], _, _ => rfl
  | e :: es, p, h => by
    rw [List.foldl_cons, note_quiet es _ fun f hf => h f (List.mem_cons_of_mem _ hf)]
    have hk := h e List.mem_cons_self
    unfold HttpParser.note
    split
    · rfl
    · rfl
    · next hdone _ => exact absurd hdone hk
    · rfl

/-- Between calls, `http_parser_execute` runs to its end. -/
theorem execute_runs {p : HttpParser} {measured : Bool} (hphase : Phase uriRelaxed p.cs measured)
    (hbody : p.bodyStart = 0) {data : Bytes} {len : Nat} (hpos : 0 < len) (hlen : len ≤ data.length)
    (hlt : len < 2 ^ 31) :
    p.execute data len 0 = some ((p.run data len 0).pos, p.finishRun 0 (p.run data len 0), (p.run data len 0).events) := by
  have htake : 0 + ((data.take len).drop 0).length ≤ len := by
    rw [List.drop_zero, List.length_take]
    omega
  have hnread := scan_pos_le automaton ((data.take len).drop 0) 0 p.reset.cs p.reset.regs
  have hmark := scan_regs_lt automaton (r := .mark) (n := len) ((data.take len).drop 0) 0 p.reset.cs p.reset.regs htake
    ⟨Nat.le_refl 0, hpos⟩ (Nat.zero_le _)
  have hfield := scan_regs_lt automaton (r := .fieldStart) (n := len) ((data.take len).drop 0) 0 p.reset.cs p.reset.regs
    htake ⟨Nat.le_refl 0, hpos⟩ (Nat.zero_le _)
  have hinside := (scan_sim notQuery automaton (B := 0) ((data.take len).drop 0) 0 p.reset.cs (agree_reset p)
    (phase_clean _ hphase.call good_callFresh)).2.2.2
  have hbodyStart : (p.finishRun 0 (p.run data len 0)).bodyStart ≤ len := by
    refine note_bodyStart _ p.reset (by rw [HttpParser.reset, hbody]; exact Nat.zero_le _) fun e he => ?_
    have hep := scan_pos_lt automaton _ _ _ _ e he
    refine ⟨by omega, fun hk a ha => ?_⟩
    have := (List.forall₂_same.mp hinside e he).inside (by rw [hk]; rfl) a ha
    omega
  have h0 : ¬ len = 0 := by omega
  have hpos' : (p.finishRun 0 (p.run data len 0)).nread = (p.run data len 0).pos := Nat.sub_zero _
  simp only [HttpParser.execute, if_neg h0, enters_iff.mpr hlt, not_true, if_false, hpos']
  rw [if_pos]
  refine ⟨?_, hbodyStart, hmark.1, hfield.2, hfield.1⟩
  have : (p.run data len 0).pos ≤ 0 + ((data.take len).drop 0).length := hnread.2
  omega

theorem emit_done (a : Action) (args : List (Arg Reg)) (h : Effect.emit Callback.done args ∈ a.effects) :
    a.effects.any isStop = true := by
  cases a <;> simp [Action.effects] at h
  rfl

theorem request_implements : (requestScan uriRelaxed).Implements HttpSession.headerParser where
  error_stays h hq := by
    simp only [requestScan, ne_eq, decide_not, Bool.not_eq_true', decide_eq_false_iff_not] at hq ⊢
    exact callback_error h hq
  memory_take h := ⟨rfl, h⟩
  execute_eq {p data len} hp hpos hlen hlt := by
    obtain ⟨⟨measured, hphase⟩, _, _, hbody⟩ := hp
    have hrun := execute_runs hphase hbody hpos hlen hlt
    have hscan : (requestScan uriRelaxed).scanned p data len = p.parser.run data len 0 := rfl
    simp only [HttpSession.headerParser, HttpRequestParser.execute, hrun, Option.bind_eq_bind, Option.bind_some, hscan,
      request_callbacks uriRelaxed data, Option.map_eq_bind]
    rfl
  execute_lt {p data len} h := by
    by_contra hlt
    have henters : HttpParser.enters len 0 = false := by rw [Bool.eq_false_iff, ne_eq, enters_iff]; exact hlt
    have h0 : ¬ len = 0 := by omega
    simp [HttpSession.headerParser, HttpRequestParser.execute, HttpParser.execute, h0, henters] at h
  hasError {p data len q} hp := by
    have hne : (p.parser.run data len 0).state ≠ [] := Ragel.scan_ne_nil _ _ _ _ hp.2.2.1
    simp only [HttpSession.headerParser, HttpRequestParser.hasError, HttpParser.hasError, requestScan,
      HttpParser.finishRun, Bool.or_eq_true, decide_eq_true_eq]
    refine or_congr Iff.rfl ?_
    split
    · next he => exact ⟨fun _ => he, fun _ => rfl⟩
    · next he => exact ⟨fun h => absurd h hne, fun h => absurd h he⟩
  isFinished {p data len q} hp hend := by
    have hne : (p.parser.run data len 0).state ≠ [] := Ragel.scan_ne_nil _ _ _ _ hp.2.2.1
    have hscan : (requestScan uriRelaxed).scanned p data len = p.parser.run data len 0 := rfl
    rw [hscan] at hend ⊢
    have hcs : (p.parser.finishRun 0 (p.parser.run data len 0)).cs = (p.parser.run data len 0).state := by
      simp only [HttpParser.finishRun, if_neg hend]
    have herr : (p.parser.finishRun 0 (p.parser.run data len 0)).hasError = false := by
      simp only [HttpParser.hasError, hcs, decide_eq_false_iff_not]
      exact hne
    simp only [HttpSession.headerParser, HttpRequestParser.isFinished, requestScan, HttpParser.finish, herr,
      HttpParser.isFinished, hcs, Bool.false_eq_true, if_false]
    split <;> simp_all
  data_after := rfl
  state_after {p data len q} hend := by
    have hscan : (requestScan uriRelaxed).scanned p data len = p.parser.run data len 0 := rfl
    rw [hscan] at hend ⊢
    simp only [requestScan, HttpParser.finishRun, if_neg hend]
  ready_after {p data len q} hp hpos hlen hmore := by
    obtain ⟨hphase, hunder, hne, hbody⟩ := hp
    have hscan : (requestScan uriRelaxed).scanned p data len = p.parser.run data len 0 := rfl
    rw [hscan] at hmore ⊢
    have hbs : (data.take len).drop 0 ≠ [] := by
      rw [List.drop_zero, ← List.length_pos_iff, List.length_take]
      omega
    have hcs : (p.parser.finishRun 0 (p.parser.run data len 0)).cs = (p.parser.run data len 0).state := by
      simp only [HttpParser.finishRun, hmore, reduceCtorEq, if_false]
    refine ⟨⟨?_, ?_, ?_, ?_⟩, Ragel.not_final_of_more rfl hunder hbs hmore⟩
    · simp only [requestScan, hcs]
      exact phase_scan _ _ _ _ hphase
    · simp only [requestScan, hcs]
      exact Ragel.under_scan rfl hunder
    · simp only [requestScan, hcs]
      exact Ragel.scan_ne_nil _ _ _ _ hne
    · show ((p.parser.run data len 0).events.foldl HttpParser.note p.parser.reset).bodyStart = 0
      exact (note_quiet _ _ (Ragel.no_event_of_more emit_done _ _ _ _ hmore)).trans hbody

/-! ## Tokens in memory that agrees -/

section
variable {m W : Bytes} {B n : Nat}

theorem slice_sim (hm : m.take n = slice W B n) {a : Slice} (ha : a.start + a.length ≤ n) :
    slice m a.start a.length = slice W (a.start + B) a.length := by
  rw [← slice_take (m := n) ha, hm, slice_slice ha, Nat.add_comm]

theorem stringAt_sim (hm : m.take n = slice W B n) (h0 : 0 < n) (hn : n ≤ m.length) {a : Slice}
    (ha : a.start + a.length ≤ n) : stringAt m a = stringAt W (a.shift B) := by
  have hlen := congrArg List.length hm
  simp only [slice, List.length_take, List.length_drop] at hlen
  have hslice := slice_sim hm ha
  rw [stringAt, stringAt, if_pos (by omega), if_pos (by simp only [Slice.shift]; omega), hslice]
  rfl

theorem strncmpEq_congr : ∀ (n : Nat) {x y : Bytes} (c : Bytes), x.take n = y.take n → strncmpEq n x c = strncmpEq n y c
  | 0, _, _, _, _ => rfl
  | n + 1, x, y, c, h => by
    have hhead : x.headD 0 = y.headD 0 := by
      cases x <;> cases y <;> simp_all
    have htail : x.tail.take n = y.tail.take n := by
      cases x <;> cases y <;> simp_all
    rw [strncmpEq, strncmpEq, hhead, strncmpEq_congr n c.tail htail]

theorem charsToVersion_sim (hm : m.take n = slice W B n) {a : Slice} (ha : a.start + a.length ≤ n) :
    charsToVersion m a = charsToVersion W (a.shift B) := by
  have htake : (m.drop a.start).take a.length = (W.drop (a.start + B)).take a.length := slice_sim hm ha
  unfold charsToVersion
  rw [strncmpEq_congr a.length _ htake, strncmpEq_congr a.length _ htake]
  rfl

end

/-! ## The method -/

theorem strncmpEq_cons (n : Nat) (c : UInt8) (a x : Bytes) : strncmpEq (n + 1) (c :: a) x =
    if c ≠ x.headD 0 then false else if c = 0 then true else strncmpEq n a x.tail := rfl

theorem strncmpEq_cons_right (n : Nat) (a : Bytes) (t : UInt8) (x : Bytes) : strncmpEq (n + 1) a (t :: x) =
    if a.headD 0 ≠ t then false else if a.headD 0 = 0 then true else strncmpEq n a.tail x := rfl

theorem strncmpEq_prefix : ∀ {a x : Bytes}, 0 ∉ a → strncmpEq a.length a x = true → ∃ z, x = a ++ z
  | [], x, _, _ => ⟨x, rfl⟩
  | c :: a, x, h0, h => by
    have hc : c ≠ 0 := fun h => h0 (by rw [h]; exact List.mem_cons_self)
    rw [List.length_cons, strncmpEq_cons] at h
    by_cases hx : c = x.headD 0
    · rw [if_neg (not_not.mpr hx), if_neg hc] at h
      cases x with
      | nil => exact absurd hx hc
      | cons d x =>
        obtain ⟨z, hz⟩ := strncmpEq_prefix (fun h => h0 (List.mem_cons_of_mem _ h)) h
        refine ⟨z, ?_⟩
        rw [List.cons_append, ← show x = a ++ z from hz]
        exact congrArg (· :: x) hx.symm
    · rw [if_pos hx] at h
      cases h

/-- A name without a space does not look behind the token. -/
theorem strncmpEq_token {X Y : Bytes} : ∀ (n : Nat) {T a : Bytes}, 32 ∉ a →
    strncmpEq n a (T ++ 32 :: X) = strncmpEq n a (T ++ 32 :: Y)
  | 0, _, _, _ => rfl
  | n + 1, [], a, h => by
    have hne : a.headD 0 ≠ 32 := by
      intro he
      cases a with
      | nil => cases he
      | cons x a => exact h (List.mem_cons.mpr (.inl he.symm))
    rw [List.nil_append, List.nil_append, strncmpEq_cons_right, strncmpEq_cons_right, if_pos hne, if_pos hne]
  | n + 1, t :: T, a, h => by
    have ha : 32 ∉ a.tail := fun hm => h (List.mem_of_mem_tail hm)
    rw [List.cons_append, List.cons_append, strncmpEq_cons_right, strncmpEq_cons_right,
      strncmpEq_token (Y := Y) n ha]

def MSEARCH : Bytes := bytes ['M', ' ', '-', ' ', 'S', 'E', 'A', 'R', 'C', 'H']

theorem methodMap_space : ∀ x ∈ methodMap, x.2 = MSEARCH ∨ 32 ∉ x.2 := by
  decide

theorem strncmpEq_MSEARCH {T X : Bytes} (hT : 32 ∉ T) (hM : T ≠ [77]) :
    strncmpEq MSEARCH.length MSEARCH (T ++ 32 :: X) = false := by
  rw [Bool.eq_false_iff]
  intro h
  obtain ⟨z, hz⟩ := strncmpEq_prefix (by decide) h
  match T, hT, hM, hz with
  | [], _, _, hz => cases hz
  | [t], _, hM, hz => exact hM (by rw [(List.cons.inj hz).1]; rfl)
  | t :: u :: T, hT, _, hz =>
    have hu : u = 32 := (List.cons.inj (List.cons.inj hz).2).1
    exact hT (List.mem_cons_of_mem _ (List.mem_cons.mpr (.inl hu.symm)))

theorem charsToHttpMethod_token {T X Y : Bytes} (hT : 32 ∉ T) (hM : T ≠ [77]) :
    charsToHttpMethod (T ++ 32 :: X) = charsToHttpMethod (T ++ 32 :: Y) := by
  rw [charsToHttpMethod, charsToHttpMethod, List.find?_congr]
  intro x hx
  rcases methodMap_space x hx with h | h
  · rw [h]
    exact (strncmpEq_MSEARCH hT hM).trans (strncmpEq_MSEARCH hT hM).symm
  · exact strncmpEq_token _ h

/-- `M` is the method of `M - SEARCH` only. -/
theorem charsToHttpMethod_M {Y : Bytes} (h : charsToHttpMethod (77 :: 32 :: Y) ≠ .INVALID_METHOD) :
    ∃ Z, 77 :: 32 :: Y = MSEARCH ++ Z := by
  have hothers : ∀ x ∈ methodMap, x.2 ≠ MSEARCH → strncmpEq x.2.length x.2 ([77] ++ 32 :: []) = false := by
    decide
  rw [charsToHttpMethod] at h
  cases hf : methodMap.find? fun x => strncmpEq x.2.length x.2 (77 :: 32 :: Y) with
  | none =>
    rw [hf] at h
    exact absurd rfl h
  | some x =>
    have hx := List.find?_some hf
    have hmem := List.mem_of_find?_eq_some hf
    rcases methodMap_space x hmem with hM | hsp
    · simp only [hM] at hx
      exact strncmpEq_prefix (by decide) hx
    · have hother := hothers x hmem (fun hM => hsp (by rw [hM]; decide))
      rw [strncmpEq_token (Y := Y) _ hsp] at hother
      rw [show (77 :: 32 :: Y : Bytes) = [77] ++ 32 :: Y from rfl, hother] at hx
      cases hx

/-! ## An accepted block's callbacks -/

/-- After `M `, the `-` is a URI and `S` is no version. -/
theorem stateAfter_MSEARCH (uriRelaxed : Bool) : stateAfter automaton (MSEARCH.take 5) [main uriRelaxed] = none := by
  cases uriRelaxed <;> decide +kernel

variable {queryStart : Nat} {R : Bytes} {p₁ : HttpRequestParser}

/-- No accepted block begins with `M `. -/
theorem accepts_method {e : Event Callback}
    (h : ScanParser.Accepts HttpSession.headerParser (.new uriRelaxed queryStart) R p₁)
    (he : e ∈ (scan automaton R 0 [main uriRelaxed] (HttpParser.init uriRelaxed queryStart).reset.regs).events)
    (hk : e.kind = .requestMethod) {T Y : Bytes} (hR : R = T ++ 32 :: Y) (hargs : e.args = [⟨0, distance e.pos 0⟩]) :
    T ≠ [77] := by
  rintro rfl
  have hready := request_ready_new uriRelaxed queryStart
  obtain ⟨hstop, hpos, _, hcb, herr⟩ := request_implements.accepts_scan hready h
  by_cases hinv : charsToHttpMethod R = .INVALID_METHOD
  · -- the callback has set the error
    obtain ⟨es, fs, hsplit⟩ := List.append_of_mem he
    have hcb : (requestScan uriRelaxed).callbacks R
        (scan automaton R 0 [main uriRelaxed] (HttpParser.init uriRelaxed queryStart).reset.regs).events
        ({}, 0) = some (p₁.data, p₁.error) := hcb
    rw [hsplit, ScanParser.callbacks_append] at hcb
    obtain ⟨q, _, hcb⟩ := Option.bind_eq_some_iff.mp hcb
    obtain ⟨q', hq', hcb⟩ := Option.bind_eq_some_iff.mp hcb
    have herror : (requestScan uriRelaxed).error q' = true := by
      have hq' : HttpRequestParser.callback R e q = some q' := hq'
      simp only [HttpRequestParser.callback, hk, hargs, List.drop_zero, hinv] at hq'
      obtain ⟨_, _, rfl⟩ := Option.map_eq_some_iff.mp hq'
      rfl
    have := request_implements.callbacks_error hcb herror
    rw [show (p₁.data, p₁.error) = (requestScan uriRelaxed).data p₁ from rfl, herr] at this
    cases this
  · obtain ⟨Z, hZ⟩ := charsToHttpMethod_M (Y := Y) (by rw [hR] at hinv; exact hinv)
    have hR' : R = MSEARCH.take 5 ++ (MSEARCH.drop 5 ++ Z) := by
      rw [hR, ← List.append_assoc, List.take_append_drop]
      exact hZ
    have hend : (scan automaton (MSEARCH.take 5) 0 [main uriRelaxed]
        (HttpParser.init uriRelaxed queryStart).reset.regs).ending ≠ .more := by
      intro hmore
      have := stateAfter_of_more automaton (MSEARCH.take 5) 0 _ _ hmore
      rw [stateAfter_MSEARCH] at this
      cases this
    have hpos : (scan automaton R 0 [main uriRelaxed] (HttpParser.init uriRelaxed queryStart).reset.regs).pos =
        R.length := hpos
    rw [hR', scan_append_end automaton (MSEARCH.drop 5 ++ Z) (MSEARCH.take 5) 0 _ _ hend, List.length_append,
      List.length_append] at hpos
    have hle := (scan_pos_le automaton (MSEARCH.take 5) 0 [main uriRelaxed]
      (HttpParser.init uriRelaxed queryStart).reset.regs).2
    have h5 : (MSEARCH.drop 5).length = 5 := rfl
    omega

theorem callback_sim_recorded {m W : Bytes} {B n : Nat} {e e' : Event Callback} (q : HttpRequest × Nat)
    (h : Seen Http11.recorded B n e' e) (h0 : 0 < n) (hn : n ≤ m.length)
    (hm : m.take n = slice W B n)
    (hmethod : e.kind = .requestMethod → ∀ a, e'.args = [a] →
      charsToHttpMethod (m.drop a.start) = charsToHttpMethod (W.drop (a.shift B).start)) :
    HttpRequestParser.callback m e' q = HttpRequestParser.callback W e q := by
  obtain ⟨k, pos, args⟩ := e
  obtain ⟨k', pos', args'⟩ := e'
  obtain ⟨hk, hp, hargs, hinside⟩ := h
  dsimp only at hk hp hargs hinside hmethod
  subst hk hp
  have hstring : Http11.recorded k = true → ∀ a ∈ args', stringAt m a = stringAt W (a.shift B) :=
    fun hk a ha => stringAt_sim hm h0 hn (hinside hk a ha)
  cases k with
  | requestUri | done | xml | json => rfl
  | requestMethod =>
    cases hargs rfl
    match args' with
    | [] => rfl
    | [a] =>
      have hs := hstring rfl a (List.mem_singleton_self a)
      simp only [HttpRequestParser.callback, List.map_cons, List.map_nil, hmethod rfl a rfl, hs]
    | _ :: _ :: _ => rfl
  | fragment | requestPath | queryString =>
    cases hargs rfl
    match args' with
    | [] => rfl
    | [a] =>
      have hs := hstring rfl a (List.mem_singleton_self a)
      simp only [HttpRequestParser.callback, List.map_cons, List.map_nil, hs]
    | _ :: _ :: _ => rfl
  | httpVersion =>
    cases hargs rfl
    match args' with
    | [] => rfl
    | [a] =>
      have hs := hstring rfl a (List.mem_singleton_self a)
      have hv := charsToVersion_sim hm (hinside rfl a (List.mem_singleton_self a))
      simp only [HttpRequestParser.callback, List.map_cons, List.map_nil, hs, hv]
    | _ :: _ :: _ => rfl
  | httpField =>
    cases hargs rfl
    match args' with
    | [] => rfl
    | [_] => rfl
    | [a, b] =>
      have ha := hstring rfl a List.mem_cons_self
      have hb := hstring rfl b (List.mem_cons_of_mem _ (List.mem_singleton_self b))
      simp only [HttpRequestParser.callback, List.map_cons, List.map_nil, ha, hb]
      rfl
    | _ :: _ :: _ :: _ => rfl

theorem query_args (bs : Bytes) (p : Nat) (s : State) (g : Regs Reg) :
    ∀ ev ∈ (scan automaton bs p s g).events, ev.kind = .queryString → ev.args.length = 1 := by
  refine scan_event automaton (fun s b s' es hA p g ev hev hk => ?_) bs p s g
  obtain ⟨_, _, rfl⟩ := Ragel.automaton_some hA
  obtain ⟨args, hargs, hlen⟩ := applyAll_args p _ g ev hev
  obtain ⟨a, _, ha⟩ := List.mem_flatMap.mp hargs
  rw [hk] at ha
  cases a with
  | queryString =>
    cases List.mem_singleton.mp ha
    exact hlen
  | _ => simp [Action.effects] at ha

/-- A header block leaves the body alone. -/
theorem accepts_body (h : ScanParser.Accepts HttpSession.headerParser (.new uriRelaxed queryStart) R p₁) :
    p₁.data.body = [] := by
  obtain ⟨_, _, _, hcb, _⟩ := request_implements.accepts_scan (request_ready_new uriRelaxed queryStart) h
  exact ScanParser.callbacks_keep (f := fun q : HttpRequest × Nat => q.1.body) (fun e q r hr => callback_body hr) hcb

/-- What an accepted block's callbacks are handed lies in it. -/
theorem accepts_inside (h : ScanParser.Accepts HttpSession.headerParser (.new uriRelaxed queryStart) R p₁) :
    ∀ ev ∈ (scan automaton R 0 [main uriRelaxed] (HttpParser.init uriRelaxed queryStart).reset.regs).events,
      Http11.recorded ev.kind = true → ev.pos < R.length ∧ ∀ a ∈ ev.args, a.start + a.length ≤ R.length := by
  intro ev hev hk
  have hpos := (scan_pos_lt automaton R 0 _ _ ev hev).2
  rw [Nat.zero_add] at hpos
  refine ⟨hpos, fun a ha => ?_⟩
  by_cases hquery : ev.kind = .queryString
  · -- the callback has made a string of it
    obtain ⟨_, _, _, hcb, _⟩ := request_implements.accepts_scan (request_ready_new uriRelaxed queryStart) h
    obtain ⟨q, r, hcall⟩ := ScanParser.callbacks_mem hcb hev
    obtain ⟨m, hm⟩ := List.length_eq_one_iff.mp (query_args R 0 _ _ ev hev hquery)
    have hcall : HttpRequestParser.callback R ev q = some r := hcall
    rw [HttpRequestParser.callback, hquery, hm] at hcall
    obtain ⟨_, hstring, _⟩ := Option.map_eq_some_iff.mp hcall
    rw [hm, List.mem_singleton] at ha
    subst ha
    unfold stringAt at hstring
    split at hstring
    · assumption
    · cases hstring
  · have hseen := (scan_sim notQuery automaton (B := 0) R 0 [main uriRelaxed] (agree_reset (.init uriRelaxed queryStart))
      (phase_clean R .start good_callFresh)).2.2.2
    have hinside := (List.forall₂_same.mp hseen ev hev).inside (by simpa [notQuery] using hquery) a ha
    omega

/-- The callbacks of an accepted block keep the same from any buffer that holds their token. -/
theorem request_stable (h : ScanParser.Accepts HttpSession.headerParser (.new uriRelaxed queryStart) R p₁) :
    ∀ e ∈ (scan automaton R 0 [main uriRelaxed] (HttpParser.init uriRelaxed queryStart).reset.regs).events,
      (requestScan uriRelaxed).Stable R e := by
  intro e he B n e' m q hseen hpos hn hm
  refine callback_sim_recorded q hseen (Nat.zero_lt_of_lt hpos) hn hm fun hk a ha => ?_
  obtain ⟨T, Y, hR, hT, hep, hargs⟩ := method_event uriRelaxed R _ e he hk
  have hM := accepts_method h he hk hR hargs
  -- the token begins at 0, so the piece does
  have hshift := hseen.args (by rw [← hseen.kind, hk]; rfl)
  rw [hargs, ha, List.map_singleton] at hshift
  obtain ⟨hstart, _⟩ := Slice.mk.inj (List.cons.inj hshift).1
  have hB : B = 0 := by omega
  have ha0 : a.start = 0 := by omega
  have hpe := hseen.pos
  subst hB
  have htake : m.take (T.length + 1) = T ++ [32] := by
    have h := congrArg (List.take (T.length + 1)) hm
    rw [slice, List.take_take, List.take_take, Nat.min_eq_left (by omega), List.drop_zero, hR,
      show T ++ 32 :: Y = (T ++ [32]) ++ Y by simp] at h
    rw [h]
    exact List.take_left' (by simp)
  have hm' : m = T ++ 32 :: m.drop (T.length + 1) := by
    rw [← List.singleton_append, ← List.append_assoc, ← htake, List.take_append_drop]
  rw [show (a.shift 0).start = 0 from ha0, ha0, List.drop_zero, List.drop_zero, hm', hR]
  exact charsToHttpMethod_token hT hM

end LjrServer.Http
