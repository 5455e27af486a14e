/-
  LjrServer.Http.Http11Calls — the slices `http_parser_execute` hands to its callbacks, over
  any run of calls.

  `mark` and `field_start` begin each call at 0 and are only ever set to the current offset,
  and a field's length is always measured before its value is written, so what is taken
  from them lies in the buffer. `query_start` is not reset: a query that an earlier call
  began is cut from wherever that call left it.

  Proved:
  - `callbacks_in_bounds_iff`: in every call of every run, the callbacks are given slices of
    the buffer exactly when no query ends before the offset an earlier call saved for it.
-/

import LjrServer.Http.Http11Phases

namespace LjrServer.Http

open LjrServer.Lib LjrServer.Lib.Scanner LjrServer.Http.Http11

/-! ## A run of calls -/

/-- `http_parser_execute(parser, buffer, buffer.length, 0)` -/
structure Call where
  parser : HttpParser
  buffer : Bytes

namespace Call

/-- Its callbacks. -/
def events (c : Call) : List (Event Callback) := (c.parser.run c.buffer c.buffer.length 0).events

def InBounds (c : Call) : Prop := ∀ ev ∈ c.events, ev.Inside c.buffer.length

/-- Where in the buffer the query that an earlier call began comes to its end. -/
def queryEnd (c : Call) : Option Nat := usedAt automaton .queryStart c.buffer 0 c.parser.cs

/-- The query does not end before the saved `query_start`. -/
def QueryStartInside (c : Call) : Prop := ∀ i, c.queryEnd = some i → c.parser.regs.off .queryStart ≤ i

instance (c : Call) : Decidable c.InBounds :=
  inferInstanceAs (Decidable (∀ ev ∈ c.events, ∀ a ∈ ev.args, a.start + a.length ≤ c.buffer.length))

instance (c : Call) : Decidable c.QueryStartInside :=
  decidable_of_iff (∀ i ∈ c.queryEnd, c.parser.regs.off .queryStart ≤ i) (by rfl)

end Call

/-- The calls made when these bytes arrive, each behind what the call before left. -/
def calls : HttpParser → Bytes → List Bytes → List Call
  | _, _, [] => []
  | p, left, new :: news =>
    let buffer := left ++ new
    if HttpParser.enters buffer.length 0 then
      ⟨p, buffer⟩ ::
        match p.execute buffer buffer.length 0 with
        | none => []
        | some (nread, p, _) => calls p (buffer.drop nread) news
    else []

/-! ## Slices that are always good -/

def notQuery (k : Callback) : Bool := k ≠ .queryString

theorem action_query (a : Action) : ∀ e ∈ a.effects, OnlyUnrecorded notQuery Reg.queryStart e := by
  cases a <;> simp [Action.effects, OnlyUnrecorded, notQuery]

theorem automaton_query {s s' : State} {b : UInt8} {es : List (Effect Reg Callback)} (h : automaton s b = some (s', es)) :
    ∀ e ∈ es, OnlyUnrecorded notQuery Reg.queryStart e := by
  obtain ⟨_, _, rfl⟩ := Ragel.automaton_some h
  intro e he
  obtain ⟨a, _, he⟩ := List.mem_flatMap.mp he
  exact action_query a e he

/-- `mark` and `field_start` are this call's, and so is `field_len` if it is measured. -/
structure Good (v : Fresh Reg) (measured : Bool) : Prop where
  mark : v.off .mark = true
  field : v.off .fieldStart = true
  len : v.len .fieldStart = measured

theorem good_action {v : Fresh Reg} {measured measured' : Bool} (hv : Good v measured) (a : Action)
    (h : fieldOrder measured [a] = some measured') :
    cleanAll notQuery v a.effects = true ∧ Good (freshAll v a.effects) measured' := by
  obtain ⟨hm, hf, hl⟩ := hv
  have hmark : Good (Effect.fresh v (.save .mark : Effect Reg Callback)) measured := ⟨rfl, hf, hl⟩
  cases a with
  | writeValue =>
    -- the only use of the length
    cases measured with
    | false => cases h
    | true =>
      cases h
      exact ⟨by simp [Action.effects, cleanAll, Effect.clean, Fresh.has, hm, hf, hl], hm, hf, hl⟩
  | startField =>
    cases h
    exact ⟨rfl, hm, rfl, rfl⟩
  | writeField =>
    cases h
    exact ⟨rfl, hm, hf, hf⟩
  | mark | startValue =>
    cases h
    exact ⟨rfl, hmark⟩
  | _ =>
    cases h
    exact ⟨by simp [Action.effects, cleanAll, Effect.clean, Fresh.has, notQuery, hm], hm, hf, hl⟩

theorem fieldOrder_cons (measured : Bool) (a : Action) (as : List Action) :
    fieldOrder measured (a :: as) = (fieldOrder measured [a]).bind (fieldOrder · as) := by
  cases a <;> first | rfl | (cases measured <;> rfl)

theorem good_actions : ∀ (as : List Action) {v : Fresh Reg} {measured measured' : Bool}, Good v measured →
    fieldOrder measured as = some measured' →
    cleanAll notQuery v (as.flatMap Action.effects) = true ∧ Good (freshAll v (as.flatMap Action.effects)) measured'
  | [], _, _, _, hv, h => by
    cases h
    exact ⟨rfl, hv⟩
  | a :: as, v, measured, measured', hv, h => by
    rw [fieldOrder_cons] at h
    obtain ⟨mid, ha, h⟩ := Option.bind_eq_some_iff.mp h
    obtain ⟨hclean, hmid⟩ := good_action hv a ha
    obtain ⟨hcleans, hgood⟩ := good_actions as hmid h
    rw [List.flatMap_cons, cleanAll_append, freshAll_append, hclean, hcleans]
    exact ⟨rfl, hgood⟩

theorem phase_clean {uriRelaxed : Bool} : ∀ (bs : Bytes) {s : State} {v : Fresh Reg} {measured : Bool},
    Phase uriRelaxed s measured → Good v measured → clean notQuery automaton bs s v = true
  | [], _, _, _, _, _ => rfl
  | b :: bs, s, v, measured, hs, hv => by
    rw [clean]
    cases hA : automaton s b with
    | none => rfl
    | some r =>
      obtain ⟨s', es⟩ := r
      obtain ⟨hne, rfl, rfl⟩ := Ragel.automaton_some hA
      obtain ⟨measured', hm, hs'⟩ := phase_step hs b hne
      obtain ⟨hclean, hgood⟩ := good_actions _ hv hm
      simp only [hclean, phase_clean bs hs' hgood, Bool.or_true, Bool.and_true]

/-! ## Calls -/

/-- What a call can rely on. -/
structure Ready (uriRelaxed : Bool) (p : HttpParser) : Prop where
  phase : ∃ measured, Phase uriRelaxed p.cs measured
  query : p.regs.off .queryStart < 2 ^ 64

theorem ready_init (uriRelaxed : Bool) {queryStart : Nat} (hq : queryStart < 2 ^ 64) :
    Ready uriRelaxed (.init uriRelaxed queryStart) := ⟨⟨true, .start⟩, hq⟩

theorem enters_iff {len : Nat} : HttpParser.enters len 0 = true ↔ len < 2 ^ 31 := by
  simp only [HttpParser.enters, toInt32, Nat.zero_le, Nat.sub_zero, true_and, decide_eq_true_eq]
  rw [Int.bmod_def, Int.bmod_def]
  omega

theorem phase_scan {uriRelaxed : Bool} (bs : Bytes) (p : Nat) (s : State) (g : Regs Reg)
    (h : ∃ measured, Phase uriRelaxed s measured) :
    ∃ measured, Phase uriRelaxed (scan automaton bs p s g).state measured := by
  refine scan_state automaton (P := fun s => ∃ measured, Phase uriRelaxed s measured) ?_ bs p s g h
  rintro s b s' es ⟨measured, h⟩ hA
  obtain ⟨hne, rfl, _⟩ := Ragel.automaton_some hA
  obtain ⟨measured', _, h⟩ := phase_step h b hne
  exact ⟨measured', h⟩

theorem ready_run {uriRelaxed : Bool} {p : HttpParser} (hp : Ready uriRelaxed p) {buffer : Bytes}
    (hlen : buffer.length < 2 ^ 64) : Ready uriRelaxed (p.finishRun 0 (p.run buffer buffer.length 0)) := by
  obtain ⟨hphase, hquery⟩ := hp
  constructor
  · by_cases he : (p.run buffer buffer.length 0).ending = .error
    · simp only [HttpParser.finishRun, if_pos he]
      exact ⟨true, .uri fun m hm => by cases hm⟩
    · simp only [HttpParser.finishRun, if_neg he]
      exact phase_scan _ _ _ _ hphase
  · obtain ⟨_, h⟩ := scan_regs automaton (I := fun _ g => g.off .queryStart < 2 ^ 64) (n := buffer.length)
      (fun p g e hp h => by
        cases e with
        | save r =>
          simp only [Effect.regs, Scanner.set]
          split
          · omega
          · exact h
        | _ => exact h)
      (fun _ _ h => h) ((buffer.take buffer.length).drop 0) 0 p.reset.cs p.reset.regs
      (by simp) hquery
    exact h

/-- What a call's registers hold of this buffer at its start. -/
def callFresh : Fresh Reg := ⟨fun r => r ≠ .queryStart, fun r => r = .fieldStart⟩

theorem good_callFresh : Good callFresh true := ⟨rfl, rfl, rfl⟩

theorem agree_reset (p : HttpParser) : Agree 0 0 callFresh p.reset.regs p.reset.regs := by
  constructor
  · intro r hr
    cases r with
    | queryStart => cases hr
    | mark => exact ⟨rfl, Nat.le_refl 0⟩
    | fieldStart => exact ⟨rfl, Nat.le_refl 0⟩
  · intro r hr hl
    cases r with
    | queryStart => cases hr
    | mark => cases hl
    | fieldStart => exact ⟨rfl, Nat.le_refl 0⟩

theorem call_in_bounds_iff {uriRelaxed : Bool} {c : Call} (hp : Ready uriRelaxed c.parser)
    (hlen : c.buffer.length < 2 ^ 64) : c.InBounds ↔ c.QueryStartInside := by
  obtain ⟨⟨measured, hphase⟩, hquery⟩ := hp
  have h := scan_inside_iff automaton (fun _ _ _ _ => automaton_query) hlen c.buffer 0 c.parser.cs (by simp)
    (agree_reset c.parser)
    (phase_clean c.buffer hphase.call good_callFresh) hquery
  rw [Call.InBounds, Call.QueryStartInside, Call.events, HttpParser.run, List.take_length, List.drop_zero]
  exact h

theorem calls_in_bounds_iff {uriRelaxed : Bool} : ∀ (news : List Bytes) {p : HttpParser} (left : Bytes),
    Ready uriRelaxed p → ∀ c ∈ calls p left news, c.InBounds ↔ c.QueryStartInside
  | [], _, _, _, _, h => by cases h
  | new :: news, p, left, hp, c, h => by
    rw [calls] at h
    split at h
    · next henters =>
      have hlen : (left ++ new).length < 2 ^ 64 := Nat.lt_trans (enters_iff.mp henters) (by decide)
      rcases List.mem_cons.mp h with rfl | h
      · exact call_in_bounds_iff hp hlen
      · split at h
        · cases h
        · next nread p' evs he =>
          have hp' : Ready uriRelaxed p' := by
            rcases HttpParser.execute_some he with ⟨_, _, rfl, _⟩ | ⟨rfl, _, _⟩
            · exact hp
            · exact ready_run hp hlen
          exact calls_in_bounds_iff news _ hp' c h
    · cases h

/-- In every call of every run, the callbacks are given slices of the buffer exactly when a
    query an earlier call began does not end before the offset saved for it. -/
theorem callbacks_in_bounds_iff (uriRelaxed : Bool) {queryStart : Nat} (hq : queryStart < 2 ^ 64) (news : List Bytes) :
    ∀ c ∈ calls (.init uriRelaxed queryStart) [] news, c.InBounds ↔ c.QueryStartInside :=
  calls_in_bounds_iff news [] (ready_init uriRelaxed hq)

/-- A header cut in two is in bounds when the cut leaves the query whole. -/
theorem callbacks_in_bounds_of_whole_query : List.Forall Call.InBounds (calls (.init false 0) []
    [bytes ['G', 'E', 'T', ' ', '/', '?', 'a', ' '], bytes ['H', 'T', 'T', 'P', '/', '1', '.', '1', '\n', '\n']]) := by
  refine List.forall_iff_forall_mem.mpr fun c hc => (callbacks_in_bounds_iff false (by decide) _ c hc).mpr ?_
  revert c
  decide +kernel

/-- `GET /?a`, then ` HTTP/1.1`: the query ends at offset 0 of a buffer and began at 6 of another. -/
theorem query_string_out_of_bounds : ∃ c ∈ calls (.init false 0) []
    [bytes ['G', 'E', 'T', ' ', '/', '?', 'a'], bytes [' ', 'H', 'T', 'T', 'P', '/', '1', '.', '1', '\n', '\n']],
    ¬ c.InBounds := by
  decide +kernel

end LjrServer.Http
