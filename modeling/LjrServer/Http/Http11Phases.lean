/-
  LjrServer.Http.Http11Phases — where a request parser can be, and what a byte does there.

  The request line is letters up to a space, then a URI up to a space: until then the
  machine cannot have begun a header. What follows is a finite set of states, as is the
  method; both are settled by evaluation. The socket requests have no headers.

  Proved:
  - `phase_step`: a byte keeps to the phases, and a header's value is written only when its
    name has been measured.
  - `method_event`: `request_method` is called once, at the first space, with all the bytes
    before it.
-/

import LjrServer.Http.Http11Parser

namespace LjrServer.Http.Http11

open LjrServer.Lib LjrServer.Lib.Scanner LjrServer.Lib.Ragel LjrServer.Lib.Ragel.Machine

abbrev State := Threads Action

/-! ## The method -/

def letters : CharSet := { incl := [(65, 90), (48, 57)] }

/-- Up to `n` letters, a space and `b`. -/
def methodRest (b : M) (n : Nat) : State :=
  [.finishing 31 .done (.cat (.leaving 1 .requestMethod (.upTo (.set letters) n)) (.cat (ch ' ') b))]

theorem step_methodRest {b : M} (hb : b.nullable = false) (n d : Nat) : step (methodRest b n) d =
    if n ≠ 0 ∧ letters.mem d = true then (methodRest b (n - 1), [])
    else if d = 32 then ([.finishing 31 .done b], [.requestMethod]) else ([], []) := by
  have hsep : (Machine.cat (ch ' ') b).edges d = if 32 = d then [{ next := b }] else [] := Machine.cat_char_edges 32 d b
  have hm : (Machine.leaving 1 Action.requestMethod (.upTo (.set letters) n)).edges d =
      if n ≠ 0 ∧ letters.mem d = true then [{ next := .leaving 1 .requestMethod (.upTo (.set letters) (n - 1)) }]
        else [] := by
    rw [Machine.edges, upTo_edges]
    split <;> rfl
  have hnull : (Machine.leaving 1 Action.requestMethod (.upTo (.set letters) n)).nullable = true := upTo_nullable _ n
  have hout : (Machine.leaving 1 Action.requestMethod (.upTo (.set letters) n)).out = [(1, .requestMethod)] := by
    rw [Machine.out, upTo_out, List.nil_append]
  by_cases h : n ≠ 0 ∧ letters.mem d = true
  · have hd : ¬ 32 = d := by
      rintro rfl
      exact absurd h.2 (by decide)
    rw [if_pos h] at hm ⊢
    rw [if_neg hd] at hsep
    refine step_one (e := { next := _ }) ?_ rfl
    rw [Machine.edges, Machine.edges, hm, hsep]
    simp [Edge.into, Machine.seq, Machine.nullable, ch, Machine.char]
  · rw [if_neg h] at hm ⊢
    by_cases hd : 32 = d
    · rw [if_pos hd] at hsep
      rw [if_pos hd.symm]
      refine step_one (e := { acts := [(1, .requestMethod)], next := .finishing 31 .done b }) ?_ rfl
      rw [Machine.edges, Machine.edges, hm, hsep, hnull, hout]
      simp [Edge.act, Edge.into, hb]
    · rw [if_neg hd] at hsep
      rw [if_neg (Ne.symm hd)]
      refine step_none ?_
      rw [Machine.edges, Machine.edges, hm, hsep]
      simp

/-! ## The header lines -/

def afterUri : State := [.finishing 31 .done (versionOn 16)]

def next (s : State) (c : Nat) : Option State := if (step s c).1 = [] then none else some (step s c).1

/-- What the field actions do to "the name's length has been measured"; `none` when a value
    is written before it has. -/
def fieldOrder : Bool → List Action → Option Bool
  | measured, [] => some measured
  | _, .startField :: as => fieldOrder false as
  | _, .writeField :: as => fieldOrder true as
  | measured, .writeValue :: as => if measured then fieldOrder measured as else none
  | measured, _ :: as => fieldOrder measured as

def nextField (s : State × Bool) (c : Nat) : Option (State × Bool) :=
  (next s.1 c).bind fun s' => (fieldOrder s.2 (step s.1 c).2).map fun measured => (s', measured)

def headerAlphabet : List Nat := ['H', 'T', 'P', '/', '1', '.', '0', '\r', '\n', ':', ' ', 'a'].map Char.toNat

/-- From the version on, with what a call can find: a new one has measured what there is. -/
def headerStates : List (State × Bool) :=
  let states := explore nextField headerAlphabet 400 [] [(afterUri, true)]
  explore nextField headerAlphabet 400 [] (states.map fun s => (s.1, true))

def headerStep (s : State × Bool) (c : Nat) : Bool :=
  let r := step s.1 c
  if r.1 = [] then true else
    match fieldOrder s.2 r.2 with
    | some measured => (r.1, measured) ∈ headerStates
    | none => false

/-- One byte of each kind these states tell apart. -/
def headerKinds : List Nat :=
  ['a', '"', '\x00', 'H', 'T', 'P', '/', '1', '.', '0', '\r', '\n', ':', ' '].map Char.toNat

theorem header_evaluated : represented (charSets (headerStates.map (·.1))) headerKinds = true ∧
    (headerStates.all fun s => headerKinds.all (headerStep s)) = true ∧
    (afterUri, true) ∈ headerStates ∧ ∀ s ∈ headerStates, (s.1, true) ∈ headerStates := by
  decide +kernel

theorem header_checked : checked headerStates headerStep = true ∧ (afterUri, true) ∈ headerStates ∧
    ∀ s ∈ headerStates, (s.1, true) ∈ headerStates := by
  obtain ⟨hkinds, hsteps, hcall⟩ := header_evaluated
  refine ⟨checked_of_kinds hkinds ?_ hsteps, hcall⟩
  intro s hs c d hcd
  unfold headerStep
  rw [step_of_charSets (List.mem_map_of_mem hs) hcd]

/-! ## The first byte -/

def socketActions : List Action := [.mark, .requestPath, .done, .xml, .json]

def firstStep (uriRelaxed : Bool) (s : State) (c : Nat) : Bool :=
  let r := step s c
  if r.1 = [] then true
  else r.2 = [.mark] ∧ ((c ≠ 32 ∧ r.1 = methodRest (uriOn uriRelaxed 2) 19) ∨
    r.1.all fun m => m.actions.all (· ∈ socketActions))

theorem first_checked (uriRelaxed : Bool) : checked [[main uriRelaxed]] (firstStep uriRelaxed) = true := by
  cases uriRelaxed <;> decide +kernel

theorem first_step {uriRelaxed : Bool} {b : UInt8} (hne : (step [main uriRelaxed] b.toNat).1 ≠ []) :
    (step [main uriRelaxed] b.toNat).2 = [.mark] ∧
      ((b ≠ 32 ∧ (step [main uriRelaxed] b.toNat).1 = methodRest (uriOn uriRelaxed 2) 19) ∨
        ∀ m ∈ (step [main uriRelaxed] b.toNat).1, ∀ x ∈ m.actions, x ∈ socketActions) := by
  have h := checked_at (first_checked uriRelaxed) List.mem_cons_self b
  simp only [firstStep, if_neg hne, Bool.decide_and, Bool.and_eq_true, decide_eq_true_eq, Bool.decide_or,
    Bool.or_eq_true, List.all_eq_true] at h
  exact ⟨h.1, h.2.imp_left fun h => ⟨fun hb => h.1 (by rw [hb]; rfl), h.2⟩⟩

/-! ## Phases -/

def uriActions : List Action := [.mark, .requestUri, .fragment, .startQuery, .queryString, .requestPath]

/-- Up to the space that ends the URI. -/
def InUri (m : M) : Prop := Before 32 31 .done uriActions (versionOn 16) m

/-- Where a parser can be, and whether the field name it has begun, if any, is measured. -/
inductive Phase (uriRelaxed : Bool) : State → Bool → Prop
  | start : Phase uriRelaxed [main uriRelaxed] true
  | method (n : Nat) : Phase uriRelaxed (methodRest (uriOn uriRelaxed 2) n) true
  | uri {s : State} (h : ∀ m ∈ s, InUri m) : Phase uriRelaxed s true
  | headers {s : State} {measured : Bool} (h : (s, measured) ∈ headerStates) : Phase uriRelaxed s measured
  | socket {s : State} (h : ∀ m ∈ s, ∀ x ∈ m.actions, x ∈ socketActions) : Phase uriRelaxed s true

theorem Phase.call {uriRelaxed : Bool} {s : State} {measured : Bool} (h : Phase uriRelaxed s measured) :
    Phase uriRelaxed s true := by
  cases h with
  | start => exact .start
  | method n => exact .method n
  | uri h => exact .uri h
  | headers h => exact .headers (header_checked.2.2 _ h)
  | socket h => exact .socket h

theorem inUri_afterMethod (uriRelaxed : Bool) : InUri (.finishing 31 .done (uriOn uriRelaxed 2)) := by
  refine ⟨uriReference uriRelaxed 2, ?_, ?_, .inl rfl⟩
  · cases uriRelaxed <;> decide +kernel
  · cases uriRelaxed <;> decide +kernel

def isField : Action → Bool
  | .startField | .writeField | .writeValue => true
  | _ => false

theorem fieldOrder_of_quiet (measured : Bool) : ∀ {as : List Action}, (∀ a ∈ as, isField a = false) →
    fieldOrder measured as = some measured
  | [], _ => rfl
  | a :: as, h => by
    have ih := fieldOrder_of_quiet measured fun a ha => h a (List.mem_cons_of_mem _ ha)
    have ha := h a List.mem_cons_self
    cases a <;> first | exact ih | cases ha

/-- One byte that is not an error. -/
theorem phase_step {uriRelaxed : Bool} {s : State} {measured : Bool} (h : Phase uriRelaxed s measured) (b : UInt8)
    (hne : (step s b.toNat).1 ≠ []) :
    ∃ measured', fieldOrder measured (step s b.toNat).2 = some measured' ∧
      Phase uriRelaxed (step s b.toNat).1 measured' := by
  cases h with
  | start =>
    obtain ⟨hacts, hnext⟩ := first_step hne
    refine ⟨true, by rw [hacts]; rfl, ?_⟩
    rcases hnext with ⟨_, hnext⟩ | hnext
    · rw [hnext]
      exact .method 19
    · exact .socket hnext
  | method n =>
    have hn : (uriOn uriRelaxed 2).nullable = false := by cases uriRelaxed <;> decide +kernel
    rw [step_methodRest hn] at hne ⊢
    split
    · exact ⟨true, rfl, .method (n - 1)⟩
    · next hl =>
      rw [if_neg hl] at hne
      split
      · refine ⟨true, rfl, .uri ?_⟩
        intro m hm
        rw [List.mem_singleton.mp hm]
        exact inUri_afterMethod uriRelaxed
      · next hsp =>
        rw [if_neg hsp] at hne
        exact absurd rfl hne
  | uri h =>
    obtain ⟨hacts, hnext⟩ := step_before h (by decide +kernel) b.toNat
    refine ⟨true, fieldOrder_of_quiet true fun a ha => ?_, ?_⟩
    · have hquiet : ∀ a ∈ uriActions, isField a = false := by decide
      exact hquiet a (hacts a ha)
    · rcases hnext with ⟨_, hnext⟩ | ⟨_, hnext | hnext⟩
      · exact .uri hnext
      · exact absurd hnext hne
      · rw [hnext]
        exact .headers header_checked.2.1
  | headers h =>
    have h := checked_at header_checked.1 h b
    simp only [headerStep, if_neg hne] at h
    split at h
    · next measured' hm => exact ⟨measured', hm, .headers (of_decide_eq_true h)⟩
    · cases h
  | socket h =>
    refine ⟨true, fieldOrder_of_quiet true fun a ha => ?_, .socket fun m hm x hx => ?_⟩
    · have hquiet : ∀ a ∈ socketActions, isField a = false := by decide
      obtain ⟨m, hm, e, he, t, ht⟩ := mem_step_acts ha
      exact hquiet a (h m hm a (edges_actions he (.inl ⟨t, ht⟩)))
    · obtain ⟨m', hm', e, he, rfl⟩ := mem_step_next hm
      exact h m' hm' x (edges_actions he (.inr hx))

/-! ## The method's callback -/

theorem emit_requestMethod (a : Action) (args : List (Arg Reg)) (h : Effect.emit Callback.requestMethod args ∈ a.effects) :
    a = .requestMethod := by
  cases a <;> simp [Action.effects] at h
  rfl

theorem uri_lacks_method (uriRelaxed : Bool) : Action.requestMethod ∉ (uriOn uriRelaxed 2).actions := by
  cases uriRelaxed <;> decide +kernel

theorem method_event_rest (uriRelaxed : Bool) : ∀ (bs : Bytes) (p n : Nat) (g : Regs Reg), g.off .mark = 0 →
    ∀ ev ∈ (scan automaton bs p (methodRest (uriOn uriRelaxed 2) n) g).events, ev.kind = .requestMethod →
      ∃ T Y, bs = T ++ 32 :: Y ∧ 32 ∉ T ∧ ev.pos = p + T.length ∧ ev.args = [⟨0, distance ev.pos 0⟩]
  | [], _, _, _, _, _, h, _ => by cases h
  | b :: bs, p, n, g, hg, ev, h, hk => by
    have hn : (uriOn uriRelaxed 2).nullable = false := by cases uriRelaxed <;> decide +kernel
    have hstep := step_methodRest hn n b.toNat
    have hmark : ∀ s' es, automaton (methodRest (uriOn uriRelaxed 2) n) b = some (s', es) →
        (b ≠ 32 ∧ s' = methodRest (uriOn uriRelaxed 2) (n - 1) ∧ es = []) ∨
        (b = 32 ∧ s' = [.finishing 31 .done (uriOn uriRelaxed 2)] ∧ es = [.emit .requestMethod [.upto .mark]]) := by
      intro s' es hA
      obtain ⟨hne, rfl, rfl⟩ := automaton_some hA
      rw [hstep] at hne ⊢
      split
      · next hl =>
        refine .inl ⟨?_, rfl, rfl⟩
        rintro rfl
        exact absurd hl.2 (by decide)
      · next hl =>
        rw [if_neg hl] at hne
        split
        · next hsp => exact .inr ⟨UInt8.toNat_inj.mp hsp, rfl, rfl⟩
        · next hsp =>
          rw [if_neg hsp] at hne
          exact absurd rfl hne
    rcases scan_cons automaton b bs p (methodRest (uriOn uriRelaxed 2) n) g with
      ⟨_, he⟩ | ⟨s', es, hA, hs, he⟩ | ⟨s', es, hA, _, he⟩
    · rw [he] at h
      cases h
    · rcases hmark s' es hA with ⟨_, _, rfl⟩ | ⟨_, _, rfl⟩
      · cases hs
      · cases hs
    · rw [he] at h
      rcases hmark s' es hA with ⟨hb, rfl, rfl⟩ | ⟨rfl, rfl, rfl⟩
      · obtain ⟨T, Y, rfl, hT, hpos, hargs⟩ := method_event_rest uriRelaxed bs (p + 1) (n - 1) g hg ev h hk
        refine ⟨b :: T, Y, rfl, ?_, by rw [hpos, List.length_cons]; omega, hargs⟩
        rw [List.mem_cons, not_or]
        exact ⟨Ne.symm hb, hT⟩
      · rcases List.mem_append.mp h with h | h
        · rw [List.mem_singleton.mp h]
          exact ⟨[], bs, rfl, List.not_mem_nil, rfl, by simp [Regs.slice, hg]⟩
        · refine absurd hk (no_event emit_requestMethod bs (p + 1) _ _ ?_ ev h)
          intro m hm hx
          rw [List.mem_singleton.mp hm] at hx
          rcases List.mem_cons.mp hx with hx | hx
          · cases hx
          · exact uri_lacks_method uriRelaxed hx

/-- In a buffer that begins with the request, `request_method` is called with all bytes up to
    the first space, when that is read. -/
theorem method_event (uriRelaxed : Bool) (bs : Bytes) (g : Regs Reg) :
    ∀ ev ∈ (scan automaton bs 0 [main uriRelaxed] g).events, ev.kind = .requestMethod →
      ∃ T Y, bs = T ++ 32 :: Y ∧ 32 ∉ T ∧ ev.pos = T.length ∧ ev.args = [⟨0, distance ev.pos 0⟩] := by
  intro ev h hk
  cases bs with
  | nil => cases h
  | cons b bs =>
    have hfirst : ∀ s' es, automaton [main uriRelaxed] b = some (s', es) → es = [.save .mark] ∧
        ((b ≠ 32 ∧ s' = methodRest (uriOn uriRelaxed 2) 19) ∨ ∀ m ∈ s', Action.requestMethod ∉ m.actions) := by
      intro s' es hA
      obtain ⟨hne, hs', hes⟩ := automaton_some hA
      rw [← hs'] at hne
      obtain ⟨hacts, hnext⟩ := first_step hne
      rw [hs'] at hnext
      refine ⟨by rw [hes, hacts]; rfl, hnext.imp_right fun h m hm hx => ?_⟩
      exact absurd (h m hm _ hx) (by decide)
    rcases scan_cons automaton b bs 0 [main uriRelaxed] g with ⟨_, he⟩ | ⟨s', es, hA, hs, he⟩ | ⟨s', es, hA, _, he⟩
    · rw [he] at h
      cases h
    · rw [(hfirst s' es hA).1] at hs
      cases hs
    · obtain ⟨rfl, hnext⟩ := hfirst s' es hA
      rw [he] at h
      rcases hnext with ⟨hb, rfl⟩ | hlacks
      · obtain ⟨T, Y, rfl, hT, hpos, hargs⟩ := method_event_rest uriRelaxed bs 1 19 _ rfl ev h hk
        refine ⟨b :: T, Y, rfl, ?_, by rw [hpos, List.length_cons]; omega, hargs⟩
        rw [List.mem_cons, not_or]
        exact ⟨Ne.symm hb, hT⟩
      · exact absurd hk (no_event emit_requestMethod bs 1 s' _ hlacks ev h)

end LjrServer.Http.Http11
