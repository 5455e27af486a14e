/-
  LjrServer.Http.HttpClientPhases — the status code of a response.

  `atoi` and `strtol` read from `mark` until something is no digit, so they must begin at a
  digit and end where the token does. The states up to the status code are finitely many
  and settled by evaluation; behind it no state has the action.

  Proved:
  - `status_event`: `status_code` is called with a token that begins with a digit, at a byte
    that is none.
-/

import LjrServer.Http.HttpClientParser

namespace LjrServer.Http.HttpClient

open LjrServer.Lib LjrServer.Lib.Scanner LjrServer.Lib.Ragel LjrServer.Lib.Ragel.Machine

abbrev State := Threads Action

def next (s : State) (c : Nat) : Option State := if (step s c).1 = [] then none else some (step s c).1

def isDigit (c : Nat) : Bool := 48 ≤ c ∧ c ≤ 57

def setsMark : Action → Bool
  | .mark | .startValue => true
  | _ => false

/-- Whether `mark` is at a digit after a byte, if it was before. -/
def atDigit (was : Bool) (c : Nat) (acts : List Action) : Bool := if acts.any setsMark then isDigit c else was

def lacksStatus (s : State) : Bool := s.all fun m => Action.statusCode ∉ m.actions

def nextStatus (s : State × Bool) (c : Nat) : Option (State × Bool) :=
  match next s.1 c with
  | none => none
  | some s' => if lacksStatus s' then none else some (s', atDigit s.2 c (step s.1 c).2)

def statusAlphabet : List Nat := ['H', 'T', 'P', '/', '1', '.', ' '].map Char.toNat

/-- Up to the status code, with whether `mark` is at a digit. -/
def statusStates : List (State × Bool) := explore nextStatus statusAlphabet 60 [] [([main], false)]

def statusStep (s : State × Bool) (c : Nat) : Bool :=
  let r := step s.1 c
  if r.1 = [] then true
  else if Action.statusCode ∈ r.2 then r.2 = [.statusCode] ∧ s.2 ∧ ¬ isDigit c ∧ lacksStatus r.1
  else lacksStatus r.1 ∨ (r.1, atDigit s.2 c r.2) ∈ statusStates

def digits : CharSet := { incl := [(48, 57)] }

theorem digits_mem (c : Nat) : digits.mem c = isDigit c := by
  rw [Bool.eq_iff_iff]
  simp [digits, CharSet.mem, CharSet.within, isDigit]

/-- One byte of each kind these states tell apart. -/
def statusKinds : List Nat :=
  ['\x00', '!', 'A', 'B', 'C', 'D', 'E', 'F', 'G', 'H', 'I', 'K', 'L', 'N', 'O', 'P', 'R', 'S', 'T', 'U', 'h', 't',
    '0', ' ', '\t', '\n', '\r', '-', '.', '/', ':', ';', '='].map Char.toNat

theorem status_evaluated : represented (digits :: charSets (statusStates.map (·.1))) statusKinds = true ∧
    (statusStates.all fun s => statusKinds.all (statusStep s)) = true ∧ ([main], false) ∈ statusStates := by
  decide +kernel

theorem status_checked : checked statusStates statusStep = true ∧ ([main], false) ∈ statusStates := by
  obtain ⟨hkinds, hsteps, hstart⟩ := status_evaluated
  refine ⟨checked_of_kinds hkinds ?_ hsteps, hstart⟩
  intro s hs c d hcd
  have hstep : step s.1 c = step s.1 d :=
    step_of_charSets (List.mem_map_of_mem hs) fun x hx => hcd x (List.mem_cons_of_mem _ hx)
  have hdigit : isDigit c = isDigit d := by
    have h := hcd digits List.mem_cons_self
    rwa [digits_mem, digits_mem] at h
  unfold statusStep atDigit
  rw [hstep, hdigit]

/-! ## The status code's callback -/

theorem emit_statusCode (a : Action) (args : List (Arg Reg)) (h : Effect.emit Callback.statusCode args ∈ a.effects) :
    a = .statusCode := by
  cases a with
  | statusCode => rfl
  | _ => simp [Action.effects] at h

theorem action_mark (p : Nat) (g : Regs Reg) (a : Action) :
    (applyAll p g a.effects).1.off .mark = if setsMark a then p else g.off .mark := by
  cases a <;> rfl

theorem applyAll_append {ρ κ : Type} [DecidableEq ρ] (p : Nat) (fs : List (Effect ρ κ)) : ∀ (es : List (Effect ρ κ))
    (g : Regs ρ), (applyAll p g (es ++ fs)).1 = (applyAll p (applyAll p g es).1 fs).1
  | [], _ => rfl
  | _ :: es, _ => applyAll_append p fs es _

theorem actions_mark (p : Nat) : ∀ (as : List Action) (g : Regs Reg),
    (applyAll p g (as.flatMap Action.effects)).1.off .mark = if as.any setsMark then p else g.off .mark
  | [], _ => rfl
  | a :: as, g => by
    rw [List.flatMap_cons, applyAll_append, actions_mark p as, action_mark, List.any_cons]
    cases setsMark a <;> cases as.any setsMark <;> rfl

theorem lacksStatus_iff {s : State} : lacksStatus s = true ↔ ∀ m ∈ s, Action.statusCode ∉ m.actions := by
  simp [lacksStatus]

/-- A byte that is not an error, before or at the end of the status code. -/
theorem status_step {s s' : State} {was : Bool} {b : UInt8} {es : List (Effect Reg Callback)}
    (hs : (s, was) ∈ statusStates) (hA : automaton s b = some (s', es)) :
    (es = [.emit .statusCode [.upto .mark]] ∧ was = true ∧ isDigit b.toNat = false ∧ lacksStatus s' = true) ∨
      ((∀ args, Effect.emit .statusCode args ∉ es) ∧ (lacksStatus s' = true ∨
        (s', atDigit was b.toNat (step s b.toNat).2) ∈ statusStates)) := by
  obtain ⟨hne, rfl, rfl⟩ := automaton_some hA
  have h := checked_at status_checked.1 hs b
  simp only [statusStep, if_neg hne] at h
  by_cases hcode : Action.statusCode ∈ (step s b.toNat).2
  · simp only [if_pos hcode, Bool.decide_and, Bool.and_eq_true, decide_eq_true_eq] at h
    obtain ⟨hacts, hwas, hdigit, hlacks⟩ := h
    exact .inl ⟨by rw [hacts]; rfl, hwas, by simpa using hdigit, hlacks⟩
  · simp only [if_neg hcode, decide_eq_true_eq] at h
    refine .inr ⟨?_, h⟩
    intro args hmem
    obtain ⟨a, ha, he⟩ := List.mem_flatMap.mp hmem
    rw [emit_statusCode a args he] at ha
    exact hcode ha

/-- What `status_code` is called with, in a scan of `R` from its byte `pre.length` on. -/
theorem status_event_from (R : Bytes) : ∀ (bs pre : Bytes) (s : State) (was : Bool) (g : Regs Reg), R = pre ++ bs →
    (s, was) ∈ statusStates →
    (was = true → g.off .mark < pre.length ∧ ∃ d, R[g.off .mark]? = some d ∧ isDigit d.toNat = true) →
    ∀ ev ∈ (scan automaton bs pre.length s g).events, ev.kind = .statusCode →
      ∃ i, ev.args = [⟨i, distance ev.pos i⟩] ∧ i < ev.pos ∧
        (∃ d, R[i]? = some d ∧ isDigit d.toNat = true) ∧ ∃ c, R[ev.pos]? = some c ∧ isDigit c.toNat = false := by
  intro bs
  induction bs with
  | nil =>
    intro pre s was g _ _ _ ev h
    cases h
  | cons b bs ih =>
    intro pre s was g hR hs hmark ev hev hk
    have hb : R[pre.length]? = some b := by
      rw [hR]
      simp
    have hlen : (pre ++ [b]).length = pre.length + 1 := by simp
    -- an event of this byte
    have hthis : ∀ s' es, automaton s b = some (s', es) → ev ∈ (applyAll pre.length g es).2 →
        ∃ i, ev.args = [⟨i, distance ev.pos i⟩] ∧ i < ev.pos ∧
          (∃ d, R[i]? = some d ∧ isDigit d.toNat = true) ∧ ∃ c, R[ev.pos]? = some c ∧ isDigit c.toNat = false := by
      intro s' es hA hmem
      rcases status_step hs hA with ⟨rfl, hwas, hdigit, _⟩ | ⟨hno, _⟩
      · obtain ⟨hlt, hd⟩ := hmark hwas
        rw [List.mem_singleton.mp hmem]
        exact ⟨g.off .mark, rfl, hlt, hd, b, hb, hdigit⟩
      · obtain ⟨args, hargs⟩ := applyAll_kind _ es g ev hmem
        rw [hk] at hargs
        exact absurd hargs (hno args)
    rcases scan_cons automaton b bs pre.length s g with ⟨_, he⟩ | ⟨s', es, hA, _, he⟩ | ⟨s', es, hA, _, he⟩
    · rw [he] at hev
      cases hev
    · rw [he] at hev
      exact hthis s' es hA hev
    · rw [he] at hev
      rcases List.mem_append.mp hev with hev | hev
      · exact hthis s' es hA hev
      · have hrest : lacksStatus s' = true ∨ (s', atDigit was b.toNat (step s b.toNat).2) ∈ statusStates := by
          rcases status_step hs hA with ⟨_, _, _, hl⟩ | ⟨_, h⟩
          · exact .inl hl
          · exact h
        rcases hrest with hlacks | hs'
        · exact absurd hk (no_event emit_statusCode bs _ _ _ (lacksStatus_iff.mp hlacks) ev hev)
        · rw [← hlen] at hev
          refine ih (pre ++ [b]) s' _ _ (by rw [hR]; simp) hs' ?_ ev hev hk
          intro hat
          obtain ⟨_, _, hes⟩ := automaton_some hA
          rw [hes, actions_mark, hlen]
          unfold atDigit at hat
          split
          · next hset =>
            rw [if_pos hset] at hat
            exact ⟨Nat.lt_succ_self _, b, hb, hat⟩
          · next hset =>
            rw [if_neg hset] at hat
            obtain ⟨hlt, hd⟩ := hmark hat
            exact ⟨Nat.lt_succ_of_lt hlt, hd⟩

theorem status_event (R : Bytes) (g : Regs Reg) :
    ∀ ev ∈ (scan automaton R 0 [main] g).events, ev.kind = .statusCode →
      ∃ i, ev.args = [⟨i, distance ev.pos i⟩] ∧ i < ev.pos ∧
        (∃ d, R[i]? = some d ∧ isDigit d.toNat = true) ∧ ∃ c, R[ev.pos]? = some c ∧ isDigit c.toNat = false :=
  status_event_from R R [] [main] false g rfl status_checked.2 fun h => by cases h

end LjrServer.Http.HttpClient
