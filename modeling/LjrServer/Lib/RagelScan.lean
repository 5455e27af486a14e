/-
  LjrServer.Lib.RagelScan — a Ragel machine as a scanner: its actions are given effects, and
  the state without threads is the error state.

  Proved:
  - `no_event`: an action the machine lacks causes no event.
  - `not_final_of_more`: a machine that stops at its finishing action is not final while a
    scan has not stopped.
  - `final_of_stopped`: it is final when the scan has, if nothing else stops it.
-/

import LjrServer.Lib.RagelFacts
import LjrServer.Lib.Offsets

namespace LjrServer.Lib.Ragel

open LjrServer.Lib.Scanner

variable {α ρ κ : Type} [DecidableEq α] [DecidableEq ρ]

def automaton (effects : α → List (Effect ρ κ)) : Automaton (Threads α) ρ κ := fun cs b =>
  let r := step cs b.toNat
  if r.1 = [] then none else some (r.1, r.2.flatMap effects)

variable {effects : α → List (Effect ρ κ)}

omit [DecidableEq ρ] in
theorem automaton_some {s s' : Threads α} {b : UInt8} {es : List (Effect ρ κ)}
    (h : automaton effects s b = some (s', es)) :
    s' ≠ [] ∧ (step s b.toNat).1 = s' ∧ es = (step s b.toNat).2.flatMap effects := by
  unfold automaton at h
  dsimp only at h
  split at h
  · cases h
  · next hne =>
    cases h
    exact ⟨hne, rfl, rfl⟩

theorem scan_ne_nil (bs : List UInt8) (p : Nat) (s : Threads α) (g : Regs ρ) (h : s ≠ []) :
    (scan (automaton effects) bs p s g).state ≠ [] :=
  scan_state _ (fun _ _ _ _ _ hA => (automaton_some hA).1) bs p s g h

/-! ## Events -/

omit [DecidableEq α] [DecidableEq ρ] in
theorem stop_mem {acts : List α} {a : α} (ha : a ∈ acts) (h : (effects a).any isStop = true) :
    (acts.flatMap effects).any isStop = true := by
  obtain ⟨e, he, hs⟩ := List.any_eq_true.mp h
  exact List.any_eq_true.mpr ⟨e, List.mem_flatMap.mpr ⟨a, ha, he⟩, hs⟩

/-- Without the action that causes them there are no events of a kind. -/
theorem no_event {x : α} {k : κ} (hk : ∀ a args, Effect.emit k args ∈ effects a → a = x) :
    ∀ (bs : List UInt8) (p : Nat) (s : Threads α) (g : Regs ρ), (∀ m ∈ s, x ∉ m.actions) →
      ∀ ev ∈ (scan (automaton effects) bs p s g).events, ev.kind ≠ k
  | [], _, _, _, _, _, h => by cases h
  | b :: bs, p, s, g, hs, ev, h => by
    obtain ⟨hacts, hnext⟩ := step_lacks hs b.toNat
    have hev : ∀ es, es = (step s b.toNat).2.flatMap effects → ev ∈ (applyAll p g es).2 → ev.kind ≠ k := by
      rintro es rfl hmem rfl
      obtain ⟨args, hargs⟩ := applyAll_kind p _ g ev hmem
      obtain ⟨a, ha, he⟩ := List.mem_flatMap.mp hargs
      rw [hk a args he] at ha
      exact hacts ha
    rcases scan_cons (automaton effects) b bs p s g with ⟨_, he⟩ | ⟨s', es, hA, _, he⟩ | ⟨s', es, hA, _, he⟩
    · rw [he] at h
      cases h
    · rw [he] at h
      exact hev es (automaton_some hA).2.2 h
    · obtain ⟨_, rfl, hes⟩ := automaton_some hA
      rw [he] at h
      rcases List.mem_append.mp h with h | h
      · exact hev es hes h
      · exact no_event hk bs (p + 1) _ _ hnext ev h

/-- An action that stops the scan causes no event in one that goes on. -/
theorem no_event_of_more {k : κ} (hk : ∀ a args, Effect.emit k args ∈ effects a → (effects a).any isStop = true)
    (bs : List UInt8) (p : Nat) (s : Threads α) (g : Regs ρ) (h : (scan (automaton effects) bs p s g).ending = .more) :
    ∀ ev ∈ (scan (automaton effects) bs p s g).events, ev.kind ≠ k := by
  refine scan_more_kind _ ?_ bs p s g h
  intro s b s' es hA hstop args hmem
  obtain ⟨_, _, rfl⟩ := automaton_some hA
  obtain ⟨a, ha, he⟩ := List.mem_flatMap.mp hmem
  rw [stop_mem ha (hk a args he)] at hstop
  cases hstop

/-! ## Final states -/

/-- Under one finishing action, as the threads of `m @x` are. -/
def Under (t : Nat) (x : α) (s : Threads α) : Prop := ∀ m ∈ s, ∃ m', m = .finishing t x m'

variable {t : Nat} {x : α}

omit [DecidableEq ρ] in
theorem under_step (hstop : (effects x).any isStop = true) {s s' : Threads α} {b : UInt8} {es : List (Effect ρ κ)}
    (hs : Under t x s) (h : automaton effects s b = some (s', es)) :
    Under t x s' ∧ (es.any isStop = false → isFinal s' = false) := by
  obtain ⟨_, rfl, rfl⟩ := automaton_some h
  obtain ⟨hnext, hfinal⟩ := step_finishing hs b.toNat
  refine ⟨hnext, fun hgo => Bool.eq_false_iff.mpr fun hf => ?_⟩
  rw [stop_mem (hfinal hf) hstop] at hgo
  cases hgo

theorem under_scan (hstop : (effects x).any isStop = true) {bs : List UInt8} {p : Nat} {s : Threads α} {g : Regs ρ}
    (hs : Under t x s) : Under t x (scan (automaton effects) bs p s g).state :=
  scan_state _ (fun _ _ _ _ hs hA => (under_step hstop hs hA).1) bs p s g hs

theorem not_final_of_more (hstop : (effects x).any isStop = true) {bs : List UInt8} {p : Nat} {s : Threads α}
    {g : Regs ρ} (hs : Under t x s) (hbs : bs ≠ []) (h : (scan (automaton effects) bs p s g).ending = .more) :
    isFinal (scan (automaton effects) bs p s g).state = false :=
  scan_more_state _ (fun _ _ _ _ hs hA => under_step hstop hs hA) bs p s g hbs hs h

/-- Under one finishing action that is nowhere inside. -/
def Alone (t : Nat) (x : α) (s : Threads α) : Prop := ∀ m ∈ s, ∃ m', m = .finishing t x m' ∧ x ∉ m'.actions

omit [DecidableEq ρ] in
theorem alone_step (hstops : ∀ a, (effects a).any isStop = true → a = x) {s s' : Threads α} {b : UInt8}
    {es : List (Effect ρ κ)} (hs : Alone t x s) (h : automaton effects s b = some (s', es)) :
    Alone t x s' ∧ (es.any isStop = true → isFinal s' = true) := by
  obtain ⟨_, rfl, rfl⟩ := automaton_some h
  obtain ⟨hnext, hfinal⟩ := step_finished hs b.toNat
  refine ⟨hnext, fun hstop => hfinal ?_⟩
  obtain ⟨e, he, hstop⟩ := List.any_eq_true.mp hstop
  obtain ⟨a, ha, hea⟩ := List.mem_flatMap.mp he
  rwa [← hstops a (List.any_eq_true.mpr ⟨e, hea, hstop⟩)]

theorem alone_scan (hstops : ∀ a, (effects a).any isStop = true → a = x) {bs : List UInt8} {p : Nat} {s : Threads α}
    {g : Regs ρ} (hs : Alone t x s) : Alone t x (scan (automaton effects) bs p s g).state :=
  scan_state _ (fun _ _ _ _ hs hA => (alone_step hstops hs hA).1) bs p s g hs

/-- A machine that only its finishing action stops is stopped in a final state. -/
theorem final_of_stopped (hstops : ∀ a, (effects a).any isStop = true → a = x) {bs : List UInt8} {p : Nat}
    {s : Threads α} {g : Regs ρ} (hs : Alone t x s) (h : (scan (automaton effects) bs p s g).ending = .stopped) :
    isFinal (scan (automaton effects) bs p s g).state = true :=
  scan_stopped_state _ (fun _ _ _ _ hs hA => alone_step hstops hs hA) bs p s g hs h

end LjrServer.Lib.Ragel
