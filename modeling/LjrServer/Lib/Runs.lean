/-
  LjrServer.Lib.Runs — runs of a step function, with their histories.

  A history lists the steps of a run, newest first, each with the state it was made in, so
  what a step was and did can be read off it. `none` is a step that is not possible.

  Proved:
  - `Run.invariant`: what holds first and is kept by every step that meets a condition holds
    after every run whose steps meet it; `Run.history` is the same for a property of the
    state and its history together.
  - `Run.throughout_iff`: what each step keeps exactly when it meets a condition holds in
    all states of a run exactly when all its steps meet it.
  - `Run.simulated`: where each step that meets a condition is answered by one of another
    system, with a relation between the two that the steps keep, every run whose steps all
    meet it is answered by the run of their answers.
  - `Run.cut`, `Run.cut_step`: a run is a run up to any of its steps, and one from there.
  - `walk_run`: what `walk` computes from a list of steps is a run, each step of which met
    the condition `walk` tested.
-/

namespace LjrServer.Lib

variable {σ α : Type} {step : σ → α → Option σ}

abbrev History (σ α : Type) := List (σ × α)

inductive Run (step : σ → α → Option σ) (s₀ : σ) : History σ α → σ → Prop
  | nil : Run step s₀ [] s₀
  | step {τ : History σ α} {s s' : σ} {a : α} : Run step s₀ τ s → step s a = some s' → Run step s₀ ((s, a) :: τ) s'

/-- Every step of the history was made in a state that met the condition. -/
def Meets (C : σ → α → Prop) (τ : History σ α) : Prop := ∀ p ∈ τ, C p.1 p.2

/-- Every step met the condition, which may look at the steps before it. -/
def MeetsAfter (C : History σ α → σ → α → Prop) : History σ α → Prop
  | [] => True
  | (s, a) :: τ => C τ s a ∧ MeetsAfter C τ

instance MeetsAfter.decidable (C : History σ α → σ → α → Prop) [∀ τ s a, Decidable (C τ s a)] :
    DecidablePred (MeetsAfter C)
  | [] => isTrue trivial
  | (s, a) :: τ =>
    have := MeetsAfter.decidable C τ
    inferInstanceAs (Decidable (C τ s a ∧ MeetsAfter C τ))

namespace Run

variable {s₀ s : σ} {τ : History σ α} {C : σ → α → Prop}

theorem meets_cons {a : α} : Meets C ((s, a) :: τ) ↔ C s a ∧ Meets C τ := List.forall_mem_cons

theorem history {I : History σ α → σ → Prop} (h₀ : I [] s₀)
    (hstep : ∀ τ s a s', I τ s → C s a → step s a = some s' → I ((s, a) :: τ) s')
    (hr : Run step s₀ τ s) (hc : Meets C τ) : I τ s := by
  induction hr with
  | nil => exact h₀
  | step _ hs ih =>
    obtain ⟨ha, hc'⟩ := meets_cons.mp hc
    exact hstep _ _ _ _ (ih hc') ha hs

theorem invariant {I : σ → Prop} (h₀ : I s₀) (hstep : ∀ s a s', I s → C s a → step s a = some s' → I s')
    (hr : Run step s₀ τ s) (hc : Meets C τ) : I s :=
  hr.history (I := fun _ => I) h₀ (fun _ => hstep) hc

/-- The run up to a step of it, and the run from there. -/
theorem cut {τ' : History σ α} (hr : Run step s₀ (τ' ++ τ) s) : ∃ t, Run step s₀ τ t ∧ Run step t τ' s := by
  induction τ' generalizing s with
  | nil => exact ⟨s, hr, .nil⟩
  | cons p τ' ih =>
    cases hr with
    | step hr hs =>
      obtain ⟨t, ht, ht'⟩ := ih hr
      exact ⟨t, ht, .step ht' hs⟩

/-- A step of the run, the state it leads to and the run from there. -/
theorem cut_step {later : History σ α} {p : σ × α} (hr : Run step s₀ (later ++ p :: τ) s) :
    ∃ t, Run step s₀ τ p.1 ∧ step p.1 p.2 = some t ∧ Run step t later s := by
  obtain ⟨t, hr', hlater⟩ := hr.cut
  cases hr' with
  | step hτ hs => exact ⟨t, hτ, hs, hlater⟩

/-- Where each step is from a state with the property, and keeps it exactly by meeting a
    condition, all states of a run have it exactly when every step meets the condition. -/
theorem throughout_iff {J I : σ → Prop} (hJ₀ : J s₀) (hI₀ : I s₀) (hJ : ∀ s a s', J s → step s a = some s' → J s')
    (hI : ∀ s a s', J s → I s → step s a = some s' → (I s' ↔ C s a)) (hr : Run step s₀ τ s) :
    J s ∧ ((∀ u ∈ s :: τ.map Prod.fst, I u) ↔ Meets C τ) := by
  induction hr with
  | nil => exact ⟨hJ₀, by simp [hI₀, Meets]⟩
  | step hr hs ih =>
    obtain ⟨hj, hiff⟩ := ih
    refine ⟨hJ _ _ _ hj hs, ?_⟩
    rw [meets_cons, ← hiff, List.forall_mem_cons, List.map_cons, List.forall_mem_cons]
    constructor
    · intro h
      exact ⟨(hI _ _ _ hj h.2.1 hs).mp h.1, h.2⟩
    · intro h
      exact ⟨(hI _ _ _ hj h.2.1 hs).mpr h.1, h.2⟩

/-- `answer` is the step of the other system that answers one of this. -/
theorem simulated {β γ : Type} {spec : β → γ → Option β} {answer : σ × α → γ} {R : History σ α → σ → β → Prop} {b₀ : β}
    (h₀ : R [] s₀ b₀)
    (hstep : ∀ τ s b a s', R τ s b → C s a → step s a = some s' →
      ∃ b', spec b (answer (s, a)) = some b' ∧ R ((s, a) :: τ) s' b')
    (hr : Run step s₀ τ s) (hc : Meets C τ) :
    ∃ τ' b, Run spec b₀ τ' b ∧ τ'.map Prod.snd = τ.map answer ∧ R τ s b := by
  induction hr with
  | nil => exact ⟨[], b₀, .nil, rfl, h₀⟩
  | step _ hs ih =>
    obtain ⟨ha, hc'⟩ := meets_cons.mp hc
    obtain ⟨τ', b, hr', hacts, hR⟩ := ih hc'
    obtain ⟨b', hs', hR'⟩ := hstep _ _ _ _ _ hR ha hs
    exact ⟨_, b', .step hr' hs', congrArg (_ :: ·) hacts, hR'⟩

theorem append {t : σ} {τ' : History σ α} (hr : Run step s₀ τ t) (hr' : Run step t τ' s) : Run step s₀ (τ' ++ τ) s := by
  induction hr' with
  | nil => exact hr
  | step _ hs ih => exact .step ih hs

end Run

/-! ## Runs that are computed -/

/-- Makes the steps one after another, each if the condition holds; the history and the
    state after it. -/
def walk (step : σ → α → Option σ) (C : σ → α → Prop) [∀ s a, Decidable (C s a)] (τ : History σ α) (s : σ) :
    List α → Option (History σ α × σ)
  | [] => some (τ, s)
  | a :: as => if C s a then (step s a).bind fun s' => walk step C ((s, a) :: τ) s' as else none

theorem walk_run {C : σ → α → Prop} [∀ s a, Decidable (C s a)] {s₀ s s' : σ} {τ τ' : History σ α} {as : List α}
    (hr : Run step s₀ τ s) (hc : Meets C τ) (hw : walk step C τ s as = some (τ', s')) : Run step s₀ τ' s' ∧ Meets C τ' := by
  induction as generalizing τ s with
  | nil =>
    cases hw
    exact ⟨hr, hc⟩
  | cons a as ih =>
    unfold walk at hw
    split at hw
    · rename_i ha
      obtain ⟨t, ht, hw'⟩ := Option.bind_eq_some_iff.mp hw
      exact ih (.step hr ht) (Run.meets_cons.mpr ⟨ha, hc⟩) hw'
    · cases hw

/-- A computed run, and what a test of its history and last state found. -/
theorem exists_run (step : σ → α → Option σ) (C : σ → α → Prop) [∀ s a, Decidable (C s a)] (s₀ : σ) (as : List α)
    (test : History σ α → σ → Bool) (hw : (walk step C [] s₀ as).any (fun p => test p.1 p.2) = true) :
    ∃ τ s, Run step s₀ τ s ∧ Meets C τ ∧ test τ s = true := by
  cases hp : walk step C [] s₀ as with
  | none =>
    rw [hp] at hw
    cases hw
  | some p =>
    rw [hp] at hw
    obtain ⟨hr, hc⟩ := walk_run .nil (fun _ h => nomatch h) hp
    exact ⟨p.1, p.2, hr, hc, hw⟩

end LjrServer.Lib
