/-
  LjrServer.Scheduler.Stopping — what `stopping()` says about the work that is left.

  `run` counts itself out of `m_activeThreadCount` before it looks at the fiber that came back
  and puts a READY one in the queue again. In between the fiber is in neither.

  Proved:
  - `stopping_drained`: in every run, `stopping()` true means an empty queue and no worker with
    a task.
  - `stopping_is_done`: it also means that no READY fiber is on its way back to the queue, in
    every run where no such gap is open when the last of the four conditions comes true.
  - `stopping_between`: a run where the gap is open, and another worker's idle fiber ends.
-/

import LjrServer.Scheduler.Conservation

namespace LjrServer.Scheduler

open LjrServer.Lib
open LjrServer.IoManager (FiberState Task)

variable {threads : List Nat} {s s' : Scheduler} {a : Action} {t u : Nat} {τ : History Scheduler Action}

/-- The worker has counted itself out and has a READY fiber to put back. -/
def awaitsRequeue (s : Scheduler) (t : Nat) : Bool :=
  match (s.worker t).pc with
  | .run .after _ f => (s.heap f).state == .READY
  | .run .again _ _ => true
  | _ => false

/-- All that `stopping()` asks for but the count, with one task left. -/
def lastTask (s : Scheduler) : Prop :=
  s.autoStop = true ∧ s.stopping = true ∧ s.fibers = [] ∧ s.activeThreadCount = 1

/-- The step that makes `stopping()` true is not made while a READY fiber is on its way back. -/
def Settled (threads : List Nat) (s : Scheduler) : Action → Prop
  | .worker t =>
    match (s.worker t).pc with
    | .run .returned _ f => lastTask s → (s.heap f).state ≠ .READY ∧ ∀ u ∈ threads, awaitsRequeue s u = false
    | .finished => lastTask s → ∀ u ∈ threads, awaitsRequeue s u = false
    | _ => True
  | .setAutoStop =>
    s.stopping = true → s.fibers = [] → s.activeThreadCount = 0 → ∀ u ∈ threads, awaitsRequeue s u = false
  | .setStopping =>
    s.autoStop = true → s.fibers = [] → s.activeThreadCount = 0 → ∀ u ∈ threads, awaitsRequeue s u = false
  | _ => True

instance (s : Scheduler) : Decidable (lastTask s) := inferInstanceAs (Decidable (_ ∧ _))

instance (threads : List Nat) (s : Scheduler) (a : Action) : Decidable (Settled threads s a) := by
  unfold Settled
  rcases a with t | _ <;> try infer_instance
  dsimp only
  generalize (s.worker t).pc = pc
  rcases pc with _ | _ | _ | _ | ⟨stage, _, _⟩ | _ <;> try infer_instance
  rcases stage with _ | _ <;> infer_instance

theorem isStopping_iff :
    s.isStopping = true ↔ s.autoStop = true ∧ s.stopping = true ∧ s.fibers = [] ∧ s.activeThreadCount = 0 := by
  simp only [isStopping, Bool.and_eq_true, List.isEmpty_iff, beq_iff_eq, and_assoc]

/-- A fiber becomes READY by its own step only. -/
theorem turn_ready {f : Nat} (h : Turn s a s') (hf : (s'.heap f).state = .READY) :
    (s.heap f).state = .READY ∨ ∃ t, a.actor = some t ∧ counted (s.worker t) = true := by
  cases h with
  | leave hpc => exact .inr ⟨_, rfl, by simp [counted, hpc, Pc.counted, Stage.counted]⟩
  | reuseFiber | clear =>
    simp only [goto_frame, setFiber_heap] at hf
    split at hf
    · cases hf
    · exact .inl hf
  | makeFiber | newFiber =>
    simp only [setWorker_frame, newFiber_heap] at hf
    split at hf
    · cases hf
    · exact .inl hf
  | enter | hold =>
    simp only [goto_frame, dropCbFiber_frame, setState_heap] at hf
    split at hf
    · cases hf
    · exact .inl hf
  | _ => exact .inl (by simpa using hf)

/-- A READY fiber comes to wait for its worker only by steps of workers that have a task. -/
theorem turn_awaits (h : Turn s a s') (hu : awaitsRequeue s' u = true) :
    awaitsRequeue s u = true ∨ ∃ t, a.actor = some t ∧ counted (s.worker t) = true := by
  by_cases hact : a.actor = some u
  · cases h <;> cases hact <;> rename_i hpc <;>
      simp_all [awaitsRequeue, goto_worker, setWorker_worker, counted, Pc.counted, Stage.counted, Action.actor]
  · rw [awaitsRequeue, turn_worker h hact] at hu
    unfold awaitsRequeue
    split at hu
    · exact (turn_ready h (beq_iff_eq.mp hu)).imp_left fun hf => beq_iff_eq.mpr hf
    · exact .inl rfl
    · cases hu

/-- `stopping()` comes true by the last decrement or by the last flag. -/
theorem turn_stopping (h : Turn s a s') (hn : 0 ≤ s.activeThreadCount) (hs : s'.isStopping = true) :
    s.isStopping = true ∨
      (lastTask s ∧ s'.heap = s.heap ∧ ∃ t, a = .worker t ∧
        ((∃ br f, (s.worker t).pc = .run .returned br f) ∨ (s.worker t).pc = .finished)) ∨
      (a = .setAutoStop ∧ s.stopping = true ∨ a = .setStopping ∧ s.autoStop = true) ∧
        s.fibers = [] ∧ s.activeThreadCount = 0 := by
  rw [isStopping_iff] at hs ⊢
  cases h with
  | @dequeue t ft tickleMe left hpc hf =>
    obtain ⟨hauto, hstop, hq, hactive⟩ := hs
    cases ft with
    | none =>
      have htook := took s t
      rw [hf] at htook
      obtain ⟨hleft, -⟩ := htook.nothing rfl
      exact .inl ⟨hauto, hstop, hleft ▸ hq, by simpa using hactive⟩
    | some e =>
      -- a worker that has just taken a task counts
      have hone : s.activeThreadCount + 1 = 0 := hactive
      omega
  | returned hpc =>
    obtain ⟨hauto, hstop, hq, hactive⟩ := hs
    have hone : s.activeThreadCount - 1 = 0 := hactive
    exact .inr (.inl ⟨⟨hauto, hstop, hq, by omega⟩, rfl, _, rfl, .inl ⟨_, _, hpc⟩⟩)
  | finished hpc =>
    obtain ⟨hauto, hstop, hq, hactive⟩ := hs
    have hone : s.activeThreadCount - 1 = 0 := hactive
    exact .inr (.inl ⟨⟨hauto, hstop, hq, by omega⟩, rfl, _, rfl, .inr hpc⟩)
  | setAutoStop => exact .inr (.inr ⟨.inl ⟨rfl, hs.2.1⟩, hs.2.2⟩)
  | setStopping => exact .inr (.inr ⟨.inr ⟨rfl, hs.1⟩, hs.2.2⟩)
  | again | againFirst | schedule | scheduleRange =>
    obtain ⟨hauto, hstop, hq, hactive⟩ := hs
    simp only [goto_frame, dropCbFiber_frame, owe_frame, push_frame] at hauto hstop hq hactive
    exact .inl ⟨hauto, hstop, (List.append_eq_nil_iff.mp hq).1, hactive⟩
  | _ => exact .inl (by simpa using hs)

theorem stopping_drained (hnd : threads.Nodup) (hr : Run step (init threads) τ s) (hstop : s.isStopping = true) :
    s.fibers = [] ∧ ∀ t, counted (s.worker t) = false := by
  obtain ⟨-, -, hq, hactive⟩ := isStopping_iff.mp hstop
  refine ⟨hq, fun t => ?_⟩
  by_cases ht : t ∈ threads
  · have hcensus := run_active hnd hr
    exact census_eq_zero.mp (by omega) t ht
  · rw [run_inside hr ht]
    rfl

/-- What a step that meets the condition keeps: no fiber awaits its requeue when `stopping()`
    is true. -/
theorem settled_step (hnd : threads.Nodup) (hr : Run step (init threads) τ s)
    (hi : s.isStopping = true → ∀ t, awaitsRequeue s t = false) (hc : Settled threads s a) (hs : s.step a = some s')
    (hstop : s'.isStopping = true) : ∀ t, awaitsRequeue s' t = false := by
  intro u
  have hturn := turn hs
  have hout : ∀ u, u ∉ threads → awaitsRequeue s u = false := by
    intro u hu
    rw [awaitsRequeue, run_inside hr hu]
  have hactive := run_active hnd hr
  rcases turn_stopping hturn (by omega) hstop with hwas | ⟨hlast, hheap, t, rfl, hpc⟩ | ⟨hflag, hq, hzero⟩
  · -- nothing counted before the step, so nothing comes to wait in it
    rw [← Bool.not_eq_true]
    intro hu
    rcases turn_awaits hturn hu with hu | ⟨t, -, ht⟩
    · rw [hi hwas u] at hu
      cases hu
    · rw [(stopping_drained hnd hr hwas).2 t] at ht
      cases ht
  · -- the last decrement: of a worker with a fiber that came back, or with a finished one
    have hothers : (∀ u ∈ threads, awaitsRequeue s u = false) → u ≠ t → awaitsRequeue s' u = false := by
      intro hall hut
      rw [awaitsRequeue, turn_worker hturn (by simpa [Action.actor] using Ne.symm hut), hheap]
      by_cases hu : u ∈ threads
      · exact hall u hu
      · exact hout u hu
    rcases hpc with ⟨br, f, hpc⟩ | hpc
    · simp only [Settled, hpc] at hc
      obtain ⟨hready, hall⟩ := hc hlast
      by_cases hut : u = t
      · simp only [step, workerStep, hpc, stageStep] at hs
        cases hs
        simpa [awaitsRequeue, goto_worker, hut] using hready
      · exact hothers hall hut
    · simp only [Settled, hpc] at hc
      by_cases hut : u = t
      · simp only [step, workerStep, hpc] at hs
        cases hs
        simp [awaitsRequeue, goto_worker, hut]
      · exact hothers (hc hlast) hut
  · have hall : ∀ u, awaitsRequeue s u = false := by
      intro u
      by_cases hu : u ∈ threads
      · rcases hflag with ⟨rfl, hf⟩ | ⟨rfl, hf⟩
        · exact hc hf hq hzero u hu
        · exact hc hf hq hzero u hu
      · exact hout u hu
    rcases hflag with ⟨rfl, -⟩ | ⟨rfl, -⟩
    · cases hs
      exact hall u
    · cases hs
      exact hall u

/-- `stopping()` tells the truth in every run where the last decrement, and `stop`'s flags, do
    not come while a READY fiber is between its worker's decrement and its `schedule`. -/
theorem stopping_is_done (hnd : threads.Nodup) (hr : Run step (init threads) τ s) (hc : Meets (Settled threads) τ)
    (hstop : s.isStopping = true) :
    s.fibers = [] ∧ (∀ t, counted (s.worker t) = false) ∧ ∀ t, awaitsRequeue s t = false := by
  obtain ⟨hq, hcount⟩ := stopping_drained hnd hr hstop
  refine ⟨hq, hcount, ?_⟩
  induction hr with
  | nil =>
    cases hstop
  | step hr hs ih =>
    obtain ⟨ha, hc'⟩ := Run.meets_cons.mp hc
    refine settled_step hnd hr (fun hstop' => ?_) ha hs hstop
    obtain ⟨hq', hcount'⟩ := stopping_drained hnd hr hstop'
    exact ih hc' hstop' hq' hcount'

/-- Two tasks, `stop`, and both are done. -/
theorem stopping_is_done_twice :
    ∃ τ s, Run step (init [0, 1]) τ s ∧ Meets (Settled [0, 1]) τ ∧ s.isStopping = true ∧
      ∀ t, awaitsRequeue s t = false := by
  obtain ⟨τ, s, hr, hc, ht⟩ := exists_run step (Settled [0, 1]) (init [0, 1])
    [.schedule (some (.cb 5)) none, .worker 0, .worker 0, .worker 0, .worker 0, .worker 0, .worker 0,
      .leave 0 .yieldToReady, .worker 0, .worker 0, .worker 0, .worker 0, .setAutoStop, .setStopping, .worker 1,
      .worker 1, .worker 1, .worker 1, .worker 1, .worker 1, .leave 1 .returned, .worker 1, .worker 1]
    (fun _ s => s.isStopping) (by decide)
  exact ⟨τ, s, hr, hc, ht, (stopping_is_done (by decide) hr hc ht).2.2⟩

/-- The only fiber yields READY, its worker counts itself out, `stopping()` is true and the
    idle fiber of the other worker ends. -/
theorem stopping_between :
    ∃ τ s, Run step (init [0, 1]) τ s ∧ s.isStopping = true ∧ awaitsRequeue s 0 = true ∧
      (s.worker 1).idleFiber = .TERM := by
  obtain ⟨τ, s, hr, -, ht⟩ := exists_run step (fun _ _ => True) (init [0, 1])
    [.newFiber (some 7), .schedule (some (.fiber 0)) none, .setAutoStop, .setStopping, .worker 0, .worker 0, .worker 0,
      .worker 0, .worker 0, .worker 0, .leave 0 .yieldToReady, .worker 1, .worker 1, .worker 1, .worker 0, .worker 0,
      .idle 1 true]
    (fun _ s => decide (s.isStopping = true ∧ awaitsRequeue s 0 = true ∧ (s.worker 1).idleFiber = .TERM)) (by decide)
  exact ⟨τ, s, hr, of_decide_eq_true ht⟩

end LjrServer.Scheduler
