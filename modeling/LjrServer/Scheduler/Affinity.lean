/-
  LjrServer.Scheduler.Affinity — tasks that are scheduled for one thread.

  A pin is a field of the queue's node, not of the fiber: when a fiber yields READY, `run`
  schedules it again for any thread. A task is a fiber, or a callback with whatever fiber runs
  it at the time.

  Proved:
  - `pinned_step`: a step that does not put the task back keeps every node of the task pinned,
    and the task with its worker.
  - `swaps_in_pinned`: in every run where the callers pin a task to a worker, and `run` puts it
    back only when no other worker is there, that worker alone swaps it in.
  - `swaps_in_elsewhere`: a run where the task yields READY and another worker swaps it in.
-/

import LjrServer.Scheduler.Exclusion

namespace LjrServer.Scheduler

open LjrServer.Lib
open LjrServer.IoManager (FiberState Task)

variable {threads : List Nat} {s s' : Scheduler} {a : Action} {t u f c pin : Nat} {task : Task}
  {τ : History Scheduler Action}

/-! ## A task and who has it -/

/-- A node of the queue with `tk` is one of the task: a callback's is the callback itself, or a
    fiber that runs it. -/
def IsTask (heap : Nat → Fiber) (task tk : Task) : Prop :=
  match task, tk with
  | .fiber g, .fiber f => f = g
  | .fiber _, .cb _ => False
  | .cb c, .cb c' => c' = c
  | .cb c, .fiber f => (heap f).cb = some c

/-- A fiber in a worker's hands is the task's; a callback's fiber is not yet the fiber that
    callers schedule. -/
def RunsTask (heap : Nat → Fiber) (task : Task) (br : Branch) (f : Nat) : Prop :=
  match task with
  | .fiber g => br = .fiber ∧ f = g
  | .cb c => (heap f).cb = some c

/-- The worker has the task. -/
def HasTask (s : Scheduler) (task : Task) (t : Nat) : Prop :=
  match (s.worker t).pc with
  | .dequeued ft _ | .chosen ft => ∃ e ∈ ft, IsTask s.heap task e.task
  | .run _ br f => RunsTask s.heap task br f
  | _ => False

/-- The worker's next step swaps the task in. -/
def SwapsIn (s : Scheduler) (task : Task) (t : Nat) : Prop :=
  ∃ br f, (s.worker t).pc = .run .resume br f ∧ RunsTask s.heap task br f

instance (heap : Nat → Fiber) (task tk : Task) : Decidable (IsTask heap task tk) := by
  unfold IsTask
  rcases task with _ | _ <;> rcases tk with _ | _ <;> infer_instance

/-- What the callers of `schedule` do: they name the thread whenever they name the task. -/
def PinnedTo (task : Task) (pin : Nat) (s : Scheduler) : Action → Prop
  | .schedule (some tk) thread => IsTask s.heap task tk → thread = some pin
  | .scheduleRange fcs => ∀ fc ∈ fcs, ∀ tk ∈ fc, ¬ IsTask s.heap task tk
  | _ => True

/-- `run` puts the task back when its own worker is the only one; and it makes a used fiber
    run the task when nobody else speaks of that fiber. -/
def PutBack (threads : List Nat) (task : Task) (pin : Nat) (s : Scheduler) : Action → Prop
  | .worker t =>
    match (s.worker t).pc, (s.worker t).cbFiber with
    | .run .again _ f, _ => IsTask s.heap task (.fiber f) → ∀ u ∈ threads, u ≠ pin → (s.worker u).pc = .out
    | .chosen (some ⟨.cb c, _, _⟩), some f => task = .cb c →
      (∀ e ∈ s.fibers, e.task ≠ .fiber f) ∧ ∀ u ∈ threads, u ≠ t → (s.worker u).fiber ≠ some f
    | _, _ => True
  | _ => True

def Affine (threads : List Nat) (task : Task) (pin : Nat) (s : Scheduler) (a : Action) : Prop :=
  PinnedTo task pin s a ∧ PutBack threads task pin s a

instance (task : Task) (pin : Nat) (s : Scheduler) (a : Action) : Decidable (PinnedTo task pin s a) := by
  unfold PinnedTo
  rcases a with _ | _ | _ | _ | _ | ⟨_ | _, _⟩ | _ <;> infer_instance

instance (threads : List Nat) (task : Task) (pin : Nat) (s : Scheduler) (a : Action) :
    Decidable (Affine threads task pin s a) := by
  have : Decidable (PutBack threads task pin s a) := by
    unfold PutBack
    rcases a with t | _ <;> try infer_instance
    dsimp only
    generalize (s.worker t).pc = pc
    generalize (s.worker t).cbFiber = cbFiber
    rcases pc with _ | _ | _ | ft | ⟨stage, _, _⟩ | _ <;> try infer_instance
    · rcases ft with _ | ⟨_ | _, _, _⟩ <;> rcases cbFiber with _ | _ <;> infer_instance
    · rcases stage with _ | _ <;> infer_instance
  exact inferInstanceAs (Decidable (_ ∧ _))

/-! ## The invariant -/

structure Pinned (s : Scheduler) (task : Task) (pin : Nat) : Prop where
  queue : ∀ e ∈ s.fibers, IsTask s.heap task e.task → e.thread = some pin
  worker : ∀ t, HasTask s task t → t = pin

theorem RunsTask.mono {heap heap' : Nat → Fiber} {br : Branch} (h : RunsTask heap' task br f)
    (hcb : ∀ c, (heap' f).cb = some c → (heap f).cb = some c) : RunsTask heap task br f := by
  cases task with
  | fiber g => exact h
  | cb c => exact hcb c h

theorem RunsTask.isTask {heap : Nat → Fiber} (h : RunsTask heap task .fiber f) : IsTask heap task (.fiber f) := by
  cases task with
  | fiber g => exact h.2
  | cb c => exact h

/-- In the branch of callbacks the task is the callback. -/
theorem RunsTask.callback {heap heap' : Nat → Fiber} (h : RunsTask heap' task .callback f) (hc : (heap' f).cb = some c) :
    IsTask heap task (.cb c) := by
  cases task with
  | fiber g => cases h.1
  | cb c' => exact Option.some.inj (hc.symm.trans h)

/-- A fiber comes to run a callback when it is made for it, or when a worker reuses it. -/
theorem turn_cb (h : Turn s a s') (hf : (s'.heap f).cb = some c) :
    (s.heap f).cb = some c ∨ f = s.nextFiber ∨
      ∃ t th n, a = .worker t ∧ (s.worker t).pc = .chosen (some ⟨.cb c, th, n⟩) ∧ (s.worker t).cbFiber = some f := by
  cases h with
  | @reuseFiber t g n c' th hpc hc =>
    simp only [goto_frame, setFiber_heap] at hf
    split at hf
    · rename_i hfg
      cases hf
      exact .inr (.inr ⟨t, th, n, rfl, hpc, hfg ▸ hc⟩)
    · exact .inl hf
  | clear =>
    simp only [goto_frame, setFiber_heap] at hf
    split at hf
    · cases hf
    · exact .inl hf
  | makeFiber | newFiber =>
    simp only [setWorker_frame, newFiber_heap] at hf
    split at hf
    · rename_i hfg
      exact .inr (.inl hfg)
    · exact .inl hf
  | enter | hold =>
    simp only [goto_frame, dropCbFiber_frame, setState_heap] at hf
    split at hf
    · rename_i hfg
      exact .inl (hfg ▸ hf)
    · exact .inl hf
  | @leave t g br how hpc =>
    simp only [goto_frame, setFiber_heap] at hf
    split at hf
    · rename_i hfg
      obtain ⟨-, hf⟩ := Option.ite_none_left_eq_some.mp hf
      exact .inl (hfg ▸ hf)
    · exact .inl hf
  | _ => exact .inl (by simpa using hf)

/-- A fiber that is queued, or that another worker has, is not the one that is reused. -/
theorem cb_kept (h : s.Sound) (hout : ∀ u, u ∉ threads → s.worker u = { pc := .out })
    (hc : PutBack threads (.cb c) pin s a) (ht : Turn s a s') (hf : (s'.heap f).cb = some c)
    (hhas : (∃ e ∈ s.fibers, e.task = .fiber f) ∨ ∃ u, a.actor ≠ some u ∧ (s.worker u).fiber = some f) :
    (s.heap f).cb = some c := by
  have hlt : f < s.nextFiber := by
    rcases hhas with ⟨e, he, htask⟩ | ⟨u, -, hu⟩
    · have hal := h.queue e he
      rw [htask] at hal
      exact of_decide_eq_true hal
    · exact (h.worker u).fiber f hu
  rcases turn_cb ht hf with hf | rfl | ⟨t, th, n, rfl, hpc, hcb⟩
  · exact hf
  · exact absurd hlt (Nat.lt_irrefl _)
  · simp only [PutBack, hpc, hcb, forall_const] at hc
    rcases hhas with ⟨e, he, htask⟩ | ⟨u, hut, hu⟩
    · exact absurd htask (hc.1 e he)
    · have hin : u ∈ threads := by
        refine Classical.byContradiction fun hin => ?_
        rw [hout u hin] at hu
        cases hu
      exact absurd hu (hc.2 u hin fun e => hut (congrArg some e.symm))

/-- No worker but the one that moves comes to have the task. -/
theorem hasTask_other (h : s.Sound) (hout : ∀ u, u ∉ threads → s.worker u = { pc := .out })
    (hc : PutBack threads task pin s a) (ht : Turn s a s') (hu : a.actor ≠ some u) (hhas : HasTask s' task u) :
    HasTask s task u := by
  have hw := turn_worker ht hu
  have hcb : ∀ {c f}, task = .cb c → (s.worker u).fiber = some f → (s'.heap f).cb = some c → (s.heap f).cb = some c :=
    fun htask hfu hf => cb_kept h hout (htask ▸ hc) ht hf (.inr ⟨u, hu, hfu⟩)
  have hrun : ∀ br f, (s.worker u).fiber = some f → RunsTask s'.heap task br f → RunsTask s.heap task br f := by
    intro br f hfu hruns
    cases task with
    | fiber g => exact hruns
    | cb c => exact hcb rfl hfu hruns
  have htk : ∀ ft, taskFiber ft = (s.worker u).fiber → (∃ e ∈ ft, IsTask s'.heap task e.task) →
      ∃ e ∈ ft, IsTask s.heap task e.task := by
    rintro ft hfu ⟨⟨tk, th, n⟩, rfl, his⟩
    refine ⟨_, rfl, ?_⟩
    cases task <;> cases tk <;> first | exact his | exact hcb rfl hfu.symm his
  unfold HasTask at hhas ⊢
  rw [hw] at hhas
  split at hhas
  · rename_i hpc
    exact htk _ (by simp [Worker.fiber, hpc]) hhas
  · rename_i hpc
    exact htk _ (by simp [Worker.fiber, hpc]) hhas
  · rename_i hpc
    exact hrun _ _ (by simp [Worker.fiber, hpc]) hhas
  · exact hhas

/-- What a worker has of the task after its step it had before, or took from the queue. -/
theorem hasTask_actor (ht : Turn s a s') (ha : a.actor = some t) (hhas : HasTask s' task t) :
    HasTask s task t ∨ ∃ e ∈ s.fibers, IsTask s.heap task e.task ∧ (e.thread = none ∨ e.thread = some t) := by
  cases ht with
  | @dequeue t ft tickleMe left hpc hf =>
    cases ha
    simp only [HasTask, goto_worker, if_pos, goto_frame] at hhas
    obtain ⟨e, rfl, he⟩ := hhas
    have htook := took s t
    rw [hf] at htook
    obtain ⟨skipped, rest, hq, -, hel, -⟩ := htook.found e rfl
    exact .inr ⟨e, hq ▸ List.mem_append_right _ List.mem_cons_self, he, hel.1⟩
  | takeFiber hpc =>
    cases ha
    simp only [HasTask, goto_worker, if_pos, goto_frame] at hhas
    exact .inl (by simpa [HasTask, hpc] using hhas.isTask)
  | reuseFiber hpc | makeFiber hpc =>
    cases ha
    simp only [HasTask, goto_worker, setWorker_worker, if_pos, goto_frame, setWorker_frame] at hhas
    refine .inl ?_
    simp only [HasTask, hpc]
    exact ⟨_, rfl, hhas.callback (by simp [setFiber_heap, newFiber_heap])⟩
  | enter hpc =>
    cases ha
    simp only [HasTask, goto_worker, if_pos, goto_frame] at hhas
    refine .inl ?_
    simp only [HasTask, hpc]
    exact hhas.mono fun c hc => by simpa [setState_heap] using hc
  | leave hpc =>
    cases ha
    simp only [HasTask, goto_worker, if_pos, goto_frame] at hhas
    refine .inl ?_
    simp only [HasTask, hpc]
    exact hhas.mono fun c hc => by
      simp only [setFiber_heap, if_pos] at hc
      exact (Option.ite_none_left_eq_some.mp hc).2
  | _ => cases ha <;> simp_all [HasTask, goto_worker, setWorker_worker, dropCbFiber_worker]

/-- The step that breaks the invariant is the one that puts the task back. -/
theorem pinned_step (h : s.Sound) (hout : ∀ u, u ∉ threads → s.worker u = { pc := .out })
    (hi : Pinned s task pin) (hc : Affine threads task pin s a) (ht : Turn s a s') :
    Pinned s' task pin ∨ ∀ u, u ≠ pin → (s.worker u).pc = .out := by
  obtain ⟨hpinned, hback⟩ := hc
  by_cases hput : ∃ t br f, a = .worker t ∧ (s.worker t).pc = .run .again br f ∧ IsTask s.heap task (.fiber f)
  · obtain ⟨t, br, f, rfl, hpc, his⟩ := hput
    simp only [PutBack, hpc] at hback
    refine .inr fun u hu => ?_
    by_cases hin : u ∈ threads
    · exact hback his u hin hu
    · rw [hout u hin]
  · refine .inl ⟨fun e he his => ?_, fun t hhas => ?_⟩
    · have hold : (∃ x ∈ s.fibers, x.task = e.task) → IsTask s'.heap task e.task → IsTask s.heap task e.task := by
        rintro ⟨x, hx, htask⟩ his
        cases task with
        | fiber g => cases hte : e.task <;> rw [hte] at his <;> exact his
        | cb c =>
          cases hte : e.task with
          | cb c' => rw [hte] at his; exact his
          | fiber f =>
            rw [hte] at his
            exact cb_kept h hout hback ht his (.inl ⟨x, hx, htask.trans hte⟩)
      rcases turn_fibers ht he with he | he
      · exact hi.queue e he (hold ⟨e, he, rfl⟩ his)
      · rcases mem_pushed he with ⟨thread, rfl, hth⟩ | ⟨fcs, rfl, hmem, -⟩ | ⟨t, br, f, rfl, hpc, htask, -⟩
        · cases ht
          exact hth.trans (hpinned his)
        · cases ht
          exact absurd his (hpinned _ hmem _ rfl)
        · refine absurd ⟨t, br, f, rfl, hpc, ?_⟩ hput
          have hheap : s'.heap = s.heap := by
            cases ht <;> simp_all
          rwa [hheap, htask] at his
    · by_cases hat : a.actor = some t
      · rcases hasTask_actor ht hat hhas with hhas | ⟨e, he, his, hth⟩
        · exact hi.worker t hhas
        · rw [hi.queue e he his] at hth
          rcases hth with hth | hth
          · cases hth
          · exact (Option.some.inj hth).symm
      · exact hi.worker t (hasTask_other h hout hback ht hat hhas)

/-- A task that its callers pin to a worker is swapped in there only, in every run that puts it
    back only when its worker is the last one. -/
theorem swaps_in_pinned (task : Task) (pin : Nat) (hr : Run step (init threads) τ s)
    (hc : Meets (Affine threads task pin) τ) (hswap : SwapsIn s task t) : t = pin := by
  have hinv : s.Sound ∧ (Pinned s task pin ∨ ∀ u, u ≠ pin → (s.worker u).pc = .out) := by
    clear hswap
    induction hr with
    | nil =>
      refine ⟨init_sound threads, .inl ⟨(fun e he => nomatch he), fun t hhas => ?_⟩⟩
      by_cases ht : t ∈ threads <;> simp [HasTask, init, ht] at hhas
    | @step τ s s' a hr hs ih =>
      obtain ⟨ha, hc'⟩ := Run.meets_cons.mp hc
      obtain ⟨hsound, hi⟩ := ih hc'
      have ht := turn hs
      refine ⟨hsound.step ht, ?_⟩
      have hstay : (∀ u, u ≠ pin → (s.worker u).pc = .out) → ∀ u, u ≠ pin → (s'.worker u).pc = .out := by
        intro hout u hu
        rw [turn_out ht (hout u hu)]
        exact hout u hu
      rcases hi with hi | hout
      · exact (pinned_step hsound (fun u hu => run_inside hr hu) hi ha ht).imp_right hstay
      · exact .inr (hstay hout)
  obtain ⟨br, f, hpc, hruns⟩ := hswap
  obtain ⟨-, hi | hout⟩ := hinv
  · exact hi.worker t (by simpa [HasTask, hpc] using hruns)
  · refine Classical.byContradiction fun hne => ?_
    rw [hout t hne] at hpc
    cases hpc

/-- A callback pinned to worker 1 waits for it, is woken for it, and is swapped in again. -/
theorem swaps_in_pinned_twice :
    ∃ τ s, Run step (init [0, 1]) τ s ∧ Meets (Affine [0, 1] (.cb 5) 1) τ ∧ SwapsIn s (.cb 5) 1 ∧
      ∀ t, SwapsIn s (.cb 5) t → t = 1 := by
  obtain ⟨τ, s, hr, hc, ht⟩ := exists_run step (Affine [0, 1] (.cb 5) 1) (init [0, 1])
    [.schedule (some (.cb 5)) (some 1), .worker 0, .worker 1, .worker 1, .worker 1, .worker 1, .worker 1, .worker 1,
      .leave 1 .yieldToHold, .worker 1, .worker 1, .worker 1, .worker 1, .worker 1,
      .schedule (some (.fiber 0)) (some 1), .worker 1, .worker 1, .worker 1, .worker 1, .worker 1]
    (fun _ s => decide ((s.worker 1).pc = .run .resume .fiber 0 ∧ (s.heap 0).cb = some 5)) (by decide)
  obtain ⟨hpc, hcb⟩ := of_decide_eq_true ht
  exact ⟨τ, s, hr, hc, ⟨_, _, hpc, hcb⟩, fun t => swaps_in_pinned (.cb 5) 1 hr hc⟩

/-- The callback yields READY, `run` schedules it for any thread, and worker 0 swaps it in. -/
theorem swaps_in_elsewhere :
    ∃ τ s, Run step (init [0, 1]) τ s ∧ Meets (PinnedTo (.cb 5) 1) τ ∧ SwapsIn s (.cb 5) 0 := by
  obtain ⟨τ, s, hr, hc, ht⟩ := exists_run step (PinnedTo (.cb 5) 1) (init [0, 1])
    [.schedule (some (.cb 5)) (some 1), .worker 1, .worker 1, .worker 1, .worker 1, .worker 1, .worker 1,
      .leave 1 .yieldToReady, .worker 1, .worker 1, .worker 1, .worker 1, .worker 0, .worker 0, .worker 0, .worker 0,
      .worker 0]
    (fun _ s => decide ((s.worker 0).pc = .run .resume .fiber 0 ∧ (s.heap 0).cb = some 5)) (by decide)
  obtain ⟨hpc, hcb⟩ := of_decide_eq_true ht
  exact ⟨τ, s, hr, hc, _, _, hpc, hcb⟩

end LjrServer.Scheduler
