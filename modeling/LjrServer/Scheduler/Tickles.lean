/-
  LjrServer.Scheduler.Tickles — wake-ups of workers that wait in `epoll_wait`.

  `schedule` tickles when the queue was empty, `run` when it passed over a node pinned
  elsewhere, and `IOManager::tickle` writes its byte when a worker is counted idle. A worker is
  stranded when it waits with a task in the queue that it may run, no tickle is outstanding,
  and every other worker has a task or has left `run`.

  Proved:
  - `watched_step`: the steps that can strand a worker are a `schedule` behind other tasks, a
    worker that takes a task, waits or leaves, and a queued fiber that comes off its worker;
    and each of them only as `Watched` says.
  - `never_stranded`: no run of steps that meet `Watched` strands a worker.
  - `stranded_behind`: two tasks scheduled at once, and one byte.
-/

import LjrServer.Scheduler.Exclusion

namespace LjrServer.Scheduler

open LjrServer.Lib
open LjrServer.IoManager (FiberState Task)

variable {threads : List Nat} {s s' : Scheduler} {a : Action} {t u w f : Nat} {τ : History Scheduler Action}

/-! ## Stranded workers -/

/-- The worker is about to `tickle`. -/
def Pc.tickles : Pc → Bool
  | .dequeued _ tickleMe => tickleMe
  | .tickling => true
  | _ => false

def Outstanding (threads : List Nat) (s : Scheduler) : Prop :=
  0 < s.pipe ∨ 0 < s.tickling ∨ ∃ t ∈ threads, (s.worker t).pc.tickles = true

/-- The worker does not look at the queue before its task is done, or ever again. -/
def gone (w : Worker) : Bool := counted w || w.pc == .out

/-- The other workers are gone, but for `t`, and no tickle is outstanding. -/
def Quiet (threads : List Nat) (s : Scheduler) (w t : Nat) : Prop :=
  ¬ Outstanding threads s ∧ ∀ u ∈ threads, u ≠ w → u ≠ t → gone (s.worker u) = true

/-- `w` waits, and nobody but `t` could wake it. -/
def Waits (threads : List Nat) (s : Scheduler) (w t : Nat) : Prop :=
  (s.worker w).pc = .waiting ∧ Quiet threads s w t

def Stranded (threads : List Nat) (s : Scheduler) : Prop :=
  ∃ w ∈ threads, Waits threads s w w ∧ ∃ e ∈ s.fibers, Eligible s.heap w e

/-- A step leaves no task behind that a worker waiting alone may run: not the task that is
    pushed behind others, what a worker leaves in the queue that takes a task or goes, what is
    there when a worker starts to wait, nor a queued fiber that comes off its worker. -/
def Watched (threads : List Nat) (s : Scheduler) : Action → Prop
  | .schedule fc thread => s.fibers ≠ [] → ∀ w ∈ threads, Waits threads s w w →
      ∀ tk ∈ fc, ¬ Eligible s.heap w ⟨tk, thread, s.nextNode⟩
  | .scheduleRange fcs => s.fibers ≠ [] → ∀ w ∈ threads, Waits threads s w w →
      ∀ fc ∈ fcs, ∀ tk ∈ fc, ¬ Eligible s.heap w ⟨tk, none, s.nextNode⟩
  | .idle w _ => Quiet threads s w w → ∀ e ∈ s.fibers, ¬ Eligible s.heap w e
  | .leave t _ =>
    match (s.worker t).pc with
    | .run .on _ f => ∀ w ∈ threads, Waits threads s w w →
        ∀ e ∈ s.fibers, e.task = .fiber f → e.thread ≠ none ∧ e.thread ≠ some w
    | _ => True
  | .worker t =>
    match (s.worker t).pc with
    | .top => (dequeue s.heap t s.fibers).ft.isSome = true → (dequeue s.heap t s.fibers).tickleMe = false →
        ∀ w ∈ threads, Waits threads s w t → ∀ e ∈ (dequeue s.heap t s.fibers).fibers, ¬ Eligible s.heap w e
    | .chosen none => (s.worker t).idleFiber = .TERM →
        ∀ w ∈ threads, Waits threads s w t → ∀ e ∈ s.fibers, ¬ Eligible s.heap w e
    | _ => True
  | _ => True

instance (threads : List Nat) (s : Scheduler) (w t : Nat) : Decidable (Quiet threads s w t) := by
  unfold Quiet Outstanding
  infer_instance

instance (threads : List Nat) (s : Scheduler) (w t : Nat) : Decidable (Waits threads s w t) :=
  inferInstanceAs (Decidable (_ ∧ _))

instance (threads : List Nat) (s : Scheduler) : Decidable (Stranded threads s) := by
  unfold Stranded
  infer_instance

instance (threads : List Nat) (s : Scheduler) (a : Action) : Decidable (Watched threads s a) := by
  unfold Watched
  rcases a with t | ⟨t, _⟩ | _ <;> try infer_instance
  · dsimp only
    generalize (s.worker t).pc = pc
    rcases pc with _ | _ | _ | ft | _ <;> try infer_instance
    rcases ft with _ | _ <;> infer_instance
  · dsimp only
    generalize (s.worker t).pc = pc
    rcases pc with _ | _ | _ | _ | ⟨stage, _, _⟩ | _ <;> try infer_instance
    rcases stage with _ | _ <;> infer_instance

/-! ## What a step does to the waiting -/

theorem tickle_pipe (h : 0 < s.idleThreadCount) : s.tickle.pipe = s.pipe + 1 := by
  unfold tickle hasIdleThreads
  rw [if_pos (decide_eq_true h)]

theorem pipe_stays (ht : Turn s a s') (hread : ∀ t k, a ≠ .read t k) : s.pipe ≤ s'.pipe := by
  have htickle : s.pipe ≤ s.tickle.pipe := by
    unfold tickle
    split
    · exact Nat.le_succ _
    · exact Nat.le_refl _
  cases ht with
  | @tickleMe t ft b hpc => cases b <;> simp [htickle]
  | read => exact absurd rfl (hread _ _)
  | _ => simp [htickle]

/-- While a worker is counted idle no tickle is lost: it is a byte in the pipe at the latest. -/
theorem outstanding_stays (ht : Turn s a s') (hidle : 0 < s.idleThreadCount) (hread : ∀ t k, a ≠ .read t k)
    (h : Outstanding threads s) : Outstanding threads s' := by
  rcases h with hpipe | howed | ⟨u, hu, htk⟩
  · exact .inl (Nat.lt_of_lt_of_le hpipe (pipe_stays ht hread))
  · by_cases ha : a = .tickled
    · subst ha
      cases ht
      exact .inl (by simp [tickle_pipe hidle])
    · refine .inr (.inl ?_)
      cases ht <;> first | exact absurd rfl ha | simpa using howed | skip
      all_goals simp only [owe]; exact Nat.lt_of_lt_of_le howed (Nat.le_add_right _ _)
  · by_cases ha : a.actor = some u
    · refine .inl ?_
      cases ht <;> cases ha <;> simp_all [Pc.tickles, tickle_pipe hidle]
    · refine .inr (.inr ⟨u, hu, ?_⟩)
      rw [turn_worker ht ha]
      exact htk

theorem gone_back (ht : Turn s a s') (ha : a.actor = some t) (hg : gone (s'.worker t) = true) :
    gone (s.worker t) = true ∨ ((s.worker t).pc = .top ∧ a = .worker t ∧ (dequeue s.heap t s.fibers).ft.isSome = true) ∨
      ((s.worker t).pc = .chosen none ∧ a = .worker t ∧ (s.worker t).idleFiber = .TERM) := by
  cases ht <;> cases ha <;>
    simp_all [gone, counted, Pc.counted, Stage.counted, goto_worker, setWorker_worker, dropCbFiber_worker]

theorem not_executing {x : Fiber} (h : x.finished = true ∨ x.state = .INIT) : (x.state == .EXEC) = false := by
  obtain ⟨st, cb⟩ := x
  cases st <;> simp_all [Fiber.finished]

/-- A queued task stops executing when its fiber comes off a worker, or is set to HOLD. -/
theorem executing_back (ht : Turn s a s') {tk : Task} (hal : s.allocated tk = true) (hx : executing s'.heap tk = false) :
    executing s.heap tk = false ∨ ∃ t br f, tk = .fiber f ∧
      ((∃ how, a = .leave t how ∧ (s.worker t).pc = .run .on br f) ∨
        (a = .worker t ∧ (s.worker t).pc = .run .hold br f)) := by
  cases tk with
  | cb c => exact .inl rfl
  | fiber g =>
    have hlt : g < s.nextFiber := of_decide_eq_true hal
    simp only [executing] at hx ⊢
    cases ht with
    | @reuseFiber t f n c th hpc hc hfin =>
      simp only [goto_frame, setFiber_heap] at hx
      split at hx
      · rename_i hgf
        exact .inl (hgf ▸ not_executing hfin)
      · exact .inl hx
    | @clear t f hpc hfin =>
      simp only [goto_frame, setFiber_heap] at hx
      split at hx
      · rename_i hgf
        exact .inl (hgf ▸ not_executing (.inl hfin))
      · exact .inl hx
    | makeFiber | newFiber =>
      simp only [setWorker_frame, newFiber_heap, if_neg (Nat.ne_of_lt hlt)] at hx
      exact .inl hx
    | enter =>
      simp only [goto_frame, setState_heap] at hx
      split at hx
      · cases hx
      · exact .inl hx
    | @hold t f br hpc =>
      simp only [goto_frame, dropCbFiber_frame, setState_heap] at hx
      split at hx
      · rename_i hgf
        exact .inr ⟨t, br, f, by rw [hgf], .inr ⟨rfl, hpc⟩⟩
      · exact .inl hx
    | @leave t f br how hpc =>
      simp only [goto_frame, setFiber_heap] at hx
      split at hx
      · rename_i hgf
        exact .inr ⟨t, br, f, by rw [hgf], .inl ⟨how, rfl, hpc⟩⟩
      · exact .inl hx
    | _ => exact .inl (by simpa using hx)

/-- Only a worker that finds itself not stopping starts to wait. -/
theorem starts_waiting (ht : Turn s a s') (ha : a.actor = some w) (hw : (s'.worker w).pc = .waiting) :
    ∃ drained, a = .idle w drained ∧ (s.worker w).pc = .idle ∧ s'.heap = s.heap ∧ s'.fibers = s.fibers ∧ s'.pipe = s.pipe ∧
      s'.tickling = s.tickling := by
  cases ht <;> cases ha <;> simp_all [goto_worker, setWorker_worker, dropCbFiber_worker]

/-- A worker waited alone before the step: it was stranded, or the step is a push or a fiber
    that comes off its worker, and did not meet the condition. -/
theorem stranded_back (h : s.Sound) (hc : Watched threads s a) (ht : Turn s a s')
    (hactor : ∀ t, a.actor = some t → t ∈ threads) (hw : w ∈ threads) (hwaits : Waits threads s w w)
    (hout : ¬ Outstanding threads s') {e : FiberAndThread} (he : e ∈ s'.fibers) (hel : Eligible s'.heap w e) :
    Stranded threads s := by
  obtain ⟨hpin, hx⟩ := hel
  have hbusy : ∀ t, a.actor = some t → (s.worker t).pc ≠ .waiting → gone (s.worker t) = true :=
    fun t ha hpc => hwaits.2.2 t (hactor t ha) (fun e => hpc (e ▸ hwaits.1)) (fun e => hpc (e ▸ hwaits.1))
  rcases turn_fibers ht he with he | he
  · rcases executing_back ht (h.queue e he) hx with hx | ⟨t, br, f, htask, ⟨how, rfl, hpc⟩ | ⟨rfl, hpc⟩⟩
    · exact ⟨w, hw, hwaits, e, he, hpin, hx⟩
    · simp only [Watched, hpc] at hc
      obtain ⟨hnone, hother⟩ := hc w hw hwaits e he htask
      exact absurd hpin (not_or.mpr ⟨hnone, hother⟩)
    · have hg := hbusy t rfl (by simp [hpc])
      simp [gone, counted, Pc.counted, Stage.counted, hpc] at hg
  · rcases mem_pushed he with ⟨thread, rfl, hth⟩ | ⟨fcs, rfl, hmem, hth⟩ | ⟨t, br, f, rfl, hpc, -, -⟩
    · have hne : s.fibers ≠ [] := by
        intro hq
        cases ht
        exact hout (.inr (.inl (by simp [owe, hq])))
      refine absurd ⟨?_, ?_⟩ (hc hne w hw hwaits e.task rfl)
      · exact hth ▸ hpin
      · cases ht
        exact hx
    · have hne : s.fibers ≠ [] := by
        intro hq
        cases ht
        refine hout (.inr (.inl ?_))
        simp [owe, hq, List.ne_nil_of_mem hmem]
      refine absurd ⟨.inl rfl, ?_⟩ (hc hne w hw hwaits _ hmem e.task rfl)
      cases ht
      exact hx
    · have hg := hbusy t rfl (by simp [hpc])
      simp [gone, counted, Pc.counted, Stage.counted, hpc] at hg

theorem watched_step (h : s.Sound) (hin : ∀ t, t ∉ threads → s.worker t = { pc := .out })
    (hidle : ∀ w ∈ threads, (s.worker w).pc = .waiting → 0 < s.idleThreadCount) (hi : ¬ Stranded threads s)
    (hc : Watched threads s a) (ht : Turn s a s') : ¬ Stranded threads s' := by
  rintro ⟨w, hw, ⟨hwait, hout, hgone⟩, e, he, hel⟩
  have hinside : ∀ t, (s.worker t).pc ≠ .out → t ∈ threads := by
    intro t hpc
    refine Classical.byContradiction fun hnot => hpc ?_
    rw [hin t hnot]
  have hactor : ∀ t, a.actor = some t → t ∈ threads := fun t ha => hinside t (turn_inside ht ha)
  have hsame : ∀ u ∈ threads, u ≠ w → a.actor ≠ some u → gone (s.worker u) = true := by
    intro u hu hne ha
    rw [← turn_worker ht ha]
    exact hgone u hu hne hne
  by_cases haw : a.actor = some w
  · -- `w` has just started to wait
    obtain ⟨drained, rfl, hpc, hheap, hq, hpipe, howed⟩ := starts_waiting ht haw hwait
    rw [hheap] at hel
    rw [hq] at he
    refine hc ⟨?_, fun u hu hne _ => hsame u hu hne (by simpa [Action.actor] using Ne.symm hne)⟩ e he hel
    rintro (hp | ho | ⟨t, htin, htk⟩)
    · exact hout (.inl (hpipe ▸ hp))
    · exact hout (.inr (.inl (howed ▸ ho)))
    · by_cases htw : t = w
      · rw [htw, hpc] at htk
        cases htk
      · refine hout (.inr (.inr ⟨t, htin, ?_⟩))
        rw [turn_worker ht (by simpa [Action.actor] using Ne.symm htw)]
        exact htk
  · rw [turn_worker ht haw] at hwait
    have hread : ∀ t k, a ≠ .read t k := by
      rintro t k rfl
      cases ht with
      | read hpc hk =>
        have hg := hsame t (hinside t (by simp [hpc])) (fun e => by simp [e ▸ hpc] at hwait) (by simp [Action.actor])
        simp [gone, counted, Pc.counted, hpc] at hg
    have hout' : ¬ Outstanding threads s := fun ho => hout (outstanding_stays ht (hidle w hw hwait) hread ho)
    have hback : (∀ t, a.actor = some t → gone (s.worker t) = true) → False := by
      intro hg
      refine hi (stranded_back h hc ht hactor hw ⟨hwait, hout', fun u hu hne _ => ?_⟩ hout he hel)
      by_cases hau : a.actor = some u
      · exact hg u hau
      · exact hsame u hu hne hau
    cases ha : a.actor with
    | none => exact hback fun t hat => by rw [ha] at hat; cases hat
    | some t =>
      have htw : t ≠ w := fun e => haw (ha.trans (congrArg some e))
      have hquiet : Waits threads s w t :=
        ⟨hwait, hout', fun u hu hne hut => hsame u hu hne (by simpa [ha] using Ne.symm hut)⟩
      rcases gone_back ht ha (hgone t (hactor t ha) htw htw) with hg | ⟨hpc, rfl, hfound⟩ | ⟨hpc, rfl, hterm⟩
      · exact hback fun u hu => by rw [ha] at hu; cases hu; exact hg
      · -- `t` takes a task, and does not tickle
        simp only [Watched, hpc] at hc
        cases ht with
        | @dequeue t ft tickleMe left _ hf =>
          rw [hf] at hc hfound
          cases tickleMe with
          | true => exact hout (.inr (.inr ⟨t, hactor t rfl, by simp [goto_worker, Pc.tickles]⟩))
          | false => exact hc hfound rfl w hw hquiet e he hel
        | _ => simp_all
      · -- `t` leaves `run`
        simp only [Watched, hpc] at hc
        cases ht with
        | exit => exact hc hterm w hw hquiet e he hel
        | _ => simp_all

/-- No run strands a worker that is made of steps which leave no task to a worker that waits
    alone. -/
theorem never_stranded (hnd : threads.Nodup) (hr : Run step (init threads) τ s) (hc : Meets (Watched threads) τ) :
    ¬ Stranded threads s := by
  suffices hboth : s.Sound ∧ ¬ Stranded threads s from hboth.2
  induction hr with
  | nil =>
    refine ⟨init_sound threads, ?_⟩
    rintro ⟨w, -, -, e, he, -⟩
    cases he
  | step hr hs ih =>
    obtain ⟨ha, hc'⟩ := Run.meets_cons.mp hc
    obtain ⟨hsound, hi⟩ := ih hc'
    have ht := turn hs
    refine ⟨hsound.step ht, watched_step hsound (fun t hnot => run_inside hr hnot) ?_ hi ha ht⟩
    intro w hw hwait
    have hpos := census_pos (p := inIdle) hw (by rw [inIdle, hwait]; rfl)
    have hcount := run_idle hnd hr
    omega

/-- A worker waits, a task is scheduled, the byte wakes it and it takes the task. -/
theorem never_stranded_one_task :
    ∃ τ s, Run step (init [0, 1]) τ s ∧ Meets (Watched [0, 1]) τ ∧ (s.worker 1).pc = .waiting ∧
      counted (s.worker 0) = true ∧ ¬ Stranded [0, 1] s := by
  obtain ⟨τ, s, hr, hc, ht⟩ := exists_run step (Watched [0, 1]) (init [0, 1])
    [.worker 0, .worker 0, .worker 0, .idle 0 false, .worker 1, .worker 1, .worker 1, .idle 1 false,
      .schedule (some (.cb 5)) none, .tickled, .wake 0, .read 0 1, .worker 0, .worker 0, .worker 0, .worker 0]
    (fun _ s => decide ((s.worker 1).pc = .waiting ∧ counted (s.worker 0) = true)) (by decide)
  obtain ⟨hwait, hcount⟩ := of_decide_eq_true ht
  exact ⟨τ, s, hr, hc, hwait, hcount, never_stranded (by decide) hr hc⟩

/-- Both workers wait. The second of two tasks finds the queue not empty: one byte, one worker,
    and the other one waits on beside the second task. -/
theorem stranded_behind : ∃ τ s, Run step (init [0, 1]) τ s ∧ Stranded [0, 1] s := by
  obtain ⟨τ, s, hr, -, ht⟩ := exists_run step (fun _ _ => True) (init [0, 1])
    [.worker 0, .worker 0, .worker 0, .idle 0 false, .worker 1, .worker 1, .worker 1, .idle 1 false,
      .schedule (some (.cb 5)) none, .schedule (some (.cb 6)) none, .tickled, .wake 0, .read 0 1, .worker 0, .worker 0,
      .worker 0]
    (fun _ s => decide (Stranded [0, 1] s)) (by decide)
  exact ⟨τ, s, hr, of_decide_eq_true ht⟩

end LjrServer.Scheduler
