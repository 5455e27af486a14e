/-
  LjrServer.Scheduler.Conservation — tasks and counters over whole runs.

  `pushed` and `removed` are what a step adds to `m_fibers` and takes from it; `pushes` and
  `removals` are those of a history, oldest first.

  Proved:
  - `run_inside`: only the workers of the scheduler are ever inside `run`.
  - `run_active`, `run_idle`: `m_activeThreadCount` is the number of workers between taking a
    task and the decrement for it, `m_idleThreadCount` of those around their idle fiber.
  - `run_queue`: what was pushed is what was removed and what is queued, the queue in the order
    of the pushes, and no two pushes alike.
  - `tasks_conserved`: both, and that a removal takes the first task its worker may run.
-/

import LjrServer.Lib.Census
import LjrServer.Scheduler.Turns

namespace LjrServer.Scheduler

open LjrServer.Lib
open LjrServer.IoManager (FiberState Task)

variable {threads : List Nat} {s s' : Scheduler} {a : Action} {t u : Nat} {τ : History Scheduler Action}

/-! ## The workers -/

/-- Between `++m_activeThreadCount` and the decrement that matches it. -/
def Stage.counted : Stage → Bool
  | .swapIn | .enter | .resume | .on | .leave | .returned => true
  | .after | .again | .ended | .hold => false

def Pc.counted : Pc → Bool
  | .dequeued ft _ | .chosen ft => ft.isSome
  | .run stage _ _ => stage.counted
  | .finished => true
  | _ => false

/-- Between `++m_idleThreadCount` and `--m_idleThreadCount`. -/
def Pc.inIdle : Pc → Bool
  | .idle | .waiting | .woken | .idled => true
  | _ => false

def counted (w : Worker) : Bool := w.pc.counted

def inIdle (w : Worker) : Bool := w.pc.inIdle

theorem turn_inside (h : Turn s a s') (ha : a.actor = some t) : (s.worker t).pc ≠ .out := by
  intro hout
  cases h <;> simp_all [Action.actor]

/-- A step moves a counter along with its worker. -/
theorem turn_counters (h : Turn s a s') (ha : a.actor = some t) :
    s'.activeThreadCount + (counted (s.worker t)).toNat = s.activeThreadCount + (counted (s'.worker t)).toNat ∧
      s'.idleThreadCount + (inIdle (s.worker t)).toNat = s.idleThreadCount + (inIdle (s'.worker t)).toNat := by
  cases h <;> cases ha <;> rename_i hpc <;>
    simp_all [counted, inIdle, goto_worker, setWorker_worker, Pc.counted, Pc.inIdle, Stage.counted]
  cases ‹Option FiberAndThread› <;> rfl

/-- Steps that move no worker leave the counters alone. -/
theorem turn_counters_still (h : Turn s a s') (ha : a.actor = none) :
    s'.activeThreadCount = s.activeThreadCount ∧ s'.idleThreadCount = s.idleThreadCount := by
  cases h <;> cases ha <;> simp

theorem run_inside (hr : Run step (init threads) τ s) (ht : t ∉ threads) : s.worker t = { pc := .out } := by
  refine hr.invariant (I := fun s => s.worker t = { pc := .out }) (C := fun _ _ => True) ?_ ?_ fun _ _ => trivial
  · simp [init, ht]
  · intro s a s' hout _ hs
    rw [turn_out (turn hs) (by rw [hout]), hout]

/-- A counter that every step moves along with its worker is the census of the workers. -/
theorem run_count (p : Worker → Bool) (count : Scheduler → Int) (hnd : threads.Nodup)
    (h₀ : count (init threads) = 0) (hp : ∀ pc, pc = .top ∨ pc = .out → p { pc } = false)
    (hmove : ∀ s s' a t, Turn s a s' → a.actor = some t →
      count s' + (p (s.worker t)).toNat = count s + (p (s'.worker t)).toNat)
    (hstill : ∀ s s' a, Turn s a s' → a.actor = none → count s' = count s)
    (hr : Run step (init threads) τ s) : count s = census p threads s.worker := by
  induction hr with
  | nil =>
    rw [h₀, census_eq_zero.mpr]
    · rfl
    · intro t ht
      simp [init, ht, hp]
  | step hr hs ih =>
    have hturn := turn hs
    rename_i s₁ s₂ a
    cases ha : a.actor with
    | none =>
      rw [hstill _ _ _ hturn ha, ih]
      refine congrArg _ (census_congr fun t _ => ?_).symm
      exact turn_worker hturn (by simp [ha])
    | some t =>
      have hin : t ∈ threads := by
        refine Classical.byContradiction fun hout => turn_inside hturn ha ?_
        rw [run_inside hr hout]
      have hcensus : census p threads s₂.worker + (p (s₁.worker t)).toNat = _ :=
        census_move hnd hin fun u hu => turn_worker hturn (by simpa [ha] using Ne.symm hu)
      have hcount := hmove _ _ _ _ hturn ha
      omega

theorem run_active (hnd : threads.Nodup) (hr : Run step (init threads) τ s) :
    s.activeThreadCount = census counted threads s.worker := by
  refine run_count counted Scheduler.activeThreadCount hnd rfl ?_ ?_ ?_ hr
  · rintro pc (rfl | rfl) <;> rfl
  · exact fun _ _ _ _ h ha => (turn_counters h ha).1
  · exact fun _ _ _ h ha => (turn_counters_still h ha).1

theorem run_idle (hnd : threads.Nodup) (hr : Run step (init threads) τ s) :
    s.idleThreadCount = census inIdle threads s.worker := by
  refine run_count inIdle Scheduler.idleThreadCount hnd rfl ?_ ?_ ?_ hr
  · rintro pc (rfl | rfl) <;> rfl
  · exact fun _ _ _ _ h ha => (turn_counters h ha).2
  · exact fun _ _ _ h ha => (turn_counters_still h ha).2

/-! ## The queue -/

/-- What a step pushes to `m_fibers`. -/
def pushed (s : Scheduler) : Action → List FiberAndThread
  | .schedule fc thread => nodes thread s.nextNode fc.toList
  | .scheduleRange fcs => nodes none s.nextNode (fcs.filterMap id)
  | .worker t =>
    match (s.worker t).pc with
    | .run .again _ f => nodes none s.nextNode [.fiber f]
    | _ => []
  | _ => []

/-- The worker that takes a task in a step, and the task. -/
def removed (s : Scheduler) : Action → Option (Nat × FiberAndThread)
  | .worker t => if (s.worker t).pc = .top then (dequeue s.heap t s.fibers).ft.map fun e => (t, e) else none
  | _ => none

def pushes : History Scheduler Action → List FiberAndThread
  | [] => []
  | (s, a) :: τ => pushes τ ++ pushed s a

def removals : History Scheduler Action → List (Nat × FiberAndThread)
  | [] => []
  | (s, a) :: τ => removals τ ++ (removed s a).toList

/-- The step pushes to the end, or takes the first task that may run. -/
inductive QueueMove (s : Scheduler) (a : Action) (s' : Scheduler) : Prop
  | push : removed s a = none → s'.fibers = s.fibers ++ pushed s a → QueueMove s a s'
  | take {t : Nat} {e : FiberAndThread} {skipped rest : List FiberAndThread} : removed s a = some (t, e) →
      pushed s a = [] → s.fibers = skipped ++ e :: rest → s'.fibers = skipped ++ rest → Eligible s.heap t e →
      (∀ x ∈ skipped, ¬ Eligible s.heap t x) → QueueMove s a s'

theorem nodes_numbers (thread : Option Nat) (n : Nat) (tasks : List Task) :
    (nodes thread n tasks).map (·.node) = List.range' n tasks.length := by
  induction tasks generalizing n with
  | nil => rfl
  | cons task tasks ih => simp [nodes, List.range'_succ, ih]

theorem pushed_numbers (s : Scheduler) (a : Action) :
    (pushed s a).map (·.node) = List.range' s.nextNode (pushed s a).length := by
  have hnodes : ∀ (thread : Option Nat) (tasks : List Task), (nodes thread s.nextNode tasks).map (·.node) =
      List.range' s.nextNode (nodes thread s.nextNode tasks).length := by
    intro thread tasks
    rw [nodes_numbers]
    congr 1
    simpa using (congrArg List.length (nodes_numbers thread s.nextNode tasks)).symm
  unfold pushed
  split <;> first | exact hnodes _ _ | rfl | (split <;> first | exact hnodes _ _ | rfl)

theorem turn_queue (h : Turn s a s') : QueueMove s a s' ∧ s'.nextNode = s.nextNode + (pushed s a).length := by
  have hlen : ∀ (thread : Option Nat) (n : Nat) (tasks : List Task), (nodes thread n tasks).length = tasks.length := by
    intro thread n tasks
    simpa using congrArg List.length (nodes_numbers thread n tasks)
  cases h with
  | @dequeue t ft tickleMe left hpc hf =>
    have hrem : removed s (.worker t) = ft.map fun e => (t, e) := by simp [removed, hpc, hf]
    have hpush : pushed s (.worker t) = [] := by simp [pushed, hpc]
    have htook := took s t
    rw [hf] at htook
    refine ⟨?_, by simp [hpush]⟩
    cases ft with
    | none =>
      obtain ⟨hleft, -⟩ := htook.nothing rfl
      exact .push hrem (by simpa [hpush] using hleft)
    | some e =>
      obtain ⟨skipped, rest, hq, hleft, he, hsk⟩ := htook.found e rfl
      exact .take hrem hpush hq (by simpa using hleft) he hsk
  | again hpc | againFirst hpc => exact ⟨.push (by simp [removed, hpc]) (by simp [pushed, hpc]), by simp [pushed, hpc, hlen]⟩
  | schedule => exact ⟨.push rfl (by simp [pushed]), by simp [pushed, hlen]⟩
  | scheduleRange => exact ⟨.push rfl (by simp [pushed]), by simp [pushed, hlen]⟩
  | _ => exact ⟨.push (by simp_all [removed]) (by simp_all [pushed]), by simp_all [pushed]⟩

/-- A node of the queue was there, or is pushed. -/
theorem turn_fibers (h : Turn s a s') {e : FiberAndThread} (he : e ∈ s'.fibers) : e ∈ s.fibers ∨ e ∈ pushed s a := by
  cases (turn_queue h).1 with
  | push _ hq =>
    rw [hq] at he
    exact List.mem_append.mp he
  | take _ _ hq hq' =>
    rw [hq'] at he
    rw [hq]
    rcases List.mem_append.mp he with he | he
    · exact .inl (List.mem_append_left _ he)
    · exact .inl (List.mem_append_right _ (List.mem_cons_of_mem _ he))

/-- What is pushed was named by a call of `schedule`, with its thread, or is put back by a
    worker, for any thread. -/
theorem mem_pushed {e : FiberAndThread} (he : e ∈ pushed s a) :
    (∃ thread, a = .schedule (some e.task) thread ∧ e.thread = thread) ∨
      (∃ fcs, a = .scheduleRange fcs ∧ some e.task ∈ fcs ∧ e.thread = none) ∨
      ∃ t br f, a = .worker t ∧ (s.worker t).pc = .run .again br f ∧ e.task = .fiber f ∧ e.thread = none := by
  unfold pushed at he
  split at he
  · rename_i fc thread
    obtain ⟨htask, hthread, -⟩ := mem_nodes he
    cases fc with
    | none => cases htask
    | some task =>
      rw [Option.toList_some, List.mem_singleton] at htask
      exact .inl ⟨thread, by rw [htask], hthread⟩
  · rename_i fcs
    obtain ⟨htask, hthread, -⟩ := mem_nodes he
    obtain ⟨fc, hfc, hid⟩ := List.mem_filterMap.mp htask
    cases hid
    exact .inr (.inl ⟨fcs, rfl, hfc, hthread⟩)
  · rename_i t
    split at he
    · rename_i br f hpc
      obtain ⟨htask, hthread, -⟩ := mem_nodes he
      exact .inr (.inr ⟨t, br, f, rfl, hpc, List.mem_singleton.mp htask, hthread⟩)
    · cases he
  · cases he

theorem run_queue (hr : Run step (init threads) τ s) :
    ((removals τ).map (·.2) ++ s.fibers).Perm (pushes τ) ∧ s.fibers.Sublist (pushes τ) ∧
      (pushes τ).map (·.node) = List.range s.nextNode := by
  induction hr with
  | nil => exact ⟨.refl _, .refl _, rfl⟩
  | @step τ s s' a hr hs ih =>
    obtain ⟨hperm, hsub, hnum⟩ := ih
    obtain ⟨hmove, hnext⟩ := turn_queue (turn hs)
    have hnum' : (pushes ((s, a) :: τ)).map (·.node) = List.range s'.nextNode := by
      rw [pushes, List.map_append, hnum, pushed_numbers, hnext, List.range_eq_range', List.range_eq_range']
      simpa using @List.range'_append_1 0 s.nextNode (pushed s a).length
    refine ⟨?_, ?_, hnum'⟩
    · cases hmove with
      | push hrem hq =>
        rw [removals, hrem, hq, pushes, Option.toList_none, List.append_nil, ← List.append_assoc]
        exact hperm.append_right _
      | @take t e skipped rest hrem hpush hq hq' =>
        rw [removals, hrem, hq', pushes, hpush, List.append_nil, Option.toList_some, List.map_append,
          List.append_assoc]
        refine List.Perm.trans (List.Perm.append_left _ ?_) hperm
        rw [hq]
        exact (@List.perm_middle _ e skipped rest).symm
    · cases hmove with
      | push hrem hq =>
        rw [hq, pushes]
        exact hsub.append (.refl _)
      | take hrem hpush hq hq' =>
        rw [hq', pushes, hpush, List.append_nil]
        refine List.Sublist.trans ?_ hsub
        rw [hq]
        exact (List.Sublist.refl _).append (List.sublist_cons_self _ _)

theorem not_eligible {heap : Nat → Fiber} {e : FiberAndThread} (h : ¬ Eligible heap t e) :
    (e.thread ≠ none ∧ e.thread ≠ some t) ∨ executing heap e.task = true := by
  rcases not_and_or.mp h with h | h
  · exact .inl (not_or.mp h)
  · exact .inr (by simpa using h)

theorem removed_first {e : FiberAndThread} (h : removed s a = some (t, e)) :
    ∃ skipped rest, s.fibers = skipped ++ e :: rest ∧ (e.thread = none ∨ e.thread = some t) ∧
      ∀ x ∈ skipped, (x.thread ≠ none ∧ x.thread ≠ some t) ∨ executing s.heap x.task = true := by
  cases a with
  | worker u =>
    obtain ⟨-, h⟩ := Option.ite_none_right_eq_some.mp h
    obtain ⟨e', he', heq⟩ := Option.map_eq_some_iff.mp h
    cases heq
    obtain ⟨skipped, rest, hq, -, he, hsk⟩ := (took s t).found e he'
    exact ⟨skipped, rest, hq, he.1, fun x hx => not_eligible (hsk x hx)⟩
  | _ => cases h

/-- In every run: a task pushed is queued or was removed once, by one worker; a removal takes
    the first task in the queue that is not pinned elsewhere and not executing; the counter is
    the number of workers that have a decrement to make, so none makes it below zero. -/
theorem tasks_conserved (hnd : threads.Nodup) (hr : Run step (init threads) τ s) :
    (((removals τ).map (·.2) ++ s.fibers).Perm (pushes τ) ∧ (pushes τ).Nodup ∧ s.fibers.Sublist (pushes τ)) ∧
      (∀ p ∈ τ, ∀ t e, removed p.1 p.2 = some (t, e) →
        ∃ skipped rest, p.1.fibers = skipped ++ e :: rest ∧ (e.thread = none ∨ e.thread = some t) ∧
          ∀ x ∈ skipped, (x.thread ≠ none ∧ x.thread ≠ some t) ∨ executing p.1.heap x.task = true) ∧
      s.activeThreadCount = census counted threads s.worker ∧
      ∀ t, counted (s.worker t) = true → 0 < s.activeThreadCount := by
  obtain ⟨hperm, hsub, hnum⟩ := run_queue hr
  have hactive := run_active hnd hr
  refine ⟨⟨hperm, ?_, hsub⟩, fun p _ t e h => removed_first h, hactive, fun t ht => ?_⟩
  · have hnodup : ((pushes τ).map (·.node)).Nodup := hnum ▸ List.nodup_range
    exact (List.pairwise_map.mp hnodup).imp fun hne e => hne (congrArg _ e)
  · have hin : t ∈ threads := by
      refine Classical.byContradiction fun hout => ?_
      rw [run_inside hr hout] at ht
      cases ht
    have hpos := census_pos (p := counted) (w := s.worker) hin ht
    omega

/-- Two workers, four tasks: one pinned, one finished fiber that is scheduled again. -/
theorem tasks_conserved_two_workers :
    ∃ τ s, Run step (init [0, 1]) τ s ∧ (removals τ).length = 3 ∧ s.activeThreadCount = 1 ∧
      ((removals τ).map (·.2) ++ s.fibers).Perm (pushes τ) := by
  obtain ⟨τ, s, hr, -, ht⟩ := exists_run step (fun _ _ => True) (init [0, 1])
    [.newFiber (some 7), .schedule (some (.cb 5)) (some 1), .scheduleRange [some (.fiber 0), none, some (.fiber 0)],
      .worker 0, .worker 0, .worker 0, .worker 0, .worker 0, .worker 0, .leave 0 .returned, .worker 0, .worker 0,
      .worker 0, .worker 0, .worker 0, .worker 0, .worker 0, .worker 0, .worker 1]
    (fun τ s => decide ((removals τ).length = 3 ∧ s.activeThreadCount = 1)) (by decide)
  obtain ⟨hlen, hcount⟩ := of_decide_eq_true ht
  exact ⟨τ, s, hr, hlen, hcount, (tasks_conserved (by decide) hr).1.1⟩

end LjrServer.Scheduler
