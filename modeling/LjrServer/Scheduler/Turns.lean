/-
  LjrServer.Scheduler.Turns — what one step can do.

  `Turn` lists the steps with what each requires and the state it leaves; every later
  induction over a run takes its cases from there.

  Proved:
  - `turn`: a step of the model is one of them.
  - `turn_worker`, `turn_out`: a step moves one worker at most, and none that has left `run`.
  - `dequeue_find`: the scan of the queue takes the first node the worker may run.
  - `scheduleRange_eq`: the range form pushes the tasks of its range, in order, and empties it.
-/

import LjrServer.Scheduler.Run

namespace LjrServer.Scheduler

open LjrServer.IoManager (FiberState Task)

variable {s s' : Scheduler} {a : Action} {t u f : Nat}

/-! ## What the operations leave alone -/

@[simp]
theorem setWorker_frame (s : Scheduler) (t : Nat) (w : Worker) :
    (s.setWorker t w).heap = s.heap ∧ (s.setWorker t w).nextFiber = s.nextFiber ∧ (s.setWorker t w).fibers = s.fibers ∧
      (s.setWorker t w).nextNode = s.nextNode ∧ (s.setWorker t w).activeThreadCount = s.activeThreadCount ∧
      (s.setWorker t w).idleThreadCount = s.idleThreadCount ∧ (s.setWorker t w).stopping = s.stopping ∧
      (s.setWorker t w).autoStop = s.autoStop ∧ (s.setWorker t w).pipe = s.pipe ∧
      (s.setWorker t w).tickling = s.tickling :=
  ⟨rfl, rfl, rfl, rfl, rfl, rfl, rfl, rfl, rfl, rfl⟩

@[simp]
theorem goto_frame (s : Scheduler) (t : Nat) (pc : Pc) :
    (s.goto t pc).heap = s.heap ∧ (s.goto t pc).nextFiber = s.nextFiber ∧ (s.goto t pc).fibers = s.fibers ∧
      (s.goto t pc).nextNode = s.nextNode ∧ (s.goto t pc).activeThreadCount = s.activeThreadCount ∧
      (s.goto t pc).idleThreadCount = s.idleThreadCount ∧ (s.goto t pc).stopping = s.stopping ∧
      (s.goto t pc).autoStop = s.autoStop ∧ (s.goto t pc).pipe = s.pipe ∧ (s.goto t pc).tickling = s.tickling :=
  setWorker_frame s t _

@[simp]
theorem setFiber_frame (s : Scheduler) (f : Nat) (x : Fiber) :
    (s.setFiber f x).worker = s.worker ∧ (s.setFiber f x).nextFiber = s.nextFiber ∧ (s.setFiber f x).fibers = s.fibers ∧
      (s.setFiber f x).nextNode = s.nextNode ∧ (s.setFiber f x).activeThreadCount = s.activeThreadCount ∧
      (s.setFiber f x).idleThreadCount = s.idleThreadCount ∧ (s.setFiber f x).stopping = s.stopping ∧
      (s.setFiber f x).autoStop = s.autoStop ∧ (s.setFiber f x).pipe = s.pipe ∧
      (s.setFiber f x).tickling = s.tickling :=
  ⟨rfl, rfl, rfl, rfl, rfl, rfl, rfl, rfl, rfl, rfl⟩

@[simp]
theorem tickle_frame (s : Scheduler) :
    s.tickle.worker = s.worker ∧ s.tickle.heap = s.heap ∧ s.tickle.nextFiber = s.nextFiber ∧ s.tickle.fibers = s.fibers ∧
      s.tickle.nextNode = s.nextNode ∧ s.tickle.activeThreadCount = s.activeThreadCount ∧
      s.tickle.idleThreadCount = s.idleThreadCount ∧ s.tickle.stopping = s.stopping ∧
      s.tickle.autoStop = s.autoStop ∧ s.tickle.tickling = s.tickling := by
  unfold tickle
  split <;> exact ⟨rfl, rfl, rfl, rfl, rfl, rfl, rfl, rfl, rfl, rfl⟩

@[simp]
theorem owe_frame (s : Scheduler) (b : Bool) :
    (s.owe b).worker = s.worker ∧ (s.owe b).heap = s.heap ∧ (s.owe b).nextFiber = s.nextFiber ∧
      (s.owe b).fibers = s.fibers ∧ (s.owe b).nextNode = s.nextNode ∧
      (s.owe b).activeThreadCount = s.activeThreadCount ∧ (s.owe b).idleThreadCount = s.idleThreadCount ∧
      (s.owe b).stopping = s.stopping ∧ (s.owe b).autoStop = s.autoStop ∧ (s.owe b).pipe = s.pipe :=
  ⟨rfl, rfl, rfl, rfl, rfl, rfl, rfl, rfl, rfl, rfl⟩

@[simp]
theorem dropCbFiber_frame (s : Scheduler) (t : Nat) (br : Branch) :
    (s.dropCbFiber t br).heap = s.heap ∧ (s.dropCbFiber t br).nextFiber = s.nextFiber ∧
      (s.dropCbFiber t br).fibers = s.fibers ∧ (s.dropCbFiber t br).nextNode = s.nextNode ∧
      (s.dropCbFiber t br).activeThreadCount = s.activeThreadCount ∧
      (s.dropCbFiber t br).idleThreadCount = s.idleThreadCount ∧ (s.dropCbFiber t br).stopping = s.stopping ∧
      (s.dropCbFiber t br).autoStop = s.autoStop ∧ (s.dropCbFiber t br).pipe = s.pipe ∧
      (s.dropCbFiber t br).tickling = s.tickling := by
  cases br <;> exact ⟨rfl, rfl, rfl, rfl, rfl, rfl, rfl, rfl, rfl, rfl⟩

@[simp]
theorem tickle_if_frame (s : Scheduler) (b : Bool) :
    (if b then s.tickle else s).worker = s.worker ∧ (if b then s.tickle else s).heap = s.heap ∧
      (if b then s.tickle else s).nextFiber = s.nextFiber ∧ (if b then s.tickle else s).fibers = s.fibers ∧
      (if b then s.tickle else s).nextNode = s.nextNode ∧
      (if b then s.tickle else s).activeThreadCount = s.activeThreadCount ∧
      (if b then s.tickle else s).idleThreadCount = s.idleThreadCount ∧
      (if b then s.tickle else s).stopping = s.stopping ∧ (if b then s.tickle else s).autoStop = s.autoStop ∧
      (if b then s.tickle else s).tickling = s.tickling := by
  split
  · exact tickle_frame s
  · exact ⟨rfl, rfl, rfl, rfl, rfl, rfl, rfl, rfl, rfl, rfl⟩

@[simp]
theorem setState_frame (s : Scheduler) (f : Nat) (st : FiberState) :
    (s.setState f st).worker = s.worker ∧ (s.setState f st).nextFiber = s.nextFiber ∧
      (s.setState f st).fibers = s.fibers ∧ (s.setState f st).nextNode = s.nextNode ∧
      (s.setState f st).activeThreadCount = s.activeThreadCount ∧
      (s.setState f st).idleThreadCount = s.idleThreadCount ∧ (s.setState f st).stopping = s.stopping ∧
      (s.setState f st).autoStop = s.autoStop ∧ (s.setState f st).pipe = s.pipe ∧
      (s.setState f st).tickling = s.tickling :=
  setFiber_frame s f _

@[simp]
theorem newFiber_frame (s : Scheduler) (cb : Option Nat) :
    (s.newFiber cb).worker = s.worker ∧ (s.newFiber cb).nextFiber = s.nextFiber + 1 ∧
      (s.newFiber cb).fibers = s.fibers ∧ (s.newFiber cb).nextNode = s.nextNode ∧
      (s.newFiber cb).activeThreadCount = s.activeThreadCount ∧ (s.newFiber cb).idleThreadCount = s.idleThreadCount ∧
      (s.newFiber cb).stopping = s.stopping ∧ (s.newFiber cb).autoStop = s.autoStop ∧
      (s.newFiber cb).pipe = s.pipe ∧ (s.newFiber cb).tickling = s.tickling :=
  ⟨rfl, rfl, rfl, rfl, rfl, rfl, rfl, rfl, rfl, rfl⟩

theorem setWorker_worker (s : Scheduler) (t : Nat) (w : Worker) (u : Nat) :
    (s.setWorker t w).worker u = if u = t then w else s.worker u := Function.update_apply ..

theorem goto_worker (s : Scheduler) (t : Nat) (pc : Pc) (u : Nat) :
    (s.goto t pc).worker u = if u = t then { s.worker t with pc } else s.worker u := Function.update_apply ..

theorem setState_heap (s : Scheduler) (f : Nat) (st : FiberState) (g : Nat) :
    (s.setState f st).heap g = if g = f then { s.heap f with state := st } else s.heap g := Function.update_apply ..

theorem newFiber_heap (s : Scheduler) (cb : Option Nat) (g : Nat) :
    (s.newFiber cb).heap g = if g = s.nextFiber then { cb } else s.heap g := Function.update_apply ..

theorem setFiber_heap (s : Scheduler) (f : Nat) (x : Fiber) (g : Nat) :
    (s.setFiber f x).heap g = if g = f then x else s.heap g := Function.update_apply ..

/-- The worker after `cb_fiber.reset()` in its branch. -/
def Worker.drop (w : Worker) : Branch → Worker
  | .fiber => w
  | .callback => { w with cbFiber := none }

@[simp]
theorem Worker.drop_fields (w : Worker) (br : Branch) :
    (w.drop br).pc = w.pc ∧ (w.drop br).cbFiber = (if br = .callback then none else w.cbFiber) ∧
      (w.drop br).idleFiber = w.idleFiber := by
  cases br <;> exact ⟨rfl, rfl, rfl⟩

theorem dropCbFiber_worker (s : Scheduler) (t : Nat) (br : Branch) (u : Nat) :
    (s.dropCbFiber t br).worker u = if u = t then (s.worker t).drop br else s.worker u := by
  cases br with
  | fiber =>
    show s.worker u = _
    split
    · rename_i h
      rw [h]
      rfl
    · rfl
  | callback => exact setWorker_worker ..

theorem reset_eq_some {cb : Option Nat} :
    s.reset f cb = some s' ↔ ((s.heap f).finished ∨ (s.heap f).state = .INIT) ∧ s' = s.setFiber f { cb } := by
  unfold reset
  split
  · rename_i h
    rw [Bool.or_eq_true, beq_iff_eq] at h
    constructor
    · intro e
      exact ⟨h, (Option.some.inj e).symm⟩
    · rintro ⟨-, rfl⟩
      rfl
  · rename_i h
    rw [Bool.or_eq_true, beq_iff_eq] at h
    constructor
    · intro e
      cases e
    · rintro ⟨h', -⟩
      exact absurd h' h

/-! ## The queue -/

/-- The pushes of `scheduleNoLock`: nodes for the tasks, numbered on. -/
def nodes (thread : Option Nat) : Nat → List Task → List FiberAndThread
  | _, [] => []
  | n, task :: tasks => ⟨task, thread, n⟩ :: nodes thread (n + 1) tasks

def push (s : Scheduler) (thread : Option Nat) (tasks : List Task) : Scheduler :=
  { s with fibers := s.fibers ++ nodes thread s.nextNode tasks, nextNode := s.nextNode + tasks.length }

@[simp]
theorem push_frame (s : Scheduler) (thread : Option Nat) (tasks : List Task) :
    (s.push thread tasks).worker = s.worker ∧ (s.push thread tasks).heap = s.heap ∧
      (s.push thread tasks).nextFiber = s.nextFiber ∧
      (s.push thread tasks).fibers = s.fibers ++ nodes thread s.nextNode tasks ∧
      (s.push thread tasks).nextNode = s.nextNode + tasks.length ∧
      (s.push thread tasks).activeThreadCount = s.activeThreadCount ∧
      (s.push thread tasks).idleThreadCount = s.idleThreadCount ∧ (s.push thread tasks).stopping = s.stopping ∧
      (s.push thread tasks).autoStop = s.autoStop ∧ (s.push thread tasks).pipe = s.pipe ∧
      (s.push thread tasks).tickling = s.tickling :=
  ⟨rfl, rfl, rfl, rfl, rfl, rfl, rfl, rfl, rfl, rfl, rfl⟩

theorem mem_nodes {thread : Option Nat} {n : Nat} {tasks : List Task} {e : FiberAndThread} (h : e ∈ nodes thread n tasks) :
    e.task ∈ tasks ∧ e.thread = thread ∧ n ≤ e.node := by
  induction tasks generalizing n with
  | nil => cases h
  | cons task tasks ih =>
    rcases List.mem_cons.mp h with rfl | h
    · exact ⟨List.mem_cons_self, rfl, Nat.le_refl n⟩
    · obtain ⟨ht, hth, hn⟩ := ih h
      exact ⟨List.mem_cons_of_mem _ ht, hth, by omega⟩

theorem scheduleNoLock_eq (s : Scheduler) (fc : Option Task) (thread : Option Nat) :
    s.scheduleNoLock fc thread = (s.fibers.isEmpty, s.push thread fc.toList) := by
  cases fc with
  | none => simp [scheduleNoLock, push, nodes]
  | some task => simp [scheduleNoLock, push, nodes]

theorem nodes_append (thread : Option Nat) (n : Nat) (l l' : List Task) :
    nodes thread n (l ++ l') = nodes thread n l ++ nodes thread (n + l.length) l' := by
  induction l generalizing n with
  | nil => rfl
  | cons task l ih =>
    simp only [List.cons_append, nodes, ih, List.length_cons]
    rw [Nat.add_right_comm, Nat.add_assoc]

theorem push_push (s : Scheduler) (thread : Option Nat) (l l' : List Task) :
    (s.push thread l).push thread l' = s.push thread (l ++ l') := by
  simp only [push, nodes_append, List.append_assoc, List.length_append, Nat.add_assoc]

/-- The range form needs a tickle when the list was empty at one of its places; it pushes the
    tasks there were, in order, and leaves every place of its range empty. -/
theorem scheduleRange_eq (s : Scheduler) (fcs : List (Option Task)) :
    s.scheduleRangeNoLock fcs =
      (decide (fcs ≠ []) && s.fibers.isEmpty, List.replicate fcs.length none, s.push none (fcs.filterMap id)) := by
  induction fcs generalizing s with
  | nil => simp [scheduleRangeNoLock, push, nodes]
  | cons fc rest ih =>
    simp only [scheduleRangeNoLock, scheduleNoLock_eq, ih, push_push]
    refine Prod.ext ?_ (Prod.ext ?_ ?_)
    · -- a list that is empty later on was empty at first
      cases hq : s.fibers <;> cases fc <;> simp [push, nodes, hq]
    · simp [List.replicate_succ]
    · cases fc <;> rfl

/-- What worker `t` may run now. -/
def Eligible (heap : Nat → Fiber) (t : Nat) (e : FiberAndThread) : Prop :=
  (e.thread = none ∨ e.thread = some t) ∧ executing heap e.task = false

instance (heap : Nat → Fiber) (t : Nat) (e : FiberAndThread) : Decidable (Eligible heap t e) :=
  inferInstanceAs (Decidable (_ ∧ _))

theorem dequeue_find (heap : Nat → Fiber) (t : Nat) (l : List FiberAndThread) :
    (dequeue heap t l).ft = l.find? (Eligible heap t) ∧ (dequeue heap t l).fibers = l.eraseP (Eligible heap t) := by
  induction l with
  | nil => exact ⟨rfl, rfl⟩
  | cons it rest ih =>
    unfold dequeue
    split
    · rename_i h
      have hne : ¬ Eligible heap t it := fun he => he.1.elim h.1 h.2
      simp [hne, ih]
    · rename_i h
      rw [not_and_or, not_not, not_not] at h
      split
      · rename_i hx
        have hne : ¬ Eligible heap t it := fun he => by simp [he.2] at hx
        simp [hne, ih]
      · rename_i hx
        have he : Eligible heap t it := ⟨h, by simpa using hx⟩
        simp [he]

/-! ## Steps -/

/-- The node a scan takes is the first one the worker may run: those before it stay. -/
structure Took (s : Scheduler) (t : Nat) (ft : Option FiberAndThread) (left : List FiberAndThread) : Prop where
  found : ∀ e, ft = some e → ∃ skipped rest, s.fibers = skipped ++ e :: rest ∧ left = skipped ++ rest ∧
    Eligible s.heap t e ∧ ∀ x ∈ skipped, ¬ Eligible s.heap t x
  nothing : ft = none → left = s.fibers ∧ ∀ x ∈ s.fibers, ¬ Eligible s.heap t x

theorem took (s : Scheduler) (t : Nat) :
    Took s t (dequeue s.heap t s.fibers).ft (dequeue s.heap t s.fibers).fibers := by
  obtain ⟨hft, hleft⟩ := dequeue_find s.heap t s.fibers
  rw [hft, hleft]
  constructor
  · intro e he
    obtain ⟨hp, skipped, rest, hl, hsk⟩ := List.find?_eq_some_iff_append.mp he
    refine ⟨skipped, rest, hl, ?_, of_decide_eq_true hp, fun x hx => by simpa using hsk x hx⟩
    rw [hl, List.eraseP_append_right _ (by simpa using hsk),
      List.eraseP_cons_of_pos (p := fun b => decide (Eligible s.heap t b)) hp]
  · intro hn
    have hall := List.find?_eq_none.mp hn
    exact ⟨List.eraseP_of_forall_not hall, fun x hx => by simpa using hall x hx⟩

inductive Turn (s : Scheduler) : Action → Scheduler → Prop
  | dequeue {t : Nat} {ft : Option FiberAndThread} {tickleMe : Bool} {left : List FiberAndThread} :
      (s.worker t).pc = .top → Scheduler.dequeue s.heap t s.fibers = ⟨ft, tickleMe, left⟩ →
      Turn s (.worker t)
        ({ s with fibers := left, activeThreadCount := s.activeThreadCount + (if ft.isSome then 1 else 0) }.goto t
          (.dequeued ft tickleMe))
  | tickleMe {t : Nat} {ft : Option FiberAndThread} {tickleMe : Bool} : (s.worker t).pc = .dequeued ft tickleMe →
      Turn s (.worker t) ((if tickleMe then s.tickle else s).goto t (.chosen ft))
  | skipFiber {t f n : Nat} {th : Option Nat} : (s.worker t).pc = .chosen (some ⟨.fiber f, th, n⟩) →
      (s.heap f).finished = true → Turn s (.worker t) (s.goto t .finished)
  | takeFiber {t f n : Nat} {th : Option Nat} : (s.worker t).pc = .chosen (some ⟨.fiber f, th, n⟩) →
      (s.heap f).finished = false → Turn s (.worker t) (s.goto t (.run .swapIn .fiber f))
  | reuseFiber {t f n c : Nat} {th : Option Nat} : (s.worker t).pc = .chosen (some ⟨.cb c, th, n⟩) →
      (s.worker t).cbFiber = some f → (s.heap f).finished = true ∨ (s.heap f).state = .INIT →
      Turn s (.worker t) ((s.setFiber f { cb := some c }).goto t (.run .swapIn .callback f))
  | makeFiber {t n c : Nat} {th : Option Nat} : (s.worker t).pc = .chosen (some ⟨.cb c, th, n⟩) →
      (s.worker t).cbFiber = none →
      Turn s (.worker t) ((s.newFiber (some c)).setWorker t
        { s.worker t with pc := .run .swapIn .callback s.nextFiber, cbFiber := some s.nextFiber })
  | exit {t : Nat} : (s.worker t).pc = .chosen none → (s.worker t).idleFiber = .TERM → Turn s (.worker t) (s.goto t .out)
  | enterIdle {t : Nat} : (s.worker t).pc = .chosen none → (s.worker t).idleFiber ≠ .TERM →
      Turn s (.worker t) ({ s with idleThreadCount := s.idleThreadCount + 1 }.setWorker t
        { s.worker t with pc := .idle, idleFiber := .EXEC })
  | swapIn {t f : Nat} {br : Branch} : (s.worker t).pc = .run .swapIn br f → (s.heap f).state ≠ .EXEC →
      Turn s (.worker t) (s.goto t (.run .enter br f))
  | enter {t f : Nat} {br : Branch} : (s.worker t).pc = .run .enter br f →
      Turn s (.worker t) ((s.setState f .EXEC).goto t (.run .resume br f))
  | resume {t f : Nat} {br : Branch} : (s.worker t).pc = .run .resume br f →
      Turn s (.worker t) (s.goto t (.run .on br f))
  | save {t f : Nat} {br : Branch} : (s.worker t).pc = .run .leave br f →
      Turn s (.worker t) (s.goto t (.run .returned br f))
  | returned {t f : Nat} {br : Branch} : (s.worker t).pc = .run .returned br f →
      Turn s (.worker t) ({ s with activeThreadCount := s.activeThreadCount - 1 }.goto t (.run .after br f))
  | ready {t f : Nat} {br : Branch} : (s.worker t).pc = .run .after br f → (s.heap f).state = .READY →
      Turn s (.worker t) (s.goto t (.run .again br f))
  | notReady {t f : Nat} {br : Branch} : (s.worker t).pc = .run .after br f → (s.heap f).state ≠ .READY →
      Turn s (.worker t) (s.goto t (.run .ended br f))
  | again {t f : Nat} {br : Branch} : (s.worker t).pc = .run .again br f → s.fibers ≠ [] →
      Turn s (.worker t) (((s.push none [.fiber f]).dropCbFiber t br).goto t .top)
  | againFirst {t f : Nat} {br : Branch} : (s.worker t).pc = .run .again br f → s.fibers = [] →
      Turn s (.worker t) (((s.push none [.fiber f]).dropCbFiber t br).goto t .tickling)
  | ended {t f : Nat} : (s.worker t).pc = .run .ended .fiber f → (s.heap f).finished = true →
      Turn s (.worker t) (s.goto t .top)
  | clear {t f : Nat} : (s.worker t).pc = .run .ended .callback f → (s.heap f).finished = true →
      Turn s (.worker t) ((s.setFiber f { cb := none }).goto t .top)
  | unfinished {t f : Nat} {br : Branch} : (s.worker t).pc = .run .ended br f → (s.heap f).finished = false →
      Turn s (.worker t) (s.goto t (.run .hold br f))
  | hold {t f : Nat} {br : Branch} : (s.worker t).pc = .run .hold br f →
      Turn s (.worker t) (((s.setState f .HOLD).dropCbFiber t br).goto t .top)
  | tickling {t : Nat} : (s.worker t).pc = .tickling → Turn s (.worker t) (s.tickle.goto t .top)
  | finished {t : Nat} : (s.worker t).pc = .finished →
      Turn s (.worker t) ({ s with activeThreadCount := s.activeThreadCount - 1 }.goto t .top)
  | woken {t : Nat} : (s.worker t).pc = .woken → Turn s (.worker t) (s.goto t .idled)
  | idled {t : Nat} {idleFiber : FiberState} : (s.worker t).pc = .idled →
      Turn s (.worker t) ({ s with idleThreadCount := s.idleThreadCount - 1 }.setWorker t
        { s.worker t with pc := .top, idleFiber })
  | leave {t f : Nat} {br : Branch} {how : Leave} : (s.worker t).pc = .run .on br f →
      Turn s (.leave t how) ((s.setFiber f
        { state := how.state, cb := if how = .returned then none else (s.heap f).cb }).goto t (.run .leave br f))
  | stop {t : Nat} {drained : Bool} : (s.worker t).pc = .idle → drained = true → s.isStopping = true →
      Turn s (.idle t drained) (s.setWorker t { s.worker t with pc := .idled, idleFiber := .TERM })
  | wait {t : Nat} {drained : Bool} : (s.worker t).pc = .idle → (drained && s.isStopping) = false →
      Turn s (.idle t drained) (s.goto t .waiting)
  | wake {t : Nat} : (s.worker t).pc = .waiting → Turn s (.wake t) (s.goto t .woken)
  | read {t k : Nat} : (s.worker t).pc = .woken → k ≤ s.pipe → Turn s (.read t k) { s with pipe := s.pipe - k }
  | schedule {fc : Option Task} {thread : Option Nat} : (∀ task ∈ fc, s.allocated task = true) →
      Turn s (.schedule fc thread) ((s.push thread fc.toList).owe s.fibers.isEmpty)
  | scheduleRange {fcs : List (Option Task)} : (∀ task ∈ (fcs.filterMap id), s.allocated task = true) →
      Turn s (.scheduleRange fcs) ((s.push none (fcs.filterMap id)).owe (decide (fcs ≠ []) && s.fibers.isEmpty))
  | tickled : 0 < s.tickling → Turn s .tickled { s.tickle with tickling := s.tickling - 1 }
  | tickle : Turn s .tickle s.tickle
  | newFiber {cb : Option Nat} : Turn s (.newFiber cb) (s.newFiber cb)
  | setAutoStop : Turn s .setAutoStop { s with autoStop := true }
  | setStopping : Turn s .setStopping { s with stopping := true }

theorem turn_stage {stage : Stage} {br : Branch} (hpc : (s.worker t).pc = .run stage br f)
    (hs : s.stageStep t stage br f = some s') : Turn s (.worker t) s' := by
  cases stage with
  | swapIn =>
    simp only [stageStep] at hs
    split at hs
    · cases hs
    · rename_i hx
      cases hs
      exact .swapIn hpc hx
  | enter => cases hs; exact .enter hpc
  | resume => cases hs; exact .resume hpc
  | on => cases hs
  | leave => cases hs; exact .save hpc
  | returned => cases hs; exact .returned hpc
  | after =>
    simp only [stageStep] at hs
    split at hs
    · rename_i hr
      cases hs
      exact .ready hpc hr
    · rename_i hr
      cases hs
      exact .notReady hpc hr
  | again =>
    simp only [stageStep, scheduleNoLock_eq] at hs
    cases hs
    by_cases hq : s.fibers = []
    · rw [if_pos (List.isEmpty_iff.mpr hq)]
      exact .againFirst hpc hq
    · rw [if_neg (by simpa using hq)]
      exact .again hpc hq
  | ended =>
    simp only [stageStep] at hs
    split at hs
    · rename_i hf
      cases br with
      | fiber => cases hs; exact .ended hpc hf
      | callback =>
        obtain ⟨s₁, hr, rfl⟩ := Option.map_eq_some_iff.mp hs
        obtain ⟨-, rfl⟩ := reset_eq_some.mp hr
        exact .clear hpc hf
    · rename_i hf
      cases hs
      exact .unfinished hpc (by simpa using hf)
  | hold => cases hs; exact .hold hpc

theorem turn_choose {ft : Option FiberAndThread} (hpc : (s.worker t).pc = .chosen ft) (hs : s.choose t ft = some s') :
    Turn s (.worker t) s' := by
  rcases ft with _ | ⟨f | c, th, n⟩
  · simp only [choose] at hs
    split at hs
    · rename_i h
      cases hs
      exact .exit hpc h
    · cases hs
    · rename_i h _
      cases hs
      exact .enterIdle hpc h
  · simp only [choose] at hs
    split at hs
    · rename_i h
      cases hs
      exact .skipFiber hpc h
    · rename_i h
      cases hs
      exact .takeFiber hpc (by simpa using h)
  · simp only [choose] at hs
    split at hs
    · rename_i f hc
      obtain ⟨s₁, hr, rfl⟩ := Option.map_eq_some_iff.mp hs
      obtain ⟨hf, rfl⟩ := reset_eq_some.mp hr
      exact .reuseFiber hpc hc hf
    · rename_i hc
      cases hs
      exact .makeFiber hpc hc

theorem turn_worker_step (hs : s.workerStep t = some s') : Turn s (.worker t) s' := by
  unfold workerStep at hs
  split at hs
  · rename_i hpc
    cases hs
    exact .dequeue hpc rfl
  · rename_i hpc
    cases hs
    exact .tickleMe hpc
  · rename_i hpc
    exact turn_choose hpc hs
  · rename_i hpc
    exact turn_stage hpc hs
  · rename_i hpc
    cases hs
    exact .tickling hpc
  · rename_i hpc
    cases hs
    exact .finished hpc
  · rename_i hpc
    cases hs
    exact .woken hpc
  · rename_i hpc
    cases hs
    exact .idled hpc
  · cases hs
  · cases hs
  · cases hs

theorem turn (hs : s.step a = some s') : Turn s a s' := by
  cases a with
  | worker t => exact turn_worker_step hs
  | leave t how =>
    simp only [step] at hs
    split at hs
    · rename_i hpc
      cases hs
      exact .leave hpc
    · cases hs
  | idle t drained =>
    simp only [step] at hs
    split at hs
    · rename_i hpc
      split at hs
      · rename_i h
        rw [Bool.and_eq_true] at h
        cases hs
        exact .stop hpc h.1 h.2
      · rename_i h
        cases hs
        exact .wait hpc (by simpa using h)
    · cases hs
  | wake t =>
    obtain ⟨hpc, hs⟩ := Option.ite_none_right_eq_some.mp hs
    cases hs
    exact .wake hpc
  | read t k =>
    obtain ⟨⟨hpc, hk⟩, hs⟩ := Option.ite_none_right_eq_some.mp hs
    cases hs
    exact .read hpc hk
  | schedule fc thread =>
    simp only [step, scheduleNoLock_eq] at hs
    obtain ⟨ha, hs⟩ := Option.ite_none_right_eq_some.mp hs
    cases hs
    exact .schedule (by simpa [Option.all_eq_true] using ha)
  | scheduleRange fcs =>
    simp only [step, scheduleRange_eq] at hs
    obtain ⟨ha, hs⟩ := Option.ite_none_right_eq_some.mp hs
    cases hs
    refine .scheduleRange fun task ht => ?_
    have hall := List.all_eq_true.mp ha (some task) (by simpa using ht)
    simpa using hall
  | tickled =>
    obtain ⟨ht, hs⟩ := Option.ite_none_right_eq_some.mp hs
    cases hs
    exact .tickled ht
  | tickle => cases hs; exact .tickle
  | newFiber cb => cases hs; exact .newFiber
  | setAutoStop => cases hs; exact .setAutoStop
  | setStopping => cases hs; exact .setStopping

/-! ## One worker at a time -/

/-- The worker a step moves. -/
def Action.actor : Action → Option Nat
  | .worker t | .leave t _ | .idle t _ | .wake t => some t
  | _ => none

theorem turn_worker (h : Turn s a s') (hu : a.actor ≠ some u) : s'.worker u = s.worker u := by
  have hne : ∀ t, some t ≠ some u → u ≠ t := fun t h e => h (congrArg some e.symm)
  cases h <;> first
    | rfl
    | simp [goto_worker, setWorker_worker, dropCbFiber_worker, hne _ hu]
    | simp

theorem turn_out (h : Turn s a s') (hu : (s.worker u).pc = .out) : s'.worker u = s.worker u := by
  refine turn_worker h fun hact => ?_
  cases h <;> simp_all [Action.actor]

end LjrServer.Scheduler
