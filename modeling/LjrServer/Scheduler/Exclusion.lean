/-
  LjrServer.Scheduler.Exclusion — one worker at a time has a fiber.

  A yield sets `m_state` before the context is saved, and `run` sets HOLD after the switch: a
  worker that takes the fiber in between resumes a context that is still in use, or has its
  EXEC overwritten. `Alone` is the condition that no worker takes a fiber that another one
  has: uses it, from taking it to its last look at it, and it has not finished; or keeps it
  as its `cb_fiber`.

  Proved:
  - `Apart.step`: the invariant, of all workers and all fibers, is kept by a step that meets
    `Alone`.
  - `one_worker_a_fiber`: in every run of such steps no worker resumes a fiber another one is
    on, and HOLD is set by the worker that resumed the fiber last.
  - `two_workers_on_one_fiber`: runs without the condition that do both.
-/

import LjrServer.Scheduler.Conservation

namespace LjrServer.Scheduler

open LjrServer.Lib
open LjrServer.IoManager (FiberState Task)

variable {threads : List Nat} {s s' : Scheduler} {a : Action} {t u f : Nat} {τ : History Scheduler Action}

/-! ## Who has a fiber -/

def taskFiber (ft : Option FiberAndThread) : Option Nat :=
  match ft with
  | some ⟨.fiber f, _, _⟩ => some f
  | _ => none

/-- The fiber the worker is busy with, up to the last time it looks at it. -/
def Worker.uses (w : Worker) : Option Nat :=
  match w.pc with
  | .dequeued ft _ | .chosen ft => taskFiber ft
  | .run .again _ _ => none
  | .run _ _ f => some f
  | _ => none

/-- Its `cb_fiber`, unless it is about to let it go. -/
def Worker.keeps (w : Worker) : Option Nat :=
  match w.pc with
  | .run .again .callback _ => none
  | _ => w.cbFiber

/-- The stages in which the fiber cannot have finished. -/
def Stage.live : Stage → Bool
  | .swapIn | .enter | .resume | .on | .hold => true
  | _ => false

/-- The stages from the switch to the fiber to the last look at it. -/
def Stage.past : Stage → Bool
  | .on | .leave | .returned | .after | .ended | .hold => true
  | _ => false

def Worker.live (w : Worker) : Option Nat :=
  match w.pc with
  | .run stage _ f => if stage.live then some f else none
  | _ => none

def Worker.past (w : Worker) : Option Nat :=
  match w.pc with
  | .run stage _ f => if stage.past then some f else none
  | _ => none

/-- No other worker has the fiber that a worker takes. -/
def Alone (threads : List Nat) (s : Scheduler) : Action → Prop
  | .worker t =>
    match (s.worker t).pc, (dequeue s.heap t s.fibers).ft with
    | .top, some ⟨.fiber f, _, _⟩ =>
      ∀ u ∈ threads, u ≠ t → (s.worker u).keeps ≠ some f ∧ ((s.worker u).uses = some f → (s.heap f).finished = true)
    | _, _ => True
  | _ => True

instance (threads : List Nat) (s : Scheduler) (a : Action) : Decidable (Alone threads s a) := by
  unfold Alone
  rcases a with t | _ <;> try infer_instance
  dsimp only
  generalize (s.worker t).pc = pc
  generalize (dequeue s.heap t s.fibers).ft = ft
  rcases pc with _ | _ <;> try infer_instance
  rcases ft with _ | ⟨_ | _, _, _⟩ <;> infer_instance

/-! ## Fibers that exist -/

/-- The fiber the worker has been given and not put away. -/
def Worker.fiber (w : Worker) : Option Nat :=
  match w.pc with
  | .dequeued ft _ | .chosen ft => taskFiber ft
  | .run _ _ f => some f
  | _ => none

structure Worker.Sound (n : Nat) (w : Worker) : Prop where
  fiber : ∀ f, w.fiber = some f → f < n
  cbFiber : ∀ f, w.cbFiber = some f → f < n
  own : ∀ stage f, w.pc = .run stage .callback f → w.cbFiber = some f

/-- The fibers that workers and queue speak of exist; a worker in the branch of callbacks has
    its `cb_fiber`. -/
structure Sound (s : Scheduler) : Prop where
  worker : ∀ t, (s.worker t).Sound s.nextFiber
  queue : ∀ e ∈ s.fibers, s.allocated e.task = true

theorem Worker.Sound.mono {w : Worker} {n m : Nat} (h : w.Sound n) (hnm : n ≤ m) : w.Sound m :=
  ⟨fun f hf => Nat.lt_of_lt_of_le (h.fiber f hf) hnm, fun f hf => Nat.lt_of_lt_of_le (h.cbFiber f hf) hnm, h.own⟩

theorem Worker.uses_fiber {w : Worker} (h : w.uses = some f) : w.fiber = some f := by
  unfold Worker.uses at h
  unfold Worker.fiber
  split at h <;> simp_all

theorem turn_nextFiber (h : Turn s a s') : s.nextFiber ≤ s'.nextFiber := by
  cases h <;> simp

theorem init_sound (threads : List Nat) : (init threads).Sound := by
  refine ⟨fun t => ?_, fun e he => nomatch he⟩
  show Worker.Sound 0 (if t ∈ threads then { pc := .top } else { pc := .out })
  split <;> exact ⟨fun f hf => (nomatch hf), fun f hf => (nomatch hf), fun _ _ h => nomatch h⟩

theorem taskFiber_eq_some {ft : Option FiberAndThread} :
    taskFiber ft = some f ↔ ∃ e, ft = some e ∧ e.task = .fiber f := by
  rcases ft with _ | ⟨g | c, th, n⟩ <;> simp [taskFiber]

/-- A task a worker finds was in the queue. -/
theorem dequeue_mem {ft : Option FiberAndThread} {tickleMe : Bool} {left : List FiberAndThread} {e : FiberAndThread}
    (hf : dequeue s.heap t s.fibers = ⟨ft, tickleMe, left⟩) (he : ft = some e) : e ∈ s.fibers := by
  have hfind := (dequeue_find s.heap t s.fibers).1
  rw [hf, he] at hfind
  exact List.mem_of_find?_eq_some hfind.symm

theorem Sound.actor (h : s.Sound) (ht : Turn s a s') (ha : a.actor = some t) : (s'.worker t).Sound s'.nextFiber := by
  obtain ⟨hfiber, hcb, hown⟩ := h.worker t
  have hq := h.queue
  unfold Worker.fiber at hfiber
  cases ht <;> cases ha <;>
    refine ⟨?_, ?_, ?_⟩ <;> simp_all [goto_worker, setWorker_worker, dropCbFiber_worker, Worker.fiber]
  · intro f hf
    obtain ⟨e, he, htask⟩ := taskFiber_eq_some.mp hf
    have hmem := hq e (dequeue_mem ‹_› he)
    simpa [htask, allocated] using hmem
  · exact hfiber _ rfl

theorem Sound.step (h : s.Sound) (ht : Turn s a s') : s'.Sound := by
  refine ⟨fun t => ?_, ?_⟩
  · by_cases hact : a.actor = some t
    · exact h.actor ht hact
    · rw [turn_worker ht hact]
      exact (h.worker t).mono (turn_nextFiber ht)
  · have hmono : ∀ task, s.allocated task = true → s'.allocated task = true := by
      intro task hal
      cases task with
      | fiber f =>
        have hlt : f < s.nextFiber := of_decide_eq_true hal
        exact decide_eq_true (Nat.lt_of_lt_of_le hlt (turn_nextFiber ht))
      | cb c => rfl
    intro e he
    rcases turn_fibers ht he with he | he
    · exact hmono _ (h.queue e he)
    · refine hmono _ ?_
      rcases mem_pushed he with ⟨thread, rfl, -⟩ | ⟨fcs, rfl, hmem, -⟩ | ⟨u, br, f, rfl, hpc, htask, -⟩
      · cases ht with
        | schedule hal => exact hal _ rfl
      · cases ht with
        | scheduleRange hal => exact hal _ (List.mem_filterMap.mpr ⟨_, hmem, rfl⟩)
      · rw [htask]
        exact decide_eq_true ((h.worker u).fiber f (by simp [Worker.fiber, hpc]))

/-! ## The invariant -/

structure Apart (s : Scheduler) : Prop where
  unique : ∀ t u f, t ≠ u → (s.worker t).uses = some f → (s.worker u).uses = some f → (s.heap f).finished = true
  kept : ∀ t u f, t ≠ u → (s.worker t).keeps = some f → (s.worker u).uses ≠ some f
  keptOnce : ∀ t u f, t ≠ u → (s.worker t).keeps = some f → (s.worker u).keeps ≠ some f
  live : ∀ t f, (s.worker t).live = some f → (s.heap f).finished = false

/-- No other worker has the fiber. -/
def Free (s : Scheduler) (t f : Nat) : Prop :=
  ∀ u, u ≠ t → (s.worker u).keeps ≠ some f ∧ ((s.worker u).uses = some f → (s.heap f).finished = true)

theorem Sound.free (h : s.Sound) (t : Nat) : Free s t s.nextFiber := by
  intro u _
  constructor
  · intro hk
    have hlt : s.nextFiber < s.nextFiber := by
      refine (h.worker u).cbFiber _ ?_
      unfold Worker.keeps at hk
      split at hk
      · cases hk
      · exact hk
    exact absurd hlt (Nat.lt_irrefl _)
  · intro hu
    exact absurd ((h.worker u).fiber _ (Worker.uses_fiber hu)) (Nat.lt_irrefl _)

/-- A worker comes to have a fiber by taking it alone, or out of its `cb_fiber`. -/
theorem moves_uses (h : s.Sound) (ht : Turn s a s') (ha : a.actor = some t)
    (hfree : ∀ f, a = .worker t → (s.worker t).pc = .top → (s'.worker t).uses = some f → Free s t f)
    (hf : (s'.worker t).uses = some f) :
    (s.worker t).uses = some f ∨ (s.worker t).keeps = some f ∨ Free s t f := by
  have hnew := h.free t
  cases ht with
  | dequeue hpc =>
    cases ha
    exact .inr (.inr (hfree f rfl hpc hf))
  | makeFiber =>
    cases ha
    simp only [setWorker_worker, if_pos, Worker.uses, Option.some.injEq] at hf
    exact .inr (.inr (hf ▸ hnew))
  | _ => cases ha <;> simp_all [goto_worker, setWorker_worker, dropCbFiber_worker, Worker.uses, Worker.keeps, taskFiber]

theorem moves_keeps (ht : Turn s a s') (ha : a.actor = some t) (hf : (s'.worker t).keeps = some f) :
    (s.worker t).keeps = some f ∨ f = s.nextFiber := by
  cases ht with
  | @ready t g br hpc =>
    cases ha
    cases br <;> simp_all [goto_worker, Worker.keeps]
  | _ => cases ha <;> simp_all [goto_worker, setWorker_worker, dropCbFiber_worker, Worker.keeps]

/-- A finished fiber is used again only by the worker that keeps it. -/
theorem moves_lost (h : s.Sound) (hi : Apart s) (ht : Turn s a s') (hf : (s.heap f).finished = true)
    (hlt : f < s.nextFiber) :
    (s'.heap f).finished = true ∨ ∃ t, a.actor = some t ∧ (s.worker t).keeps = some f := by
  cases ht with
  | @reuseFiber t g n c th hpc hc hfin =>
    simp only [goto_frame, setFiber_heap]
    split
    · rename_i hfg
      exact .inr ⟨t, rfl, by simp [Worker.keeps, hpc, hc, hfg]⟩
    · exact .inl hf
  | @clear t g hpc hfin =>
    simp only [goto_frame, setFiber_heap]
    split
    · rename_i hfg
      exact .inr ⟨t, rfl, by simp [Worker.keeps, hpc, (h.worker t).own _ _ hpc, hfg]⟩
    · exact .inl hf
  | makeFiber | newFiber =>
    simp only [setWorker_frame, newFiber_heap, if_neg (Nat.ne_of_lt hlt)]
    exact .inl hf
  | @enter t g br hpc | @hold t g br hpc =>
    have hlive := hi.live t g (by simp [Worker.live, hpc, Stage.live])
    simp only [goto_frame, dropCbFiber_frame, setState_heap]
    split
    · rename_i hfg
      rw [hfg, hlive] at hf
      cases hf
    · exact .inl hf
  | @leave t g br how hpc =>
    have hlive := hi.live t g (by simp [Worker.live, hpc, Stage.live])
    simp only [goto_frame, setFiber_heap]
    split
    · rename_i hfg
      rw [hfg, hlive] at hf
      cases hf
    · exact .inl hf
  | _ => exact .inl (by simpa using hf)

/-- A fiber finishes on the worker that is on it. -/
theorem moves_gained (ht : Turn s a s') (hf : (s'.heap f).finished = true) :
    (s.heap f).finished = true ∨ ∃ t how br, a = .leave t how ∧ (s.worker t).pc = .run .on br f := by
  cases ht with
  | reuseFiber | clear =>
    simp only [goto_frame, setFiber_heap] at hf
    split at hf
    · cases hf
    · exact .inl hf
  | makeFiber | newFiber =>
    simp only [setWorker_frame, newFiber_heap] at hf
    split at hf
    · cases hf
    · exact .inl hf
  | enter | hold =>
    simp only [goto_frame, dropCbFiber_frame, setState_heap] at hf
    split at hf
    · cases hf
    · exact .inl hf
  | @leave t g br how hpc =>
    simp only [goto_frame, setFiber_heap] at hf
    split at hf
    · rename_i hfg
      exact .inr ⟨t, how, br, rfl, hfg ▸ hpc⟩
    · exact .inl hf
  | _ => exact .inl (by simpa using hf)

theorem moves_live (hi : Apart s) (ht : Turn s a s') (ha : a.actor = some t) (hf : (s'.worker t).live = some f) :
    (s'.heap f).finished = false := by
  have hlive := hi.live t
  cases ht <;> cases ha <;>
    simp_all [goto_worker, setWorker_worker, dropCbFiber_worker, Worker.live, Stage.live, setFiber_heap, setState_heap,
      newFiber_heap]
  all_goals rfl

theorem live_uses {w : Worker} (h : w.live = some f) : w.uses = some f := by
  unfold Worker.live at h
  unfold Worker.uses
  split at h
  · rename_i stage br g hpc
    cases stage <;> simp_all [Stage.live]
  · cases h

theorem keeps_cbFiber {w : Worker} (h : w.keeps = some f) : w.cbFiber = some f := by
  unfold Worker.keeps at h
  split at h
  · cases h
  · exact h

/-- A step that meets the condition takes a fiber alone. -/
theorem alone_free (hout : ∀ u, u ∉ threads → s.worker u = { pc := .out }) (hc : Alone threads s a) (ht : Turn s a s')
    (ha : a = .worker t) (hpc : (s.worker t).pc = .top) (hf : (s'.worker t).uses = some f) : Free s t f := by
  cases ht with
  | @dequeue t' ft tickleMe left _ hdq =>
    cases ha
    simp only [goto_worker, if_pos, Worker.uses] at hf
    obtain ⟨⟨task, th, n⟩, rfl, rfl⟩ := taskFiber_eq_some.mp hf
    simp only [Alone, hpc, hdq] at hc
    intro u hu
    by_cases hin : u ∈ threads
    · exact hc u hin hu
    · rw [hout u hin]
      exact ⟨(nomatch ·), (nomatch ·)⟩
  | _ => cases ha <;> simp_all

theorem Apart.step (h : s.Sound) (hi : Apart s) (ht : Turn s a s')
    (hfree : ∀ t f, a = .worker t → (s.worker t).pc = .top → (s'.worker t).uses = some f → Free s t f) : Apart s' := by
  have hother : ∀ {t u}, a.actor = some t → t ≠ u → s'.worker u = s.worker u :=
    fun ha hne => turn_worker ht (by simpa [ha] using hne)
  have huses : ∀ {t f}, a.actor = some t → (s'.worker t).uses = some f →
      (s.worker t).uses = some f ∨ (s.worker t).keeps = some f ∨ Free s t f :=
    fun ha hf => moves_uses h ht ha (hfree _) hf
  have hlt : ∀ {u f}, (s.worker u).uses = some f → f < s.nextFiber :=
    fun hu => (h.worker _).fiber _ (Worker.uses_fiber hu)
  -- a finished fiber stays finished while a worker uses it and does not keep it
  have hlost : ∀ {u f}, (s.worker u).uses = some f → (∀ t, a.actor = some t → t ≠ u) →
      (s.heap f).finished = true → (s'.heap f).finished = true := by
    intro u f hu hact hf
    rcases moves_lost h hi ht hf (hlt hu) with hf | ⟨t, ha, hk⟩
    · exact hf
    · exact absurd hu (hi.kept t u f (hact t ha) hk)
  have hactor : ∀ {t u f}, a.actor = some t → t ≠ u → (s'.worker t).uses = some f → (s'.worker u).uses = some f →
      (s'.heap f).finished = true := by
    intro t u f ha hne htf huf
    rw [hother ha hne] at huf
    have hact : ∀ v, a.actor = some v → v ≠ u := fun v hv e => hne (Option.some.inj (ha.symm.trans (e ▸ hv)))
    rcases huses ha htf with htf | htf | hfr
    · exact hlost huf hact (hi.unique t u f hne htf huf)
    · exact absurd huf (hi.kept t u f hne htf)
    · exact hlost huf hact ((hfr u (Ne.symm hne)).2 huf)
  constructor
  case unique =>
    intro t u f hne htf huf
    by_cases hat : a.actor = some t
    · exact hactor hat hne htf huf
    · by_cases hau : a.actor = some u
      · exact hactor hau (Ne.symm hne) huf htf
      · rw [turn_worker ht hat] at htf
        rw [turn_worker ht hau] at huf
        exact hlost huf (fun v hv e => hau (e ▸ hv)) (hi.unique t u f hne htf huf)
  case kept =>
    intro t u f hne hk huf
    by_cases hat : a.actor = some t
    · rw [hother hat hne] at huf
      rcases moves_keeps ht hat hk with hk | rfl
      · exact hi.kept t u f hne hk huf
      · exact Nat.lt_irrefl _ (hlt huf)
    · rw [turn_worker ht hat] at hk
      by_cases hau : a.actor = some u
      · rcases huses hau huf with huf | huf | hfr
        · exact hi.kept t u f hne hk huf
        · exact hi.keptOnce t u f hne hk huf
        · exact (hfr t hne).1 hk
      · rw [turn_worker ht hau] at huf
        exact hi.kept t u f hne hk huf
  case keptOnce =>
    have honce : ∀ {t u f}, a.actor = some t → t ≠ u → (s'.worker t).keeps = some f →
        (s'.worker u).keeps = some f → False := by
      intro t u f ha hne htk huk
      rw [hother ha hne] at huk
      rcases moves_keeps ht ha htk with htk | rfl
      · exact hi.keptOnce t u f hne htk huk
      · exact Nat.lt_irrefl _ ((h.worker u).cbFiber _ (keeps_cbFiber huk))
    intro t u f hne htk huk
    by_cases hat : a.actor = some t
    · exact honce hat hne htk huk
    · by_cases hau : a.actor = some u
      · exact honce hau (Ne.symm hne) huk htk
      · rw [turn_worker ht hat] at htk
        rw [turn_worker ht hau] at huk
        exact hi.keptOnce t u f hne htk huk
  case live =>
    intro t f hl
    by_cases hat : a.actor = some t
    · exact moves_live hi ht hat hl
    · rw [turn_worker ht hat] at hl
      have hf := hi.live t f hl
      rw [← Bool.not_eq_true]
      intro hf'
      rcases moves_gained ht hf' with hf' | ⟨v, how, br, rfl, hpc⟩
      · rw [hf'] at hf
        cases hf
      · -- the worker that is on the fiber has it, and so does `t`
        have hv : (s.worker v).uses = some f := by simp [Worker.uses, hpc]
        rw [hi.unique v t f (fun e => hat (congrArg some e)) hv (live_uses hl)] at hf
        cases hf

/-! ## Every run -/

/-- The worker that resumes a fiber, or finishes it, in a step. -/
def ran (s : Scheduler) : Action → Option (Nat × Nat)
  | .worker t =>
    match (s.worker t).pc with
    | .run .resume _ f => some (t, f)
    | _ => none
  | .leave t how =>
    match (s.worker t).pc with
    | .run .on _ f => if how = .returned ∨ how = .threw then some (t, f) else none
    | _ => none
  | _ => none

/-- The last worker that resumed the fiber or finished it. -/
def lastTurn : History Scheduler Action → Nat → Option Nat
  | [], _ => none
  | (s, a) :: τ, f =>
    match ran s a with
    | some (t, g) => if g = f then some t else lastTurn τ f
    | none => lastTurn τ f

theorem past_uses {w : Worker} (h : w.past = some f) : w.uses = some f := by
  unfold Worker.past at h
  unfold Worker.uses
  split at h
  · rename_i stage br g hpc
    cases stage <;> simp_all [Stage.past]
  · cases h

theorem ran_live (h : ran s a = some (t, f)) : (s.worker t).live = some f := by
  unfold ran at h
  split at h
  · split at h
    · cases h
      simp_all [Worker.live, Stage.live]
    · cases h
  · split at h
    · obtain ⟨-, h⟩ := Option.ite_none_right_eq_some.mp h
      cases h
      simp_all [Worker.live, Stage.live]
    · cases h
  · cases h

/-- A worker is past the switch to a fiber by that switch. -/
theorem turn_past (ht : Turn s a s') (h : (s'.worker t).past = some f) :
    (s.worker t).past = some f ∨ ran s a = some (t, f) := by
  by_cases hact : a.actor = some t
  · cases ht <;> cases hact <;>
      simp_all [goto_worker, setWorker_worker, dropCbFiber_worker, Worker.past, Stage.past, ran]
  · rw [turn_worker ht hact] at h
    exact .inl h

theorem run_apart (hr : Run step (init threads) τ s) (hc : Meets (Alone threads) τ) :
    s.Sound ∧ Apart s ∧ ∀ t f, (s.worker t).past = some f → lastTurn τ f = some t := by
  induction hr with
  | nil =>
    have hnone : ∀ t, ((init threads).worker t).uses = none ∧ ((init threads).worker t).keeps = none := by
      intro t
      by_cases ht : t ∈ threads <;> simp [init, ht, Worker.uses, Worker.keeps]
    refine ⟨init_sound threads, ⟨?_, ?_, ?_, ?_⟩, ?_⟩
    · intro t u f _ h
      rw [(hnone t).1] at h
      cases h
    · intro t u f _ h
      rw [(hnone t).2] at h
      cases h
    · intro t u f _ h
      rw [(hnone t).2] at h
      cases h
    · intro t f _
      rfl
    · intro t f h
      have huse := past_uses h
      rw [(hnone t).1] at huse
      cases huse
  | @step τ s s' a hr hs ih =>
    obtain ⟨ha, hc'⟩ := Run.meets_cons.mp hc
    obtain ⟨hsound, hi, hpast⟩ := ih hc'
    have ht := turn hs
    have hfree : ∀ t f, a = .worker t → (s.worker t).pc = .top → (s'.worker t).uses = some f → Free s t f :=
      fun t f hw hpc hf => alone_free (fun u hu => run_inside hr hu) ha ht hw hpc hf
    refine ⟨hsound.step ht, hi.step hsound ht hfree, fun t f h => ?_⟩
    have hwas := turn_past ht h
    unfold lastTurn
    split
    · rename_i v g hran
      have hv := ran_live hran
      split
      · rename_i hgf
        subst hgf
        by_cases hvt : v = t
        · rw [hvt]
        · -- else both have the fiber, and one is on it
          rcases hwas with hwas | hwas
          · have hfin := hi.unique v t g hvt (live_uses hv) (past_uses hwas)
            rw [hi.live v g hv] at hfin
            cases hfin
          · rw [hran] at hwas
            cases hwas
            exact absurd rfl hvt
      · rename_i hgf
        rcases hwas with hwas | hwas
        · exact hpast t f hwas
        · rw [hran] at hwas
          cases hwas
          exact absurd rfl hgf
    · rename_i hran
      rcases hwas with hwas | hwas
      · exact hpast t f hwas
      · rw [hran] at hwas
        cases hwas

/-- The worker's next step resumes the fiber's context. -/
def Resumes (s : Scheduler) (t f : Nat) : Prop := ∃ br, (s.worker t).pc = .run .resume br f

/-- The worker runs on the fiber's stack: its context is not saved. -/
def Executes (s : Scheduler) (t f : Nat) : Prop :=
  ∃ br, (s.worker t).pc = .run .on br f ∨ (s.worker t).pc = .run .leave br f

/-- The worker's next step sets the fiber's state to HOLD. -/
def SetsHold (s : Scheduler) (t f : Nat) : Prop := ∃ br, (s.worker t).pc = .run .hold br f

/-- In every run where no worker takes a fiber that another one has: no worker resumes a
    context another one is on, and a worker that sets HOLD was the last to resume the fiber,
    which nobody has finished since. -/
theorem one_worker_a_fiber (hr : Run step (init threads) τ s) (hc : Meets (Alone threads) τ) :
    (∀ t u f, t ≠ u → Resumes s t f → ¬ Executes s u f) ∧ ∀ t f, SetsHold s t f → lastTurn τ f = some t := by
  obtain ⟨-, hi, hpast⟩ := run_apart hr hc
  constructor
  · rintro t u f hne ⟨br, ht⟩ ⟨br', hu⟩
    have hlive := hi.live t f (by simp [Worker.live, ht, Stage.live])
    have huse : (s.worker u).uses = some f := by rcases hu with hu | hu <;> simp [Worker.uses, hu]
    have hfin := hi.unique t u f hne (by simp [Worker.uses, ht]) huse
    rw [hlive] at hfin
    cases hfin
  · rintro t f ⟨br, ht⟩
    exact hpast t f (by simp [Worker.past, ht, Stage.past])

/-- A callback yields, is woken, and runs on with the other worker. -/
theorem one_worker_a_fiber_handed_over :
    ∃ τ s, Run step (init [0, 1]) τ s ∧ Meets (Alone [0, 1]) τ ∧ Resumes s 1 0 ∧ lastTurn τ 0 = some 0 ∧
      ∀ u, u ≠ 1 → ¬ Executes s u 0 := by
  obtain ⟨τ, s, hr, hc, ht⟩ := exists_run step (Alone [0, 1]) (init [0, 1])
    [.schedule (some (.cb 5)) none, .worker 0, .worker 0, .worker 0, .worker 0, .worker 0, .worker 0,
      .leave 0 .yieldToHold, .worker 0, .worker 0, .worker 0, .worker 0, .worker 0, .schedule (some (.fiber 0)) none,
      .worker 1, .worker 1, .worker 1, .worker 1, .worker 1]
    (fun τ s => decide ((s.worker 1).pc = .run .resume .fiber 0 ∧ lastTurn τ 0 = some 0)) (by decide)
  obtain ⟨hpc, hlast⟩ := of_decide_eq_true ht
  exact ⟨τ, s, hr, hc, ⟨_, hpc⟩, hlast, fun u hu => (one_worker_a_fiber hr hc).1 1 u 0 (Ne.symm hu) ⟨_, hpc⟩⟩

/-- A fiber yields to HOLD and is scheduled before its worker is through with it. Worker 1
    resumes it while worker 0 is still on its stack; or worker 0 sets HOLD on the fiber that
    worker 1 runs. -/
theorem two_workers_on_one_fiber :
    (∃ τ s, Run step (init [0, 1]) τ s ∧ Resumes s 1 0 ∧ Executes s 0 0) ∧
      ∃ τ s, Run step (init [0, 1]) τ s ∧ SetsHold s 0 0 ∧ lastTurn τ 0 = some 1 ∧ Executes s 1 0 := by
  constructor
  · obtain ⟨τ, s, hr, -, ht⟩ := exists_run step (fun _ _ => True) (init [0, 1])
      [.newFiber (some 7), .schedule (some (.fiber 0)) none, .worker 0, .worker 0, .worker 0, .worker 0, .worker 0,
        .worker 0, .leave 0 .yieldToHold, .schedule (some (.fiber 0)) none, .worker 1, .worker 1, .worker 1, .worker 1,
        .worker 1]
      (fun _ s => decide ((s.worker 1).pc = .run .resume .fiber 0 ∧ (s.worker 0).pc = .run .leave .fiber 0)) (by decide)
    obtain ⟨h₁, h₀⟩ := of_decide_eq_true ht
    exact ⟨τ, s, hr, ⟨_, h₁⟩, _, .inr h₀⟩
  · obtain ⟨τ, s, hr, -, ht⟩ := exists_run step (fun _ _ => True) (init [0, 1])
      [.newFiber (some 7), .schedule (some (.fiber 0)) none, .worker 0, .worker 0, .worker 0, .worker 0, .worker 0,
        .worker 0, .leave 0 .yieldToHold, .worker 0, .worker 0, .worker 0, .worker 0, .schedule (some (.fiber 0)) none,
        .worker 1, .worker 1, .worker 1, .worker 1, .worker 1, .worker 1]
      (fun τ s => decide ((s.worker 0).pc = .run .hold .fiber 0 ∧ lastTurn τ 0 = some 1 ∧
        (s.worker 1).pc = .run .on .fiber 0)) (by decide)
    obtain ⟨h₀, hlast, h₁⟩ := of_decide_eq_true ht
    exact ⟨τ, s, hr, ⟨_, h₀⟩, hlast, _, .inl h₁⟩

end LjrServer.Scheduler
