/-
  LjrServer.Config.Listeners — a configuration value and those who are told when it changes
  (`ConfigVar` in config.h).

  `setValue` compares and tells the listeners under a read lock, and assigns under a write
  lock it takes afterwards. A thread between the two is recorded with the value it is about
  to assign. Listeners are known by their keys; one that throws ends the call, so those
  after it are not told and nothing is assigned.

  A listener keeps what it was told (`s_connect_timeout`, `s_http_request_buffer_size`); one
  that was told nothing has the value there was when it was added (`cached`).

  Proved:
  - `listeners_agree`: while nobody is told, or added, between another call's sections, and
    only a listener that is told first throws, each listener is told the changes one after
    another, and has the value itself when no call is under way.
  - `assigned_in_other_order`: two writers that tell in one order and assign in the other.
-/

import LjrServer.Lib.Runs

namespace LjrServer.Config

open LjrServer.Lib

variable {T : Type} [BEq T]

/-- `m_val`, the keys of `m_cbs`, `s_fun_id`, and who is about to assign what. -/
structure ConfigVar (T : Type) where
  val : T
  cbs : List Nat
  funId : Nat
  setting : List (Nat × T)
  deriving Repr

namespace ConfigVar

/-- After the constructor. -/
def init (defaultValue : T) : ConfigVar T := ⟨defaultValue, [], 0, []⟩

/-- The listeners told, and whether one threw; `throws` are those that throw when told. -/
def notify (throws : List Nat) : List Nat → List Nat × Bool
  | [] => ([], false)
  | id :: cbs =>
    if id ∈ throws then ([id], true)
    else
      let (told, threw) := notify throws cbs
      (id :: told, threw)

/-- The first section of `setValue`. -/
def setValue (s : ConfigVar T) (thread : Nat) (v : T) (throws : List Nat) : ConfigVar T :=
  if v == s.val then s
  else if (notify throws s.cbs).2 then s
  else { s with setting := (thread, v) :: s.setting }

/-- A section of a call; `others` is how many keys variables of the same type took since the
    last. -/
inductive Call (T : Type) where
  | setValue (thread : Nat) (v : T) (throws : List Nat)
  | fromString (thread : Nat) (str : String) (throws : List Nat)
  | assign (thread : Nat)
  | addListener (others : Nat)
  | delListener (key : Nat)
  | clearListener
  deriving DecidableEq, Repr

variable (fromStr : String → Option T)

def step (s : ConfigVar T) : Call T → Option (ConfigVar T)
  | .setValue thread v throws =>
    if (s.setting.lookup thread).isSome then none else some (s.setValue thread v throws)
  | .fromString thread str throws =>
    if (s.setting.lookup thread).isSome then none
    else match fromStr str with
      | none => some s
      | some v => some (s.setValue thread v throws)
  | .assign thread => (s.setting.lookup thread).map fun v =>
    { s with val := v, setting := s.setting.filter (·.1 ≠ thread) }
  | .addListener others =>
    let id := s.funId + others + 1
    some { s with cbs := s.cbs ++ [id], funId := id }
  | .delListener key => some { s with cbs := s.cbs.filter (· ≠ key) }
  | .clearListener => some { s with cbs := [] }

/-! ## What a call tells -/

/-- The value a call sets, and who would throw. -/
def sets : Call T → Option (T × List Nat)
  | .setValue _ v throws => some (v, throws)
  | .fromString _ str throws => (fromStr str).map fun v => (v, throws)
  | _ => none

/-- The listeners told of it. -/
def tells (s : ConfigVar T) (c : Call T) : List Nat :=
  match sets fromStr c with
  | some (v, throws) => if v == s.val then [] else (notify throws s.cbs).1
  | none => []

def throwing (c : Call T) : List Nat := ((sets fromStr c).map (·.2)).getD []

/-- The key of the listener it adds. -/
def adds (s : ConfigVar T) : Call T → Option Nat
  | .addListener others => some (s.funId + others + 1)
  | _ => none

/-- A listener's own copy of the value. -/
def cached (initial : T) (id : Nat) : History (ConfigVar T) (Call T) → T
  | [] => initial
  | (s, c) :: τ =>
    if id ∈ tells fromStr s c then ((sets fromStr c).map (·.1)).getD initial
    else if s.adds c = some id then s.val
    else cached initial id τ

/-- The listener threw when it was told of something. -/
def Threw (id : Nat) (τ : History (ConfigVar T) (Call T)) : Prop :=
  ∃ p ∈ τ, id ∈ tells fromStr p.1 p.2 ∧ id ∈ throwing fromStr p.2

/-- Nobody is told, or added, while a call is between its sections, and only the first to be
    told throws. -/
def InTurn (s : ConfigVar T) (c : Call T) : Prop :=
  (tells fromStr s c ≠ [] ∨ (s.adds c).isSome → s.setting = []) ∧
    ∀ id ∈ (tells fromStr s c).tail, id ∉ throwing fromStr c

instance (s : ConfigVar T) (c : Call T) : Decidable (InTurn fromStr s c) :=
  inferInstanceAs (Decidable ((_ → _) ∧ _))

/-- Whoever is told has the old value until then, and outside of any call whoever is
    registered has the value. -/
structure Agree (initial : T) (τ : History (ConfigVar T) (Call T)) (s : ConfigVar T) : Prop where
  old : ∀ later s' c earlier, τ = later ++ (s', c) :: earlier →
    ∀ id ∈ tells fromStr s' c, ¬ Threw fromStr id earlier → cached fromStr initial id earlier = s'.val
  current : s.setting = [] → ∀ id ∈ s.cbs, ¬ Threw fromStr id τ → cached fromStr initial id τ = s.val

/-! ## One section -/

theorem notify_all {throws cbs : List Nat} (h : (notify throws cbs).2 = false) : (notify throws cbs).1 = cbs := by
  induction cbs with
  | nil => rfl
  | cons id cbs ih =>
    unfold notify at h ⊢
    split at h
    · cases h
    · rename_i hid
      rw [if_neg hid]
      exact congrArg (id :: ·) (ih h)

theorem notify_threw {throws cbs : List Nat} (h : (notify throws cbs).2 = true) :
    ∃ pre id, (notify throws cbs).1 = pre ++ [id] ∧ id ∈ throws := by
  induction cbs with
  | nil => cases h
  | cons id cbs ih =>
    unfold notify at h ⊢
    split at h
    · rename_i hid
      rw [if_pos hid]
      exact ⟨[], id, rfl, hid⟩
    · rename_i hid
      obtain ⟨pre, thrower, hpre, hthrower⟩ := ih h
      rw [if_neg hid]
      exact ⟨id :: pre, thrower, congrArg (id :: ·) hpre, hthrower⟩

theorem notify_subset (throws cbs : List Nat) : (notify throws cbs).1 ⊆ cbs := by
  induction cbs with
  | nil => exact fun _ h => h
  | cons id cbs ih =>
    unfold notify
    split
    · exact List.cons_subset_cons _ (List.nil_subset _)
    · exact List.cons_subset_cons _ ih

theorem tells_subset (s : ConfigVar T) (c : Call T) : tells fromStr s c ⊆ s.cbs := by
  unfold tells
  split
  · split
    · exact List.nil_subset _
    · exact notify_subset _ _
  · exact List.nil_subset _

/-- What a section does, and whom it tells. -/
inductive Effect (s s' : ConfigVar T) (c : Call T) : Prop
  | quiet (state : s' = s) (told : tells fromStr s c = []) (adds : s.adds c = none)
  | threw (pre : List Nat) (id : Nat) (state : s' = s) (told : tells fromStr s c = pre ++ [id])
    (throws : id ∈ throwing fromStr c) (adds : s.adds c = none)
  | told (thread : Nat) (v : T) (state : s' = { s with setting := (thread, v) :: s.setting })
    (told : tells fromStr s c = s.cbs) (value : (sets fromStr c).map (·.1) = some v)
  | assigned (thread : Nat) (v : T) (pending : s.setting.lookup thread = some v)
    (state : s' = { s with val := v, setting := s.setting.filter (·.1 ≠ thread) })
    (told : tells fromStr s c = []) (adds : s.adds c = none)
  | added (id : Nat) (state : s' = { s with cbs := s.cbs ++ [id], funId := id }) (told : tells fromStr s c = [])
    (adds : s.adds c = some id)
  | removed (cbs : List Nat) (state : s' = { s with cbs }) (fewer : cbs ⊆ s.cbs) (told : tells fromStr s c = [])
    (adds : s.adds c = none)

theorem setValue_effect (s : ConfigVar T) {c : Call T} {v : T} {throws : List Nat} (thread : Nat)
    (hc : sets fromStr c = some (v, throws)) : Effect fromStr s (s.setValue thread v throws) c := by
  have hadds : s.adds c = none := by
    cases c with
    | addListener others => cases hc
    | setValue thread v throws => rfl
    | fromString thread str throws => rfl
    | assign thread => rfl
    | delListener key => rfl
    | clearListener => rfl
  have htells : tells fromStr s c = if v == s.val then [] else (notify throws s.cbs).1 := by
    unfold tells
    rw [hc]
  unfold setValue
  by_cases hv : (v == s.val) = true
  · rw [if_pos hv] at htells ⊢
    exact .quiet rfl htells hadds
  · rw [if_neg hv] at htells ⊢
    cases hthrew : (notify throws s.cbs).2 with
    | true =>
      obtain ⟨pre, id, hpre, hid⟩ := notify_threw hthrew
      refine .threw pre id (if_pos rfl) (htells.trans hpre) ?_ hadds
      unfold throwing
      rw [hc]
      exact hid
    | false =>
      refine .told thread v (if_neg (by decide)) (htells.trans (notify_all hthrew)) ?_
      rw [hc, Option.map_some]

/-- Nothing is told by a call that sets nothing. -/
theorem tells_of_sets_none {s : ConfigVar T} {c : Call T} (h : sets fromStr c = none) : tells fromStr s c = [] := by
  unfold tells
  rw [h]

theorem step_effect {s s' : ConfigVar T} {c : Call T} (hs : step fromStr s c = some s') : Effect fromStr s s' c := by
  cases c with
  | setValue thread v throws =>
    simp only [step] at hs
    split at hs
    · cases hs
    · cases hs
      exact setValue_effect fromStr s thread rfl
  | fromString thread str throws =>
    simp only [step] at hs
    split at hs
    · cases hs
    · split at hs
      · rename_i hstr
        cases hs
        refine .quiet rfl (tells_of_sets_none fromStr ?_) rfl
        rw [sets, hstr, Option.map_none]
      · rename_i v hstr
        cases hs
        apply setValue_effect fromStr s thread
        rw [sets, hstr, Option.map_some]
  | assign thread =>
    obtain ⟨v, hv, rfl⟩ := Option.map_eq_some_iff.mp hs
    exact .assigned thread v hv rfl (tells_of_sets_none fromStr rfl) rfl
  | addListener others =>
    cases hs
    exact .added _ rfl (tells_of_sets_none fromStr rfl) rfl
  | delListener key =>
    cases hs
    exact .removed _ rfl (fun _ h => (List.mem_filter.mp h).1) (tells_of_sets_none fromStr rfl) rfl
  | clearListener =>
    cases hs
    exact .removed _ rfl (List.nil_subset _) (tells_of_sets_none fromStr rfl) rfl

variable {fromStr}
variable {initial : T} {τ : History (ConfigVar T) (Call T)} {s : ConfigVar T} {c : Call T} {id : Nat}

theorem cached_told {v : T} (hid : id ∈ tells fromStr s c) (hv : (sets fromStr c).map (·.1) = some v) :
    cached fromStr initial id ((s, c) :: τ) = v := by
  rw [cached, if_pos hid, hv, Option.getD_some]

theorem cached_added (hid : id ∉ tells fromStr s c) (hadds : s.adds c = some id) :
    cached fromStr initial id ((s, c) :: τ) = s.val := by
  rw [cached, if_neg hid, if_pos hadds]

theorem cached_untold (hid : id ∉ tells fromStr s c) (hadds : s.adds c ≠ some id) :
    cached fromStr initial id ((s, c) :: τ) = cached fromStr initial id τ := by
  rw [cached, if_neg hid, if_neg hadds]

theorem threw_cons (h : ¬ Threw fromStr id ((s, c) :: τ)) : ¬ Threw fromStr id τ := by
  intro ht
  obtain ⟨p, hp, htold⟩ := ht
  exact h ⟨p, List.mem_cons_of_mem _ hp, htold⟩

theorem setting_of_tells (hc : InTurn fromStr s c) (hid : id ∈ tells fromStr s c) : s.setting = [] :=
  hc.1 (.inl (List.ne_nil_of_mem hid))

/-! ## Every run -/

/-- Between the sections of the one call under way the listeners have the value it will
    assign; else they have the value. -/
def Informed (fromStr : String → Option T) (initial : T) (τ : History (ConfigVar T) (Call T)) (s : ConfigVar T) : Prop :=
  ∀ id ∈ s.cbs, ¬ Threw fromStr id τ →
    s.setting = [] ∧ cached fromStr initial id τ = s.val ∨
      ∃ thread v, s.setting = [(thread, v)] ∧ cached fromStr initial id τ = v

theorem step_informed {s' : ConfigVar T} (h : Informed fromStr initial τ s) (hc : InTurn fromStr s c)
    (hs : step fromStr s c = some s') : Informed fromStr initial ((s, c) :: τ) s' := by
  cases step_effect fromStr hs with
  | quiet state told adds =>
    subst state
    intro id hid hthrew
    rw [cached_untold (by simp [told]) (by simp [adds])]
    exact h id hid (threw_cons hthrew)
  | threw pre thrower state told throws adds =>
    subst state
    -- the thrower is the only one told
    have hpre : pre = [] := by
      cases pre with
      | nil => rfl
      | cons first pre =>
        have hmem : thrower ∈ (tells fromStr s' c).tail := by simp [told]
        exact absurd throws (hc.2 thrower hmem)
    intro id hid hthrew
    have hne : id ∉ tells fromStr s' c := by
      intro hmem
      rw [told, hpre] at hmem
      cases List.mem_singleton.mp hmem
      exact hthrew ⟨(s', c), List.mem_cons_self, by simp [told], throws⟩
    rw [cached_untold hne (by simp [adds])]
    exact h id hid (threw_cons hthrew)
  | told thread v state told value =>
    subst state
    intro id hid hthrew
    have hmem : id ∈ tells fromStr s c := told ▸ hid
    exact .inr ⟨thread, v, by rw [setting_of_tells hc hmem], cached_told hmem value⟩
  | assigned thread v pending state told adds =>
    subst state
    intro id hid hthrew
    left
    rw [cached_untold (by simp [told]) (by simp [adds])]
    rcases h id hid (threw_cons hthrew) with ⟨hset, _⟩ | ⟨thread', v', hset, hcached⟩
    · rw [hset] at pending
      cases pending
    · rw [hset, List.lookup_cons] at pending
      split at pending
      · rename_i heq
        cases pending
        cases eq_of_beq heq
        exact ⟨by simp [hset], hcached⟩
      · cases pending
  | added new state told adds =>
    subst state
    have hset : s.setting = [] := hc.1 (.inr (by rw [adds]; rfl))
    intro id hid hthrew
    left
    refine ⟨hset, ?_⟩
    by_cases hnew : id = new
    · subst hnew
      exact cached_added (by simp [told]) adds
    · rw [cached_untold (by simp [told]) (by rw [adds]; exact fun he => hnew (Option.some.inj he).symm)]
      have hid' : id ∈ s.cbs := by
        rcases List.mem_append.mp hid with hid' | hid'
        · exact hid'
        · exact absurd (List.mem_singleton.mp hid') hnew
      rcases h id hid' (threw_cons hthrew) with ⟨_, hcached⟩ | ⟨_, _, hset', _⟩
      · exact hcached
      · cases hset.symm.trans hset'
  | removed cbs state fewer told adds =>
    subst state
    intro id hid hthrew
    rw [cached_untold (by simp [told]) (by simp [adds])]
    exact h id (fewer hid) (threw_cons hthrew)

theorem run_informed (hr : Run (step fromStr) (init initial) τ s) (hc : Meets (InTurn fromStr) τ) :
    Informed fromStr initial τ s := by
  refine hr.history ?_ (fun _ _ _ _ h hcall hstep => step_informed h hcall hstep) hc
  intro id hid
  cases hid

/-- Listeners are told each change from the value they have, and outside of any call they
    have the value. -/
theorem listeners_agree (hr : Run (step fromStr) (init initial) τ s) (hc : Meets (InTurn fromStr) τ) :
    Agree fromStr initial τ s := by
  constructor
  · intro later s' c earlier hτ id hid hthrew
    subst hτ
    obtain ⟨_, hr', _, _⟩ := hr.cut_step
    have hturn := hc _ (List.mem_append_right _ List.mem_cons_self)
    have hc' : Meets (InTurn fromStr) earlier := fun z hz => hc z (List.mem_append_right _ (List.mem_cons_of_mem _ hz))
    have hset := setting_of_tells hturn hid
    rcases run_informed hr' hc' id (tells_subset fromStr s' c hid) hthrew with ⟨_, hcached⟩ | ⟨_, _, hset', _⟩
    · exact hcached
    · cases hset.symm.trans hset'
  · intro hset id hid hthrew
    rcases run_informed hr hc id hid hthrew with ⟨_, hcached⟩ | ⟨_, _, hset', _⟩
    · exact hcached
    · cases hset.symm.trans hset'

/-- Told "1", then "2"; assigned "2", then "1". -/
theorem assigned_in_other_order :
    ∃ τ s, Run (step some) (init "0") τ s ∧
      τ.map (·.2) = [.assign 0, .assign 1, .fromString 1 "2" [], .fromString 0 "1" [], .addListener 0] ∧
      s.setting = [] ∧ s.cbs = [1] ∧ s.val = "1" ∧ cached some "0" 1 τ = "2" := by
  obtain ⟨τ, s, hr, _, ht⟩ := exists_run (step some) (fun _ _ => True) (init "0")
    [.addListener 0, .fromString 0 "1" [], .fromString 1 "2" [], .assign 1, .assign 0]
    (fun τ s => τ.map (·.2) = [.assign 0, .assign 1, .fromString 1 "2" [], .fromString 0 "1" [], .addListener 0] &&
      s.setting = [] && s.cbs = [1] && s.val = "1" && cached some "0" 1 τ = "2") (by decide +kernel)
  simp only [Bool.and_eq_true, decide_eq_true_eq] at ht
  obtain ⟨⟨⟨⟨hτ, hset⟩, hcbs⟩, hval⟩, hcached⟩ := ht
  exact ⟨τ, s, hr, hτ, hset, hcbs, hval, hcached⟩

/-- Two listeners, of which the first throws once. -/
theorem listeners_agree_in_turn :
    ∃ τ s, Run (step some) (init "0") τ s ∧
      τ.map (·.2) = [.assign 0, .setValue 0 "2" [], .fromString 0 "1" [1], .addListener 0, .addListener 0] ∧
      Agree some "0" τ s := by
  obtain ⟨τ, s, hr, hc, ht⟩ := exists_run (step some) (InTurn some) (init "0")
    [.addListener 0, .addListener 0, .fromString 0 "1" [1], .setValue 0 "2" [], .assign 0]
    (fun τ _ => τ.map (·.2) = [.assign 0, .setValue 0 "2" [], .fromString 0 "1" [1], .addListener 0, .addListener 0])
    (by decide +kernel)
  exact ⟨τ, s, hr, of_decide_eq_true ht, listeners_agree hr hc⟩

end ConfigVar

end LjrServer.Config
