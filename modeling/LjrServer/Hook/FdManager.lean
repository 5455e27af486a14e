/-
  LjrServer.Hook.FdManager — the table of fd contexts, used by several threads
  (fd_manager.cpp).

  `get` looks its fd up under a read lock and creates a context under a write lock it takes
  afterwards, without looking again. A thread between the two is recorded with its fd. A
  context is known by its address, its place among those made so far. The look-up goes past
  the end of the table when the fd is the table's size; what it finds there is not modelled.

  Proved:
  - `one_context_a_fd`: while every thread that is about to create finds the slot still
    empty, and no look-up is past the end, all calls for an fd return one context, until it
    is deleted.
  - `two_contexts`: two threads that both looked the fd up before either created.
-/

import LjrServer.Hook.FdCtx
import LjrServer.Lib.Runs

namespace LjrServer.Hook

open LjrServer.Lib

/-- `m_datas`, the contexts made, what the kernel has for each fd, and who is about to create
    a context for which. -/
structure FdManager where
  datas : List (Option Nat)
  contexts : List FdCtx
  kernel : Int → Descriptor
  creating : Nat → Option Int

namespace FdManager

/-- After the constructor. -/
def init (kernel : Int → Descriptor) : FdManager := ⟨List.replicate 64 none, [], kernel, fun _ => none⟩

/-- `(int)m_datas.size()`. -/
def intSize (m : FdManager) : Int := (BitVec.ofNat 32 m.datas.length).toInt

/-- `m_datas[fd]`; `none` is past the end. -/
def slot (m : FdManager) (fd : Int) : Option (Option Nat) := if fd < 0 then none else m.datas[fd.toNat]?

inductive Found where
  | returns (ctx : Option Nat)
  | creates
  | pastEnd
  deriving DecidableEq, Repr

/-- `get` up to where it unlocks. -/
def lookup (m : FdManager) (fd : Int) (autoCreate : Bool) : Found :=
  if fd = -1 then .returns none
  else if m.intSize < fd then
    if autoCreate = false then .returns none else .creates
  else
    match m.slot fd with
    | none => .pastEnd
    | some ctx => if ctx.isSome ∨ ¬ autoCreate then .returns ctx else .creates

/-- `m_datas.resize(size)` -/
def resize (m : FdManager) (size : Nat) : FdManager :=
  { m with datas := m.datas.take size ++ List.replicate (size - m.datas.length) none }

/-- `get` from where it locks again: the table and the context it returns. -/
def create (m : FdManager) (fd : Int) : FdManager × Nat :=
  let (ctx, d) := FdCtx.new (m.kernel fd)
  let addr := m.contexts.length
  let m := if fd ≥ m.intSize then m.resize (fd * 3 / 2).toNat else m
  ({ m with
      datas := m.datas.set fd.toNat (some addr)
      contexts := m.contexts ++ [ctx]
      kernel := fun i => if i = fd then d else m.kernel i }, addr)

def del (m : FdManager) (fd : Int) : FdManager :=
  if m.intSize ≤ fd then m else { m with datas := m.datas.set fd.toNat none }

/-- A section of a call, or a use of a context. -/
inductive Call where
  | get (thread : Nat) (fd : Int) (autoCreate : Bool)
  | create (thread : Nat)
  | del (fd : Int)
  | setTimeout (ctx : Nat) (type : TimeoutType) (v : UInt64)
  | setUserNonblock (ctx : Nat) (v : Bool)
  deriving DecidableEq, Repr

def modify (m : FdManager) (ctx : Nat) (f : FdCtx → FdCtx) : FdManager := { m with contexts := m.contexts.modify ctx f }

def setCreating (m : FdManager) (thread : Nat) (fd : Option Int) : FdManager :=
  { m with creating := fun i => if i = thread then fd else m.creating i }

def step (m : FdManager) : Call → Option FdManager
  | .get thread fd autoCreate =>
    if (m.creating thread).isSome then none
    else match m.lookup fd autoCreate with
      | .creates => some (m.setCreating thread fd)
      | _ => some m
  | .create thread => (m.creating thread).map fun fd => (m.create fd).1.setCreating thread none
  | .del fd => some (m.del fd)
  | .setTimeout ctx type v => some (m.modify ctx (·.setTimeout type v))
  | .setUserNonblock ctx v => some (m.modify ctx fun c => { c with userNonblock := v })

/-- The fd of a call that returns in this step, and the context it returns; past the end
    there is none. -/
def returns (m : FdManager) : Call → Option (Int × Option Nat)
  | .get _ fd autoCreate =>
    match m.lookup fd autoCreate with
    | .returns ctx => some (fd, ctx)
    | .creates => none
    | .pastEnd => some (fd, none)
  | .create thread => (m.creating thread).map fun fd => (fd, some (m.create fd).2)
  | _ => none

/-- A look-up is not past the end, a thread that creates finds the slot empty, and the table
    does not grow past `INT_MAX`. -/
def InTurn (m : FdManager) : Call → Prop
  | .get _ fd _ => fd = -1 ∨ 0 ≤ fd ∧ fd ≠ m.datas.length
  | .create thread => ∀ fd, m.creating thread = some fd →
    (m.slot fd).join = none ∧ (m.intSize ≤ fd → fd * 3 / 2 < 2 ^ 31)
  | .del fd => 0 ≤ fd
  | _ => True

instance (m : FdManager) (c : Call) : Decidable (m.InTurn c) :=
  match c with
  | .get _ fd _ => inferInstanceAs (Decidable (fd = -1 ∨ 0 ≤ fd ∧ fd ≠ m.datas.length))
  | .create thread =>
    inferInstanceAs (Decidable (∀ fd ∈ m.creating thread,
      (m.slot fd).join = none ∧ (m.intSize ≤ fd → fd * 3 / 2 < 2 ^ 31)))
  | .del fd => inferInstanceAs (Decidable (0 ≤ fd))
  | .setTimeout _ _ _ => inferInstanceAs (Decidable True)
  | .setUserNonblock _ _ => inferInstanceAs (Decidable True)

/-! ## One section -/

/-- A table within `INT_MAX` whose entries are contexts that were made; no thread is about to
    create for a negative fd. -/
structure Sound (m : FdManager) : Prop where
  initial : 64 ≤ m.datas.length
  size : m.datas.length < 2 ^ 31
  made : ∀ a, some a ∈ m.datas → a < m.contexts.length
  creating : ∀ i fd, m.creating i = some fd → 0 ≤ fd

theorem init_sound (kernel : Int → Descriptor) : (init kernel).Sound := by
  refine ⟨by simp [init], by simp [init], ?_, ?_⟩
  · intro a h
    simp [init] at h
  · intro i fd h
    cases h

theorem intSize_eq {m : FdManager} (h : m.Sound) : m.intSize = m.datas.length := by
  have hsize := h.size
  have hn : (BitVec.ofNat 32 m.datas.length).toNat = m.datas.length := by
    rw [BitVec.toNat_ofNat, Nat.mod_eq_of_lt (by omega)]
  rw [intSize, BitVec.toInt_eq_toNat_of_lt (by omega), hn]

theorem slot_eq {m : FdManager} {fd : Int} (h : 0 ≤ fd) : m.slot fd = m.datas[fd.toNat]? := if_neg (by omega)

/-- The table `create` writes to: large enough for the fd, and what was in it is still there. -/
theorem grown {m : FdManager} {fd : Int} (h : m.Sound) (hfd : 0 ≤ fd) (hmax : m.intSize ≤ fd → fd * 3 / 2 < 2 ^ 31) :
    ∃ more, (if fd ≥ m.intSize then m.resize (fd * 3 / 2).toNat else m).datas = m.datas ++ List.replicate more none ∧
      fd.toNat < m.datas.length + more ∧ m.datas.length + more < 2 ^ 31 := by
  have hsize := intSize_eq h
  have hinit := h.initial
  have hlt := h.size
  by_cases hge : fd ≥ m.intSize
  · have hbound := hmax hge
    refine ⟨(fd * 3 / 2).toNat - m.datas.length, ?_, by omega, by omega⟩
    rw [if_pos hge, resize, List.take_of_length_le (by omega)]
  · refine ⟨0, ?_, by omega, by omega⟩
    rw [if_neg hge, List.replicate_zero, List.append_nil]

theorem create_eq (m : FdManager) (fd : Int) :
    (m.create fd).2 = m.contexts.length ∧
      (m.create fd).1.datas = (if fd ≥ m.intSize then m.resize (fd * 3 / 2).toNat else m).datas.set fd.toNat
        (some m.contexts.length) ∧
      (m.create fd).1.contexts = m.contexts ++ [(FdCtx.new (m.kernel fd)).1] ∧
      (m.create fd).1.creating = m.creating := by
  unfold create
  refine ⟨rfl, rfl, ?_, ?_⟩
  · dsimp only
    split <;> rfl
  · dsimp only
    split <;> rfl

/-- What a section does to the table. -/
inductive Changes (m m' : FdManager) : Call → Prop
  | get {thread : Nat} {fd : Int} {autoCreate : Bool} (datas : m'.datas = m.datas) (contexts : m'.contexts = m.contexts) :
    Changes m m' (.get thread fd autoCreate)
  | create {thread : Nat} (fd : Int) (more : Nat) (thread_creates : m.creating thread = some fd)
    (room : fd.toNat < m.datas.length + more) (bound : m.datas.length + more < 2 ^ 31)
    (datas : m'.datas = (m.datas ++ List.replicate more none).set fd.toNat (some m.contexts.length))
    (contexts : m'.contexts = m.contexts ++ [(FdCtx.new (m.kernel fd)).1]) : Changes m m' (.create thread)
  | del {fd : Int} (datas : m'.datas = m.datas ∨ m'.datas = m.datas.set fd.toNat none) (contexts : m'.contexts = m.contexts) :
    Changes m m' (.del fd)
  | setTimeout {ctx : Nat} {type : TimeoutType} {v : UInt64} (datas : m'.datas = m.datas)
    (contexts : m'.contexts = m.contexts.modify ctx (·.setTimeout type v)) : Changes m m' (.setTimeout ctx type v)
  | setUserNonblock {ctx : Nat} {v : Bool} (datas : m'.datas = m.datas)
    (contexts : m'.contexts = m.contexts.modify ctx fun c => { c with userNonblock := v }) :
    Changes m m' (.setUserNonblock ctx v)

theorem step_changes {m m' : FdManager} {c : Call} (h : m.Sound) (hc : m.InTurn c) (hs : m.step c = some m') :
    m.Changes m' c ∧ ∀ i fd, m'.creating i = some fd → 0 ≤ fd := by
  cases c with
  | get thread fd autoCreate =>
    simp only [step] at hs
    split at hs
    · cases hs
    · split at hs
      · rename_i hcreates
        cases hs
        refine ⟨.get rfl rfl, ?_⟩
        intro i fd' hi
        dsimp only [setCreating] at hi
        split at hi
        · cases hi
          rcases hc with rfl | ⟨hfd, _⟩
          · cases hcreates
          · exact hfd
        · exact h.creating i fd' hi
      · cases hs
        exact ⟨.get rfl rfl, h.creating⟩
  | create thread =>
    obtain ⟨fd, hfd, rfl⟩ := Option.map_eq_some_iff.mp hs
    obtain ⟨_, hmax⟩ := hc fd hfd
    obtain ⟨more, hgrown, hroom, hbound⟩ := grown h (h.creating thread fd hfd) hmax
    obtain ⟨_, hdatas, hcontexts, hcreating⟩ := create_eq m fd
    rw [hgrown] at hdatas
    refine ⟨.create fd more hfd hroom hbound hdatas hcontexts, ?_⟩
    intro i fd' hi
    dsimp only [setCreating] at hi
    split at hi
    · cases hi
    · rw [hcreating] at hi
      exact h.creating i fd' hi
  | del fd =>
    cases hs
    unfold del
    split
    · exact ⟨.del (.inl rfl) rfl, h.creating⟩
    · exact ⟨.del (.inr rfl) rfl, h.creating⟩
  | setTimeout ctx type v =>
    cases hs
    exact ⟨.setTimeout rfl rfl, h.creating⟩
  | setUserNonblock ctx v =>
    cases hs
    exact ⟨.setUserNonblock rfl rfl, h.creating⟩

/-- `some a` is in the table at the fd. -/
def Holds (m : FdManager) (fd : Int) (a : Nat) : Prop := 0 ≤ fd ∧ m.datas[fd.toNat]? = some (some a)

theorem step_sound {m m' : FdManager} {c : Call} (h : m.Sound) (hc : m.InTurn c) (hs : m.step c = some m') : m'.Sound := by
  have hinit := h.initial
  obtain ⟨hch, hcreating⟩ := step_changes h hc hs
  cases hch with
  | get datas contexts =>
    exact ⟨datas ▸ h.initial, datas ▸ h.size, datas ▸ contexts ▸ h.made, hcreating⟩
  | create fd more thread_creates room bound datas contexts =>
    have hlen : m'.datas.length = m.datas.length + more := by
      rw [datas, List.length_set, List.length_append, List.length_replicate]
    refine ⟨by omega, by omega, ?_, hcreating⟩
    intro a ha
    rw [datas] at ha
    rw [contexts, List.length_append, List.length_singleton]
    rcases List.mem_or_eq_of_mem_set ha with ha | ha
    · rcases List.mem_append.mp ha with ha | ha
      · exact Nat.lt_succ_of_lt (h.made a ha)
      · cases List.eq_of_mem_replicate ha
    · cases ha
      exact Nat.lt_succ_self _
  | del datas contexts =>
    rcases datas with datas | datas
    · exact ⟨datas ▸ h.initial, datas ▸ h.size, datas ▸ contexts ▸ h.made, hcreating⟩
    · have hlen : m'.datas.length = m.datas.length := by rw [datas, List.length_set]
      refine ⟨by omega, hlen ▸ h.size, ?_, hcreating⟩
      intro a ha
      rw [datas] at ha
      rw [contexts]
      rcases List.mem_or_eq_of_mem_set ha with ha | ha
      · exact h.made a ha
      · cases ha
  | setTimeout datas contexts =>
    refine ⟨datas ▸ h.initial, datas ▸ h.size, ?_, hcreating⟩
    rw [datas, contexts, List.length_modify]
    exact h.made
  | setUserNonblock datas contexts =>
    refine ⟨datas ▸ h.initial, datas ▸ h.size, ?_, hcreating⟩
    rw [datas, contexts, List.length_modify]
    exact h.made

/-- Only `del` takes a context out of the table. -/
theorem step_holds {m m' : FdManager} {c : Call} {fd : Int} {a : Nat} (h : m.Sound) (hc : m.InTurn c)
    (hs : m.step c = some m') (hdel : c ≠ .del fd) (ha : m.Holds fd a) : m'.Holds fd a := by
  obtain ⟨hfd, ha⟩ := ha
  refine ⟨hfd, ?_⟩
  cases (step_changes h hc hs).1 with
  | get datas => rw [datas, ha]
  | create fd' more thread_creates room bound datas =>
    obtain ⟨hempty, _⟩ := hc fd' thread_creates
    have hfd' := h.creating _ _ thread_creates
    have hne : fd'.toNat ≠ fd.toNat := by
      intro he
      rw [slot_eq hfd', he, ha] at hempty
      cases hempty
    have hlt := (List.getElem?_eq_some_iff.mp ha).1
    rw [datas, List.getElem?_set_ne hne, List.getElem?_append_left hlt, ha]
  | @del fd' datas =>
    have hnn : 0 ≤ fd' := hc
    have hne : fd'.toNat ≠ fd.toNat := by
      intro he
      apply hdel
      congr 1
      omega
    rcases datas with datas | datas
    · rw [datas, ha]
    · rw [datas, List.getElem?_set_ne hne, ha]
  | setTimeout datas => rw [datas, ha]
  | setUserNonblock datas => rw [datas, ha]

/-- What a look-up finds. -/
theorem lookup_eq {m : FdManager} {fd : Int} (h : m.Sound) (hfd : 0 ≤ fd) (hne : fd ≠ m.datas.length) (autoCreate : Bool) :
    (∃ a, m.Holds fd a ∧ m.lookup fd autoCreate = .returns (some a)) ∨
      (∀ a, ¬ m.Holds fd a) ∧ m.lookup fd autoCreate = if autoCreate then .creates else .returns none := by
  have hnot : fd ≠ -1 := by omega
  rw [lookup, if_neg hnot, intSize_eq h]
  by_cases hsize : (m.datas.length : Int) < fd
  · right
    refine ⟨?_, ?_⟩
    · intro a ha
      have := (List.getElem?_eq_some_iff.mp ha.2).1
      omega
    · rw [if_pos hsize]
      cases autoCreate <;> rfl
  · have hlt : fd.toNat < m.datas.length := by omega
    rw [if_neg hsize, slot_eq hfd, List.getElem?_eq_getElem hlt]
    cases hslot : m.datas[fd.toNat] with
    | none =>
      right
      refine ⟨?_, ?_⟩
      · intro a ha
        have hget := ha.2
        rw [List.getElem?_eq_getElem hlt, hslot] at hget
        cases hget
      · cases autoCreate <;> rfl
    | some a =>
      left
      refine ⟨a, ⟨hfd, ?_⟩, rfl⟩
      rw [List.getElem?_eq_getElem hlt, hslot]

/-- The context a call returns is in the table after it. -/
theorem holds_of_returns {m m' : FdManager} {c : Call} {fd : Int} {a : Nat} (h : m.Sound) (hc : m.InTurn c)
    (hs : m.step c = some m') (hr : m.returns c = some (fd, some a)) : m'.Holds fd a := by
  cases c with
  | get thread fd' autoCreate =>
    have hturn := hc
    rcases hturn with rfl | ⟨hfd, hne⟩
    · cases hr
    · rcases lookup_eq h hfd hne autoCreate with ⟨b, hb, hfound⟩ | ⟨_, hfound⟩
      · simp only [returns, hfound] at hr
        cases hr
        exact step_holds h hc hs (by simp) hb
      · simp only [returns, hfound] at hr
        cases autoCreate <;> cases hr
  | create thread =>
    obtain ⟨fd', hfd', hr⟩ := Option.map_eq_some_iff.mp hr
    cases hr
    have hnn := h.creating _ _ hfd'
    cases (step_changes h hc hs).1 with
    | create fd'' more thread_creates room bound datas =>
      cases hfd'.symm.trans thread_creates
      refine ⟨hnn, ?_⟩
      rw [datas, List.getElem?_set_self (by rw [List.length_append, List.length_replicate]; omega)]
      rfl
  | del fd' => cases hr
  | setTimeout ctx type v => cases hr
  | setUserNonblock ctx v => cases hr

/-- A call for an fd that has a context in the table returns it. -/
theorem returns_of_holds {m : FdManager} {c : Call} {fd : Int} {a : Nat} {x : Option Nat} (h : m.Sound) (hc : m.InTurn c)
    (ha : m.Holds fd a) (hr : m.returns c = some (fd, x)) : x = some a := by
  cases c with
  | get thread fd' autoCreate =>
    have hfd' : fd' = fd := by
      simp only [returns] at hr
      split at hr <;> cases hr <;> rfl
    subst hfd'
    have hfd := ha.1
    rcases hc with rfl | ⟨_, hne⟩
    · omega
    · rcases lookup_eq h hfd hne autoCreate with ⟨b, hb, hfound⟩ | ⟨hnone, _⟩
      · simp only [returns, hfound] at hr
        cases hr
        exact hb.2.symm.trans ha.2 |> Option.some.inj
      · exact absurd ha (hnone a)
  | create thread =>
    obtain ⟨fd', hfd', hr⟩ := Option.map_eq_some_iff.mp hr
    cases hr
    obtain ⟨hempty, _⟩ := hc fd hfd'
    rw [slot_eq ha.1, ha.2] at hempty
    cases hempty
  | del fd' => cases hr
  | setTimeout ctx type v => cases hr
  | setUserNonblock ctx v => cases hr

/-- `get(fd, true)` never returns null. -/
theorem returns_some {m : FdManager} {thread : Nat} {fd fd' : Int} {x : Option Nat} (h : m.Sound)
    (hc : m.InTurn (.get thread fd true)) (hfd : 0 ≤ fd) (hr : m.returns (.get thread fd true) = some (fd', x)) :
    x.isSome = true := by
  rcases hc with rfl | ⟨_, hne⟩
  · omega
  · rcases lookup_eq h hfd hne true with ⟨a, _, hfound⟩ | ⟨_, hfound⟩
    · simp only [returns, hfound] at hr
      cases hr
      rfl
    · simp only [returns, hfound] at hr
      cases hr

/-- What was set through a context stays until it is set again. -/
theorem step_contexts {m m' : FdManager} {c : Call} {a : Nat} {ctx : FdCtx} (h : m.Sound) (hc : m.InTurn c)
    (hs : m.step c = some m') (ha : m.contexts[a]? = some ctx) :
    ∃ ctx', m'.contexts[a]? = some ctx' ∧
      (∀ type, (∀ v, c ≠ .setTimeout a type v) → ctx'.getTimeout type = ctx.getTimeout type) ∧
      ((∀ v, c ≠ .setUserNonblock a v) → ctx'.userNonblock = ctx.userNonblock) := by
  cases (step_changes h hc hs).1 with
  | get _ contexts => exact ⟨ctx, contexts ▸ ha, fun _ _ => rfl, fun _ => rfl⟩
  | create fd more thread_creates room bound datas contexts =>
    have hlt := (List.getElem?_eq_some_iff.mp ha).1
    refine ⟨ctx, ?_, fun _ _ => rfl, fun _ => rfl⟩
    rw [contexts, List.getElem?_append_left hlt, ha]
  | del _ contexts => exact ⟨ctx, contexts ▸ ha, fun _ _ => rfl, fun _ => rfl⟩
  | @setTimeout b type v _ contexts =>
    rw [contexts, List.getElem?_modify, ha]
    by_cases hb : b = a
    · subst hb
      refine ⟨ctx.setTimeout type v, by simp, ?_, fun _ => by cases type <;> rfl⟩
      intro type' hne
      have htype : type ≠ type' := fun he => hne v (by rw [he])
      cases type <;> cases type' <;> first | rfl | exact absurd rfl htype
    · exact ⟨ctx, by simp [hb], fun _ _ => rfl, fun _ => rfl⟩
  | @setUserNonblock b v _ contexts =>
    rw [contexts, List.getElem?_modify, ha]
    by_cases hb : b = a
    · subst hb
      refine ⟨{ ctx with userNonblock := v }, by simp, fun type _ => by cases type <;> rfl, ?_⟩
      intro hne
      exact absurd rfl (hne v)
    · exact ⟨ctx, by simp [hb], fun _ _ => rfl, fun _ => rfl⟩

/-! ## Every run -/

/-- Calls for an fd with no `del` of it in between return the context the first returned;
    `get(fd, true)` returns one; what is set through it is there until it is set again. -/
structure OneContext (τ : History FdManager Call) (m : FdManager) : Prop where
  same : ∀ later between earlier p q fd a x, τ = later ++ q :: (between ++ p :: earlier) →
    (∀ z ∈ between, z.2 ≠ .del fd) → p.1.returns p.2 = some (fd, some a) → q.1.returns q.2 = some (fd, x) → x = some a
  created : ∀ s thread fd fd' x, (s, .get thread fd true) ∈ τ → 0 ≤ fd →
    s.returns (.get thread fd true) = some (fd', x) → x.isSome = true
  timeout : ∀ later between earlier p s fd a type v, τ = later ++ (s, .setTimeout a type v) :: (between ++ p :: earlier) →
    p.1.returns p.2 = some (fd, some a) → (∀ z ∈ later, ∀ v', z.2 ≠ .setTimeout a type v') →
    m.contexts[a]?.map (·.getTimeout type) = some v
  flag : ∀ later between earlier p s fd a v, τ = later ++ (s, .setUserNonblock a v) :: (between ++ p :: earlier) →
    p.1.returns p.2 = some (fd, some a) → (∀ z ∈ later, ∀ v', z.2 ≠ .setUserNonblock a v') →
    m.contexts[a]?.map (·.userNonblock) = some v

theorem run_holds {m₀ m : FdManager} {τ : History FdManager Call} {fd : Int} {a : Nat} (h₀ : m₀.Sound)
    (ha : m₀.Holds fd a) (hr : Run step m₀ τ m) (hc : Meets InTurn τ) (hdel : ∀ z ∈ τ, z.2 ≠ .del fd) :
    m.Sound ∧ m.Holds fd a := by
  have hboth : Meets (fun m c => m.InTurn c ∧ c ≠ .del fd) τ := fun z hz => ⟨hc z hz, hdel z hz⟩
  refine Run.invariant (I := fun m => m.Sound ∧ m.Holds fd a) ⟨h₀, ha⟩ ?_ hr hboth
  intro s c s' hs hcall hstep
  exact ⟨step_sound hs.1 hcall.1 hstep, step_holds hs.1 hcall.1 hstep hcall.2 hs.2⟩

theorem run_sound {m₀ m : FdManager} {τ : History FdManager Call} (h₀ : m₀.Sound) (hr : Run step m₀ τ m)
    (hc : Meets InTurn τ) : m.Sound :=
  hr.invariant h₀ (fun _ _ _ h hcall hstep => step_sound h hcall hstep) hc

theorem run_contexts {m₀ m : FdManager} {τ : History FdManager Call} {a : Nat} {ctx : FdCtx} (h₀ : m₀.Sound)
    (ha : m₀.contexts[a]? = some ctx) (hr : Run step m₀ τ m) (hc : Meets InTurn τ) :
    ∃ ctx', m.contexts[a]? = some ctx' ∧
      (∀ type, (∀ z ∈ τ, ∀ v, z.2 ≠ .setTimeout a type v) → ctx'.getTimeout type = ctx.getTimeout type) ∧
      ((∀ z ∈ τ, ∀ v, z.2 ≠ .setUserNonblock a v) → ctx'.userNonblock = ctx.userNonblock) := by
  induction hr with
  | nil => exact ⟨ctx, ha, fun _ _ => rfl, fun _ => rfl⟩
  | step hr hs ih =>
    obtain ⟨hcall, hc'⟩ := Run.meets_cons.mp hc
    obtain ⟨ctx₁, hctx₁, htime₁, hflag₁⟩ := ih hc'
    obtain ⟨ctx', hctx', htime, hflag⟩ := step_contexts (run_sound h₀ hr hc') hcall hs hctx₁
    refine ⟨ctx', hctx', ?_, ?_⟩
    · intro type hne
      obtain ⟨hfirst, hrest⟩ := List.forall_mem_cons.mp hne
      rw [htime type hfirst, htime₁ type hrest]
    · intro hne
      obtain ⟨hfirst, hrest⟩ := List.forall_mem_cons.mp hne
      rw [hflag hfirst, hflag₁ hrest]

/-- The context a call returned, and what has become of it. -/
theorem returned_contexts {m : FdManager} {later earlier : History FdManager Call} {p : FdManager × Call} {fd : Int}
    {a : Nat} {kernel : Int → Descriptor} (hr : Run step (init kernel) (later ++ p :: earlier) m)
    (hc : Meets InTurn (later ++ p :: earlier)) (hp : p.1.returns p.2 = some (fd, some a)) :
    m.Sound ∧ ((∀ z ∈ later, z.2 ≠ .del fd) → m.Holds fd a) ∧ ∃ ctx, m.contexts[a]? = some ctx := by
  obtain ⟨m₁, hr₁, hs, hlater⟩ := hr.cut_step
  obtain ⟨hc₁, hcp, hc₀⟩ : Meets InTurn later ∧ p.1.InTurn p.2 ∧ Meets InTurn earlier :=
    ⟨fun z hz => hc z (List.mem_append_left _ hz), hc p (List.mem_append_right _ List.mem_cons_self),
      fun z hz => hc z (List.mem_append_right _ (List.mem_cons_of_mem _ hz))⟩
  have hsound := run_sound (init_sound kernel) hr₁ hc₀
  have hsound₁ := step_sound hsound hcp hs
  have hholds := holds_of_returns hsound hcp hs hp
  have hmade := hsound₁.made a (List.mem_of_getElem? hholds.2)
  obtain ⟨ctx, hctx, _⟩ := run_contexts hsound₁ (List.getElem?_eq_getElem hmade) hlater hc₁
  exact ⟨run_sound hsound₁ hlater hc₁, fun hdel => (run_holds hsound₁ hholds hlater hc₁ hdel).2, ctx, hctx⟩

/-- While every look-up and every creation is in turn, an fd has one context until it is
    deleted. -/
theorem one_context_a_fd {kernel : Int → Descriptor} {m : FdManager} {τ : History FdManager Call}
    (hr : Run step (init kernel) τ m) (hc : Meets InTurn τ) : OneContext τ m := by
  constructor
  · intro later between earlier p q fd a x hτ hdel hp hq
    subst hτ
    obtain ⟨m₂, hr₂, _, _⟩ := hr.cut_step
    have hc₂ : Meets InTurn (between ++ p :: earlier) := fun z hz =>
      hc z (List.mem_append_right _ (List.mem_cons_of_mem _ hz))
    obtain ⟨hsound, hholds, _⟩ := returned_contexts hr₂ hc₂ hp
    exact returns_of_holds hsound (hc q (List.mem_append_right _ List.mem_cons_self)) (hholds hdel) hq
  · intro s thread fd fd' x hmem hfd hret
    obtain ⟨later, earlier, rfl⟩ := List.append_of_mem hmem
    obtain ⟨_, hr', _, _⟩ := hr.cut_step
    have hc' : Meets InTurn earlier := fun z hz => hc z (List.mem_append_right _ (List.mem_cons_of_mem _ hz))
    exact returns_some (run_sound (init_sound kernel) hr' hc') (hc _ hmem) hfd hret
  · intro later between earlier p s fd a type v hτ hp hlast
    subst hτ
    obtain ⟨m₂, hr₂, hs, hr₃⟩ := hr.cut_step
    have hc₂ : Meets InTurn (between ++ p :: earlier) := fun z hz =>
      hc z (List.mem_append_right _ (List.mem_cons_of_mem _ hz))
    have hcs := hc _ (List.mem_append_right _ List.mem_cons_self)
    obtain ⟨hsound, _, ctx, hctx⟩ := returned_contexts hr₂ hc₂ hp
    have hset : m₂.contexts[a]? = some (ctx.setTimeout type v) := by
      cases hs
      simp [modify, hctx]
    obtain ⟨ctx', hctx', htime, _⟩ := run_contexts (step_sound hsound hcs hs) hset hr₃
      fun z hz => hc z (List.mem_append_left _ hz)
    rw [hctx', Option.map_some, htime type hlast]
    cases type <;> rfl
  · intro later between earlier p s fd a v hτ hp hlast
    subst hτ
    obtain ⟨m₂, hr₂, hs, hr₃⟩ := hr.cut_step
    have hc₂ : Meets InTurn (between ++ p :: earlier) := fun z hz =>
      hc z (List.mem_append_right _ (List.mem_cons_of_mem _ hz))
    have hcs := hc _ (List.mem_append_right _ List.mem_cons_self)
    obtain ⟨hsound, _, ctx, hctx⟩ := returned_contexts hr₂ hc₂ hp
    have hset : m₂.contexts[a]? = some { ctx with userNonblock := v } := by
      cases hs
      simp [modify, hctx]
    obtain ⟨ctx', hctx', _, hflag⟩ := run_contexts (step_sound hsound hcs hs) hset hr₃
      fun z hz => hc z (List.mem_append_left _ hz)
    rw [hctx', Option.map_some, hflag hlast]

/-- Both threads find no context and both create one; the timeout set through the first is
    not seen through what a later call returns. -/
theorem two_contexts :
    ∃ τ m, Run step (init fun _ => ⟨some true, 2, true⟩) τ m ∧
      τ.map (·.2) = [.get 0 5 true, .setTimeout 0 .SO_RCVTIMEO 7, .create 1, .create 0, .get 1 5 true, .get 0 5 true] ∧
      τ.filterMap (fun p => p.1.returns p.2) = [(5, some 1), (5, some 1), (5, some 0)] ∧
      m.contexts.map (·.getTimeout .SO_RCVTIMEO) = [7, -1] := by
  obtain ⟨τ, m, hr, _, ht⟩ := exists_run step (fun _ _ => True) (init fun _ => ⟨some true, 2, true⟩)
    [.get 0 5 true, .get 1 5 true, .create 0, .create 1, .setTimeout 0 .SO_RCVTIMEO 7, .get 0 5 true]
    (fun τ m => τ.map (·.2) =
        [.get 0 5 true, .setTimeout 0 .SO_RCVTIMEO 7, .create 1, .create 0, .get 1 5 true, .get 0 5 true] &&
      τ.filterMap (fun p => p.1.returns p.2) = [(5, some 1), (5, some 1), (5, some 0)] &&
      m.contexts.map (·.getTimeout .SO_RCVTIMEO) = [7, -1]) (by decide +kernel)
  simp only [Bool.and_eq_true, decide_eq_true_eq] at ht
  exact ⟨τ, m, hr, ht.1.1, ht.1.2, ht.2⟩

/-- The second look-up after the first call has created. -/
theorem one_context_in_turn :
    ∃ τ m, Run step (init fun _ => ⟨some true, 2, true⟩) τ m ∧
      τ.map (·.2) = [.get 1 5 true, .setTimeout 0 .SO_RCVTIMEO 7, .create 0, .get 0 5 true] ∧ OneContext τ m := by
  obtain ⟨τ, m, hr, hc, ht⟩ := exists_run step InTurn (init fun _ => ⟨some true, 2, true⟩)
    [.get 0 5 true, .create 0, .setTimeout 0 .SO_RCVTIMEO 7, .get 1 5 true]
    (fun τ _ => τ.map (·.2) = [.get 1 5 true, .setTimeout 0 .SO_RCVTIMEO 7, .create 0, .get 0 5 true]) (by decide +kernel)
  exact ⟨τ, m, hr, of_decide_eq_true ht, one_context_a_fd hr hc⟩

end FdManager

end LjrServer.Hook
