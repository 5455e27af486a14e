/-
  LjrServer.Http.ConnectionPool — the pool of client connections, used by several threads
  (`HttpConnectionPool` in http_connection.cpp).

  A connection is known by its address, counted as `new` allocates them; it is lent from
  where `getConnection` returns it to where its last owner lets go of it. Whether it is
  connected, and whether a new one can be made, is answered from outside, and so is the
  clock. A thread's place in its call is kept with what the call has in hand.

  Proved:
  - `run_accounted`: a connection is in one place at a time, and `m_total` is how many there
    are, less those made and not counted yet, plus those deleted and still counted.
  - `pool_accounts`: so outside of any call `m_total` is the idle and the lent ones; and a
    connection is lent `max(1, m_maxRequest)` times at most.
-/

import LjrServer.Lib.Roster
import LjrServer.Lib.Runs
import Mathlib.Data.BitVec

namespace LjrServer.Http

open LjrServer.Lib

/-- What the pool looks at in an `HttpConnection`. Nothing sets `m_createTime`. -/
structure HttpConnection where
  createTime : Nat := 0
  request : Nat := 0
  deriving DecidableEq, Repr

/-- Where a thread is in `getConnection`, with `now_ms`, or in `ReleasePtr`. -/
inductive Pc where
  | started (now : Nat)
  | scanned (now : Nat) (invalid : List Nat) (ptr : Option Nat)
  | freed (now : Nat) (count : Nat) (ptr : Option Nat)
  | missing (now : Nat)
  | created (conn : Nat)
  | returning (conn : Nat)
  | dropping (conn : Nat)
  | dropped
  | keeping (conn : Nat)
  deriving DecidableEq, Repr

/-- The connections that exist are those with an entry in `heap`. -/
structure HttpConnectionPool where
  maxSize : Nat
  maxAliveTime : Nat
  maxRequest : Nat
  conns : List Nat
  total : BitVec 32
  heap : Nat → Option HttpConnection
  allocated : Nat
  lent : List Nat
  busy : Roster Nat Pc

namespace HttpConnectionPool

/-- The constructor. -/
def init (maxSize maxAliveTime maxRequest : Nat) : HttpConnectionPool :=
  { maxSize, maxAliveTime, maxRequest, conns := [], total := 0, heap := fun _ => none, allocated := 0,
    lent := [], busy := [] }

/-- `*ptr` -/
def get (s : HttpConnectionPool) (conn : Nat) : HttpConnection := (s.heap conn).getD {}

/-- The loop of `getConnection`: the invalid connections, the good one, and what is left. -/
def scan (s : HttpConnectionPool) (now : Nat) (connected : List Nat) : List Nat → List Nat × Option Nat × List Nat
  | [] => ([], none, [])
  | conn :: conns =>
    if conn ∉ connected ∨ (s.get conn).createTime + s.maxAliveTime > now then
      let (invalid, ptr, rest) := scan s now connected conns
      (conn :: invalid, ptr, rest)
    else ([], some conn, conns)

/-- The test in `ReleasePtr`. -/
def expired (s : HttpConnectionPool) (ptr : HttpConnection) (connected : Bool) (now : Nat) : Bool :=
  !connected || ptr.createTime + s.maxAliveTime ≥ now || ptr.request ≥ s.maxRequest

def delete (s : HttpConnectionPool) (conns : List Nat) : HttpConnectionPool :=
  { s with heap := fun c => if c ∈ conns then none else s.heap c }

/-- One more section of a call: `connected` are those connected then, `made` is whether an
    address, a socket and its connection could be made. -/
def advance (s : HttpConnectionPool) (connected : List Nat) (made : Bool) : Pc → HttpConnectionPool × Option Pc
  | .started now =>
    let (invalid, ptr, rest) := s.scan now connected s.conns
    ({ s with conns := rest }, some (.scanned now invalid ptr))
  | .scanned now invalid ptr => (s.delete invalid, some (.freed now invalid.length ptr))
  | .freed now count ptr =>
    ({ s with total := s.total - BitVec.ofNat 32 count }, some (match ptr with
      | some conn => .returning conn
      | none => .missing now))
  | .missing _ =>
    if made then
      ({ s with heap := fun c => if c = s.allocated then some {} else s.heap c, allocated := s.allocated + 1 },
        some (.created s.allocated))
    else (s, none)
  | .created conn => ({ s with total := s.total + 1 }, some (.returning conn))
  | .returning conn => ({ s with lent := conn :: s.lent }, none)
  | .dropping conn => (s.delete [conn], some .dropped)
  | .dropped => ({ s with total := s.total - 1 }, none)
  | .keeping conn => ({ s with conns := s.conns ++ [conn] }, none)

inductive Call where
  | getConnection (thread now : Nat)
  | release (thread conn : Nat) (connected : Bool) (now : Nat)
  | next (thread : Nat) (connected : List Nat) (made : Bool)
  deriving DecidableEq, Repr

/-- `ReleasePtr` up to its test. -/
def releasePtr (s : HttpConnectionPool) (conn : Nat) (connected : Bool) (now : Nat) : HttpConnectionPool × Pc :=
  let ptr := s.get conn
  let ptr := { ptr with request := ptr.request + 1 }
  ({ s with lent := s.lent.erase conn, heap := fun c => if c = conn then some ptr else s.heap c },
    if s.expired ptr connected now then .dropping conn else .keeping conn)

def step (s : HttpConnectionPool) : Call → Option HttpConnectionPool
  | .getConnection thread now =>
    if (s.busy.lookup thread).isSome then none else some { s with busy := s.busy.put thread (.started now) }
  | .release thread conn connected now =>
    if (s.busy.lookup thread).isSome ∨ conn ∉ s.lent then none
    else
      let (s, pc) := s.releasePtr conn connected now
      some { s with busy := s.busy.put thread pc }
  | .next thread connected made => (s.busy.lookup thread).map fun pc =>
    match s.advance connected made pc with
    | (s, some pc) => { s with busy := s.busy.put thread pc }
    | (s, none) => { s with busy := s.busy.remove thread }

/-- The connection a step hands out. -/
def gives (s : HttpConnectionPool) : Call → Option Nat
  | .next thread _ _ =>
    match s.busy.lookup thread with
    | some (.returning conn) => some conn
    | _ => none
  | _ => none

/-- How often a connection was lent. -/
def lends (τ : History HttpConnectionPool Call) (conn : Nat) : Nat :=
  τ.countP fun p => p.1.gives p.2 = some conn

/-! ## What a thread has in hand -/

end HttpConnectionPool

namespace Pc

/-- The connections of a call that exist. -/
def held : Pc → List Nat
  | .scanned _ invalid ptr => invalid ++ ptr.toList
  | .freed _ _ ptr => ptr.toList
  | .created conn | .returning conn | .dropping conn | .keeping conn => [conn]
  | .started _ | .missing _ | .dropped => []

/-- Those it will lend, or put back. -/
def ready : Pc → List Nat
  | .scanned _ _ ptr | .freed _ _ ptr => ptr.toList
  | .created conn | .returning conn | .keeping conn => [conn]
  | .started _ | .missing _ | .dropping _ | .dropped => []

/-- How many connections `m_total` has too many on its account. -/
def surplus : Pc → Int
  | .freed _ count _ => count
  | .created _ => -1
  | .dropped => 1
  | _ => 0

end Pc

namespace HttpConnectionPool

variable {s s' : HttpConnectionPool} {mine : List Nat} {extra : Int}

/-! ## One place for each connection -/

/-- `mine` are the connections in somebody's hand. -/
def all (s : HttpConnectionPool) (mine : List Nat) : List Nat := s.conns ++ (s.lent ++ mine)

structure Stock (s : HttpConnectionPool) (mine : List Nat) (extra : Int) : Prop where
  once : (s.all mine).Nodup
  exist : ∀ c ∈ s.all mine, (s.heap c).isSome = true
  fresh : ∀ c, s.allocated ≤ c → s.heap c = none
  total : s.total = BitVec.ofInt 32 ((s.all mine).length + extra)

theorem perm_all {conns lent mine conns' lent' mine' : List Nat}
    (h : ∀ c, conns'.count c + lent'.count c + mine'.count c = conns.count c + lent.count c + mine.count c) :
    (conns' ++ (lent' ++ mine')).Perm (conns ++ (lent ++ mine)) := by
  refine List.perm_iff_count.mpr ?_
  intro c
  have hc := h c
  simp only [List.count_append]
  omega

/-- Connections change hands. -/
theorem Stock.move {mine' : List Nat} (h : s.Stock mine extra)
    (hheap : ∀ c, (s'.heap c).isSome = (s.heap c).isSome) (hallocated : s'.allocated = s.allocated)
    (htotal : s'.total = s.total) (hperm : (s'.all mine').Perm (s.all mine)) : s'.Stock mine' extra := by
  refine ⟨hperm.symm.nodup h.once, ?_, ?_, ?_⟩
  · intro c hc
    rw [hheap]
    exact h.exist c (hperm.subset hc)
  · intro c hc
    have hnone := hheap c
    rw [h.fresh c (hallocated ▸ hc)] at hnone
    exact Option.isSome_eq_false_iff.mp hnone |> Option.isNone_iff_eq_none.mp
  · rw [htotal, h.total, hperm.length_eq]

theorem Stock.perm {mine' : List Nat} (h : s.Stock mine extra) (hperm : mine'.Perm mine) : s.Stock mine' extra :=
  h.move (fun _ => rfl) rfl rfl ((hperm.append_left _).append_left _)

/-- Some are deleted, and still counted. -/
theorem Stock.delete {gone : List Nat} (h : s.Stock (gone ++ mine) extra) :
    (s.delete gone).Stock mine (extra + gone.length) := by
  have hperm : (s.all (gone ++ mine)).Perm (gone ++ s.all mine) := by
    unfold all
    refine List.perm_iff_count.mpr ?_
    intro c
    simp only [List.count_append]
    omega
  have honce := List.nodup_append.mp (hperm.nodup h.once)
  refine ⟨honce.2.1, ?_, ?_, ?_⟩
  · intro c hc
    have hgone : c ∉ gone := fun hg => honce.2.2 c hg c hc rfl
    show (if c ∈ gone then none else s.heap c).isSome = true
    rw [if_neg hgone]
    exact h.exist c (hperm.symm.subset (List.mem_append_right _ hc))
  · intro c hc
    show (if c ∈ gone then none else s.heap c) = none
    split
    · rfl
    · exact h.fresh c hc
  · have hlen := hperm.length_eq
    rw [List.length_append] at hlen
    show s.total = _
    rw [h.total]
    congr 1
    show ((s.all (gone ++ mine)).length : Int) + extra = (s.all mine).length + (extra + gone.length)
    omega

theorem Stock.count {n : Int} (h : s.Stock mine extra) :
    Stock { s with total := s.total + BitVec.ofInt 32 n } mine (extra + n) := by
  refine ⟨h.once, h.exist, h.fresh, ?_⟩
  show s.total + BitVec.ofInt 32 n = BitVec.ofInt 32 ((s.all mine).length + (extra + n))
  rw [h.total, ← BitVec.ofInt_add, Int.add_assoc]

/-- One is made, and not counted yet. -/
theorem Stock.new (h : s.Stock mine extra) :
    Stock { s with heap := fun c => if c = s.allocated then some {} else s.heap c, allocated := s.allocated + 1 }
      (s.allocated :: mine) (extra - 1) := by
  have hnew : s.allocated ∉ s.all mine := by
    intro hmem
    have hsome := h.exist _ hmem
    rw [h.fresh _ (Nat.le_refl _)] at hsome
    cases hsome
  have hperm : (s.all (s.allocated :: mine)).Perm (s.allocated :: s.all mine) := by
    unfold all
    refine List.perm_iff_count.mpr ?_
    intro c
    simp only [List.count_append, List.count_cons]
    omega
  refine ⟨hperm.symm.nodup (List.nodup_cons.mpr ⟨hnew, h.once⟩), ?_, ?_, ?_⟩
  · intro c hc
    dsimp only
    split
    · rfl
    · rename_i hne
      rcases List.mem_cons.mp (hperm.subset hc) with hc | hc
      · exact absurd hc hne
      · exact h.exist c hc
  · intro c hc
    dsimp only at hc ⊢
    rw [if_neg (by omega)]
    exact h.fresh c (by omega)
  · show s.total = _
    rw [h.total]
    congr 1
    have hlen := hperm.length_eq
    rw [List.length_cons] at hlen
    show ((s.all mine).length : Int) + extra = (s.all (s.allocated :: mine)).length + (extra - 1)
    omega

theorem scan_eq {now : Nat} {connected conns invalid rest : List Nat} {ptr : Option Nat}
    (h : s.scan now connected conns = (invalid, ptr, rest)) : conns = invalid ++ (ptr.toList ++ rest) := by
  induction conns generalizing invalid with
  | nil =>
    cases h
    rfl
  | cons conn conns ih =>
    unfold scan at h
    split at h
    · cases h
      exact congrArg (conn :: ·) (ih rfl)
    · cases h
      rfl

/-- What a thread holds after a section. -/
def after (f : Pc → List Nat) (pc : Option Pc) : List Nat := (pc.map f).getD []

theorem advance_stock {connected : List Nat} {made : Bool} {pc : Pc} {pc' : Option Pc}
    (h : s.Stock (pc.held ++ mine) (pc.surplus + extra)) (ha : s.advance connected made pc = (s', pc')) :
    s'.Stock (after Pc.held pc' ++ mine) ((pc'.map Pc.surplus).getD 0 + extra) := by
  cases pc with
  | started now =>
    cases hscan : s.scan now connected s.conns with
    | mk invalid found =>
      obtain ⟨ptr, rest⟩ := found
      simp only [advance, hscan] at ha
      cases ha
      have hconns := scan_eq hscan
      refine h.move (fun _ => rfl) rfl rfl (perm_all ?_)
      intro c
      simp only [hconns, after, Pc.held, Option.map_some, Option.getD_some, List.count_append, List.count_nil]
      omega
  | scanned now invalid ptr =>
    cases ha
    have hstock : s.Stock (invalid ++ (ptr.toList ++ mine)) extra := by simpa [Pc.held, Pc.surplus] using h
    simpa [after, Pc.held, Pc.surplus, Int.add_comm] using hstock.delete
  | freed now count ptr =>
    cases ha
    have hc := h.count (n := -(count : Int))
    have htotal : s.total - BitVec.ofNat 32 count = s.total + BitVec.ofInt 32 (-count) := by
      rw [BitVec.ofInt_neg, BitVec.ofInt_natCast, BitVec.sub_eq_add_neg]
    rw [htotal]
    have hextra : (Pc.freed now count ptr).surplus + extra + -(count : Int) = 0 + extra := by
      simp only [Pc.surplus]
      omega
    rw [hextra] at hc
    cases ptr <;> exact hc
  | missing now =>
    cases made with
    | true =>
      cases ha
      have hn := h.new
      have hextra : (Pc.missing now).surplus + extra - 1 = -1 + extra := by
        simp only [Pc.surplus]
        omega
      rw [hextra] at hn
      exact hn
    | false =>
      cases ha
      exact h
  | created conn =>
    cases ha
    have hc := h.count (n := 1)
    have hextra : (Pc.created conn).surplus + extra + 1 = 0 + extra := by
      simp only [Pc.surplus]
      omega
    rw [hextra] at hc
    exact hc
  | returning conn =>
    cases ha
    refine h.move (fun _ => rfl) rfl rfl (perm_all ?_)
    intro c
    simp only [after, Pc.held, Option.map_none, Option.getD_none, List.count_append, List.count_cons, List.count_nil]
    omega
  | dropping conn =>
    cases ha
    have hstock : s.Stock ([conn] ++ mine) extra := by simpa [Pc.held, Pc.surplus] using h
    simpa [after, Pc.held, Pc.surplus, Int.add_comm] using hstock.delete
  | dropped =>
    cases ha
    have hc := h.count (n := -1)
    have hextra : Pc.dropped.surplus + extra + -1 = 0 + extra := by
      simp only [Pc.surplus]
      omega
    have htotal : s.total - 1 = s.total + BitVec.ofInt 32 (-1) := BitVec.sub_eq_add_neg ..
    rw [hextra] at hc
    rw [htotal]
    exact hc
  | keeping conn =>
    cases ha
    refine h.move (fun _ => rfl) rfl rfl (perm_all ?_)
    intro c
    simp only [after, Pc.held, Option.map_none, Option.getD_none, List.count_append, List.count_cons, List.count_nil]
    omega

theorem release_stock {conn now : Nat} {connected : Bool} {pc : Pc} (h : s.Stock mine extra) (hlent : conn ∈ s.lent)
    (hr : s.releasePtr conn connected now = (s', pc)) : s'.Stock (pc.held ++ mine) (pc.surplus + extra) := by
  have hpc : pc.held = [conn] ∧ pc.surplus = 0 := by
    cases hr
    split <;> exact ⟨rfl, rfl⟩
  rw [hpc.1, hpc.2, Int.zero_add]
  cases hr
  refine h.move ?_ rfl rfl (perm_all ?_)
  · intro c
    dsimp only
    split
    · rename_i hc
      rw [hc, h.exist conn (List.mem_append_right _ (List.mem_append_left _ hlent))]
      rfl
    · rfl
  · intro c
    have hcount := ((List.perm_cons_erase hlent).count_eq c).symm
    simp only [List.count_append, List.count_cons, List.count_nil] at hcount ⊢
    omega

/-! ## Every step -/

/-- A connection is in one place, and `m_total` is kept, between the calls and in them. -/
structure Accounted (s : HttpConnectionPool) : Prop where
  keyed : s.busy.Keyed
  stock : s.Stock (s.busy.holds Pc.held) (s.busy.sum Pc.surplus)

/-- A step is one of a thread: it starts a call, or makes one more section of it. -/
inductive Turn (s : HttpConnectionPool) : Call → HttpConnectionPool → Prop
  | start {thread now : Nat} (idle : s.busy.lookup thread = none) :
    Turn s (.getConnection thread now) { s with busy := s.busy.put thread (.started now) }
  | release {thread conn now : Nat} {connected : Bool} {s' : HttpConnectionPool} {pc : Pc}
    (idle : s.busy.lookup thread = none) (lent : conn ∈ s.lent) (released : s.releasePtr conn connected now = (s', pc)) :
    Turn s (.release thread conn connected now) { s' with busy := s.busy.put thread pc }
  | next {thread : Nat} {connected : List Nat} {made : Bool} {pc : Pc} {s' : HttpConnectionPool} {pc' : Option Pc}
    (place : s.busy.lookup thread = some pc) (advanced : s.advance connected made pc = (s', pc')) :
    Turn s (.next thread connected made)
      { s' with busy := (pc'.map fun pc => (thread, pc)).toList ++ s.busy.remove thread }

theorem advance_busy {connected : List Nat} {made : Bool} {pc : Pc} {pc' : Option Pc}
    (h : s.advance connected made pc = (s', pc')) : s'.busy = s.busy := by
  unfold advance at h
  split at h <;> (try split at h) <;> cases h <;> rfl

theorem step_turn {c : Call} (hs : s.step c = some s') : Turn s c s' := by
  cases c with
  | getConnection thread now =>
    simp only [step] at hs
    split at hs
    · cases hs
    · rename_i hidle
      cases hs
      exact .start (Option.not_isSome_iff_eq_none.mp hidle)
  | release thread conn connected now =>
    simp only [step] at hs
    split at hs
    · cases hs
    · rename_i hidle
      rw [not_or, Classical.not_not] at hidle
      cases hs
      exact .release (Option.not_isSome_iff_eq_none.mp hidle.1) hidle.2 rfl
  | next thread connected made =>
    obtain ⟨pc, hpc, hs⟩ := Option.map_eq_some_iff.mp hs
    cases ha : s.advance connected made pc with
    | mk s₁ pc' =>
      have hbusy := advance_busy ha
      have hturn : Turn s (.next thread connected made) _ := .next hpc ha
      cases pc' with
      | none =>
        rw [ha] at hs
        cases hs
        show Turn s _ { s₁ with busy := s₁.busy.remove thread }
        rw [hbusy]
        exact hturn
      | some pc' =>
        rw [ha] at hs
        cases hs
        show Turn s _ { s₁ with busy := s₁.busy.put thread pc' }
        rw [hbusy]
        exact hturn

theorem init_accounted (maxSize maxAliveTime maxRequest : Nat) : (init maxSize maxAliveTime maxRequest).Accounted := by
  refine ⟨Roster.keyed_nil, List.nodup_nil, ?_, fun _ _ => rfl, rfl⟩
  intro c hc
  cases hc

theorem Stock.with_busy (h : s.Stock mine extra) (busy : Roster Nat Pc) : Stock { s with busy } mine extra :=
  ⟨h.once, h.exist, h.fresh, h.total⟩

theorem step_accounted {c : Call} (h : s.Accounted) (hs : s.step c = some s') : s'.Accounted := by
  cases step_turn hs with
  | start idle =>
    refine ⟨Roster.keyed_put h.keyed _ _, ?_⟩
    rw [Roster.sum_put_new _ idle, Roster.holds_put, Roster.remove_of_lookup_none idle]
    rw [show (Pc.started _).surplus = 0 from rfl, Int.add_zero]
    exact h.stock.with_busy _
  | release idle lent released =>
    refine ⟨Roster.keyed_put h.keyed _ _, ?_⟩
    rw [Roster.sum_put_new _ idle, Roster.holds_put, Roster.remove_of_lookup_none idle, Int.add_comm]
    exact (release_stock h.stock lent released).with_busy _
  | @next thread connected made pc s₁ pc' place advanced =>
    have hstock := h.stock.perm (Roster.holds_perm Pc.held h.keyed place).symm
    have hsum : s.busy.sum Pc.surplus = pc.surplus + (s.busy.remove thread).sum Pc.surplus := by
      rw [Roster.sum_remove _ h.keyed place]
      omega
    rw [hsum] at hstock
    have hafter := (advance_stock hstock advanced).with_busy
      ((pc'.map fun pc => (thread, pc)).toList ++ s.busy.remove thread)
    cases pc' with
    | none => exact ⟨Roster.keyed_remove h.keyed thread, by simpa [after] using hafter⟩
    | some pc' =>
      refine ⟨Roster.keyed_put h.keyed thread pc', ?_⟩
      show Stock _ (Roster.holds Pc.held ((thread, pc') :: _)) (Roster.sum Pc.surplus ((thread, pc') :: _))
      rw [Roster.sum_cons]
      exact hafter

/-! ## How often a connection is lent -/

/-- Each use is counted in `m_request` when it ends; what is idle, lent or about to be has
    uses left. -/
structure Used (τ : History HttpConnectionPool Call) (s : HttpConnectionPool) : Prop where
  left : ∀ c ∈ s.all (s.busy.holds Pc.ready), (s.get c).request < max 1 s.maxRequest
  counted : ∀ c p, s.heap c = some p → lends τ c = p.request + s.lent.count c
  bounded : ∀ c, lends τ c ≤ max 1 s.maxRequest
  unborn : ∀ c, s.allocated ≤ c → lends τ c = 0

theorem lends_cons {τ : History HttpConnectionPool Call} {c : Call} {conn : Nat} :
    lends ((s, c) :: τ) conn = lends τ conn + if s.gives c = some conn then 1 else 0 := by
  simp [lends, List.countP_cons]

/-- The connections a section is about to give to its caller. -/
def giving : Pc → List Nat
  | .returning conn => [conn]
  | _ => []

/-- What a section does to the connections: each is left alone, deleted or new. -/
theorem advance_heap {connected : List Nat} {made : Bool} {pc : Pc} {pc' : Option Pc}
    (h : s.advance connected made pc = (s', pc')) : s'.maxRequest = s.maxRequest ∧ s.allocated ≤ s'.allocated ∧
      s'.lent = giving pc ++ s.lent ∧
      ∀ c, s'.heap c = s.heap c ∨ s'.heap c = none ∨ c = s.allocated ∧ s'.heap c = some {} := by
  cases pc with
  | scanned now invalid ptr =>
    cases h
    refine ⟨rfl, Nat.le_refl _, rfl, ?_⟩
    intro c
    by_cases hc : c ∈ invalid
    · exact .inr (.inl (if_pos hc))
    · exact .inl (if_neg hc)
  | dropping conn =>
    cases h
    refine ⟨rfl, Nat.le_refl _, rfl, ?_⟩
    intro c
    by_cases hc : c ∈ [conn]
    · exact .inr (.inl (if_pos hc))
    · exact .inl (if_neg hc)
  | missing now =>
    cases made with
    | true =>
      cases h
      refine ⟨rfl, Nat.le_succ _, rfl, ?_⟩
      intro c
      by_cases hc : c = s.allocated
      · exact .inr (.inr ⟨hc, if_pos hc⟩)
      · exact .inl (if_neg hc)
    | false =>
      cases h
      exact ⟨rfl, Nat.le_refl _, rfl, fun _ => .inl rfl⟩
  | started now =>
    cases h
    exact ⟨rfl, Nat.le_refl _, rfl, fun _ => .inl rfl⟩
  | freed now count ptr =>
    cases h
    exact ⟨rfl, Nat.le_refl _, rfl, fun _ => .inl rfl⟩
  | created conn =>
    cases h
    exact ⟨rfl, Nat.le_refl _, rfl, fun _ => .inl rfl⟩
  | returning conn =>
    cases h
    exact ⟨rfl, Nat.le_refl _, rfl, fun _ => .inl rfl⟩
  | dropped =>
    cases h
    exact ⟨rfl, Nat.le_refl _, rfl, fun _ => .inl rfl⟩
  | keeping conn =>
    cases h
    exact ⟨rfl, Nat.le_refl _, rfl, fun _ => .inl rfl⟩

theorem advance_request {connected : List Nat} {made : Bool} {pc : Pc} {pc' : Option Pc}
    (h : s.advance connected made pc = (s', pc')) (c : Nat) :
    (s'.get c).request = (s.get c).request ∨ (s'.get c).request = 0 := by
  obtain ⟨_, _, _, hheap⟩ := advance_heap h
  unfold get
  rcases hheap c with hc | hc | ⟨_, hc⟩
  · exact .inl (by rw [hc])
  · exact .inr (by rw [hc]; rfl)
  · exact .inr (by rw [hc]; rfl)

/-- What it has ready to lend was ready before, or is new. -/
theorem advance_ready {connected : List Nat} {made : Bool} {pc : Pc} {pc' : Option Pc}
    (h : s.advance connected made pc = (s', pc')) (mine : List Nat) :
    ∀ c ∈ s'.all (after Pc.ready pc' ++ mine), c ∈ s.all (pc.ready ++ mine) ∨ (s'.get c).request = 0 := by
  intro c hc
  cases pc with
  | started now =>
    left
    cases hscan : s.scan now connected s.conns with
    | mk invalid found =>
      obtain ⟨ptr, rest⟩ := found
      simp only [advance, hscan] at h
      cases h
      have hconns := scan_eq hscan
      simp only [all, after, Pc.ready, Option.map_some, Option.getD_some, hconns, List.mem_append] at hc ⊢
      tauto
  | missing now =>
    cases made with
    | true =>
      cases h
      by_cases hnew : c = s.allocated
      · subst hnew
        right
        simp [get]
      · left
        simpa [all, after, Pc.ready, hnew] using hc
    | false =>
      cases h
      exact .inl hc
  | scanned now invalid ptr =>
    cases h
    exact .inl hc
  | freed now count ptr =>
    cases h
    left
    cases ptr <;> exact hc
  | created conn =>
    cases h
    exact .inl hc
  | returning conn =>
    cases h
    left
    simp only [all, after, Pc.ready, Option.map_none, Option.getD_none, List.mem_append, List.mem_cons] at hc ⊢
    tauto
  | dropping conn =>
    cases h
    exact .inl hc
  | dropped =>
    cases h
    exact .inl hc
  | keeping conn =>
    cases h
    left
    simp only [all, after, Pc.ready, Option.map_none, Option.getD_none, List.mem_append, List.mem_cons] at hc ⊢
    tauto

theorem gives_next {thread : Nat} {connected : List Nat} {made : Bool} {pc : Pc} (h : s.busy.lookup thread = some pc)
    (c : Nat) : (if s.gives (.next thread connected made) = some c then 1 else 0) = (giving pc).count c := by
  simp only [gives, h]
  cases pc with
  | returning conn => simp [giving, List.count_cons]
  | _ => rfl

theorem Accounted.exist {s : HttpConnectionPool} (h : s.Accounted) {c : Nat} (hc : c ∈ s.all (s.busy.holds Pc.held)) :
    ∃ p, s.heap c = some p ∧ c < s.allocated := by
  obtain ⟨p, hp⟩ := Option.isSome_iff_exists.mp (h.stock.exist c hc)
  refine ⟨p, hp, Nat.lt_of_not_le ?_⟩
  intro hle
  rw [h.stock.fresh c hle] at hp
  cases hp

theorem held_of_giving {thread c : Nat} {pc : Pc} (hplace : s.busy.lookup thread = some pc) (h : c ∈ giving pc) :
    pc = .returning c ∧ c ∈ s.busy.holds Pc.held ∧ c ∈ s.busy.holds Pc.ready := by
  have hmem : (thread, pc) ∈ s.busy := by
    obtain ⟨l₁, l₂, hl, _⟩ := List.lookup_eq_some_iff.mp hplace
    exact hl ▸ List.mem_append_right _ List.mem_cons_self
  cases pc with
  | returning conn =>
    cases List.mem_singleton.mp h
    exact ⟨rfl, Roster.mem_holds.mpr ⟨thread, _, hmem, h⟩, Roster.mem_holds.mpr ⟨thread, _, hmem, h⟩⟩
  | _ => cases h

theorem ready_subset_held (pc : Pc) : pc.ready ⊆ pc.held := by
  cases pc with
  | scanned now invalid ptr => exact List.subset_append_right _ _
  | _ => simp [Pc.ready, Pc.held]

theorem holds_ready_subset (r : Roster Nat Pc) : r.holds Pc.ready ⊆ r.holds Pc.held := by
  intro c hc
  obtain ⟨i, pc, hmem, hpc⟩ := Roster.mem_holds.mp hc
  exact Roster.mem_holds.mpr ⟨i, pc, hmem, ready_subset_held pc hpc⟩

theorem advance_used {τ : History HttpConnectionPool Call} {thread : Nat} {connected : List Nat} {made : Bool} {pc : Pc}
    {pc' : Option Pc} (h : s.Accounted) (hu : Used τ s) (place : s.busy.lookup thread = some pc)
    (advanced : s.advance connected made pc = (s', pc')) :
    Used ((s, .next thread connected made) :: τ)
      { s' with busy := (pc'.map fun pc => (thread, pc)).toList ++ s.busy.remove thread } := by
  obtain ⟨hmax, hallocated, hlent, hheap⟩ := advance_heap advanced
  have hone := h.stock.once
  constructor
  · intro c hc
    have hmem : c ∈ s'.all (after Pc.ready pc' ++ (s.busy.remove thread).holds Pc.ready) := by
      cases pc' <;> exact hc
    show (s'.get c).request < max 1 s'.maxRequest
    rw [hmax]
    rcases advance_ready advanced _ c hmem with hc | hc
    · have hperm := (Roster.holds_perm Pc.ready h.keyed place).symm
      have hleft := hu.left c ((((hperm.append_left _).append_left _)).subset hc)
      rcases advance_request advanced c with hreq | hreq
      · rw [hreq]
        exact hleft
      · omega
    · omega
  · intro c p hp
    rw [lends_cons, gives_next place]
    show lends τ c + (giving pc).count c = p.request + s'.lent.count c
    rw [hlent, List.count_append]
    rcases hheap c with hc | hc | ⟨hnew, hc⟩
    · have hcounted := hu.counted c p (hc ▸ hp)
      omega
    · cases hc.symm.trans hp
    · cases hc.symm.trans hp
      have hnot : s.lent.count c = 0 := by
        refine List.count_eq_zero.mpr ?_
        intro hmem
        obtain ⟨_, _, hlt⟩ := h.exist (List.mem_append_right _ (List.mem_append_left _ hmem))
        omega
      have hzero := hu.unborn c (Nat.le_of_eq hnew.symm)
      have hfirst : ({} : HttpConnection).request = 0 := rfl
      omega
  · intro c
    rw [lends_cons, gives_next place]
    show lends τ c + (giving pc).count c ≤ max 1 s'.maxRequest
    rw [hmax]
    by_cases hgive : c ∈ giving pc
    · obtain ⟨rfl, hheld, hready⟩ := held_of_giving place hgive
      obtain ⟨p, hp, _⟩ := h.exist (List.mem_append_right _ (List.mem_append_right _ hheld))
      have hleft := hu.left c (List.mem_append_right _ (List.mem_append_right _ hready))
      rw [get, hp, Option.getD_some] at hleft
      -- it is in the thread's hand, so it is not lent
      have hnot : s.lent.count c = 0 := by
        refine List.count_eq_zero.mpr ?_
        intro hmem
        exact (List.nodup_append.mp (List.nodup_append.mp hone).2.1).2.2 c hmem c hheld rfl
      have hcounted := hu.counted c p hp
      have hself : (giving (.returning c)).count c = 1 := by simp [giving]
      omega
    · rw [List.count_eq_zero.mpr hgive]
      exact hu.bounded c
  · intro c hc
    have hle : s.allocated ≤ c := Nat.le_trans hallocated hc
    have hgive : c ∉ giving pc := by
      intro hgive
      obtain ⟨_, hheld, _⟩ := held_of_giving place hgive
      obtain ⟨_, _, hlt⟩ := h.exist (List.mem_append_right _ (List.mem_append_right _ hheld))
      omega
    rw [lends_cons, gives_next place, List.count_eq_zero.mpr hgive]
    exact hu.unborn c hle

theorem release_used {τ : History HttpConnectionPool Call} {thread conn now : Nat} {connected : Bool} {pc : Pc}
    (h : s.Accounted) (hu : Used τ s) (idle : s.busy.lookup thread = none) (lent : conn ∈ s.lent)
    (released : s.releasePtr conn connected now = (s', pc)) :
    Used ((s, .release thread conn connected now) :: τ) { s' with busy := s.busy.put thread pc } := by
  obtain ⟨p, hp, hlt⟩ := h.exist (List.mem_append_right _ (List.mem_append_left _ lent))
  obtain ⟨_, hrest, hapart⟩ := List.nodup_append.mp h.stock.once
  obtain ⟨hnodup, _, hapart'⟩ := List.nodup_append.mp hrest
  have hlends : ∀ c, lends ((s, .release thread conn connected now) :: τ) c = lends τ c := fun c => lends_cons
  obtain ⟨hs', hpc⟩ := Prod.mk.inj released
  subst hs'
  have hget : s.get conn = p := by rw [get, hp, Option.getD_some]
  rw [hget] at hpc ⊢
  -- it was lent, so the thread puts it back only if it has uses left
  have hready : ∀ c ∈ pc.ready, c = conn ∧ p.request + 1 < s.maxRequest := by
    intro c hc
    subst hpc
    split at hc
    · cases hc
    · rename_i hkept
      simp only [expired, Bool.or_eq_true, decide_eq_true_eq, not_or] at hkept
      exact ⟨List.mem_singleton.mp hc, by omega⟩
  constructor
  · intro c hc
    have hmem : c ∈ s.conns ∨ c ∈ s.lent.erase conn ∨ c ∈ pc.ready ∨ c ∈ s.busy.holds Pc.ready := by
      simpa [all, Roster.holds_put, Roster.remove_of_lookup_none idle] using hc
    by_cases hconn : c = conn
    · subst hconn
      have hleft : p.request + 1 < s.maxRequest := by
        rcases hmem with hmem | hmem | hmem | hmem
        · exact absurd rfl (hapart c hmem c (List.mem_append_left _ lent))
        · exact absurd hmem hnodup.not_mem_erase
        · exact (hready c hmem).2
        · exact absurd rfl (hapart' c lent c (holds_ready_subset _ hmem))
      simp only [get, if_true, Option.getD_some]
      omega
    · have hsame : c ∈ s.all (s.busy.holds Pc.ready) := by
        rcases hmem with hmem | hmem | hmem | hmem
        · exact List.mem_append_left _ hmem
        · exact List.mem_append_right _ (List.mem_append_left _ (List.mem_of_mem_erase hmem))
        · exact absurd (hready c hmem).1 hconn
        · exact List.mem_append_right _ (List.mem_append_right _ hmem)
      have hleft := hu.left c hsame
      simpa [get, hconn] using hleft
  · intro c q hq
    rw [hlends]
    show lends τ c = q.request + (s.lent.erase conn).count c
    by_cases hconn : c = conn
    · subst hconn
      have hcounted := hu.counted c p hp
      have hpos := List.count_pos_iff.mpr lent
      dsimp only at hq
      rw [if_pos rfl] at hq
      cases hq
      rw [List.count_erase_self]
      dsimp only
      omega
    · dsimp only at hq
      rw [if_neg hconn] at hq
      rw [List.count_erase_of_ne hconn]
      exact hu.counted c q hq
  · intro c
    rw [hlends]
    exact hu.bounded c
  · intro c hc
    rw [hlends]
    exact hu.unborn c hc

theorem init_used (maxSize maxAliveTime maxRequest : Nat) : Used [] (init maxSize maxAliveTime maxRequest) := by
  refine ⟨?_, ?_, fun _ => Nat.zero_le _, fun _ _ => rfl⟩
  · intro c hc
    cases hc
  · intro c p hp
    cases hp

theorem step_used {τ : History HttpConnectionPool Call} {c : Call} (h : s.Accounted) (hu : Used τ s)
    (hs : s.step c = some s') : Used ((s, c) :: τ) s' := by
  cases step_turn hs with
  | @start thread now idle =>
    have hlends : ∀ c, lends ((s, .getConnection thread now) :: τ) c = lends τ c := fun c => lends_cons
    refine ⟨?_, fun c p hp => (hlends c).trans (hu.counted c p hp), fun c => (hlends c).trans_le (hu.bounded c),
      fun c hc => (hlends c).trans (hu.unborn c hc)⟩
    intro c hc
    refine hu.left c ?_
    simpa [all, Roster.holds_put, Pc.ready, Roster.remove_of_lookup_none idle] using hc
  | release idle lent released => exact release_used h hu idle lent released
  | next place advanced => exact advance_used h hu place advanced

/-! ## Every run -/

variable {maxSize maxAliveTime maxRequest : Nat} {τ : History HttpConnectionPool Call}

theorem run_accounted (hr : Run step (init maxSize maxAliveTime maxRequest) τ s) :
    s.Accounted ∧ Used τ s ∧ s.maxRequest = maxRequest := by
  induction hr with
  | nil => exact ⟨init_accounted .., init_used .., rfl⟩
  | step _ hs ih =>
    obtain ⟨h, hu, hmax⟩ := ih
    refine ⟨step_accounted h hs, step_used h hu hs, ?_⟩
    cases step_turn hs with
    | start idle => exact hmax
    | release idle lent released =>
      cases released
      exact hmax
    | next place advanced => exact (advance_heap advanced).1.trans hmax

/-- What the pool owes its users, in every state of every run. -/
structure Sound (maxRequest : Nat) (τ : History HttpConnectionPool Call) (s : HttpConnectionPool) : Prop where
  total : s.busy = [] → s.total = BitVec.ofNat 32 (s.conns.length + s.lent.length)
  totalInt : s.busy = [] → s.conns.length + s.lent.length < 2 ^ 31 → s.total.toInt = s.conns.length + s.lent.length
  once : (s.conns ++ s.lent).Nodup
  exist : ∀ c ∈ s.conns, (s.heap c).isSome = true
  lent : ∀ c, lends τ c ≤ max 1 maxRequest

theorem pool_accounts (hr : Run step (init maxSize maxAliveTime maxRequest) τ s) : Sound maxRequest τ s := by
  obtain ⟨h, hu, hmax⟩ := run_accounted hr
  have htotal : s.busy = [] → s.total = BitVec.ofNat 32 (s.conns.length + s.lent.length) := by
    intro hbusy
    have ht := h.stock.total
    rw [hbusy] at ht
    simp only [all, Roster.holds, Roster.sum, List.flatMap_nil, List.map_nil, List.sum_nil, List.append_nil, Int.add_zero,
      BitVec.ofInt_natCast, List.length_append] at ht
    exact ht
  refine ⟨htotal, ?_, ?_, ?_, ?_⟩
  · intro hbusy hlt
    rw [htotal hbusy, BitVec.toInt_ofNat', Int.bmod_eq_of_le (by omega) (by omega)]
    omega
  · have honce := h.stock.once
    unfold all at honce
    rw [← List.append_assoc] at honce
    exact (List.nodup_append.mp honce).1
  · intro c hc
    exact h.stock.exist c (List.mem_append_left _ hc)
  · intro c
    exact hmax ▸ hu.bounded c

/-- Two threads: both make a connection, one is put back and lent again, the other deleted. -/
theorem pool_accounts_two_threads :
    ∃ τ s, Run step (init 8 1000 2) τ s ∧ s.busy = [] ∧ s.conns = [] ∧ s.lent = [0] ∧ lends τ 0 = 2 ∧ Sound 2 τ s := by
  obtain ⟨τ, s, hr, _, ht⟩ := exists_run step (fun _ _ => True) (init 8 1000 2)
    [.getConnection 0 5000, .getConnection 1 5000, .next 0 [] true, .next 1 [] true, .next 1 [] true, .next 0 [] true,
      .next 0 [] true, .next 1 [] true, .next 0 [] true, .next 0 [] true, .next 1 [] true, .next 1 [] true,
      .next 0 [] true, .next 1 [] true, .release 0 0 true 6000, .release 1 1 false 6000, .next 1 [] true, .next 0 [] true,
      .next 1 [] true, .getConnection 0 7000, .next 0 [0] true, .next 0 [0] true, .next 0 [0] true, .next 0 [0] true]
    (fun τ s => s.busy = [] && s.conns = [] && s.lent = [0] && lends τ 0 = 2) (by decide +kernel)
  simp only [Bool.and_eq_true, decide_eq_true_eq] at ht
  exact ⟨τ, s, hr, ht.1.1.1, ht.1.1.2, ht.1.2, ht.2, pool_accounts hr⟩

end HttpConnectionPool

end LjrServer.Http
