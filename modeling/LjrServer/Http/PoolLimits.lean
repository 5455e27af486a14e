/-
  LjrServer.Http.PoolLimits — the limits of the connection pool: `m_maxAliveTime`,
  `m_maxRequest` and `m_maxSize`.

  Both tests of a connection's age ask for `m_createTime + m_maxAliveTime` to be later than
  the clock where the connection should be given up, and nothing sets `m_createTime`;
  `m_maxSize` is not looked at. A connection's real age is taken from the clock of the call
  that made it.

  Proved:
  - `scan_good`: `getConnection` takes the first connected one, once the clock has reached
    `m_maxAliveTime`.
  - `limits_kept_iff`: a run keeps the limits exactly when that one is always young, no
    connection that could be reused is released before the clock has passed
    `m_maxAliveTime`, and none is made when there are `m_maxSize`.
  - `lends_expired`: a connection lent long after its time.
-/

import LjrServer.Http.ConnectionPool

namespace LjrServer.Http

open LjrServer.Lib

namespace HttpConnectionPool

variable {s s' : HttpConnectionPool} {τ : History HttpConnectionPool Call} {c : Call}

/-- The connection a step makes, and the clock of its call. -/
def makes (s : HttpConnectionPool) : Call → Option (Nat × Nat)
  | .next thread _ made =>
    match s.busy.lookup thread with
    | some (.missing now) => if made then some (s.allocated, now) else none
    | _ => none
  | _ => none

/-- When a connection was made. -/
def createdAt (conn : Nat) : History HttpConnectionPool Call → Option Nat
  | [] => none
  | (s, c) :: τ =>
    match s.makes c with
    | some (new, now) => if new = conn then some now else createdAt conn τ
    | none => createdAt conn τ

/-- Younger than `m_maxAliveTime`. -/
def Young (s : HttpConnectionPool) (τ : History HttpConnectionPool Call) (conn now : Nat) : Prop :=
  ∃ t, createdAt conn τ = some t ∧ now < t + s.maxAliveTime

/-- How many there are: idle, lent, or in the hand of a call. -/
def existing (s : HttpConnectionPool) : Nat := (s.all (s.busy.holds Pc.held)).length

/-- What is taken from the pool is young, and what can be reused is put back. -/
def Honours (τ : History HttpConnectionPool Call) (s : HttpConnectionPool) : Call → Prop
  | .getConnection _ _ => True
  | .next thread connected _ => ∀ now conn, s.busy.lookup thread = some (.started now) →
    (s.scan now connected s.conns).2.1 = some conn → s.Young τ conn now
  | .release _ conn connected now => connected = true → s.Young τ conn now → lends τ conn < s.maxRequest →
    (s.releasePtr conn connected now).2 = .keeping conn

structure Limited (τ : History HttpConnectionPool Call) (s : HttpConnectionPool) : Prop where
  steps : MeetsAfter Honours τ
  size : ∀ p ∈ τ, p.1.existing ≤ p.1.maxSize
  last : s.existing ≤ s.maxSize

/-- The first connected one in the pool is young, unless the clock is early; a connection
    that can be reused is released when it is not; one is made when there are fewer than
    `m_maxSize`. -/
def Within (τ : History HttpConnectionPool Call) (s : HttpConnectionPool) : Call → Prop
  | .getConnection _ _ => True
  | .next thread connected made =>
    match s.busy.lookup thread with
    | some (.started now) => s.maxAliveTime ≤ now → ∀ conn, s.conns.find? (· ∈ connected) = some conn → s.Young τ conn now
    | some (.missing _) => made = true → s.existing < s.maxSize
    | _ => True
  | .release _ conn connected now =>
    connected = true → s.Young τ conn now → lends τ conn < s.maxRequest → s.maxAliveTime < now

/-! ## The tests -/

/-- Nothing sets `m_createTime`. -/
theorem run_createTime {maxSize maxAliveTime maxRequest : Nat} (hr : Run step (init maxSize maxAliveTime maxRequest) τ s)
    (conn : Nat) : (s.get conn).createTime = 0 := by
  induction hr generalizing conn with
  | nil => rfl
  | @step τ s s' c _ hs ih =>
    cases step_turn hs with
    | start idle => exact ih conn
    | @release thread released now connected s₁ pc idle lent hreleased =>
      cases hreleased
      have hnew := ih conn
      by_cases he : conn = released
      · subst he
        simpa [get] using hnew
      · simpa [get, he] using hnew
    | @next thread connected made pc s₁ pc' place advanced =>
      obtain ⟨_, _, _, hheap⟩ := advance_heap advanced
      have hold := ih conn
      show (s₁.get conn).createTime = 0
      unfold get at hold ⊢
      rcases hheap conn with hc | hc | ⟨_, hc⟩
      · rw [hc]
        exact hold
      · rw [hc]
        rfl
      · rw [hc]
        rfl

theorem scan_good (h : ∀ conn, (s.get conn).createTime = 0) (now : Nat) (connected conns : List Nat) :
    (s.scan now connected conns).2.1 = if s.maxAliveTime ≤ now then conns.find? (· ∈ connected) else none := by
  induction conns with
  | nil => simp [scan]
  | cons conn conns ih =>
    unfold scan
    rw [h conn]
    by_cases hconn : conn ∈ connected
    · by_cases hnow : s.maxAliveTime ≤ now
      · rw [if_neg (by simp [hconn]; omega), if_pos hnow, List.find?_cons_of_pos (by simpa using hconn)]
      · rw [if_pos (.inr (by omega)), if_neg hnow]
        rw [if_neg hnow] at ih
        exact ih
    · rw [if_pos (.inl hconn), List.find?_cons_of_neg (by simpa using hconn)]
      exact ih

theorem release_keeps {conn now : Nat} (h : ∀ conn, (s.get conn).createTime = 0)
    (huses : (s.get conn).request + 1 < s.maxRequest) :
    (s.releasePtr conn true now).2 = .keeping conn ↔ s.maxAliveTime < now := by
  have htest : s.expired { s.get conn with request := (s.get conn).request + 1 } true now =
      decide (now ≤ s.maxAliveTime) := by
    simp [expired, h conn]
    omega
  simp only [releasePtr, htest]
  by_cases hnow : now ≤ s.maxAliveTime
  · rw [if_pos (decide_eq_true hnow)]
    refine iff_of_false (fun hkept => ?_) (by omega)
    cases hkept
  · rw [if_neg (by simpa using hnow)]
    exact iff_of_true rfl (by omega)

/-! ## How many there are -/

theorem advance_made {connected : List Nat} {made : Bool} {now : Nat} {pc' : Option Pc}
    (h : s.advance connected made (.missing now) = (s', pc')) (mine : List Nat) :
    (s'.all (after Pc.held pc' ++ mine)).length = (s.all mine).length + made.toNat := by
  cases made <;> cases h <;> simp [all, after, Pc.held]
  omega

theorem advance_existing {connected : List Nat} {made : Bool} {pc : Pc} {pc' : Option Pc}
    (h : s.advance connected made pc = (s', pc')) (hpc : ∀ now, pc ≠ .missing now) (mine : List Nat) :
    (s'.all (after Pc.held pc' ++ mine)).length ≤ (s.all (pc.held ++ mine)).length := by
  cases pc with
  | missing now => exact absurd rfl (hpc now)
  | started now =>
    cases hscan : s.scan now connected s.conns with
    | mk invalid found =>
      obtain ⟨ptr, rest⟩ := found
      simp only [advance, hscan] at h
      cases h
      have hlen := congrArg List.length (scan_eq hscan)
      simp only [List.length_append] at hlen
      simp only [all, after, Pc.held, Option.map_some, Option.getD_some, List.length_append, List.length_nil]
      omega
  | freed now count ptr =>
    cases h
    cases ptr <;> exact Nat.le_refl _
  | scanned now invalid ptr =>
    cases h
    simp only [all, delete, after, Pc.held, Option.map_some, Option.getD_some, List.length_append]
    omega
  | created conn =>
    cases h
    exact Nat.le_refl _
  | dropped =>
    cases h
    exact Nat.le_refl _
  | returning conn =>
    cases h
    simp only [all, after, Pc.held, Option.map_none, Option.getD_none, List.length_append, List.length_cons, List.length_nil]
    omega
  | dropping conn =>
    cases h
    simp [all, delete, after, Pc.held]
  | keeping conn =>
    cases h
    simp only [all, after, Pc.held, Option.map_none, Option.getD_none, List.length_append, List.length_cons, List.length_nil]
    omega

theorem existing_next {thread : Nat} {pc : Pc} (h : s.Accounted) (place : s.busy.lookup thread = some pc) :
    s.existing = (s.all (pc.held ++ (s.busy.remove thread).holds Pc.held)).length :=
  (((Roster.holds_perm Pc.held h.keyed place).append_left _).append_left _).length_eq

theorem existing_after {thread : Nat} {pc' : Option Pc} (s' : HttpConnectionPool) (r : Roster Nat Pc) :
    existing { s' with busy := (pc'.map fun pc => (thread, pc)).toList ++ r } =
      (s'.all (after Pc.held pc' ++ r.holds Pc.held)).length := by
  cases pc' <;> rfl

/-! ## One step -/

/-- What is known of a state of a run. -/
structure Known (τ : History HttpConnectionPool Call) (s : HttpConnectionPool) : Prop where
  accounted : s.Accounted
  used : Used τ s
  createTime : ∀ conn, (s.get conn).createTime = 0

theorem release_limits {thread conn now : Nat} {connected : Bool} {pc : Pc} (h : Known τ s)
    (idle : s.busy.lookup thread = none) (lent : conn ∈ s.lent)
    (released : s.releasePtr conn connected now = (s', pc)) :
    (Honours τ s (.release thread conn connected now) ↔ Within τ s (.release thread conn connected now)) ∧
      existing { s' with busy := s.busy.put thread pc } = s.existing := by
  obtain ⟨p, hp, _⟩ := h.accounted.exist (List.mem_append_right _ (List.mem_append_left _ lent))
  have hget : s.get conn = p := by rw [get, hp, Option.getD_some]
  have hpos := List.count_pos_iff.mpr lent
  have hcounted := h.used.counted conn p hp
  constructor
  · refine imp_congr_right ?_
    intro hconnected
    subst hconnected
    refine imp_congr_right fun _ => imp_congr_right ?_
    intro huses
    exact release_keeps h.createTime (by rw [hget]; omega)
  · have hheld : pc.held = [conn] := by
      cases released
      split <;> rfl
    have hlent : s'.lent = s.lent.erase conn := by
      cases released
      rfl
    have hconns : s'.conns = s.conns := by
      cases released
      rfl
    have herase := List.length_erase_of_mem lent
    have hsome := List.length_pos_of_mem lent
    simp only [existing, all, Roster.holds_put, Roster.remove_of_lookup_none idle, hheld, hlent, hconns,
      List.length_append, List.length_singleton]
    omega

theorem advance_maxSize {connected : List Nat} {made : Bool} {pc : Pc} {pc' : Option Pc}
    (h : s.advance connected made pc = (s', pc')) : s'.maxSize = s.maxSize := by
  unfold advance at h
  split at h <;> (try split at h) <;> cases h <;> rfl

theorem next_limits {thread : Nat} {connected : List Nat} {made : Bool} {pc : Pc} {pc' : Option Pc} (h : Known τ s)
    (place : s.busy.lookup thread = some pc) (advanced : s.advance connected made pc = (s', pc'))
    (hsize : s.existing ≤ s.maxSize) :
    Honours τ s (.next thread connected made) ∧
        (s'.all (after Pc.held pc' ++ (s.busy.remove thread).holds Pc.held)).length ≤ s'.maxSize ↔
      Within τ s (.next thread connected made) := by
  rw [advance_maxSize advanced]
  have hexisting := existing_next h.accounted place
  cases pc with
  | started now =>
    have hle := advance_existing advanced (by simp) ((s.busy.remove thread).holds Pc.held)
    have hscan := scan_good h.createTime now connected s.conns
    simp only [Within, place]
    refine (and_iff_left (by omega)).trans ?_
    constructor
    · intro hhonours hnow conn hfind
      rw [if_pos hnow, hfind] at hscan
      exact hhonours now conn place hscan
    · intro hwithin now' conn hplace hptr
      cases place.symm.trans hplace
      rw [hscan] at hptr
      split at hptr
      · rename_i hnow
        exact hwithin hnow conn hptr
      · cases hptr
  | missing now =>
    have hmade := advance_made advanced ((s.busy.remove thread).holds Pc.held)
    have hhonours : Honours τ s (.next thread connected made) := by
      intro now' conn hplace
      cases place.symm.trans hplace
    simp only [Within, place]
    refine (and_iff_right hhonours).trans ?_
    rw [hmade]
    have hsame : (s.all ((Pc.missing now).held ++ (s.busy.remove thread).holds Pc.held)).length =
        (s.all ((s.busy.remove thread).holds Pc.held)).length := rfl
    cases made with
    | true =>
      simp only [Bool.toNat_true, forall_const]
      omega
    | false =>
      simp only [Bool.toNat_false, Bool.false_eq_true, false_implies, iff_true]
      omega
  | _ =>
    have hle := advance_existing advanced (by simp) ((s.busy.remove thread).holds Pc.held)
    simp only [Within, place, iff_true]
    refine ⟨?_, by omega⟩
    intro now' conn hplace
    cases place.symm.trans hplace

/-- In a pool within its size, a step keeps all limits exactly when it meets the condition. -/
theorem step_limits (h : Known τ s) (hs : s.step c = some s') (hsize : s.existing ≤ s.maxSize) :
    Honours τ s c ∧ s'.existing ≤ s'.maxSize ↔ Within τ s c := by
  cases step_turn hs with
  | @start thread now idle =>
    have hsame : existing { s with busy := s.busy.put thread (.started now) } = s.existing := by
      simp [existing, all, Roster.holds_put, Pc.held, Roster.remove_of_lookup_none idle]
    exact iff_of_true ⟨trivial, hsame ▸ hsize⟩ trivial
  | @release thread conn now connected s₁ pc idle lent released =>
    obtain ⟨hiff, hsame⟩ := release_limits h idle lent released
    have hmax : s₁.maxSize = s.maxSize := by
      cases released
      rfl
    rw [hsame, ← hiff]
    refine and_iff_left ?_
    show s.existing ≤ s₁.maxSize
    rw [hmax]
    exact hsize
  | @next thread connected made pc s₁ pc' place advanced =>
    rw [existing_after]
    exact next_limits h place advanced hsize

/-! ## Every run -/

variable {maxSize maxAliveTime maxRequest : Nat}

theorem run_known (hr : Run step (init maxSize maxAliveTime maxRequest) τ s) : Known τ s := by
  obtain ⟨haccounted, hused, _⟩ := run_accounted hr
  exact ⟨haccounted, hused, run_createTime hr⟩

/-- A run keeps the limits of the pool exactly when each of its steps meets the condition. -/
theorem limits_kept_iff (hr : Run step (init maxSize maxAliveTime maxRequest) τ s) : Limited τ s ↔ MeetsAfter Within τ := by
  induction hr with
  | nil =>
    refine iff_of_true ⟨trivial, ?_, Nat.zero_le _⟩ trivial
    intro p hp
    cases hp
  | @step τ s s' c hr hs ih =>
    have hstep := step_limits (run_known hr) hs
    constructor
    · intro hlimited
      obtain ⟨hhonours, hbefore⟩ := hlimited.steps
      obtain ⟨hsize, hearlier⟩ := List.forall_mem_cons.mp hlimited.size
      exact ⟨(hstep hsize).mp ⟨hhonours, hlimited.last⟩, ih.mp ⟨hbefore, hearlier, hsize⟩⟩
    · intro hwithin
      have hlimited := ih.mpr hwithin.2
      obtain ⟨hhonours, hlast⟩ := (hstep hlimited.last).mpr hwithin.1
      exact ⟨⟨hhonours, hlimited.steps⟩, List.forall_mem_cons.mpr ⟨hlimited.last, hlimited.size⟩, hlast⟩

instance (s : HttpConnectionPool) (τ : History HttpConnectionPool Call) (conn now : Nat) : Decidable (s.Young τ conn now) :=
  decidable_of_iff (∃ t ∈ createdAt conn τ, now < t + s.maxAliveTime) Iff.rfl

instance (τ : History HttpConnectionPool Call) (s : HttpConnectionPool) : DecidablePred (Within τ s)
  | .getConnection _ _ => inferInstanceAs (Decidable True)
  | .next thread connected made =>
    match h : s.busy.lookup thread with
    | some (.started now) =>
      decidable_of_iff (s.maxAliveTime ≤ now → ∀ conn ∈ s.conns.find? (· ∈ connected), s.Young τ conn now) (by
        simp only [Within, h]
        rfl)
    | some (.missing _) => decidable_of_iff (made = true → s.existing < s.maxSize) (by simp only [Within, h])
    | none | some (.scanned ..) | some (.freed ..) | some (.created _) | some (.returning _) | some (.dropping _)
    | some .dropped | some (.keeping _) => isTrue (by simp only [Within, h])
  | .release _ conn connected now => inferInstanceAs (Decidable
      (connected = true → s.Young τ conn now → lends τ conn < s.maxRequest → s.maxAliveTime < now))

/-- One connection made, lent, put back while it is young and lent again. -/
theorem limits_kept_one_connection :
    ∃ τ s, Run step (init 2 10 8) τ s ∧ s.existing = 1 ∧ MeetsAfter Within τ ∧ (Limited τ s ↔ MeetsAfter Within τ) := by
  obtain ⟨τ, s, hr, _, ht⟩ := exists_run step (fun _ _ => True) (init 2 10 8)
    [.getConnection 0 100, .next 0 [] true, .next 0 [] true, .next 0 [] true, .next 0 [] true, .next 0 [] true,
      .next 0 [] true, .release 0 0 true 105, .next 0 [] true, .getConnection 0 108, .next 0 [0] true]
    (fun τ s => s.existing = 1 && decide (MeetsAfter Within τ)) (by decide +kernel)
  simp only [Bool.and_eq_true, decide_eq_true_eq] at ht
  exact ⟨τ, s, hr, ht.1, ht.2, limits_kept_iff hr⟩

/-- Made at 100 to live 10 ms, put back at 105, and taken out again at 1000. -/
theorem lends_expired :
    ∃ τ s, Run step (init 2 10 8) τ s ∧ s.busy = [(0, .scanned 1000 [] (some 0))] ∧ createdAt 0 τ = some 100 ∧
      ¬ Limited τ s := by
  obtain ⟨τ, s, hr, _, ht⟩ := exists_run step (fun _ _ => True) (init 2 10 8)
    [.getConnection 0 100, .next 0 [] true, .next 0 [] true, .next 0 [] true, .next 0 [] true, .next 0 [] true,
      .next 0 [] true, .release 0 0 true 105, .next 0 [] true, .getConnection 0 1000, .next 0 [0] true]
    (fun τ s => s.busy = [(0, .scanned 1000 [] (some 0))] && createdAt 0 τ = some 100 &&
      match τ with
      | (s₀, c) :: τ₀ => c = .next 0 [0] true && s₀.busy = [(0, .started 1000)] && createdAt 0 τ₀ = some 100 &&
        s₀.maxAliveTime = 10 && (s₀.scan 1000 [0] s₀.conns).2.1 = some 0
      | [] => false) (by decide +kernel)
  simp only [Bool.and_eq_true, decide_eq_true_eq] at ht
  obtain ⟨⟨hbusy, hcreated⟩, hlast⟩ := ht
  refine ⟨τ, s, hr, hbusy, hcreated, ?_⟩
  intro hlimited
  cases τ with
  | nil => cases hlast
  | cons p τ₀ =>
    obtain ⟨s₀, c⟩ := p
    simp only [Bool.and_eq_true, decide_eq_true_eq] at hlast
    obtain ⟨⟨⟨⟨rfl, hplace⟩, hmade⟩, halive⟩, hptr⟩ := hlast
    obtain ⟨t, ht, hyoung⟩ := hlimited.steps.1 1000 0 (by rw [hplace]; rfl) hptr
    cases hmade.symm.trans ht
    omega

end HttpConnectionPool

end LjrServer.Http
