/-
  LjrServer.Lib.Scanner — scanners that remember where a token began as an offset into the
  buffer they are given.

  An automaton reads a buffer byte by byte. Each byte may save the current offset in a
  register, measure a token from one, and hand out slices of the buffer as an `Event`.
  The automaton's state outlives a buffer; a saved offset means nothing in the next one.

  A piece of a text is `clean` when every recorded event uses only offsets saved in it.

  Proved:
  - `scan_append`: scanning on where a scan ended is scanning the whole.
  - `scan_sim`: while every offset used was saved in this buffer, a scan of a piece makes
    the events of the scan of the whole, shifted by where the piece begins.
-/

import Mathlib.Data.List.Forall2
import Mathlib.Algebra.GroupWithZero.Nat
import Mathlib.Algebra.Ring.Int.Defs

namespace LjrServer.Lib.Scanner

/-- A part of the buffer an event hands out. -/
inductive Arg (ρ : Type) where
  /-- From a saved offset to the current one. -/
  | upto (r : ρ)
  /-- From a saved offset, as long as it was measured to be. -/
  | span (r : ρ)
  deriving DecidableEq, Repr

inductive Effect (ρ κ : Type) where
  | save (r : ρ)
  | measure (r : ρ)
  | emit (k : κ) (args : List (Arg ρ))
  | stop
  deriving DecidableEq, Repr

structure Regs (ρ : Type) where
  off : ρ → Nat
  len : ρ → Nat

structure Slice where
  start : Nat
  length : Nat
  deriving DecidableEq, Repr

structure Event (κ : Type) where
  kind : κ
  pos : Nat
  args : List Slice
  deriving DecidableEq, Repr

/-- `p - r` in 64-bit unsigned arithmetic. -/
def distance (p r : Nat) : Nat := (p + (2 ^ 64 - r % 2 ^ 64)) % 2 ^ 64

variable {σ ρ κ : Type} [DecidableEq ρ]

def set {β : Type} (f : ρ → β) (r : ρ) (b : β) : ρ → β := fun s => if s = r then b else f s

def Regs.slice (g : Regs ρ) (p : Nat) : Arg ρ → Slice
  | .upto r => ⟨g.off r, distance p (g.off r)⟩
  | .span r => ⟨g.off r, g.len r⟩

/-- The registers after one effect at offset `p`. -/
def Effect.regs (p : Nat) (g : Regs ρ) : Effect ρ κ → Regs ρ
  | .save r => { g with off := set g.off r p }
  | .measure r => { g with len := set g.len r (distance p (g.off r)) }
  | _ => g

def Effect.events (p : Nat) (g : Regs ρ) : Effect ρ κ → List (Event κ)
  | .emit k args => [⟨k, p, args.map (g.slice p)⟩]
  | _ => []

def applyAll (p : Nat) : Regs ρ → List (Effect ρ κ) → Regs ρ × List (Event κ)
  | g, [] => (g, [])
  | g, e :: es =>
    let r := applyAll p (e.regs p g) es
    (r.1, e.events p g ++ r.2)

def isStop : Effect ρ κ → Bool
  | .stop => true
  | _ => false

/-- The state after a byte and what it does; `none` is the error state. -/
abbrev Automaton (σ ρ κ : Type) := σ → UInt8 → Option (σ × List (Effect ρ κ))

/-- How a scan ended. -/
inductive End where
  /-- At the end of the buffer. -/
  | more
  | stopped
  | error
  deriving DecidableEq, Repr

structure Scan (σ ρ κ : Type) where
  /-- The last state that was not the error state. -/
  state : σ
  regs : Regs ρ
  /-- Where the scan ended. -/
  pos : Nat
  ending : End
  events : List (Event κ)

def Scan.prepend (evs : List (Event κ)) (r : Scan σ ρ κ) : Scan σ ρ κ := { r with events := evs ++ r.events }

/-- From offset `p`, in state `s`. A stop is taken after its byte, an error before it. -/
def scan (A : Automaton σ ρ κ) : List UInt8 → Nat → σ → Regs ρ → Scan σ ρ κ
  | [], p, s, g => ⟨s, g, p, .more, []⟩
  | b :: bs, p, s, g =>
    match A s b with
    | none => ⟨s, g, p, .error, []⟩
    | some (s', es) =>
      let r := applyAll p g es
      if es.any isStop then ⟨s', r.1, p + 1, .stopped, r.2⟩ else (scan A bs (p + 1) s' r.1).prepend r.2

/-! ## One scan after another -/

/-- One byte of a scan. -/
theorem scan_cons (A : Automaton σ ρ κ) (b : UInt8) (bs : List UInt8) (p : Nat) (s : σ) (g : Regs ρ) :
    (A s b = none ∧ scan A (b :: bs) p s g = ⟨s, g, p, .error, []⟩) ∨
    (∃ s' es, A s b = some (s', es) ∧ es.any isStop = true ∧
      scan A (b :: bs) p s g = ⟨s', (applyAll p g es).1, p + 1, .stopped, (applyAll p g es).2⟩) ∨
    (∃ s' es, A s b = some (s', es) ∧ es.any isStop = false ∧
      scan A (b :: bs) p s g = (scan A bs (p + 1) s' (applyAll p g es).1).prepend (applyAll p g es).2) := by
  rw [scan]
  cases A s b with
  | none => exact .inl ⟨rfl, rfl⟩
  | some r =>
    obtain ⟨s', es⟩ := r
    by_cases h : es.any isStop = true
    · exact .inr (.inl ⟨s', es, rfl, h, if_pos h⟩)
    · exact .inr (.inr ⟨s', es, rfl, Bool.eq_false_iff.mpr h, if_neg h⟩)

/-- A scan that ran out of buffer goes on in the rest. -/
theorem scan_append (A : Automaton σ ρ κ) (ys : List UInt8) : ∀ (xs : List UInt8) (p : Nat) (s : σ) (g : Regs ρ),
    (scan A xs p s g).ending = .more → scan A (xs ++ ys) p s g =
      (scan A ys (p + xs.length) (scan A xs p s g).state (scan A xs p s g).regs).prepend (scan A xs p s g).events
  | [], _, _, _, _ => rfl
  | x :: xs, p, s, g, h => by
    have hl : p + (x :: xs).length = p + 1 + xs.length := by rw [List.length_cons]; omega
    rcases scan_cons A x xs p s g with ⟨_, he⟩ | ⟨_, _, _, _, he⟩ | ⟨s', es, hA, hs, he⟩
    · rw [he] at h
      cases h
    · rw [he] at h
      cases h
    · rw [he] at h ⊢
      rw [List.cons_append, scan, hA]
      simp only [hs, Bool.false_eq_true, if_false]
      rw [scan_append A ys xs (p + 1) s' _ h, hl]
      simp only [Scan.prepend, List.append_assoc]

/-- A scan that stopped or failed does not see the rest. -/
theorem scan_append_end (A : Automaton σ ρ κ) (ys : List UInt8) : ∀ (xs : List UInt8) (p : Nat) (s : σ) (g : Regs ρ),
    (scan A xs p s g).ending ≠ .more → scan A (xs ++ ys) p s g = scan A xs p s g
  | [], _, _, _, h => absurd rfl h
  | x :: xs, p, s, g, h => by
    rw [List.cons_append]
    rcases scan_cons A x xs p s g with ⟨hA, he⟩ | ⟨s', es, hA, hs, he⟩ | ⟨s', es, hA, hs, he⟩
    · rw [he, scan, hA]
    · rw [he, scan, hA]
      exact if_pos hs
    · rw [he] at h ⊢
      rw [scan, hA]
      simp only [hs, Bool.false_eq_true, if_false]
      rw [scan_append_end A ys xs (p + 1) s' _ h]

theorem scan_pos_le (A : Automaton σ ρ κ) : ∀ (bs : List UInt8) (p : Nat) (s : σ) (g : Regs ρ),
    p ≤ (scan A bs p s g).pos ∧ (scan A bs p s g).pos ≤ p + bs.length
  | [], _, _, _ => ⟨Nat.le_refl _, Nat.le_refl _⟩
  | b :: bs, p, s, g => by
    rw [List.length_cons]
    rcases scan_cons A b bs p s g with ⟨_, he⟩ | ⟨_, _, _, _, he⟩ | ⟨s', es, _, _, he⟩
    · rw [he]
      exact ⟨Nat.le_refl _, Nat.le_add_right _ _⟩
    · rw [he]
      exact ⟨Nat.le_succ _, by simp only; omega⟩
    · have := scan_pos_le A bs (p + 1) s' (applyAll p g es).1
      rw [he]
      simp only [Scan.prepend]
      omega

theorem scan_more_pos (A : Automaton σ ρ κ) : ∀ (bs : List UInt8) (p : Nat) (s : σ) (g : Regs ρ),
    (scan A bs p s g).ending = .more → (scan A bs p s g).pos = p + bs.length
  | [], _, _, _, _ => rfl
  | b :: bs, p, s, g, h => by
    rw [List.length_cons]
    rcases scan_cons A b bs p s g with ⟨_, he⟩ | ⟨_, _, _, _, he⟩ | ⟨s', es, _, _, he⟩
    · rw [he] at h
      cases h
    · rw [he] at h
      cases h
    · rw [he] at h ⊢
      have := scan_more_pos A bs (p + 1) s' _ h
      simp only [Scan.prepend]
      omega

theorem scan_stopped_pos (A : Automaton σ ρ κ) : ∀ (bs : List UInt8) (p : Nat) (s : σ) (g : Regs ρ),
    (scan A bs p s g).ending = .stopped → p < (scan A bs p s g).pos
  | [], _, _, _, h => End.noConfusion h
  | b :: bs, p, s, g, h => by
    rcases scan_cons A b bs p s g with ⟨_, he⟩ | ⟨_, _, _, _, he⟩ | ⟨s', es, hA, hs, he⟩
    · rw [he] at h
      cases h
    · rw [he]
      exact Nat.lt_succ_self p
    · rw [he] at h ⊢
      exact Nat.lt_of_succ_lt (scan_stopped_pos A bs (p + 1) s' _ h)

/-- A scan is stopped in the first `k` bytes when it is stopped there in all of them. -/
theorem scan_take_stopped (A : Automaton σ ρ κ) {bs : List UInt8} {p k : Nat} {s : σ} {g : Regs ρ}
    (h : (scan A bs p s g).ending ≠ .error) (hk : k ≤ bs.length) : (scan A (bs.take k) p s g).ending = .stopped ↔
      (scan A bs p s g).ending = .stopped ∧ (scan A bs p s g).pos ≤ p + k := by
  have hlen : (bs.take k).length = k := List.length_take_of_le hk
  have hle := (scan_pos_le A (bs.take k) p s g).2
  have hend := scan_append_end A (bs.drop k) (bs.take k) p s g
  have hmore := scan_append A (bs.drop k) (bs.take k) p s g
  rw [List.take_append_drop, hlen] at hmore
  rw [List.take_append_drop] at hend
  rw [hlen] at hle
  cases hcase : (scan A (bs.take k) p s g).ending with
  | more =>
    refine iff_of_false End.noConfusion ?_
    rintro ⟨hstop, hpos⟩
    rw [hmore hcase] at hstop hpos
    exact absurd (scan_stopped_pos A _ _ _ _ hstop) (Nat.not_lt.mpr hpos)
  | stopped =>
    rw [hend (by rw [hcase]; exact End.noConfusion)]
    exact iff_of_true rfl ⟨hcase, hle⟩
  | error =>
    rw [hend (by rw [hcase]; exact End.noConfusion)] at h
    exact absurd hcase h

/-! ## Offsets that are still good -/

/-- Which offsets and which measured lengths belong to the current buffer. -/
structure Fresh (ρ : Type) where
  off : ρ → Bool
  len : ρ → Bool

def Fresh.none : Fresh ρ := ⟨fun _ => false, fun _ => false⟩

def Fresh.has (v : Fresh ρ) : Arg ρ → Bool
  | .upto r => v.off r
  | .span r => v.off r && v.len r

def Effect.fresh (v : Fresh ρ) : Effect ρ κ → Fresh ρ
  | .save r => ⟨set v.off r true, set v.len r false⟩
  | .measure r => { v with len := set v.len r (v.off r) }
  | _ => v

variable (recorded : κ → Bool)

def Effect.clean (v : Fresh ρ) : Effect ρ κ → Bool
  | .emit k args => !recorded k || args.all v.has
  | _ => true

def cleanAll : Fresh ρ → List (Effect ρ κ) → Bool
  | _, [] => true
  | v, e :: es => e.clean recorded v && cleanAll (e.fresh v) es

def freshAll : Fresh ρ → List (Effect ρ κ) → Fresh ρ
  | v, [] => v
  | v, e :: es => freshAll (e.fresh v) es

theorem cleanAll_append : ∀ (es fs : List (Effect ρ κ)) (v : Fresh ρ),
    cleanAll recorded v (es ++ fs) = (cleanAll recorded v es && cleanAll recorded (freshAll v es) fs)
  | [], _, _ => rfl
  | e :: es, fs, v => by
    rw [List.cons_append, cleanAll, cleanAll, freshAll, cleanAll_append es fs, Bool.and_assoc]

theorem freshAll_append : ∀ (es fs : List (Effect ρ κ)) (v : Fresh ρ), freshAll v (es ++ fs) = freshAll (freshAll v es) fs
  | [], _, _ => rfl
  | e :: es, fs, v => freshAll_append es fs (e.fresh v)

/-- Every recorded event of the scan uses fresh offsets. -/
def clean (A : Automaton σ ρ κ) : List UInt8 → σ → Fresh ρ → Bool
  | [], _, _ => true
  | b :: bs, s, v =>
    match A s b with
    | none => true
    | some (s', es) => cleanAll recorded v es && (es.any isStop || clean A bs s' (freshAll v es))

/-- The state a scan of the bytes ends in. -/
def stateAfter (A : Automaton σ ρ κ) : List UInt8 → σ → Option σ
  | [], s => some s
  | b :: bs, s =>
    match A s b with
    | none => none
    | some (s', es) => if es.any isStop then none else stateAfter A bs s'

/-! ## A piece against the whole -/

theorem distance_eq {p r : Nat} (h : r ≤ p) : distance p r = (p - r) % 2 ^ 64 := by
  unfold distance
  omega

theorem distance_shift {p r : Nat} (h : r ≤ p) (B : Nat) : distance (p + B) (r + B) = distance p r := by
  rw [distance_eq h, distance_eq (Nat.add_le_add_right h B), Nat.add_sub_add_right]

def Slice.shift (B : Nat) (a : Slice) : Slice := ⟨a.start + B, a.length⟩

/-- An event of a piece and the same event of the whole, in which the piece begins at `B`. -/
structure Matches (B : Nat) (e e' : Event κ) : Prop where
  kind : e'.kind = e.kind
  pos : e'.pos = e.pos + B
  args : recorded e.kind = true → e'.args = e.args.map (·.shift B)
  inside : recorded e.kind = true → ∀ a ∈ e.args, a.start + a.length ≤ e.pos

/-- Registers of a piece and of the whole at offset `p` of the piece: fresh ones agree. -/
structure Agree (B p : Nat) (v : Fresh ρ) (g g' : Regs ρ) : Prop where
  off : ∀ r, v.off r = true → g'.off r = g.off r + B ∧ g.off r ≤ p
  len : ∀ r, v.off r = true → v.len r = true → g'.len r = g.len r ∧ g.off r + g.len r ≤ p

omit [DecidableEq ρ] in
theorem Agree.none (B p : Nat) (g g' : Regs ρ) : Agree B p .none g g' :=
  ⟨fun _ h => Bool.noConfusion h, fun _ h => Bool.noConfusion h⟩

omit [DecidableEq ρ] in
theorem Agree.mono {B p q : Nat} {v : Fresh ρ} {g g' : Regs ρ} (h : Agree B p v g g') (hpq : p ≤ q) : Agree B q v g g' :=
  ⟨fun r hr => ⟨(h.off r hr).1, Nat.le_trans (h.off r hr).2 hpq⟩,
    fun r hr hl => ⟨(h.len r hr hl).1, Nat.le_trans (h.len r hr hl).2 hpq⟩⟩

omit [DecidableEq ρ] in
theorem Agree.slice {B p : Nat} {v : Fresh ρ} {g g' : Regs ρ} (h : Agree B p v g g') {a : Arg ρ} (ha : v.has a = true) :
    g'.slice (p + B) a = (g.slice p a).shift B ∧ (g.slice p a).start + (g.slice p a).length ≤ p := by
  cases a with
  | upto r =>
    obtain ⟨he, hle⟩ := h.off r ha
    simp only [Regs.slice, Slice.shift, he, distance_shift hle, true_and]
    have := Nat.mod_le (p - g.off r) (2 ^ 64)
    rw [distance_eq hle]
    omega
  | span r =>
    obtain ⟨ho, hl⟩ := Bool.and_eq_true_iff.mp ha
    obtain ⟨he, _⟩ := h.off r ho
    obtain ⟨hlen, hle⟩ := h.len r ho hl
    exact ⟨by simp only [Regs.slice, Slice.shift, he, hlen], hle⟩

theorem Agree.effect {B p : Nat} {v : Fresh ρ} {g g' : Regs ρ} (h : Agree B p v g g') (e : Effect ρ κ) :
    Agree B p (e.fresh v) (e.regs p g) (e.regs (p + B) g') := by
  cases e with
  | save r =>
    constructor
    · intro s hs
      simp only [Effect.regs, Effect.fresh, set] at hs ⊢
      by_cases e : s = r
      · simp only [if_pos e]
        exact ⟨trivial, Nat.le_refl p⟩
      · simp only [if_neg e] at hs ⊢
        exact h.off s hs
    · intro s hs hl
      simp only [Effect.regs, Effect.fresh, set] at hs hl ⊢
      by_cases e : s = r
      · rw [if_pos e] at hl
        cases hl
      · simp only [if_neg e] at hs hl ⊢
        exact h.len s hs hl
  | measure r =>
    refine ⟨h.off, ?_⟩
    intro s hs hl
    simp only [Effect.regs, Effect.fresh, set] at hs hl ⊢
    by_cases e : s = r
    · obtain ⟨he, hle⟩ := h.off s hs
      subst e
      rw [if_pos rfl, if_pos rfl, he, distance_shift hle]
      have := Nat.mod_le (p - g.off s) (2 ^ 64)
      rw [distance_eq hle]
      omega
    · rw [if_neg e] at hl
      rw [if_neg e, if_neg e]
      exact h.len s hs hl
  | emit k args => exact ⟨h.off, h.len⟩
  | stop => exact ⟨h.off, h.len⟩

omit [DecidableEq ρ] in
theorem events_matches {B p : Nat} {v : Fresh ρ} {g g' : Regs ρ} (h : Agree B p v g g') {e : Effect ρ κ}
    (hc : e.clean recorded v = true) : List.Forall₂ (Matches recorded B) (e.events p g) (e.events (p + B) g') := by
  cases e with
  | emit k args =>
    refine .cons ⟨rfl, rfl, ?_, ?_⟩ .nil
    · intro hk
      have hall : args.all v.has = true := by simpa [Effect.clean, hk] using hc
      simp only [List.map_map]
      exact List.map_congr_left fun a ha => (h.slice (List.all_eq_true.mp hall a ha)).1
    · intro hk a ha
      have hall : args.all v.has = true := by simpa [Effect.clean, hk] using hc
      obtain ⟨b, hb, rfl⟩ := List.mem_map.mp ha
      exact (h.slice (List.all_eq_true.mp hall b hb)).2
  | _ => exact .nil

theorem applyAll_sim {B p : Nat} : ∀ (es : List (Effect ρ κ)) {v : Fresh ρ} {g g' : Regs ρ}, Agree B p v g g' →
    cleanAll recorded v es = true →
    Agree B p (freshAll v es) (applyAll p g es).1 (applyAll (p + B) g' es).1 ∧
      List.Forall₂ (Matches recorded B) (applyAll p g es).2 (applyAll (p + B) g' es).2
  | [], _, _, _, h, _ => ⟨h, .nil⟩
  | e :: es, _, _, _, h, hc => by
    obtain ⟨he, hes⟩ := Bool.and_eq_true_iff.mp hc
    obtain ⟨hagree, hevents⟩ := applyAll_sim es (h.effect e) hes
    exact ⟨hagree, List.rel_append (events_matches recorded h he) hevents⟩

/-- The scan of a piece against the scan of the same bytes inside the whole. -/
theorem scan_sim (A : Automaton σ ρ κ) {B : Nat} : ∀ (bs : List UInt8) (p : Nat) (s : σ) {v : Fresh ρ} {g g' : Regs ρ},
    Agree B p v g g' → clean recorded A bs s v = true →
    (scan A bs (p + B) s g').state = (scan A bs p s g).state ∧
      (scan A bs (p + B) s g').ending = (scan A bs p s g).ending ∧
      (scan A bs (p + B) s g').pos = (scan A bs p s g).pos + B ∧
      List.Forall₂ (Matches recorded B) (scan A bs p s g).events (scan A bs (p + B) s g').events
  | [], _, _, _, _, _, _, _ => ⟨rfl, rfl, rfl, .nil⟩
  | b :: bs, p, s, v, g, g', h, hc => by
    rw [clean] at hc
    rw [scan, scan]
    cases hA : A s b with
    | none => exact ⟨rfl, rfl, rfl, .nil⟩
    | some r =>
      obtain ⟨s', es⟩ := r
      rw [hA] at hc
      obtain ⟨hes, hrest⟩ := Bool.and_eq_true_iff.mp hc
      obtain ⟨hagree, hevents⟩ := applyAll_sim recorded es h hes
      by_cases hs : es.any isStop = true
      · simp only [hs, if_true]
        exact ⟨trivial, trivial, by omega, hevents⟩
      · simp only [hs, Bool.false_or, Bool.false_eq_true, if_false] at hrest ⊢
        obtain ⟨hstate, hend, hpos, hev⟩ := scan_sim A bs (p + 1) s' (hagree.mono (Nat.le_succ p)) hrest
        rw [show p + B + 1 = p + 1 + B by omega]
        exact ⟨hstate, hend, hpos, List.rel_append hevents hev⟩

theorem stateAfter_of_more (A : Automaton σ ρ κ) : ∀ (bs : List UInt8) (p : Nat) (s : σ) (g : Regs ρ),
    (scan A bs p s g).ending = .more → stateAfter A bs s = some (scan A bs p s g).state
  | [], _, _, _, _ => rfl
  | b :: bs, p, s, g, h => by
    rcases scan_cons A b bs p s g with ⟨_, he⟩ | ⟨_, _, _, _, he⟩ | ⟨s', es, hA, hs, he⟩
    · rw [he] at h
      cases h
    · rw [he] at h
      cases h
    · rw [he] at h ⊢
      simp only [stateAfter, hA, hs, Bool.false_eq_true, if_false]
      exact stateAfter_of_more A bs (p + 1) s' _ h

end LjrServer.Lib.Scanner
