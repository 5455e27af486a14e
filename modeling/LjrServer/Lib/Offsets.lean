/-
  LjrServer.Lib.Offsets — which slices a scan hands out lie in its buffer.

  Proved:
  - `scan_pos_lt`: an event happens inside the buffer.
  - `scan_regs_lt`: so do the saved offsets and measured lengths.
  - `scan_inside_iff`: when one register `q` may come from another buffer and the others are
    good, all slices lie in the buffer exactly when `q`'s old offset does not exceed the
    offset of its first use.
-/

import LjrServer.Lib.Scanner

namespace LjrServer.Lib.Scanner

variable {σ ρ κ : Type} [DecidableEq ρ]

/-! ## Positions -/

theorem applyAll_pos (p : Nat) : ∀ (es : List (Effect ρ κ)) (g : Regs ρ), ∀ ev ∈ (applyAll p g es).2, ev.pos = p
  | [], _, ev, h => by cases h
  | e :: es, g, ev, h => by
    rcases List.mem_append.mp h with h | h
    · cases e with
      | emit k args =>
        rw [List.mem_singleton.mp h]
      | _ => cases h
    · exact applyAll_pos p es _ ev h

theorem applyAll_kind (p : Nat) : ∀ (es : List (Effect ρ κ)) (g : Regs ρ),
    ∀ ev ∈ (applyAll p g es).2, ∃ args, Effect.emit ev.kind args ∈ es
  | [], _, ev, h => by cases h
  | e :: es, g, ev, h => by
    rcases List.mem_append.mp h with h | h
    · cases e with
      | emit k args =>
        rw [List.mem_singleton.mp h]
        exact ⟨args, List.mem_cons_self⟩
      | _ => cases h
    · obtain ⟨args, h⟩ := applyAll_kind p es _ ev h
      exact ⟨args, List.mem_cons_of_mem _ h⟩

/-- An event has as many arguments as the effect that made it. -/
theorem applyAll_args (p : Nat) : ∀ (es : List (Effect ρ κ)) (g : Regs ρ),
    ∀ ev ∈ (applyAll p g es).2, ∃ args, Effect.emit ev.kind args ∈ es ∧ ev.args.length = args.length
  | [], _, ev, h => by cases h
  | e :: es, g, ev, h => by
    rcases List.mem_append.mp h with h | h
    · cases e with
      | emit k args =>
        rw [List.mem_singleton.mp h]
        exact ⟨args, List.mem_cons_self, List.length_map _⟩
      | _ => cases h
    · obtain ⟨args, h, hlen⟩ := applyAll_args p es _ ev h
      exact ⟨args, List.mem_cons_of_mem _ h, hlen⟩

/-- What holds of the events of each byte. -/
theorem scan_event (A : Automaton σ ρ κ) {P : Event κ → Prop}
    (h : ∀ s b s' es, A s b = some (s', es) → ∀ p g, ∀ ev ∈ (applyAll p g es).2, P ev) :
    ∀ (bs : List UInt8) (p : Nat) (s : σ) (g : Regs ρ), ∀ ev ∈ (scan A bs p s g).events, P ev
  | [], _, _, _, _, hev => by cases hev
  | b :: bs, p, s, g, ev, hev => by
    rcases scan_cons A b bs p s g with ⟨_, he⟩ | ⟨s', es, hA, _, he⟩ | ⟨s', es, hA, _, he⟩
    · rw [he] at hev
      cases hev
    · rw [he] at hev
      exact h s b s' es hA p g ev hev
    · rw [he] at hev
      rcases List.mem_append.mp hev with hev | hev
      · exact h s b s' es hA p g ev hev
      · exact scan_event A h bs (p + 1) s' _ ev hev

theorem scan_pos_lt (A : Automaton σ ρ κ) : ∀ (bs : List UInt8) (p : Nat) (s : σ) (g : Regs ρ),
    ∀ ev ∈ (scan A bs p s g).events, p ≤ ev.pos ∧ ev.pos < p + bs.length
  | [], _, _, _, _, h => by cases h
  | b :: bs, p, s, g, ev, h => by
    rw [List.length_cons]
    rcases scan_cons A b bs p s g with ⟨_, he⟩ | ⟨s', es, _, _, he⟩ | ⟨s', es, _, _, he⟩
    · rw [he] at h
      cases h
    · rw [he] at h
      have := applyAll_pos p es g ev h
      omega
    · rw [he] at h
      rcases List.mem_append.mp h with h | h
      · have := applyAll_pos p es g ev h
        omega
      · have := scan_pos_lt A bs (p + 1) s' _ ev h
        omega

/-- An invariant of the automaton's states. -/
theorem scan_state (A : Automaton σ ρ κ) {P : σ → Prop} (hstep : ∀ s b s' es, P s → A s b = some (s', es) → P s') :
    ∀ (bs : List UInt8) (p : Nat) (s : σ) (g : Regs ρ), P s → P (scan A bs p s g).state
  | [], _, _, _, h => h
  | b :: bs, p, s, g, h => by
    rcases scan_cons A b bs p s g with ⟨_, he⟩ | ⟨s', es, hA, _, he⟩ | ⟨s', es, hA, _, he⟩
    · rw [he]
      exact h
    · rw [he]
      exact hstep s b s' es h hA
    · rw [he]
      exact scan_state A hstep bs (p + 1) s' _ (hstep s b s' es h hA)

/-- What every byte that does not stop the scan leaves true of the state. -/
theorem scan_more_state (A : Automaton σ ρ κ) {P F : σ → Prop}
    (hstep : ∀ s b s' es, P s → A s b = some (s', es) → P s' ∧ (es.any isStop = false → F s')) :
    ∀ (bs : List UInt8) (p : Nat) (s : σ) (g : Regs ρ), bs ≠ [] → P s → (scan A bs p s g).ending = .more →
      F (scan A bs p s g).state
  | [], _, _, _, h, _, _ => absurd rfl h
  | b :: bs, p, s, g, _, hs, h => by
    rcases scan_cons A b bs p s g with ⟨_, he⟩ | ⟨_, _, _, _, he⟩ | ⟨s', es, hA, hstop, he⟩
    · rw [he] at h
      cases h
    · rw [he] at h
      cases h
    · obtain ⟨hP, hF⟩ := hstep s b s' es hs hA
      rw [he] at h ⊢
      cases bs with
      | nil => exact hF hstop
      | cons c bs => exact scan_more_state A hstep (c :: bs) (p + 1) s' _ (List.cons_ne_nil c bs) hP h

/-- What a byte that stops the scan leaves true of the state. -/
theorem scan_stopped_state (A : Automaton σ ρ κ) {P F : σ → Prop}
    (hstep : ∀ s b s' es, P s → A s b = some (s', es) → P s' ∧ (es.any isStop = true → F s')) :
    ∀ (bs : List UInt8) (p : Nat) (s : σ) (g : Regs ρ), P s → (scan A bs p s g).ending = .stopped →
      F (scan A bs p s g).state
  | [], _, _, _, _, h => by cases h
  | b :: bs, p, s, g, hs, h => by
    rcases scan_cons A b bs p s g with ⟨_, he⟩ | ⟨s', es, hA, hstop, he⟩ | ⟨s', es, hA, _, he⟩
    · rw [he] at h
      cases h
    · rw [he]
      exact (hstep s b s' es hs hA).2 hstop
    · rw [he] at h ⊢
      exact scan_stopped_state A hstep bs (p + 1) s' _ (hstep s b s' es hs hA).1 h

/-- A kind of event that comes with a stop is not in a scan that ran out of buffer. -/
theorem scan_more_kind (A : Automaton σ ρ κ) {k : κ}
    (hk : ∀ s b s' es, A s b = some (s', es) → es.any isStop = false → ∀ args, Effect.emit k args ∉ es) :
    ∀ (bs : List UInt8) (p : Nat) (s : σ) (g : Regs ρ), (scan A bs p s g).ending = .more →
      ∀ ev ∈ (scan A bs p s g).events, ev.kind ≠ k
  | [], _, _, _, _, _, h => by cases h
  | b :: bs, p, s, g, h, ev, hev => by
    rcases scan_cons A b bs p s g with ⟨_, he⟩ | ⟨_, _, _, _, he⟩ | ⟨s', es, hA, hstop, he⟩
    · rw [he] at h
      cases h
    · rw [he] at h
      cases h
    · rw [he] at h hev
      rcases List.mem_append.mp hev with hev | hev
      · rintro rfl
        obtain ⟨args, hargs⟩ := applyAll_kind p es g ev hev
        exact hk s b s' es hA hstop args hargs
      · exact scan_more_kind A hk bs (p + 1) s' _ h ev hev

theorem applyAll_regs {I : Regs ρ → Prop} {p : Nat} (heffect : ∀ g (e : Effect ρ κ), I g → I (e.regs p g)) :
    ∀ (es : List (Effect ρ κ)) (g : Regs ρ), I g → I (applyAll p g es).1
  | [], _, h => h
  | e :: es, g, h => applyAll_regs heffect es _ (heffect g e h)

/-- An invariant of the registers, in a buffer of `n` bytes. -/
theorem scan_regs (A : Automaton σ ρ κ) {I : Nat → Regs ρ → Prop} {n : Nat}
    (heffect : ∀ p g (e : Effect ρ κ), p < n → I p g → I p (e.regs p g)) (hnext : ∀ p g, I p g → I (p + 1) g) :
    ∀ (bs : List UInt8) (p : Nat) (s : σ) (g : Regs ρ), p + bs.length ≤ n → I p g → ∃ p', I p' (scan A bs p s g).regs
  | [], p, _, _, _, h => ⟨p, h⟩
  | b :: bs, p, s, g, hn, h => by
    rw [List.length_cons] at hn
    have happly : ∀ es : List (Effect ρ κ), I p (applyAll p g es).1 :=
      fun es => applyAll_regs (fun g e hg => heffect p g e (by omega) hg) es g h
    rcases scan_cons A b bs p s g with ⟨_, he⟩ | ⟨s', es, _, _, he⟩ | ⟨s', es, _, _, he⟩
    · exact ⟨p, by rw [he]; exact h⟩
    · exact ⟨p, by rw [he]; exact happly es⟩
    · rw [he]
      exact scan_regs A heffect hnext bs (p + 1) s' _ (by omega) (hnext p _ (happly es))

/-- Offsets that are in the buffer, and lengths that are no longer than it, stay so. -/
theorem scan_regs_lt (A : Automaton σ ρ κ) {r : ρ} {n : Nat} (bs : List UInt8) (p : Nat) (s : σ) (g : Regs ρ)
    (hn : p + bs.length ≤ n) (hoff : g.off r ≤ p ∧ g.off r < n) (hlen : g.len r ≤ n) :
    (scan A bs p s g).regs.off r < n ∧ (scan A bs p s g).regs.len r ≤ n := by
  obtain ⟨_, h⟩ := scan_regs A (I := fun p g => g.off r ≤ p ∧ g.off r < n ∧ g.len r ≤ n) (n := n)
    (fun p g e hp ⟨hle, hlt, hlen⟩ => by
      cases e with
      | save t =>
        simp only [Effect.regs, set]
        split
        · exact ⟨Nat.le_refl p, hp, hlen⟩
        · exact ⟨hle, hlt, hlen⟩
      | measure t =>
        refine ⟨hle, hlt, ?_⟩
        simp only [Effect.regs, set]
        split
        · next ht =>
          subst ht
          rw [distance_eq hle]
          have := Nat.mod_le (p - g.off r) (2 ^ 64)
          omega
        · exact hlen
      | emit k args => exact ⟨hle, hlt, hlen⟩
      | stop => exact ⟨hle, hlt, hlen⟩)
    (fun p g ⟨hle, hlt, hlen⟩ => ⟨Nat.le_succ_of_le hle, hlt, hlen⟩) bs p s g hn ⟨hoff.1, hoff.2, hlen⟩
  exact ⟨h.2.1, h.2.2⟩

/-! ## Slices that end where they are handed out -/

/-- A slice from an offset that is saved lies behind the scan. -/
theorem applyAll_upto {recorded : κ → Bool} {p : Nat} : ∀ (es : List (Effect ρ κ)) {g : Regs ρ}, (∀ r, g.off r ≤ p) →
    (∀ k args, recorded k = true → Effect.emit k args ∈ es → ∀ a ∈ args, ∃ r, a = .upto r) →
    (∀ r, (applyAll p g es).1.off r ≤ p) ∧
      ∀ ev ∈ (applyAll p g es).2, recorded ev.kind = true → ∀ a ∈ ev.args, a.start + a.length ≤ p
  | [], _, hg, _ => ⟨hg, fun _ h => by cases h⟩
  | e :: es, g, hg, hes => by
    have hg' : ∀ r, (e.regs p g).off r ≤ p := by
      intro r
      cases e with
      | save t =>
        simp only [Effect.regs, set]
        split
        · exact Nat.le_refl p
        · exact hg r
      | _ => exact hg r
    obtain ⟨hoff, hev⟩ := applyAll_upto es hg' fun k args hk hmem => hes k args hk (List.mem_cons_of_mem _ hmem)
    refine ⟨hoff, fun ev h hk a ha => ?_⟩
    rcases List.mem_append.mp h with h | h
    · cases e with
      | emit k args =>
        cases List.mem_singleton.mp h
        obtain ⟨x, hx, rfl⟩ := List.mem_map.mp ha
        obtain ⟨r, rfl⟩ := hes k args hk List.mem_cons_self x hx
        have := Nat.mod_le (p - g.off r) (2 ^ 64)
        have := hg r
        simp only [Regs.slice, distance_eq (hg r)]
        omega
      | _ => cases h
    · exact hev ev h hk a ha

theorem scan_upto (A : Automaton σ ρ κ) {recorded : κ → Bool}
    (hA : ∀ s b s' es, A s b = some (s', es) →
      ∀ k args, recorded k = true → Effect.emit k args ∈ es → ∀ a ∈ args, ∃ r, a = .upto r) :
    ∀ (bs : List UInt8) (p : Nat) (s : σ) {g : Regs ρ}, (∀ r, g.off r ≤ p) →
      ∀ ev ∈ (scan A bs p s g).events, recorded ev.kind = true → ∀ a ∈ ev.args, a.start + a.length ≤ ev.pos
  | [], _, _, _, _, _, h => by cases h
  | b :: bs, p, s, g, hg, ev, h => by
    have hthis : ∀ s' es, A s b = some (s', es) → ev ∈ (applyAll p g es).2 →
        recorded ev.kind = true → ∀ a ∈ ev.args, a.start + a.length ≤ ev.pos := by
      intro s' es hs hmem hk a ha
      rw [applyAll_pos p es g ev hmem]
      exact (applyAll_upto es hg (hA s b s' es hs)).2 ev hmem hk a ha
    rcases scan_cons A b bs p s g with ⟨_, he⟩ | ⟨s', es, hs, _, he⟩ | ⟨s', es, hs, _, he⟩
    · rw [he] at h
      cases h
    · rw [he] at h
      exact hthis s' es hs h
    · rw [he] at h
      rcases List.mem_append.mp h with h | h
      · exact hthis s' es hs h
      · have hg' := (applyAll_upto es hg (hA s b s' es hs)).1
        exact scan_upto A hA bs (p + 1) s' (fun r => Nat.le_succ_of_le (hg' r)) ev h

/-! ## One register from another buffer -/

def Event.Inside (n : Nat) (ev : Event κ) : Prop := ∀ a ∈ ev.args, a.start + a.length ≤ n

/-- Whether the first effect on `q` uses it (`true`) or saves it (`false`). -/
def firstUse (q : ρ) : List (Effect ρ κ) → Option Bool
  | [] => none
  | .save r :: es => if r = q then some false else firstUse q es
  | .emit _ args :: es => if .upto q ∈ args then some true else firstUse q es
  | .measure _ :: es => firstUse q es
  | .stop :: es => firstUse q es

/-- The offset at which the bytes first use `q`, if they do so before they save it. -/
def usedAt (A : Automaton σ ρ κ) (q : ρ) : List UInt8 → Nat → σ → Option Nat
  | [], _, _ => none
  | b :: bs, p, s =>
    match A s b with
    | none => none
    | some (s', es) =>
      match firstUse q es with
      | some true => some p
      | some false => none
      | none => if es.any isStop then none else usedAt A q bs (p + 1) s'

theorem usedAt_ge (A : Automaton σ ρ κ) (q : ρ) {i : Nat} : ∀ (bs : List UInt8) (p : Nat) (s : σ),
    usedAt A q bs p s = some i → p ≤ i
  | [], _, _, h => by cases h
  | b :: bs, p, s, h => by
    rw [usedAt] at h
    split at h
    · cases h
    · split at h
      · exact Nat.le_of_eq (Option.some.inj h)
      · cases h
      · split at h
        · cases h
        · have := usedAt_ge A q bs (p + 1) _ h
          omega

/-- `q` is only used by events that are not recorded, which hand out nothing else. -/
def OnlyUnrecorded (recorded : κ → Bool) (q : ρ) : Effect ρ κ → Prop
  | .emit k args => if recorded k then .upto q ∉ args else args = [.upto q]
  | _ => True

variable {recorded : κ → Bool} {q : ρ}

theorem applyAll_off (p : Nat) : ∀ (es : List (Effect ρ κ)) (g : Regs ρ),
    ((applyAll p g es).1.off q = g.off q ∨ (applyAll p g es).1.off q = p) ∧
      (firstUse q es = none → (applyAll p g es).1.off q = g.off q) ∧
      (firstUse q es = some false → (applyAll p g es).1.off q = p)
  | [], g => ⟨.inl rfl, fun _ => rfl, fun h => by cases h⟩
  | e :: es, g => by
    obtain ⟨hor, hnone, hsave⟩ := applyAll_off p es (e.regs p g)
    cases e with
    | save r =>
      simp only [applyAll, firstUse, Effect.regs, set] at hor hnone hsave ⊢
      by_cases h : r = q
      · subst h
        simp only [if_true, or_self] at hor ⊢
        exact ⟨.inr hor, fun h => (by cases h), fun _ => hor⟩
      · simp only [if_neg h, if_neg (Ne.symm h)] at hor hnone hsave ⊢
        exact ⟨hor, hnone, hsave⟩
    | measure r => exact ⟨hor, hnone, hsave⟩
    | emit k args =>
      refine ⟨hor, ?_, ?_⟩
      · intro h
        simp only [firstUse] at h
        split at h
        · cases h
        · exact hnone h
      · intro h
        simp only [firstUse] at h
        split at h
        · cases h
        · exact hsave h
    | stop => exact ⟨hor, hnone, hsave⟩

theorem distance_inside_iff {p r n : Nat} (hp : p ≤ n) (hn : n < 2 ^ 64) (hr : r < 2 ^ 64) :
    r + distance p r ≤ n ↔ r ≤ p := by
  unfold distance
  constructor
  · intro h
    by_contra hlt
    rw [Nat.mod_eq_of_lt hr, Nat.mod_eq_of_lt (by omega)] at h
    omega
  · intro h
    omega

theorem applyAll_inside_iff {p n : Nat} (hp : p ≤ n) (hn : n < 2 ^ 64) :
    ∀ (es : List (Effect ρ κ)) {v : Fresh ρ} {g : Regs ρ},
    Agree 0 p v g g → cleanAll recorded v es = true → (∀ e ∈ es, OnlyUnrecorded recorded q e) → g.off q < 2 ^ 64 →
    ((∀ ev ∈ (applyAll p g es).2, ev.Inside n) ↔ (firstUse q es = some true → g.off q ≤ p))
  | [], _, _, _, _, _, _ => ⟨fun _ h => (by cases h), fun _ ev h => by cases h⟩
  | e :: es, v, g, hagree, hclean, hq, hlt => by
    obtain ⟨he, hes⟩ := Bool.and_eq_true_iff.mp hclean
    have hq' : ∀ e ∈ es, OnlyUnrecorded recorded q e := fun f hf => hq f (List.mem_cons_of_mem _ hf)
    have ih := fun h => applyAll_inside_iff hp hn es (g := e.regs p g) (hagree.effect e) hes hq' h
    cases e with
    | save r =>
      simp only [applyAll, firstUse, Effect.regs, set, Effect.events, List.nil_append] at ih ⊢
      by_cases h : r = q
      · subst h
        simp only [if_true, Nat.le_refl, implies_true, iff_true, Option.some.injEq, Bool.false_eq_true,
          false_implies] at ih ⊢
        exact ih (by omega)
      · simp only [if_neg h, if_neg (Ne.symm h)] at ih ⊢
        exact ih hlt
    | measure r => exact ih hlt
    | emit k args =>
      have hev := hq _ List.mem_cons_self
      simp only [applyAll, firstUse, Effect.regs, Effect.events, List.singleton_append, List.forall_mem_cons,
        OnlyUnrecorded] at ih hev ⊢
      by_cases hk : recorded k = true
      · rw [if_pos hk] at hev
        rw [if_neg hev]
        refine Iff.trans (and_iff_right ?_) (ih hlt)
        have hall : args.all v.has = true := by simpa [Effect.clean, hk] using he
        intro a ha
        obtain ⟨b, hb, rfl⟩ := List.mem_map.mp ha
        exact Nat.le_trans (hagree.slice (List.all_eq_true.mp hall b hb)).2 hp
      · rw [if_neg hk] at hev
        subst hev
        simp only [Event.Inside, List.map_cons, List.map_nil, List.mem_singleton, forall_eq, Regs.slice, if_true,
          forall_const, distance_inside_iff hp hn hlt]
        exact ⟨fun h => h.1, fun h => ⟨h, (ih hlt).mpr fun _ => h⟩⟩
    | stop => exact ih hlt

/-- A slice leaves the buffer only through an old offset of `q` that is past the offset of its use. -/
theorem scan_inside_iff (A : Automaton σ ρ κ)
    (hq : ∀ s b s' es, A s b = some (s', es) → ∀ e ∈ es, OnlyUnrecorded recorded q e)
    {n : Nat} (hn : n < 2 ^ 64) : ∀ (bs : List UInt8) (p : Nat) (s : σ) {v : Fresh ρ} {g : Regs ρ}, p + bs.length = n →
    Agree 0 p v g g → clean recorded A bs s v = true → g.off q < 2 ^ 64 →
    ((∀ ev ∈ (scan A bs p s g).events, ev.Inside n) ↔ ∀ i, usedAt A q bs p s = some i → g.off q ≤ i)
  | [], _, _, _, _, _, _, _, _ => ⟨fun _ _ h => (by cases h), fun _ ev h => by cases h⟩
  | b :: bs, p, s, v, g, hlen, hagree, hclean, hlt => by
    rw [List.length_cons] at hlen
    rw [clean] at hclean
    rw [scan, usedAt]
    cases hA : A s b with
    | none => exact ⟨fun _ _ h => (by cases h), fun _ ev h => by cases h⟩
    | some r =>
      obtain ⟨s', es⟩ := r
      rw [hA] at hclean
      obtain ⟨hes, hrest⟩ := Bool.and_eq_true_iff.mp hclean
      have hthis := applyAll_inside_iff (n := n) (by omega) hn es hagree hes (hq s b s' es hA) hlt
      obtain ⟨hor, hnone, hsave⟩ := applyAll_off (q := q) p es g
      have hagree' := (applyAll_sim recorded es hagree hes).1
      by_cases hs : es.any isStop = true
      · simp only [hs, if_true]
        rw [hthis]
        cases firstUse q es with
        | none => simp
        | some used => cases used <;> simp
      · simp only [hs, Bool.false_or, Bool.false_eq_true, if_false, Scan.prepend] at hrest ⊢
        have ih := scan_inside_iff A hq hn bs (p + 1) s' (by omega) (hagree'.mono (Nat.le_succ p)) hrest
          (by rcases hor with h | h <;> omega)
        rw [List.forall_mem_append, hthis, ih]
        cases hf : firstUse q es with
        | none =>
          rw [hnone hf]
          simp
        | some used =>
          have hrest : g.off q ≤ p ∨ used = false → ∀ i, usedAt A q bs (p + 1) s' = some i →
              (applyAll p g es).1.off q ≤ i := by
            intro h i hi
            have := usedAt_ge A q bs (p + 1) s' hi
            rcases h with h | rfl
            · rcases hor with h' | h' <;> omega
            · have := hsave hf
              omega
          cases used with
          | true => exact ⟨fun h i hi => (by cases hi; exact h.1 rfl), fun h => ⟨fun _ => h p rfl, hrest (.inl (h p rfl))⟩⟩
          | false => exact ⟨fun _ _ h => (by cases h), fun _ => ⟨fun h => (by cases h), hrest (.inr rfl)⟩⟩

end LjrServer.Lib.Scanner
