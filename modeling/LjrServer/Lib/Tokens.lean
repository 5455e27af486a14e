/-
  LjrServer.Lib.Tokens — the tokens of a text and the buffers it is cut into.

  A token is what a recorded event hands out: it reaches from where its offsets were saved
  to the byte that reports it, or to the end of the slice if that lies further on. The
  marks of a scan say where each offset was saved.

  Proved:
  - `uncut_single`: a text that arrives in one piece is uncut.
  - `scan_seen`: when no token is cut at either end of a piece, the scan of the piece makes
    the events of the scan of the whole, shifted by where the piece begins, with slices
    inside the piece.
-/

import LjrServer.Lib.Pieces
import LjrServer.Lib.Scanner

namespace LjrServer.Lib.Scanner

variable {σ ρ κ : Type} [DecidableEq ρ]

/-! ## Tokens -/

/-- Where each register was saved, and where the one was whose length was measured. -/
structure Marks (ρ : Type) where
  saved : ρ → Nat
  measured : ρ → Nat

/-- The registers a scan starts with are as good as saved at its start. -/
def Marks.start : Marks ρ := ⟨fun _ => 0, fun _ => 0⟩

def Marks.since (k : Marks ρ) : Arg ρ → Nat
  | .upto r => k.saved r
  | .span r => min (k.saved r) (k.measured r)

def Effect.marks (p : Nat) (k : Marks ρ) : Effect ρ κ → Marks ρ
  | .save r => { k with saved := set k.saved r p }
  | .measure r => { k with measured := set k.measured r (k.saved r) }
  | _ => k

structure Token where
  since : Nat
  ends : Nat
  deriving DecidableEq, Repr

/-- A boundary at offset `c` falls inside the token. -/
def Token.CutAt (t : Token) (c : Nat) : Prop := t.since < c ∧ c < t.ends

instance (t : Token) (c : Nat) : Decidable (t.CutAt c) := inferInstanceAs (Decidable (_ ∧ _))

variable (recorded : κ → Bool)

def Effect.tokens (p : Nat) (g : Regs ρ) (k : Marks ρ) : Effect ρ κ → List Token
  | .emit c args =>
    if recorded c then
      args.map fun a => ⟨k.since a, max (p + 1) ((g.slice p a).start + (g.slice p a).length)⟩
    else []
  | _ => []

def tokensAll (p : Nat) : Regs ρ → Marks ρ → List (Effect ρ κ) → List Token
  | _, _, [] => []
  | g, k, e :: es => e.tokens recorded p g k ++ tokensAll p (e.regs p g) (e.marks p k) es

def marksAll (p : Nat) : Marks ρ → List (Effect ρ κ) → Marks ρ
  | k, [] => k
  | k, e :: es => marksAll p (e.marks p k) es

/-- The tokens of a scan. -/
def tokens (A : Automaton σ ρ κ) : List UInt8 → Nat → σ → Regs ρ → Marks ρ → List Token
  | [], _, _, _, _ => []
  | b :: bs, p, s, g, k =>
    match A s b with
    | none => []
    | some (s', es) =>
      tokensAll recorded p g k es ++
        if es.any isStop then [] else tokens A bs (p + 1) s' (applyAll p g es).1 (marksAll p k es)

/-- The marks a scan that runs out of buffer leaves. -/
def marksAfter (A : Automaton σ ρ κ) : List UInt8 → Nat → σ → Marks ρ → Marks ρ
  | [], _, _, k => k
  | b :: bs, p, s, k =>
    match A s b with
    | none => k
    | some (s', es) => marksAfter A bs (p + 1) s' (marksAll p k es)

/-- No piece ends inside a token. -/
def Uncut (A : Automaton σ ρ κ) (s : σ) (g : Regs ρ) (pieces : List (List UInt8)) : Prop :=
  ∀ t ∈ tokens recorded A pieces.flatten 0 s g .start, ∀ c ∈ ends 0 pieces, ¬ t.CutAt c

instance (A : Automaton σ ρ κ) (s : σ) (g : Regs ρ) (pieces : List (List UInt8)) :
    Decidable (Uncut recorded A s g pieces) :=
  inferInstanceAs (Decidable (∀ t ∈ _, ∀ c ∈ _, _))

theorem tokens_append (A : Automaton σ ρ κ) (ys : List UInt8) : ∀ (xs : List UInt8) (p : Nat) (s : σ) (g : Regs ρ)
    (k : Marks ρ), (scan A xs p s g).ending = .more → tokens recorded A (xs ++ ys) p s g k =
      tokens recorded A xs p s g k ++
        tokens recorded A ys (p + xs.length) (scan A xs p s g).state (scan A xs p s g).regs (marksAfter A xs p s k)
  | [], _, _, _, _, _ => rfl
  | x :: xs, p, s, g, k, h => by
    have hl : p + (x :: xs).length = p + 1 + xs.length := by rw [List.length_cons]; omega
    rcases scan_cons A x xs p s g with ⟨_, he⟩ | ⟨_, _, _, _, he⟩ | ⟨s', es, hA, hs, he⟩
    · rw [he] at h
      cases h
    · rw [he] at h
      cases h
    · rw [he] at h ⊢
      simp only [List.cons_append, tokens, marksAfter, hA, hs, Bool.false_eq_true, if_false, Scan.prepend]
      rw [tokens_append A ys xs (p + 1) s' _ _ h, hl, List.append_assoc]

/-- Where a token ends. -/
theorem tokensAll_event {p : Nat} : ∀ (es : List (Effect ρ κ)) {g : Regs ρ} {k : Marks ρ}, ∀ t ∈ tokensAll recorded p g k es,
    ∃ ev ∈ (applyAll p g es).2, recorded ev.kind = true ∧ ∃ a ∈ ev.args, t.ends = max (ev.pos + 1) (a.start + a.length)
  | [], _, _, _, h => by cases h
  | e :: es, g, k, t, h => by
    rcases List.mem_append.mp h with h | h
    · cases e with
      | emit c args =>
        simp only [Effect.tokens] at h
        split at h
        · next hc =>
          obtain ⟨a, ha, rfl⟩ := List.mem_map.mp h
          exact ⟨_, List.mem_append_left _ (List.mem_singleton_self _), hc, g.slice p a, List.mem_map_of_mem ha, rfl⟩
        · cases h
      | save r => cases h
      | measure r => cases h
      | stop => cases h
    · obtain ⟨ev, hev, h⟩ := tokensAll_event es t h
      exact ⟨ev, List.mem_append_right _ hev, h⟩

theorem token_event (A : Automaton σ ρ κ) : ∀ (bs : List UInt8) (p : Nat) (s : σ) (g : Regs ρ) (k : Marks ρ),
    ∀ t ∈ tokens recorded A bs p s g k, ∃ ev ∈ (scan A bs p s g).events, recorded ev.kind = true ∧
      ∃ a ∈ ev.args, t.ends = max (ev.pos + 1) (a.start + a.length)
  | [], _, _, _, _, _, h => by cases h
  | b :: bs, p, s, g, k, t, h => by
    rw [tokens] at h
    rw [scan]
    cases hA : A s b with
    | none =>
      rw [hA] at h
      cases h
    | some r =>
      obtain ⟨s', es⟩ := r
      rw [hA] at h
      by_cases hs : es.any isStop = true
      · simp only [hs, if_true, List.append_nil] at h ⊢
        exact tokensAll_event recorded es t h
      · simp only [hs, Bool.false_eq_true, if_false] at h ⊢
        rcases List.mem_append.mp h with h | h
        · obtain ⟨ev, hev, h⟩ := tokensAll_event recorded es t h
          exact ⟨ev, List.mem_append_left _ hev, h⟩
        · obtain ⟨ev, hev, h⟩ := token_event A bs (p + 1) s' _ _ t h
          exact ⟨ev, List.mem_append_right _ hev, h⟩

/-- A text in one piece is uncut if what is handed out lies in it. -/
theorem uncut_single (A : Automaton σ ρ κ) {R : List UInt8} {s : σ} {g : Regs ρ}
    (h : ∀ ev ∈ (scan A R 0 s g).events, recorded ev.kind = true → ev.pos < R.length ∧
      ∀ a ∈ ev.args, a.start + a.length ≤ R.length) : Uncut recorded A s g [R] := by
  intro t ht c hc
  rw [List.flatten_singleton] at ht
  rw [ends, ends, List.mem_singleton, Nat.zero_add] at hc
  obtain ⟨ev, hev, hk, a, ha, hends⟩ := token_event recorded A R 0 s g .start t ht
  obtain ⟨hpos, hargs⟩ := h ev hev hk
  have hle := hargs a ha
  intro hcut
  have := hcut.2
  omega

/-! ## Marks lie behind the scan -/

def Marks.Below (n : Nat) (k : Marks ρ) : Prop := ∀ r, k.saved r < n ∧ k.measured r < n

omit [DecidableEq ρ] in
theorem Marks.Below.mono {m n : Nat} {k : Marks ρ} (h : k.Below m) (hmn : m ≤ n) : k.Below n :=
  fun r => ⟨Nat.lt_of_lt_of_le (h r).1 hmn, Nat.lt_of_lt_of_le (h r).2 hmn⟩

omit [DecidableEq ρ] in
theorem Marks.below_start : (Marks.start : Marks ρ).Below 1 := fun _ => ⟨Nat.one_pos, Nat.one_pos⟩

theorem Marks.Below.effect {p : Nat} {k : Marks ρ} (h : k.Below (p + 1)) (e : Effect ρ κ) : (e.marks p k).Below (p + 1) := by
  cases e with
  | save r =>
    intro t
    refine ⟨?_, (h t).2⟩
    simp only [Effect.marks, set]
    split
    · exact Nat.lt_succ_self p
    · exact (h t).1
  | measure r =>
    intro t
    refine ⟨(h t).1, ?_⟩
    simp only [Effect.marks, set]
    split
    · exact (h r).1
    · exact (h t).2
  | emit c args => exact h
  | stop => exact h

theorem Marks.Below.all {p : Nat} : ∀ (es : List (Effect ρ κ)) {k : Marks ρ}, k.Below (p + 1) →
    (marksAll p k es).Below (p + 1)
  | [], _, h => h
  | e :: es, _, h => Below.all es (h.effect e)

theorem Marks.Below.after (A : Automaton σ ρ κ) : ∀ (bs : List UInt8) (p : Nat) (s : σ) {k : Marks ρ}, bs ≠ [] →
    k.Below (p + 1) → (marksAfter A bs p s k).Below (p + bs.length)
  | [], _, _, _, hne, _ => absurd rfl hne
  | b :: bs, p, s, k, _, h => by
    rw [List.length_cons, marksAfter]
    cases hA : A s b with
    | none => exact h.mono (by omega)
    | some r =>
      obtain ⟨s', es⟩ := r
      have hthis : (marksAll p k es).Below (p + 1) := h.all es
      cases bs with
      | nil => exact hthis
      | cons c bs =>
        have := Below.after A (c :: bs) (p + 1) s' (List.cons_ne_nil c bs) (hthis.mono (Nat.le_succ _))
        rw [List.length_cons] at this ⊢
        rwa [show p + (bs.length + 1 + 1) = p + 1 + (bs.length + 1) by omega]

/-! ## A piece against the whole -/

/-- An event of a piece of `n` bytes, and the same event of the whole, in which the piece
    begins at `B`. -/
structure Seen (B n : Nat) (e e' : Event κ) : Prop where
  kind : e'.kind = e.kind
  pos : e'.pos = e.pos + B
  args : recorded e.kind = true → e'.args = e.args.map (·.shift B)
  inside : recorded e.kind = true → ∀ a ∈ e.args, a.start + a.length ≤ n

/-- Registers of the piece and of the whole at offset `p` of the piece: those saved in the
    piece agree. -/
structure Agrees (B p : Nat) (k : Marks ρ) (g g' : Regs ρ) : Prop where
  off : ∀ r, B ≤ k.saved r → g'.off r = g.off r + B ∧ (B = 0 ∨ g.off r ≤ p)
  len : ∀ r, B ≤ k.measured r → g'.len r = g.len r

omit [DecidableEq ρ] in
/-- At the start of the text. -/
theorem Agrees.start (k : Marks ρ) (g : Regs ρ) : Agrees 0 0 k g g := ⟨fun _ _ => ⟨rfl, .inl rfl⟩, fun _ _ => rfl⟩

omit [DecidableEq ρ] in
/-- At the start of a later piece. -/
theorem Agrees.later {B : Nat} {k : Marks ρ} (h : k.Below B) (p : Nat) (g g' : Regs ρ) : Agrees B p k g g' :=
  ⟨fun r hr => absurd (h r).1 (Nat.not_lt.mpr hr), fun r hr => absurd (h r).2 (Nat.not_lt.mpr hr)⟩

omit [DecidableEq ρ] in
theorem Agrees.mono {B p q : Nat} {k : Marks ρ} {g g' : Regs ρ} (h : Agrees B p k g g') (hpq : p ≤ q) : Agrees B q k g g' :=
  ⟨fun r hr => ⟨(h.off r hr).1, (h.off r hr).2.imp_right fun hle => Nat.le_trans hle hpq⟩, h.len⟩

omit [DecidableEq ρ] in
theorem Agrees.distance {B p : Nat} {k : Marks ρ} {g g' : Regs ρ} (h : Agrees B p k g g') {r : ρ} (hr : B ≤ k.saved r) :
    Scanner.distance (p + B) (g'.off r) = Scanner.distance p (g.off r) := by
  obtain ⟨hoff, hB | hle⟩ := h.off r hr
  · subst hB
    rw [hoff, Nat.add_zero, Nat.add_zero]
  · rw [hoff, distance_shift hle]

theorem Agrees.effect {B p : Nat} {k : Marks ρ} {g g' : Regs ρ} (h : Agrees B p k g g') (e : Effect ρ κ) :
    Agrees B p (e.marks (p + B) k) (e.regs p g) (e.regs (p + B) g') := by
  cases e with
  | save r =>
    refine ⟨fun t ht => ?_, h.len⟩
    simp only [Effect.marks, Effect.regs, set] at ht ⊢
    by_cases e : t = r
    · simp only [if_pos e]
      exact ⟨trivial, .inr (Nat.le_refl p)⟩
    · simp only [if_neg e] at ht ⊢
      exact h.off t ht
  | measure r =>
    refine ⟨h.off, fun t ht => ?_⟩
    simp only [Effect.marks, Effect.regs, set] at ht ⊢
    by_cases e : t = r
    · simp only [if_pos e] at ht ⊢
      exact h.distance ht
    · simp only [if_neg e] at ht ⊢
      exact h.len t ht
  | emit c args => exact h
  | stop => exact h

omit [DecidableEq ρ] in
theorem Agrees.slice {B p : Nat} {k : Marks ρ} {g g' : Regs ρ} (h : Agrees B p k g g') {a : Arg ρ} (ha : B ≤ k.since a) :
    g'.slice (p + B) a = (g.slice p a).shift B := by
  cases a with
  | upto r => simp only [Regs.slice, Slice.shift, (h.off r ha).1, ← h.distance ha]
  | span r =>
    have hr : B ≤ k.saved r ∧ B ≤ k.measured r := Nat.le_min.mp ha
    simp only [Regs.slice, Slice.shift, (h.off r hr.1).1, h.len r hr.2]

/-- No token is cut at either end of the piece. -/
def WholeIn (B n : Nat) (ts : List Token) : Prop := ∀ t ∈ ts, ¬ t.CutAt B ∧ ¬ t.CutAt (B + n)

theorem WholeIn.left {B n : Nat} {ts us : List Token} (h : WholeIn B n (ts ++ us)) : WholeIn B n ts :=
  fun t ht => h t (List.mem_append_left us ht)

theorem WholeIn.right {B n : Nat} {ts us : List Token} (h : WholeIn B n (ts ++ us)) : WholeIn B n us :=
  fun t ht => h t (List.mem_append_right ts ht)

variable {recorded}

omit [DecidableEq ρ] in
theorem event_seen {B n p : Nat} {k : Marks ρ} {g g' : Regs ρ} (h : Agrees B p k g g') (hk : k.Below (p + B + 1))
    (hp : p < n) {e : Effect ρ κ} (hwhole : WholeIn B n (e.tokens recorded (p + B) g' k)) :
    List.Forall₂ (Seen recorded B n) (e.events p g) (e.events (p + B) g') := by
  cases e with
  | emit c args =>
    have hthis : recorded c = true → ∀ a ∈ args, g'.slice (p + B) a = (g.slice p a).shift B ∧
        (g.slice p a).start + (g.slice p a).length ≤ n := by
      intro hc a ha
      simp only [Effect.tokens, hc, if_true] at hwhole
      obtain ⟨hbegin, hend⟩ := hwhole _ (List.mem_map_of_mem ha)
      simp only [Token.CutAt, not_and, Nat.not_lt] at hbegin hend
      have hsince : B ≤ k.since a := by
        by_contra hlt
        have := hbegin (by omega)
        omega
      have hbelow : k.since a < p + B + 1 := by
        cases a with
        | upto r => exact (hk r).1
        | span r => exact Nat.lt_of_le_of_lt (Nat.min_le_left _ _) (hk r).1
      have hslice := h.slice hsince
      refine ⟨hslice, ?_⟩
      have := hend (by omega)
      rw [hslice, Slice.shift] at this
      dsimp only at this
      omega
    refine .cons ⟨rfl, rfl, fun hc => ?_, fun hc a ha => ?_⟩ .nil
    · rw [List.map_map]
      exact List.map_congr_left fun a ha => (hthis hc a ha).1
    · obtain ⟨b, hb, rfl⟩ := List.mem_map.mp ha
      exact (hthis hc b hb).2
  | save r => exact .nil
  | measure r => exact .nil
  | stop => exact .nil

theorem applyAll_seen {B n p : Nat} (hp : p < n) : ∀ (es : List (Effect ρ κ)) {k : Marks ρ} {g g' : Regs ρ},
    Agrees B p k g g' → k.Below (p + B + 1) → WholeIn B n (tokensAll recorded (p + B) g' k es) →
    Agrees B p (marksAll (p + B) k es) (applyAll p g es).1 (applyAll (p + B) g' es).1 ∧
      List.Forall₂ (Seen recorded B n) (applyAll p g es).2 (applyAll (p + B) g' es).2
  | [], _, _, _, h, _, _ => ⟨h, .nil⟩
  | e :: es, _, _, _, h, hk, hwhole => by
    obtain ⟨hagrees, hevents⟩ := applyAll_seen hp es (h.effect e) (hk.effect e) hwhole.right
    exact ⟨hagrees, List.rel_append (event_seen h hk hp hwhole.left) hevents⟩

/-- The scan of a piece against the scan of the same bytes inside the whole. -/
theorem scan_seen (A : Automaton σ ρ κ) {B n : Nat} : ∀ (bs : List UInt8) (p : Nat) (s : σ) {k : Marks ρ} {g g' : Regs ρ},
    p + bs.length = n → Agrees B p k g g' → k.Below (p + B + 1) →
    WholeIn B n (tokens recorded A bs (p + B) s g' k) →
    (scan A bs (p + B) s g').state = (scan A bs p s g).state ∧
      (scan A bs (p + B) s g').ending = (scan A bs p s g).ending ∧
      (scan A bs (p + B) s g').pos = (scan A bs p s g).pos + B ∧
      List.Forall₂ (Seen recorded B n) (scan A bs p s g).events (scan A bs (p + B) s g').events
  | [], _, _, _, _, _, _, _, _, _ => ⟨rfl, rfl, rfl, .nil⟩
  | b :: bs, p, s, k, g, g', hn, h, hk, hwhole => by
    rw [List.length_cons] at hn
    rw [tokens] at hwhole
    rw [scan, scan]
    cases hA : A s b with
    | none => exact ⟨rfl, rfl, rfl, .nil⟩
    | some r =>
      obtain ⟨s', es⟩ := r
      rw [hA] at hwhole
      obtain ⟨hagrees, hevents⟩ := applyAll_seen (by omega) es h hk hwhole.left
      by_cases hs : es.any isStop = true
      · simp only [hs, if_true]
        exact ⟨trivial, trivial, by omega, hevents⟩
      · have hrest := hwhole.right
        simp only [hs, Bool.false_eq_true, if_false] at hrest ⊢
        rw [show p + B + 1 = p + 1 + B by omega] at hrest ⊢
        obtain ⟨hstate, hend, hpos, hev⟩ := scan_seen A bs (p + 1) s' (by omega) (hagrees.mono (Nat.le_succ p))
          ((hk.all es).mono (by omega)) hrest
        exact ⟨hstate, hend, hpos, List.rel_append hevents hev⟩

end LjrServer.Lib.Scanner
