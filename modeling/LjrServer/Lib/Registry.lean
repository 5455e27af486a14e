/-
  LjrServer.Lib.Registry — handlers waiting under keys: what becomes of each one.

  A `Change` accepts a handler under a free key, drops the one under a key, or fires the
  ones under some keys. A handler stays under its key until a change clears the key, so
  nobody else's is ever fired in its place.

  Proved:
  - `Run.fate`: in any run, from a handler's acceptance to the next acceptance under its
    key, the key fires that handler exactly once if a firing cleared it and nothing at all
    if a drop did.
-/

namespace LjrServer.Lib

variable {κ η : Type} [DecidableEq κ]

abbrev Registry (κ η : Type) := κ → Option η

namespace Registry

inductive Change (κ η : Type) where
  | accept (k : κ) (h : η)
  | drop (ks : List κ)
  | fire (ks : List κ)

def Change.isDrop : Change κ η → Bool
  | .drop _ => true
  | _ => false

def Change.Clears (k : κ) : Change κ η → Prop
  | .accept _ _ => False
  | .drop ks => k ∈ ks
  | .fire ks => k ∈ ks

def Change.Accepts (k : κ) : Change κ η → Prop
  | .accept j _ => j = k
  | _ => False

/-- A change and the handlers it fired, each with its key. -/
structure Move (κ η : Type) where
  change : Change κ η
  fired : List (κ × η)

/-- The handlers a move fired under `k`. -/
def Move.firedAt (m : Move κ η) (k : κ) : List η := (m.fired.filter fun p => p.1 = k).map (·.2)

/-- The entries of some keys, with their keys. -/
def entries (r : Registry κ η) (ks : List κ) : List (κ × η) := ks.filterMap fun k => (r k).map (k, ·)

/-- What is left when some keys are cleared. -/
def without (r : Registry κ η) (ks : List κ) : Registry κ η := fun j => if j ∈ ks then none else r j

inductive Step : Registry κ η → Move κ η → Registry κ η → Prop
  | accept {r : Registry κ η} {k : κ} (h : η) : r k = none →
      Step r ⟨.accept k h, []⟩ (fun j => if j = k then some h else r j)
  | drop (r : Registry κ η) (ks : List κ) : Step r ⟨.drop ks, []⟩ (without r ks)
  | fire (r : Registry κ η) {ks : List κ} : ks.Nodup → Step r ⟨.fire ks, entries r ks⟩ (without r ks)

inductive Run : Registry κ η → List (Move κ η) → Registry κ η → Prop
  | nil (r : Registry κ η) : Run r [] r
  | cons {r r' r'' : Registry κ η} {m : Move κ η} {ms : List (Move κ η)} : Step r m r' → Run r' ms r'' →
      Run r (m :: ms) r''

theorem Run.split : ∀ {ms ms' : List (Move κ η)} {r r'' : Registry κ η}, Run r (ms ++ ms') r'' →
    ∃ r', Run r ms r' ∧ Run r' ms' r''
  | [], _, r, _, h => ⟨r, .nil r, h⟩
  | _ :: _, _, _, _, .cons hs hr =>
    let ⟨r', h, h'⟩ := hr.split
    ⟨r', .cons hs h, h'⟩

theorem Run.inv {r r'' : Registry κ η} {m : Move κ η} {ms : List (Move κ η)} (h : Run r (m :: ms) r'') :
    ∃ r', Step r m r' ∧ Run r' ms r'' := by
  cases h with
  | cons hs hr => exact ⟨_, hs, hr⟩

omit [DecidableEq κ] in
theorem entries_handlers (r : Registry κ η) (ks : List κ) : (entries r ks).map (·.2) = ks.filterMap r := by
  unfold entries
  rw [List.map_filterMap]
  congr 1
  funext k
  rw [Option.map_map]
  exact Option.map_id'

theorem entries_other (r : Registry κ η) {ks : List κ} {k : κ} (hk : k ∉ ks) :
    (entries r ks).filter (fun p => p.1 = k) = [] := by
  rw [List.filter_eq_nil_iff]
  intro p hp
  obtain ⟨j, hj, hpj⟩ := List.mem_filterMap.mp hp
  obtain ⟨_, _, rfl⟩ := Option.map_eq_some_iff.mp hpj
  simp only [decide_eq_true_eq]
  exact fun e => hk (e ▸ hj)

/-- Among distinct keys, a key's entry is found once. -/
theorem entries_once {r : Registry κ η} {ks : List κ} (hn : ks.Nodup) {k : κ} {h : η} (hr : r k = some h) (hk : k ∈ ks) :
    (entries r ks).filter (fun p => p.1 = k) = [(k, h)] := by
  induction ks with
  | nil => cases hk
  | cons j ks ih =>
    obtain ⟨hj, hn'⟩ := List.nodup_cons.mp hn
    by_cases e : j = k
    · subst e
      have hrest := entries_other r hj
      simp only [entries] at hrest ⊢
      simp [hr, hrest]
    · have hk' : k ∈ ks := (List.mem_cons.mp hk).resolve_left (Ne.symm e)
      have ih := ih hn' hk'
      simp only [entries] at ih ⊢
      rw [List.filterMap_cons]
      cases r j with
      | none => exact ih
      | some x =>
        simp only [Option.map_some, List.filter_cons, e, decide_false, Bool.false_eq_true, if_false]
        exact ih

/-- A key a move does not clear keeps its handler, and nothing is fired under it. -/
theorem Step.keeps {r r' : Registry κ η} {m : Move κ η} {k : κ} {h : η} (hs : Step r m r') (hk : r k = some h)
    (hc : ¬ m.change.Clears k) : r' k = some h ∧ m.firedAt k = [] := by
  cases hs with
  | @accept j h' hfree =>
    have hne : k ≠ j := by
      intro e
      rw [e, hfree] at hk
      cases hk
    exact ⟨by simp only [if_neg hne]; exact hk, rfl⟩
  | drop ks =>
    have hnk : k ∉ ks := hc
    exact ⟨by simp only [without, if_neg hnk]; exact hk, rfl⟩
  | @fire ks _ =>
    have hnk : k ∉ ks := hc
    refine ⟨by simp only [without, if_neg hnk]; exact hk, ?_⟩
    rw [Move.firedAt, entries_other r hnk, List.map_nil]

/-- What a move that clears a key fires under it. -/
theorem Step.clears {r r' : Registry κ η} {m : Move κ η} {k : κ} {h : η} (hs : Step r m r') (hk : r k = some h)
    (hc : m.change.Clears k) : m.firedAt k = if m.change.isDrop then [] else [h] := by
  cases hs with
  | accept h' _ => cases hc
  | drop _ => rfl
  | fire hn =>
    rw [Move.firedAt, entries_once hn hk hc]
    rfl

theorem Run.keeps {k : κ} {h : η} : ∀ {ms : List (Move κ η)} {r r' : Registry κ η}, Run r ms r' → r k = some h →
    (∀ m ∈ ms, ¬ m.change.Clears k) → r' k = some h ∧ ∀ m ∈ ms, m.firedAt k = []
  | [], _, _, .nil _, hk, _ => ⟨hk, by simp⟩
  | m :: ms, _, _, .cons hs hr, hk, hc => by
    obtain ⟨hm, hms⟩ := List.forall_mem_cons.mp hc
    obtain ⟨hk', hf⟩ := hs.keeps hk hm
    obtain ⟨hk'', hfs⟩ := hr.keeps hk' hms
    exact ⟨hk'', List.forall_mem_cons.mpr ⟨hf, hfs⟩⟩

/-- Nothing is fired under a free key, and it stays free until it is accepted under. -/
theorem Step.free {r r' : Registry κ η} {m : Move κ η} {k : κ} (hs : Step r m r') (hk : r k = none)
    (ha : ¬ m.change.Accepts k) : r' k = none ∧ m.firedAt k = [] := by
  cases hs with
  | @accept j h _ =>
    have hne : k ≠ j := fun e => ha e.symm
    exact ⟨by simp only [if_neg hne]; exact hk, rfl⟩
  | drop ks => exact ⟨by simp only [without, hk, ite_self], rfl⟩
  | @fire ks _ =>
    refine ⟨by simp only [without, hk, ite_self], ?_⟩
    rw [Move.firedAt, List.filter_eq_nil_iff.mpr, List.map_nil]
    intro p hp
    obtain ⟨j, _, hpj⟩ := List.mem_filterMap.mp hp
    obtain ⟨x, hx, rfl⟩ := Option.map_eq_some_iff.mp hpj
    simp only [decide_eq_true_eq]
    intro e
    rw [show j = k from e, hk] at hx
    cases hx

/-- A handler that is held under one key at most, in a move that does not accept it. -/
theorem Step.held [DecidableEq η] {r r' : Registry κ η} {m : Move κ η} {k : κ} {h : η} (hs : Step r m r')
    (hnew : ∀ j, m.change ≠ .accept j h) (honly : ∀ j, r j = some h → j = k) :
    (∀ j, r' j = some h → r j = some h ∧ h ∉ m.fired.map (·.2)) ∧ (m.fired.map (·.2)).count h ≤ 1 ∧
      (h ∈ m.fired.map (·.2) → r k = some h) := by
  cases hs with
  | @accept k' h' hfree =>
    refine ⟨?_, Nat.zero_le _, fun hin => (nomatch hin)⟩
    intro j hj
    dsimp only at hj
    split at hj
    · cases hj
      exact absurd rfl (hnew k')
    · exact ⟨hj, fun hin => (nomatch hin)⟩
  | drop ks =>
    refine ⟨?_, Nat.zero_le _, fun hin => (nomatch hin)⟩
    intro j hj
    unfold without at hj
    split at hj
    · cases hj
    · exact ⟨hj, fun hin => (nomatch hin)⟩
  | @fire ks hn =>
    rw [entries_handlers]
    have hfired : h ∈ ks.filterMap r → k ∈ ks ∧ r k = some h := by
      intro hin
      obtain ⟨j, hj, hr⟩ := List.mem_filterMap.mp hin
      exact honly j hr ▸ ⟨hj, hr⟩
    refine ⟨?_, ?_, fun hin => (hfired hin).2⟩
    · intro j hj
      unfold without at hj
      split at hj
      · cases hj
      · rename_i hnot
        exact ⟨hj, fun hin => hnot (honly j hj ▸ (hfired hin).1)⟩
    · rw [List.count_filterMap]
      refine Nat.le_trans (List.countP_mono_left ?_) (List.nodup_iff_count.mp hn k)
      intro j _ hj
      exact beq_iff_eq.mpr (honly j (eq_of_beq hj))

theorem Run.free {k : κ} : ∀ {ms : List (Move κ η)} {r r' : Registry κ η}, Run r ms r' → r k = none →
    (∀ m ∈ ms, ¬ m.change.Accepts k) → ∀ m ∈ ms, m.firedAt k = []
  | [], _, _, .nil _, _, _ => by simp
  | m :: ms, _, _, .cons hs hr, hk, ha => by
    obtain ⟨hm, hms⟩ := List.forall_mem_cons.mp ha
    obtain ⟨hk', hf⟩ := hs.free hk hm
    exact List.forall_mem_cons.mpr ⟨hf, hr.free hk' hms⟩

theorem quiet {k : κ} {ms : List (Move κ η)} (h : ∀ m ∈ ms, m.firedAt k = []) : ms.flatMap (·.firedAt k) = [] :=
  List.flatMap_eq_nil_iff.mpr h

/-- What a key fires from a handler's acceptance, through the move that clears it, to the
    next acceptance. -/
theorem Run.fate {k : κ} {h : η} {r r' : Registry κ η} {pre mid rest post : List (Move κ η)} {a c : Move κ η}
    (hr : Run r (pre ++ a :: (mid ++ c :: (rest ++ post))) r') (ha : a.change = .accept k h)
    (hmid : ∀ m ∈ mid, ¬ m.change.Clears k) (hc : c.change.Clears k) (hrest : ∀ m ∈ rest, ¬ m.change.Accepts k) :
    (a :: (mid ++ c :: rest)).flatMap (·.firedAt k) = if c.change.isDrop then [] else [h] := by
  obtain ⟨r₁, _, h₁⟩ := hr.split
  obtain ⟨r₂, hstep, h₂⟩ := h₁.inv
  obtain ⟨hk, hfa⟩ : r₂ k = some h ∧ a.firedAt k = [] := by
    cases hstep with
    | accept h' _ =>
      cases ha
      exact ⟨if_pos rfl, rfl⟩
    | _ => cases ha
  obtain ⟨r₃, hm, h₃⟩ := h₂.split
  obtain ⟨r₄, hlast, h₄⟩ := h₃.inv
  obtain ⟨r₅, hfree, _⟩ := h₄.split
  obtain ⟨hk₃, hquiet⟩ := hm.keeps hk hmid
  have hk₄ : r₄ k = none := by
    cases hlast with
    | accept h' _ => cases hc
    | drop ks => exact if_pos hc
    | fire _ => exact if_pos hc
  rw [List.flatMap_cons, List.flatMap_append, List.flatMap_cons, hfa, quiet hquiet, quiet (hfree.free hk₄ hrest),
    List.nil_append, List.nil_append, List.append_nil]
  exact hlast.clears hk₃ hc

end Registry

end LjrServer.Lib
