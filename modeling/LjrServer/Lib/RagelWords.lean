/-
  LjrServer.Lib.RagelWords — what a Ragel machine does as a function of the bytes it has read.

  `Final`, `Alive`, `Acts` and `Pending` say of a word whether some thread may end, can read
  a byte, executes an action on a byte, or has one pending. They are composed as the machine
  is (`acts_cat`, …), so a machine is followed through a text part by part. A part is
  `Delimited` in a text when it can end there, and where it could end before, the next part
  cannot begin.

  Proved:
  - `Delimited.acts_cat` and its like: a text of two parts is read by the first and then by
    the second; between them the first's pending actions are executed.
  - `step_acts`, `eof_acts`: while no priority is at play, the actions of a step are those of
    the word, by their time stamps, each once.
-/

import Mathlib.Logic.Basic
import LjrServer.Lib.RagelFacts

namespace LjrServer.Lib.Ragel

variable {α : Type}

namespace Machine

/-- Some thread after the word. -/
def After (P : Machine α → Prop) : Machine α → List UInt8 → Prop
  | m, [] => P m
  | m, b :: w => ∃ e ∈ m.edges b.toNat, After P e.next w

def Final (m : Machine α) (w : List UInt8) : Prop := m.After (fun n => n.nullable = true) w

def Alive (m : Machine α) (w : List UInt8) (b : UInt8) : Prop := m.After (fun n => n.edges b.toNat ≠ []) w

/-- An action executed on a byte after the word, with its time stamp. -/
def Acts (m : Machine α) (w : List UInt8) (b : UInt8) (z : Nat × α) : Prop :=
  m.After (fun n => ∃ e ∈ n.edges b.toNat, z ∈ e.acts) w

def Pending (m : Machine α) (w : List UInt8) (z : Nat × α) : Prop :=
  m.After (fun n => n.nullable = true ∧ z ∈ n.out) w

section
variable {P : Machine α → Prop} {m a b : Machine α} {w v : List UInt8} {c : UInt8} {z : Nat × α}

theorem final_nil : m.Final [] ↔ m.nullable = true := Iff.rfl

theorem alive_nil : m.Alive [] c ↔ m.edges c.toNat ≠ [] := Iff.rfl

theorem After.mono {Q : Machine α → Prop} (h : ∀ n, P n → Q n) :
    ∀ {m : Machine α} {w : List UInt8}, m.After P w → m.After Q w
  | _, [], hm => h _ hm
  | _, _ :: _, ⟨e, he, hw⟩ => ⟨e, he, hw.mono h⟩

theorem after_append : ∀ {m : Machine α} {w v : List UInt8}, m.After P (w ++ v) ↔ m.After (fun n => n.After P v) w
  | _, [], _ => Iff.rfl
  | _, _ :: _, _ => exists_congr fun _ => and_congr_right fun _ => after_append

theorem not_after (h : ∀ n, ¬ P n) : ∀ {m : Machine α} {w : List UInt8}, ¬ m.After P w
  | _, [], hm => h _ hm
  | _, _ :: _, ⟨_, _, hw⟩ => not_after h hw

theorem after_const {p : Prop} (h : ∀ n, P n → p) : ∀ {m : Machine α} {w : List UInt8}, m.After P w → p
  | _, [], hm => h _ hm
  | _, _ :: _, ⟨_, _, hw⟩ => after_const h hw

theorem after_and {Q : Machine α → Prop} {p : Prop} : m.After (fun n => Q n ∧ p) w ↔ m.After Q w ∧ p := by
  constructor
  · intro h
    exact ⟨h.mono fun _ hn => hn.1, after_const (fun _ hn => hn.2) h⟩
  · rintro ⟨h, hp⟩
    exact h.mono fun _ hn => ⟨hn, hp⟩

theorem after_or {Q R : Machine α → Prop} : ∀ {m : Machine α} {w : List UInt8},
    m.After (fun n => Q n ∨ R n) w ↔ m.After Q w ∨ m.After R w
  | _, [] => Iff.rfl
  | m, b :: w => by
    simp only [After, after_or, and_or_left, exists_or]

/-- Reading on. -/
theorem alive_of_after {u : List UInt8} (h : m.After P (w ++ c :: u)) : m.Alive w c := by
  rw [after_append] at h
  refine h.mono fun n hn => ?_
  obtain ⟨e, he, _⟩ := hn
  exact List.ne_nil_of_mem he

theorem Acts.alive (h : m.Acts w c z) : m.Alive w c :=
  After.mono (fun _ ⟨_, he, _⟩ => List.ne_nil_of_mem he) h

theorem Pending.final (h : m.Pending w z) : m.Final w := After.mono (fun _ hn => hn.1) h

/-! ## How the observations are composed -/

theorem after_seq (hP : ∀ b : Machine α, P b ↔ P (.cat .eps b)) : (seq a b).After P w ↔ (cat a b).After P w := by
  cases a with
  | eps =>
    cases w with
    | nil => exact hP b
    | cons c w => simp [seq, After, edges, nullable, out, Edge.act]
  | _ => rfl

/-- Within `a`, or in `b` after a word of `a`. -/
theorem after_cat (hP : ∀ b : Machine α, P b ↔ P (.cat .eps b)) : ∀ {a : Machine α} {w : List UInt8},
    (cat a b).After P w ↔ a.After (fun n => P (cat n b)) w ∨
      ∃ v c u, w = v ++ c :: u ∧ a.Final v ∧ b.After P (c :: u)
  | a, [] => by simp [After]
  | a, c :: w => by
    have hsplit : (cat a b).After P (c :: w) ↔ (∃ e ∈ a.edges c.toNat, (cat e.next b).After P w) ∨
        (a.nullable = true ∧ b.After P (c :: w)) := by
      simp only [After, edges, List.mem_append, List.mem_map, or_and_right, exists_or]
      refine or_congr ?_ ?_
      · constructor
        · rintro ⟨_, ⟨e, he, rfl⟩, hw⟩
          exact ⟨e, he, (after_seq hP).mp hw⟩
        · rintro ⟨e, he, hw⟩
          exact ⟨_, ⟨e, he, rfl⟩, (after_seq hP).mpr hw⟩
      · by_cases hn : a.nullable = true
        · simp only [hn, if_true, List.mem_map, exists_exists_and_eq_and, true_and]
          rfl
        · simp [hn]
    rw [hsplit]
    simp only [after_cat hP, and_or_left, exists_or, or_assoc]
    refine or_congr Iff.rfl ?_
    constructor
    · rintro (⟨e, he, v, d, u, rfl, hv, hu⟩ | ⟨hn, hb⟩)
      · exact ⟨c :: v, d, u, rfl, ⟨e, he, hv⟩, hu⟩
      · exact ⟨[], c, w, rfl, hn, hb⟩
    · rintro ⟨v, d, u, hw, hv, hu⟩
      cases v with
      | nil =>
        cases hw
        exact .inr ⟨hv, hu⟩
      | cons d' v =>
        cases hw
        obtain ⟨e, he, hv⟩ := hv
        exact .inl ⟨e, he, v, d, u, rfl, hv, hu⟩

theorem exists_mem_const {β : Type*} {es : List β} {p : Prop} : (∃ e, e ∈ es ∧ p) ↔ p ∧ es ≠ [] := by
  constructor
  · rintro ⟨e, he, hp⟩
    exact ⟨hp, List.ne_nil_of_mem he⟩
  · rintro ⟨hp, hne⟩
    obtain ⟨e, he⟩ := List.exists_mem_of_ne_nil _ hne
    exact ⟨e, he, hp⟩

/-- A split with nothing left is one at the end. -/
theorem split_last : (a.Final w ∧ b.After P []) ∨ (∃ v c u, w = v ++ c :: u ∧ a.Final v ∧ b.After P (c :: u)) ↔
    ∃ v u, w = v ++ u ∧ a.Final v ∧ b.After P u := by
  constructor
  · rintro (⟨ha, hb⟩ | ⟨v, c, u, rfl, ha, hb⟩)
    · exact ⟨w, [], (List.append_nil w).symm, ha, hb⟩
    · exact ⟨v, c :: u, rfl, ha, hb⟩
  · rintro ⟨v, u, rfl, ha, hb⟩
    cases u with
    | nil =>
      rw [List.append_nil]
      exact .inl ⟨ha, hb⟩
    | cons c u => exact .inr ⟨v, c, u, rfl, ha, hb⟩

theorem final_cat : (cat a b).Final w ↔ ∃ v u, w = v ++ u ∧ a.Final v ∧ b.Final u := by
  unfold Final
  rw [after_cat fun b => by simp [nullable]]
  simp only [nullable, Bool.and_eq_true, after_and]
  exact split_last (P := fun n => n.nullable = true)

theorem alive_cat : (cat a b).Alive w c ↔ a.Alive w c ∨ ∃ v u, w = v ++ u ∧ a.Final v ∧ b.Alive u c := by
  unfold Alive
  have hedges : ∀ n : Machine α, (cat n b).edges c.toNat ≠ [] ↔
      n.edges c.toNat ≠ [] ∨ (n.nullable = true ∧ b.edges c.toNat ≠ []) := by
    intro n
    by_cases hn : n.nullable = true
    · simp only [edges, hn, if_true, ne_eq, List.append_eq_nil_iff, List.map_eq_nil_iff, true_and]
      exact Decidable.not_and_iff_or_not
    · simp [edges, hn]
  rw [after_cat fun b => by simp [edges, nullable, out, Edge.act]]
  simp only [hedges, after_or, after_and, or_assoc]
  exact or_congr Iff.rfl (split_last (P := fun n => n.edges c.toNat ≠ []))

theorem acts_cat : (cat a b).Acts w c z ↔ a.Acts w c z ∨ (a.Pending w z ∧ b.Alive [] c) ∨
    ∃ v u, w = v ++ u ∧ a.Final v ∧ b.Acts u c z := by
  unfold Acts
  have hedges : ∀ n : Machine α, (∃ e ∈ (cat n b).edges c.toNat, z ∈ e.acts) ↔
      (∃ e ∈ n.edges c.toNat, z ∈ e.acts) ∨ ((n.nullable = true ∧ z ∈ n.out) ∧ b.edges c.toNat ≠ []) ∨
        (n.nullable = true ∧ ∃ e ∈ b.edges c.toNat, z ∈ e.acts) := by
    intro n
    have hinto : (∃ e ∈ (n.edges c.toNat).map (·.into (seq · b)), z ∈ e.acts) ↔ ∃ e ∈ n.edges c.toNat, z ∈ e.acts := by
      simp only [List.mem_map, exists_exists_and_eq_and]
      rfl
    by_cases hn : n.nullable = true
    · have hact : (∃ e ∈ (b.edges c.toNat).map (·.act n.out), z ∈ e.acts) ↔
          (z ∈ n.out ∧ b.edges c.toNat ≠ []) ∨ ∃ e ∈ b.edges c.toNat, z ∈ e.acts := by
        simp only [List.mem_map, exists_exists_and_eq_and, Edge.act, List.mem_append, and_or_left, exists_or]
        exact or_congr exists_mem_const Iff.rfl
      simp only [edges, hn, if_true, List.mem_append, or_and_right, exists_or, hinto, hact, true_and]
    · simp only [edges, hn, Bool.false_eq_true, if_false, List.append_nil, hinto, false_and, or_false]
  rw [after_cat fun b => by simp [edges, nullable, out, Edge.act]]
  simp only [hedges, after_or, after_and, or_assoc]
  exact or_congr Iff.rfl (or_congr Iff.rfl (split_last (P := fun n => ∃ e ∈ n.edges c.toNat, z ∈ e.acts)))

theorem pending_cat : (cat a b).Pending w z ↔ (a.Pending w z ∧ b.Final []) ∨
    ∃ v u, w = v ++ u ∧ a.Final v ∧ b.Pending u z := by
  unfold Pending
  have hout : ∀ n : Machine α, ((cat n b).nullable = true ∧ z ∈ (cat n b).out) ↔
      ((n.nullable = true ∧ z ∈ n.out) ∧ b.nullable = true) ∨
          (n.nullable = true ∧ (b.nullable = true ∧ z ∈ b.out)) := by
    intro n
    rw [nullable, out, Bool.and_eq_true, List.mem_append]
    grind
  rw [after_cat fun b => by simp [nullable, out]]
  simp only [hout, after_or, after_and, or_assoc]
  exact or_congr Iff.rfl (split_last (P := fun n => n.nullable = true ∧ z ∈ n.out))

theorem after_alt (hP : ∀ a b : Machine α, P (.alt a b) ↔ P a ∨ P b) :
    (alt a b).After P w ↔ a.After P w ∨ b.After P w := by
  cases w with
  | nil => exact hP a b
  | cons c w => simp only [After, edges, List.mem_append, or_and_right, exists_or]

theorem final_alt : (alt a b).Final w ↔ a.Final w ∨ b.Final w :=
  after_alt fun a b => by rw [nullable, Bool.or_eq_true]

theorem alive_alt : (alt a b).Alive w c ↔ a.Alive w c ∨ b.Alive w c :=
  after_alt fun a b => by
    rw [edges, ne_eq, List.append_eq_nil_iff]
    exact Decidable.not_and_iff_or_not

theorem acts_alt : (alt a b).Acts w c z ↔ a.Acts w c z ∨ b.Acts w c z :=
  after_alt fun a b => by simp only [edges, List.mem_append, or_and_right, exists_or]

theorem pending_alt : (alt a b).Pending w z ↔ a.Pending w z ∨ b.Pending w z :=
  after_alt fun a b => by
    rw [nullable, out, Bool.or_eq_true, List.mem_append]
    grind

/-! ### Embedded actions -/

variable {t : Nat} {x : α}

theorem after_entering (h : P (.entering t x m) ↔ P m) : (entering t x m).After P w ↔ m.After P w := by
  cases w with
  | nil => exact h
  | cons c w =>
    simp only [After, edges, List.mem_map, exists_exists_and_eq_and]
    rfl

theorem final_entering : (entering t x m).Final w ↔ m.Final w := after_entering Iff.rfl

theorem alive_entering : (entering t x m).Alive w c ↔ m.Alive w c :=
  after_entering (by simp [edges])

theorem acts_entering : (entering t x m).Acts w c z ↔ m.Acts w c z ∨ (w = [] ∧ z = (t, x) ∧ m.Alive [] c) := by
  cases w with
  | nil =>
    simp only [Acts, Alive, After, edges, List.mem_map, exists_exists_and_eq_and, Edge.act, List.mem_append,
      List.mem_singleton, and_or_left, exists_or, true_and]
    rw [or_comm]
    exact or_congr Iff.rfl exists_mem_const
  | cons d w =>
    simp only [Acts, After, edges, List.mem_map, exists_exists_and_eq_and, List.cons_ne_nil, false_and, or_false]
    rfl

theorem pending_entering : (entering t x m).Pending w z ↔ m.Pending w z ∨ (w = [] ∧ z = (t, x) ∧ m.Final []) := by
  cases w with
  | nil =>
    simp only [Pending, Final, After, nullable, out, List.mem_cons, true_and]
    grind
  | cons d w =>
    simp only [Pending, After, edges, List.mem_map, exists_exists_and_eq_and, List.cons_ne_nil, false_and, or_false]
    rfl

theorem after_leaving : ∀ {m : Machine α} {w : List UInt8},
    (leaving t x m).After P w ↔ m.After (fun n => P (.leaving t x n)) w
  | _, [] => Iff.rfl
  | m, c :: w => by
    simp only [After, edges, List.mem_map, exists_exists_and_eq_and]
    exact exists_congr fun e => and_congr_right fun _ => after_leaving

theorem final_leaving : (leaving t x m).Final w ↔ m.Final w := after_leaving

theorem alive_leaving : (leaving t x m).Alive w c ↔ m.Alive w c := by
  unfold Alive
  rw [after_leaving]
  simp only [edges, ne_eq, List.map_eq_nil_iff]

theorem acts_leaving : (leaving t x m).Acts w c z ↔ m.Acts w c z := by
  unfold Acts
  rw [after_leaving]
  simp only [edges, List.mem_map, exists_exists_and_eq_and]
  rfl

theorem pending_leaving : (leaving t x m).Pending w z ↔ m.Pending w z ∨ (m.Final w ∧ z = (t, x)) := by
  unfold Pending Final
  rw [after_leaving, ← after_and, ← after_or]
  simp only [nullable, out, List.mem_append, List.mem_singleton, and_or_left]

theorem after_finishing : ∀ {m : Machine α} {w : List UInt8},
    (finishing t x m).After P w ↔ m.After (fun n => P (.finishing t x n)) w
  | _, [] => Iff.rfl
  | m, c :: w => by
    simp only [After, edges, List.mem_map, exists_exists_and_eq_and]
    refine exists_congr fun e => and_congr_right fun _ => ?_
    rw [← after_finishing]
    split <;> rfl

theorem acts_finishing : (finishing t x m).Acts w c z ↔ m.Acts w c z ∨ (z = (t, x) ∧ m.Final (w ++ [c])) := by
  have hedges : ∀ n : Machine α, (∃ e ∈ (finishing t x n).edges c.toNat, z ∈ e.acts) ↔
      (∃ e ∈ n.edges c.toNat, z ∈ e.acts) ∨ (n.Final [c] ∧ z = (t, x)) := by
    intro n
    have hact : ∀ e : Edge α, z ∈ ((if e.next.nullable then e.act [(t, x)] else e).into (.finishing t x)).acts ↔
        z ∈ e.acts ∨ (e.next.nullable = true ∧ z = (t, x)) := by
      intro e
      by_cases hn : e.next.nullable = true
      · simp only [hn, if_true, Edge.into, Edge.act, List.singleton_append, List.mem_cons, true_and]
        exact or_comm
      · simp only [hn, if_false, Edge.into, Bool.false_eq_true, false_and, or_false]
    have hfinal : n.Final [c] ↔ ∃ e ∈ n.edges c.toNat, e.next.nullable = true := Iff.rfl
    rw [hfinal]
    constructor
    · rintro ⟨_, he, hz⟩
      obtain ⟨e, hen, rfl⟩ := List.mem_map.mp he
      exact ((hact e).mp hz).imp (⟨e, hen, ·⟩) fun h => ⟨⟨e, hen, h.1⟩, h.2⟩
    · rintro (⟨e, he, hz⟩ | ⟨⟨e, he, hn⟩, hz⟩)
      · exact ⟨_, List.mem_map_of_mem he, (hact e).mpr (.inl hz)⟩
      · exact ⟨_, List.mem_map_of_mem he, (hact e).mpr (.inr ⟨hn, hz⟩)⟩
  unfold Acts
  rw [after_finishing]
  simp only [hedges, after_or, after_and]
  rw [and_comm (a := z = (t, x))]
  exact or_congr Iff.rfl (and_congr after_append.symm Iff.rfl)

theorem alive_finishing : (finishing t x m).Alive w c ↔ m.Alive w c := by
  unfold Alive
  rw [after_finishing]
  simp only [edges, ne_eq, List.map_eq_nil_iff]

/-! ### Small machines -/

theorem final_eps : (eps : Machine α).Final w ↔ w = [] := by
  cases w <;> simp [Final, After, nullable, edges]

theorem not_alive_eps : ¬ (eps : Machine α).Alive w c := by
  cases w <;> simp [Alive, After, edges]

/-- A machine that begins with a character. -/
theorem after_cat_char {n : Nat} {d : UInt8} : (cat (char n) m).After P (d :: w) ↔ n = d.toNat ∧ m.After P w := by
  rw [After, cat_char_edges]
  by_cases h : n = d.toNat <;> simp [h]

theorem alive_cat_char {n : Nat} : (cat (char n) m).Alive [] c ↔ n = c.toNat := by
  unfold Alive After
  rw [cat_char_edges]
  by_cases h : n = c.toNat <;> simp [h]

theorem acts_cat_char {n : Nat} {d : UInt8} :
    (cat (char n) m).Acts (d :: w) c z ↔ n = d.toNat ∧ m.Acts w c z := after_cat_char

theorem not_acts_cat_char {n : Nat} : ¬ (cat (char n) m).Acts [] c z := by
  unfold Acts After
  rw [cat_char_edges]
  by_cases h : n = c.toNat <;> simp [h]

theorem not_final_cat_char {n : Nat} : ¬ (cat (char n) m).Final [] := by simp [Final, After, nullable, char]

theorem after_char {n : Nat} {d : UInt8} :
    (char n : Machine α).After P (d :: w) ↔ n = d.toNat ∧ (eps : Machine α).After P w := by
  rw [After, char_edges]
  by_cases h : n = d.toNat <;> simp [h]

theorem alive_char {n : Nat} : (char n : Machine α).Alive [] c ↔ n = c.toNat := by
  rw [alive_nil, char_edges]
  by_cases h : n = c.toNat <;> simp [h]

theorem not_final_char {n : Nat} : ¬ (char n : Machine α).Final [] := by simp [Final, After, nullable, char]

/-- Without embedded actions nothing is executed, and nothing is pending. -/
theorem not_acts (h : m.actions = []) : ¬ m.Acts w c z := by
  induction w generalizing m with
  | nil =>
    rintro ⟨e, he, hz⟩
    have hmem := edges_actions (x := z.2) he (.inl ⟨z.1, hz⟩)
    rw [h] at hmem
    cases hmem
  | cons d w ih =>
    rintro ⟨e, he, hw⟩
    refine ih (List.eq_nil_iff_forall_not_mem.mpr fun y hy => ?_) hw
    have hmem := edges_actions he (.inr hy)
    rw [h] at hmem
    cases hmem

theorem not_pending (h : m.actions = []) : ¬ m.Pending w z := by
  induction w generalizing m with
  | nil =>
    rintro ⟨_, hz⟩
    have hmem := out_actions (x := z.2) (t := z.1) hz
    rw [h] at hmem
    cases hmem
  | cons d w ih =>
    rintro ⟨e, he, hw⟩
    refine ih (List.eq_nil_iff_forall_not_mem.mpr fun y hy => ?_) hw
    have hmem := edges_actions he (.inr hy)
    rw [h] at hmem
    cases hmem

theorem not_after_of_avoids (h : m.avoids c.toNat = true) (hw : c ∈ w) : ¬ m.After P w := by
  induction w generalizing m with
  | nil => cases hw
  | cons d w ih =>
    rintro ⟨e, he, hn⟩
    rcases List.mem_cons.mp hw with rfl | hw
    · rw [edges_of_avoids h] at he
      cases he
    · exact ih (avoids_next h he) hw hn

theorem not_alive_of_avoids (h : m.avoids c.toNat = true) : ¬ m.Alive w c := by
  induction w generalizing m with
  | nil =>
    intro hne
    exact hne (edges_of_avoids h)
  | cons d w ih =>
    rintro ⟨e, he, hn⟩
    exact ih (avoids_next h he) hn

/-! ### Options -/

theorem final_opt : (opt m).Final w ↔ m.Final w ∨ w = [] := by rw [opt, final_alt, final_eps]

theorem alive_opt : (opt m).Alive w c ↔ m.Alive w c := by rw [opt, alive_alt, or_iff_left not_alive_eps]

theorem acts_opt : (opt m).Acts w c z ↔ m.Acts w c z := by
  rw [opt, acts_alt]
  exact or_iff_left fun h => not_alive_eps h.alive

theorem pending_opt : (opt m).Pending w z ↔ m.Pending w z := by
  rw [opt, pending_alt]
  refine or_iff_left ?_
  cases w <;> simp [Pending, After, out, edges]

theorem split_nil {R : List UInt8 → Prop} : (∃ v u, w = v ++ u ∧ v = [] ∧ R u) ↔ R w := by
  constructor
  · rintro ⟨_, u, rfl, rfl, hr⟩
    exact hr
  · exact fun hr => ⟨[], w, rfl, rfl, hr⟩

/-- An option in front: with it, or without. -/
theorem final_cat_opt : (cat (opt a) b).Final w ↔ (cat a b).Final w ∨ b.Final w := by
  simp only [final_cat, final_opt, or_and_right, and_or_left, exists_or, split_nil]

theorem acts_cat_opt : (cat (opt a) b).Acts w c z ↔ (cat a b).Acts w c z ∨ b.Acts w c z := by
  simp only [acts_cat, acts_opt, pending_opt, final_opt, or_and_right, and_or_left, exists_or, or_assoc, split_nil]

theorem pending_cat_opt : (cat (opt a) b).Pending w z ↔ (cat a b).Pending w z ∨ b.Pending w z := by
  simp only [pending_cat, pending_opt, final_opt, or_and_right, and_or_left, exists_or, or_assoc, split_nil]

/-! ### Repetition -/

/-- The words of a repetition, from those of what is repeated. -/
inductive Words (L : List UInt8 → Prop) : List UInt8 → Prop
  | nil : Words L []
  | append {v w : List UInt8} : L v → Words L w → Words L (v ++ w)

theorem final_star : (star m).Final w ↔ Words m.Final w := by
  have hcons : ∀ c w, (star m).Final (c :: w) ↔ ∃ v u, w = v ++ u ∧ m.Final (c :: v) ∧ (star m).Final u := by
    intro c w
    have hseq : ∀ n : Machine α, (seq n (star m)).Final w ↔ (cat n (star m)).Final w := fun n =>
      after_seq fun b => by simp [nullable]
    simp only [Final, After, edges, List.mem_map, exists_exists_and_eq_and]
    constructor
    · rintro ⟨e, he, hw⟩
      obtain ⟨v, u, rfl, hv, hu⟩ := final_cat.mp ((hseq _).mp hw)
      exact ⟨v, u, rfl, ⟨e, he, hv⟩, hu⟩
    · rintro ⟨v, u, rfl, ⟨e, he, hv⟩, hu⟩
      exact ⟨e, he, (hseq _).mpr (final_cat.mpr ⟨v, u, rfl, hv, hu⟩)⟩
  constructor
  · -- on the length: each piece takes a byte at least
    induction hn : w.length using Nat.strongRecOn generalizing w with
    | ind n ih =>
      cases w with
      | nil => exact fun _ => .nil
      | cons c w =>
        intro h
        obtain ⟨v, u, rfl, hv, hu⟩ := (hcons c w).mp h
        have hlen : u.length < n := by
          rw [← hn, List.length_cons, List.length_append]
          omega
        exact .append hv (ih u.length hlen rfl hu)
  · intro h
    induction h with
    | nil => rfl
    | @append v w hv _ ih =>
      cases v with
      | nil => exact ih
      | cons c v => exact (hcons c (v ++ w)).mpr ⟨v, w, rfl, hv, ih⟩

theorem alive_star : (star m).Alive [] c ↔ m.Alive [] c := by
  rw [alive_nil, alive_nil, edges, ne_eq, List.map_eq_nil_iff]

/-! ### A part that is marked and saved -/

variable {t' : Nat} {y : α}

theorem acts_saved (h : m.actions = []) :
    (leaving t' y (entering t x m)).Acts w c z ↔ w = [] ∧ z = (t, x) ∧ m.Alive [] c := by
  rw [acts_leaving, acts_entering, or_iff_right (not_acts h)]

theorem pending_saved (h : m.actions = []) : (leaving t' y (entering t x m)).Pending w z ↔
    (w = [] ∧ z = (t, x) ∧ m.Final []) ∨ (m.Final w ∧ z = (t', y)) := by
  rw [pending_leaving, pending_entering, or_iff_right (not_pending h), final_entering]

/-! ## Part by part -/

/-- The bytes a machine can begin with. -/
def Begins (D : UInt8 → Prop) (m : Machine α) : Prop := ∀ c, m.Alive [] c → D c

/-- The word may end the part, in front of a byte of `D`, and no part of it may. -/
structure Delimited (D : UInt8 → Prop) (m : Machine α) (w : List UInt8) : Prop where
  final : m.Final w
  solid : ∀ v c u, w = v ++ c :: u → m.Final v → ¬ D c
  closed : ∀ c, D c → ¬ m.Alive w c

variable {D : UInt8 → Prop}

theorem delimited_of_avoids (hm : ∀ c, D c → m.avoids c.toNat = true) (hf : m.Final w) : m.Delimited D w := by
  refine ⟨hf, ?_, fun c hc => not_alive_of_avoids (hm c hc)⟩
  intro v c u hw _ hc
  subst hw
  exact not_after_of_avoids (hm c hc) (List.mem_append_right _ List.mem_cons_self) hf

theorem Delimited.congr {n : Machine α} (h : m.Delimited D w) (hf : ∀ w, m.Final w ↔ n.Final w)
    (ha : ∀ w c, m.Alive w c ↔ n.Alive w c) : n.Delimited D w :=
  ⟨(hf w).mp h.final, fun v c u hw hv => h.solid v c u hw ((hf v).mpr hv), fun c hc hn =>
      h.closed c hc ((ha w c).mpr hn)⟩

theorem Delimited.saved (h : m.Delimited D w) : (leaving t' y (entering t x m)).Delimited D w :=
  h.congr (fun _ => by rw [final_leaving, final_entering]) fun _ _ => by rw [alive_leaving, alive_entering]

theorem Begins.head (hb : b.Begins D) (h : b.After P v) : ∀ c ∈ v.head?, D c := by
  cases v with
  | nil => intro c hc; cases hc
  | cons d u =>
    intro c hc
    cases hc
    exact hb d (alive_of_after (w := []) h)

/-- Nothing of the second part before the end of the first. -/
theorem Delimited.inside (h : a.Delimited D w) (hb : b.Begins D) {v u : List UInt8} (hw : w = v ++ c :: u) :
    ((cat a b).Acts v c z ↔ a.Acts v c z) := by
  rw [acts_cat]
  refine or_iff_left ?_
  rintro (⟨hp, hc⟩ | ⟨v₁, v₂, rfl, hf, hz⟩)
  · exact h.solid v c u hw hp.final (hb c hc)
  · cases v₂ with
    | nil =>
      rw [List.append_nil] at hw
      exact h.solid v₁ c u hw hf (hb c hz.alive)
    | cons d v₂ => exact h.solid v₁ d (v₂ ++ c :: u) (by rw [hw]; simp) hf (hb.head hz d rfl)

/-- There is one way to split a text. -/
theorem Delimited.split (h : a.Delimited D w) {x v u : List UInt8} (hx : ∀ c ∈ x.head?, D c) (hu : ∀ c ∈ u.head?, D c)
    (hv : a.Final v) (he : w ++ x = v ++ u) : v = w ∧ u = x := by
  rcases List.append_eq_append_iff.mp he with ⟨r, rfl, rfl⟩ | ⟨r, rfl, rfl⟩
  · cases r with
    | nil => simp
    | cons d r => exact absurd (alive_of_after hv) (h.closed d (hx d rfl))
  · cases r with
    | nil => simp
    | cons d r => exact absurd (hu d rfl) (h.solid v d r rfl hv)

theorem Delimited.not_after {u : List UInt8} (h : a.Delimited D w) (hu : ∀ c ∈ u.head?, D c) (hne : u ≠ []) :
    ¬ a.After P (w ++ u) := by
  cases u with
  | nil => exact absurd rfl hne
  | cons d u => exact fun ha => h.closed d (hu d rfl) (alive_of_after ha)

section
variable {u : List UInt8} (h : a.Delimited D w) (hb : b.Begins D) (hu : ∀ c ∈ u.head?, D c)
include h hb hu

theorem Delimited.final_cat : (cat a b).Final (w ++ u) ↔ b.Final u := by
  rw [Machine.final_cat]
  constructor
  · rintro ⟨v₁, v₂, he, hf, hv⟩
    obtain ⟨_, rfl⟩ := h.split hu (hb.head hv) hf he
    exact hv
  · exact fun hf => ⟨w, u, rfl, h.final, hf⟩

theorem Delimited.acts_cat (hc : u = [] → D c) :
    (cat a b).Acts (w ++ u) c z ↔ (u = [] ∧ a.Pending w z ∧ b.Alive [] c) ∨ b.Acts u c z := by
  rw [Machine.acts_cat]
  constructor
  · rintro (ha | ⟨hp, hc'⟩ | ⟨v₁, v₂, he, hf, hz⟩)
    · cases u with
      | nil =>
        rw [List.append_nil] at ha
        exact absurd ha.alive (h.closed c (hc rfl))
      | cons d u => exact absurd ha (h.not_after hu (List.cons_ne_nil _ _))
    · cases u with
      | nil =>
        rw [List.append_nil] at hp
        exact .inl ⟨rfl, hp, hc'⟩
      | cons d u => exact absurd hp (h.not_after hu (List.cons_ne_nil _ _))
    · obtain ⟨_, rfl⟩ := h.split hu (hb.head hz) hf he
      exact .inr hz
  · rintro (⟨rfl, hp, hc'⟩ | hz)
    · exact .inr (.inl ⟨by rwa [List.append_nil], hc'⟩)
    · exact .inr (.inr ⟨w, u, rfl, h.final, hz⟩)

theorem Delimited.pending_cat :
    (cat a b).Pending (w ++ u) z ↔ (u = [] ∧ a.Pending w z ∧ b.Final []) ∨ b.Pending u z := by
  rw [Machine.pending_cat]
  constructor
  · rintro (⟨hp, hf⟩ | ⟨v₁, v₂, he, hf, hz⟩)
    · cases u with
      | nil =>
        rw [List.append_nil] at hp
        exact .inl ⟨rfl, hp, hf⟩
      | cons d u => exact absurd hp (h.not_after hu (List.cons_ne_nil _ _))
    · obtain ⟨_, rfl⟩ := h.split hu (hb.head hz) hf he
      exact .inr hz
  · rintro (⟨rfl, hp, hf⟩ | hz)
    · exact .inl ⟨by rwa [List.append_nil], hf⟩
    · exact .inr ⟨w, u, rfl, h.final, hz⟩

end

end

/-! ## Threads -/

/-- Without priorities no transition drops another. -/
def prioFree : Machine α → Bool
  | .eps => true
  | .set _ => true
  | .cat a b => prioFree a && prioFree b
  | .alt a b => prioFree a && prioFree b
  | .star m => prioFree m
  | .entering _ _ m => prioFree m
  | .finishing _ _ m => prioFree m
  | .leaving _ _ m => prioFree m
  | .prioAll _ _ _ => false
  | .prioEnter _ _ _ => false
  | .prioFinish _ _ _ => false

theorem seq_prioFree {a b : Machine α} (ha : a.prioFree = true) (hb : b.prioFree = true) :
    (seq a b).prioFree = true := by
  cases a <;> simp_all [seq, prioFree]

theorem edges_prioFree {c : Nat} : ∀ {m : Machine α} {e : Edge α}, m.prioFree = true → e ∈ m.edges c →
    e.prios = [] ∧ e.next.prioFree = true
  | .eps, _, _, he => by cases he
  | .set s, e, _, he => by
    rw [edges] at he
    split at he
    · cases List.mem_singleton.mp he
      exact ⟨rfl, rfl⟩
    · cases he
  | .cat a b, e, h, he => by
    obtain ⟨ha, hb⟩ := Bool.and_eq_true_iff.mp h
    rcases List.mem_append.mp he with he | he
    · obtain ⟨e, hea, rfl⟩ := List.mem_map.mp he
      exact ⟨(edges_prioFree ha hea).1, seq_prioFree (edges_prioFree ha hea).2 hb⟩
    · split at he
      · obtain ⟨e, heb, rfl⟩ := List.mem_map.mp he
        exact edges_prioFree (e := e) hb heb
      · cases he
  | .alt a b, e, h, he => by
    obtain ⟨ha, hb⟩ := Bool.and_eq_true_iff.mp h
    rcases List.mem_append.mp he with he | he
    · exact edges_prioFree ha he
    · exact edges_prioFree hb he
  | .star m, e, h, he => by
    obtain ⟨e, hem, rfl⟩ := List.mem_map.mp he
    have hm : m.prioFree = true := h
    exact ⟨(edges_prioFree hm hem).1, seq_prioFree (edges_prioFree hm hem).2 h⟩
  | .entering _ _ m, e, h, he => by
    obtain ⟨e, hem, rfl⟩ := List.mem_map.mp he
    exact edges_prioFree (m := m) (e := e) h hem
  | .finishing t x m, e, h, he => by
    obtain ⟨f, hf, rfl⟩ := List.mem_map.mp he
    have ih := edges_prioFree (m := m) h hf
    split <;> exact ih
  | .leaving _ _ m, e, h, he => by
    obtain ⟨e, hem, rfl⟩ := List.mem_map.mp he
    exact edges_prioFree (m := m) (e := e) h hem
  | .prioAll _ _ _, _, h, _ => by cases h
  | .prioEnter _ _ _, _, h, _ => by cases h
  | .prioFinish _ _ _, _, h, _ => by cases h

end Machine

section
variable [DecidableEq α]

open Machine

/-- The threads after a word. -/
def reached (s : Threads α) (w : List UInt8) : Threads α := w.foldl (fun s b => (step s b.toNat).1) s

theorem reached_append (s : Threads α) (w v : List UInt8) : reached s (w ++ v) = reached (reached s w) v :=
  List.foldl_append

/-- The actions executed at the end of the input: those pending in a final state. -/
def eofActs (s : Threads α) : List α := firsts ((sortActs ((s.filter nullable).flatMap out)).map (·.2))

def accepts (m : Machine α) (w : List UInt8) : Bool := isFinal (reached [m] w)

variable {s : Threads α} {w : List UInt8} {c : UInt8}

/-- On the bytes of the word no transition has a priority, so none drops another. -/
def Unranked : Threads α → List UInt8 → Prop
  | _, [] => True
  | s, c :: w => (∀ m ∈ s, ∀ e ∈ m.edges c.toNat, e.prios = []) ∧ Unranked (step s c.toNat).1 w

omit [DecidableEq α] in
theorem survivors_unranked {c : Nat} (hs : ∀ m ∈ s, ∀ e ∈ m.edges c, e.prios = []) :
    survivors s c = s.flatMap fun m => m.edges c := by
  unfold survivors
  refine List.filter_eq_self.mpr ?_
  intro e _
  rw [Bool.not_eq_true', List.any_eq_false]
  intro f hf
  obtain ⟨m, hm, hfm⟩ := List.mem_flatMap.mp hf
  simp [Edge.beats, hs m hm f hfm]

theorem mem_step_unranked (hs : ∀ m ∈ s, ∀ e ∈ m.edges c.toNat, e.prios = []) {n : Machine α} :
    n ∈ (step s c.toNat).1 ↔ ∃ m ∈ s, ∃ e ∈ m.edges c.toNat, e.next = n := by
  unfold step
  rw [survivors_unranked hs]
  simp only [mem_firsts, List.mem_map, List.mem_flatMap]
  grind

theorem unranked_append {v : List UInt8} : Unranked s (w ++ v) ↔ Unranked s w ∧ Unranked (reached s w) v := by
  induction w generalizing s with
  | nil => exact ⟨fun h => ⟨trivial, h⟩, And.right⟩
  | cons c w ih =>
    rw [List.cons_append, Unranked, Unranked, ih, and_assoc]
    rfl

theorem unranked_of_prioFree (hs : ∀ m ∈ s, m.prioFree = true) : Unranked s w := by
  induction w generalizing s with
  | nil => trivial
  | cons c w ih =>
    have hedges : ∀ m ∈ s, ∀ e ∈ m.edges c.toNat, e.prios = [] := fun m hm e he => (edges_prioFree (hs m hm) he).1
    refine ⟨hedges, ih fun n hn => ?_⟩
    obtain ⟨m, hm, e, he, rfl⟩ := (mem_step_unranked hedges).mp hn
    exact (edges_prioFree (hs m hm) he).2

theorem reached_after {P : Machine α → Prop} (hs : Unranked s w) : (∃ n ∈ reached s w, P n) ↔ ∃ m ∈ s, m.After P w := by
  induction w generalizing s with
  | nil => rfl
  | cons c w ih =>
    have hcons : reached s (c :: w) = reached (step s c.toNat).1 w := rfl
    rw [hcons, ih hs.2]
    simp only [mem_step_unranked hs.1, After]
    grind

theorem accepts_iff {m : Machine α} (hm : m.prioFree = true) : accepts m w = true ↔ m.Final w := by
  unfold accepts isFinal
  rw [List.any_eq_true, reached_after (P := fun n => n.nullable = true)
    (unranked_of_prioFree (List.forall_mem_singleton.mpr hm))]
  simp [Final]

/-! ### Up to a separator -/

/-- `a c b` under a finishing action, where `a` avoids `c` and has no priorities. -/
def Separated (c t : Nat) (x : α) (b m : Machine α) : Prop :=
  ∃ a : Machine α, a.avoids c = true ∧ a.prioFree = true ∧
    (m = .finishing t x (.cat a (.cat (char c) b)) ∨ m = .finishing t x (.cat (char c) b))

variable {n t : Nat} {x : α} {b : Machine α}

omit [DecidableEq α] in
theorem Separated.edge {m : Machine α} {d : Nat} (h : Separated n t x b m) {e : Edge α} (he : e ∈ m.edges d) :
    e.prios = [] ∧ ((d ≠ n ∧ Separated n t x b e.next) ∨ (d = n ∧ e.next = .finishing t x b)) := by
  have hfinishing : ∀ m : Machine α, e ∈ (finishing t x m).edges d →
      ∃ f ∈ m.edges d, e.prios = f.prios ∧ e.next = .finishing t x f.next := by
    intro m he
    obtain ⟨f, hf, rfl⟩ := List.mem_map.mp he
    exact ⟨f, hf, by split <;> rfl, by split <;> rfl⟩
  obtain ⟨a, hav, hfree, rfl | rfl⟩ := h
  · obtain ⟨f, hf, hprios, hnext⟩ := hfinishing _ he
    rw [hprios, hnext]
    rcases List.mem_append.mp hf with hf | hf
    · obtain ⟨g, hg, rfl⟩ := List.mem_map.mp hf
      refine ⟨(edges_prioFree hfree hg).1, .inl ⟨?_, g.next, avoids_next hav hg, (edges_prioFree hfree hg).2, ?_⟩⟩
      · intro hd
        rw [hd, edges_of_avoids hav] at hg
        cases hg
      · exact (seq_cat_char g.next b n).2.imp (congrArg _) (congrArg _)
    · split at hf
      · obtain ⟨g, hg, rfl⟩ := List.mem_map.mp hf
        rw [cat_char_edges] at hg
        split at hg
        · rename_i hd
          cases List.mem_singleton.mp hg
          exact ⟨rfl, .inr ⟨hd.symm, rfl⟩⟩
        · cases hg
      · cases hf
  · obtain ⟨f, hf, hprios, hnext⟩ := hfinishing _ he
    rw [hprios, hnext]
    rw [cat_char_edges] at hf
    split at hf
    · rename_i hd
      cases List.mem_singleton.mp hf
      exact ⟨rfl, .inr ⟨hd.symm, rfl⟩⟩
    · cases hf

section
variable (hs : ∀ m ∈ s, Separated n t x b m) (hw : ∀ d ∈ w, d.toNat ≠ n)
include hs hw

theorem reached_separated : Unranked s w ∧ ∀ m ∈ reached s w, Separated n t x b m := by
  induction w generalizing s with
  | nil => exact ⟨trivial, hs⟩
  | cons d w ih =>
    have hedges : ∀ m ∈ s, ∀ e ∈ m.edges d.toNat, e.prios = [] := fun m hm e he => ((hs m hm).edge he).1
    have hnext : ∀ m ∈ (step s d.toNat).1, Separated n t x b m := by
      intro m' hm'
      obtain ⟨m, hm, e, he, rfl⟩ := mem_step_next hm'
      rcases ((hs m hm).edge he).2 with ⟨_, h⟩ | ⟨h, _⟩
      · exact h
      · exact absurd h (hw d List.mem_cons_self)
    obtain ⟨hrank, hreached⟩ := ih hnext fun c hc => hw c (List.mem_cons_of_mem _ hc)
    exact ⟨⟨hedges, hrank⟩, hreached⟩

theorem unranked_of_separated : Unranked s (w ++ [c]) := by
  obtain ⟨hrank, hreached⟩ := reached_separated hs hw
  exact unranked_append.mpr ⟨hrank, fun m hm e he => ((hreached m hm).edge he).1, trivial⟩

/-- The separator leaves what is behind it. -/
theorem step_separator (hne : (step (reached s w) n).1 ≠ []) : (step (reached s w) n).1 = [.finishing t x b] := by
  obtain ⟨_, hreached⟩ := reached_separated hs hw
  refine (firsts_all_eq ?_).resolve_left hne
  intro m' hm'
  obtain ⟨m, hm, e, he, rfl⟩ := mem_step_next (mem_firsts.mpr hm')
  rcases ((hreached m hm).edge he).2 with ⟨h, _⟩ | ⟨_, h⟩
  · exact absurd rfl h
  · exact h

end

/-! ### Action lists -/

omit [DecidableEq α] in
theorem sortActs_sorted (as : List (Nat × α)) : (sortActs as).Pairwise (·.1 ≤ ·.1) := by
  have hinsert : ∀ (a : Nat × α) (bs : List (Nat × α)), bs.Pairwise (·.1 ≤ ·.1) →
      (insertAct a bs).Pairwise (·.1 ≤ ·.1) := by
    intro a bs
    induction bs with
    | nil => exact fun _ => List.pairwise_singleton _ _
    | cons b bs ih =>
      intro h
      obtain ⟨hb, hbs⟩ := List.pairwise_cons.mp h
      rw [insertAct]
      split
      · rename_i hle
        have hab : a.1 ≤ b.1 := Nat.le_of_ble_eq_true hle
        refine List.pairwise_cons.mpr ⟨?_, h⟩
        intro d hd
        rcases List.mem_cons.mp hd with rfl | hd
        · exact hab
        · exact Nat.le_trans hab (hb d hd)
      · rename_i hle
        have hba : b.1 ≤ a.1 := by
          have hnot : ¬ a.1 ≤ b.1 := fun hab => hle (Nat.ble_eq.mpr hab)
          omega
        refine List.pairwise_cons.mpr ⟨?_, ih hbs⟩
        intro d hd
        rcases mem_insertAct.mp hd with rfl | hd
        · exact hba
        · exact hb d hd
  induction as with
  | nil => exact List.Pairwise.nil
  | cons a as ih => exact hinsert a _ ih

theorem firsts_twice {β : Type} [DecidableEq β] (b : β) (bs : List β) : firsts (b :: b :: bs) = firsts (b :: bs) := by
  simp [firsts, List.filter_filter]

/-- The list of some actions by their time stamps, once each, does not depend on how often they occur. -/
theorem firsts_of_sorted {as K : List (Nat × α)} (has : as.Pairwise (·.1 ≤ ·.1)) (hK : K.Pairwise (·.1 < ·.1))
    (h : ∀ z, z ∈ as ↔ z ∈ K) : firsts (as.map (·.2)) = firsts (K.map (·.2)) := by
  induction as generalizing K with
  | nil =>
    cases K with
    | nil => rfl
    | cons k K => cases (h k).mpr List.mem_cons_self
  | cons a as ih =>
    cases K with
    | nil => cases (h a).mp List.mem_cons_self
    | cons k K =>
      obtain ⟨ha, has'⟩ := List.pairwise_cons.mp has
      obtain ⟨hk, hK'⟩ := List.pairwise_cons.mp hK
      -- both begin with the least time stamp
      obtain rfl : a = k := by
        rcases List.mem_cons.mp ((h a).mp List.mem_cons_self) with hak | hak
        · exact hak
        · rcases List.mem_cons.mp ((h k).mpr List.mem_cons_self) with hka | hka
          · exact hka.symm
          · have h₁ := hk a hak
            have h₂ := ha k hka
            omega
      by_cases hmem : a ∈ as
      · cases as with
        | nil => cases hmem
        | cons a' as =>
          obtain rfl : a' = a := by
            rcases List.mem_cons.mp ((h a').mp (List.mem_cons_of_mem _ List.mem_cons_self)) with he | he
            · exact he
            · have h₁ := hk a' he
              rcases List.mem_cons.mp hmem with hm | hm
              · exact hm.symm
              · have h₂ := (List.pairwise_cons.mp has').1 a hm
                omega
          rw [List.map_cons, List.map_cons, firsts_twice, ← List.map_cons]
          refine ih has' hK fun z => ?_
          rw [← h z, List.mem_cons (a := z) (b := a') (l := a' :: as)]
          exact ⟨.inr, fun hz => hz.elim (fun hz => hz ▸ List.mem_cons_self) id⟩
      · have hrest : ∀ z, z ∈ as ↔ z ∈ K := by
          intro z
          have hz := h z
          rw [List.mem_cons, List.mem_cons] at hz
          by_cases hza : z = a
          · subst hza
            have hnot : z ∉ K := fun hzK => Nat.lt_irrefl _ (hk z hzK)
            exact iff_of_false hmem hnot
          · simpa [hza] using hz
        rw [List.map_cons, List.map_cons, firsts, firsts, ih has' hK' hrest]

/-- What a step executes, from what the word and the byte allow. -/
theorem step_acts (hs : Unranked s (w ++ [c])) {K : List (Nat × α)} (hK : K.Pairwise (·.1 < ·.1))
    (h : ∀ z, (∃ m ∈ s, m.Acts w c z) ↔ z ∈ K) : (step (reached s w) c.toNat).2 = firsts (K.map (·.2)) := by
  obtain ⟨hword, hbyte, _⟩ := unranked_append.mp hs
  unfold step
  rw [survivors_unranked hbyte]
  refine firsts_of_sorted (sortActs_sorted _) hK fun z => ?_
  rw [mem_sortActs, ← h z]
  unfold Acts
  rw [← reached_after hword]
  simp only [List.mem_flatMap]
  grind

theorem eof_acts (hs : Unranked s w) {K : List (Nat × α)} (hK : K.Pairwise (·.1 < ·.1))
    (h : ∀ z, (∃ m ∈ s, m.Pending w z) ↔ z ∈ K) : eofActs (reached s w) = firsts (K.map (·.2)) := by
  unfold eofActs
  refine firsts_of_sorted (sortActs_sorted _) hK fun z => ?_
  rw [mem_sortActs, ← h z]
  unfold Pending
  rw [← reached_after hs]
  simp only [List.mem_flatMap, List.mem_filter]
  grind

theorem step_alive (hs : Unranked s (w ++ [c])) : (step (reached s w) c.toNat).1 ≠ [] ↔ ∃ m ∈ s, m.Alive w c := by
  obtain ⟨hword, hbyte, _⟩ := unranked_append.mp hs
  unfold Alive
  rw [← reached_after hword]
  constructor
  · intro hne
    obtain ⟨n, hn⟩ := List.exists_mem_of_ne_nil _ hne
    obtain ⟨m, hm, e, he, _⟩ := (mem_step_unranked hbyte).mp hn
    exact ⟨m, hm, List.ne_nil_of_mem he⟩
  · rintro ⟨m, hm, hne⟩
    obtain ⟨e, he⟩ := List.exists_mem_of_ne_nil _ hne
    exact List.ne_nil_of_mem ((mem_step_unranked hbyte).mpr ⟨m, hm, e, he, rfl⟩)

end

end LjrServer.Lib.Ragel
