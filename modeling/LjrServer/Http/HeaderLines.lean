/-
  LjrServer.Http.HeaderLines — what a call of the request parser makes of header lines.

  `Takes` is a part of a call: the bytes it reads, and what the machine, the registers and
  the request are before and after. Parts are composed by `Takes.append`. The states between
  the pieces of a line are eight, and what they do on a byte is settled by evaluation.

  Proved:
  - `takes_field`, `takes_ownField`: a header line puts its field, an empty value included.
  - `takes_fields`: the lines of a map put one after the other.
-/

import LjrServer.Http.RequestHeader
import LjrServer.Http.RequestLine

namespace LjrServer.Http.Http11

open LjrServer.Lib LjrServer.Lib.Scanner LjrServer.Lib.Ragel

/-! ## Parts of a call -/

structure Progress where
  state : State
  regs : Regs Reg
  data : HttpRequest × Nat

/-- In the buffer `R`, with the bytes `w` read, the call reads `x` and goes on. -/
def Takes (R w x : Bytes) (a b : Progress) : Prop :=
  ∃ es, scan automaton x w.length a.state a.regs = ⟨b.state, b.regs, (w ++ x).length, .more, es⟩ ∧
    HttpRequestParser.callbacks R es a.data = some b.data

section
variable {R w x y : Bytes} {a b c : Progress} {s : State} {g : Regs Reg} {d : HttpRequest × Nat}

theorem callbacks_append {es fs : List (Event Callback)} {q r : HttpRequest × Nat}
    (h : HttpRequestParser.callbacks R es q = some r) :
    HttpRequestParser.callbacks R (es ++ fs) q = HttpRequestParser.callbacks R fs r := by
  induction es generalizing q with
  | nil =>
    cases h
    rfl
  | cons e es ih =>
    obtain ⟨q', he, h⟩ := Option.bind_eq_some_iff.mp h
    rw [List.cons_append, HttpRequestParser.callbacks, he]
    exact ih h

theorem Takes.nil : Takes R w [] a a := ⟨[], by simp [scan], rfl⟩

theorem Takes.append (hab : Takes R w x a b) (hbc : Takes R (w ++ x) y b c) : Takes R w (x ++ y) a c := by
  obtain ⟨es, hscan, hdata⟩ := hab
  obtain ⟨fs, hscan', hdata'⟩ := hbc
  refine ⟨es ++ fs, ?_, (callbacks_append hdata).trans hdata'⟩
  rw [scan_append automaton y x w.length a.state a.regs (by rw [hscan]), hscan, ← List.length_append]
  dsimp only
  rw [hscan', Scan.prepend, List.append_assoc]

/-- One byte, whose actions do not end the call. -/
theorem takes_byte {n : UInt8} {s' : State} {l : List Action} {d' : HttpRequest × Nat}
    (hstep : step s n.toNat = (s', l)) (hne : s' ≠ []) (hgo : Action.done ∉ l)
    (hdata : HttpRequestParser.callbacks R (applyAll w.length g (l.flatMap Action.effects)).2 d = some d') :
    Takes R w [n] ⟨s, g, d⟩ ⟨s', (applyAll w.length g (l.flatMap Action.effects)).1, d'⟩ := by
  have hA : automaton s n = some (s', l.flatMap Action.effects) := by
    simp only [automaton, Ragel.automaton, hstep, if_neg hne]
  have hstop : (l.flatMap Action.effects).any isStop = false := by
    rw [List.any_eq_false]
    intro e he
    obtain ⟨x, hx, he⟩ := List.mem_flatMap.mp he
    cases x with
    | done => exact absurd hx hgo
    | _ => simp_all [Action.effects, isStop]
  refine ⟨_, ?_, hdata⟩
  rw [scan, hA]
  simp [hstop, scan, Scan.prepend]

/-- No byte of the text executes an action. -/
def quiet : State → Bytes → Bool
  | _, [] => true
  | s, n :: x => (step s n.toNat).1 ≠ [] && (step s n.toNat).2 = [] && quiet (step s n.toNat).1 x

theorem quiet_cons {n : UInt8} {s' : State} (hstep : step s n.toNat = (s', [])) (hne : s' ≠ []) (h : quiet s' x = true) :
    quiet s (n :: x) = true := by
  simp [quiet, hstep, hne, h]

theorem quiet_of_steps {s : State} {x : Bytes} (h : ∀ v n u, x = v ++ n :: u →
    (step (reached s v) n.toNat).1 ≠ [] ∧ (step (reached s v) n.toNat).2 = []) : quiet s x = true := by
  induction x generalizing s with
  | nil => rfl
  | cons n x ih =>
    have hfirst := h [] n x rfl
    have hrest := ih fun v m u hx => h (n :: v) m u (by rw [hx, List.cons_append])
    have hstep : (step s n.toNat).1 ≠ [] ∧ (step s n.toNat).2 = [] := hfirst
    simp [quiet, hstep, hrest]

theorem takes_quiet (h : quiet s x = true) : Takes R w x ⟨s, g, d⟩ ⟨reached s x, g, d⟩ := by
  induction x generalizing s w with
  | nil => exact Takes.nil
  | cons n x ih =>
    simp only [quiet, Bool.and_eq_true, decide_eq_true_eq, ne_eq] at h
    obtain ⟨⟨hne, hacts⟩, hrest⟩ := h
    have hfirst : Takes R w [n] ⟨s, g, d⟩ ⟨(step s n.toNat).1, g, d⟩ :=
      takes_byte (l := []) (Prod.ext rfl hacts) hne List.not_mem_nil rfl
    exact hfirst.append (ih hrest)

def savedAt (g : Regs Reg) (r : Reg) (p : Nat) : Regs Reg := { g with off := Scanner.set g.off r p }

/-- The first byte saves its offset. -/
theorem takes_saved {n : UInt8} {s' : State} {act : Action} {r : Reg} (hstep : step s n.toNat = (s', [act])) (hne : s' ≠ [])
    (hact : act.effects = [.save r]) (h : quiet s' x = true) :
    Takes R w (n :: x) ⟨s, g, d⟩ ⟨reached s' x, savedAt g r w.length, d⟩ := by
  have hdone : Action.done ∉ [act] := by
    intro hmem
    rw [← List.mem_singleton.mp hmem] at hact
    cases hact
  have hfirst : Takes R w [n] ⟨s, g, d⟩ ⟨s', savedAt g r w.length, d⟩ := by
    have hdata : HttpRequestParser.callbacks R (applyAll w.length g ([act].flatMap Action.effects)).2 d = some d := by
      simp [hact, applyAll, Effect.events, HttpRequestParser.callbacks]
    simpa [hact, applyAll, Effect.regs, savedAt] using takes_byte hstep hne hdone hdata
  exact hfirst.append (takes_quiet h)

/-- A token that ends where it is handed out. -/
theorem stringAt_token {r : Bytes} (hR : R = w ++ (x ++ r)) (h64 : R.length < 2 ^ 64) :
    stringAt R ⟨w.length, distance (w ++ x).length w.length⟩ = some x := by
  have hlen : R.length = w.length + (x.length + r.length) := by rw [hR, List.length_append, List.length_append]
  have hdist : distance (w ++ x).length w.length = x.length := by
    rw [distance_eq (by rw [List.length_append]; omega), List.length_append]
    omega
  have hin : w.length + x.length ≤ R.length := by omega
  rw [stringAt, hdist, if_pos hin, slice, hR, List.drop_left, List.take_left]

end

/-! ## The states of a line -/

/-- Behind `HTTP/1.1` and its line end. -/
def lineStart : State := reached afterUri (HTTP_1_1 ++ [13, 10])
def inName : State := (step lineStart 97).1
def afterColon : State := (step inName 58).1
def afterBlank : State := (step afterColon 32).1
def inValue : State := (step afterColon 97).1
def inBlanks : State := (step inValue 32).1
def atReturn : State := (step inValue 13).1
/-- The line end behind the last header. -/
def lastReturn : State := (step lineStart 13).1

/-- The bytes of a name: visible, and no separators. -/
def nameSet : CharSet := { incl := [(33, 126)], excl := HTTP_separator }

def visibleSet : CharSet := { incl := [(33, 126)] }

def lineStates : List State := [lineStart, inName, afterColon, afterBlank, inValue, inBlanks]

def nameStep (s : State) (c : Nat) : Bool :=
  !nameSet.mem c || (s ≠ lineStart || step s c = (inName, [.startField])) && (s ≠ inName || step s c = (inName, []))

def visibleStep (s : State) (c : Nat) : Bool :=
  !visibleSet.mem c || (s ≠ afterColon && s ≠ afterBlank || step s c = (inValue, [.startValue])) &&
    (s ≠ inValue && s ≠ inBlanks || step s c = (inValue, []))

def lineKinds : List Nat := ['a', '"', '\x00', '\x01', '\r', '\n', ':', ' ', '\t', '\x7f'].map Char.toNat ++ [200]

theorem line_evaluated : represented (nameSet :: visibleSet :: charSets lineStates) lineKinds = true ∧
    (lineStates.all fun s => lineKinds.all (nameStep s)) = true ∧
    (lineStates.all fun s => lineKinds.all (visibleStep s)) = true := by
  decide +kernel

theorem lineStates_checked {ok : State → Nat → Bool}
    (hok : ∀ s c d, nameSet.mem c = nameSet.mem d → visibleSet.mem c = visibleSet.mem d → step s c = step s d →
      ok s c = ok s d)
    (h : (lineStates.all fun s => lineKinds.all (ok s)) = true) : checked lineStates ok = true := by
  refine checked_of_kinds line_evaluated.1 ?_ h
  intro s hs c d hcd
  have hsets : ∀ x ∈ charSets lineStates, x.mem c = x.mem d := fun x hx =>
    hcd x (List.mem_cons_of_mem _ (List.mem_cons_of_mem _ hx))
  exact hok s c d (hcd _ List.mem_cons_self) (hcd _ (List.mem_cons_of_mem _ List.mem_cons_self)) (step_of_charSets hs hsets)

theorem name_step {b : UInt8} (hb : nameSet.mem b.toNat = true) :
    step lineStart b.toNat = (inName, [.startField]) ∧ step inName b.toNat = (inName, []) := by
  have hchecked : checked lineStates nameStep = true := by
    refine lineStates_checked (fun s c d hname _ hstep => ?_) line_evaluated.2.1
    rw [nameStep, nameStep, hname, hstep]
  have hat := fun s hs => checked_at (s := s) hchecked hs b
  simp only [nameStep, hb, Bool.not_true, Bool.false_or, Bool.and_eq_true, Bool.or_eq_true, decide_eq_true_eq] at hat
  exact ⟨(hat lineStart (by simp [lineStates])).1.resolve_left fun h => h rfl,
    (hat inName (by simp [lineStates])).2.resolve_left fun h => h rfl⟩

theorem visible_step {b : UInt8} (hb : visibleSet.mem b.toNat = true) {s : State} :
    (s = afterColon ∨ s = afterBlank → step s b.toNat = (inValue, [.startValue])) ∧
      (s = inValue ∨ s = inBlanks → step s b.toNat = (inValue, [])) := by
  have hchecked : checked lineStates visibleStep = true := by
    refine lineStates_checked (fun s c d _ hvisible hstep => ?_) line_evaluated.2.2
    rw [visibleStep, visibleStep, hvisible, hstep]
  have hat := fun s hs => checked_at (s := s) hchecked hs b
  simp only [visibleStep, hb, Bool.not_true, Bool.false_or, Bool.and_eq_true, Bool.or_eq_true, decide_eq_true_eq] at hat
  constructor
  · intro hs
    refine (hat s (by rcases hs with rfl | rfl <;> simp [lineStates])).1.resolve_left fun h => ?_
    exact hs.elim h.1 h.2
  · intro hs
    refine (hat s (by rcases hs with rfl | rfl <;> simp [lineStates])).2.resolve_left fun h => ?_
    exact hs.elim h.1 h.2

/-- What the states do on the bytes between the names and the values. -/
theorem line_marks : step inName 58 = (afterColon, [.writeField]) ∧ step afterColon 32 = (afterBlank, [.startValue]) ∧
    step inValue 32 = (inBlanks, []) ∧ step inBlanks 32 = (inBlanks, []) ∧
    step afterColon 13 = (atReturn, [.startValue, .writeValue]) ∧ step inValue 13 = (atReturn, [.writeValue]) ∧
    step atReturn 10 = (lineStart, []) ∧ step lineStart 13 = (lastReturn, [.startField]) := by
  decide +kernel

theorem line_ne_nil : lineStart ≠ [] ∧ inName ≠ [] ∧ afterColon ≠ [] ∧ afterBlank ≠ [] ∧ inValue ≠ [] ∧ inBlanks ≠ [] ∧
    atReturn ≠ [] ∧ lastReturn ≠ [] := by
  decide +kernel

/-! ## Names and values -/

/-- A name of visible characters that are no separators. -/
structure IsToken (x : Bytes) : Prop where
  nonempty : x ≠ []
  chars : ∀ b ∈ x, nameSet.mem b.toNat = true

/-- Printable characters, a blank neither first nor last. -/
structure IsFieldText (x : Bytes) : Prop where
  printable : ∀ b ∈ x, 32 ≤ b.toNat ∧ b.toNat ≤ 126
  first : x.head? ≠ some 32
  last : x.getLast? ≠ some 32

instance (x : Bytes) : Decidable (IsToken x) :=
  decidable_of_iff (x ≠ [] ∧ x.all (fun b => nameSet.mem b.toNat) = true)
    ⟨fun h => ⟨h.1, List.all_eq_true.mp h.2⟩, fun h => ⟨h.nonempty, List.all_eq_true.mpr h.chars⟩⟩

instance (x : Bytes) : Decidable (IsFieldText x) :=
  decidable_of_iff (x.all (fun b => 32 ≤ b.toNat ∧ b.toNat ≤ 126) = true ∧ x.head? ≠ some 32 ∧ x.getLast? ≠ some 32)
    ⟨fun h => ⟨fun b hb => of_decide_eq_true (List.all_eq_true.mp h.1 b hb), h.2.1, h.2.2⟩,
      fun h => ⟨List.all_eq_true.mpr fun b hb => decide_eq_true (h.printable b hb), h.first, h.last⟩⟩

theorem visible_of_printable {b : UInt8} (h : 32 ≤ b.toNat ∧ b.toNat ≤ 126) : b = 32 ∨ visibleSet.mem b.toNat = true := by
  by_cases hb : b = 32
  · exact .inl hb
  · have hne : b.toNat ≠ 32 := fun h => hb (UInt8.toNat_inj.mp h)
    refine .inr ?_
    simp only [visibleSet, CharSet.mem, CharSet.within, Bool.or_false, Bool.not_false, Bool.and_true, Bool.and_eq_true,
      Nat.ble_eq]
    omega

theorem quiet_name {x : Bytes} (h : ∀ b ∈ x, nameSet.mem b.toNat = true) :
    quiet inName x = true ∧ reached inName x = inName := by
  induction x with
  | nil => exact ⟨rfl, rfl⟩
  | cons b x ih =>
    obtain ⟨hquiet, hreached⟩ := ih fun c hc => h c (List.mem_cons_of_mem _ hc)
    have hstep := (name_step (h b List.mem_cons_self)).2
    constructor
    · exact quiet_cons hstep line_ne_nil.2.1 hquiet
    · rw [reached, List.foldl_cons, hstep]
      exact hreached

/-- Inside a value the state tells whether a blank was last. -/
theorem quiet_value {x : Bytes} {s : State} (hs : s = inValue ∨ s = inBlanks)
    (h : ∀ b ∈ x, 32 ≤ b.toNat ∧ b.toNat ≤ 126) : quiet s x = true ∧
      (x = [] ∧ reached s x = s ∨ x ≠ [] ∧ (x.getLast? ≠ some 32 → reached s x = inValue)) := by
  induction x generalizing s with
  | nil => exact ⟨rfl, .inl ⟨rfl, rfl⟩⟩
  | cons b x ih =>
    obtain ⟨_, _, hblank, hblanks, _⟩ := line_marks
    have hstep : step s b.toNat = (if b = 32 then inBlanks else inValue, []) := by
      rcases visible_of_printable (h b List.mem_cons_self) with rfl | hb
      · rcases hs with rfl | rfl
        · exact hblank
        · exact hblanks
      · have hne : b ≠ 32 := by
          rintro rfl
          exact absurd hb (by decide)
        rw [if_neg hne]
        exact (visible_step hb).2 hs
    have hnext : (if b = 32 then inBlanks else inValue) = inValue ∨ (if b = 32 then inBlanks else inValue) = inBlanks := by
      split
      · exact .inr rfl
      · exact .inl rfl
    have hne : (if b = 32 then inBlanks else inValue) ≠ [] := by
      rcases hnext with h | h <;> rw [h] <;> simp [line_ne_nil]
    obtain ⟨hquiet, hreached⟩ := ih hnext fun c hc => h c (List.mem_cons_of_mem _ hc)
    have hcons : reached s (b :: x) = reached (if b = 32 then inBlanks else inValue) x := by
      rw [reached, List.foldl_cons, hstep]
      rfl
    refine ⟨quiet_cons hstep hne hquiet, .inr ⟨List.cons_ne_nil _ _, fun hlast => ?_⟩⟩
    rw [hcons]
    rcases hreached with ⟨rfl, hreached⟩ | ⟨hx, hreached⟩
    · have hb : b ≠ 32 := fun hb => hlast (by rw [hb]; rfl)
      rw [hreached, if_neg hb]
    · refine hreached fun h => hlast ?_
      rwa [List.getLast?_cons_of_ne_nil hx]

/-! ## Header lines -/

def withField (d : HttpRequest × Nat) (k v : Bytes) : HttpRequest × Nat :=
  ({ d.1 with headers := d.1.headers.put k v }, d.2)

section
variable {R w k v r : Bytes} {s : State} {g : Regs Reg} {d : HttpRequest × Nat}

/-- The registers hold the name of the line being read. -/
structure Named (R : Bytes) (g : Regs Reg) (k : Bytes) : Prop where
  nonempty : k ≠ []
  length : g.len .fieldStart = k.length
  text : stringAt R ⟨g.off .fieldStart, g.len .fieldStart⟩ = some k

theorem Named.saved (h : Named R g k) (p : Nat) : Named R (savedAt g .mark p) k := ⟨h.nonempty, h.length, h.text⟩

theorem Named.put (h : Named R g k) {p : Nat} {a : Slice} (ha : stringAt R a = some v) :
    HttpRequestParser.callback R ⟨.httpField, p, [⟨g.off .fieldStart, g.len .fieldStart⟩, a]⟩ d = some (withField d k v) := by
  have hlen : g.len .fieldStart ≠ 0 := by
    rw [h.length]
    exact fun h0 => h.nonempty (List.length_eq_zero_iff.mp h0)
  simp [HttpRequestParser.callback, hlen, h.text, ha, withField]

theorem takes_newline : Takes R w [10] ⟨atReturn, g, d⟩ ⟨lineStart, g, d⟩ :=
  takes_byte (l := []) line_marks.2.2.2.2.2.2.1 line_ne_nil.1 List.not_mem_nil rfl

/-- The name and the colon. -/
theorem takes_name (hk : IsToken k) (hR : R = w ++ (k ++ r)) (h64 : R.length < 2 ^ 64) :
    ∃ g', Named R g' k ∧ Takes R w (k ++ [58]) ⟨lineStart, g, d⟩ ⟨afterColon, g', d⟩ := by
  cases k with
  | nil => exact absurd rfl hk.nonempty
  | cons b k =>
    obtain ⟨hquiet, hreached⟩ := quiet_name fun c hc => hk.chars c (List.mem_cons_of_mem _ hc)
    have hname := takes_saved (R := R) (w := w) (g := g) (d := d) (name_step (hk.chars b List.mem_cons_self)).1
      line_ne_nil.2.1 rfl hquiet
    rw [hreached] at hname
    have hcolon : Takes R (w ++ b :: k) [58] ⟨inName, savedAt g .fieldStart w.length, d⟩ ⟨afterColon, _, d⟩ :=
      takes_byte line_marks.1 line_ne_nil.2.2.1 (by decide) rfl
    have htext := stringAt_token hR h64
    have hdist : distance (w ++ b :: k).length w.length = (b :: k).length := by
      rw [hR, List.length_append, List.length_append] at h64
      rw [distance_eq (by rw [List.length_append]; omega), List.length_append]
      omega
    exact ⟨_, ⟨List.cons_ne_nil _ _, hdist, htext⟩, hname.append hcolon⟩

/-- A value from its first byte on. -/
theorem takes_value (hnamed : Named R g k) (hs : s = afterColon ∨ s = afterBlank) (hv : IsFieldText v) (hne : v ≠ [])
    (hR : R = w ++ (v ++ r)) (h64 : R.length < 2 ^ 64) :
    ∃ g', Takes R w (v ++ [13, 10]) ⟨s, g, d⟩ ⟨lineStart, g', withField d k v⟩ := by
  cases v with
  | nil => exact absurd rfl hne
  | cons b v =>
    have hfirst : visibleSet.mem b.toNat = true := by
      refine (visible_of_printable (hv.printable b List.mem_cons_self)).resolve_left ?_
      rintro rfl
      exact hv.first rfl
    obtain ⟨hquiet, hreached⟩ := quiet_value (.inl rfl) fun c hc => hv.printable c (List.mem_cons_of_mem _ hc)
    have hend : reached inValue v = inValue := by
      rcases hreached with ⟨_, h⟩ | ⟨hne, h⟩
      · exact h
      · refine h fun hlast => hv.last ?_
        rwa [List.getLast?_cons_of_ne_nil hne]
    have hvalue := takes_saved (R := R) (w := w) (g := g) (d := d) ((visible_step hfirst).1 hs) line_ne_nil.2.2.2.2.1 rfl
      hquiet
    rw [hend] at hvalue
    have hput := (hnamed.saved w.length).put (d := d) (p := (w ++ b :: v).length) (stringAt_token hR h64)
    have hreturn : Takes R (w ++ b :: v) [13] ⟨inValue, savedAt g .mark w.length, d⟩
        ⟨atReturn, savedAt g .mark w.length, withField d k (b :: v)⟩ := by
      refine takes_byte (l := [.writeValue]) line_marks.2.2.2.2.2.1 line_ne_nil.2.2.2.2.2.2.1 (by decide) ?_
      exact Option.bind_eq_some_iff.mpr ⟨_, hput, rfl⟩
    exact ⟨_, hvalue.append (hreturn.append takes_newline)⟩

/-- An empty value begins and ends with the line's end. -/
theorem takes_empty (hnamed : Named R g k) (hw : w.length ≤ R.length) :
    ∃ g', Takes R w [13, 10] ⟨afterColon, g, d⟩ ⟨lineStart, g', withField d k []⟩ := by
  have hdist : distance w.length w.length = 0 := by
    simp only [distance_eq (Nat.le_refl _), Nat.sub_self, Nat.zero_mod]
  have hstring : stringAt R ⟨w.length, distance w.length w.length⟩ = some [] := by
    rw [stringAt, hdist, if_pos (by simpa using hw), slice_zero]
  have hput := (hnamed.saved w.length).put (d := d) (p := w.length) hstring
  have hreturn : Takes R w [13] ⟨afterColon, g, d⟩ ⟨atReturn, savedAt g .mark w.length, withField d k []⟩ := by
    refine takes_byte (l := [.startValue, .writeValue]) line_marks.2.2.2.2.1 line_ne_nil.2.2.2.2.2.2.1 (by decide) ?_
    exact Option.bind_eq_some_iff.mpr ⟨_, hput, rfl⟩
  exact ⟨_, hreturn.append takes_newline⟩

theorem takes_field (hk : IsToken k) (hv : IsFieldText v) (hR : R = w ++ (HttpRequest.fieldText (k, v) ++ r))
    (h64 : R.length < 2 ^ 64) :
    ∃ g', Takes R w (HttpRequest.fieldText (k, v)) ⟨lineStart, g, d⟩ ⟨lineStart, g', withField d k v⟩ := by
  have hname : R = w ++ (k ++ (58 :: (v ++ [13, 10]) ++ r)) := by simpa [HttpRequest.fieldText] using hR
  have hvalue : R = (w ++ (k ++ [58])) ++ (v ++ ([13, 10] ++ r)) := by simpa using hname
  obtain ⟨g₁, hnamed, htakes⟩ := takes_name (g := g) (d := d) hk hname h64
  have hline : HttpRequest.fieldText (k, v) = (k ++ [58]) ++ (v ++ [13, 10]) := by simp [HttpRequest.fieldText]
  by_cases hne : v = []
  · subst hne
    have hlen : (w ++ (k ++ [58])).length ≤ R.length := by
      rw [hvalue]
      exact (List.prefix_append _ _).length_le
    obtain ⟨g₂, hempty⟩ := takes_empty (d := d) hnamed hlen
    exact ⟨g₂, hline ▸ htakes.append hempty⟩
  · obtain ⟨g₂, hrest⟩ := takes_value (d := d) hnamed (.inl rfl) hv hne hvalue h64
    exact ⟨g₂, hline ▸ htakes.append hrest⟩

/-- The line with a blank behind the colon. -/
theorem takes_ownField (hk : IsToken k) (hv : IsFieldText v) (hne : v ≠ [])
    (hR : R = w ++ (HttpRequest.ownFieldText (k, v) ++ r)) (h64 : R.length < 2 ^ 64) :
    ∃ g', Takes R w (HttpRequest.ownFieldText (k, v)) ⟨lineStart, g, d⟩ ⟨lineStart, g', withField d k v⟩ := by
  have hname : R = w ++ (k ++ (58 :: 32 :: (v ++ [13, 10]) ++ r)) := by simpa [HttpRequest.ownFieldText] using hR
  have hvalue : R = (w ++ (k ++ [58]) ++ [32]) ++ (v ++ ([13, 10] ++ r)) := by simpa using hname
  obtain ⟨g₁, hnamed, htakes⟩ := takes_name (g := g) (d := d) hk hname h64
  have hblank : Takes R (w ++ (k ++ [58])) [32] ⟨afterColon, g₁, d⟩
      ⟨afterBlank, savedAt g₁ .mark (w ++ (k ++ [58])).length, d⟩ :=
    takes_saved (x := []) line_marks.2.1 line_ne_nil.2.2.2.1 rfl rfl
  obtain ⟨g₂, hrest⟩ := takes_value (d := d) (hnamed.saved _) (.inr rfl) hv hne hvalue h64
  have hline : HttpRequest.ownFieldText (k, v) = (k ++ [58]) ++ ([32] ++ (v ++ [13, 10])) := by
    simp [HttpRequest.ownFieldText]
  exact ⟨g₂, hline ▸ htakes.append (hblank.append hrest)⟩

/-- The lines of a map. -/
theorem takes_fields {m : MapType} (hm : ∀ x ∈ m, IsToken x.1 ∧ IsFieldText x.2)
    (hR : R = w ++ (m.flatMap HttpRequest.fieldText ++ r)) (h64 : R.length < 2 ^ 64) :
    ∃ g', Takes R w (m.flatMap HttpRequest.fieldText) ⟨lineStart, g, d⟩
      ⟨lineStart, g', ({ d.1 with headers := m.puts d.1.headers }, d.2)⟩ := by
  induction m generalizing w g d with
  | nil => exact ⟨g, Takes.nil⟩
  | cons x m ih =>
    obtain ⟨k, v⟩ := x
    obtain ⟨hk, hv⟩ := hm (k, v) List.mem_cons_self
    rw [List.flatMap_cons] at hR ⊢
    obtain ⟨g₁, hline⟩ := takes_field (g := g) (d := d) hk hv (r := m.flatMap HttpRequest.fieldText ++ r)
      (by rw [hR, List.append_assoc]) h64
    obtain ⟨g₂, hrest⟩ := ih (w := w ++ HttpRequest.fieldText (k, v)) (g := g₁) (d := withField d k v)
      (fun x hx => hm x (List.mem_cons_of_mem _ hx)) (by rw [hR]; simp)
    exact ⟨g₂, hline.append hrest⟩

end

end LjrServer.Http.Http11
