/-
  LjrServer.Http.ResponseReads — what a call of the response parser makes of header lines and
  of the line that ends them.

  The content length and "close" are the parser's own: a line that says them is a field like
  any other to the response.

  Proved:
  - `takes_line`: a header line puts its field, an empty value included.
  - `takes_lines`: the lines of a map put one after the other.
  - `scan_lines`: a call that takes all lines ends with the last line end, in `first_final` if
    the last line has a value.
-/

import LjrServer.Http.ResponseDump
import LjrServer.Http.ResponseLines

namespace LjrServer.Http.HttpClient

open LjrServer.Lib LjrServer.Lib.Scanner LjrServer.Lib.Ragel

variable {R w x r : Bytes} {p o : Place} {s : State} {b : UInt8} {g : Regs Reg} {d m : (HttpResponse × Nat) × Bool}

/-! ## Bytes -/

theorem effects_go {l : List Action} (h : Action.done ∉ l) : (l.flatMap Action.effects).any isStop = false := by
  rw [List.any_eq_false]
  intro e he
  obtain ⟨a, ha, he⟩ := List.mem_flatMap.mp he
  cases a with
  | done => exact absurd ha h
  | _ => simp_all [Action.effects, isStop]

theorem takes_acts (hne : (step s b.toNat).1 ≠ []) (hdone : Action.done ∉ (step s b.toNat).2)
    (hdata : responseScan.callbacks R (applyAll w.length g ((step s b.toNat).2.flatMap Action.effects)).2 d = some m) :
    responseScan.Takes R w [b] ⟨s, g, d⟩
      ⟨(step s b.toNat).1, (applyAll w.length g ((step s b.toNat).2.flatMap Action.effects)).1, m⟩ := by
  have hA : responseScan.automaton s b = some ((step s b.toNat).1, (step s b.toNat).2.flatMap Action.effects) := if_neg hne
  exact ScanParser.Takes.byte hA (effects_go hdone) hdata

/-- The actions that leave the response as it is. -/
def silent : List Action := [.mark, .startField, .writeField, .startValue, .writeContentLen, .writeConnectionClose]

theorem callbacks_unheard {es : List (Event Callback)} (h : ∀ e ∈ es, e.kind = .contentLen ∨ e.kind = .connectionClose) :
    responseScan.callbacks R es d = some d := by
  induction es with
  | nil => rfl
  | cons e es ih =>
    have hcall : responseScan.callback R e d = some d := by
      obtain ⟨kind, pos, args⟩ := e
      rcases h _ List.mem_cons_self with hk | hk
      · cases hk
        simp [responseScan, HttpResponseParser.callback, marksChunked]
      · cases hk
        simp [responseScan, HttpResponseParser.callback, marksChunked]
    rw [ScanParser.callbacks, hcall, Option.bind_some]
    exact ih fun f hf => h f (List.mem_cons_of_mem _ hf)

theorem callbacks_silent {l : List Action} {n : Nat} (h : ∀ a ∈ l, a ∈ silent) :
    responseScan.callbacks R (applyAll n g (l.flatMap Action.effects)).2 d = some d := by
  refine callbacks_unheard fun e he => ?_
  obtain ⟨args, hargs⟩ := applyAll_kind n _ g e he
  obtain ⟨a, ha, hemit⟩ := List.mem_flatMap.mp hargs
  have hmem := h a ha
  have hkind : ∀ x ∈ silent, ∀ y ∈ x.effects, ∀ k args, y = .emit k args → k = .contentLen ∨ k = .connectionClose := by
    simp [silent, Action.effects]
  exact hkind a hmem _ hemit _ _ rfl

/-! ## Places -/

theorem At.ne_nil (hs : At p s) : s ≠ [] := List.ne_nil_of_mem hs.field

theorem mem_single {c n : Nat} : ({ incl := [(n, n)] } : CharSet).mem c = true ↔ c = n := by
  simp [CharSet.mem, CharSet.within]
  omega

theorem mem_single_ne {n : UInt8} (h : b ≠ n) : ({ incl := [(n.toNat, n.toNat)] } : CharSet).mem b.toNat = false := by
  rw [Bool.eq_false_iff, ne_eq, mem_single]
  exact fun he => h (UInt8.toNat_inj.mp he)

/-- A byte on which no thread executes anything. -/
theorem takes_none (hs : At p s) (hnext : p.next b.toNat = some o) (hnone : p.allowed b.toNat = []) :
    At o (step s b.toNat).1 ∧ responseScan.Takes R w [b] ⟨s, g, d⟩ ⟨(step s b.toNat).1, g, d⟩ := by
  obtain ⟨hat, hacts, _⟩ := step_at hs hnext
  have hnil : (step s b.toNat).2 = [] := by
    refine step_no_action fun a ha => ?_
    obtain ⟨t, ht⟩ := hacts a ha
    rw [hnone] at ht
    cases ht
  have h := takes_acts (R := R) (w := w) (g := g) (d := d) (m := d) hat.ne_nil (by simp [hnil]) (by rw [hnil]; rfl)
  rw [hnil] at h
  exact ⟨hat, h⟩

/-- A byte on which the threads execute what leaves the response as it is. -/
theorem takes_silent (hs : At p s) (hnext : p.next b.toNat = some o) (h : ∀ z ∈ p.allowed b.toNat, z.2 ∈ silent) :
    At o (step s b.toNat).1 ∧ (∀ a ∈ (step s b.toNat).2, ∃ t, (t, a) ∈ p.allowed b.toNat) ∧
      responseScan.Takes R w [b] ⟨s, g, d⟩
        ⟨(step s b.toNat).1, (applyAll w.length g ((step s b.toNat).2.flatMap Action.effects)).1, d⟩ := by
  obtain ⟨hat, hacts, _⟩ := step_at hs hnext
  have hsilent : ∀ a ∈ (step s b.toNat).2, a ∈ silent := by
    intro a ha
    obtain ⟨t, ht⟩ := hacts a ha
    exact h _ ht
  refine ⟨hat, hacts, takes_acts hat.ne_nil (fun hdone => ?_) (callbacks_silent hsilent)⟩
  have hmem := hsilent _ hdone
  revert hmem
  decide

/-! ## A name -/

/-- How much of "transfer-encoding" a name is. -/
def encodingOf (k : Bytes) : Option Nat := k.foldl (fun e b => Place.advance e b.toNat) (some 0)

def transferEncoding : Bytes :=
  bytes ['t', 'r', 'a', 'n', 's', 'f', 'e', 'r', '-', 'e', 'n', 'c', 'o', 'd', 'i', 'n', 'g']

theorem encoding_checked : (List.range 17).all (fun i => (List.range 256).all fun c =>
    Place.advance (some i) c = none || transferEncoding[i]? = some (toLower (UInt8.ofNat c))) = true := by
  decide +kernel

theorem advance_eq {i n : Nat} (h : Place.advance (some i) b.toNat = some n) :
    n = i + 1 ∧ transferEncoding[i]? = some (toLower b) := by
  obtain ⟨j, hj, hbind⟩ := Option.bind_eq_some_iff.mp h
  obtain rfl : i = j := Option.some.inj hj
  obtain ⟨x, hx, hn⟩ := Option.bind_eq_some_iff.mp hbind
  have hlen : encodingSets.length = 17 := by decide
  have hi : i < 17 := hlen ▸ (List.getElem?_eq_some_iff.mp hx).1
  have hchecked := List.all_eq_true.mp (List.all_eq_true.mp encoding_checked i (List.mem_range.mpr hi)) b.toNat
    (List.mem_range.mpr b.toNat_lt)
  rw [h, UInt8.ofNat_toNat] at hchecked
  refine ⟨?_, by simpa using hchecked⟩
  split at hn
  · exact (Option.some.inj hn).symm
  · cases hn

theorem advance_none (k : Bytes) : k.foldl (fun e b => Place.advance e b.toNat) none = none := by
  induction k with
  | nil => rfl
  | cons b k ih => exact ih

theorem encoding_drop {k : Bytes} {i n : Nat} (h : k.foldl (fun e b => Place.advance e b.toNat) (some i) = some n) :
    n = i + k.length ∧ (transferEncoding.drop i).take k.length = k.map toLower := by
  induction k generalizing i with
  | nil => simpa using h.symm
  | cons b k ih =>
    rw [List.foldl_cons] at h
    cases hfirst : Place.advance (some i) b.toNat with
    | none =>
      rw [hfirst, advance_none] at h
      cases h
    | some j =>
      obtain ⟨rfl, hget⟩ := advance_eq hfirst
      rw [hfirst] at h
      obtain ⟨rfl, hrest⟩ := ih h
      have hlt := (List.getElem?_eq_some_iff.mp hget).1
      refine ⟨by rw [List.length_cons]; omega, ?_⟩
      rw [List.drop_eq_getElem_cons hlt, List.length_cons, List.take_succ_cons, hrest, List.map_cons,
        (List.getElem?_eq_some_iff.mp hget).2]

/-- A name is not followed by a colon only if it is "transfer-encoding". -/
theorem encodingOf_full {k : Bytes} (h : encodingOf k = some 17) : k.map toLower = transferEncoding := by
  obtain ⟨hlen, htake⟩ := encoding_drop h
  rw [← htake, ← show 17 = k.length by omega]
  decide

theorem takes_name {encoding : Option Nat} (hs : At (.name encoding) s) (hx : ∀ b ∈ x, tokenSet.mem b.toNat = true) :
    ∃ s', At (.name (x.foldl (fun e b => Place.advance e b.toNat) encoding)) s' ∧
      responseScan.Takes R w x ⟨s, g, d⟩ ⟨s', g, d⟩ := by
  induction x generalizing s w encoding with
  | nil => exact ⟨s, hs, .nil⟩
  | cons b x ih =>
    have htoken := hx b List.mem_cons_self
    have hnext : (Place.name encoding).next b.toNat = some (.name (Place.advance encoding b.toNat)) := if_pos htoken
    have hnot : colonSet.mem b.toNat = false := by
      rw [Bool.eq_false_iff]
      intro hcolon
      rw [mem_single.mp hcolon] at htoken
      revert htoken
      decide
    obtain ⟨hat, hfirst⟩ := takes_none (R := R) (w := w) (g := g) (d := d) hs hnext (by simp [Place.allowed, hnot])
    obtain ⟨s', hs', hrest⟩ := ih hat fun c hc => hx c (List.mem_cons_of_mem _ hc)
    exact ⟨s', hs', hfirst.append hrest⟩

/-! ## A line -/

/-- A name of a header line, other than the one that says how the body is coded. -/
structure IsName (k : Bytes) : Prop where
  nonempty : k ≠ []
  chars : ∀ b ∈ k, tokenSet.mem b.toNat = true
  plain : k.map toLower ≠ transferEncoding

/-- A value in one line, that does not begin with a blank. -/
structure IsValue (v : Bytes) : Prop where
  chars : ∀ b ∈ v, b ≠ 13 ∧ b ≠ 10
  first : v.head?.all (fun b => !spaceSet.mem b.toNat) = true

instance (k : Bytes) : Decidable (IsName k) :=
  decidable_of_iff (k ≠ [] ∧ k.all (fun b => tokenSet.mem b.toNat) = true ∧ k.map toLower ≠ transferEncoding)
    ⟨fun h => ⟨h.1, List.all_eq_true.mp h.2.1, h.2.2⟩, fun h => ⟨h.nonempty, List.all_eq_true.mpr h.chars, h.plain⟩⟩

instance (v : Bytes) : Decidable (IsValue v) :=
  decidable_of_iff (v.all (fun b => b ≠ 13 ∧ b ≠ 10) = true ∧ v.head?.all (fun b => !spaceSet.mem b.toNat) = true)
    ⟨fun h => ⟨fun b hb => of_decide_eq_true (List.all_eq_true.mp h.1 b hb), h.2⟩,
      fun h => ⟨List.all_eq_true.mpr fun b hb => decide_eq_true (h.chars b hb), h.first⟩⟩

def withField (d : (HttpResponse × Nat) × Bool) (k v : Bytes) : (HttpResponse × Nat) × Bool :=
  (({ d.1.1 with headers := d.1.1.headers.put k v }, d.1.2), d.2)

/-- The registers hold the name `k`. -/
structure Named (R : Bytes) (g : Regs Reg) (k : Bytes) : Prop where
  length : g.len .fieldStart ≠ 0
  text : stringAt R ⟨g.off .fieldStart, g.len .fieldStart⟩ = some k

variable {k v : Bytes}

/-- A token that ends where it is handed out. -/
theorem stringAt_upto (hR : R = w ++ (x ++ r)) (h64 : x.length < 2 ^ 64) :
    stringAt R ⟨w.length, distance (w ++ x).length w.length⟩ = some x := by
  have hdist : distance (w ++ x).length w.length = x.length := by
    rw [distance_eq (by rw [List.length_append]; omega), List.length_append]
    omega
  have hin : w.length + x.length ≤ R.length := by
    rw [hR, List.length_append, List.length_append]
    omega
  rw [stringAt, hdist, if_pos hin, slice, hR, List.drop_left, List.take_left]

/-- The first byte of a name saves where it is. -/
theorem takes_first (hs : At .start s) (hb : tokenSet.mem b.toNat = true) :
    ∃ s' g', At (.name (encodingOf [b])) s' ∧ g'.off .fieldStart = w.length ∧
      responseScan.Takes R w [b] ⟨s, g, d⟩ ⟨s', g', d⟩ := by
  have hnext : Place.start.next b.toNat = some (.name (encodingOf [b])) := if_pos hb
  have hsilent : ∀ z ∈ Place.start.allowed 0, z.2 ∈ silent := by decide
  obtain ⟨hat, _, htakes⟩ := takes_silent (R := R) (w := w) (g := g) (d := d) hs hnext fun z hz => hsilent z hz
  have hstart : Action.startField ∈ (step s b.toNat).2 :=
    (step_at hs hnext).2.2 (17, .startField) List.mem_cons_self
  exact ⟨_, _, hat, ScanParser.off_saved (List.mem_flatMap.mpr ⟨_, hstart, List.mem_cons_self⟩) g, htakes⟩

/-- The colon measures it. -/
theorem takes_colon {encoding : Option Nat} (hs : At (.name encoding) s) (hplain : encoding ≠ some 17) :
    ∃ s' g', At .colon s' ∧ g'.off .fieldStart = g.off .fieldStart ∧
      g'.len .fieldStart = distance w.length (g.off .fieldStart) ∧
      responseScan.Takes R w [58] ⟨s, g, d⟩ ⟨s', g', d⟩ := by
  have hnext : (Place.name encoding).next (58 : UInt8).toNat = some .colon := by
    have htoken : tokenSet.mem 58 = false := by decide
    have hcolon : colonSet.mem 58 = true := by decide
    simp [Place.next, htoken, hcolon, hplain]
  obtain ⟨hat, hacts, hneeded⟩ := step_at hs hnext
  have hmeasure : (step s (58 : UInt8).toNat).2 = [.writeField] := by
    refine step_one_action (fun a ha => ?_) (hneeded (18, .writeField) ?_)
    · obtain ⟨t, ht⟩ := hacts a ha
      have hall : ∀ z ∈ (Place.name none).allowed (58 : UInt8).toNat, z.2 = .writeField := by decide
      exact hall _ ht
    · have hmem : (18, Action.writeField) ∈ (Place.name none).needed (58 : UInt8).toNat := by decide
      exact hmem
  have htakes := takes_acts (R := R) (w := w) (g := g) (d := d) (m := d) hat.ne_nil
    (by rw [hmeasure]; decide) (by rw [hmeasure]; rfl)
  rw [hmeasure] at htakes
  refine ⟨_, _, hat, ?_, ?_, htakes⟩
  · rfl
  · simp [Action.effects, applyAll, Effect.regs, Scanner.set]

/-- The name and the colon. -/
theorem takes_fieldName (hs : At .start s) (hk : IsName k) (hR : R = w ++ (k ++ 58 :: r)) (h64 : k.length < 2 ^ 64) :
    ∃ s' g', At .colon s' ∧ Named R g' k ∧ responseScan.Takes R w (k ++ [58]) ⟨s, g, d⟩ ⟨s', g', d⟩ := by
  have htext : stringAt R ⟨w.length, distance (w ++ k).length w.length⟩ = some k := stringAt_upto hR h64
  have hlen : distance (w ++ k).length w.length = k.length := by
    rw [distance_eq (by rw [List.length_append]; omega), List.length_append]
    omega
  have hne := List.length_pos_iff.mpr hk.nonempty
  obtain ⟨b, x, rfl⟩ := List.exists_cons_of_ne_nil hk.nonempty
  obtain ⟨s₁, g₁, hs₁, hoff, hfirst⟩ := takes_first (R := R) (w := w) (g := g) (d := d) hs (hk.chars b List.mem_cons_self)
  obtain ⟨s₂, hs₂, hrest⟩ := takes_name (R := R) (w := w ++ [b]) (g := g₁) (d := d) hs₁ fun c hc =>
    hk.chars c (List.mem_cons_of_mem _ hc)
  have hplain : encodingOf (b :: x) ≠ some 17 := fun h => hk.plain (encodingOf_full h)
  obtain ⟨s₃, g₃, hs₃, hoff₃, hlen₃, hcolon⟩ := takes_colon (R := R) (w := w ++ [b] ++ x) (g := g₁) (d := d) hs₂ hplain
  rw [hoff] at hoff₃ hlen₃
  rw [List.append_assoc, List.singleton_append] at hlen₃ hcolon
  refine ⟨s₃, g₃, hs₃, ⟨?_, ?_⟩, (hfirst.append hrest).append hcolon⟩
  · rw [hlen₃, hlen]
    omega
  · rw [hoff₃, hlen₃]
    exact htext

/-! ## A value -/

theorem Named.kept {es : List (Effect Reg Callback)} (h : Named R g k) (hoff : .save .fieldStart ∉ es)
    (hlen : .measure .fieldStart ∉ es) : Named R (applyAll w.length g es).1 k := by
  have hoff' := ScanParser.off_unsaved (p := w.length) hoff g
  have hlen' := ScanParser.len_unmeasured (p := w.length) hlen g
  exact ⟨by rw [hlen']; exact h.length, by rw [hoff', hlen']; exact h.text⟩

theorem Named.saved {l : List Action} (h : Named R g k) (hl : ∀ a ∈ l, a = .startValue) :
    Named R (applyAll w.length g (l.flatMap Action.effects)).1 k := by
  have hes : ∀ e ∈ l.flatMap Action.effects, e = .save .mark := by
    intro e he
    obtain ⟨a, ha, he⟩ := List.mem_flatMap.mp he
    rw [hl a ha] at he
    exact List.mem_singleton.mp he
  refine h.kept (fun he => ?_) fun he => ?_
  · cases hes _ he
  · cases hes _ he

theorem takes_blank (hs : At .colon s) (hk : Named R g k) :
    ∃ s' g', At .colon s' ∧ Named R g' k ∧ responseScan.Takes R w [32] ⟨s, g, d⟩ ⟨s', g', d⟩ := by
  have hnext : Place.colon.next (32 : UInt8).toNat = some .colon := by decide
  have hall : ∀ z ∈ Place.colon.allowed (32 : UInt8).toNat, z.2 = .startValue := by decide
  obtain ⟨hat, hacts, htakes⟩ := takes_silent (R := R) (w := w) (g := g) (d := d) hs hnext fun z hz => by
    rw [hall z hz]
    decide
  refine ⟨_, _, hat, hk.saved fun a ha => ?_, htakes⟩
  obtain ⟨t, ht⟩ := hacts a ha
  exact hall _ ht

/-- The first byte of a value. -/
theorem takes_valueFirst (hs : At .colon s) (hk : Named R g k) (hspace : spaceSet.mem b.toNat = false) (hreturn : b ≠ 13) :
    ∃ s' g', At .value s' ∧ Named R g' k ∧ g'.off .mark = w.length ∧
      responseScan.Takes R w [b] ⟨s, g, d⟩ ⟨s', g', d⟩ := by
  have hblank : blankSet.mem b.toNat = false := by
    refine mem_single_ne (n := 32) fun h => ?_
    rw [h] at hspace
    revert hspace
    decide
  have hret : returnSet.mem b.toNat = false := mem_single_ne hreturn
  have hnext : Place.colon.next b.toNat = some .value := by
    simp [Place.next, hblank, hret, hspace]
  have hallow : Place.colon.allowed b.toNat = [(14, .startValue), (19, .startValue)] := by
    simp [Place.allowed, hret]
  have hneed : Place.colon.needed b.toNat = [(19, .startValue)] := by simp [Place.needed, hblank, hret]
  obtain ⟨hat, hacts, htakes⟩ := takes_silent (R := R) (w := w) (g := g) (d := d) hs hnext (by rw [hallow]; decide)
  have hstart : Action.startValue ∈ (step s b.toNat).2 :=
    (step_at hs hnext).2.2 (19, .startValue) (by rw [hneed]; exact List.mem_cons_self)
  refine ⟨_, _, hat, hk.saved fun a ha => ?_, ?_, htakes⟩
  · obtain ⟨t, ht⟩ := hacts a ha
    have hall : ∀ z ∈ [(14, Action.startValue), (19, .startValue)], z.2 = .startValue := by decide
    exact hall _ (hallow ▸ ht)
  · exact ScanParser.off_saved (List.mem_flatMap.mpr ⟨_, hstart, List.mem_cons_self⟩) g

theorem takes_value (hs : At .value s) (hx : ∀ b ∈ x, b ≠ 13 ∧ b ≠ 10) :
    ∃ s', At .value s' ∧ responseScan.Takes R w x ⟨s, g, d⟩ ⟨s', g, d⟩ := by
  induction x generalizing s w with
  | nil => exact ⟨s, hs, .nil⟩
  | cons b x ih =>
    obtain ⟨hreturn, hline⟩ := hx b List.mem_cons_self
    have hret : returnSet.mem b.toNat = false := mem_single_ne hreturn
    have hnewline : newlineSet.mem b.toNat = false := mem_single_ne hline
    obtain ⟨hat, hfirst⟩ := takes_none (R := R) (w := w) (g := g) (d := d) hs (o := .value) (b := b)
      (by simp [Place.next, hret, hnewline]) (by simp [Place.allowed, hret])
    obtain ⟨s', hs', hrest⟩ := ih hat fun c hc => hx c (List.mem_cons_of_mem _ hc)
    exact ⟨s', hs', hfirst.append hrest⟩

theorem nodup_two {β : Type} {y z : β} {l : List β} (hnodup : l.Nodup) (hl : ∀ a ∈ l, a = y ∨ a = z) (hmem : z ∈ l) :
    l = [z] ∨ l = [y, z] ∨ l = [z, y] := by
  rcases l with _ | ⟨a, _ | ⟨c, _ | ⟨e, l⟩⟩⟩
  · cases hmem
  · exact .inl (by rw [List.mem_singleton.mp hmem])
  · simp only [List.nodup_cons, List.mem_cons, List.not_mem_nil, or_false, forall_eq_or_imp, forall_eq] at hnodup hl hmem
    grind
  · simp only [List.nodup_cons, List.mem_cons, forall_eq_or_imp] at hnodup hl
    grind

/-- At the return the value is handed out. -/
theorem callbacks_field {l : List Action} {n : Nat} (hk : Named R g k)
    (hv : stringAt R ⟨g.off .mark, distance n (g.off .mark)⟩ = some v) (hnodup : l.Nodup)
    (hl : ∀ a ∈ l, a = .writeContentLen ∨ a = .writeValue) (hmem : .writeValue ∈ l) :
    responseScan.callbacks R (applyAll n g (l.flatMap Action.effects)).2 d = some (withField d k v) := by
  have hfield : responseScan.callback R ⟨.httpField, n, [⟨g.off .fieldStart, g.len .fieldStart⟩,
      ⟨g.off .mark, distance n (g.off .mark)⟩]⟩ d = some (withField d k v) := by
    simp [responseScan, HttpResponseParser.callback, hk.length, hk.text, hv, withField, marksChunked]
  have hlength : ∀ a q, responseScan.callback R ⟨.contentLen, n, a⟩ q = some q := by
    intro a q
    simp [responseScan, HttpResponseParser.callback, marksChunked]
  rcases nodup_two hnodup hl hmem with rfl | rfl | rfl
  · simp [Action.effects, applyAll, Effect.events, Regs.slice, ScanParser.callbacks, hfield]
  · simp [Action.effects, applyAll, Effect.events, Effect.regs, Regs.slice, ScanParser.callbacks, hfield, hlength]
  · simp [Action.effects, applyAll, Effect.events, Effect.regs, Regs.slice, ScanParser.callbacks, hfield, hlength]

/-! ### Behind a value

No thread there still reads blanks. -/

def newlineThreads : List M := [.char 10, .leaving 11 .writeConnectionClose (.char 10)]
def startThreads : List M := [.eps, closed]

theorem value_evaluated :
    (Place.value.threads.all fun n => (lineEdges n 13).all fun e => beaten 13 e || e.next ∈ newlineThreads) = true ∧
    (newlineThreads.all fun n => n ∈ Place.newline.threads && (lineEdges n 10).all fun e => e.next ∈ startThreads) = true := by
  decide +kernel

/-- Behind the return of a line with a value, and behind the newline. -/
def AtNewline (s : State) : Prop := ∀ m ∈ s, ∃ n ∈ newlineThreads, m = lined n
def AtStart (s : State) : Prop := ∀ m ∈ s, ∃ n ∈ startThreads, m = lined n

theorem At.atNewline (hs : At .value s) : AtNewline (step s (13 : UInt8).toNat).1 := by
  have hnext : Place.value.next (13 : UInt8).toNat = some .newline := by decide
  refine hs.goes hnext hs.threads (fun _ hn => hn) fun n hn e he => ?_
  have h := List.all_eq_true.mp (List.all_eq_true.mp value_evaluated.1 n hn) e he
  exact (Bool.or_eq_true_iff.mp h).imp_right of_decide_eq_true

theorem At.atStart (hs : At .newline s) (hn : AtNewline s) : AtStart (step s (10 : UInt8).toNat).1 := by
  have h := fun n hn => Bool.and_eq_true_iff.mp (List.all_eq_true.mp value_evaluated.2 n hn)
  have hnext : Place.newline.next (10 : UInt8).toNat = some .start := by decide
  exact hs.goes hnext hn (fun n hn => of_decide_eq_true (h n hn).1)
    fun n hn e he => .inr (of_decide_eq_true (List.all_eq_true.mp (h n hn).2 e he))

/-- The return behind a value. -/
theorem takes_valueEnd (hs : At .value s) (hk : Named R g k)
    (hv : stringAt R ⟨g.off .mark, distance w.length (g.off .mark)⟩ = some v) :
    ∃ s' g', At .newline s' ∧ AtNewline s' ∧ responseScan.Takes R w [13] ⟨s, g, d⟩ ⟨s', g', withField d k v⟩ := by
  have hnext : Place.value.next (13 : UInt8).toNat = some .newline := by decide
  obtain ⟨hat, hacts, hneeded⟩ := step_at hs hnext
  have hl : ∀ a ∈ (step s (13 : UInt8).toNat).2, a = .writeContentLen ∨ a = .writeValue := by
    intro a ha
    obtain ⟨t, ht⟩ := hacts a ha
    have hall : ∀ z ∈ Place.value.allowed (13 : UInt8).toNat, z.2 = .writeContentLen ∨ z.2 = .writeValue := by decide
    exact hall _ ht
  have hmem : Action.writeValue ∈ (step s (13 : UInt8).toNat).2 := by
    refine hneeded (20, .writeValue) ?_
    decide
  have hdone : Action.done ∉ (step s (13 : UInt8).toNat).2 := fun h => by simpa using hl _ h
  exact ⟨_, _, hat, hs.atNewline, takes_acts hat.ne_nil hdone (callbacks_field hk hv step_nodup hl hmem)⟩

/-- The return behind the blanks of an empty value. -/
theorem takes_emptyEnd (hs : At .colon s) (hk : Named R g k) (hw : w.length ≤ R.length) :
    ∃ s' g', At .newline s' ∧ responseScan.Takes R w [13] ⟨s, g, d⟩ ⟨s', g', withField d k []⟩ := by
  have hnext : Place.colon.next (13 : UInt8).toNat = some .newline := by decide
  have hat := (step_at hs hnext).1
  have hacts : (step s (13 : UInt8).toNat).2 = [.startValue, .writeValue] := step_empty hs
  have hempty : stringAt R ⟨w.length, distance w.length w.length⟩ = some [] := by
    have hzero : distance w.length w.length = 0 := by rw [distance_eq (Nat.le_refl _), Nat.sub_self, Nat.zero_mod]
    rw [stringAt, hzero, if_pos (by simpa using hw), slice, List.take_zero]
  refine ⟨_, _, hat, takes_acts hat.ne_nil (by rw [hacts]; decide) ?_⟩
  rw [hacts]
  simp [Action.effects, applyAll, Effect.events, Effect.regs, Regs.slice, Scanner.set, ScanParser.callbacks, responseScan,
    HttpResponseParser.callback, hk.length, hk.text, hempty, withField, marksChunked]

/-- A header line. -/
theorem takes_line (hs : At .start s) (hk : IsName k) (hv : IsValue v)
    (hR : R = w ++ (k ++ 58 :: 32 :: (v ++ [13, 10]) ++ r)) (h64 : (k ++ 58 :: 32 :: (v ++ [13, 10])).length < 2 ^ 64) :
    ∃ s' g', At .start s' ∧ (v ≠ [] → AtStart s') ∧
      responseScan.Takes R w (k ++ 58 :: 32 :: (v ++ [13, 10])) ⟨s, g, d⟩ ⟨s', g', withField d k v⟩ := by
  have hlens : k.length < 2 ^ 64 ∧ v.length < 2 ^ 64 := by
    simp only [List.length_append, List.length_cons] at h64
    omega
  obtain ⟨s₁, g₁, hs₁, hk₁, hname⟩ := takes_fieldName (R := R) (w := w) (g := g) (d := d)
    (r := 32 :: (v ++ [13, 10]) ++ r) hs hk (by rw [hR]; simp) hlens.1
  obtain ⟨s₂, g₂, hs₂, hk₂, hblank⟩ := takes_blank (R := R) (w := w ++ (k ++ [58])) (g := g₁) (d := d) hs₁ hk₁
  have hvalue : ∃ s₃ g₃, At .newline s₃ ∧ (v ≠ [] → AtNewline s₃) ∧
      responseScan.Takes R (w ++ (k ++ [58]) ++ [32]) (v ++ [13]) ⟨s₂, g₂, d⟩ ⟨s₃, g₃, withField d k v⟩ := by
    cases v with
    | nil =>
      have hin : (w ++ (k ++ [58]) ++ [32]).length ≤ R.length := by
        rw [hR]
        simp only [List.length_append, List.length_cons]
        omega
      obtain ⟨s₃, g₃, hs₃, hend⟩ := takes_emptyEnd (d := d) hs₂ hk₂ hin
      exact ⟨s₃, g₃, hs₃, fun hne => absurd rfl hne, hend⟩
    | cons c v =>
      have hc := hv.chars c List.mem_cons_self
      have hchars : ∀ b ∈ v, b ≠ 13 ∧ b ≠ 10 := fun b hb => hv.chars b (List.mem_cons_of_mem _ hb)
      obtain ⟨s₃, g₃, hs₃, hk₃, hmark, hfirst⟩ := takes_valueFirst (R := R) (w := w ++ (k ++ [58]) ++ [32]) (g := g₂) (d := d)
        hs₂ hk₂ (by simpa using hv.first) hc.1
      obtain ⟨s₄, hs₄, hrest⟩ := takes_value (R := R) (w := w ++ (k ++ [58]) ++ [32] ++ [c]) (g := g₃) (d := d) hs₃ hchars
      have htext : stringAt R ⟨(w ++ (k ++ [58]) ++ [32]).length,
          distance (w ++ (k ++ [58]) ++ [32] ++ (c :: v)).length (w ++ (k ++ [58]) ++ [32]).length⟩ = some (c :: v) :=
        stringAt_upto (r := [13, 10] ++ r) (by rw [hR]; simp) hlens.2
      have hsplit : w ++ (k ++ [58]) ++ [32] ++ [c] ++ v = w ++ (k ++ [58]) ++ [32] ++ (c :: v) := by simp
      rw [← hmark, ← hsplit] at htext
      obtain ⟨s₅, g₅, hs₅, hplain, hend⟩ := takes_valueEnd (d := d) hs₄ hk₃ htext
      exact ⟨s₅, g₅, hs₅, fun _ => hplain, hfirst.append (hrest.append hend)⟩
  obtain ⟨s₃, g₃, hs₃, hplain, hvalue⟩ := hvalue
  obtain ⟨hat, hnewline⟩ := takes_none (R := R) (w := w ++ (k ++ [58]) ++ [32] ++ (v ++ [13])) (g := g₃)
    (d := withField d k v) (o := .start) (b := 10) hs₃ (by decide) rfl
  have htakes := hname.append (hblank.append (hvalue.append hnewline))
  have htext : k ++ [58] ++ ([32] ++ (v ++ [13] ++ [10])) = k ++ 58 :: 32 :: (v ++ [13, 10]) := by simp
  rw [htext] at htakes
  exact ⟨_, _, hat, fun hne => hs₃.atStart (hplain hne), htakes⟩

/-- The header lines put a map line by line. -/
theorem takes_lines {lines : MapType} (hs : At .start s) (hlines : ∀ x ∈ lines, IsName x.1 ∧ IsValue x.2)
    (hR : R = w ++ (lines.flatMap HttpResponse.fieldText ++ r))
    (h64 : (lines.flatMap HttpResponse.fieldText).length < 2 ^ 64) :
    ∃ s' g', At .start s' ∧ ((lines = [] → AtStart s) → (∀ x ∈ lines.getLast?, x.2 ≠ []) → AtStart s') ∧
      responseScan.Takes R w (lines.flatMap HttpResponse.fieldText) ⟨s, g, d⟩
      ⟨s', g', (({ d.1.1 with headers := lines.puts d.1.1.headers }, d.1.2), d.2)⟩ := by
  induction lines generalizing s w g d with
  | nil => exact ⟨s, g, hs, fun hplain _ => hplain rfl, .nil⟩
  | cons x lines ih =>
    obtain ⟨hk, hv⟩ := hlines x List.mem_cons_self
    rw [List.flatMap_cons, List.length_append] at h64
    rw [List.flatMap_cons, List.append_assoc] at hR
    obtain ⟨s₁, g₁, hs₁, hplain₁, hfirst⟩ :=
      takes_line (g := g) (d := d) hs hk hv hR (Nat.lt_of_le_of_lt (Nat.le_add_right _ _) h64)
    rw [← List.append_assoc] at hR
    obtain ⟨s₂, g₂, hs₂, hplain₂, hrest⟩ := ih (g := g₁) (d := withField d x.1 x.2) hs₁
      (fun y hy => hlines y (List.mem_cons_of_mem _ hy)) hR (by omega)
    refine ⟨s₂, g₂, hs₂, fun _ hlast => hplain₂ (fun hnil => hplain₁ ?_) fun y hy => hlast y ?_, hfirst.append hrest⟩
    · rw [hnil] at hlast
      exact hlast x rfl
    · rw [List.getLast?_cons, Option.mem_def.mp hy]
      rfl

/-! ## The last line -/

/-- The thread at the last byte of the header block. -/
def lastNewline : M := .finishing 28 .done (.char 10)

def lastThreads : List M := [lastNewline, lined closeColon, lined lengthColon]

def lastReturnOk (m : M) : Bool :=
  ((lined m).edges 13).all fun e =>
    lastThreads.any (fun n => e.next = n) && e.prios = [] && e.acts.all fun z => z = (11, .writeConnectionClose)

def lastNewlineOk (m : M) : Bool :=
  (m.edges 10).all fun e => e.prios = [] && e.acts.all fun z => z = (28, .done)

theorem last_evaluated : Place.start.threads.all lastReturnOk = true ∧ lastThreads.all lastNewlineOk = true ∧
    ((lined .eps).edges 13).any (fun e => e.next = lastNewline) = true ∧
    (lastNewline.edges 10).any (fun e => e.next.nullable && e.acts = [(28, .done)]) = true := by
  decide +kernel

theorem beats_none {e f : Edge Action} (h : f.prios = []) (h' : e.prios = []) : f.beats e = false := by
  simp [Edge.beats, h, h']

/-- The return in place of another line. -/
theorem step_lastReturn (hs : At .start s) : (∀ m ∈ (step s 13).1, m ∈ lastThreads) ∧ lastNewline ∈ (step s 13).1 ∧
    ∀ a ∈ (step s 13).2, a = .writeConnectionClose := by
  obtain ⟨hthreads, _, hlast, _⟩ := last_evaluated
  have hedge : ∀ m ∈ s, ∀ e ∈ m.edges 13, e.next ∈ lastThreads ∧ e.prios = [] ∧
      ∀ z ∈ e.acts, z = (11, .writeConnectionClose) := by
    intro m hm e he
    obtain ⟨n, hn, rfl⟩ := hs.threads m hm
    have hok := List.all_eq_true.mp (List.all_eq_true.mp hthreads n hn) e he
    simpa [and_assoc] using hok
  obtain ⟨hnext, hacts⟩ := step_within (P := (· ∈ lastThreads)) (A := (· = (11, Action.writeConnectionClose)))
    fun m hm e he => .inr ⟨(hedge m hm e he).1, (hedge m hm e he).2.2⟩
  obtain ⟨e, he, hnewline⟩ := List.any_eq_true.mp hlast
  have hnewline : e.next = lastNewline := of_decide_eq_true hnewline
  have hmade := (step_made hs.field he fun m hm f hf =>
    beats_none (hedge m hm f hf).2.1 (hedge _ hs.field e he).2.1).1
  refine ⟨hnext, hnewline ▸ hmade, fun a ha => ?_⟩
  obtain ⟨t, ht⟩ := hacts a ha
  exact congrArg Prod.snd ht

theorem plain_evaluated : (startThreads.all fun n => ((lined n).edges 13).all fun e => e.next = lastNewline) = true ∧
    ((lastNewline.edges 10).all fun e => e.next = .finishing 28 .done .eps) = true := by
  decide +kernel

/-- Behind a last line with a value no byte leads on. -/
theorem stuck_lastNewline (hs : AtStart s) : isStuck (step (step s 13).1 10).1 = true := by
  have hreturn : ∀ m ∈ (step s 13).1, m = lastNewline := by
    intro m' hm'
    obtain ⟨m, hm, e, he, rfl⟩ := mem_step_next hm'
    obtain ⟨n, hn, rfl⟩ := hs m hm
    exact of_decide_eq_true (List.all_eq_true.mp (List.all_eq_true.mp plain_evaluated.1 n hn) e he)
  refine isStuck_of_edges fun m' hm' c => ?_
  obtain ⟨m, hm, e, he, rfl⟩ := mem_step_next hm'
  rw [hreturn m hm] at he
  rw [of_decide_eq_true (List.all_eq_true.mp plain_evaluated.2 e he)]
  rfl

/-- The newline behind it ends the block. -/
theorem step_lastNewline (hs : ∀ m ∈ s, m ∈ lastThreads) (hmem : lastNewline ∈ s) :
    isFinal (step s 10).1 = true ∧ (step s 10).2 = [.done] := by
  obtain ⟨_, hthreads, _, hlast⟩ := last_evaluated
  have hedge : ∀ m ∈ s, ∀ e ∈ m.edges 10, e.prios = [] ∧ ∀ z ∈ e.acts, z = (28, .done) := by
    intro m hm e he
    have hok := List.all_eq_true.mp (List.all_eq_true.mp hthreads m (hs m hm)) e he
    simpa using hok
  obtain ⟨e, he, hend⟩ := List.any_eq_true.mp hlast
  simp only [Bool.and_eq_true, decide_eq_true_eq] at hend
  obtain ⟨hnull, hdone⟩ := hend
  obtain ⟨hmade, hacts⟩ := step_made hmem he fun m hm f hf => beats_none (hedge m hm f hf).1 (hedge _ hmem e he).1
  obtain ⟨_, hwithin⟩ := step_within (P := fun _ => True) (A := (· = (28, Action.done)))
    fun m hm f hf => .inr ⟨trivial, (hedge m hm f hf).2⟩
  refine ⟨List.any_eq_true.mpr ⟨_, hmade, hnull⟩, step_one_action (fun a ha => ?_) ?_⟩
  · obtain ⟨t, ht⟩ := hwithin a ha
    exact congrArg Prod.snd ht
  · exact hacts (28, .done) (by rw [hdone]; exact List.mem_cons_self)

/-- A call that takes all lines ends with the last line end. -/
theorem scan_lines (h : responseScan.Takes R [] w ⟨[main], HttpClientParser.zero, (({}, 0), false)⟩ ⟨s, g, d⟩)
    (hs : At .start s) (hplain : AtStart s) :
    ∃ s' g' es, scan automaton (w ++ [13, 10]) 0 [main] HttpClientParser.zero =
        ⟨s', g', (w ++ [13, 10]).length, .stopped, es⟩ ∧ isFirstFinal s' = true ∧
      responseScan.callbacks R es (({}, 0), false) = some d := by
  obtain ⟨hthreads, hmem, hclose⟩ := step_lastReturn hs
  have hne : (step s (13 : UInt8).toNat).1 ≠ [] := List.ne_nil_of_mem hmem
  have hreturn := takes_acts (R := R) (w := w) (b := 13) (g := g) (d := d) hne (fun hdone => by cases hclose _ hdone)
    (callbacks_silent fun a ha => by rw [hclose a ha]; decide)
  obtain ⟨hfinal, hdone⟩ := step_lastNewline hthreads hmem
  have hmade : (step (step s 13).1 10).1 ≠ [] := fun hnil => by
    rw [hnil] at hfinal
    cases hfinal
  have hA : responseScan.automaton (step s 13).1 10 =
      some ((step (step s 13).1 10).1, [.emit .done [], .stop]) := by
    have hacts : (step (step s 13).1 10).2.flatMap Action.effects = [.emit .done [], .stop] := by rw [hdone]; rfl
    rw [← hacts]
    exact if_neg hmade
  have hquiet : ∀ g : Regs Reg,
      responseScan.callbacks R (applyAll (w ++ [13]).length g [.emit .done [], .stop]).2 d = some d := by
    intro g
    simp [applyAll, Effect.events, ScanParser.callbacks, responseScan, HttpResponseParser.callback, marksChunked]
  obtain ⟨es, hscan, hdata⟩ := (h.append hreturn).stop hA rfl (hquiet _)
  have hsplit : w ++ [13] ++ [10] = w ++ [13, 10] := by rw [List.append_assoc]; rfl
  rw [hsplit] at hscan
  exact ⟨_, _, es, hscan, Bool.and_eq_true_iff.mpr ⟨hfinal, stuck_lastNewline hplain⟩, hdata⟩

end LjrServer.Http.HttpClient
