/-
  LjrServer.Http.RequestLineReads — what a call of the request parser makes of a request line.

  Proved:
  - `takes_method`, `takes_target`, `takes_version`: the three parts of the line, each handing
    its text to its callback.
-/

import LjrServer.Http.HeaderLines

namespace LjrServer.Http.Http11

open LjrServer.Lib LjrServer.Lib.Scanner LjrServer.Lib.Ragel LjrServer.Lib.Ragel.Machine

variable {uriRelaxed : Bool} {R w r : Bytes} {g : Regs Reg} {d : HttpRequest × Nat}

/-! ## The method -/

/-- An upper-case letter. -/
def IsUpper (b : UInt8) : Prop := 65 ≤ b.toNat ∧ b.toNat ≤ 90

instance (b : UInt8) : Decidable (IsUpper b) := inferInstanceAs (Decidable (_ ∧ _))

/-- The names of upper-case letters in `HTTP_METHOD_MAP`; none begins another. -/
theorem methodMap_upper : ∀ x ∈ methodMap, (∀ b ∈ x.2, IsUpper b) →
    (x.2 ≠ [] ∧ x.2.length ≤ 20 ∧ 32 ∉ x.2 ∧ x.2 ≠ [77]) ∧ charsToHttpMethod (x.2 ++ [32]) = x.1 ∧
      x.1 ≠ .INVALID_METHOD := by
  decide +kernel

theorem mem_methodMap {m : HttpMethod} {text : Bytes} (h : httpMethodToString m = some text) : (m, text) ∈ methodMap := by
  obtain ⟨⟨m', text'⟩, hfind, rfl⟩ := Option.map_eq_some_iff.mp h
  have hm : m' = m := by simpa using List.find?_some hfind
  exact hm ▸ List.mem_of_find?_eq_some hfind

theorem letters_upper {b : UInt8} (h : IsUpper b) : letters.mem b.toNat = true := by
  obtain ⟨hlo, hhi⟩ := h
  simp [letters, CharSet.mem, CharSet.within, hlo, hhi]

def letterStep (uriRelaxed : Bool) (s : State) (c : Nat) : Bool :=
  !letters.mem c || step s c = (methodRest (uriOn uriRelaxed 2) 19, [.mark])

theorem letter_checked (uriRelaxed : Bool) : checked [[main uriRelaxed]] (letterStep uriRelaxed) = true := by
  cases uriRelaxed <;> decide +kernel

theorem letter_step (uriRelaxed : Bool) {b : UInt8} (h : letters.mem b.toNat = true) :
    step [main uriRelaxed] b.toNat = (methodRest (uriOn uriRelaxed 2) 19, [.mark]) := by
  have hat := checked_at (letter_checked uriRelaxed) List.mem_cons_self b
  simpa [letterStep, h] using hat

theorem uriOn_nullable (uriRelaxed : Bool) : (uriOn uriRelaxed 2).nullable = false := by
  cases uriRelaxed <;> decide +kernel

theorem quiet_letters (uriRelaxed : Bool) {x : Bytes} {n : Nat} (hn : x.length ≤ n)
    (h : ∀ b ∈ x, letters.mem b.toNat = true) :
    quiet (methodRest (uriOn uriRelaxed 2) n) x = true ∧
      reached (methodRest (uriOn uriRelaxed 2) n) x = methodRest (uriOn uriRelaxed 2) (n - x.length) := by
  induction x generalizing n with
  | nil => exact ⟨rfl, rfl⟩
  | cons b x ih =>
    rw [List.length_cons] at hn ⊢
    have hstep := step_methodRest (uriOn_nullable uriRelaxed) n b.toNat
    rw [if_pos ⟨by omega, h b List.mem_cons_self⟩] at hstep
    obtain ⟨hquiet, hreached⟩ := ih (n := n - 1) (by omega) fun c hc => h c (List.mem_cons_of_mem _ hc)
    constructor
    · exact quiet_cons hstep (List.cons_ne_nil _ _) hquiet
    · rw [reached, List.foldl_cons, hstep, show n - (x.length + 1) = n - 1 - x.length by omega]
      exact hreached

/-- A token of letters is handed to the method's callback at the space behind it. -/
theorem takes_token (uriRelaxed : Bool) {t : Bytes} {d' : HttpRequest × Nat} (hne : t ≠ []) (hlen : t.length ≤ 20)
    (ht : ∀ b ∈ t, letters.mem b.toNat = true)
    (hdata : HttpRequestParser.callback R ⟨.requestMethod, t.length, [⟨0, distance t.length 0⟩]⟩ d = some d') :
    ∃ g', Takes R [] (t ++ [32]) ⟨[main uriRelaxed], g, d⟩ ⟨inTarget uriRelaxed, g', d'⟩ := by
  cases t with
  | nil => exact absurd rfl hne
  | cons b t =>
    obtain ⟨hquiet, hreached⟩ := quiet_letters uriRelaxed (n := 19) (x := t)
      (by rw [List.length_cons] at hlen; omega) fun c hc => ht c (List.mem_cons_of_mem _ hc)
    have hname := takes_saved (R := R) (w := []) (g := g) (d := d) (letter_step uriRelaxed
      (ht b List.mem_cons_self)) (List.cons_ne_nil _ _) rfl hquiet
    rw [hreached] at hname
    have hstep : step (methodRest (uriOn uriRelaxed 2) (19 - t.length)) (32 : UInt8).toNat =
        (inTarget uriRelaxed, [.requestMethod]) := by
      have hnot : ¬ (19 - t.length ≠ 0 ∧ letters.mem 32 = true) := fun h => absurd h.2 (by decide)
      have hrest := step_methodRest (uriOn_nullable uriRelaxed) (19 - t.length) 32
      rw [if_neg hnot, if_pos rfl] at hrest
      exact hrest
    exact ⟨_, hname.append (takes_byte hstep (List.cons_ne_nil _ _) (by decide) (Option.bind_eq_some_iff.mpr
      ⟨d', hdata, rfl⟩))⟩

theorem takes_method (uriRelaxed : Bool) {m : HttpMethod} {text : Bytes} (hm : httpMethodToString m = some text)
    (hupper : ∀ b ∈ text, IsUpper b)
    (hR : R = text ++ 32 :: r) :
    ∃ g', Takes R [] (text ++ [32]) ⟨[main uriRelaxed], g, d⟩ ⟨inTarget uriRelaxed, g', ({ d.1 with method := m }, d.2)⟩ := by
  obtain ⟨⟨hne, hlen, hspace, hM⟩, hchars, hvalid⟩ := methodMap_upper _ (mem_methodMap hm) hupper
  dsimp only at hne hlen hspace hM hchars hvalid
  have hfound : charsToHttpMethod R = m := by
    rw [hR, ← hchars]
    exact charsToHttpMethod_token hspace hM
  refine takes_token uriRelaxed hne hlen (fun b hb => letters_upper (hupper b hb)) ?_
  simp only [HttpRequestParser.callback, List.drop_zero, hfound]

/-! ## The target -/

section
variable {p q f v x u : Bytes} {c : UInt8} (hp : (relativePart uriRelaxed).Final (47 :: p))
  (hq : (uriChars uriRelaxed).Final q) (hf : (uriChars uriRelaxed).Final f)
include hp hq hf

theorem reached_step {K : List (Nat × Action)} (hw : 47 :: p ++ marked 63 q ++ marked 35 f = v ++ c :: u)
    (hK : K.Pairwise (·.1 < ·.1)) (h : ∀ z, (relativeRef uriRelaxed 9).Acts v c z ↔ z ∈ K) :
    step (reached (inTarget uriRelaxed) v) c.toNat = (reached (inTarget uriRelaxed) (v ++ [c]), firsts (K.map (·.2))) ∧
      reached (inTarget uriRelaxed) (v ++ [c]) ≠ [] := by
  obtain ⟨hne, hacts⟩ := step_target (target_final hp hq hf) hw hK h
  have hreached : reached (inTarget uriRelaxed) (v ++ [c]) = (step (reached (inTarget uriRelaxed) v) c.toNat).1 :=
    reached_append _ _ _
  rw [hreached]
  exact ⟨Prod.ext rfl hacts, hne⟩

theorem quiet_target (hw : 47 :: p ++ marked 63 q ++ marked 35 f = v ++ (x ++ u))
    (h : ∀ a c b, x = a ++ c :: b → ∀ z, ¬ (relativeRef uriRelaxed 9).Acts (v ++ a) c z) :
    quiet (reached (inTarget uriRelaxed) v) x = true := by
  refine quiet_of_steps fun a c b hx => ?_
  rw [← reached_append]
  refine step_target (target_final hp hq hf) (K := []) (u := b ++ u) ?_ List.Pairwise.nil fun z => ?_
  · refine hw.trans ?_
    rw [hx]
    simp
  · exact iff_of_false (h a c b hx z) List.not_mem_nil

/-- A text whose first byte saves its offset. -/
theorem takes_savedText {t : Nat} {y : Action} {k : Reg} {c : UInt8} {x : Bytes}
    (hw : 47 :: p ++ marked 63 q ++ marked 35 f = v ++ (c :: x ++ u)) (hy : y.effects = [.save k])
    (h : ∀ a c' b, c :: x = a ++ c' :: b → ∀ z, (relativeRef uriRelaxed 9).Acts (v ++ a) c' z ↔ a = [] ∧ z = (t, y)) :
    Takes R w (c :: x) ⟨reached (inTarget uriRelaxed) v, g, d⟩
      ⟨reached (inTarget uriRelaxed) (v ++ c :: x), savedAt g k w.length, d⟩ := by
  have hfirst := fun z => h [] c x rfl z
  rw [List.append_nil] at hfirst
  obtain ⟨hstep, hne⟩ := reached_step hp hq hf (K := [(t, y)]) (c := c) (u := x ++ u) hw (List.pairwise_singleton _ _)
    fun z => by rw [hfirst z, and_iff_right rfl, List.mem_singleton]
  have hquiet : quiet (reached (inTarget uriRelaxed) (v ++ [c])) x = true := by
    refine quiet_target hp hq hf (u := u) (by rw [hw]; simp) fun a c' b hx z hz => ?_
    rw [List.append_assoc, List.singleton_append] at hz
    exact List.cons_ne_nil _ _ ((h (c :: a) c' b (by rw [hx, List.cons_append]) z).mp hz).1
  have htakes := takes_saved (R := R) (w := w) (g := g) (d := d) hstep hne hy hquiet
  rwa [← reached_append, List.append_assoc, List.singleton_append] at htakes

theorem takes_path : Takes R w (47 :: p) ⟨inTarget uriRelaxed, g, d⟩
    ⟨reached (inTarget uriRelaxed) (47 :: p), savedAt g .mark w.length, d⟩ := by
  refine takes_savedText (v := []) (t := 9) (y := .mark) (u := marked 63 q ++ marked 35 f) hp hq hf (by simp) rfl ?_
  intro a c b hx z
  have hsplit : 47 :: p ++ marked 63 q = a ++ c :: (b ++ marked 63 q) := by rw [hx]; simp
  rw [List.nil_append, target_inside hp hq hsplit]
  exact targetPart_path hp hx

/-- The '?' hands out the path, and the query begins behind it. -/
theorem takes_query (hne : q ≠ []) (hpath : stringAt R ⟨g.off .mark, distance w.length (g.off .mark)⟩ = some (47 :: p)) :
    Takes R w (63 :: q) ⟨reached (inTarget uriRelaxed) (47 :: p), g, d⟩
      ⟨reached (inTarget uriRelaxed) (47 :: p ++ 63 :: q), savedAt g .queryStart (w.length + 1),
        ({ d.1 with path := 47 :: p }, d.2)⟩ := by
  have htext : marked 63 q = 63 :: q := if_neg hne
  obtain ⟨hstep, hnext⟩ := reached_step hp hq hf (v := 47 :: p) (c := 63) (u := q ++ marked 35 f)
    (K := [(10, .requestPath)]) (by rw [htext]; simp) (List.pairwise_singleton _ _) fun z => by
      rw [target_inside hp hq (u := q) (by rw [htext]), targetPart_mark hp (List.cons_ne_nil _ _), List.mem_singleton]
  have hmark : Takes R w [63] ⟨reached (inTarget uriRelaxed) (47 :: p), g, d⟩
      ⟨reached (inTarget uriRelaxed) (47 :: p ++ [63]), g, ({ d.1 with path := 47 :: p }, d.2)⟩ := by
    refine takes_byte (l := [.requestPath]) hstep hnext (by decide) (Option.bind_eq_some_iff.mpr ⟨_, ?_, rfl⟩)
    simp only [HttpRequestParser.callback, List.map_cons, List.map_nil, Regs.slice, hpath, Option.map_some]
  cases q with
  | nil => exact absurd rfl hne
  | cons b q =>
    have hquery : Takes R (w ++ [63]) (b :: q)
        ⟨reached (inTarget uriRelaxed) (47 :: p ++ [63]), g, ({ d.1 with path := 47 :: p }, d.2)⟩
        ⟨reached (inTarget uriRelaxed) (47 :: p ++ [63] ++ b :: q), savedAt g .queryStart (w ++ [63]).length,
          ({ d.1 with path := 47 :: p }, d.2)⟩ := by
      refine takes_savedText (t := 11) (y := .startQuery) (u := marked 35 f) hp hq hf (by rw [htext]; simp) rfl ?_
      intro a c b' hx z
      have hsplit : 47 :: p ++ marked 63 (b :: q) = 47 :: p ++ 63 :: a ++ c :: b' := by rw [htext, hx]; simp
      rw [List.append_assoc, List.singleton_append, target_inside hp hq hsplit]
      exact targetPart_query hp hx hq
    have htakes := hmark.append hquery
    rwa [List.append_assoc, List.singleton_append, List.length_append] at htakes

/-- Up to the byte behind the path and the query, and what that byte hands out. -/
theorem takes_pathQuery (hR : R = w ++ (47 :: p ++ marked 63 q ++ r)) (h64 : R.length < 2 ^ 64) (hd : d.1.query = []) :
    ∃ g' d', Takes R w (47 :: p ++ marked 63 q) ⟨inTarget uriRelaxed, g, d⟩
        ⟨reached (inTarget uriRelaxed) (47 :: p ++ marked 63 q), g', d'⟩ ∧
      HttpRequestParser.callbacks R (applyAll (w ++ (47 :: p ++ marked 63 q)).length g'
        ((firsts ((targetActs q).map (·.2))).flatMap Action.effects)).2 d' =
          some ({ d.1 with path := 47 :: p, query := q }, d.2) := by
  have hpath : stringAt R ⟨w.length, distance (w ++ 47 :: p).length w.length⟩ = some (47 :: p) :=
    stringAt_token (r := marked 63 q ++ r) (by rw [hR, List.append_assoc]) h64
  have hfirst := takes_path (R := R) (w := w) (g := g) (d := d) hp hq hf
  by_cases hne : q = []
  · subst hne
    have hnil : marked 63 [] = [] := rfl
    simp only [hnil, List.append_nil]
    refine ⟨_, _, hfirst, Option.bind_eq_some_iff.mpr ⟨({ d.1 with path := 47 :: p, query := [] }, d.2), ?_, rfl⟩⟩
    have hmark : (savedAt g .mark w.length).off .mark = w.length := rfl
    simp only [HttpRequestParser.callback, List.map_cons, List.map_nil, Regs.slice, hmark, hpath, Option.map_some, ← hd]
  · have htext : marked 63 q = 63 :: q := if_neg hne
    have hlen : (w ++ 47 :: p).length + 1 = (w ++ (47 :: p ++ [63])).length := by
      simp only [List.length_append, List.length_cons, List.length_nil]
      omega
    have hquery : stringAt R ⟨(w ++ (47 :: p ++ [63])).length,
        distance (w ++ (47 :: p ++ [63]) ++ q).length (w ++ (47 :: p ++ [63])).length⟩ = some q :=
      stringAt_token (r := r) (by rw [hR, htext]; simp) h64
    have hsplit : w ++ (47 :: p ++ [63]) ++ q = w ++ (47 :: p ++ 63 :: q) := by simp
    rw [hsplit, ← hlen] at hquery
    have hrest := takes_query (R := R) (w := w ++ 47 :: p) (g := savedAt g .mark w.length) (d := d) hp hq hf hne hpath
    simp only [htext, targetActs, if_neg hne]
    refine ⟨_, _, hfirst.append hrest, Option.bind_eq_some_iff.mpr
      ⟨({ d.1 with path := 47 :: p, query := q }, d.2), ?_, rfl⟩⟩
    have hstart : (savedAt (savedAt g .mark w.length) .queryStart ((w ++ 47 :: p).length + 1)).off .queryStart =
        (w ++ 47 :: p).length + 1 := rfl
    simp only [HttpRequestParser.callback, List.map_cons, List.map_nil, Regs.slice, hstart, hquery, Option.map_some]

/-- The '#' and the fragment. -/
theorem takes_fragment (hne : f ≠ []) {d' : HttpRequest × Nat}
    (hdata : HttpRequestParser.callbacks R (applyAll w.length g
      ((firsts ((targetActs q).map (·.2))).flatMap Action.effects)).2 d = some d') :
    ∃ g', g'.off .mark = w.length + 1 ∧ Takes R w (35 :: f)
      ⟨reached (inTarget uriRelaxed) (47 :: p ++ marked 63 q), g, d⟩
      ⟨reached (inTarget uriRelaxed) (47 :: p ++ marked 63 q ++ 35 :: f), g', d'⟩ := by
  have htext : marked 35 f = 35 :: f := if_neg hne
  have hsorted : (targetActs q).Pairwise (·.1 < ·.1) := by
    unfold targetActs
    split <;> simp
  have hgo : Action.done ∉ firsts ((targetActs q).map (·.2)) := by
    unfold targetActs
    split <;> simp [mem_firsts]
  obtain ⟨hstep, hnext⟩ := reached_step hp hq hf (v := 47 :: p ++ marked 63 q) (c := 35) (u := f) (by rw [htext]) hsorted
    fun z => target_hash hp hq (List.cons_ne_nil _ _)
  have hhash := takes_byte (w := w) hstep hnext hgo hdata
  cases f with
  | nil => exact absurd rfl hne
  | cons b f =>
    have hrest := takes_savedText (R := R) (w := w ++ [35]) (v := 47 :: p ++ marked 63 q ++ [35]) (u := [])
      (g := (applyAll w.length g ((firsts ((targetActs q).map (·.2))).flatMap Action.effects)).1) (d := d')
      (t := 14) (y := .mark) (k := .mark) (c := b) (x := f) hp hq hf (by rw [htext]; simp) rfl (by
        intro a c b' hx z
        rw [List.append_assoc, List.singleton_append]
        exact target_fragment hp hq hf hx)
    have htakes := hhash.append hrest
    rw [List.append_assoc, List.singleton_append] at htakes
    refine ⟨_, ?_, htakes⟩
    show (w ++ [35]).length = w.length + 1
    rw [List.length_append]
    rfl

theorem takes_target (hR : R = w ++ (47 :: p ++ marked 63 q ++ marked 35 f ++ 32 :: r)) (h64 : R.length < 2 ^ 64)
    (hd : d.1.query = [] ∧ d.1.fragment = []) :
    ∃ g', Takes R w (47 :: p ++ marked 63 q ++ marked 35 f ++ [32]) ⟨inTarget uriRelaxed, g, d⟩
      ⟨afterUri, g', ({ d.1 with path := 47 :: p, query := q, fragment := f }, d.2)⟩ := by
  obtain ⟨g₁, d₁, hfirst, hdata⟩ := takes_pathQuery (R := R) (w := w) (g := g) (d := d) hp hq hf
    (r := marked 35 f ++ 32 :: r) (by rw [hR]; simp) h64 hd.1
  have hpending := fun z => target_pending (z := z) hp hq (List.cons_ne_nil _ _) hf
  have hafter : afterUri ≠ [] := List.cons_ne_nil _ _
  by_cases hne : f = []
  · subst hne
    have hnil : marked 35 [] = [] := rfl
    simp only [hnil, List.append_nil, if_true] at hpending ⊢
    have hsorted : (targetActs q).Pairwise (·.1 < ·.1) := by
      unfold targetActs
      split <;> simp
    have hgo : Action.done ∉ firsts ((targetActs q).map (·.2)) := by
      unfold targetActs
      split <;> simp [mem_firsts]
    have hfinal := target_final hp hq hf
    rw [hnil, List.append_nil] at hfinal
    have hspace := step_space hfinal hsorted hpending
    have hsame : (({ d.1 with path := 47 :: p, query := q } : HttpRequest), d.2) =
        ({ d.1 with path := 47 :: p, query := q, fragment := [] }, d.2) := by
      rw [← hd.2]
    exact ⟨_, hfirst.append (takes_byte hspace hafter hgo (hdata.trans (congrArg some hsame)))⟩
  · have htext : marked 35 f = 35 :: f := if_neg hne
    obtain ⟨g₂, hmark, hrest⟩ := takes_fragment hp hq hf hne hdata
    have hsplit : w ++ (47 :: p ++ marked 63 q) ++ [35] ++ f = w ++ (47 :: p ++ marked 63 q ++ 35 :: f) := by simp
    have hfragment : stringAt R ⟨(w ++ (47 :: p ++ marked 63 q) ++ [35]).length,
        distance (w ++ (47 :: p ++ marked 63 q) ++ [35] ++ f).length
          (w ++ (47 :: p ++ marked 63 q) ++ [35]).length⟩ = some f :=
      stringAt_token (r := 32 :: r) (by rw [hR, htext]; simp) h64
    rw [hsplit, @List.length_append _ _ [35]] at hfragment
    rw [if_neg hne, htext] at hpending
    rw [htext]
    have hfinal := target_final hp hq hf
    rw [htext] at hfinal
    have hspace := step_space hfinal (List.pairwise_singleton _ _) hpending
    have hsource := hfirst.append hrest
    refine ⟨_, hsource.append (takes_byte (l := [.fragment]) hspace hafter (by decide)
      (Option.bind_eq_some_iff.mpr ⟨({ d.1 with path := 47 :: p, query := q, fragment := f }, d.2), ?_, rfl⟩))⟩
    simp only [HttpRequestParser.callback, List.map_cons, List.map_nil, Regs.slice, hmark]
    exact Option.map_eq_some_iff.mpr ⟨f, hfragment, rfl⟩

end

/-! ## The version -/

/-- Behind the version. -/
def afterVersion : State := reached afterUri HTTP_1_1

theorem version_evaluated : (step afterUri 72).1 ≠ [] ∧ (step afterUri 72).2 = [.mark] ∧ afterVersion ≠ [] ∧
    step afterVersion 13 = ((step afterVersion 13).1, [.httpVersion]) ∧ (step afterVersion 13).1 ≠ [] ∧
    step (step afterVersion 13).1 10 = (lineStart, []) ∧
    ∀ v ∈ [HTTP_1_1, HTTP_1_0], quiet (step afterUri 72).1 v.tail = true ∧ reached afterUri v = afterVersion := by
  decide +kernel

/-- `HTTP/1.1` or `HTTP/1.0` and the end of the line. -/
theorem takes_version {v : Bytes} {version : UInt8} (hv : (v = HTTP_1_1 ∧ version = 0x11) ∨ (v = HTTP_1_0 ∧ version = 0x10))
    (hR : R = w ++ (v ++ [13, 10] ++ r)) :
    ∃ g', Takes R w (v ++ [13, 10]) ⟨afterUri, g, d⟩ ⟨lineStart, g', ({ d.1 with version }, d.2)⟩ := by
  obtain ⟨hne, hmark, hnext, hreturn, hnext', hnewline, hquiet⟩ := version_evaluated
  have hmem : v ∈ [HTTP_1_1, HTTP_1_0] := by
    rcases hv with ⟨rfl, _⟩ | ⟨rfl, _⟩ <;> simp
  obtain ⟨hquiet, hreached⟩ := hquiet v hmem
  have htext : v = 72 :: v.tail := by
    rcases hv with ⟨rfl, _⟩ | ⟨rfl, _⟩ <;> rfl
  have hreached' : reached (step afterUri (72 : UInt8).toNat).1 v.tail = afterVersion := by
    have hcons : reached afterUri (72 :: v.tail) = afterVersion := by rw [← htext, hreached]
    exact hcons
  have hfirst : Takes R w v ⟨afterUri, g, d⟩ ⟨afterVersion, savedAt g .mark w.length, d⟩ := by
    have hsaved := takes_saved (R := R) (w := w) (g := g) (d := d) (n := 72) (r := .mark) (Prod.ext rfl hmark) hne rfl hquiet
    rwa [← htext, hreached'] at hsaved
  have hversion : charsToVersion R ⟨w.length, distance (w ++ v).length w.length⟩ = some version := by
    have hdrop : R.drop w.length = v ++ ([13, 10] ++ r) := by rw [hR, List.drop_left, List.append_assoc]
    have hlen : v.length = 8 := by rcases hv with ⟨rfl, _⟩ | ⟨rfl, _⟩ <;> rfl
    have hdist : distance (w ++ v).length w.length = 8 := by
      rw [distance_eq (by rw [List.length_append]; omega), List.length_append]
      omega
    unfold charsToVersion
    rw [hdist, hdrop]
    rcases hv with ⟨rfl, rfl⟩ | ⟨rfl, rfl⟩
    · rfl
    · rfl
  have hend : Takes R (w ++ v) [13] ⟨afterVersion, savedAt g .mark w.length, d⟩
      ⟨(step afterVersion 13).1, savedAt g .mark w.length, ({ d.1 with version }, d.2)⟩ := by
    refine takes_byte (l := [.httpVersion]) hreturn hnext' (by decide) (Option.bind_eq_some_iff.mpr ⟨_, ?_, rfl⟩)
    have hstart : (savedAt g .mark w.length).off .mark = w.length := rfl
    simp only [HttpRequestParser.callback, List.map_cons, List.map_nil, Regs.slice, hstart, hversion]
  have hline : Takes R (w ++ v ++ [13]) [10] ⟨(step afterVersion 13).1, savedAt g .mark w.length, ({ d.1 with version }, d.2)⟩
      ⟨lineStart, savedAt g .mark w.length, ({ d.1 with version }, d.2)⟩ :=
    takes_byte (l := []) hnewline line_ne_nil.1 List.not_mem_nil rfl
  exact ⟨_, hfirst.append (hend.append hline)⟩

end LjrServer.Http.Http11
