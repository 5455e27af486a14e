/-
  LjrServer.Http.Methods — the two converters of a method's name (http.cpp), and the method of
  a request as the parser finds it.

  `StringToHttpMethod` compares all of a string with the names of `HTTP_METHOD_MAP`, and
  `CharsToHttpMethod` the names with the beginning of a buffer, whatever the token's length.
  No name begins another, so they differ on longer tokens only; and on "M", whose buffer may
  go on as the name "M - SEARCH" does.

  Proved:
  - `chars_eq_string_iff`: the converters agree exactly on such tokens.
  - `execute_method`: what the parser makes of the first token is what `CharsToHttpMethod` does.
  - `recognized_iff`: so tokens are recognized exactly when no name is a proper prefix.
-/

import LjrServer.Http.RequestLineReads

namespace LjrServer.Http

open LjrServer.Lib LjrServer.Lib.Scanner Http11

/-- One to twenty upper-case letters or digits. -/
def IsMethodToken (t : Bytes) : Prop := t ≠ [] ∧ t.length ≤ 20 ∧ (t.all fun b => letters.mem b.toNat) = true

/-- Behind "M " -/
def restOfSearch : Bytes := MSEARCH.drop 2

/-- The token and the text behind its space, as a fresh parser is given them. -/
def requestText (t text : Bytes) : Bytes := t ++ 32 :: text

/-- No name is a proper prefix of the token, and it is not the beginning of "M - SEARCH". -/
def Unextended (t text : Bytes) : Prop :=
  (∀ x ∈ methodMap, x.2 <+: t → x.2 = t) ∧ ¬ (t = [77] ∧ restOfSearch <+: text)

/-- The method is taken, or there is an error if there is none. -/
def Took (m : HttpMethod) (p : HttpRequestParser) : Prop :=
  if m = .INVALID_METHOD then p.hasError = true else p.data.method = m ∧ p.error ≠ 1000

/-- A token is recognized: by both converters, and so by a call of a fresh parser. -/
structure Recognized (uriRelaxed : Bool) (queryStart : Nat) (t text : Bytes) : Prop where
  converters : charsToHttpMethod (requestText t text) = stringToHttpMethod t
  parser : ∀ nparse p data,
    (HttpRequestParser.new uriRelaxed queryStart).execute (requestText t text) (requestText t text).length =
      some (nparse, p, data) → Took (stringToHttpMethod t) p

/-! ## The converters -/

theorem strncmpEq_append : ∀ {a : Bytes}, 0 ∉ a → ∀ z, strncmpEq a.length a (a ++ z) = true
  | [], _, _ => rfl
  | c :: a, h0, z => by
    have hc : c ≠ 0 := fun h => h0 (by rw [h]; exact List.mem_cons_self)
    rw [List.length_cons, strncmpEq_cons, List.cons_append, List.headD_cons, if_neg (not_not.mpr rfl), if_neg hc]
    exact strncmpEq_append (fun h => h0 (List.mem_cons_of_mem _ h)) z

theorem strncmpEq_iff {a x : Bytes} (h0 : 0 ∉ a) : strncmpEq a.length a x = true ↔ a <+: x := by
  constructor
  · intro h
    obtain ⟨z, rfl⟩ := strncmpEq_prefix h0 h
    exact List.prefix_append a z
  · rintro ⟨z, rfl⟩
    exact strncmpEq_append h0 z

/-- The names have no NUL, and none begins another. -/
theorem methodMap_names : (methodMap.all fun x => x.2.all (· ≠ 0)) = true ∧
    (methodMap.all fun x => methodMap.all fun y => !x.2.isPrefixOf y.2 || x == y) = true ∧
    (methodMap.all fun x => x.1 ≠ .INVALID_METHOD) = true := by
  decide

theorem name_no_nul {x : HttpMethod × Bytes} (hx : x ∈ methodMap) : 0 ∉ x.2 := by
  intro h0
  have h := List.all_eq_true.mp (List.all_eq_true.mp methodMap_names.1 x hx) 0 h0
  exact absurd h (by decide)

theorem prefix_name_eq {x y : HttpMethod × Bytes} (hx : x ∈ methodMap) (hy : y ∈ methodMap) (h : x.2 <+: y.2) :
    x = y := by
  have hxy := List.all_eq_true.mp (List.all_eq_true.mp methodMap_names.2.1 x hx) y hy
  rw [List.isPrefixOf_iff_prefix.mpr h] at hxy
  simpa using hxy

theorem name_valid {x : HttpMethod × Bytes} (hx : x ∈ methodMap) : x.1 ≠ .INVALID_METHOD := by
  simpa using List.all_eq_true.mp methodMap_names.2.2 x hx

variable {t text : Bytes}

theorem letter_ne {b : UInt8} (h : letters.mem b.toNat = true) : b ≠ 0 ∧ b ≠ 32 := by
  constructor
  · rintro rfl
    exact absurd h (by decide)
  · rintro rfl
    exact absurd h (by decide)

theorem IsMethodToken.letters (h : IsMethodToken t) : ∀ b ∈ t, letters.mem b.toNat = true := List.all_eq_true.mp h.2.2

theorem IsMethodToken.space (h : IsMethodToken t) : 32 ∉ t := fun hm => (letter_ne (h.letters 32 hm)).2 rfl

theorem IsMethodToken.nul (h : IsMethodToken t) : 0 ∉ t := fun hm => (letter_ne (h.letters 0 hm)).1 rfl

theorem cstr_eq : ∀ {s : Bytes}, 0 ∉ s → cstr s = s
  | [], _ => rfl
  | b :: s, h => by
    have hb : b ≠ 0 := fun hb => h (hb ▸ List.mem_cons_self)
    have ih : cstr s = s := cstr_eq fun hs => h (List.mem_cons_of_mem _ hs)
    unfold cstr at ih ⊢
    rw [List.takeWhile_cons_of_pos (by simpa using hb), ih]

/-- A name without a space begins the buffer where it begins the token. -/
theorem prefix_token {a : Bytes} (ha : 32 ∉ a) : a <+: requestText t text ↔ a <+: t := by
  constructor
  · intro h
    rcases List.prefix_or_prefix_of_prefix h (List.prefix_append t (32 :: text)) with h' | ⟨r, rfl⟩
    · exact h'
    · cases r with
      | nil => exact (List.append_nil t).symm ▸ List.prefix_rfl
      | cons c r =>
        have hc := (List.cons_prefix_cons.mp ((List.prefix_append_right_inj t).mp h)).1
        exact absurd (List.mem_append_right t (hc ▸ List.mem_cons_self)) ha
  · intro h
    exact h.trans (List.prefix_append t _)

theorem prefix_search (ht : 32 ∉ t) : MSEARCH <+: requestText t text ↔ t = [77] ∧ restOfSearch <+: text := by
  by_cases hM : t = [77]
  · subst hM
    have hname : MSEARCH = 77 :: 32 :: restOfSearch := rfl
    rw [hname, requestText, List.singleton_append, List.cons_prefix_cons, List.cons_prefix_cons]
    simp
  · rw [← strncmpEq_iff (by decide), requestText, strncmpEq_MSEARCH ht hM]
    exact iff_of_false Bool.false_ne_true fun h => hM h.1

/-- When a name is found at the beginning of the buffer. -/
theorem chars_name_iff (ht : IsMethodToken t) {x : HttpMethod × Bytes} (hx : x ∈ methodMap) :
    strncmpEq x.2.length x.2 (requestText t text) = true ↔
      x.2 <+: t ∨ (x.2 = MSEARCH ∧ t = [77] ∧ restOfSearch <+: text) := by
  rw [strncmpEq_iff (name_no_nul hx)]
  rcases methodMap_space x hx with h | h
  · have hnot : ¬ MSEARCH <+: t := fun hpre => ht.space (hpre.subset (by decide))
    rw [h, prefix_search ht.space, or_iff_right hnot, and_iff_right rfl]
  · have hne : x.2 ≠ MSEARCH := fun he => h (he ▸ by decide)
    rw [prefix_token h, or_iff_left fun he => hne he.1]

theorem string_name_iff (ht : IsMethodToken t) {x : HttpMethod × Bytes} (hx : x ∈ methodMap) :
    (cstr x.2 == cstr t) = true ↔ x.2 = t := by
  rw [cstr_eq ht.nul, cstr_eq (name_no_nul hx), beq_iff_eq]

/-- Where a name is found and the converters agree, the token is a name. -/
theorem name_of_agree (ht : IsMethodToken t) (h : charsToHttpMethod (requestText t text) = stringToHttpMethod t)
    {x : HttpMethod × Bytes} (hx : x ∈ methodMap) (hfound : strncmpEq x.2.length x.2 (requestText t text) = true) :
    ∃ z ∈ methodMap, z.2 = t := by
  unfold charsToHttpMethod stringToHttpMethod at h
  cases hstring : methodMap.find? fun x => cstr x.2 == cstr t with
  | some z =>
    have hz := List.mem_of_find?_eq_some hstring
    have hfound : (cstr z.2 == cstr t) = true :=
      List.find?_some (p := fun x : HttpMethod × Bytes => cstr x.2 == cstr t) hstring
    exact ⟨z, hz, (string_name_iff ht hz).mp hfound⟩
  | none =>
    cases hchars : methodMap.find? fun x => strncmpEq x.2.length x.2 (requestText t text) with
    | none => exact absurd hfound (List.find?_eq_none.mp hchars x hx)
    | some y =>
      rw [hchars, hstring] at h
      exact absurd h (name_valid (List.mem_of_find?_eq_some hchars))

theorem chars_eq_string_iff (ht : IsMethodToken t) :
    charsToHttpMethod (requestText t text) = stringToHttpMethod t ↔ Unextended t text := by
  constructor
  · intro h
    constructor
    · intro x hx hpre
      obtain ⟨z, hz, rfl⟩ := name_of_agree ht h hx ((chars_name_iff ht hx).mpr (.inl hpre))
      rw [prefix_name_eq hx hz hpre]
    · rintro ⟨rfl, hrest⟩
      have hM : (HttpMethod.MSEARCH, MSEARCH) ∈ methodMap := by decide
      obtain ⟨z, hz, hz77⟩ := name_of_agree ht h hM ((chars_name_iff ht hM).mpr (.inr ⟨rfl, rfl, hrest⟩))
      have hpre : z.2 <+: MSEARCH := by rw [hz77]; decide
      rw [prefix_name_eq hz hM hpre] at hz77
      exact absurd hz77 (by decide)
  · rintro ⟨hnames, hsearch⟩
    unfold charsToHttpMethod stringToHttpMethod
    rw [List.find?_congr]
    intro x hx
    rw [Bool.eq_iff_iff, chars_name_iff ht hx, string_name_iff ht hx]
    constructor
    · rintro (hpre | ⟨-, hM⟩)
      · exact hnames x hx hpre
      · exact absurd hM hsearch
    · intro hxt
      exact .inl (hxt ▸ List.prefix_rfl)

/-! ## The parser -/

variable {uriRelaxed : Bool} {queryStart : Nat}

/-- What a callback leaves alone that is not the method's. -/
theorem callback_rest {R : Bytes} {e : Event Callback} {q r : HttpRequest × Nat} (hkind : e.kind ≠ .requestMethod)
    (h : HttpRequestParser.callback R e q = some r) : r.1.method = q.1.method ∧ (r.2 = 1000 → q.2 = 1000) := by
  unfold HttpRequestParser.callback at h
  split at h
  · rename_i hmethod _
    exact absurd hmethod hkind
  · obtain ⟨_, _, rfl⟩ := Option.map_eq_some_iff.mp h
    exact ⟨rfl, id⟩
  · obtain ⟨_, _, rfl⟩ := Option.map_eq_some_iff.mp h
    exact ⟨rfl, id⟩
  · obtain ⟨_, _, rfl⟩ := Option.map_eq_some_iff.mp h
    exact ⟨rfl, id⟩
  · split at h
    · cases h
      exact ⟨rfl, id⟩
    · obtain ⟨_, _, rfl⟩ := Option.map_eq_some_iff.mp h
      exact ⟨rfl, fun (h : 1001 = 1000) => absurd h (by decide)⟩
  · split at h
    · cases h
      exact ⟨rfl, id⟩
    · obtain ⟨_, _, h⟩ := Option.bind_eq_some_iff.mp h
      obtain ⟨_, _, h⟩ := Option.bind_eq_some_iff.mp h
      cases h
      exact ⟨rfl, id⟩
  · cases h
    exact ⟨rfl, id⟩

theorem callbacks_rest {R : Bytes} : ∀ {es : List (Event Callback)} {q r : HttpRequest × Nat},
    (∀ e ∈ es, e.kind ≠ .requestMethod) → HttpRequestParser.callbacks R es q = some r →
      r.1.method = q.1.method ∧ (q.2 ≠ 0 → r.2 ≠ 0) ∧ (r.2 = 1000 → q.2 = 1000)
  | [], q, r, _, h => by
    cases h
    exact ⟨rfl, id, id⟩
  | e :: es, q, r, hes, h => by
    obtain ⟨q', hq', h⟩ := Option.bind_eq_some_iff.mp h
    obtain ⟨hmethod, hstays, hnew⟩ := callbacks_rest (fun e he => hes e (List.mem_cons_of_mem _ he)) h
    obtain ⟨hmethod', hnew'⟩ := callback_rest (hes e List.mem_cons_self) hq'
    exact ⟨hmethod.trans hmethod', fun hq => hstays (callback_error hq' hq), fun hr => hnew' (hnew hr)⟩

/-- The request and the error that the method's callback leaves of the token. -/
def afterMethod (m : HttpMethod) : HttpRequest × Nat := if m = .INVALID_METHOD then ({}, 1000) else ({ method := m }, 0)

theorem callback_token (t text : Bytes) : HttpRequestParser.callback (requestText t text)
    ⟨.requestMethod, t.length, [⟨0, distance t.length 0⟩]⟩ ({}, 0) =
      some (afterMethod (charsToHttpMethod (requestText t text))) := by
  have hlen : distance t.length 0 ≤ t.length := by
    rw [distance_eq (Nat.zero_le _)]
    exact Nat.mod_le _ _
  have hstring : (stringAt (requestText t text) ⟨0, distance t.length 0⟩).isSome = true := by
    rw [stringAt, if_pos (by rw [requestText, List.length_append]; dsimp only; omega)]
    rfl
  obtain ⟨name, hname⟩ := Option.isSome_iff_exists.mp hstring
  unfold afterMethod
  simp only [HttpRequestParser.callback, List.drop_zero, hname]
  split
  · rename_i hinvalid
    rw [if_pos hinvalid]
    rfl
  · rename_i hvalid
    rw [if_neg hvalid]

/-- The method's callback comes once, at the space behind the token. -/
theorem execute_method (ht : IsMethodToken t) {nparse : Nat} {p : HttpRequestParser} {data : Bytes}
    (h : (HttpRequestParser.new uriRelaxed queryStart).execute (requestText t text) (requestText t text).length =
      some (nparse, p, data)) : Took (charsToHttpMethod (requestText t text)) p := by
  obtain ⟨⟨n, parser, events⟩, hexec, h⟩ := Option.bind_eq_some_iff.mp h
  obtain ⟨q, hq, h⟩ := Option.bind_eq_some_iff.mp h
  cases h
  have hlen : (requestText t text).length ≠ 0 := by
    rw [requestText, List.length_append, List.length_cons]
    omega
  obtain ⟨g', es, hscan, hcallbacks⟩ := takes_token uriRelaxed
    (g := (HttpParser.init uriRelaxed queryStart).reset.regs) ht.1 ht.2.1 ht.letters (callback_token t text)
  rcases HttpParser.execute_some hexec with ⟨h0, -⟩ | ⟨-, -, hevents⟩
  · exact absurd h0 hlen
  · have hsplit : requestText t text = (t ++ [32]) ++ text := by
      rw [requestText, List.append_assoc, List.singleton_append]
    have hrun : events = es ++ (scan automaton text (t ++ [32]).length (inTarget uriRelaxed) g').events := by
      rw [hevents, HttpParser.run, List.drop_zero, List.take_length, hsplit]
      have happ := scan_append automaton text (t ++ [32]) 0 [main uriRelaxed]
        (HttpParser.init uriRelaxed queryStart).reset.regs (congrArg Scan.ending hscan)
      have hfirst : scan automaton (t ++ [32]) 0 [main uriRelaxed] (HttpParser.init uriRelaxed queryStart).reset.regs =
          ⟨inTarget uriRelaxed, g', ([] ++ (t ++ [32])).length, .more, es⟩ := hscan
      rw [hfirst, Nat.zero_add] at happ
      exact congrArg Scan.events happ
    have hrest : ∀ e ∈ (scan automaton text (t ++ [32]).length (inTarget uriRelaxed) g').events,
        e.kind ≠ .requestMethod := by
      intro e he hkind
      refine Ragel.no_event emit_requestMethod text _ _ _ ?_ e he hkind
      intro m hm hx
      rw [List.mem_singleton.mp hm] at hx
      rcases List.mem_cons.mp hx with hx | hx
      · cases hx
      · exact uri_lacks_method uriRelaxed hx
    rw [hrun] at hq
    obtain ⟨hmethod, hstays, hnew⟩ := callbacks_rest hrest ((callbacks_append hcallbacks).symm.trans hq)
    unfold Took
    unfold afterMethod at hmethod hstays hnew
    by_cases hinvalid : charsToHttpMethod (requestText t text) = .INVALID_METHOD
    · rw [if_pos hinvalid] at hstays ⊢
      have herror : q.2 ≠ 0 := hstays (Nat.succ_ne_zero 999)
      simp [HttpRequestParser.hasError, herror]
    · rw [if_neg hinvalid] at hmethod hnew ⊢
      exact ⟨hmethod, fun h => Nat.zero_ne_add_one 999 (hnew h)⟩

/-- Converters and parser recognize a token exactly when the table has no name that is longer
    than it looks. -/
theorem recognized_iff (uriRelaxed : Bool) (queryStart : Nat) (ht : IsMethodToken t) :
    Recognized uriRelaxed queryStart t text ↔ Unextended t text := by
  rw [← chars_eq_string_iff ht]
  constructor
  · exact Recognized.converters
  · intro h
    exact ⟨h, fun _ _ _ hexec => h ▸ execute_method ht hexec⟩

def GET : Bytes := bytes ['G', 'E', 'T']

/-- ` / HTTP/1.1` behind the space, and the end of the block. -/
def rootText : Bytes := bytes ['/', ' ', 'H', 'T', 'T', 'P', '/', '1', '.', '1', '\n', '\n']

theorem recognized_iff_get : Recognized false 0 GET rootText :=
  (recognized_iff false 0 ⟨by decide, by decide, by decide⟩).mpr ⟨fun x hx hpre => by
    rw [prefix_name_eq hx (show (HttpMethod.GET, GET) ∈ methodMap by decide) hpre], by decide⟩

/-- "GETX" is no name, and the parser takes it for GET. -/
theorem getx_taken_for_get : IsMethodToken (GET ++ bytes ['X']) ∧
    stringToHttpMethod (GET ++ bytes ['X']) = .INVALID_METHOD ∧
    charsToHttpMethod (requestText (GET ++ bytes ['X']) rootText) = .GET ∧
    ((HttpRequestParser.new false 0).execute (requestText (GET ++ bytes ['X']) rootText)
      (requestText (GET ++ bytes ['X']) rootText).length).map (fun r => (r.2.1.hasError, r.2.1.data.method)) =
        some (false, .GET) :=
  ⟨⟨by decide, by decide, by decide⟩, by decide, by decide, by decide +kernel⟩

end LjrServer.Http
