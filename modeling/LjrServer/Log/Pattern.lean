/-
  LjrServer.Log.Pattern — the grammar of log patterns, and what a formatter prints (log.cpp).

  A pattern is made of characters that stand for themselves, `%%`, `%X` and `%X{fmt}`. The
  parser goes on behind the first '%' of `%%`, not behind both: the second one is taken for
  the beginning of an item.

  Proved:
  - `format_expected`: a formatter with the items of a pattern prints the characters between
    them as they are.
  - `parses_iff`: a pattern gets its items exactly when there is no `%%` in it.
-/

import LjrServer.Log.Formatter
import Mathlib.Data.List.Basic

namespace LjrServer.Log

structure LogEvent where
  file : String
  line : Int
  elapse : Nat
  threadId : Nat
  fiberId : Nat
  time : Nat
  threadName : String
  content : String
  /-- `getLogger()->getName()` -/
  loggerName : String

/-! ## Printing -/

def DateTimeFormat : String := "%Y.%m.%d %H:%M:%S"

/-- What each key of `s_format_items` prints; `strftime` gets the local time. -/
def itemTexts (strftime : String → Nat → String) (level : LogLevel) (event : LogEvent) (fmt : String) :
    List (String × String) :=
  [("m", event.content), ("p", level.ToString), ("r", toString event.elapse), ("c", event.loggerName),
    ("t", toString event.threadId), ("F", toString event.fiberId), ("N", event.threadName),
    ("d", strftime (if fmt = "" then DateTimeFormat else fmt) event.time), ("f", event.file),
    ("l", toString event.line),
    ("n", "\n"), ("T", "\t")]

def FormatItem.format (strftime : String → Nat → String) (level : LogLevel) (event : LogEvent) : FormatItem → String
  | .string str => str
  | .item key fmt => ((itemTexts strftime level event fmt).lookup key).getD ""

def LogFormatter.format (f : LogFormatter) (strftime : String → Nat → String) (level : LogLevel)
    (event : LogEvent) : String :=
  String.ofList (f.items.flatMap fun item => (item.format strftime level event).toList)

/-! ## The grammar -/

/-- The letters of `s_format_items`. -/
def directives : List Char := ['m', 'p', 'r', 'c', 't', 'F', 'N', 'd', 'f', 'l', 'n', 'T']

inductive Token where
  | char (c : Char)
  | percent
  | item (x : Char)
  | itemWith (x : Char) (fmt : List Char)
  deriving DecidableEq, Repr

namespace Token

def text : Token → List Char
  | char c => [c]
  | percent => ['%', '%']
  | item x => ['%', x]
  | itemWith x fmt => '%' :: x :: '{' :: (fmt ++ ['}'])

/-- What may stand behind `%X`. -/
def endsItem (c : Char) : Bool := ¬ c.isAlpha ∧ c ≠ '{' ∧ c ≠ '}'

/-- In a place with these characters behind it. -/
def FitsBefore (behind : List Char) : Token → Prop
  | char c => c ≠ '%'
  | percent => True
  | item x => x ∈ directives ∧ ∀ c, behind.head? = some c → endsItem c = true
  | itemWith x fmt => x ∈ directives ∧ '}' ∉ fmt

def spelled (ts : List Token) : List Char := ts.flatMap text

/-- A sequence of tokens that makes a pattern. -/
def WellFormed : List Token → Prop
  | [] => True
  | t :: ts => t.FitsBefore (spelled ts) ∧ WellFormed ts

/-- A literal run that has come to its end. -/
def closed (run : List Char) : List FormatItem := if run = [] then [] else [.string (String.ofList run)]

/-- The items in order; `run` is the literal run so far. -/
def expected : List Token → List Char → List FormatItem
  | [], run => closed run
  | char c :: ts, run => expected ts (run ++ [c])
  | percent :: ts, run => expected ts (run ++ ['%'])
  | item x :: ts, run => closed run ++ .item (String.ofList [x]) "" :: expected ts []
  | itemWith x fmt :: ts, run => closed run ++ .item (String.ofList [x]) (String.ofList fmt) :: expected ts []

/-- What a token prints. -/
def printed (strftime : String → Nat → String) (level : LogLevel) (event : LogEvent) : Token → List Char
  | char c => [c]
  | percent => ['%']
  | item x => (FormatItem.format strftime level event (.item (String.ofList [x]) "")).toList
  | itemWith x fmt => (FormatItem.format strftime level event (.item (String.ofList [x]) (String.ofList fmt))).toList

/-- No error, the items of the grammar, and the characters between them printed as they are. -/
structure Parses (ts : List Token) (f : LogFormatter) : Prop where
  error : f.error = false
  items : f.items = expected ts []
  prints : ∀ strftime level event,
    f.format strftime level event = String.ofList (ts.flatMap (printed strftime level event))

variable {ts : List Token} {run : List Char}

theorem format_closed (strftime : String → Nat → String) (level : LogLevel) (event : LogEvent) (run : List Char) :
    (closed run).flatMap (fun item => (item.format strftime level event).toList) = run := by
  by_cases h : run = []
  · rw [closed, if_pos h, h]
    rfl
  · rw [closed, if_neg h, List.flatMap_cons, List.flatMap_nil, List.append_nil, FormatItem.format, String.toList_ofList]

theorem format_expected (strftime : String → Nat → String) (level : LogLevel) (event : LogEvent) : ∀ (ts : List Token)
    (run : List Char), (expected ts run).flatMap (fun item => (item.format strftime level event).toList) =
      run ++ ts.flatMap (printed strftime level event)
  | [], run => by rw [expected, format_closed, List.flatMap_nil, List.append_nil]
  | char c :: ts, run => by rw [expected, format_expected _ _ _ ts, List.flatMap_cons, List.append_assoc]; rfl
  | percent :: ts, run => by rw [expected, format_expected _ _ _ ts, List.flatMap_cons, List.append_assoc]; rfl
  | item x :: ts, run => by
    rw [expected, List.flatMap_append, format_closed, List.flatMap_cons, format_expected _ _ _ ts, List.flatMap_cons]
    rfl
  | itemWith x fmt :: ts, run => by
    rw [expected, List.flatMap_append, format_closed, List.flatMap_cons, format_expected _ _ _ ts, List.flatMap_cons]
    rfl

end Token

/-! ## The parser on the tokens -/

namespace LogFormatter

open Token

theorem pieces_skip (rest nstr : List Char) : ∀ skipped : List Char,
    pieces (skipped ++ rest) skipped.length nstr = pieces rest 0 nstr
  | [] => rfl
  | _ :: skipped => pieces_skip rest nstr skipped

theorem pieces_char {c : Char} (hc : c ≠ '%') (rest nstr : List Char) :
    pieces (c :: rest) 0 nstr = pieces rest 0 (nstr ++ [c]) :=
  if_pos hc

theorem pieces_percent (rest nstr : List Char) :
    pieces ('%' :: '%' :: rest) 0 nstr = pieces ('%' :: rest) 0 (nstr ++ ['%']) :=
  rfl

theorem pieces_item {rest : List Char} (hrest : rest.head? ≠ some '%') (nstr : List Char) :
    pieces ('%' :: rest) 0 nstr = match itemName [] rest with
      | some (str, fmt, n) => textPiece nstr ++ .item (String.ofList str) (String.ofList fmt) :: pieces rest n []
      | none => .patternError :: pieces rest 0 nstr :=
  if_neg hrest

theorem itemFormat_eq (behind : List Char) : ∀ (rest fmt : List Char), '}' ∉ rest →
    itemFormat fmt (rest ++ '}' :: behind) = some (fmt ++ rest, rest.length + 1)
  | [], fmt, _ => by rw [List.nil_append, itemFormat, if_pos rfl, List.append_nil]; rfl
  | c :: rest, fmt, h => by
    have hc : c ≠ '}' := fun he => h (he ▸ List.mem_cons_self)
    have ih := itemFormat_eq behind rest (fmt ++ [c]) fun he => h (List.mem_cons_of_mem _ he)
    rw [List.cons_append, itemFormat, if_neg hc, ih, List.append_assoc]
    rfl

theorem directives_checked : (directives.all fun x =>
    x.isAlpha && x != '{' && x != '%' && formatItems.contains (String.ofList [x])) = true := by
  decide

theorem directive_facts {x : Char} (hx : x ∈ directives) :
    x.isAlpha = true ∧ x ≠ '{' ∧ x ≠ '%' ∧ String.ofList [x] ∈ formatItems := by
  have hchecked := List.all_eq_true.mp directives_checked x hx
  simpa [and_assoc] using hchecked

theorem itemName_directive {x : Char} (hx : x ∈ directives) (rest : List Char) :
    itemName [] (x :: rest) = (itemName [x] rest).map fun (str, fmt, n) => (str, fmt, n + 1) := by
  obtain ⟨halpha, hbrace, _⟩ := directive_facts hx
  rw [itemName, if_neg fun h => h.1 halpha, if_neg hbrace]
  rfl

theorem itemName_ends {rest : List Char} (h : ∀ c, rest.head? = some c → endsItem c = true) (str : List Char) :
    itemName str rest = some (str, [], 0) := by
  cases rest with
  | nil => rfl
  | cons c rest =>
    have hc : ¬ c.isAlpha ∧ c ≠ '{' ∧ c ≠ '}' := of_decide_eq_true (h c rfl)
    rw [itemName, if_pos hc]

theorem itemName_format {fmt : List Char} (h : '}' ∉ fmt) (str behind : List Char) :
    itemName str ('{' :: (fmt ++ '}' :: behind)) = some (str, fmt, fmt.length + 2) := by
  rw [itemName, if_neg (by decide), if_pos rfl, itemFormat_eq behind fmt [] h]
  rfl

theorem textPiece_format (run : List Char) :
    (textPiece run).map formatItem = closed run ∧ (textPiece run).any pieceError = false := by
  unfold textPiece closed
  split
  · exact ⟨rfl, rfl⟩
  · exact ⟨rfl, rfl⟩

/-- An item of a directive, with the run before it. -/
theorem item_right {x : Char} (hx : x ∈ directives) (run : List Char) (fmt : String) (ps : List Piece)
    (its : List FormatItem) :
    (((textPiece run ++ .item (String.ofList [x]) fmt :: ps).any pieceError = false ∧
      (textPiece run ++ .item (String.ofList [x]) fmt :: ps).map formatItem =
        closed run ++ .item (String.ofList [x]) fmt :: its) ↔
      ps.any pieceError = false ∧ ps.map formatItem = its) := by
  obtain ⟨_, _, _, hkey⟩ := directive_facts hx
  obtain ⟨hformat, herror⟩ := textPiece_format run
  have hitem : formatItem (.item (String.ofList [x]) fmt) = .item (String.ofList [x]) fmt := if_pos hkey
  have hgood : pieceError (.item (String.ofList [x]) fmt) = false := decide_eq_false fun h => h hkey
  rw [List.any_append, List.any_cons, herror, hgood, Bool.false_or, Bool.false_or, List.map_append,
    List.map_cons, hformat,
    hitem, List.append_cancel_left_eq, List.cons.injEq, eq_self, true_and]

/-! ### `%%` -/

/-- The literal characters tokens begin with. -/
def leading : List Token → List Char
  | .char c :: ts => c :: leading ts
  | .percent :: ts => '%' :: leading ts
  | [] => []
  | .item _ :: _ => []
  | .itemWith _ _ :: _ => []

/-- How many '%' a text begins with. -/
def percents (text : List Char) : Nat := (text.takeWhile (· = '%')).length

theorem expected_head : ∀ (ts : List Token) {run : List Char}, run ≠ [] →
    (expected ts run).head? = some (.string (String.ofList (run ++ leading ts)))
  | [], run, h => by rw [expected, closed, if_neg h, leading, List.append_nil]; rfl
  | .char c :: ts, run, h => by
    rw [expected, expected_head ts (List.append_ne_nil_of_left_ne_nil h [c]), leading, List.append_assoc]
    rfl
  | .percent :: ts, run, h => by
    rw [expected, expected_head ts (List.append_ne_nil_of_left_ne_nil h ['%']), leading, List.append_assoc]
    rfl
  | .item x :: ts, run, h => by rw [expected, closed, if_neg h, leading, List.append_nil]; rfl
  | .itemWith x fmt :: ts, run, h => by rw [expected, closed, if_neg h, leading, List.append_nil]; rfl

theorem percents_cons (rest : List Char) : percents ('%' :: rest) = percents rest + 1 := rfl

/-- The parser takes all but the last of several '%' for themselves. -/
theorem pieces_percents : ∀ (rest nstr : List Char), pieces ('%' :: rest) 0 nstr =
    pieces ('%' :: rest.dropWhile (· = '%')) 0 (nstr ++ List.replicate (percents rest) '%')
  | [], nstr => by rw [percents, List.takeWhile_nil, List.length_nil, List.replicate_zero, List.append_nil]; rfl
  | c :: rest, nstr => by
    by_cases hc : c = '%'
    · subst hc
      rw [pieces_percent, pieces_percents rest, percents_cons, List.replicate_succ, List.append_assoc]
      rfl
    · rw [percents, List.takeWhile_cons_of_neg (by simpa using hc), List.dropWhile_cons_of_neg (by simpa using hc),
        List.length_nil, List.replicate_zero, List.append_nil]

/-- A literal '%' takes two in the pattern. -/
theorem leading_le : ∀ {ts : List Token}, WellFormed ts → (∀ c ∈ leading ts, c = '%') →
    (leading ts).length ≤ percents (spelled ts)
  | [], _, _ => Nat.zero_le _
  | .char c :: ts, h, hall => absurd (hall c List.mem_cons_self) h.1
  | .percent :: ts, h, hall => by
    have ih := leading_le h.2 fun c hc => hall c (List.mem_cons_of_mem _ hc)
    have hpercents : percents (spelled (.percent :: ts)) = percents (spelled ts) + 1 + 1 :=
      (percents_cons _).trans (congrArg (· + 1) (percents_cons _))
    rw [leading, List.length_cons, hpercents]
    omega
  | .item _ :: _, _, _ => Nat.zero_le _
  | .itemWith _ _ :: _, _, _ => Nat.zero_le _

/-- So what the grammar and the parser make of a `%%` differ unless it ends the pattern. -/
theorem eq_nil_of_leading {ts : List Token} (h : WellFormed ts)
    (hleading : leading ts = List.replicate (percents (spelled ts)) '%') : ts = [] := by
  have hall : ∀ c ∈ leading ts, c = '%' := by
    intro c hc
    rw [hleading] at hc
    exact List.eq_of_mem_replicate hc
  have hlength : (leading ts).length = percents (spelled ts) := by rw [hleading, List.length_replicate]
  cases ts with
  | nil => rfl
  | cons t ts =>
    exfalso
    cases t with
    | char c => exact h.1 (hall c List.mem_cons_self)
    | percent =>
      have hle := leading_le h.2 fun c hc => hall c (List.mem_cons_of_mem _ hc)
      have hpercents : percents (spelled (.percent :: ts)) = percents (spelled ts) + 1 + 1 :=
        (percents_cons _).trans (congrArg (· + 1) (percents_cons _))
      rw [leading, List.length_cons, hpercents] at hlength
      omega
    | item x =>
      have hpercents : percents (spelled (.item x :: ts)) = percents (x :: spelled ts) + 1 := percents_cons _
      rw [leading, List.length_nil, hpercents] at hlength
      omega
    | itemWith x fmt =>
      have hpercents : percents (spelled (.itemWith x fmt :: ts)) =
          percents (x :: '{' :: (fmt ++ ['}']) ++ spelled ts) + 1 :=
        percents_cons _
      rw [leading, List.length_nil, hpercents] at hlength
      omega

theorem percent_wrong {ts : List Token} (h : WellFormed ts) (run : List Char)
    (herror : (pieces (spelled (.percent :: ts)) 0 run).any pieceError = false)
    (hitems : (pieces (spelled (.percent :: ts)) 0 run).map formatItem = expected (.percent :: ts) run) : False := by
  have hpieces : pieces (spelled (.percent :: ts)) 0 run = pieces ('%' :: (spelled ts).dropWhile (· = '%')) 0
      (run ++ ['%'] ++ List.replicate (percents (spelled ts)) '%') :=
    (pieces_percent (spelled ts) run).trans (pieces_percents (spelled ts) _)
  obtain ⟨q, hq⟩ : ∃ q, q = percents (spelled ts) := ⟨_, rfl⟩
  have htail : ((spelled ts).dropWhile (· = '%')).head? ≠ some '%' := by
    intro hhead
    have hnot := List.head?_dropWhile_not (fun c => decide (c = '%')) (spelled ts)
    rw [hhead] at hnot
    exact absurd hnot (by decide)
  rw [hpieces, ← hq, pieces_item htail] at herror hitems
  have hrun : run ++ ['%'] ≠ [] := List.append_ne_nil_of_right_ne_nil run (List.cons_ne_nil _ _)
  cases hname : itemName [] ((spelled ts).dropWhile (· = '%')) with
  | none =>
    rw [hname] at herror
    exact Bool.noConfusion herror
  | some found =>
    obtain ⟨str, fmt, n⟩ := found
    have htext : textPiece (run ++ ['%'] ++ List.replicate q '%') =
        [.text (String.ofList (run ++ ['%'] ++ List.replicate q '%'))] :=
      if_neg (List.append_ne_nil_of_left_ne_nil hrun _)
    rw [hname, htext] at herror hitems
    -- the first items of the two, a literal run each
    have hhead := congrArg List.head? hitems
    rw [expected, expected_head ts hrun] at hhead
    have hruns : run ++ ['%'] ++ List.replicate q '%' = run ++ ['%'] ++ leading ts :=
      String.ofList_injective (FormatItem.string.inj (Option.some.inj hhead))
    have hnil : ts = [] := eq_nil_of_leading h (by rw [← hq]; exact (List.append_cancel_left hruns).symm)
    -- and then the second '%' is an item without a name
    subst hnil
    cases hname
    exact Bool.noConfusion herror

/-! ### All tokens -/

theorem pieces_expected_iff : ∀ {ts : List Token}, WellFormed ts → ∀ run : List Char,
    ((pieces (spelled ts) 0 run).any pieceError = false ∧
      (pieces (spelled ts) 0 run).map formatItem = expected ts run) ↔
      Token.percent ∉ ts
  | [], _, run => by
    obtain ⟨hformat, herror⟩ := textPiece_format run
    exact iff_of_true ⟨herror, hformat⟩ List.not_mem_nil
  | .char c :: ts, h, run => by
    have hpieces : pieces (spelled (.char c :: ts)) 0 run = pieces (spelled ts) 0 (run ++ [c]) := pieces_char h.1 _ _
    rw [hpieces, expected, pieces_expected_iff h.2, List.mem_cons, or_iff_right Token.noConfusion]
  | .percent :: ts, h, run =>
    iff_of_false (fun hboth => percent_wrong h.2 run hboth.1 hboth.2) fun hnot => hnot List.mem_cons_self
  | .item x :: ts, h, run => by
    obtain ⟨hx, hends⟩ := h.1
    have hhead : (x :: spelled ts).head? ≠ some '%' := fun he => (directive_facts hx).2.2.1 (Option.some.inj he)
    have hname : itemName [] (x :: spelled ts) = some ([x], [], 1) := by
      rw [itemName_directive hx, itemName_ends hends]
      rfl
    have hpieces : pieces (spelled (.item x :: ts)) 0 run =
        textPiece run ++ .item (String.ofList [x]) "" :: pieces (spelled ts) 0 [] := by
      refine (pieces_item hhead run).trans ?_
      rw [hname]
      exact congrArg (textPiece run ++ Piece.item (String.ofList [x]) "" :: ·) (pieces_skip (spelled ts) [] [x])
    rw [hpieces, expected, item_right hx, pieces_expected_iff h.2, List.mem_cons, or_iff_right Token.noConfusion]
  | .itemWith x fmt :: ts, h, run => by
    obtain ⟨hx, hfmt⟩ := h.1
    have hhead : (x :: '{' :: (fmt ++ '}' :: spelled ts)).head? ≠ some '%' :=
      fun he => (directive_facts hx).2.2.1 (Option.some.inj he)
    have hname : itemName [] (x :: '{' :: (fmt ++ '}' :: spelled ts)) = some ([x], fmt, fmt.length + 2 + 1) := by
      rw [itemName_directive hx, itemName_format hfmt]
      rfl
    have hspelled : spelled (.itemWith x fmt :: ts) = '%' :: x :: '{' :: (fmt ++ '}' :: spelled ts) := by
      simp [spelled, text]
    have hskip : pieces (x :: '{' :: (fmt ++ '}' :: spelled ts)) (fmt.length + 2 + 1) [] =
        pieces (spelled ts) 0 [] := by
      have hsplit : x :: '{' :: (fmt ++ '}' :: spelled ts) = (x :: '{' :: (fmt ++ ['}'])) ++ spelled ts := by simp
      have hlength : fmt.length + 2 + 1 = (x :: '{' :: (fmt ++ ['}'])).length := by simp
      rw [hsplit, hlength, pieces_skip]
    have hpieces : pieces (spelled (.itemWith x fmt :: ts)) 0 run =
        textPiece run ++ .item (String.ofList [x]) (String.ofList fmt) :: pieces (spelled ts) 0 [] := by
      rw [hspelled, pieces_item hhead, hname]
      dsimp only
      rw [hskip]
    rw [hpieces, expected, item_right hx, pieces_expected_iff h.2, List.mem_cons, or_iff_right Token.noConfusion]

/-- A pattern without `%%` is parsed by the grammar, and one with it is not. -/
theorem parses_iff {ts : List Token} (h : WellFormed ts) :
    Parses ts (new (String.ofList (spelled ts))) ↔ Token.percent ∉ ts := by
  have hiff := pieces_expected_iff h []
  have hnew : new (String.ofList (spelled ts)) = ⟨String.ofList (spelled ts),
      (pieces (spelled ts) 0 []).map formatItem, (pieces (spelled ts) 0 []).any pieceError⟩ := by
    rw [new, String.toList_ofList]
  rw [hnew]
  constructor
  · intro hparses
    exact hiff.mp ⟨hparses.error, hparses.items⟩
  · intro hno
    obtain ⟨herror, hitems⟩ := hiff.mpr hno
    refine ⟨herror, hitems, fun strftime level event => ?_⟩
    rw [LogFormatter.format, hitems, format_expected]
    rfl

/-- `[%p]{%d{%Y}%T%m` -/
def bracketed : List Token := [.char '[', .item 'p', .char ']',
    .char '{', .itemWith 'd' ['%', 'Y'], .item 'T', .item 'm']

theorem bracketed_wellFormed : WellFormed bracketed := by
  have hitem : ∀ (x : Char) (behind : List Char), x ∈ directives → (behind.head?.all endsItem) = true →
      (Token.item x).FitsBefore behind := by
    intro x behind hx hends
    refine ⟨hx, fun c hc => ?_⟩
    rw [hc] at hends
    exact hends
  refine ⟨?_, ?_, ?_, ?_, ?_, ?_, ?_, trivial⟩
  · exact (by decide : '[' ≠ '%')
  · exact hitem 'p' _ (by decide) (by decide)
  · exact (by decide : ']' ≠ '%')
  · exact (by decide : '{' ≠ '%')
  · exact ⟨by decide, by decide⟩
  · exact hitem 'T' _ (by decide) (by decide)
  · exact hitem 'm' _ (by decide) (by decide)

theorem parses_iff_bracketed : Parses bracketed (new (String.ofList (spelled bracketed))) :=
  (parses_iff bracketed_wellFormed).mpr (by decide)

/-- `%%m` is not the text "%m" but a '%' and the message. -/
theorem percent_starts_item : WellFormed [.percent, .char 'm'] ∧
    ¬ Parses [.percent, .char 'm'] (new (String.ofList (spelled [.percent, .char 'm']))) := by
  refine ⟨⟨trivial, (by decide : 'm' ≠ '%'), trivial⟩, ?_⟩
  intro h
  exact absurd h.items (by decide)

end LogFormatter

end LjrServer.Log
