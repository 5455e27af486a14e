/-
  LjrServer.Http.ResponseLines — what a call of the response parser makes of header lines.

  The grammar has four alternatives for a line: "Transfer-Encoding: chunked", "Connection:
  close", "Content-Length: n", and any field. All four read a line at once, so the state is a
  set of threads. What is followed is the place in the line: for each place there are finitely
  many threads, one of which is the general field's and always there, and what they do on a
  byte is settled by evaluation.

  A line with an empty value leaves the threads of the other alternatives behind it: they
  still read blanks, and the line's end is one to them. They die in the next line.

  Proved:
  - `step_at`: a step goes from the threads of one place to those of the next.
  - `At.goes`: and from some of those there to some of those here, where these lead to no others.
-/

import LjrServer.Lib.RagelLines
import LjrServer.Http.ResponseHeader
import LjrServer.Http.ScanParts

namespace LjrServer.Http.HttpClient

open LjrServer.Lib LjrServer.Lib.Scanner LjrServer.Lib.Ragel LjrServer.Lib.Ragel.Machine

/-! ## The threads of a line -/

def TRANSFER_ENCODING : List Nat :=
  ['T', 'r', 'a', 'n', 's', 'f', 'e', 'r', '-', 'E', 'n', 'c', 'o', 'd', 'i', 'n', 'g'].map Char.toNat
def CHUNKED : List Nat := ['c', 'h', 'u', 'n', 'k', 'e', 'd'].map Char.toNat
def CONNECTION : List Nat := ['C', 'o', 'n', 'n', 'e', 'c', 't', 'i', 'o', 'n'].map Char.toNat
def CLOSE : List Nat := ['c', 'l', 'o', 's', 'e'].map Char.toNat
def CONTENT_LENGTH : List Nat :=
  ['C', 'o', 'n', 't', 'e', 'n', 't', '-', 'L', 'e', 'n', 'g', 't', 'h'].map Char.toNat

def fieldEnd : M := .prioEnter 2 1 CRLF
def fieldText : M := .leaving 20 .writeValue (.entering 19 .startValue (.star any))
def fieldValue : M := .cat (.prioAll 2 0 (.leaving 20 .writeValue (.star any))) fieldEnd
def fieldColon : M := .cat (.prioAll 2 0 (.cat (.star space) fieldText)) fieldEnd
def fieldName : M :=
  .cat (.prioAll 2 0 (.cat (.leaving 18 .writeField (.star token)) (.cat (ch ':') (.cat (.star space) fieldText)))) fieldEnd

def encodingColon : M :=
  .cat (.star space) (.cat (.leaving 9 .writeValue (.entering 8 .startValue (litI CHUNKED))) (.finishing 10 .transChunked CRLF))

/-- Behind `k` characters of the name, as the two below. -/
def encodingName (k : Nat) : M := .cat (.leaving 7 .writeField (litI (TRANSFER_ENCODING.drop k))) (.cat (ch ':') encodingColon)

def closeColon : M := .cat (.star space) (.cat (litI CLOSE) (.leaving 11 .writeConnectionClose CRLF))
def closeName (k : Nat) : M := seq (litI (CONNECTION.drop k)) (.cat (ch ':') closeColon)
def closeValue (k : Nat) : M := seq (litI (CLOSE.drop k)) (.leaving 11 .writeConnectionClose CRLF)

def lengthColon : M :=
  .cat (.star space)
    (.cat (.leaving 16 .writeValue (.leaving 15 .writeContentLen (.entering 14 .startValue (plus digit)))) CRLF)
def lengthName (k : Nat) : M := .cat (.leaving 13 .writeField (litI (CONTENT_LENGTH.drop k))) (.cat (ch ':') lengthColon)
def lengthValue : M := .cat (.leaving 16 .writeValue (.leaving 15 .writeContentLen (.star digit))) CRLF

/-- Behind a line that says "close". -/
def closed : M := .leaving 11 .writeConnectionClose .eps

def values : List M := lengthValue :: (List.range 5).map fun k => closeValue (k + 1)

def names : List M :=
  fieldName :: ((List.range 10).map fun k => closeName (k + 1)) ++ (List.range 14).map (fun k => lengthName (k + 1)) ++ values

/-! ## Places -/

/-- `encoding`: how much of "transfer-encoding" the name is, if it is the beginning of it. -/
inductive Place where
  | start
  | name (encoding : Option Nat)
  | colon
  | value
  | newline
  deriving DecidableEq, Repr

def tokenSet : CharSet := { incl := [(0, 127)], excl := CTL ++ tspecials }
def colonSet : CharSet := { incl := [(58, 58)] }
def blankSet : CharSet := { incl := [(32, 32)] }
def spaceSet : CharSet := { incl := [(9, 13), (32, 32)] }
def returnSet : CharSet := { incl := [(13, 13)] }
def newlineSet : CharSet := { incl := [(10, 10)] }

/-- A character of the name in either case. -/
def encodingSets : List CharSet := TRANSFER_ENCODING.map fun c =>
  { incl := if 65 ≤ c ∧ c ≤ 90 then [(c, c), (c + 32, c + 32)]
      else if 97 ≤ c ∧ c ≤ 122 then [(c, c), (c - 32, c - 32)] else [(c, c)] }

namespace Place

def advance (encoding : Option Nat) (c : Nat) : Option Nat :=
  encoding.bind fun k => (encodingSets[k]?).bind fun x => if x.mem c then some (k + 1) else none

/-- The place behind a byte, in a line that `dump` writes. -/
def next : Place → Nat → Option Place
  | .start, c => if tokenSet.mem c then some (.name (advance (some 0) c)) else none
  | .name encoding, c =>
    if tokenSet.mem c then some (.name (advance encoding c))
    else if colonSet.mem c ∧ encoding ≠ some 17 then some .colon else none
  | .colon, c =>
    if blankSet.mem c then some .colon
    else if returnSet.mem c then some .newline
    else if spaceSet.mem c then none else some .value
  | .value, c => if returnSet.mem c then some .newline else if newlineSet.mem c then none else some .value
  | .newline, c => if newlineSet.mem c then some .start else none

def threads : Place → List M
  | .start => [.eps, closed, closeColon, lengthColon]
  | .name none => names
  | .name (some k) => encodingName k :: names
  | .colon => [fieldColon, fieldValue, closeColon, lengthColon]
  | .value => fieldValue :: values
  | .newline => [.char 10, .leaving 11 .writeConnectionClose (.char 10), closeColon, lengthColon]

/-- The thread of the general field. -/
def field : Place → M
  | .start => .eps
  | .name _ => fieldName
  | .colon => fieldColon
  | .value => fieldValue
  | .newline => .char 10

/-- What the threads may execute on a byte, with the time stamps. -/
def allowed : Place → Nat → List (Nat × Action)
  | .start, _ => [(6, .startField), (11, .writeConnectionClose), (12, .startField), (14, .startValue), (17, .startField)]
  | .name _, c => if colonSet.mem c then [(7, .writeField), (13, .writeField), (18, .writeField)] else []
  | .colon, c =>
    if returnSet.mem c then [(19, .startValue), (20, .writeValue)] else [(14, .startValue), (19, .startValue)]
  | .value, c => if returnSet.mem c then [(15, .writeContentLen), (16, .writeValue), (20, .writeValue)] else []
  | .newline, _ => []

/-- What the general field's thread executes. -/
def needed : Place → Nat → List (Nat × Action)
  | .start, _ => [(17, .startField)]
  | .name _, c => if colonSet.mem c then [(18, .writeField)] else []
  | .colon, c =>
    if blankSet.mem c then []
    else if returnSet.mem c then [(19, .startValue), (20, .writeValue)] else [(19, .startValue)]
  | .value, c => if returnSet.mem c then [(20, .writeValue)] else []
  | .newline, _ => []

end Place

/-! ## Evaluation -/

/-- Behind the end of a line the next one begins. -/
def lineEdges (m : M) (c : Nat) : List (Edge Action) :=
  if m.nullable then ((messageHeader 6).edges c).map (·.act m.out) else m.edges c

/-- A transition of the text goes on at a return, where the line's end is entered. -/
def beaten (c : Nat) (e : Edge Action) : Bool := returnSet.mem c && e.prios = [(2, 0)]

def threadOk (x : Place × M) (c : Nat) : Bool :=
  match x.1.next c with
  | none => true
  | some p =>
    (!x.2.nullable || x.2.edges c = [] && CRLF.edges c = []) &&
      (lineEdges x.2 c).all fun e =>
        (beaten c e || e.next ∈ p.threads && e.acts.all fun z => z ∈ x.1.allowed c) &&
          e.prios.all fun q => q = (2, 0) || returnSet.mem c && q = (2, 1)

def fieldOk (p : Place) (c : Nat) : Bool :=
  match p.next c with
  | none => true
  | some p' =>
    (lineEdges p.field c).any fun e =>
      e.next = p'.field && (p.needed c).all (fun z => z ∈ e.acts) && (!returnSet.mem c || e.prios = [(2, 1)])

def places : List Place := [.start, .name none, .colon, .value, .newline]

def placed : List (Place × M) :=
  (places.flatMap fun p => p.threads.map fun m => (p, m)) ++
    (List.range 17).map fun k => (.name (some (k + 1)), encodingName (k + 1))

def lineKinds : List Nat :=
  ['a', 'b', 'c', 'd', 'e', 'f', 'g', 'h', 'i', 'k', 'l', 'n', 'o', 'r', 's', 't', 'u', '-', '0', ':', ' ', '\r', '\n', '\t',
    '\x00', '(', '!'].map Char.toNat ++ [200]

def lineSets : List CharSet :=
  firsts ([tokenSet, colonSet, blankSet, spaceSet, returnSet, newlineSet] ++ encodingSets ++
    charSets [messageHeader 6 :: placed.map (·.2)])

theorem lines_represented : represented lineSets lineKinds = true := by decide +kernel

theorem threads_evaluated : (placed.all fun x => lineKinds.all (threadOk x)) = true := by decide +kernel

theorem fields_evaluated : (places.all fun p => lineKinds.all (fieldOk p)) = true := by decide +kernel

/-! ### Every byte -/

theorem advance_congr {c d : Nat} (h : ∀ x ∈ encodingSets, x.mem c = x.mem d) (encoding : Option Nat) :
    Place.advance encoding c = Place.advance encoding d := by
  unfold Place.advance
  refine congrArg _ (funext fun k => ?_)
  cases hk : encodingSets[k]? with
  | none => rfl
  | some x =>
    have hx := h x (List.mem_of_getElem? hk)
    simp only [Option.bind_some, hx]

/-- Bytes that no set of `lineSets` tells apart. -/
structure SameKind (c d : Nat) : Prop where
  token : tokenSet.mem c = tokenSet.mem d
  colon : colonSet.mem c = colonSet.mem d
  blank : blankSet.mem c = blankSet.mem d
  space : spaceSet.mem c = spaceSet.mem d
  return_ : returnSet.mem c = returnSet.mem d
  newline : newlineSet.mem c = newlineSet.mem d
  encoding : ∀ x ∈ encodingSets, x.mem c = x.mem d
  line : (messageHeader 6).edges c = (messageHeader 6).edges d
  thread : ∀ x ∈ placed, x.2.edges c = x.2.edges d

theorem sameKind_of_lineSets {c d : Nat} (h : ∀ x ∈ lineSets, x.mem c = x.mem d) : SameKind c d := by
  have hset : ∀ x ∈ [tokenSet, colonSet, blankSet, spaceSet, returnSet, newlineSet] ++ encodingSets ++
      charSets [messageHeader 6 :: placed.map (·.2)], x.mem c = x.mem d := fun x hx => h x (mem_firsts.mpr hx)
  have hfirst : ∀ x ∈ [tokenSet, colonSet, blankSet, spaceSet, returnSet, newlineSet], x.mem c = x.mem d := fun x hx =>
    hset x (List.mem_append_left _ (List.mem_append_left _ hx))
  have hedges : ∀ m ∈ messageHeader 6 :: placed.map (·.2), m.edges c = m.edges d := fun m hm =>
    edges_congr fun x hx => hset x (List.mem_append_right _ (mem_firsts.mpr
      (List.mem_flatMap.mpr ⟨_, List.mem_singleton_self _, List.mem_flatMap.mpr ⟨m, hm, hx⟩⟩)))
  exact {
    token := hfirst _ (by simp)
    colon := hfirst _ (by simp)
    blank := hfirst _ (by simp)
    space := hfirst _ (by simp)
    return_ := hfirst _ (by simp)
    newline := hfirst _ (by simp)
    encoding := fun x hx => hset x (List.mem_append_left _ (List.mem_append_right _ hx))
    line := hedges _ List.mem_cons_self
    thread := fun x hx => hedges _ (List.mem_cons_of_mem _ (List.mem_map_of_mem hx)) }

section
variable {c d : Nat} (h : SameKind c d)
include h

theorem SameKind.next (p : Place) : p.next c = p.next d := by
  have hadvance := advance_congr h.encoding
  cases p <;> simp only [Place.next, h.token, h.colon, h.blank, h.space, h.return_, h.newline, hadvance]

theorem SameKind.allowed (p : Place) : p.allowed c = p.allowed d := by
  cases p <;> simp only [Place.allowed, h.colon, h.return_]

theorem SameKind.needed (p : Place) : p.needed c = p.needed d := by
  cases p <;> simp only [Place.needed, h.colon, h.blank, h.return_]

theorem SameKind.lineEdges {m : M} (hm : m.edges c = m.edges d) : lineEdges m c = lineEdges m d := by
  simp only [HttpClient.lineEdges, h.line, hm]

end

theorem threads_checked : checked placed threadOk = true := by
  refine checked_of_kinds lines_represented ?_ threads_evaluated
  intro x hx c d hcd
  have hkind := sameKind_of_lineSets hcd
  have hcrlf : CRLF.edges c = CRLF.edges d := by
    refine edges_congr fun y hy => ?_
    have hsets : ∀ y ∈ CRLF.sets, y = returnSet ∨ y = newlineSet := by decide
    rcases hsets y hy with rfl | rfl
    · exact hkind.return_
    · exact hkind.newline
  simp only [threadOk, hkind.next, hkind.allowed, hkind.lineEdges (hkind.thread x hx), hkind.thread x hx, hcrlf, beaten,
    hkind.return_]

theorem fields_checked : checked places fieldOk = true := by
  refine checked_of_kinds lines_represented ?_ fields_evaluated
  intro p hp c d hcd
  have hkind := sameKind_of_lineSets hcd
  have hfield : p.field.edges c = p.field.edges d := by
    have hall : ∀ p ∈ places, p.field ∈ placed.map (·.2) := by decide +kernel
    obtain ⟨x, hx, hxp⟩ := List.mem_map.mp (hall p hp)
    rw [← hxp]
    exact hkind.thread x hx
  simp only [fieldOk, hkind.next, hkind.needed, hkind.lineEdges hfield, hkind.return_]

/-! ## Steps -/

def lined (m : M) : M := repeated 28 .done (messageHeader 6) CRLF m

/-- The state is at a place of a line: its threads are some of those there, the general
    field's among them. -/
structure At (p : Place) (s : State) : Prop where
  place : p ∈ places ∨ ∃ k < 17, p = .name (some (k + 1))
  threads : ∀ m ∈ s, ∃ n ∈ p.threads, m = lined n
  field : lined p.field ∈ s

variable {p p' : Place} {s : State} {b : UInt8}

theorem mem_placed {m : M} (hp : p ∈ places) (hm : m ∈ p.threads) : (p, m) ∈ placed :=
  List.mem_append_left _ (List.mem_flatMap.mpr ⟨p, hp, List.mem_map_of_mem hm⟩)

theorem advance_place (encoding : Option Nat) (c : Nat) :
    Place.name (Place.advance encoding c) ∈ places ∨ ∃ k < 17, Place.name (Place.advance encoding c) = .name (some (k + 1)) := by
  cases h : Place.advance encoding c with
  | none => exact .inl (by decide)
  | some k =>
    obtain ⟨j, _, h⟩ := Option.bind_eq_some_iff.mp h
    obtain ⟨x, hx, h⟩ := Option.bind_eq_some_iff.mp h
    have hj : j < encodingSets.length := (List.getElem?_eq_some_iff.mp hx).1
    have hk : k = j + 1 := by
      split at h
      · exact (Option.some.inj h).symm
      · cases h
    exact .inr ⟨j, by simpa [encodingSets, TRANSFER_ENCODING] using hj, by rw [hk]⟩

theorem next_place {c : Nat} (h : p.next c = some p') : p' ∈ places ∨ ∃ k < 17, p' = .name (some (k + 1)) := by
  have hname : ∀ q, p' = q → (∃ encoding d, q = .name (Place.advance encoding d)) ∨ q ∈ places →
      p' ∈ places ∨ ∃ k < 17, p' = .name (some (k + 1)) := by
    intro q hq hcase
    rw [hq]
    rcases hcase with ⟨encoding, d, rfl⟩ | hmem
    · exact advance_place encoding d
    · exact .inl hmem
  cases p with
  | start =>
    simp only [Place.next] at h
    split at h
    · exact hname _ (Option.some.inj h).symm (.inl ⟨_, _, rfl⟩)
    · cases h
  | name encoding =>
    simp only [Place.next] at h
    split at h
    · exact hname _ (Option.some.inj h).symm (.inl ⟨_, _, rfl⟩)
    · split at h
      · exact hname _ (Option.some.inj h).symm (.inr (by decide))
      · cases h
  | colon =>
    simp only [Place.next] at h
    split at h
    · exact hname _ (Option.some.inj h).symm (.inr (by decide))
    · split at h
      · exact hname _ (Option.some.inj h).symm (.inr (by decide))
      · split at h
        · cases h
        · exact hname _ (Option.some.inj h).symm (.inr (by decide))
  | value =>
    simp only [Place.next] at h
    split at h
    · exact hname _ (Option.some.inj h).symm (.inr (by decide))
    · split at h
      · cases h
      · exact hname _ (Option.some.inj h).symm (.inr (by decide))
  | newline =>
    simp only [Place.next] at h
    split at h
    · exact hname _ (Option.some.inj h).symm (.inr (by decide))
    · cases h

/-- The threads of a name are there whatever the name begins. -/
theorem names_threads (encoding : Option Nat) {m : M} (h : m ∈ names) : m ∈ (Place.name encoding).threads := by
  cases encoding with
  | none => exact h
  | some k => exact List.mem_cons_of_mem _ h

/-- Nor does what the name begins tell where a byte leads. -/
theorem next_name {encoding : Option Nat} {c : Nat} (h : (Place.name encoding).next c = some p') :
    ((∃ q, p' = .name q) ∧ (Place.name none).next c = some (.name none)) ∨
      (p' = .colon ∧ (Place.name none).next c = some .colon) := by
  simp only [Place.next] at h
  by_cases htoken : tokenSet.mem c = true
  · rw [if_pos htoken] at h
    exact .inl ⟨⟨_, (Option.some.inj h).symm⟩, if_pos htoken⟩
  · rw [if_neg htoken] at h
    split at h
    · next hcolon => exact .inr ⟨(Option.some.inj h).symm, by simp [Place.next, htoken, hcolon.1]⟩
    · cases h

/-- What a thread at a place does on a byte. -/
structure Does (p p' : Place) (c : Nat) (m : M) : Prop where
  ended : m.nullable = true → m.edges c = [] ∧ CRLF.edges c = []
  next : ∀ e ∈ lineEdges m c, beaten c e = true ∨ (e.next ∈ p'.threads ∧ ∀ z ∈ e.acts, z ∈ p.allowed c)
  prios : ∀ e ∈ lineEdges m c, ∀ q ∈ e.prios, q = (2, 0) ∨ (returnSet.mem c = true ∧ q = (2, 1))

theorem does_of_ok {c : Nat} {m : M} (hnext : p.next c = some p') (h : threadOk (p, m) c = true) : Does p p' c m := by
  unfold threadOk at h
  rw [hnext] at h
  simp only [Bool.and_eq_true, Bool.or_eq_true, Bool.not_eq_true', decide_eq_true_eq, List.all_eq_true] at h
  obtain ⟨hended, hedges⟩ := h
  refine ⟨fun hm => ?_, fun e he => (hedges e he).1, fun e he => (hedges e he).2⟩
  rcases hended with hm' | h
  · rw [hm] at hm'
    cases hm'
  · exact h

theorem thread_does {m : M} (hp : p ∈ places ∨ ∃ k < 17, p = .name (some (k + 1))) (hm : m ∈ p.threads)
    (hnext : p.next b.toNat = some p') : Does p p' b.toNat m := by
  rcases hp with hp | ⟨k, hk, rfl⟩
  · exact does_of_ok hnext (checked_at threads_checked (mem_placed hp hm) b)
  · rcases List.mem_cons.mp hm with rfl | hm
    · refine does_of_ok hnext (checked_at threads_checked (List.mem_append_right _ ?_) b)
      exact List.mem_map_of_mem (f := fun k => (Place.name (some (k + 1)), encodingName (k + 1))) (List.mem_range.mpr hk)
    · -- as if the name began otherwise
      have hplain : Place.name none ∈ places := by decide
      rcases next_name hnext with ⟨⟨q, rfl⟩, hnone⟩ | ⟨rfl, hnone⟩
      · have hdoes := does_of_ok hnone (checked_at threads_checked (mem_placed hplain hm) b)
        exact ⟨hdoes.ended, fun e he => (hdoes.next e he).imp_right fun h => ⟨names_threads _ h.1, h.2⟩, hdoes.prios⟩
      · have hdoes := does_of_ok hnone (checked_at threads_checked (mem_placed hplain hm) b)
        exact ⟨hdoes.ended, hdoes.next, hdoes.prios⟩

theorem does_edges {c : Nat} {m : M} (h : Does p p' c m) : (lined m).edges c = (lineEdges m c).map (·.into lined) := by
  have hnull : CRLF.nullable = false ∧ (messageHeader 6).nullable = false := by decide +kernel
  unfold lineEdges
  by_cases hm : m.nullable = true
  · obtain ⟨hend, hlast⟩ := h.ended hm
    rw [lined, edges_between hnull.1 hnull.2 hm hend, hlast, List.map_nil, List.append_nil, if_pos hm, List.map_map]
    rfl
  · rw [lined, edges_repeated hnull.1 (Bool.eq_false_iff.mpr hm), if_neg hm]
    rfl

/-- The general field's transition. -/
theorem field_edge (hp : p ∈ places ∨ ∃ k < 17, p = .name (some (k + 1))) (hnext : p.next b.toNat = some p') :
    ∃ e ∈ lineEdges p.field b.toNat, e.next = p'.field ∧ (∀ z ∈ p.needed b.toNat, z ∈ e.acts) ∧
      (returnSet.mem b.toNat = true → e.prios = [(2, 1)]) := by
  have hplain : ∀ {q q' : Place}, q ∈ places → q.next b.toNat = some q' →
      ∃ e ∈ lineEdges q.field b.toNat, e.next = q'.field ∧ (∀ z ∈ q.needed b.toNat, z ∈ e.acts) ∧
        (returnSet.mem b.toNat = true → e.prios = [(2, 1)]) := by
    intro q q' hq hqnext
    have h := checked_at fields_checked hq b
    unfold fieldOk at h
    rw [hqnext] at h
    obtain ⟨e, he, h⟩ := List.any_eq_true.mp h
    simp only [Bool.and_eq_true, Bool.or_eq_true, Bool.not_eq_true', decide_eq_true_eq, List.all_eq_true] at h
    obtain ⟨⟨hfield, hneeded⟩, hprios⟩ := h
    refine ⟨e, he, hfield, hneeded, fun hr => hprios.resolve_left ?_⟩
    rw [hr]
    exact Bool.noConfusion
  rcases hp with hp | ⟨k, hk, rfl⟩
  · exact hplain hp hnext
  · have hname : Place.name none ∈ places := by decide
    rcases next_name hnext with ⟨⟨q, rfl⟩, hnone⟩ | ⟨rfl, hnone⟩
    · have h := hplain hname hnone
      exact h
    · have h := hplain hname hnone
      exact h

theorem field_thread (hp : p ∈ places ∨ ∃ k < 17, p = .name (some (k + 1))) : p.field ∈ p.threads := by
  rcases hp with hp | ⟨k, _, rfl⟩
  · have hall : ∀ p ∈ places, p.field ∈ p.threads := by decide +kernel
    exact hall p hp
  · exact names_threads (some (k + 1)) List.mem_cons_self

/-- A transition of any thread is one of the line's. -/
theorem At.edge (hs : At p s) (hnext : p.next b.toNat = some p') {m : M} (hm : m ∈ s) {f : Edge Action}
    (hf : f ∈ m.edges b.toNat) : ∃ n, Does p p' b.toNat n ∧ ∃ g ∈ lineEdges n b.toNat, f = g.into lined := by
  obtain ⟨n, hn, rfl⟩ := hs.threads m hm
  have hdoes := thread_does hs.place hn hnext
  rw [does_edges hdoes] at hf
  obtain ⟨g, hg, rfl⟩ := List.mem_map.mp hf
  exact ⟨n, hdoes, g, hg, rfl⟩

/-- A text that goes on at a return is beaten by the general field's. -/
theorem At.beats (hs : At p s) (hnext : p.next b.toNat = some p') {g : Edge Action} (hg : beaten b.toNat g = true) :
    ∃ m ∈ s, ∃ e ∈ m.edges b.toNat, e.beats (g.into lined) = true := by
  obtain ⟨e, he, -, -, hreturn⟩ := field_edge hs.place hnext
  have hmem : e.into lined ∈ (lined p.field).edges b.toNat := by
    rw [does_edges (thread_does hs.place (field_thread hs.place) hnext)]
    exact List.mem_map_of_mem he
  simp only [beaten, Bool.and_eq_true, decide_eq_true_eq] at hg
  refine ⟨_, hs.field, _, hmem, ?_⟩
  simp [Edge.beats, Edge.into, hreturn hg.1, hg.2]

/-- The general field's transition is not beaten, and a text that goes on at a return is. -/
theorem At.field_made (hs : At p s) (hnext : p.next b.toNat = some p') :
    ∃ e ∈ (lined p.field).edges b.toNat, e.next = lined p'.field ∧ (∀ z ∈ p.needed b.toNat, z ∈ e.acts) ∧
      (∀ m ∈ s, ∀ f ∈ m.edges b.toNat, f.beats e = false) ∧
      ∀ m ∈ s, ∀ f ∈ m.edges b.toNat, (∃ m' ∈ s, ∃ f' ∈ m'.edges b.toNat, f'.beats f = true) ∨
        ((∃ n ∈ p'.threads, f.next = lined n) ∧ ∀ z ∈ f.acts, z ∈ p.allowed b.toNat) := by
  obtain ⟨e, he, hfield, hneeded, hreturn⟩ := field_edge hs.place hnext
  have hmem : e.into lined ∈ (lined p.field).edges b.toNat := by
    rw [does_edges (thread_does hs.place (field_thread hs.place) hnext)]
    exact List.mem_map_of_mem he
  refine ⟨_, hmem, congrArg lined hfield, hneeded, fun m hm f hf => ?_, fun m hm f hf => ?_⟩
  · obtain ⟨n, hdoes, g, hg, rfl⟩ := hs.edge hnext hm hf
    rw [Edge.beats, List.any_eq_false]
    intro q hq
    rw [List.any_eq_true]
    rintro ⟨r, hr, hbeats⟩
    simp only [Bool.and_eq_true, Nat.blt_eq] at hbeats
    have hlevel : r.2 = 1 ∨ q.2 = 0 := by
      rcases hdoes.prios g hg q hq with rfl | ⟨hret, _⟩
      · exact .inr rfl
      · have hr' : r ∈ e.prios := hr
        rw [hreturn hret, List.mem_singleton] at hr'
        exact .inl (congrArg Prod.snd hr')
    have hq2 : q.2 ≤ 1 := by rcases hdoes.prios g hg q hq with rfl | ⟨_, rfl⟩ <;> decide
    omega
  · obtain ⟨n, hdoes, g, hg, rfl⟩ := hs.edge hnext hm hf
    rcases hdoes.next g hg with hbeaten | ⟨hin, hall⟩
    · exact .inl (hs.beats hnext hbeaten)
    · exact .inr ⟨⟨g.next, hin, rfl⟩, hall⟩

theorem step_at (hs : At p s) (hnext : p.next b.toNat = some p') :
    At p' (step s b.toNat).1 ∧ (∀ a ∈ (step s b.toNat).2, ∃ t, (t, a) ∈ p.allowed b.toNat) ∧
      ∀ z ∈ p.needed b.toNat, z.2 ∈ (step s b.toNat).2 := by
  obtain ⟨e, he, hfield, hneeded, hbest, hall⟩ := hs.field_made hnext
  obtain ⟨hthreads, hacts⟩ := step_within (P := fun m => ∃ n ∈ p'.threads, m = lined n)
    (A := (· ∈ p.allowed b.toNat)) hall
  obtain ⟨hmade, hdone⟩ := step_made hs.field he hbest
  exact ⟨⟨next_place hnext, hthreads, hfield ▸ hmade⟩, hacts, fun z hz => hdone z (hneeded z hz)⟩

/-- Where the threads are some of those at the place, and these lead to no others than `ms'`. -/
theorem At.goes (hs : At p s) (hnext : p.next b.toNat = some p') {ms ms' : List M} (hms : ∀ m ∈ s, ∃ n ∈ ms, m = lined n)
    (hsub : ∀ n ∈ ms, n ∈ p.threads)
    (hgo : ∀ n ∈ ms, ∀ e ∈ lineEdges n b.toNat, beaten b.toNat e = true ∨ e.next ∈ ms') :
    ∀ m ∈ (step s b.toNat).1, ∃ n ∈ ms', m = lined n := by
  refine (step_within (P := fun m => ∃ n ∈ ms', m = lined n) (A := fun _ => True) ?_).1
  intro m hm f hf
  obtain ⟨n, hn, rfl⟩ := hms m hm
  rw [does_edges (thread_does hs.place (hsub n hn) hnext)] at hf
  obtain ⟨g, hg, rfl⟩ := List.mem_map.mp hf
  rcases hgo n hn g hg with hbeaten | hin
  · exact .inl (hs.beats hnext hbeaten)
  · exact .inr ⟨⟨g.next, hin, rfl⟩, fun _ _ => trivial⟩

/-- A value that is empty begins where it ends. -/
theorem step_empty (hs : At .colon s) : (step s 13).2 = [.startValue, .writeValue] := by
  have hnext : Place.colon.next (13 : UInt8).toNat = some .newline := by decide
  have hneed : Place.colon.needed (13 : UInt8).toNat = [(19, .startValue), (20, .writeValue)] := by decide
  have hallow : Place.colon.allowed (13 : UInt8).toNat = [(19, .startValue), (20, .writeValue)] := by decide
  obtain ⟨e, he, _, hneeded, hbest, hall⟩ := hs.field_made hnext
  rw [hneed] at hneeded
  rw [hallow] at hall
  have h := step_ordered (by decide) hs.field he hbest hneeded fun m hm f hf => (hall m hm f hf).imp_right fun h => h.2
  exact h.trans (by decide)

end LjrServer.Http.HttpClient
