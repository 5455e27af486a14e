/-
  LjrServer.Config.Casts — containers as configuration values: the partial specialisations of
  `LexicalCast` (config.h).

  A container is written by casting its elements to texts, loading these as nodes and emitting
  the node they are put in; it is read by emitting the elements of a loaded node and casting
  them back. Types nest to any depth. An object is held as its elements in the order they are
  iterated in, and two objects are equal where their values are. What yaml-cpp and
  `boost::lexical_cast` do to texts is a parameter.

  Proved:
  - `castToString_eq`: what is emitted is the node of the nested elements, an empty one null.
  - `castFromString_castToString`: reading what was written gives the value of the object.
-/

import LjrServer.Config.Yaml
import Mathlib.Data.Finmap
import Mathlib.Data.Finset.Lattice.Basic

namespace LjrServer.Config

/-- `YAML::Load` and `<<` of a node, and the two casts of an int; a load or a cast may throw. -/
structure Texts where
  load : String → Option Node
  emit : Node → String
  ofInt : Int32 → String
  toInt : String → Option Int32

/-! ## Types -/

inductive Sequence where
  | vector
  | list
  | set
  | unorderedSet

/-- The keys are strings. -/
inductive Mapping where
  | map
  | unorderedMap

inductive CxxType where
  | int
  | sequence (c : Sequence) (T : CxxType)
  | mapping (c : Mapping) (T : CxxType)

namespace Sequence

variable {α : Type}

/-- Without the order of the elements where `==` does not see it. -/
def Value (c : Sequence) (α : Type) : Type :=
  match c with
  | vector | list => List α
  | set | unorderedSet => Finset α

def ofList [DecidableEq α] (c : Sequence) (items : List α) : c.Value α :=
  match c with
  | vector | list => items
  | set | unorderedSet => items.toFinset

/-- `push_back` or `insert` -/
def add [DecidableEq α] : (c : Sequence) → c.Value α → α → c.Value α
  | vector | list => fun (vec : List α) item => vec ++ [item]
  | set | unorderedSet => fun (vec : Finset α) item => (insert item vec : Finset α)

instance [DecidableEq α] (c : Sequence) : DecidableEq (c.Value α) :=
  match c with
  | vector | list => inferInstanceAs (DecidableEq (List α))
  | set | unorderedSet => inferInstanceAs (DecidableEq (Finset α))

end Sequence

namespace CxxType

/-- An object: its elements as they are iterated, for an unordered container in any order. -/
def Held : CxxType → Type
  | int => Int32
  | sequence _ T => List T.Held
  | mapping _ T => AList fun _ : String => T.Held

/-- What `==` compares. -/
def Value : CxxType → Type
  | int => Int32
  | sequence c T => c.Value T.Value
  | mapping _ T => Finmap fun _ : String => T.Value

instance : (T : CxxType) → DecidableEq T.Value
  | int => inferInstanceAs (DecidableEq Int32)
  | sequence c T => @Sequence.instDecidableEqValue _ (instDecidableEqValue T) c
  | mapping _ T => @Finmap.decidableEq _ _ _ fun _ => instDecidableEqValue T

def value : (T : CxxType) → T.Held → T.Value
  | int, n => n
  | sequence c T, v => c.ofList (List.map T.value v)
  | mapping _ T, v => ((AList.entries v).map fun i => ⟨i.1, T.value i.2⟩).toFinmap

end CxxType

/-! ## Casts -/

namespace Texts

variable (x : Texts) {α : Type}

/-- `LexicalCast<std::vector<T>, std::string>`, and that of a list or a set. -/
def sequenceToString (cast : α → Option String) (v : List α) : Option String := do
  let nodes ← v.mapM fun i => do x.load (← cast i)
  return x.emit (.ofNodes nodes)

/-- `LexicalCast<std::map<std::string, T>, std::string>`, and that of an unordered one. -/
def mappingToString (cast : α → Option String) (v : AList fun _ : String => α) : Option String := do
  let fields ← v.entries.mapM fun i => do return (i.1, ← x.load (← cast i.2))
  return x.emit (.ofFields fields)

/-- `LexicalCast<std::string, std::vector<T>>`, and that of a list or a set. -/
def sequenceFromString [DecidableEq α] (c : Sequence) (cast : String → Option α) (v : String) :
    Option (c.Value α) := do
  let node ← x.load v
  (← node.elements).foldlM (fun vec i => do return c.add vec (← cast (x.emit i))) (c.ofList [])

/-- `insert` into a map: a key that is there keeps what it has. -/
def insertNew (vec : Finmap fun _ : String => α) (i : String × α) : Finmap fun _ : String => α :=
  if i.1 ∈ vec then vec else vec.insert i.1 i.2

/-- `LexicalCast<std::string, std::map<std::string, T>>`, and that of an unordered one. -/
def mappingFromString (cast : String → Option α) (v : String) : Option (Finmap fun _ : String => α) := do
  let node ← x.load v
  (← node.entries).foldlM (fun vec i => do return insertNew vec (i.1, ← cast (x.emit i.2))) ∅

/-- `LexicalCast<T, std::string>` -/
def castToString : (T : CxxType) → T.Held → Option String
  | .int, n => some (x.ofInt n)
  | .sequence _ T, v => x.sequenceToString (castToString T) v
  | .mapping _ T, v => x.mappingToString (castToString T) v

/-- `LexicalCast<std::string, T>` -/
def castFromString : (T : CxxType) → String → Option T.Value
  | .int, v => x.toInt v
  | .sequence c T, v => x.sequenceFromString c (castFromString T) v
  | .mapping _ T, v => x.mappingFromString (castFromString T) v

/-! ## The nodes of an object -/

def nodeOf : (T : CxxType) → T.Held → Node
  | .int, n => .scalar (x.ofInt n)
  | .sequence _ T, v => .ofNodes (List.map (nodeOf T) v)
  | .mapping _ T, v => .ofFields ((AList.entries v).map fun i => (i.1, nodeOf T i.2))

/-- Its own and those of its elements. -/
def nodes : (T : CxxType) → T.Held → List Node
  | .int, n => [x.nodeOf .int n]
  | .sequence c T, v => x.nodeOf (.sequence c T) v :: List.flatMap (nodes T) v
  | .mapping c T, v => x.nodeOf (.mapping c T) v :: (AList.entries v).flatMap fun i => nodes T i.2

def ints : (T : CxxType) → T.Held → List Int32
  | .int, n => [n]
  | .sequence _ T, v => List.flatMap (ints T) v
  | .mapping _ T, v => (AList.entries v).flatMap fun i => ints T i.2

/-- Texts survive: what is emitted for a node of the object is loaded as that node, and its
    ints are scalars as they are cast, and cast back. -/
structure Keeps (T : CxxType) (v : T.Held) : Prop where
  nodes : ∀ node ∈ x.nodes T v, x.load (x.emit node) = some node
  scalars : ∀ n ∈ ints T v, x.emit (.scalar (x.ofInt n)) = x.ofInt n
  ints : ∀ n ∈ ints T v, x.toInt (x.ofInt n) = some n

/-! ## Containers -/

theorem foldl_add [DecidableEq α] (c : Sequence) (items : List α) :
    items.foldl c.add (c.ofList []) = c.ofList items := by
  have hlist : ∀ (items vec : List α), items.foldl (fun vec item => vec ++ [item]) vec = vec ++ items := by
    intro items
    induction items with
    | nil => exact fun vec => (List.append_nil vec).symm
    | cons item items ih => exact fun vec => by rw [List.foldl_cons, ih, List.append_assoc]; rfl
  have hset : ∀ (items : List α) (vec : Finset α),
      items.foldl (fun (vec : Finset α) item => insert item vec) vec = vec ∪ items.toFinset := by
    intro items
    induction items with
    | nil => exact fun vec => (Finset.union_empty vec).symm
    | cons item items ih =>
      exact fun vec => by rw [List.foldl_cons, ih, List.toFinset_cons, Finset.insert_union, Finset.union_insert]
  cases c with
  | vector => exact hlist items []
  | list => exact hlist items []
  | set => exact (hset items ∅).trans (Finset.empty_union _)
  | unorderedSet => exact (hset items ∅).trans (Finset.empty_union _)

theorem lookup_insertNew (vec : Finmap fun _ : String => α) (i : String × α) (key : String) :
    (insertNew vec i).lookup key = (vec.lookup key).or (if key = i.1 then some i.2 else none) := by
  unfold insertNew
  by_cases hmem : i.1 ∈ vec
  · rw [if_pos hmem]
    split
    · rename_i heq
      obtain ⟨item, hitem⟩ := Finmap.mem_iff.mp (heq ▸ hmem)
      rw [hitem, Option.some_or]
    · rw [Option.or_none]
  · rw [if_neg hmem]
    split
    · rename_i heq
      rw [heq, Finmap.lookup_insert, Finmap.lookup_eq_none.mpr hmem, Option.none_or]
    · rename_i hne
      rw [Finmap.lookup_insert_of_ne _ hne, Option.or_none]

theorem foldl_insertNew (items : List (Σ _ : String, α)) :
    (items.map fun i => (i.1, i.2)).foldl insertNew ∅ = items.toFinmap := by
  have hlookup : ∀ (items : List (Σ _ : String, α)) (vec : Finmap fun _ : String => α) (key : String),
      ((items.map fun i => (i.1, i.2)).foldl insertNew vec).lookup key = (vec.lookup key).or (items.dlookup key) := by
    intro items
    induction items with
    | nil => exact fun vec key => Option.or_none.symm
    | cons i items ih =>
      intro vec key
      rw [List.map_cons, List.foldl_cons, ih, lookup_insertNew, Option.or_assoc]
      congr 1
      by_cases heq : i.1 = key
      · subst heq
        rw [if_pos rfl, Option.some_or, List.dlookup_cons_eq]
      · rw [if_neg (Ne.symm heq), Option.none_or, List.dlookup_cons_ne _ _ (Ne.symm heq)]
  apply Finmap.ext_lookup
  intro key
  rw [hlookup, Finmap.lookup_empty, Finmap.dlookup_list_toFinmap]
  rfl

theorem foldlM_some {β γ δ : Type} (f : γ → δ → Option γ) (step : γ → β → γ) (write : α → δ) (kept : α → β) :
    ∀ items : List α, (∀ i ∈ items, ∀ vec, f vec (write i) = some (step vec (kept i))) → ∀ vec,
      (items.map write).foldlM f vec = some ((items.map kept).foldl step vec)
  | [], _, _ => rfl
  | i :: items, h, vec => by
    obtain ⟨hfirst, hrest⟩ := List.forall_mem_cons.mp h
    rw [List.map_cons, List.foldlM_cons, hfirst]
    exact foldlM_some f step write kept items hrest _

section
variable {x} {β : Type} {node : α → Node} {kept : α → β}

theorem sequenceToString_eq {cast : α → Option String} (v : List α)
    (h : ∀ i ∈ v, (cast i).bind x.load = some (node i)) :
    x.sequenceToString cast v = some (x.emit (.ofNodes (v.map node))) := by
  have hnodes : v.mapM (fun i => do x.load (← cast i)) = some (v.map node) := mapM_some v h
  unfold sequenceToString
  rw [hnodes]
  rfl

theorem mappingToString_eq {cast : α → Option String} (v : AList fun _ : String => α)
    (h : ∀ i ∈ v.entries, (cast i.2).bind x.load = some (node i.2)) :
    x.mappingToString cast v = some (x.emit (.ofFields (v.entries.map fun i => (i.1, node i.2)))) := by
  have hfields : v.entries.mapM (fun i => do return (i.1, ← x.load (← cast i.2))) =
      some (v.entries.map fun i => (i.1, node i.2)) := by
    apply mapM_some
    intro i hi
    have hload : (do x.load (← cast i.2)) = some (node i.2) := h i hi
    calc (do return (i.1, ← x.load (← cast i.2)))
        = (do return (i.1, ← (do x.load (← cast i.2)))) := by rw [bind_assoc]
      _ = some (i.1, node i.2) := by rw [hload]; rfl
  unfold mappingToString
  rw [hfields]
  rfl

theorem sequenceFromString_eq [DecidableEq β] (c : Sequence) {cast : String → Option β} (v : List α) {text : String}
    (hload : x.load text = some (.ofNodes (v.map node))) (h : ∀ i ∈ v, cast (x.emit (node i)) = some (kept i)) :
    x.sequenceFromString c cast text = some (c.ofList (v.map kept)) := by
  have hloop := foldlM_some (fun vec i => do return c.add vec (← cast (x.emit i))) c.add node kept v
    (fun i hi vec => by rw [h i hi]; rfl) (c.ofList [])
  rw [foldl_add] at hloop
  unfold sequenceFromString
  rw [hload, Option.bind_eq_bind, Option.bind_some, Node.elements_ofNodes]
  exact hloop

theorem mappingFromString_eq {cast : String → Option β} (v : AList fun _ : String => α) {text : String}
    (hload : x.load text = some (.ofFields (v.entries.map fun i => (i.1, node i.2))))
    (h : ∀ i ∈ v.entries, cast (x.emit (node i.2)) = some (kept i.2)) :
    x.mappingFromString cast text = some (v.entries.map fun i => ⟨i.1, kept i.2⟩).toFinmap := by
  have hloop := foldlM_some (fun vec i => do return insertNew vec (i.1, ← cast (x.emit i.2))) insertNew
    (fun i => (i.1, node i.2)) (fun i => (i.1, kept i.2)) v.entries (fun i hi vec => by rw [h i hi]; rfl) ∅
  have hmap := foldl_insertNew (v.entries.map fun i => (⟨i.1, kept i.2⟩ : Σ _ : String, β))
  rw [List.map_map] at hmap
  unfold mappingFromString
  rw [hload, Option.bind_eq_bind, Option.bind_some, Node.entries_ofFields]
  exact hloop.trans (congrArg some hmap)

end

/-! ## Round trip -/

variable {x} {T : CxxType}

theorem nodeOf_mem_nodes : ∀ (T : CxxType) (v : T.Held), x.nodeOf T v ∈ x.nodes T v
  | .int, _ => List.mem_cons_self
  | .sequence _ _, _ => List.mem_cons_self
  | .mapping _ _, _ => List.mem_cons_self

theorem Keeps.load {v : T.Held} (h : x.Keeps T v) : x.load (x.emit (x.nodeOf T v)) = some (x.nodeOf T v) :=
  h.nodes _ (nodeOf_mem_nodes T v)

theorem Keeps.item {c : Sequence} {v : List T.Held} (h : x.Keeps (.sequence c T) v) : ∀ i ∈ v, x.Keeps T i := by
  intro i hi
  refine ⟨fun node hnode => ?_, fun n hn => ?_, fun n hn => ?_⟩
  · exact h.nodes node (List.mem_cons_of_mem _ (List.mem_flatMap.mpr ⟨i, hi, hnode⟩))
  · exact h.scalars n (List.mem_flatMap.mpr ⟨i, hi, hn⟩)
  · exact h.ints n (List.mem_flatMap.mpr ⟨i, hi, hn⟩)

theorem Keeps.field {c : Mapping} {v : AList fun _ : String => T.Held} (h : x.Keeps (.mapping c T) v) :
    ∀ i ∈ v.entries, x.Keeps T i.2 := by
  intro i hi
  refine ⟨fun node hnode => ?_, fun n hn => ?_, fun n hn => ?_⟩
  · exact h.nodes node (List.mem_cons_of_mem _ (List.mem_flatMap.mpr ⟨i, hi, hnode⟩))
  · exact h.scalars n (List.mem_flatMap.mpr ⟨i, hi, hn⟩)
  · exact h.ints n (List.mem_flatMap.mpr ⟨i, hi, hn⟩)

theorem castToString_eq : ∀ (T : CxxType) (v : T.Held), x.Keeps T v →
    x.castToString T v = some (x.emit (x.nodeOf T v)) := by
  intro T
  induction T with
  | int => exact fun n h => congrArg some (h.scalars n List.mem_cons_self).symm
  | sequence c T ih =>
    intro v h
    apply sequenceToString_eq
    intro i hi
    rw [ih i (h.item i hi)]
    exact (h.item i hi).load
  | mapping c T ih =>
    intro v h
    apply mappingToString_eq
    intro i hi
    rw [ih i.2 (h.field i hi)]
    exact (h.field i hi).load

theorem castFromString_emit : ∀ (T : CxxType) (v : T.Held), x.Keeps T v →
    x.castFromString T (x.emit (x.nodeOf T v)) = some (T.value v) := by
  intro T
  induction T with
  | int =>
    intro n h
    rw [castFromString, nodeOf, h.scalars n List.mem_cons_self]
    exact h.ints n List.mem_cons_self
  | sequence c T ih =>
    intro v h
    exact sequenceFromString_eq c v h.load fun i hi => ih i (h.item i hi)
  | mapping c T ih =>
    intro v h
    exact mappingFromString_eq v h.load fun i hi => ih i.2 (h.field i hi)

/-- What `LexicalCast` writes, it reads as an equal object, whatever the order that an unordered
    container was iterated in. -/
theorem castFromString_castToString (T : CxxType) (v : T.Held) (h : x.Keeps T v) :
    (x.castToString T v).bind (x.castFromString T) = some (T.value v) := by
  rw [castToString_eq T v h]
  exact castFromString_emit T v h

/-- A map with an empty vector and one of an int. -/
def empties : (CxxType.mapping .map (.sequence .vector .int)).Held :=
  ⟨[⟨"a", ([] : List Int32)⟩, ⟨"b", ([1] : List Int32)⟩], show ["a", "b"].Nodup by decide⟩

/-- What its nodes are emitted as. -/
def emptiesTexts : Texts where
  load
    | "~" => some .null
    | "1" => some (.scalar "1")
    | "- 1" => some (.seq [.scalar "1"])
    | "a: ~\nb:\n  - 1" => some (.map [("a", .null), ("b", .seq [.scalar "1"])])
    | _ => none
  emit
    | .null => "~"
    | .scalar text => text
    | .seq _ => "- 1"
    | .map _ => "a: ~\nb:\n  - 1"
  ofInt n := toString n.toInt
  toInt
    | "1" => some 1
    | _ => none

theorem castFromString_castToString_empties :
    (emptiesTexts.castToString _ empties).bind (emptiesTexts.castFromString (.mapping .map (.sequence .vector .int))) =
      some (CxxType.value _ empties) := by
  have hnodes : emptiesTexts.nodes _ empties =
      [.map [("a", .null), ("b", .seq [.scalar "1"])], .null, .seq [.scalar "1"], .scalar "1"] := rfl
  have hints : ints _ empties = [1] := rfl
  refine castFromString_castToString _ _ ⟨?_, ?_, ?_⟩
  · rw [hnodes]
    simp [emptiesTexts]
  · rw [hints]
    exact List.forall_mem_singleton.mpr rfl
  · rw [hints]
    exact List.forall_mem_singleton.mpr rfl

end Texts

end LjrServer.Config
