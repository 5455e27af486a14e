/-
  LjrServer.Config.Yaml — YAML nodes, as far as the configuration reads and builds them
  through yaml-cpp's `Node`.

  An operation that throws has no result. A field that is absent is not an error: it is not
  defined. Nodes are built by assignment: the first field makes a null node a map, the first
  `push_back` a sequence, so what is never assigned to stays null.
-/

import Mathlib.Data.List.Basic

namespace LjrServer.Config

/-- `YAML::Node` -/
inductive Node where
  | null
  | scalar (text : String)
  | seq (nodes : List Node)
  | map (fields : List (String × Node))
  deriving Repr

namespace Node

/-- `node[key]`, if it is defined; a scalar has no subscripts. -/
def field (node : Node) (key : String) : Option (Option Node) :=
  match node with
  | scalar _ => none
  | map fields => some (fields.lookup key)
  | _ => some none

/-- `as<std::string>()` -/
def asString : Node → Option String
  | scalar text => some text
  | _ => none

/-- The nodes that `node[i]` gives for `i` from 0 up to `size()`; in a map `i` is a key. -/
def elements : Node → Option (List Node)
  | seq nodes => some nodes
  | map fields => (List.range fields.length).mapM fun i => fields.lookup (toString i)
  | _ => some []

/-- What `begin()` to `end()` goes over, as keys and values: the entries of a sequence have no key. -/
def entries : Node → Option (List (String × Node))
  | map fields => some fields
  | seq (_ :: _) => none
  | _ => some []

/-- A node that got these fields. -/
def ofFields (fields : List (String × Node)) : Node := if fields.isEmpty then null else map fields

/-- A node that these were pushed to. -/
def ofNodes (nodes : List Node) : Node := if nodes.isEmpty then null else seq nodes

theorem elements_ofNodes (nodes : List Node) : (ofNodes nodes).elements = some nodes := by
  cases nodes <;> rfl

theorem entries_ofFields (fields : List (String × Node)) : (ofFields fields).entries = some fields := by
  cases fields <;> rfl

end Node

/-! ## Loops over nodes -/

theorem mapM_some {α β : Type} {f : α → Option β} {g : α → β} : ∀ items : List α, (∀ i ∈ items, f i = some (g i)) →
    items.mapM f = some (items.map g)
  | [], _ => rfl
  | i :: items, h => by
    obtain ⟨hfirst, hrest⟩ := List.forall_mem_cons.mp h
    rw [List.mapM_cons, hfirst, mapM_some items hrest]
    rfl

end LjrServer.Config
