/-
  LjrServer.Log.Yaml — the "logs" configuration as YAML text: the two `LexicalCast`
  specialisations of log.cpp.

  Writing and reading are two traversals over the same fields. The one that reads never
  looks at an appender's level, nor at the formatter of one for the terminal.

  Proved:
  - `ofNode_toNode`: reading what was written gives the set without these fields.
  - `saved_and_loaded_iff`: so it gives the set itself exactly when they are not set.
  - `stdout_level_lost`: an appender that loses its level.
-/

import LjrServer.Config.Yaml
import LjrServer.Log.Define
import Mathlib.Data.String.Basic

namespace LjrServer.Log

open LjrServer.Config (Node)

/-! ## Writing -/

namespace LogAppenderDefine

def toNode (a : LogAppenderDefine) : Node :=
  .ofFields <|
    (if a.type = 1 then [("type", .scalar "FileLogAppender"), ("file", .scalar a.file)]
      else if a.type = 2 then [("type", .scalar "StdoutLogAppender")] else []) ++
    (if a.level ≠ .UNKNOW then [("level", .scalar a.level.ToString)] else []) ++
    (if a.formatter ≠ "" then [("formatter", .scalar a.formatter)] else [])

end LogAppenderDefine

namespace LogDefine

def toNode (d : LogDefine) : Node :=
  .ofFields <|
    [("name", .scalar d.name)] ++
    (if d.level ≠ .UNKNOW then [("level", .scalar d.level.ToString)] else []) ++
    (if d.formatter ≠ "" then [("formatter", .scalar d.formatter)] else []) ++
    (if d.appenders = [] then [] else [("appenders", .ofNodes (d.appenders.map (·.toNode)))])

end LogDefine

namespace LogDefines

def toNode (v : LogDefines) : Node := .ofNodes (v.defines.map (·.toNode))

/-- `LexicalCast<std::set<LogDefine>, std::string>` -/
def toString (emit : Node → String) (v : LogDefines) : String := emit v.toNode

end LogDefines

/-! ## Reading -/

/-- `n[key].IsDefined() ? n[key].as<std::string>() : ""` -/
def textField (n : Node) (key : String) : Option String := do
  match ← n.field key with
  | some f => f.asString
  | none => some ""

/-- The body of the loop over the appenders; an appender that is skipped is none. -/
def LogAppenderDefine.ofNode (a : Node) : Option (Option LogAppenderDefine) := do
  match ← a.field "type" with
  | none => some none
  | some t =>
    let type ← t.asString
    if type = "FileLogAppender" then
      match ← a.field "file" with
      | none => some none
      | some f =>
        let file ← f.asString
        let formatter ← textField a "formatter"
        some (some { type := 1, file, formatter })
    else if type = "StdoutLogAppender" then some (some { type := 2 })
    else some none

/-- The loop over the appenders. -/
def appendersField (n : Node) : Option (List LogAppenderDefine) := do
  match ← n.field "appenders" with
  | none => some []
  | some as =>
    let appenders ← (← as.elements).mapM LogAppenderDefine.ofNode
    some (appenders.filterMap id)

/-- The body of the loop over the definitions. -/
def LogDefine.ofNode (n : Node) : Option (Option LogDefine) := do
  match ← n.field "name" with
  | none => some none
  | some f =>
    let name ← f.asString
    let level ← textField n "level"
    let formatter ← textField n "formatter"
    let appenders ← appendersField n
    some (some { name, level := .FromString level, formatter, appenders })

namespace LogDefines

/-- Into its place, unless the name is there. -/
def insertDefine (d : LogDefine) : List LogDefine → List LogDefine
  | [] => [d]
  | e :: es => if d.name < e.name then d :: e :: es else if e.name < d.name then e :: insertDefine d es else e :: es

theorem mem_insertDefine {d e : LogDefine} {es : List LogDefine} (h : e ∈ insertDefine d es) : e = d ∨ e ∈ es := by
  induction es with
  | nil => exact .inl (List.mem_singleton.mp h)
  | cons f es ih =>
    unfold insertDefine at h
    split at h
    · exact List.mem_cons.mp h
    · split at h
      · rcases List.mem_cons.mp h with h | h
        · exact .inr (h ▸ List.mem_cons_self)
        · exact (ih h).imp_right (List.mem_cons_of_mem _)
      · exact .inr h

/-- `insert` -/
def insert (v : LogDefines) (d : LogDefine) : LogDefines where
  defines := insertDefine d v.defines
  sorted := by
    obtain ⟨es, hes⟩ := v
    induction es with
    | nil => exact List.pairwise_singleton _ _
    | cons e es ih =>
      obtain ⟨hfirst, hrest⟩ := List.pairwise_cons.mp hes
      dsimp only [insertDefine] at ih ⊢
      split
      · rename_i hlt
        refine List.pairwise_cons.mpr ⟨?_, hes⟩
        intro f hf
        rcases List.mem_cons.mp hf with rfl | hf
        · exact hlt
        · exact String.lt_trans hlt (hfirst f hf)
      · split
        · rename_i hlt
          refine List.pairwise_cons.mpr ⟨?_, ih hrest⟩
          intro f hf
          rcases mem_insertDefine hf with rfl | hf
          · exact hlt
          · exact hfirst f hf
        · exact hes

/-- The loop over the nodes, from an empty set. -/
def ofNode (node : Node) : Option LogDefines := do
  let ds ← (← node.elements).mapM LogDefine.ofNode
  some ((ds.filterMap id).foldl insert empty)

/-- `LexicalCast<std::string, std::set<LogDefine>>` -/
def fromString (load : String → Option Node) (str : String) : Option LogDefines := (load str).bind ofNode

end LogDefines

/-! ## What is read back -/

/-- What is left of an appender. -/
def LogAppenderDefine.stored (a : LogAppenderDefine) : LogAppenderDefine :=
  if a.type = 1 then { a with level := .UNKNOW } else { type := a.type }

def LogDefine.stored (d : LogDefine) : LogDefine := { d with appenders := d.appenders.map (·.stored) }

theorem LogAppenderDefine.ofNode_toNode {a : LogAppenderDefine} (ha : a.Typed) : ofNode a.toNode = some (some a.stored) := by
  obtain ⟨type, level, formatter, file⟩ := a
  rcases ha with ha | ha
  · cases ha
    by_cases hl : level = .UNKNOW <;> by_cases hf : formatter = "" <;>
      simp [ofNode, toNode, stored, textField, Node.ofFields, Node.field, Node.asString, List.lookup_cons, List.lookup_nil, hl, hf]
  · cases ha
    by_cases hl : level = .UNKNOW <;> by_cases hf : formatter = "" <;>
      simp [ofNode, toNode, stored, textField, Node.ofFields, Node.field, Node.asString, List.lookup_cons, List.lookup_nil, hl, hf]

/-- Reading back, one after another, what was written. -/
theorem mapM_written {α β : Type} {write : α → Node} {read : Node → Option β} {kept : α → β} (xs : List α)
    (h : ∀ x ∈ xs, read (write x) = some (kept x)) : (xs.map write).mapM read = some (xs.map kept) := by
  rw [List.mapM_map]
  exact Config.mapM_some xs h

/-- The level of a definition that was written, or not. -/
theorem level_stored {level : LogLevel} (h : level.Valid) :
    LogLevel.FromString (if level = .UNKNOW then "" else level.ToString) = level := by
  split
  · rename_i hl
    rw [hl]
    decide
  · exact LogLevel.FromString_ToString h

theorem LogDefine.toNode_fields (d : LogDefine) : ∃ fields, d.toNode = .map fields ∧
    fields.lookup "name" = some (.scalar d.name) ∧
    fields.lookup "level" = (if d.level = .UNKNOW then none else some (.scalar d.level.ToString)) ∧
    fields.lookup "formatter" = (if d.formatter = "" then none else some (.scalar d.formatter)) ∧
    fields.lookup "appenders" = if d.appenders = [] then none else some (.ofNodes (d.appenders.map (·.toNode))) := by
  refine ⟨_, rfl, ?_⟩
  by_cases hl : d.level = .UNKNOW <;> by_cases hf : d.formatter = "" <;> by_cases ha : d.appenders = [] <;>
    simp [List.lookup_cons, List.lookup_nil, hl, hf, ha]

theorem textField_map {fields : List (String × Node)} {key text : String} {p : Prop} [Decidable p]
    (h : fields.lookup key = if p then none else some (.scalar text)) :
    textField (.map fields) key = some (if p then "" else text) := by
  have hfield : Node.field (.map fields) key = some (if p then none else some (.scalar text)) := congrArg some h
  unfold textField
  rw [hfield]
  split <;> rfl

theorem appendersField_map {fields : List (String × Node)} {appenders : List LogAppenderDefine}
    (h : fields.lookup "appenders" = if appenders = [] then none else some (.ofNodes (appenders.map (·.toNode))))
    (ha : ∀ a ∈ appenders, a.Typed) : appendersField (.map fields) = some (appenders.map (·.stored)) := by
  have hfield : Node.field (.map fields) "appenders" =
      some (if appenders = [] then none else some (.ofNodes (appenders.map (·.toNode)))) := congrArg some h
  have hall := mapM_written appenders fun a hmem => LogAppenderDefine.ofNode_toNode (ha a hmem)
  have hkept : (appenders.map fun a => some a.stored).filterMap id = appenders.map (·.stored) := by
    simp [List.filterMap_map]
  unfold appendersField
  rw [hfield]
  split
  · rename_i hnil
    rw [hnil]
    rfl
  · simp only [Option.bind_eq_bind, Option.bind_some, Node.elements_ofNodes, hall, hkept]

theorem LogDefine.ofNode_toNode {d : LogDefine} (hl : d.level.Valid) (ha : ∀ a ∈ d.appenders, a.Typed) :
    ofNode d.toNode = some (some d.stored) := by
  obtain ⟨fields, hnode, hname, hlevel, hformatter, happenders⟩ := d.toNode_fields
  have hname' : Node.field (.map fields) "name" = some (some (.scalar d.name)) := congrArg some hname
  have hformat : (if d.formatter = "" then "" else d.formatter) = d.formatter := by
    split
    · rename_i hempty
      exact hempty.symm
    · rfl
  rw [hnode]
  unfold ofNode
  simp only [hname', textField_map hlevel, textField_map hformatter, appendersField_map happenders ha, Node.asString,
    Option.bind_eq_bind, Option.bind_some, hformat, level_stored hl]
  rfl

/-! ## The set -/

namespace LogDefines

variable {v : LogDefines}

theorem insertDefine_last {d : LogDefine} {es : List LogDefine} (h : ∀ e ∈ es, e.name < d.name) :
    insertDefine d es = es ++ [d] := by
  induction es with
  | nil => rfl
  | cons e es ih =>
    obtain ⟨hfirst, hrest⟩ := List.forall_mem_cons.mp h
    unfold insertDefine
    rw [if_neg (String.lt_asymm hfirst), if_pos hfirst, ih hrest, List.cons_append]

/-- Definitions in order are put one behind the other. -/
theorem foldl_insert (ds : List LogDefine) (v : LogDefines)
    (h : (v.defines ++ ds).Pairwise fun a b => a.name < b.name) : (ds.foldl insert v).defines = v.defines ++ ds := by
  induction ds generalizing v with
  | nil => simp
  | cons d ds ih =>
    obtain ⟨_, _, hbefore⟩ := List.pairwise_append.mp h
    have hinsert : (v.insert d).defines = v.defines ++ [d] :=
      insertDefine_last fun e he => hbefore e he d List.mem_cons_self
    rw [List.foldl_cons, ih (v.insert d) (by rw [hinsert, List.append_assoc]; exact h), hinsert, List.append_assoc]
    rfl

/-- What is left of a set. -/
def stored (v : LogDefines) : LogDefines where
  defines := v.defines.map (·.stored)
  sorted := List.pairwise_map.mpr v.sorted

/-- The levels of a set are valid and its appenders have a type. -/
structure Saveable (v : LogDefines) : Prop where
  levels : ∀ d ∈ v.defines, d.level.Valid
  typed : ∀ d ∈ v.defines, ∀ a ∈ d.appenders, a.Typed

theorem ofNode_toNode (h : v.Saveable) : ofNode v.toNode = some v.stored := by
  have hall := mapM_written v.defines fun d hd => LogDefine.ofNode_toNode (h.levels d hd) (h.typed d hd)
  have hkept : (v.defines.map fun d => some d.stored).filterMap id = v.defines.map (·.stored) := by
    simp [List.filterMap_map]
  unfold ofNode toNode
  simp only [Option.bind_eq_bind, Node.elements_ofNodes, Option.bind_some, hall, hkept]
  congr 1
  have hdefines := foldl_insert (v.defines.map (·.stored)) empty (List.pairwise_map.mpr v.sorted)
  cases hfold : (v.defines.map (·.stored)).foldl insert empty with
  | mk defines sorted =>
    rw [hfold] at hdefines
    cases hdefines
    rfl

/-- Nothing is set that is not read back. -/
def Plain (v : LogDefines) : Prop :=
  ∀ d ∈ v.defines, ∀ a ∈ d.appenders, a.level = .UNKNOW ∧ (a.type = 2 → a.formatter = "" ∧ a.file = "")

theorem map_eq_self {α : Type} {f : α → α} {xs : List α} : xs.map f = xs ↔ ∀ x ∈ xs, f x = x := by
  have hid := List.map_inj_left (l := xs) (f := f) (g := id)
  rw [List.map_id] at hid
  exact hid

theorem stored_appender_iff {a : LogAppenderDefine} (ha : a.Typed) :
    a.stored = a ↔ a.level = .UNKNOW ∧ (a.type = 2 → a.formatter = "" ∧ a.file = "") := by
  obtain ⟨type, level, formatter, file⟩ := a
  rcases ha with ha | ha
  · cases ha
    simp [LogAppenderDefine.stored, eq_comm]
  · cases ha
    simp [LogAppenderDefine.stored, eq_comm]

theorem stored_eq_iff (h : v.Saveable) : v.stored = v ↔ v.Plain := by
  have hset : v.stored = v ↔ v.defines.map (·.stored) = v.defines := by
    obtain ⟨defines, sorted⟩ := v
    exact LogDefines.mk.injEq .. |>.to_iff
  rw [hset, map_eq_self]
  refine forall₂_congr fun d hd => ?_
  have hdefine : d.stored = d ↔ d.appenders.map (·.stored) = d.appenders := by
    obtain ⟨name, level, formatter, appenders⟩ := d
    simp [LogDefine.stored]
  rw [hdefine, map_eq_self]
  exact forall₂_congr fun a ha => stored_appender_iff (h.typed d hd a ha)

/-- A set comes back from its text exactly when no appender has a level and none for the
    terminal a formatter. -/
theorem saved_and_loaded_iff (emit : Node → String) (load : String → Option Node) (h : v.Saveable)
    (hyaml : load (emit v.toNode) = some v.toNode) : fromString load (v.toString emit) = some v ↔ v.Plain := by
  unfold fromString toString
  rw [hyaml, Option.bind_some, ofNode_toNode h, Option.some.injEq]
  exact stored_eq_iff h

/-- A logger that writes to two files, through a YAML library that knows its text. -/
theorem saved_and_loaded_files :
    let v : LogDefines := ⟨[⟨"http", .WARN, "", [⟨1, .UNKNOW, "%m%n", "http.log"⟩, ⟨1, .UNKNOW, "", "all.log"⟩]⟩],
      List.pairwise_singleton _ _⟩
    let text := "- name: http\n  level: WARN\n  appenders:\n    - type: FileLogAppender\n      file: http.log\n      " ++
      "formatter: \"%m%n\"\n    - type: FileLogAppender\n      file: all.log"
    fromString (fun str => if str = text then some v.toNode else none) (v.toString fun _ => text) = some v := by
  refine (saved_and_loaded_iff _ _ ?_ (if_pos rfl)).mpr ?_
  · constructor
    · intro d hd
      cases List.mem_singleton.mp hd
      trivial
    · intro d hd a ha
      cases List.mem_singleton.mp hd
      rcases List.mem_pair.mp ha with rfl | rfl <;> exact .inl rfl
  · intro d hd a ha
    cases List.mem_singleton.mp hd
    rcases List.mem_pair.mp ha with rfl | rfl <;> exact ⟨rfl, by decide⟩

/-- The level of an appender for the terminal is written and not read. -/
theorem stdout_level_lost :
    let v : LogDefines := ⟨[⟨"http", .WARN, "", [⟨2, .ERROR, "%m%n", ""⟩]⟩], List.pairwise_singleton _ _⟩
    let text := "- name: http\n  level: WARN\n  appenders:\n    - type: StdoutLogAppender\n      level: ERROR\n      " ++
      "formatter: \"%m%n\""
    fromString (fun str => if str = text then some v.toNode else none) (v.toString fun _ => text) =
        some ⟨[⟨"http", .WARN, "", [⟨2, .UNKNOW, "", ""⟩]⟩], List.pairwise_singleton _ _⟩ ∧
      fromString (fun str => if str = text then some v.toNode else none) (v.toString fun _ => text) ≠ some v := by
  decide +kernel

end LogDefines

end LjrServer.Log
