/-
  LjrServer.Config.Directory — loading the configuration files of a directory (`LoadFromConfDir`
  in config.cpp, `ListAllFile` in util.cpp).

  The files are found by going through the directory and those in it. One is loaded when its time
  of modification, in seconds, is not the one that was noted for it last; the time is noted before
  the file is read, and a file that cannot be read is not tried again before it changes. Nothing
  noted is 0. The files change between the calls.

  A file that is listed is there when it is looked at.

  Proved:
  - `mem_listEntries`: the regular files at any depth whose names have the suffix are listed.
  - `files_current_iff`: throughout a run no file is passed over that was not read as it is,
    exactly when every change gives a file a time other than the one noted, or the contents it
    was read with; a call of `LoadFromConfDir` then leaves every file of the directory read as
    it is, and a second call changes nothing.
-/

import LjrServer.Config.Loading
import LjrServer.Lib.Runs
import Mathlib.Logic.Function.Basic

namespace LjrServer.Config

open LjrServer.Lib

/-! ## Finding the files -/

/-- What `readdir` returns; a directory that does not open has nothing in it. -/
inductive Entry where
  | dir (name : String) (entries : List Entry)
  | reg (name : String)
  | other (name : String)

/-- The suffix test of `ListAllFile`. -/
def hasSubfix (filename subfix : String) : Bool :=
  if subfix = "" then true
  else if filename.length < subfix.length then false
  else filename.toList.drop (filename.length - subfix.length) = subfix.toList

mutual

def listEntry (path subfix : String) : Entry → List String
  | .dir name entries => if name = "." ∨ name = ".." then [] else listEntries (path ++ "/" ++ name) subfix entries
  | .reg name => if hasSubfix name subfix then [path ++ "/" ++ name] else []
  | .other _ => []

/-- What `ListAllFile` adds to the files: the loop over a directory. -/
def listEntries (path subfix : String) : List Entry → List String
  | [] => []
  | e :: es => listEntry path subfix e ++ listEntries path subfix es

end

/-- The names that lead to a regular file, the last one its own. -/
inductive Holds : List Entry → List String → Prop
  | reg {es : List Entry} {name : String} : Entry.reg name ∈ es → Holds es [name]
  | dir {es es' : List Entry} {name : String} {names : List String} : Entry.dir name es' ∈ es → name ≠ "." →
      name ≠ ".." → Holds es' names → Holds es (name :: names)

/-- `path + "/" + name` for each name. -/
def pathOf (path : String) (names : List String) : String := names.foldl (fun p name => p ++ "/" ++ name) path

/-- The files of a directory with the suffix. -/
def Listed (path subfix : String) (es : List Entry) (p : String) : Prop :=
  ∃ names name, Holds es (names ++ [name]) ∧ hasSubfix name subfix = true ∧ p = pathOf path (names ++ [name])

variable {es es' : List Entry} {e : Entry} {name path subfix p : String} {names : List String}

theorem Holds.mono (h : Holds es names) (hsub : ∀ e ∈ es, e ∈ es') : Holds es' names := by
  cases h with
  | reg hmem => exact .reg (hsub _ hmem)
  | dir hmem h₁ h₂ hrest => exact .dir (hsub _ hmem) h₁ h₂ hrest

theorem listed_entry (h : Listed path subfix es p) : ∃ e ∈ es, Listed path subfix [e] p := by
  obtain ⟨names, name, hholds, hsubfix, hp⟩ := h
  generalize hall : names ++ [name] = all at hholds
  cases hholds with
  | reg hmem => exact ⟨_, hmem, names, name, hall ▸ .reg List.mem_cons_self, hsubfix, hp⟩
  | dir hmem h₁ h₂ hrest => exact ⟨_, hmem, names, name, hall ▸ .dir List.mem_cons_self h₁ h₂ hrest, hsubfix, hp⟩

theorem listed_cons_iff : Listed path subfix (e :: es) p ↔ Listed path subfix [e] p ∨ Listed path subfix es p := by
  constructor
  · intro h
    obtain ⟨e', he', names, name, hholds, hsubfix, hp⟩ := listed_entry h
    rcases List.mem_cons.mp he' with rfl | he'
    · exact .inl ⟨names, name, hholds, hsubfix, hp⟩
    · refine .inr ⟨names, name, hholds.mono ?_, hsubfix, hp⟩
      intro e'' he''
      rwa [List.mem_singleton.mp he'']
  · rintro (⟨names, name, hholds, hsubfix, hp⟩ | ⟨names, name, hholds, hsubfix, hp⟩)
    · refine ⟨names, name, hholds.mono ?_, hsubfix, hp⟩
      intro e' he'
      rw [List.mem_singleton.mp he']
      exact List.mem_cons_self
    · exact ⟨names, name, hholds.mono fun _ he' => List.mem_cons_of_mem _ he', hsubfix, hp⟩

theorem listed_dir_iff : Listed path subfix [.dir name es] p ↔
    (name ≠ "." ∧ name ≠ "..") ∧ Listed (path ++ "/" ++ name) subfix es p := by
  constructor
  · rintro ⟨names, last, hholds, hsubfix, hp⟩
    generalize hall : names ++ [last] = all at hholds
    cases hholds with
    | reg hmem => cases List.mem_singleton.mp hmem
    | @dir _ es' _ rest hmem h₁ h₂ hrest =>
      cases List.mem_singleton.mp hmem
      cases names with
      | nil =>
        cases hall
        cases hrest
      | cons n names =>
        cases hall
        exact ⟨⟨h₁, h₂⟩, names, last, hrest, hsubfix, hp⟩
  · rintro ⟨⟨h₁, h₂⟩, names, last, hholds, hsubfix, hp⟩
    exact ⟨name :: names, last, .dir List.mem_cons_self h₁ h₂ hholds, hsubfix, hp⟩

theorem listed_reg_iff : Listed path subfix [.reg name] p ↔ hasSubfix name subfix = true ∧ p = path ++ "/" ++ name := by
  constructor
  · rintro ⟨names, last, hholds, hsubfix, hp⟩
    generalize hall : names ++ [last] = all at hholds
    cases hholds with
    | reg hmem =>
      cases List.mem_singleton.mp hmem
      obtain ⟨rfl, hlast⟩ := List.append_eq_singleton_iff.mp hall |>.resolve_right fun h => by simp at h
      cases hlast
      exact ⟨hsubfix, hp⟩
    | dir hmem _ _ _ => cases List.mem_singleton.mp hmem
  · rintro ⟨hsubfix, hp⟩
    exact ⟨[], name, .reg List.mem_cons_self, hsubfix, hp⟩

mutual

theorem mem_listEntry (path subfix p : String) : ∀ e : Entry, p ∈ listEntry path subfix e ↔ Listed path subfix [e] p
  | .dir name es => by
    rw [listEntry, listed_dir_iff, ← mem_listEntries (path ++ "/" ++ name) subfix p es]
    by_cases hname : name = "." ∨ name = ".."
    · rw [if_pos hname]
      exact iff_of_false (fun h => (nomatch h)) fun h => hname.elim h.1.1 h.1.2
    · rw [if_neg hname, and_iff_right (not_or.mp hname)]
  | .reg name => by
    rw [listEntry, listed_reg_iff]
    cases hasSubfix name subfix <;> simp
  | .other name => by
    refine iff_of_false (fun h => (nomatch h)) ?_
    rintro ⟨names, last, hholds, -⟩
    generalize names ++ [last] = all at hholds
    cases hholds with
    | reg hmem => cases List.mem_singleton.mp hmem
    | dir hmem _ _ _ => cases List.mem_singleton.mp hmem

theorem mem_listEntries (path subfix p : String) : ∀ es : List Entry,
    p ∈ listEntries path subfix es ↔ Listed path subfix es p
  | [] => by
    refine iff_of_false (fun h => (nomatch h)) ?_
    intro h
    obtain ⟨_, he, -⟩ := listed_entry h
    cases he
  | e :: es => by
    rw [listEntries, List.mem_append, listed_cons_iff, mem_listEntry path subfix p e, mem_listEntries path subfix p es]

end

/-! ## Loading them -/

/-- What `lstat` and `YAML::LoadFile` see of a file; `root` is none when the latter throws. -/
structure File where
  mtime : UInt64
  root : Option Node

/-- The files, with `s_file2modifytime` and the variables. -/
structure Loader (Var : Type) where
  /-- What is in a directory, by the path it is opened with. -/
  dirs : String → List Entry
  files : String → Option File
  file2modifytime : String → UInt64
  conf : ConfigVarMap Var
  /-- Ghost: what each file had in it when it was last read. -/
  read : String → Option (Option Node)

namespace Loader

variable {Var : Type} (fromString : Var → String → Var) (emit : Node → String)

/-- Before `main`: there are no files yet. -/
def init (conf : ConfigVarMap Var) : Loader Var :=
  ⟨fun _ => [], fun _ => none, fun _ => 0, conf, fun _ => none⟩

/-- What a file is noted and read as. -/
def note (s : Loader Var) (i : String) (st : File) : Loader Var :=
  { s with
    file2modifytime := Function.update s.file2modifytime i st.mtime
    read := Function.update s.read i (some st.root) }

/-- A turn of the loop of `LoadFromConfDir`. -/
def loadFile (s : Loader Var) (i : String) : Loader Var :=
  match s.files i with
  | none => s
  | some st =>
    if s.file2modifytime i = st.mtime then s
    else
      match st.root with
      | none => s.note i st
      | some root => { s.note i st with conf := s.conf.loadFromYaml fromString emit root }

/-- `path` is absolute. -/
def loadFromConfDir (s : Loader Var) (path : String) : Loader Var :=
  (listEntries path ".yml" (s.dirs path)).foldl (loadFile fromString emit) s

/-- A call, or what becomes of the files between two calls. -/
inductive Action where
  | change (dirs : String → List Entry) (files : String → Option File)
  | load (path : String)

def step (s : Loader Var) : Action → Option (Loader Var)
  | .change dirs files => some { s with dirs, files }
  | .load path => some (s.loadFromConfDir fromString emit path)

/-- A file that would be passed over has been read as it is. -/
def CurrentAs (s : Loader Var) (files : String → Option File) : Prop :=
  ∀ i st, files i = some st → s.file2modifytime i = st.mtime → s.read i = some st.root

def Current (s : Loader Var) : Prop := s.CurrentAs s.files

/-- What keeps the files current. -/
def Fits (s : Loader Var) : Action → Prop
  | .change _ files => s.CurrentAs files
  | .load _ => True

/-- It would be passed over. -/
def Noted (s : Loader Var) (i : String) : Prop := ∀ st, s.files i = some st → s.file2modifytime i = st.mtime

variable {fromString emit} {s t : Loader Var} {i : String} {st : File} {a : Action}

theorem loadFile_cases (s : Loader Var) (i : String) : s.Noted i ∧ s.loadFile fromString emit i = s ∨
    ∃ st conf, s.files i = some st ∧ s.loadFile fromString emit i = { s.note i st with conf } := by
  unfold loadFile
  cases hst : s.files i with
  | none => exact .inl ⟨fun _ he => (nomatch hst.symm.trans he), rfl⟩
  | some st =>
    by_cases htime : s.file2modifytime i = st.mtime
    · refine .inl ⟨?_, if_pos htime⟩
      intro st' he
      cases hst.symm.trans he
      exact htime
    · refine .inr ⟨st, ?_⟩
      dsimp only
      rw [if_neg htime]
      cases st.root with
      | none => exact ⟨_, rfl, rfl⟩
      | some root => exact ⟨_, rfl, rfl⟩

theorem loadFile_of_noted (h : s.Noted i) : s.loadFile fromString emit i = s := by
  unfold loadFile
  cases hst : s.files i with
  | none => rfl
  | some st => exact if_pos (h st hst)

theorem loadFile_frame (s : Loader Var) (i : String) : (s.loadFile fromString emit i).files = s.files ∧
    (s.loadFile fromString emit i).dirs = s.dirs := by
  rcases loadFile_cases s i with ⟨-, h⟩ | ⟨st, conf, -, h⟩
  · rw [h]
    exact ⟨rfl, rfl⟩
  · rw [h]
    exact ⟨rfl, rfl⟩

theorem loadFile_current (h : s.Current) : (s.loadFile fromString emit i).Current := by
  rcases loadFile_cases s i with ⟨-, heq⟩ | ⟨st, conf, hst, heq⟩
  · rwa [heq]
  · rw [heq]
    intro j st' hst' htime
    by_cases hj : j = i
    · subst hj
      cases hst.symm.trans hst'
      exact Function.update_self _ _ _
    · exact (Function.update_of_ne hj _ _).trans (h j st' hst' ((Function.update_of_ne hj _ _).symm.trans htime))

theorem loadFile_noted (s : Loader Var) (i : String) : (s.loadFile fromString emit i).Noted i := by
  rcases loadFile_cases s i with ⟨hnoted, heq⟩ | ⟨st, conf, hst, heq⟩
  · rwa [heq]
  · rw [heq]
    intro st' hst'
    cases hst.symm.trans hst'
    exact Function.update_self _ _ _

theorem Noted.loadFile {j : String} (h : s.Noted j) : (s.loadFile fromString emit i).Noted j := by
  by_cases hj : j = i
  · subst hj
    exact loadFile_noted s j
  · rcases loadFile_cases s i with ⟨-, heq⟩ | ⟨st, conf, -, heq⟩
    · rwa [heq]
    · rw [heq]
      intro st' hst'
      exact (Function.update_of_ne hj _ _).trans (h st' hst')

/-! ## The loop -/

theorem loadFiles_frame (is : List String) (s : Loader Var) :
    (is.foldl (loadFile fromString emit) s).files = s.files ∧
      (is.foldl (loadFile fromString emit) s).dirs = s.dirs := by
  induction is generalizing s with
  | nil => exact ⟨rfl, rfl⟩
  | cons i is ih =>
    obtain ⟨hfiles, hdirs⟩ := ih (s.loadFile fromString emit i)
    exact ⟨hfiles.trans (loadFile_frame s i).1, hdirs.trans (loadFile_frame s i).2⟩

theorem loadFiles_current (is : List String) (h : s.Current) : (is.foldl (loadFile fromString emit) s).Current := by
  induction is generalizing s with
  | nil => exact h
  | cons i is ih => exact ih (loadFile_current h)

theorem loadFiles_noted {j : String} (is : List String) (h : j ∈ is ∨ s.Noted j) :
    (is.foldl (loadFile fromString emit) s).Noted j := by
  induction is generalizing s with
  | nil => exact h.resolve_left List.not_mem_nil
  | cons i is ih =>
    refine ih ?_
    rcases h with h | h
    · rcases List.mem_cons.mp h with rfl | h
      · exact .inr (loadFile_noted s j)
      · exact .inl h
    · exact .inr h.loadFile

theorem loadFiles_of_noted (is : List String) (h : ∀ i ∈ is, s.Noted i) :
    is.foldl (loadFile fromString emit) s = s := by
  induction is with
  | nil => rfl
  | cons i is ih =>
    rw [List.foldl_cons, loadFile_of_noted (h i List.mem_cons_self)]
    exact ih fun j hj => h j (List.mem_cons_of_mem i hj)

/-- A second call in a row finds nothing to load. -/
theorem load_again (s : Loader Var) (path : String) :
    (s.loadFromConfDir fromString emit path).loadFromConfDir fromString emit path =
      s.loadFromConfDir fromString emit path := by
  have hdirs : (s.loadFromConfDir fromString emit path).dirs = s.dirs := (loadFiles_frame _ s).2
  have hagain : ∀ t : Loader Var, t.loadFromConfDir fromString emit path =
      (listEntries path ".yml" (t.dirs path)).foldl (loadFile fromString emit) t := fun _ => rfl
  rw [hagain (s.loadFromConfDir fromString emit path), hdirs]
  exact loadFiles_of_noted _ fun i hi => loadFiles_noted _ (.inl hi)

/-- After a call the files of the directory have been read as they are. -/
theorem load_reads {path p : String} (h : s.Current) (hp : Listed path ".yml" (s.dirs path) p)
    (hst : s.files p = some st) : (s.loadFromConfDir fromString emit path).read p = some st.root := by
  have hfiles : (s.loadFromConfDir fromString emit path).files = s.files := (loadFiles_frame _ s).1
  have hst' := (congrFun hfiles p).trans hst
  have hnoted : (s.loadFromConfDir fromString emit path).Noted p :=
    loadFiles_noted _ (.inl ((mem_listEntries path ".yml" p (s.dirs path)).mpr hp))
  exact loadFiles_current _ h p st hst' (hnoted st hst')

/-! ## Runs -/

theorem init_current (conf : ConfigVarMap Var) : (init conf).Current := by
  intro i st hst
  cases hst

theorem step_current (h : s.Current) (hs : s.step fromString emit a = some t) : t.Current ↔ s.Fits a := by
  cases a with
  | change dirs files =>
    cases hs
    exact Iff.rfl
  | load path =>
    cases hs
    exact iff_of_true (loadFiles_current _ h) trivial

/-- In every run: the files are current all the way exactly when every change leaves them so, and
    then a call reads what is there. -/
theorem files_current_iff {conf : ConfigVarMap Var} {τ : History (Loader Var) Action}
    (hr : Run (step fromString emit) (init conf) τ s) :
    ((∀ v ∈ s :: τ.map Prod.fst, v.Current) ↔ Meets Fits τ) ∧
    ∀ path, (s.loadFromConfDir fromString emit path).loadFromConfDir fromString emit path =
        s.loadFromConfDir fromString emit path ∧
      (Meets Fits τ → ∀ p st, Listed path ".yml" (s.dirs path) p → s.files p = some st →
        (s.loadFromConfDir fromString emit path).read p = some st.root) := by
  have hiff := (hr.throughout_iff (J := fun _ => True) trivial (init_current conf) (fun _ _ _ _ _ => trivial)
    fun _ _ _ _ h hs => step_current h hs).2
  refine ⟨hiff, fun path => ⟨load_again s path, ?_⟩⟩
  intro hfits p st hp hst
  exact load_reads (hiff.mpr hfits s List.mem_cons_self) hp hst

/-- A file that is written twice in a second is read the first time only. -/
theorem files_current_iff_second : ∃ τ s,
    Run (step (fun _ text => text) fun _ => "") (init ⟨fun _ => some "", []⟩) τ s ∧
      ((∀ v ∈ s :: τ.map Prod.fst, v.Current) ↔ Meets Fits τ) ∧ ¬ s.Current := by
  let dirs : String → List Entry := fun path => if path = "/conf" then [.reg "a.yml"] else []
  let files (text : String) (p : String) : Option File :=
    if p = "/conf/a.yml" then some ⟨7, some (.scalar text)⟩ else none
  let s₁ : Loader String := { init ⟨fun _ => some "", []⟩ with dirs, files := files "80" }
  let s₂ : Loader String := s₁.loadFromConfDir (fun _ text => text) (fun _ => "") "/conf"
  have hr : Run (step (fun _ text => text) fun _ => "") (init ⟨fun _ => some "", []⟩)
      [(s₂, .change dirs (files "90")), (s₁, .load "/conf"), (init ⟨fun _ => some "", []⟩, .change dirs (files "80"))]
      { s₂ with dirs, files := files "90" } := .step (.step (.step .nil rfl) rfl) rfl
  refine ⟨_, _, hr, (files_current_iff hr).1, ?_⟩
  have hfile (text : String) : files text "/conf/a.yml" = some ⟨7, some (.scalar text)⟩ := if_pos rfl
  intro h
  have hlisted : Listed "/conf" ".yml" (s₁.dirs "/conf") "/conf/a.yml" := listed_reg_iff.mpr (by decide)
  have hfirst : s₁.Current := by
    intro i st hst htime
    obtain ⟨-, hst⟩ := Option.ite_none_right_eq_some.mp hst
    cases hst
    exact absurd htime (show ¬ (0 : UInt64) = 7 by decide)
  have hread : s₂.read "/conf/a.yml" = some (some (.scalar "80")) :=
    load_reads hfirst hlisted (hfile "80")
  have hnoted : s₂.file2modifytime "/conf/a.yml" = 7 := by
    have hin := (mem_listEntries "/conf" ".yml" "/conf/a.yml" (s₁.dirs "/conf")).mpr hlisted
    refine loadFiles_noted _ (.inl hin) ⟨7, some (.scalar "80")⟩ ?_
    exact (congrFun (loadFiles_frame _ s₁).1 _).trans (hfile "80")
  have hsame := hread.symm.trans (h "/conf/a.yml" _ (hfile "90") hnoted)
  exact absurd (Node.scalar.inj (Option.some.inj (Option.some.inj hsame))) (by decide)

end Loader

end LjrServer.Config
