/-
  LjrServer.Log.Inheritance — appenders that are handed from logger to logger, and whose
  formatter they write with (log.cpp).

  An appender says in a flag whether its formatter is its own; `Logger::setFormatter` asks
  the flag, `addAppender` asks the pointer. A formatter never changes once it is made, so
  it is known by what it is.

  Proved:
  - `attach_made`: adding an appender that was just made is making it and then adding it.
  - `inherits_step`: what one call does to the inheritance.
  - `inherits_iff`: over a run, every appender writes with its own formatter or that of its
    only logger exactly while no call takes an attached appender's formatter away, or makes
    a logger the only one of an appender with another's formatter.
-/

import LjrServer.Lib.Runs
import LjrServer.Log.Logger
import Mathlib.Data.List.Count

namespace LjrServer.Log

open LjrServer.Lib

/-- The enumeration's number. -/
def LogLevel.value : LogLevel → Nat
  | UNKNOW => 0
  | DEBUG => 1
  | INFO => 2
  | WARN => 3
  | ERROR => 4
  | FATAL => 5
  | cast value => value

/-- An appender that is added to a logger with this formatter. -/
def LogAppender.added (a : LogAppender) (formatter : Option LogFormatter) : LogAppender :=
  if a.formatter.isNone then { a with formatter } else a

namespace LoggerManager

/-- `Logger::addAppender`, of any appender. -/
def attach (s : LoggerManager) (name : String) (i : Nat) : LoggerManager :=
  { s.modify name fun l => { l with appenders := l.appenders ++ [i] } with
    appenders := s.appenders.modify i fun a => a.added ((s.loggers name).map (·.formatter)) }

/-- `Logger::delAppender`. -/
def delAppender (s : LoggerManager) (name : String) (i : Nat) : LoggerManager :=
  s.modify name fun l => { l with appenders := l.appenders.erase i }

/-- `LogAppender::setFormatter`. -/
def setAppenderFormatter (s : LoggerManager) (i : Nat) (formatter : Option LogFormatter) : LoggerManager :=
  { s with appenders := s.appenders.modify i (·.setFormatter formatter) }

/-- The constructor of an appender. -/
def newAppender (s : LoggerManager) (file : Option String) : LoggerManager :=
  { s with appenders := s.appenders ++ [{ file }] }

/-- The appenders that write a line of this level, and their formatters; none when one of
    these is null. -/
def appendersLog (s : LoggerManager) (level : LogLevel) : List Nat → Option (List (Nat × LogFormatter))
  | [] => some []
  | i :: is => do
    let a ← s.appenders[i]?
    if a.level.value ≤ level.value then
      let formatter ← a.formatter
      let rest ← s.appendersLog level is
      some ((i, formatter) :: rest)
    else
      s.appendersLog level is

/-- `Logger::log`. The root logger, which has no `m_root`, is the one of that name. -/
def log (s : LoggerManager) (name : String) (level : LogLevel) : Option (List (Nat × LogFormatter)) := do
  let l ← s.loggers name
  if l.level.value ≤ level.value then
    if l.appenders ≠ [] then s.appendersLog level l.appenders
    else if name = rootName then some []
    else
      let root ← s.loggers rootName
      if root.level.value ≤ level.value then s.appendersLog level root.appenders else some []
  else some []

inductive LogCall where
  | getLogger (name : String)
  | newAppender (file : Option String)
  | setFormatter (name : String) (val : LogFormatter)
  | setPattern (name val : String)
  | addAppender (name : String) (appender : Nat)
  | delAppender (name : String) (appender : Nat)
  | clearAppenders (name : String)
  | setAppenderFormatter (appender : Nat) (formatter : Option LogFormatter)
  deriving DecidableEq, Repr

/-- The logger a call is made on. -/
def LogCall.logger : LogCall → Option String
  | setFormatter name _ => some name
  | setPattern name _ => some name
  | addAppender name _ => some name
  | delAppender name _ => some name
  | clearAppenders name => some name
  | _ => none

/-- The appender a call is given. -/
def LogCall.appender : LogCall → Option Nat
  | addAppender _ i => some i
  | delAppender _ i => some i
  | setAppenderFormatter i _ => some i
  | _ => none

def call (s : LoggerManager) : LogCall → LoggerManager
  | .getLogger name => s.getLogger name
  | .newAppender file => s.newAppender file
  | .setFormatter name val => s.setFormatter name val
  | .setPattern name val => s.setPattern name val
  | .addAppender name i => s.attach name i
  | .delAppender name i => s.delAppender name i
  | .clearAppenders name => s.clearAppenders name
  | .setAppenderFormatter i formatter => s.setAppenderFormatter i formatter

/-- A call on loggers and appenders that were made. -/
def exec (s : LoggerManager) (c : LogCall) : Option LoggerManager :=
  if (∀ name ∈ c.logger, (s.loggers name).isSome) ∧ ∀ i ∈ c.appender,
      i < s.appenders.length then some (s.call c) else none

theorem attach_made (s : LoggerManager) (name : String) (a : LogAppender) :
    s.addAppender name a = { s with appenders := s.appenders ++ [a] }.attach name s.appenders.length := by
  have happ : ∀ f : LogAppender → LogAppender,
      (s.appenders ++ [a]).modify s.appenders.length f = s.appenders ++ [f a] := by
    intro f
    rw [List.modify_eq_take_cons_drop (by simp)]
    simp
  simp only [addAppender, attach, LogAppender.added, modify, happ]

/-! ## The invariant -/

/-- The appender is in the logger's list. -/
def Attached (s : LoggerManager) (name : String) (i : Nat) : Prop := ∃ l, s.loggers name = some l ∧ i ∈ l.appenders

/-- If the appender has no formatter of its own, it has the logger's. -/
def Shares (s : LoggerManager) (name : String) (i : Nat) : Prop :=
  ∀ l a, s.loggers name = some l → s.appenders[i]? = some a → a.hasFormatter = false → a.formatter = some l.formatter

structure Inherits (s : LoggerManager) : Prop where
  formatted : ∀ name i a, s.Attached name i → s.appenders[i]? = some a → a.formatter ≠ none
  inherited : ∀ name i, s.Attached name i → (∀ other, s.Attached other i → other = name) → s.Shares name i

/-- The call leaves the logger without an appender it had. -/
def takes (s : LoggerManager) : LogCall → String → Nat → Prop
  | .delAppender name i, n, j => n = name ∧ j = i ∧ ∃ l, s.loggers name = some l ∧ l.appenders.count i = 1
  | .clearAppenders name, n, j => n = name ∧ s.Attached name j
  | _, _, _ => False

/-- The call takes no formatter from an attached appender, and a logger that it makes the
    only one of an appender has the appender's formatter. -/
structure Keeps (s : LoggerManager) (c : LogCall) : Prop where
  null : ∀ i name, c = .setAppenderFormatter i none → ¬ s.Attached name i
  added : ∀ name i, c = .addAppender name i → (∀ other, s.Attached other i → other = name) →
    s.Shares name i ∨ ∀ a, s.appenders[i]? = some a → a.formatter = none
  left : ∀ name i other, s.takes c name i → s.Attached other i → other ≠ name →
    (∀ n, s.Attached n i → n = name ∨ n = other) → s.Shares other i

/-- What every run keeps: the pointers are good, and there is the root logger. -/
def Made (s : LoggerManager) : Prop := s.Linked ∧ (s.loggers rootName).isSome

/-- The inheritance, and that no logger comes to a null formatter. -/
def Sound (s : LoggerManager) : Prop := s.Inherits ∧ ∀ name level, (s.loggers name).isSome → (s.log name level).isSome

/-! ## What a call changes -/

variable {s t : LoggerManager} {c : LogCall} {name other n : String} {i j : Nat}

theorem exec_call (h : exec s c = some t) : t = s.call c ∧ (∀ name ∈ c.logger, (s.loggers name).isSome) ∧
    ∀ i ∈ c.appender, i < s.appenders.length := by
  unfold exec at h
  split at h
  · rename_i hmade
    exact ⟨(Option.some.inj h).symm, hmade⟩
  · cases h

theorem attached_congr (h : ∀ n, ((t.loggers n).map (·.appenders)).getD [] =
    ((s.loggers n).map (·.appenders)).getD []) :
    t.Attached n j ↔ s.Attached n j := by
  have hlist : ∀ u : LoggerManager, u.Attached n j ↔ j ∈ ((u.loggers n).map (·.appenders)).getD [] := by
    intro u
    cases hu : u.loggers n <;> simp [Attached, hu]
  rw [hlist, hlist, h]

theorem shares_congr (happ : t.appenders[j]? = s.appenders[j]?)
    (hfmt : (t.loggers n).map (·.formatter) = (s.loggers n).map (·.formatter)) : t.Shares n j ↔ s.Shares n j := by
  have hshares : ∀ u : LoggerManager, u.Shares n j ↔ ∀ f ∈ (u.loggers n).map (·.formatter), ∀ a ∈ u.appenders[j]?,
      a.hasFormatter = false → a.formatter = some f := by
    intro u
    cases hu : u.loggers n with
    | none => simp [Shares, hu]
    | some l =>
      constructor
      · intro h f hf a ha hown
        cases hf
        exact h l a hu ha hown
      · intro h l' a hl' ha hown
        rw [hu] at hl'
        cases hl'
        exact h l.formatter rfl a ha hown
  rw [hshares, hshares, happ, hfmt]

/-- Only the formatter or the level of a logger changes. -/
theorem attached_modify {f : Logger → Logger} (hf : ∀ l, (f l).appenders = l.appenders) :
    (s.modify name f).Attached n j ↔ s.Attached n j := by
  apply attached_congr
  intro n
  by_cases hn : n = name
  · subst hn
    cases hs : s.loggers n <;> simp [modify, hs, hf]
  · rw [modify_ne hn]

theorem attached_getLogger : (s.getLogger name).Attached n j ↔ s.Attached n j := by
  apply attached_congr
  intro n
  by_cases hn : n = name
  · subst hn
    rw [getLogger_self]
    cases hs : s.loggers n <;> simp [Logger.new]
  · rw [getLogger_ne hn]

theorem attached_attach (hl : (s.loggers name).isSome) :
    (s.attach name i).Attached n j ↔ s.Attached n j ∨ n = name ∧ j = i := by
  obtain ⟨l, hl⟩ := Option.isSome_iff_exists.mp hl
  by_cases hn : n = name
  · subst hn
    simp [Attached, attach, hl]
  · simp [Attached, attach, modify, hn]

theorem attached_delAppender :
    (s.delAppender name i).Attached n j ↔ s.Attached n j ∧ ¬ s.takes (.delAppender name i) n j := by
  by_cases hn : n = name
  · subst hn
    cases hl : s.loggers n with
    | none => simp [Attached, delAppender, modify, hl]
    | some l =>
      have herase : j ∈ l.appenders.erase i ↔ j ∈ l.appenders ∧ ¬ (j = i ∧ l.appenders.count i = 1) := by
        by_cases hj : j = i
        · subst hj
          rw [← List.count_pos_iff, ← List.count_pos_iff, List.count_erase_self]
          omega
        · simp [List.mem_erase_of_ne hj, hj]
      simpa [Attached, delAppender, takes, hl] using herase
  · simp [Attached, delAppender, modify, takes, hn]

theorem attached_clearAppenders :
    (s.clearAppenders name).Attached n j ↔ s.Attached n j ∧ ¬ s.takes (.clearAppenders name) n j := by
  by_cases hn : n = name
  · subst hn
    cases hl : s.loggers n with
    | none => simp [Attached, clearAppenders, modify, hl]
    | some l => simp [Attached, clearAppenders, takes, hl]
  · simp [Attached, clearAppenders, modify, takes, hn]

theorem attached_setFormatter {val : LogFormatter} : (s.setFormatter name val).Attached n j ↔ s.Attached n j :=
  attached_modify (f := fun l => { l with formatter := val }) fun _ => rfl

/-- Who is attached to whom after a call. -/
theorem attached_call (h : exec s c = some t) :
    t.Attached n j ↔ (s.Attached n j ∧ ¬ s.takes c n j) ∨ c = .addAppender n j := by
  obtain ⟨rfl, hlogger, -⟩ := exec_call h
  cases c with
  | getLogger name => simp [call, attached_getLogger, takes]
  | newAppender file => simp [call, newAppender, Attached, takes]
  | setFormatter name val => simp [call, attached_setFormatter, takes]
  | setPattern name val =>
    by_cases herr : (LogFormatter.new val).error <;> simp [call, setPattern, herr, attached_setFormatter, takes]
  | addAppender name i =>
    rw [call, attached_attach (hlogger name rfl)]
    simp [takes, eq_comm]
  | delAppender name i => simp [call, attached_delAppender]
  | clearAppenders name => simp [call, attached_clearAppenders]
  | setAppenderFormatter i formatter => simp [call, setAppenderFormatter, Attached, takes]

/-! ## The invariant over a call -/

/-- A call after which every attached appender has the formatter it had. -/
theorem inherits_congr (hatt : ∀ n j, t.Attached n j ↔ s.Attached n j)
    (happ : ∀ n j, s.Attached n j → t.appenders[j]? = s.appenders[j]?)
    (hfmt : ∀ n j, s.Attached n j → (t.loggers n).map (·.formatter) = (s.loggers n).map (·.formatter)) :
    s.Inherits → t.Inherits := by
  intro hi
  constructor
  · intro n j a hj ha
    have hjs := (hatt n j).mp hj
    exact hi.formatted n j a hjs (happ n j hjs ▸ ha)
  · intro n j hj honly
    have hjs := (hatt n j).mp hj
    rw [shares_congr (happ n j hjs) (hfmt n j hjs)]
    exact hi.inherited n j hjs fun other ho => honly other ((hatt other j).mpr ho)

/-- A call that takes appenders from one logger. -/
theorem inherits_detach {gone : String → Nat → Prop} (hi : s.Inherits)
    (hatt : ∀ n j, t.Attached n j ↔ s.Attached n j ∧ ¬ gone n j)
    (hone : ∀ n j, gone n j → n = name) (happ : t.appenders = s.appenders)
    (hfmt : ∀ n, (t.loggers n).map (·.formatter) = (s.loggers n).map (·.formatter)) :
    t.Inherits ↔ ∀ n i other, gone n i → s.Attached other i → other ≠ n →
      (∀ m, s.Attached m i → m = n ∨ m = other) → s.Shares other i := by
  have hshares : ∀ n j, t.Shares n j ↔ s.Shares n j := fun n j => shares_congr (by rw [happ]) (hfmt n)
  constructor
  · intro ht n i other hgone hother hne honly
    have hstays : t.Attached other i := (hatt other i).mpr ⟨hother, fun hg =>
        hne ((hone _ _ hg).trans (hone _ _ hgone).symm)⟩
    rw [← hshares]
    apply ht.inherited other i hstays
    intro m hm
    obtain ⟨hms, hmg⟩ := (hatt m i).mp hm
    rcases honly m hms with rfl | rfl
    · exact absurd hgone hmg
    · rfl
  · intro hleft
    constructor
    · intro n j a hj ha
      exact hi.formatted n j a ((hatt n j).mp hj).1 (happ ▸ ha)
    · intro n j hj honly
      obtain ⟨hjs, hjg⟩ := (hatt n j).mp hj
      rw [hshares]
      by_cases hgone : ∃ m, gone m j ∧ s.Attached m j
      · obtain ⟨m, hm, -⟩ := hgone
        have hne : n ≠ m := fun heq => hjg (heq ▸ hm)
        refine hleft m j n hm hjs hne ?_
        intro k hk
        by_cases hkg : gone k j
        · exact .inl ((hone _ _ hkg).trans (hone _ _ hm).symm)
        · exact .inr (honly k ((hatt k j).mpr ⟨hk, hkg⟩))
      · apply hi.inherited n j hjs
        intro k hk
        exact honly k ((hatt k j).mpr ⟨hk, fun hkg => hgone ⟨k, hkg, hk⟩⟩)

theorem formatter_modify {f : Logger → Logger} (hf : ∀ l, (f l).formatter = l.formatter) (n : String) :
    ((s.modify name f).loggers n).map (·.formatter) = (s.loggers n).map (·.formatter) := by
  by_cases hn : n = name
  · subst hn
    cases hs : s.loggers n <;> simp [modify, hs, hf]
  · rw [modify_ne hn]

theorem inherits_getLogger (hi : s.Inherits) (name : String) : (s.getLogger name).Inherits := by
  apply inherits_congr (fun _ _ => attached_getLogger) _ _ hi
  · intro n j _
    rw [getLogger_appenders]
  · intro n j hj
    obtain ⟨l, hl, -⟩ := hj
    by_cases hn : n = name
    · subst hn
      simp [getLogger, hl]
    · rw [getLogger_ne hn]

theorem inherits_newAppender (hl : s.Linked) (hi : s.Inherits) (file : Option String) :
    (s.newAppender file).Inherits := by
  have happ : ∀ n j, s.Attached n j → (s.newAppender file).appenders[j]? = s.appenders[j]? := by
    intro n j hj
    obtain ⟨l, hn, hj⟩ := hj
    exact List.getElem?_append_left (hl n l hn j hj)
  have hatt : ∀ n j, (s.newAppender file).Attached n j ↔ s.Attached n j := fun _ _ => Iff.rfl
  exact inherits_congr hatt happ (fun _ _ _ => rfl) hi

/-- The appenders without a formatter of their own follow their logger's. -/
theorem inherits_setFormatter (hi : s.Inherits) (hname : (s.loggers name).isSome) (val : LogFormatter) :
    (s.setFormatter name val).Inherits := by
  obtain ⟨l, hl⟩ := Option.isSome_iff_exists.mp hname
  have happ : ∀ j, (s.setFormatter name val).appenders[j]? = (s.appenders[j]?).map fun a =>
      if j ∈ l.appenders ∧ a.hasFormatter = false then { a with formatter := some val } else a := by
    intro j
    simp [setFormatter, hl]
  constructor
  · intro n j b hj hb
    obtain ⟨a, ha, rfl⟩ := Option.map_eq_some_iff.mp (happ j ▸ hb)
    split
    · simp
    · exact hi.formatted n j a (attached_setFormatter.mp hj) ha
  · intro n j hj honly
    by_cases hn : n = name
    · subst hn
      have hmem : j ∈ l.appenders := by
        obtain ⟨l', hl', hmem⟩ := attached_setFormatter.mp hj
        rw [hl] at hl'
        cases hl'
        exact hmem
      intro l' b hl' hb hown
      have hval : l'.formatter = val := by
        have : some { l with formatter := val } = some l' := by simpa [setFormatter, hl] using hl'
        cases this
        rfl
      obtain ⟨a, ha, rfl⟩ := Option.map_eq_some_iff.mp (happ j ▸ hb)
      split
      · rw [hval]
      · rename_i hnot
        rw [if_neg hnot] at hown
        exact absurd ⟨hmem, hown⟩ hnot
    · have hmem : j ∉ l.appenders := fun hmem => hn (honly name (attached_setFormatter.mpr ⟨l, hl, hmem⟩)).symm
      have hsame : (s.setFormatter name val).appenders[j]? = s.appenders[j]? := by simp [happ, hmem]
      rw [shares_congr hsame (by simp [setFormatter, modify, hn])]
      exact hi.inherited n j (attached_setFormatter.mp hj) fun other ho => honly other (attached_setFormatter.mpr ho)

/-! What `addAppender` does to the appender it is given, and to the others. -/

theorem attach_appenders : (s.attach name i).appenders[j]? = if j = i
    then (s.appenders[j]?).map (·.added ((s.loggers name).map (·.formatter))) else s.appenders[j]? := by
  by_cases hj : j = i
  · simp [attach, hj]
  · simp [attach, hj, Ne.symm hj]

theorem attach_formatter : ((s.attach name i).loggers n).map (·.formatter) = (s.loggers n).map (·.formatter) :=
  formatter_modify (f := fun l => { l with appenders := l.appenders ++ [i] }) (fun _ => rfl) n

theorem attach_other (hj : j ≠ i) : (s.attach name i).Shares n j ↔ s.Shares n j :=
  shares_congr (by rw [attach_appenders, if_neg hj]) attach_formatter

/-- The appender shares the formatter of the logger it goes to if it did so before or had none. -/
theorem attach_shares (hname : (s.loggers name).isSome) (hmade : i < s.appenders.length) :
    (s.attach name i).Shares name i ↔ s.Shares name i ∨ ∀ a, s.appenders[i]? = some a → a.formatter = none := by
  obtain ⟨l, hl⟩ := Option.isSome_iff_exists.mp hname
  have hget : s.appenders[i]? = some s.appenders[i] := List.getElem?_eq_getElem hmade
  have hself : (s.attach name i).appenders[i]? = some ((s.appenders[i]).added (some l.formatter)) := by
    rw [attach_appenders, if_pos rfl, hget, hl]
    rfl
  by_cases hnull : (s.appenders[i]).formatter = none
  · refine iff_of_true ?_ (.inr fun a ha => by rw [hget] at ha; cases ha; exact hnull)
    intro l' b hl' hb _
    have hsame : some l'.formatter = some l.formatter := by
      have hfmt : ((s.attach name i).loggers name).map (·.formatter) = (s.loggers name).map (·.formatter) := attach_formatter
      rwa [hl', hl] at hfmt
    rw [hself] at hb
    cases hb
    rw [hsame]
    simp [LogAppender.added, hnull]
  · have hkept : (s.attach name i).appenders[i]? = s.appenders[i]? := by
      rw [hself, hget]
      simp [LogAppender.added, hnull]
    rw [shares_congr hkept attach_formatter]
    exact (or_iff_left fun h => hnull (h _ hget)).symm

theorem formatted_attach (hi : s.Inherits) (hname : (s.loggers name).isSome) {a : LogAppender}
    (hj : (s.attach name i).Attached n j) (ha : (s.attach name i).appenders[j]? = some a) : a.formatter ≠ none := by
  rw [attach_appenders] at ha
  split at ha
  · obtain ⟨b, -, rfl⟩ := Option.map_eq_some_iff.mp ha
    obtain ⟨l, hl⟩ := Option.isSome_iff_exists.mp hname
    rw [hl]
    unfold LogAppender.added
    split
    · simp
    · rename_i hnull
      simpa using hnull
  · rename_i hji
    rcases (attached_attach hname).mp hj with hj | hj
    · exact hi.formatted n j a hj ha
    · exact absurd hj.2 hji

theorem inherits_attach (hi : s.Inherits) (hname : (s.loggers name).isSome) (hmade : i < s.appenders.length) :
    (s.attach name i).Inherits ↔ ((∀ other, s.Attached other i → other = name) →
      s.Shares name i ∨ ∀ a, s.appenders[i]? = some a → a.formatter = none) := by
  have hatt : ∀ n j, (s.attach name i).Attached n j ↔ s.Attached n j ∨ n = name ∧ j = i := fun _ _ => attached_attach hname
  have hnow : (s.attach name i).Attached name i := (hatt name i).mpr (.inr ⟨rfl, rfl⟩)
  rw [← attach_shares hname hmade]
  constructor
  · intro ht honly
    apply ht.inherited name i hnow
    intro other ho
    rcases (hatt other i).mp ho with ho | ho
    · exact honly other ho
    · exact ho.1
  · intro hshares
    refine ⟨fun n j a hj ha => formatted_attach hi hname hj ha, fun n j hj honly => ?_⟩
    have hbefore : ∀ other, s.Attached other j → other = n := fun other ho => honly other ((hatt other j).mpr (.inl ho))
    by_cases hji : j = i
    · subst hji
      obtain rfl := honly name hnow
      exact hshares hbefore
    · rcases (hatt n j).mp hj with hj | hj
      · exact (attach_other hji).mpr (hi.inherited n j hj hbefore)
      · exact absurd hj.2 hji

theorem inherits_setAppenderFormatter (hi : s.Inherits) (hmade : i < s.appenders.length)
    (formatter : Option LogFormatter) :
    (s.setAppenderFormatter i formatter).Inherits ↔ (formatter = none → ∀ name, ¬ s.Attached name i) := by
  have hself : (s.setAppenderFormatter i formatter).appenders[i]? = some ((s.appenders[i]).setFormatter formatter) := by
    simp [setAppenderFormatter, List.getElem?_eq_getElem hmade]
  have hother : ∀ j, j ≠ i → (s.setAppenderFormatter i formatter).appenders[j]? = s.appenders[j]? := by
    intro j hj
    simp [setAppenderFormatter, Ne.symm hj]
  constructor
  · intro ht hnull name hname
    exact ht.formatted name i _ hname hself hnull
  · intro hnull
    constructor
    · intro n j b hj hb
      by_cases hji : j = i
      · subst hji
        rw [hself] at hb
        cases hb
        exact fun h => hnull h n hj
      · exact hi.formatted n j b hj (hother j hji ▸ hb)
    · intro n j hj honly
      by_cases hji : j = i
      · subst hji
        intro l b _ hb hown
        rw [hself] at hb
        cases hb
        have hnone : formatter = none := by simpa [LogAppender.setFormatter] using hown
        exact absurd hj (hnull hnone n)
      · have hsame : (s.setAppenderFormatter i formatter).Shares n j ↔ s.Shares n j := shares_congr (hother j hji) rfl
        rw [hsame]
        exact hi.inherited n j hj honly

/-- The invariant is kept exactly by the calls that fit. -/
theorem inherits_step (hl : s.Linked) (hi : s.Inherits) (h : exec s c = some t) : t.Inherits ↔ s.Keeps c := by
  obtain ⟨rfl, hlogger, happender⟩ := exec_call h
  have htriv : (∀ i, c ≠ .setAppenderFormatter i none) → (∀ name i, c ≠ .addAppender name i) →
      (∀ name i, ¬ s.takes c name i) → s.Keeps c := fun h₁ h₂ h₃ =>
    ⟨fun i name hc => absurd hc (h₁ i), fun name i hc => absurd hc (h₂ name i), fun name i _ ht =>
        absurd ht (h₃ name i)⟩
  cases c with
  | getLogger name =>
    exact iff_of_true (inherits_getLogger hi name) (htriv (by simp) (by simp) (by simp [takes]))
  | newAppender file =>
    exact iff_of_true (inherits_newAppender hl hi file) (htriv (by simp) (by simp) (by simp [takes]))
  | setFormatter name val =>
    exact iff_of_true (inherits_setFormatter hi (hlogger name rfl) val) (htriv (by simp) (by simp) (by simp [takes]))
  | setPattern name val =>
    refine iff_of_true ?_ (htriv (by simp) (by simp) (by simp [takes]))
    rw [call, setPattern]
    split
    · exact hi
    · exact inherits_setFormatter hi (hlogger name rfl) _
  | addAppender name i =>
    rw [call, inherits_attach hi (hlogger name rfl) (happender i rfl)]
    constructor
    · intro hadded
      refine ⟨by simp, ?_, by simp [takes]⟩
      intro name' i' hc
      cases hc
      exact hadded
    · intro hfits
      exact hfits.added name i rfl
  | delAppender name i =>
    rw [call, inherits_detach hi (fun _ _ => attached_delAppender)
      (show ∀ n j, s.takes (.delAppender name i) n j → n = name from fun n j ht => ht.1) rfl (formatter_modify fun _ => rfl)]
    exact ⟨fun hleft => ⟨by simp, by simp, hleft⟩, Keeps.left⟩
  | clearAppenders name =>
    rw [call, inherits_detach hi (fun _ _ => attached_clearAppenders)
      (show ∀ n j, s.takes (.clearAppenders name) n j → n = name from fun n j ht => ht.1) rfl (formatter_modify fun _ => rfl)]
    exact ⟨fun hleft => ⟨by simp, by simp, hleft⟩, Keeps.left⟩
  | setAppenderFormatter i formatter =>
    rw [call, inherits_setAppenderFormatter hi (happender i rfl)]
    constructor
    · intro hnull
      refine ⟨?_, by simp, by simp [takes]⟩
      intro i' name hc
      cases hc
      exact hnull rfl name
    · intro hfits hnone name
      subst hnone
      exact hfits.null i name rfl

/-! ## Runs -/

theorem linked_iff : s.Linked ↔ ∀ n j, s.Attached n j → j < s.appenders.length :=
  ⟨fun h n j ⟨l, hl, hj⟩ => h n l hl j hj, fun h n l hl j hj => h n j ⟨l, hl, hj⟩⟩

theorem call_length (s : LoggerManager) (c : LogCall) : s.appenders.length ≤ (s.call c).appenders.length := by
  cases c with
  | setPattern name val =>
    by_cases herr : (LogFormatter.new val).error <;> simp [call, setPattern, setFormatter, herr]
  | _ => simp [call, newAppender, setFormatter, attach, delAppender, clearAppenders, setAppenderFormatter]

theorem modify_isSome {f : Logger → Logger} (h : (s.loggers n).isSome) : ((s.modify name f).loggers n).isSome := by
  by_cases hn : n = name
  · subst hn
    simpa [modify] using h
  · rwa [modify_ne hn]

/-- No logger is ever removed. -/
theorem call_isSome (h : (s.loggers n).isSome) : ((s.call c).loggers n).isSome := by
  cases c with
  | getLogger name =>
    by_cases hn : n = name
    · subst hn
      rw [call, getLogger_self]
      rfl
    · rwa [call, getLogger_ne hn]
  | newAppender file => exact h
  | setFormatter name val => exact modify_isSome h
  | setPattern name val =>
    rw [call, setPattern]
    split
    · exact h
    · exact modify_isSome h
  | addAppender name i => exact modify_isSome h
  | delAppender name i => exact modify_isSome h
  | clearAppenders name => exact modify_isSome h
  | setAppenderFormatter i formatter => exact h

theorem made_step (hm : s.Made) (h : exec s c = some t) : t.Made := by
  obtain ⟨rfl, -, happender⟩ := exec_call h
  refine ⟨linked_iff.mpr ?_, call_isSome hm.2⟩
  intro n j hj
  have hlt : j < s.appenders.length := by
    rcases (attached_call h).mp hj with ⟨hj, -⟩ | rfl
    · exact linked_iff.mp hm.1 n j hj
    · exact happender j rfl
  exact Nat.lt_of_lt_of_le hlt (call_length s c)

theorem attached_init (h : init.Attached n j) : n = rootName ∧ j = 0 := by
  have hatt : init.Attached n j ↔ n = rootName ∧ j = 0 := by
    rw [init, attach_made, attached_attach rfl]
    simp [Attached, Logger.new]
  exact hatt.mp h

theorem made_init : init.Made := by
  refine ⟨linked_iff.mpr ?_, rfl⟩
  intro n j hj
  obtain ⟨-, rfl⟩ := attached_init hj
  decide

theorem inherits_init : init.Inherits := by
  constructor
  · intro n j a hj ha
    obtain ⟨-, rfl⟩ := attached_init hj
    cases ha
    exact fun h => nomatch h
  · intro n j hj _ l a hl ha _
    obtain ⟨rfl, rfl⟩ := attached_init hj
    cases hl
    cases ha
    rfl

/-- Nobody comes to a null formatter where none is null. -/
theorem appendersLog_isSome {own : List Nat} (level : LogLevel)
    (h : ∀ i ∈ own, ∃ a, s.appenders[i]? = some a ∧ a.formatter ≠ none) : (s.appendersLog level own).isSome := by
  induction own with
  | nil => rfl
  | cons i own ih =>
    obtain ⟨⟨a, ha, hfmt⟩, hown⟩ := List.forall_mem_cons.mp h
    obtain ⟨f, hf⟩ := Option.ne_none_iff_exists'.mp hfmt
    obtain ⟨rest, hrest⟩ := Option.isSome_iff_exists.mp (ih hown)
    simp only [appendersLog, ha, Option.bind_eq_bind, Option.bind_some]
    split <;> simp [hf, hrest]

theorem log_isSome (hm : s.Made) (hi : s.Inherits) (level : LogLevel) (hname : (s.loggers name).isSome) :
    (s.log name level).isSome := by
  have hown : ∀ n l, s.loggers n = some l → (s.appendersLog level l.appenders).isSome := by
    intro n l hl
    apply appendersLog_isSome
    intro i hmem
    have hlt := hm.1 n l hl i hmem
    exact ⟨s.appenders[i], List.getElem?_eq_getElem hlt,
      hi.formatted n i _ ⟨l, hl, hmem⟩ (List.getElem?_eq_getElem hlt)⟩
  obtain ⟨l, hl⟩ := Option.isSome_iff_exists.mp hname
  obtain ⟨root, hroot⟩ := Option.isSome_iff_exists.mp hm.2
  have hl' := hown name l hl
  have hroot' := hown rootName root hroot
  simp only [log, hl, hroot, Option.bind_eq_bind, Option.bind_some]
  split
  · split
    · exact hl'
    · split
      · rfl
      · split
        · exact hroot'
        · rfl
  · rfl

theorem sound_iff (hm : s.Made) : s.Sound ↔ s.Inherits :=
  ⟨And.left, fun hi => ⟨hi, fun _ level => log_isSome hm hi level⟩⟩

/-- From the loggers as they are first, every state of a run is sound exactly when every
    call of it fits. -/
theorem inherits_iff {τ : History LoggerManager LogCall} (h : Run exec init τ s) :
    (∀ u ∈ s :: τ.map Prod.fst, u.Sound) ↔ Meets Keeps τ := by
  have hstep : ∀ s c t, Made s → Sound s → exec s c = some t → (t.Sound ↔ s.Keeps c) := by
    intro s c t hm hs ht
    rw [sound_iff (made_step hm ht)]
    exact inherits_step hm.1 hs.1 ht
  exact (h.throughout_iff made_init ((sound_iff made_init).mpr inherits_init) (fun _ _ _ => made_step) hstep).2

theorem inherits_iff_of_one : ∃ τ s, Run exec init τ s ∧ τ.length = 5 ∧
    ((∀ u ∈ s :: τ.map Prod.fst, u.Sound) ↔ Meets Keeps τ) := by
  have hrun := Run.step (.step (.step (.step (.step (Run.nil : Run exec init [] init)
    (a := .getLogger "system") rfl) (a := .newAppender none) rfl) (a := .addAppender "system" 1) rfl)
    (a := .setFormatter "system" ⟨"%m", [.item "m" ""], false⟩) rfl) (a := .delAppender "system" 1) rfl
  exact ⟨_, _, hrun, rfl, inherits_iff hrun⟩

/-- The null formatter for an appender in use; and an appender that goes from one logger to
    the next with the first one's formatter. -/
theorem formatter_lost : (∃ τ s, Run exec init τ s ∧ s.log "system" .FATAL = none) ∧
    ∃ τ s, Run exec init τ s ∧ s.Attached "new" 1 ∧ (∀ other, s.Attached other 1 → other = "new") ∧
        ¬ s.Shares "new" 1 := by
  constructor
  · have hrun := Run.step (.step (.step (.step (Run.nil : Run exec init [] init) (a := .getLogger "system") rfl)
      (a := .newAppender none) rfl) (a := .addAppender "system" 1) rfl) (a := .setAppenderFormatter 1 none) rfl
    exact ⟨_, _, hrun, by decide⟩
  · have hrun := Run.step (.step (.step (.step (.step (.step (.step (Run.nil : Run exec init [] init)
      (a := .getLogger "old") rfl) (a := .getLogger "new") rfl) (a := .newAppender none) rfl)
      (a := .setFormatter "old" ⟨"%m", [.item "m" ""], false⟩) rfl) (a := .addAppender "old" 1) rfl)
      (a := .delAppender "old" 1) rfl) (a := .addAppender "new" 1) rfl
    refine ⟨_, _, hrun, ⟨_, rfl, by decide⟩, ?_, fun h => absurd (h _ _ rfl rfl rfl) (by decide)⟩
    intro other hother
    by_contra hne
    obtain ⟨l, hl, hmem⟩ := hother
    by_cases hold : other = "old"
    · subst hold
      cases hl
      exact absurd hmem (by decide)
    · have hinit : init.loggers other = some l := by
        rw [← hl]
        simp [call, attach, delAppender, setFormatter, newAppender, modify, hne, hold]
      obtain ⟨-, hzero⟩ := attached_init ⟨l, hinit, hmem⟩
      cases hzero

end LoggerManager

end LjrServer.Log
