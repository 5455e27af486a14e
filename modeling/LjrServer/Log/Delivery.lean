/-
  LjrServer.Log.Delivery — what a program's log calls write, while its loggers are changed by
  calls and by the configuration (log.cpp).

  The loggers hold pointers to appenders, and an appender may be changed through its logger. Above
  them stands a description by value: what each logger is, with its appenders as its own. From
  it alone follow the lines that a log call offers to the terminal and to the files. An appender
  of two loggers is not described so: the one's `setFormatter` would change the other.

  Calls on a logger are made one after another. The listener writes a line of its own first. The
  root logger is the one the manager makes without a name.

  Proved:
  - `Agree.framed`: a call on one logger leaves what the others are; `agree_listener`: a change of
    the configuration does to each logger what the two sets of definitions say for it.
  - `delivered`: in every run in which no appender is added while a logger has it, the lines
    written are among those offered by the description, in their order; those for the terminal
    are all written, and all are when the files answer.
-/

import LjrServer.Log.Inheritance
import LjrServer.Log.Pattern
import LjrServer.Log.Reconfigure
import LjrServer.Log.Streams
import Mathlib.Data.List.InsertIdx
import Mathlib.Logic.Function.Basic

namespace LjrServer.Log

open LjrServer.Lib

/-- A line, for a file or for the terminal. -/
structure Line where
  file : Option String
  text : String
  deriving DecidableEq, Repr

/-- What the file of each appender answers in a call. -/
structure FileAnswers where
  opens : Nat → Bool
  writes : Nat → Bool

/-- The loggers, the value of "logs", the stream of each appender, and what was written. -/
structure Logging where
  manager : LoggerManager
  conf : LogDefines := .empty
  streams : Nat → FileStream
  written : List Line := []

/-- The calls that the program makes, with the appenders it names as `α`. -/
inductive Call (α : Type) where
  | getLogger (name : String)
  | setLevel (name : String) (level : LogLevel)
  | setFormatter (name : String) (val : LogFormatter)
  | setPattern (name val : String)
  | newAppender (made : LogAppender)
  | addAppender (name : String) (appender : α)
  | delAppender (name : String) (appender : α)
  | clearAppenders (name : String)
  | change (new : LogDefines) (event : LogEvent)
  | log (name : String) (level : LogLevel) (event : LogEvent)

/-- A call, the second it is made in, and the files then. -/
structure Act (α : Type) where
  call : Call α
  now : Nat
  answers : FileAnswers

/-- An appender that is made, and set up before a logger has it. -/
def LoggerManager.make (s : LoggerManager) (a : LogAppender) : LoggerManager :=
  { s with appenders := s.appenders ++ [a] }

namespace Logging

/-- The constructor of the manager. -/
def init : Logging where
  manager := .init
  streams _ := {}

variable (strftime : String → Nat → String)

/-- `log` of an appender, with its formatter. -/
def appenderLog (level : LogLevel) (event : LogEvent) (now : Nat) (k : FileAnswers) (s : Logging)
    (w : Nat × LogFormatter) : Logging :=
  let text := w.2.format strftime level event
  match (s.manager.appenders[w.1]?).bind (·.file) with
  | none => { s with written := s.written ++ [⟨none, text⟩] }
  | some file =>
    let (done, stream) := (s.streams w.1).log ⟨now, k.opens w.1, k.writes w.1⟩
    { s with streams := Function.update s.streams w.1 stream,
             written := if done then s.written ++ [⟨some file, text⟩] else s.written }

def log (s : Logging) (name : String) (level : LogLevel) (event : LogEvent) (now : Nat) (k : FileAnswers) :
    Option Logging :=
  (s.manager.log name level).map fun ws => ws.foldl (appenderLog strftime level event now k) s

/-- Appenders that were made open their files. -/
def withManager (s : Logging) (manager : LoggerManager) (k : FileAnswers) : Logging :=
  { s with manager, streams := fun i => if i < s.manager.appenders.length then s.streams i else .new (k.opens i) }

def step (s : Logging) (a : Act Nat) : Option Logging :=
  match a.call with
  | .getLogger name => some (s.withManager (s.manager.getLogger name) a.answers)
  | .setLevel name level =>
    (s.manager.loggers name).map fun _ => s.withManager (s.manager.setLevel name level) a.answers
  | .setFormatter name val =>
    (s.manager.loggers name).map fun _ => s.withManager (s.manager.setFormatter name val) a.answers
  | .setPattern name val =>
    (s.manager.loggers name).map fun _ => s.withManager (s.manager.setPattern name val) a.answers
  | .newAppender made => some (s.withManager (s.manager.make made) a.answers)
  | .addAppender name i =>
    if (s.manager.loggers name).isSome ∧ i < s.manager.appenders.length then
      some (s.withManager (s.manager.attach name i) a.answers)
    else none
  | .delAppender name i =>
    (s.manager.loggers name).map fun _ => s.withManager (s.manager.delAppender name i) a.answers
  | .clearAppenders name =>
    (s.manager.loggers name).map fun _ => s.withManager (s.manager.clearAppenders name) a.answers
  | .change new event =>
    if new = s.conf then some s
    else do
      let s ← s.log strftime rootName .INFO event a.now a.answers
      let manager ← s.manager.listener s.conf new
      some { s.withManager manager a.answers with conf := new }
  | .log name level event => s.log strftime name level event a.now a.answers

/-- No logger has an appender that is added. -/
def Unshared (s : Logging) (a : Act Nat) : Prop :=
  ∀ name i, a.call = .addAppender name i → ∀ other, ¬ s.manager.Attached other i

end Logging

/-! ## The loggers by value -/

/-- An appender as a call on a logger finds it: what it is, and where it stands in the list. -/
structure Found where
  appender : LogAppender
  place : Nat

def Logging.found (s : Logging) (name : String) (i : Nat) : Found :=
  ⟨(s.manager.appenders[i]?).getD { file := none }, (((s.manager.loggers name).map (·.appenders)).getD []).idxOf i⟩

/-- The call as it is made of the description. -/
def Logging.valued (s : Logging) : Call Nat → Call Found
  | .getLogger name => .getLogger name
  | .setLevel name level => .setLevel name level
  | .setFormatter name val => .setFormatter name val
  | .setPattern name val => .setPattern name val
  | .newAppender made => .newAppender made
  | .addAppender name i => .addAppender name (s.found name i)
  | .delAppender name i => .delAppender name (s.found name i)
  | .clearAppenders name => .clearAppenders name
  | .change new event => .change new event
  | .log name level event => .log name level event

/-- What a step is in the description. -/
def Logging.described (p : Logging × Act Nat) : Act Found := ⟨p.1.valued p.2.call, p.2.now, p.2.answers⟩

/-- An appender that is its logger's own. -/
structure Outlet where
  file : Option String
  level : LogLevel
  own : Bool
  formatter : LogFormatter

def Outlet.appender (o : Outlet) : LogAppender := ⟨o.file, o.level, o.own, some o.formatter⟩

/-- The outlet of a definition, on a logger with this formatter. -/
def Outlet.ofDefine (a : LogAppenderDefine) (logger : LogFormatter) : Outlet :=
  let own := a.formatter ≠ "" ∧ (LogFormatter.new a.formatter).error = false
  { file := if a.type = 1 then some a.file else none, level := a.level, own := own,
    formatter := if own then .new a.formatter else logger }

structure Plan where
  level : LogLevel
  formatter : LogFormatter
  outlets : List Outlet

namespace Plan

def new : Plan := ⟨.DEBUG, .new LogFormatter.defaultPattern, []⟩

def setFormatter (p : Plan) (val : LogFormatter) : Plan :=
  { p with formatter := val, outlets := p.outlets.map fun o => if o.own then o else { o with formatter := val } }

def setPattern (p : Plan) (val : String) : Plan :=
  if (LogFormatter.new val).error then p else p.setFormatter (.new val)

/-- An appender without a formatter takes the logger's. -/
def add (p : Plan) (a : LogAppender) : Plan :=
  { p with outlets := p.outlets ++ [⟨a.file, a.level, a.hasFormatter, a.formatter.getD p.formatter⟩] }

/-- A definition without a pattern that parses leaves the formatter. -/
def define (p : Plan) (d : LogDefine) : Plan :=
  let formatter :=
    if d.formatter ≠ "" ∧ (LogFormatter.new d.formatter).error = false then .new d.formatter else p.formatter
  ⟨d.level, formatter, d.appenders.map fun a => .ofDefine a formatter⟩

def remove (p : Plan) : Plan := ⟨.cast 100, p.formatter, []⟩

def lines (strftime : String → Nat → String) (p : Plan) (level : LogLevel) (event : LogEvent) : List Line :=
  if p.level.value ≤ level.value then
    (p.outlets.filter fun o => o.level.value ≤ level.value).map
      fun o => ⟨o.file, o.formatter.format strftime level event⟩
  else []

end Plan

abbrev Plans := String → Option Plan

namespace Plans

def modify (b : Plans) (name : String) (f : Plan → Plan) : Plans :=
  fun n => if n = name then (b n).map f else b n

/-- What the sets say for each logger. With no definition at all nothing is removed. -/
def change (b : Plans) (old new : List LogDefine) : Plans := fun n =>
  match new.find? fun d => d.name = n with
  | some d => some (((b n).getD .new).define d)
  | none => if new ≠ [] ∧ old.any (fun o => o.name = n) then some ((b n).getD .new).remove else b n

/-- The lines of a log call. -/
def lines (strftime : String → Nat → String) (b : Plans) (name : String) (level : LogLevel) (event : LogEvent) :
    List Line :=
  match b name with
  | none => []
  | some p =>
    if p.level.value ≤ level.value ∧ p.outlets = [] ∧ name ≠ rootName then
      ((b rootName).map fun root => root.lines strftime level event).getD []
    else p.lines strftime level event

end Plans

/-- The description, and the lines that were offered. -/
structure Offers where
  plans : Plans
  conf : LogDefines := .empty
  lines : List Line := []

namespace Offers

def init : Offers where
  plans name := if name = rootName then some (Plan.new.add { file := none }) else none

def step (strftime : String → Nat → String) (b : Offers) (a : Act Found) : Option Offers :=
  some <| match a.call with
    | .getLogger name => { b with plans := fun n => if n = name then some ((b.plans n).getD .new) else b.plans n }
    | .setLevel name level => { b with plans := b.plans.modify name fun p => { p with level } }
    | .setFormatter name val => { b with plans := b.plans.modify name fun p => p.setFormatter val }
    | .setPattern name val => { b with plans := b.plans.modify name fun p => p.setPattern val }
    | .newAppender _ => b
    | .addAppender name found => { b with plans := b.plans.modify name fun p => p.add found.appender }
    | .delAppender name found =>
      { b with plans := b.plans.modify name fun p => { p with outlets := p.outlets.eraseIdx found.place } }
    | .clearAppenders name => { b with plans := b.plans.modify name fun p => { p with outlets := [] } }
    | .change new event =>
      if new = b.conf then b
      else
        { plans := b.plans.change b.conf.defines new.defines, conf := new,
          lines := b.lines ++ b.plans.lines strftime rootName .INFO event }
    | .log name level event => { b with lines := b.lines ++ b.plans.lines strftime name level event }

end Offers

/-! ## The description is right -/

/-- A logger is what the description says, with its appenders as far as they were made. -/
def LoggerManager.Shows (s : LoggerManager) (name : String) (p : Option Plan) : Prop :=
  s.view name = p.map fun p => (p.level, p.formatter, p.outlets.map fun o => some o.appender)

/-- The loggers are as described, and no two of them share an appender. -/
structure Agree (s : LoggerManager) (b : Plans) : Prop where
  linked : s.Linked
  apart : ∀ n m l l' i, s.loggers n = some l → s.loggers m = some l' → i ∈ l.appenders → i ∈ l'.appenders → n = m
  shows : ∀ n, s.Shows n (b n)

variable {s t : LoggerManager} {b : Plans} {name : String} {l : Logger} {p : Plan}

theorem shows_some_iff : s.Shows name (some p) ↔
    ∃ l, s.loggers name = some l ∧ l.level = p.level ∧ l.formatter = p.formatter ∧
      l.appenders.map (fun i => s.appenders[i]?) = p.outlets.map fun o => some o.appender := by
  unfold LoggerManager.Shows LoggerManager.view
  cases s.loggers name with
  | none => simp
  | some l => simp

theorem shows_none_iff : s.Shows name none ↔ s.loggers name = none := by
  unfold LoggerManager.Shows LoggerManager.view
  cases s.loggers name <;> simp

theorem Agree.isSome (h : Agree s b) (name : String) : (b name).isSome = (s.loggers name).isSome := by
  have hshows := h.shows name
  cases hb : b name with
  | none =>
    rw [hb, shows_none_iff] at hshows
    rw [hshows]
    rfl
  | some p =>
    rw [hb, shows_some_iff] at hshows
    obtain ⟨l, hl, -⟩ := hshows
    rw [hl]
    rfl

/-- The logger of a plan. -/
theorem Agree.logger (h : Agree s b) (hp : b name = some p) : ∃ l, s.loggers name = some l ∧ l.level = p.level ∧
    l.formatter = p.formatter ∧ l.appenders.map (fun i => s.appenders[i]?) = p.outlets.map fun o => some o.appender :=
  shows_some_iff.mp (hp ▸ h.shows name)

/-- A step that is about one logger: it changes no appender of another one, and the appenders it
    leaves the logger with are no other's. -/
theorem Agree.framed (h : Agree s b) (hothers : ∀ n, n ≠ name → t.loggers n = s.loggers n)
    (hlength : s.appenders.length ≤ t.appenders.length)
    (hkept : ∀ n l i, n ≠ name → s.loggers n = some l → i ∈ l.appenders → t.appenders[i]? = s.appenders[i]?)
    (hl : t.loggers name = some l) (hown : ∀ i ∈ l.appenders, i < t.appenders.length ∧
      ∀ n l', n ≠ name → s.loggers n = some l' → i ∉ l'.appenders)
    (hlevel : l.level = p.level) (hformatter : l.formatter = p.formatter)
    (hviews : l.appenders.map (fun i => t.appenders[i]?) = p.outlets.map fun o => some o.appender) :
    Agree t fun n => if n = name then some p else b n := by
  refine ⟨?_, ?_, ?_⟩
  · intro n l' hl' i hi
    by_cases hn : n = name
    · subst hn
      cases hl.symm.trans hl'
      exact (hown i hi).1
    · rw [hothers n hn] at hl'
      exact Nat.lt_of_lt_of_le (h.linked n l' hl' i hi) hlength
  · intro n m l₁ l₂ i h₁ h₂ hi₁ hi₂
    by_cases hn : n = name
    · by_cases hm : m = name
      · rw [hn, hm]
      · subst hn
        cases hl.symm.trans h₁
        exact absurd hi₂ ((hown i hi₁).2 m l₂ hm (hothers m hm ▸ h₂))
    · by_cases hm : m = name
      · subst hm
        cases hl.symm.trans h₂
        exact absurd hi₁ ((hown i hi₂).2 n l₁ hn (hothers n hn ▸ h₁))
      · exact h.apart n m l₁ l₂ i (hothers n hn ▸ h₁) (hothers m hm ▸ h₂) hi₁ hi₂
  · intro n
    by_cases hn : n = name
    · subst hn
      rw [if_pos rfl]
      exact shows_some_iff.mpr ⟨l, hl, hlevel, hformatter, hviews⟩
    · rw [if_neg hn]
      have hshows := h.shows n
      unfold LoggerManager.Shows LoggerManager.view at hshows ⊢
      rw [hothers n hn, ← hshows]
      cases hs : s.loggers n with
      | none => rfl
      | some l' =>
        refine congrArg some (congrArg _ (congrArg _ (List.map_congr_left ?_)))
        exact fun i hi => hkept n l' i hn hs hi

/-- The appenders a logger has are no other's. -/
theorem Agree.own (h : Agree s b) (hl : s.loggers name = some l) {i : Nat} (hi : i ∈ l.appenders) :
    i < s.appenders.length ∧ ∀ n l', n ≠ name → s.loggers n = some l' → i ∉ l'.appenders :=
  ⟨h.linked name l hl i hi, fun n l' hn hl' hi' => hn (h.apart n name l' l i hl' hl hi' hi)⟩

theorem plans_at {f : Option Plan → Option Plan} {o : Option Plan} (ho : f (b name) = o) :
    (fun n => if n = name then f (b n) else b n) = fun n => if n = name then o else b n := by
  funext n
  split
  · rename_i hn
    rw [hn, ho]
  · rfl

theorem plans_same {o : Option Plan} (ho : b name = o) : (fun n => if n = name then o else b n) = b := by
  funext n
  split
  · rename_i hn
    rw [hn, ho]
  · rfl

theorem agree_getLogger (h : Agree s b) (name : String) :
    Agree (s.getLogger name) fun n => if n = name then some ((b n).getD .new) else b n := by
  have hsome := h.isSome name
  cases hs : s.loggers name with
  | some l =>
    obtain ⟨p, hp⟩ := Option.isSome_iff_exists.mp (hsome.trans (by rw [hs]; rfl))
    have hsame : s.getLogger name = s := by
      unfold LoggerManager.getLogger
      rw [hs]
    have hplans : (fun n => if n = name then some ((b n).getD .new) else b n) =
        fun n => if n = name then some p else b n :=
      plans_at (f := fun o => some (o.getD .new)) (by rw [hp]; rfl)
    rw [hsame, hplans, plans_same hp]
    exact h
  | none =>
    have hnone : b name = none := Option.isNone_iff_eq_none.mp (by simpa [hs] using hsome)
    have hplans : (fun n => if n = name then some ((b n).getD .new) else b n) =
        fun n => if n = name then some Plan.new else b n :=
      plans_at (f := fun o => some (o.getD .new)) (by rw [hnone]; rfl)
    have hl := LoggerManager.getLogger_self s name
    rw [hs] at hl
    rw [hplans]
    have hsame : (s.getLogger name).appenders = s.appenders := LoggerManager.getLogger_appenders
    exact h.framed (fun n hn => LoggerManager.getLogger_ne hn) (Nat.le_of_eq (by rw [hsame]))
      (fun _ _ _ _ _ _ => by rw [hsame]) hl (fun _ hi => (nomatch hi)) rfl rfl rfl

theorem modify_some {f : Plan → Plan} (hp : b name = some p) :
    b.modify name f = fun n => if n = name then some (f p) else b n :=
  plans_at (f := Option.map f) (by rw [hp]; rfl)

/-- A call that changes a logger, and takes at most appenders away from it. -/
theorem agree_modify {f : Logger → Logger} {g : Plan → Plan} (h : Agree s b) (hl : s.loggers name = some l)
    (hf : ∀ p, l.level = p.level → l.formatter = p.formatter →
      l.appenders.map (fun i => s.appenders[i]?) = p.outlets.map (fun o => some o.appender) →
      (f l).level = (g p).level ∧ (f l).formatter = (g p).formatter ∧
        (f l).appenders.map (fun i => s.appenders[i]?) = (g p).outlets.map fun o => some o.appender)
    (hsub : ∀ i ∈ (f l).appenders, i ∈ l.appenders) : Agree (s.modify name f) (b.modify name g) := by
  obtain ⟨p, hp⟩ := Option.isSome_iff_exists.mp ((h.isSome name).trans (by rw [hl]; rfl))
  obtain ⟨l', hl', hlevel, hformatter, hviews⟩ := h.logger hp
  cases hl.symm.trans hl'
  obtain ⟨hlevel, hformatter, hviews⟩ := hf p hlevel hformatter hviews
  rw [modify_some hp]
  exact h.framed (fun n hn => LoggerManager.modify_ne hn) (Nat.le_refl _) (fun _ _ _ _ _ _ => rfl)
    (LoggerManager.modify_self hl) (fun i hi => h.own hl (hsub i hi)) hlevel hformatter hviews

theorem agree_setLevel (h : Agree s b) (hl : s.loggers name = some l) (level : LogLevel) :
    Agree (s.setLevel name level) (b.modify name fun p => { p with level }) :=
  agree_modify h hl (fun _ _ hformatter hviews => ⟨rfl, hformatter, hviews⟩) fun _ hi => hi

theorem agree_clearAppenders (h : Agree s b) (hl : s.loggers name = some l) :
    Agree (s.clearAppenders name) (b.modify name fun p => { p with outlets := [] }) :=
  agree_modify h hl (fun _ hlevel hformatter _ => ⟨hlevel, hformatter, rfl⟩) fun _ hi => (nomatch hi)

theorem agree_delAppender (h : Agree s b) (hl : s.loggers name = some l) (i : Nat) :
    Agree (s.delAppender name i)
      (b.modify name fun p => { p with outlets := p.outlets.eraseIdx (l.appenders.idxOf i) }) := by
  refine agree_modify h hl ?_ fun _ hj => List.mem_of_mem_erase hj
  intro p hlevel hformatter hviews
  refine ⟨hlevel, hformatter, ?_⟩
  rw [← List.eraseIdx_idxOf_eq_erase, ← List.eraseIdx_map, hviews, List.eraseIdx_map]

/-- `Logger::setFormatter` on the appenders of its logger. -/
theorem setFormatter_own (hl : s.loggers name = some l) (val : LogFormatter) {i : Nat} (hi : i ∈ l.appenders) :
    (s.setFormatter name val).appenders[i]? =
      (s.appenders[i]?).map fun a => if a.hasFormatter = false then { a with formatter := some val } else a := by
  simp only [LoggerManager.setFormatter, LoggerManager.modify_self hl, Option.map_some, Option.getD_some,
    List.getElem?_mapIdx, LoggerManager.modify_appenders, hi, true_and]

theorem agree_setFormatter (h : Agree s b) (hl : s.loggers name = some l) (val : LogFormatter) :
    Agree (s.setFormatter name val) (b.modify name fun p => p.setFormatter val) := by
  obtain ⟨p, hp⟩ := Option.isSome_iff_exists.mp ((h.isSome name).trans (by rw [hl]; rfl))
  obtain ⟨l', hl', hlevel, hformatter, hviews⟩ := h.logger hp
  cases hl.symm.trans hl'
  rw [modify_some hp]
  obtain ⟨hname, hothers, hlength, hkept⟩ := LoggerManager.setFormatter_spec hl val
  refine h.framed hothers (Nat.le_of_eq hlength.symm) ?_ hname ?_ hlevel rfl ?_
  · intro n l' i hn hl' hi
    exact hkept i fun hi' => (h.own hl hi').2 n l' hn hl' hi
  · intro i hi
    rw [hlength]
    exact h.own hl hi
  · calc l.appenders.map (fun i => (s.setFormatter name val).appenders[i]?)
        _ = (l.appenders.map fun i => s.appenders[i]?).map (Option.map fun a =>
              if a.hasFormatter = false then { a with formatter := some val } else a) := by
          rw [List.map_map]
          exact List.map_congr_left fun i hi => setFormatter_own hl _ hi
        _ = _ := by
          rw [hviews, Plan.setFormatter, List.map_map, List.map_map]
          refine List.map_congr_left ?_
          intro o _
          cases ho : o.own <;> simp [Outlet.appender, ho]

theorem agree_setPattern (h : Agree s b) (hl : s.loggers name = some l) (val : String) :
    Agree (s.setPattern name val) (b.modify name fun p => p.setPattern val) := by
  unfold LoggerManager.setPattern Plan.setPattern
  dsimp only
  cases (LogFormatter.new val).error with
  | true =>
    obtain ⟨p, hp⟩ := Option.isSome_iff_exists.mp ((h.isSome name).trans (by rw [hl]; rfl))
    rw [modify_some hp, if_pos rfl, if_pos rfl, plans_same hp]
    exact h
  | false => exact agree_setFormatter h hl (.new val)

/-- An appender that no logger has yet. -/
theorem agree_make (h : Agree s b) (a : LogAppender) : Agree (s.make a) b := by
  have hold : ∀ i, i < s.appenders.length → (s.make a).appenders[i]? = s.appenders[i]? :=
    fun i hi => List.getElem?_append_left hi
  refine ⟨?_, h.apart, ?_⟩
  · intro n l hl i hi
    have hlt := h.linked n l hl i hi
    show i < (s.appenders ++ [a]).length
    rw [List.length_append]
    omega
  · intro n
    have hshows := h.shows n
    unfold LoggerManager.Shows LoggerManager.view at hshows ⊢
    rw [← hshows]
    show (s.loggers n).map _ = (s.loggers n).map _
    cases hl : s.loggers n with
    | none => rfl
    | some l =>
      refine congrArg some (congrArg _ (congrArg _ (List.map_congr_left ?_)))
      exact fun i hi => hold i (h.linked n l hl i hi)

theorem agree_attach {i : Nat} {a : LogAppender} (h : Agree s b) (hl : s.loggers name = some l)
    (ha : s.appenders[i]? = some a) (hfree : ∀ other, ¬ s.Attached other i) :
    Agree (s.attach name i) (b.modify name fun p => p.add a) := by
  obtain ⟨p, hp⟩ := Option.isSome_iff_exists.mp ((h.isSome name).trans (by rw [hl]; rfl))
  obtain ⟨l', hl', hlevel, hformatter, hviews⟩ := h.logger hp
  cases hl.symm.trans hl'
  rw [modify_some hp]
  have hothers : ∀ n l j, s.loggers n = some l → j ∈ l.appenders →
      (s.attach name i).appenders[j]? = s.appenders[j]? := by
    intro n l j hl hj
    have hne : j ≠ i := fun he => hfree n ⟨l, hl, he ▸ hj⟩
    rw [LoggerManager.attach_appenders, if_neg hne]
  have hlength : (s.attach name i).appenders.length = s.appenders.length := List.length_modify ..
  have hlogger : (s.attach name i).loggers name = some { l with appenders := l.appenders ++ [i] } :=
    LoggerManager.modify_self hl
  refine h.framed (fun n hn => LoggerManager.modify_ne hn) (Nat.le_of_eq hlength.symm)
    (fun n l' j _ hl' hj => hothers n l' j hl' hj) hlogger ?_ hlevel hformatter ?_
  · intro j hj
    rw [hlength]
    rcases List.mem_append.mp hj with hj | hj
    · exact h.own hl hj
    · cases List.mem_singleton.mp hj
      exact ⟨(List.getElem?_eq_some_iff.mp ha).1, fun n l' _ hl' hi => hfree n ⟨l', hl', hi⟩⟩
  · -- the appender as it is when it has been added
    have hadded : a.added (some l.formatter) =
        (⟨a.file, a.level, a.hasFormatter, a.formatter.getD p.formatter⟩ : Outlet).appender := by
      rw [hformatter]
      obtain ⟨file, level, hasFormatter, formatter⟩ := a
      cases formatter <;> rfl
    rw [List.map_append, Plan.add, List.map_append, ← hviews]
    refine congrArg₂ _ (List.map_congr_left fun j hj => hothers name l j hl hj) ?_
    rw [List.map_singleton, LoggerManager.attach_appenders, if_pos rfl, ha, hl]
    exact congrArg (fun a => [some a]) hadded

/-! ## A change of the configuration -/

variable {old new : LogDefines} {d : LogDefine}

theorem typed_of_update (h : s.update old d = some t) : (∀ a ∈ d.appenders, a.Typed) ∧ old.find d ≠ some d := by
  have hfind : old.find d ≠ some d := by
    intro hfind
    rw [LoggerManager.update_none hfind] at h
    cases h
  refine ⟨?_, hfind⟩
  rw [LoggerManager.update_some hfind] at h
  generalize (LoggerManager.clearAppenders _ d.name) = s₀ at h
  generalize d.appenders = as at h
  induction as generalizing s₀ with
  | nil => exact fun _ ha => (nomatch ha)
  | cons a as ih =>
    rw [List.foldlM_cons] at h
    obtain ⟨u, hu, hrest⟩ := Option.bind_eq_some_iff.mp h
    have ha : a.Typed := by
      by_contra hnot
      obtain ⟨h₁, h₂⟩ := not_or.mp hnot
      simp [LoggerManager.append, h₁, h₂] at hu
    exact List.forall_mem_cons.mpr ⟨ha, ih u hrest⟩

/-- The formatter a definition leaves its logger with. -/
theorem Agree.leaves (h : Agree s b) (d : LogDefine) :
    s.leaves d = (((b d.name).getD .new).define d).formatter := by
  have hbefore : ((s.loggers d.name).getD .new).formatter = ((b d.name).getD .new).formatter := by
    have hshows := h.shows d.name
    cases hb : b d.name with
    | none =>
      rw [hb, shows_none_iff] at hshows
      rw [hshows]
      rfl
    | some p =>
      obtain ⟨l, hl, -, hformatter, -⟩ := h.logger hb
      rw [hl]
      exact hformatter
  unfold LoggerManager.leaves Plan.define
  rw [hbefore]

theorem ofDefine_appender (a : LogAppenderDefine) (fmt : LogFormatter) :
    (Outlet.ofDefine a fmt).appender = a.made fmt := rfl

theorem agree_updated {u : LoggerManager} (h : Agree s b) (hu : LoggerManager.Updated s u d) :
    Agree u fun n => if n = d.name then some (((b n).getD .new).define d) else b n := by
  have hlength := hu.length
  have hplans : (fun n => if n = d.name then some (((b n).getD .new).define d) else b n) =
      fun n => if n = d.name then some (((b d.name).getD .new).define d) else b n :=
    plans_at (f := fun o => some ((o.getD .new).define d)) rfl
  rw [hplans]
  refine h.framed hu.others (by omega) ?_ hu.logger ?_ rfl (h.leaves d) ?_
  · intro n l i hn hl hi
    exact hu.kept i (h.linked n l hl i hi) fun l' hl' hi' => (h.own hl' hi').2 n l hn hl hi
  · intro i hi
    have hrange := List.mem_range'_1.mp hi
    exact ⟨by omega, fun n l _ hl hi' => Nat.lt_irrefl _ (Nat.lt_of_lt_of_le (h.linked n l hl i hi') hrange.1)⟩
  · refine List.ext_getElem (by simp [Plan.define]) ?_
    intro j hj _
    have hlt : j < d.appenders.length := by simpa using hj
    have hmade := hu.made j hlt
    rw [h.leaves d, List.getElem?_eq_getElem hlt] at hmade
    simpa [Plan.define, ofDefine_appender] using hmade

theorem agree_remove (h : Agree s b) (name : String) :
    Agree (s.remove name) fun n => if n = name then some ((b n).getD .new).remove else b n := by
  obtain ⟨hself, hothers, hsame⟩ := LoggerManager.remove_spec s name
  have hplans : (fun n => if n = name then some ((b n).getD .new).remove else b n) =
      fun n => if n = name then some ((b name).getD .new).remove else b n :=
    plans_at (f := fun o => some (o.getD .new).remove) rfl
  rw [hplans]
  refine h.framed hothers (Nat.le_of_eq (by rw [hsame])) (fun _ _ _ _ _ _ => by rw [hsame]) hself
    (fun _ hi => (nomatch hi)) rfl ?_ rfl
  have hshows := h.shows name
  cases hb : b name with
  | none =>
    rw [hb, shows_none_iff] at hshows
    rw [hshows]
    rfl
  | some p =>
    obtain ⟨l, hl, -, hformatter, -⟩ := h.logger hb
    rw [hl]
    exact hformatter

/-- In a set of this name. -/
def named (ds : List LogDefine) (name : String) : Bool := ds.any fun d => d.name = name

theorem named_iff (v : LogDefines) (name : String) : named v.defines name = true ↔ v.Names name := by
  simp [named, LogDefines.Names]

/-- The loop over the old definitions. -/
def Plans.removal (b : Plans) (old new : List LogDefine) : Plans :=
  fun n => if named old n ∧ ¬ named new n then some ((b n).getD .new).remove else b n

theorem agree_removal (olds : List LogDefine) (new : LogDefines) (h : Agree s b) :
    Agree (LoggerManager.removal olds new s) (b.removal olds new.defines) := by
  induction olds generalizing s b with
  | nil =>
    have hplans : b.removal [] new.defines = b := by
      funext n
      exact if_neg fun hn => Bool.false_ne_true hn.1
    rw [hplans]
    exact h
  | cons o olds ih =>
    have hloop : LoggerManager.removal (o :: olds) new s =
        LoggerManager.removal olds new (if (new.find o).isNone then s.remove o.name else s) := rfl
    have hcons : ∀ n, named (o :: olds) n = true ↔ o.name = n ∨ named olds n = true := by
      intro n
      simp [named]
    rw [hloop]
    by_cases hfind : new.find o = none
    · have hnot : ¬ named new.defines o.name = true := fun hn =>
        LogDefines.find_eq_none_iff.mp hfind ((named_iff new o.name).mp hn)
      rw [if_pos (Option.isNone_iff_eq_none.mpr hfind)]
      convert ih (agree_remove h o.name) using 1
      funext n
      unfold Plans.removal
      by_cases hn : n = o.name
      · subst hn
        simp [hcons, hnot, Plan.remove]
      · simp [hcons, hn, Ne.symm hn]
    · have hmem : named new.defines o.name = true := by
        rw [named_iff]
        by_contra hnot
        exact hfind (LogDefines.find_eq_none_iff.mpr hnot)
      have hsome : ¬ (new.find o).isNone = true := fun hnone => hfind (Option.isNone_iff_eq_none.mp hnone)
      rw [if_neg hsome]
      convert ih h using 1
      funext n
      unfold Plans.removal
      by_cases hn : o.name = n
      · subst hn
        simp [hmem]
      · simp [hcons, hn]

/-- The plans when the listener has been through these definitions. -/
def Plans.changed (b : Plans) (old done new : List LogDefine) : Plans := fun n =>
  match done.find? fun d => d.name = n with
  | some d => some (((b n).getD .new).define d)
  | none => if done ≠ [] ∧ named old n ∧ ¬ named new n then some ((b n).getD .new).remove else b n

theorem changed_all (b : Plans) (old new : List LogDefine) : b.changed old new new = b.change old new := by
  funext n
  unfold Plans.changed Plans.change
  cases hfind : new.find? fun d => d.name = n with
  | some d => rfl
  | none =>
    have hnot : named new n = false := by
      unfold named
      rw [List.any_eq_false]
      exact List.find?_eq_none.mp hfind
    have hsame : (new ≠ [] ∧ named old n = true ∧ ¬ named new n = true) ↔
        new ≠ [] ∧ old.any (fun o => o.name = n) = true :=
      ⟨fun h => ⟨h.1, h.2.1⟩, fun h => ⟨h.1, h.2, by rw [hnot]; exact Bool.false_ne_true⟩⟩
    exact if_congr hsame rfl rfl

/-- One definition, and the removals that follow it. -/
theorem changed_step {done : List LogDefine} (hd : d ∈ new.defines)
    (hdone : ∀ e ∈ done, e ∈ new.defines ∧ e.name ≠ d.name) :
    Plans.removal (fun n => if n = d.name then some (((b.changed old.defines done new.defines n).getD .new).define d)
      else b.changed old.defines done new.defines n) old.defines new.defines =
      b.changed old.defines (done ++ [d]) new.defines := by
  have hnamed : ∀ e ∈ new.defines, named new.defines e.name = true :=
    fun e he => (named_iff new e.name).mpr ⟨e, he, rfl⟩
  have hfresh : done.find? (fun e => e.name = d.name) = none := by
    rw [List.find?_eq_none]
    intro e he
    simpa using (hdone e he).2
  funext n
  unfold Plans.removal Plans.changed
  dsimp only
  by_cases hn : n = d.name
  · subst hn
    simp [hnamed d hd, hfresh, List.find?_append]
  · have hlast : (done ++ [d]).find? (fun e => e.name = n) = done.find? fun e => e.name = n := by
      simp [List.find?_append, Ne.symm hn]
    rw [hlast, if_neg hn]
    cases hfind : done.find? fun e => e.name = n with
    | some e =>
      have hname : e.name = n := by simpa using List.find?_some hfind
      have hmem := hnamed e (hdone e (List.mem_of_find?_eq_some hfind)).1
      rw [hname] at hmem
      simp [hmem]
    | none =>
      by_cases hgone : named old.defines n = true ∧ ¬ named new.defines n = true
      · by_cases hnil : done = [] <;> simp [hgone, hnil, Plan.remove]
      · rw [if_neg hgone]
        dsimp only
        rw [if_neg fun h => hgone h.2, if_neg fun h => hgone h.2]

theorem agree_listener (h : Agree s b) (ht : s.listener old new = some t) :
    Agree t (b.change old.defines new.defines) := by
  have hloop : ∀ (rest done : List LogDefine) (s t : LoggerManager), new.defines = done ++ rest →
      Agree s (b.changed old.defines done new.defines) →
      rest.foldlM (fun s d => (s.update old d).map (LoggerManager.removal old.defines new)) s = some t →
      Agree t (b.changed old.defines new.defines new.defines) := by
    intro rest
    induction rest with
    | nil =>
      intro done s t hsplit h hs
      cases hs
      rw [List.append_nil] at hsplit
      rw [← hsplit] at h
      exact h
    | cons d rest ih =>
      intro done s t hsplit h hs
      rw [List.foldlM_cons] at hs
      obtain ⟨u, hu, hrest⟩ := Option.bind_eq_some_iff.mp hs
      obtain ⟨v, hv, rfl⟩ := Option.map_eq_some_iff.mp hu
      obtain ⟨htyped, hfind⟩ := typed_of_update hv
      obtain ⟨v', hv', hupdated⟩ := LoggerManager.update_eq htyped hfind
      cases hv.symm.trans hv'
      have hd : d ∈ new.defines := hsplit ▸ List.mem_append_right _ List.mem_cons_self
      have hdone : ∀ e ∈ done, e ∈ new.defines ∧ e.name ≠ d.name := by
        intro e he
        have hsorted := hsplit ▸ new.sorted
        exact ⟨hsplit ▸ List.mem_append_left _ he,
          String.ne_of_lt ((List.pairwise_append.mp hsorted).2.2 e he d List.mem_cons_self)⟩
      have hnext := agree_removal old.defines new (agree_updated h hupdated)
      rw [changed_step hd hdone] at hnext
      exact ih (done ++ [d]) _ t (by rw [hsplit, List.append_assoc, List.singleton_append]) hnext hrest
  have hfirst : b.changed old.defines [] new.defines = b := by
    funext n
    simp [Plans.changed]
  rw [← changed_all]
  exact hloop new.defines [] s t rfl (hfirst ▸ h) ht

/-! ## A log call -/

namespace FileAnswers

/-- Every file opens, and takes what is written. -/
def Always (k : FileAnswers) : Prop := ∀ i, k.opens i = true ∧ k.writes i = true

end FileAnswers

variable {strftime : String → Nat → String} {level : LogLevel} {event : LogEvent} {now : Nat} {k : FileAnswers}

/-- The line of an appender. -/
def LoggerManager.line (strftime : String → Nat → String) (level : LogLevel) (event : LogEvent) (s : LoggerManager)
    (w : Nat × LogFormatter) : Line :=
  ⟨(s.appenders[w.1]?).bind (·.file), w.2.format strftime level event⟩

/-- The appenders that write are those of the outlets at the level. -/
theorem appendersLog_lines {is : List Nat} {outlets : List Outlet}
    (hviews : is.map (fun i => s.appenders[i]?) = outlets.map fun o => some o.appender) :
    ∃ ws, s.appendersLog level is = some ws ∧ (∀ w ∈ ws, w.1 < s.appenders.length) ∧
      ws.map (s.line strftime level event) = (outlets.filter fun o => o.level.value ≤ level.value).map
        fun o => ⟨o.file, o.formatter.format strftime level event⟩ := by
  induction outlets generalizing is with
  | nil =>
    rw [List.map_nil, List.map_eq_nil_iff] at hviews
    subst hviews
    exact ⟨[], rfl, fun _ hw => (nomatch hw), rfl⟩
  | cons o outlets ih =>
    cases is with
    | nil => cases hviews
    | cons i is =>
      obtain ⟨hi, hrest⟩ := List.cons.inj hviews
      obtain ⟨ws, hws, hbound, hlines⟩ := ih hrest
      have hlt : i < s.appenders.length := (List.getElem?_eq_some_iff.mp hi).1
      by_cases hlevel : o.level.value ≤ level.value
      · refine ⟨(i, o.formatter) :: ws, ?_, List.forall_mem_cons.mpr ⟨hlt, hbound⟩, ?_⟩
        · simp [LoggerManager.appendersLog, hi, Outlet.appender, hlevel, hws]
        · rw [List.map_cons, hlines, List.filter_cons_of_pos (by simpa using hlevel), List.map_cons]
          simp [LoggerManager.line, hi, Outlet.appender]
      · refine ⟨ws, ?_, hbound, ?_⟩
        · simp [LoggerManager.appendersLog, hi, Outlet.appender, hlevel, hws]
        · rw [hlines, List.filter_cons_of_neg (by simpa using hlevel)]

/-- A log call goes through, to the outlets that the description says. -/
theorem Agree.log (h : Agree s b) (hroot : (s.loggers rootName).isSome = true)
    (hname : (s.loggers name).isSome = true) :
    ∃ ws, s.log name level = some ws ∧ (∀ w ∈ ws, w.1 < s.appenders.length) ∧
      ws.map (s.line strftime level event) = b.lines strftime name level event := by
  obtain ⟨p, hp⟩ := Option.isSome_iff_exists.mp ((h.isSome name).trans hname)
  obtain ⟨root, hr⟩ := Option.isSome_iff_exists.mp ((h.isSome rootName).trans hroot)
  obtain ⟨l, hl, hlevel, -, hviews⟩ := h.logger hp
  obtain ⟨lr, hlr, hrlevel, -, hrviews⟩ := h.logger hr
  have hnil : l.appenders = [] ↔ p.outlets = [] := by
    rw [← List.map_eq_nil_iff, hviews, List.map_eq_nil_iff]
  have hnone : ∃ ws : List (Nat × LogFormatter), some [] = some ws ∧ (∀ w ∈ ws, w.1 < s.appenders.length) ∧
      ws.map (s.line strftime level event) = [] := ⟨[], rfl, fun _ hw => (nomatch hw), rfl⟩
  unfold LoggerManager.log Plans.lines
  simp only [hl, hlr, hp, hr, Option.bind_eq_bind, Option.bind_some, Option.map_some, Option.getD_some]
  unfold Plan.lines
  rw [hlevel, hrlevel]
  by_cases hp' : p.level.value ≤ level.value
  · rw [if_pos hp']
    by_cases hempty : p.outlets = []
    · rw [if_neg (not_not_intro (hnil.mpr hempty))]
      by_cases hn : name = rootName
      · rw [if_pos hn, if_neg fun hc => hc.2.2 hn, if_pos hp', hempty]
        exact hnone
      · have hfalls : p.level.value ≤ level.value ∧ p.outlets = [] ∧ name ≠ rootName := ⟨hp', hempty, hn⟩
        rw [if_neg hn, if_pos hfalls]
        by_cases hr' : root.level.value ≤ level.value
        · simp only [if_pos hr']
          exact appendersLog_lines hrviews
        · simp only [if_neg hr']
          exact hnone
    · rw [if_pos fun hc => hempty (hnil.mp hc), if_neg fun hc => hempty hc.2.1, if_pos hp']
      exact appendersLog_lines hviews
  · rw [if_neg hp', if_neg fun hc => hp' hc.1, if_neg hp']
    exact hnone

namespace Logging

/-- The streams of the appenders that were made are good. -/
def Good (s : Logging) : Prop := ∀ i, i < s.manager.appenders.length → (s.streams i).good = true

/-- What a call writes of the lines that it offers. -/
structure Wrote (k : FileAnswers) (lines : List Line) (s t : Logging) : Prop where
  manager : t.manager = s.manager
  conf : t.conf = s.conf
  written : ∃ kept, t.written = s.written ++ kept ∧ kept.Sublist lines ∧
    kept.filter (fun line => line.file.isNone) = lines.filter (fun line => line.file.isNone) ∧
    (k.Always → s.Good → kept = lines ∧ t.Good)

variable {s t u : Logging} {lines lines' : List Line}

theorem Wrote.refl (k : FileAnswers) (s : Logging) : Wrote k [] s s :=
  ⟨rfl, rfl, [], (List.append_nil _).symm, .slnil, rfl, fun _ hs => ⟨rfl, hs⟩⟩

theorem Wrote.trans (h : Wrote k lines s t) (h' : Wrote k lines' t u) : Wrote k (lines ++ lines') s u := by
  obtain ⟨kept, hwritten, hsub, hterminal, hgood⟩ := h.written
  obtain ⟨kept', hwritten', hsub', hterminal', hgood'⟩ := h'.written
  refine ⟨h'.manager.trans h.manager, h'.conf.trans h.conf, kept ++ kept', ?_, hsub.append hsub', ?_, ?_⟩
  · rw [hwritten', hwritten, List.append_assoc]
  · rw [List.filter_append, List.filter_append, hterminal, hterminal']
  · intro hk hs
    obtain ⟨heq, ht⟩ := hgood hk hs
    obtain ⟨heq', hu⟩ := hgood' hk ht
    exact ⟨by rw [heq, heq'], hu⟩

/-- One appender. -/
theorem appenderLog_wrote (s : Logging) (w : Nat × LogFormatter) :
    Wrote k [s.manager.line strftime level event w] s (appenderLog strftime level event now k s w) := by
  unfold appenderLog LoggerManager.line
  dsimp only
  cases hfile : (s.manager.appenders[w.1]?).bind (·.file) with
  | none => exact ⟨rfl, rfl, _, rfl, List.Sublist.refl _, rfl, fun _ hs => ⟨rfl, hs⟩⟩
  | some file =>
    dsimp only
    cases hdone : ((s.streams w.1).log ⟨now, k.opens w.1, k.writes w.1⟩).1 with
    | false =>
      refine ⟨rfl, rfl, [], (List.append_nil _).symm, List.nil_sublist _, rfl, ?_⟩
      intro hk hs
      by_cases hlt : w.1 < s.manager.appenders.length
      · obtain ⟨ho, hw⟩ := hk w.1
        rw [ho, hw, (FileStream.log_answered (hs w.1 hlt) now).1] at hdone
        cases hdone
      · rw [List.getElem?_eq_none (Nat.le_of_not_lt hlt)] at hfile
        cases hfile
    | true =>
      refine ⟨rfl, rfl, _, rfl, List.Sublist.refl _, rfl, fun hk hs => ⟨rfl, ?_⟩⟩
      intro i hi
      by_cases hiw : i = w.1
      · subst hiw
        obtain ⟨ho, hw⟩ := hk w.1
        show (Function.update s.streams w.1 _ w.1).good = true
        rw [Function.update_self, ho, hw]
        exact (FileStream.log_answered (hs w.1 hi) now).2
      · show (Function.update s.streams w.1 _ i).good = true
        rw [Function.update_of_ne hiw]
        exact hs i hi

theorem log_wrote {ws : List (Nat × LogFormatter)} (s : Logging) :
    Wrote k (ws.map (s.manager.line strftime level event)) s (ws.foldl (appenderLog strftime level event now k) s) := by
  induction ws generalizing s with
  | nil => exact .refl k s
  | cons w ws ih =>
    have hfirst : Wrote k [s.manager.line strftime level event w] s (appenderLog strftime level event now k s w) :=
      appenderLog_wrote s w
    have hrest := ih (appenderLog strftime level event now k s w)
    rw [hfirst.manager] at hrest
    exact hfirst.trans hrest

/-! ## Runs -/

variable {b : Offers} {a : Act Nat} {τ : History Logging (Act Nat)}

/-- The state of a run, next to that of the description with the same calls. -/
structure Follows (τ : History Logging (Act Nat)) (s : Logging) (b : Offers) : Prop where
  agree : Agree s.manager b.plans
  conf : s.conf = b.conf
  root : (b.plans rootName).isSome = true
  sublist : s.written.Sublist b.lines
  terminal : s.written.filter (fun line => line.file.isNone) = b.lines.filter fun line => line.file.isNone
  answered : Meets (fun _ a => a.answers.Always) τ → s.written = b.lines ∧ s.Good

theorem init_follows : Follows [] init Offers.init := by
  have hnone : ∀ n, n ≠ rootName → init.manager.loggers n = none := fun n hn =>
    (LoggerManager.init_loggers n).trans (if_neg hn)
  have hroot : ∀ n l, init.manager.loggers n = some l → n = rootName := by
    intro n l hl
    by_contra hn
    rw [hnone n hn] at hl
    cases hl
  refine ⟨⟨?_, ?_, ?_⟩, rfl, rfl, .slnil, rfl, fun _ => ⟨rfl, fun _ _ => rfl⟩⟩
  · intro n l hl i hi
    obtain rfl := hroot n l hl
    cases hl
    cases List.mem_singleton.mp hi
    decide
  · intro n m l l' i hl hl' _ _
    rw [hroot n l hl, hroot m l' hl']
  · intro n
    by_cases hn : n = rootName
    · subst hn
      rfl
    · have hplan : Offers.init.plans n = none := if_neg hn
      rw [hplan, shows_none_iff]
      exact hnone n hn

/-- The lines of a call are written. -/
theorem Follows.wrote (h : Follows τ s b) (hw : Wrote a.answers lines s t) :
    Follows ((s, a) :: τ) t { b with lines := b.lines ++ lines } := by
  obtain ⟨kept, hwritten, hsub, hterminal, hgood⟩ := hw.written
  refine ⟨hw.manager ▸ h.agree, hw.conf.trans h.conf, h.root, ?_, ?_, ?_⟩
  · rw [hwritten]
    exact h.sublist.append hsub
  · rw [hwritten, List.filter_append, List.filter_append, h.terminal, hterminal]
  · intro hmeets
    obtain ⟨ha, hτ⟩ := Run.meets_cons.mp hmeets
    obtain ⟨hall, hs⟩ := h.answered hτ
    obtain ⟨heq, ht⟩ := hgood ha hs
    exact ⟨by rw [hwritten, hall, heq], ht⟩

/-- The loggers are changed. -/
theorem Follows.managed {m : LoggerManager} {plans : Plans} (h : Follows ((s, a) :: τ) t b) (hm : Agree m plans)
    (hroot : (plans rootName).isSome = true) (conf : LogDefines) :
    Follows ((s, a) :: τ) { t.withManager m a.answers with conf } { b with plans, conf } := by
  refine ⟨hm, rfl, hroot, h.sublist, h.terminal, ?_⟩
  intro hmeets
  obtain ⟨hall, ht⟩ := h.answered hmeets
  refine ⟨hall, ?_⟩
  intro i _
  show (if i < t.manager.appenders.length then t.streams i else FileStream.new (a.answers.opens i)).good = true
  split
  · rename_i hi
    exact ht i hi
  · rw [((Run.meets_cons.mp hmeets).1 i).1]
    rfl

theorem modify_isSome (b : Plans) (name n : String) (f : Plan → Plan) : (b.modify name f n).isSome = (b n).isSome := by
  unfold Plans.modify
  split
  · exact Option.isSome_map
  · rfl

theorem change_isSome (b : Plans) (old new : List LogDefine) {n : String} (hn : (b n).isSome = true) :
    (b.change old new n).isSome = true := by
  unfold Plans.change
  split
  · rfl
  · split
    · rfl
    · exact hn

/-- The loggers are changed, and nothing is written. -/
theorem Follows.silent {m : LoggerManager} {plans : Plans} (h : Follows τ s b) (hm : Agree m plans)
    (hroot : (plans rootName).isSome = true) :
    Follows ((s, a) :: τ) (s.withManager m a.answers) { b with plans } := by
  have hnext := (h.wrote (.refl a.answers s)).managed hm hroot s.conf
  rw [List.append_nil] at hnext
  have hconf : ({ s.withManager m a.answers with conf := s.conf } : Logging) = s.withManager m a.answers := rfl
  rw [hconf, h.conf] at hnext
  exact hnext

/-- A log call on a logger that there is. -/
theorem Follows.logs (h : Follows τ s b) (strftime : String → Nat → String) {name : String}
    (hname : (b.plans name).isSome = true) (level : LogLevel) (event : LogEvent) (now : Nat) (k : FileAnswers) :
    ∃ t, s.log strftime name level event now k = some t ∧ Wrote k (b.plans.lines strftime name level event) s t := by
  obtain ⟨ws, hws, -, hlines⟩ : ∃ ws, s.manager.log name level = some ws ∧
      (∀ w ∈ ws, w.1 < s.manager.appenders.length) ∧
      ws.map (s.manager.line strftime level event) = b.plans.lines strftime name level event :=
    h.agree.log ((h.agree.isSome rootName).symm.trans h.root) ((h.agree.isSome name).symm.trans hname)
  refine ⟨_, by rw [log, hws]; rfl, ?_⟩
  rw [← hlines]
  exact log_wrote s

/-- A call on a logger that there is. -/
theorem Follows.modified {name : String} {m : LoggerManager} {g : Plan → Plan} (h : Follows τ s b)
    (hs : ((s.manager.loggers name).map fun _ => s.withManager m a.answers) = some t)
    (hm : ∀ l, s.manager.loggers name = some l → Agree m (b.plans.modify name g)) :
    Follows ((s, a) :: τ) t { b with plans := b.plans.modify name g } := by
  obtain ⟨l, hl, rfl⟩ := Option.map_eq_some_iff.mp hs
  exact h.silent (hm l hl) ((modify_isSome _ _ _ _).trans h.root)

/-- A change of the value of "logs": the line of the listener, and then what it does to the loggers. -/
theorem Follows.changed {new : LogDefines} {event : LogEvent} {u : Logging} {m : LoggerManager} (h : Follows τ s b)
    (hu : s.log strftime rootName .INFO event a.now a.answers = some u) (hm : u.manager.listener u.conf new = some m) :
    Follows ((s, a) :: τ) { u.withManager m a.answers with conf := new }
      { plans := b.plans.change b.conf.defines new.defines, conf := new,
        lines := b.lines ++ b.plans.lines strftime rootName .INFO event } := by
  obtain ⟨u', hu', hwrote⟩ := h.logs strftime h.root .INFO event a.now a.answers
  cases hu.symm.trans hu'
  rw [hwrote.conf, h.conf] at hm
  have hwritten := h.wrote hwrote
  have hagree := agree_listener (hwrote.manager ▸ hwritten.agree) (hwrote.manager ▸ hm)
  exact hwritten.managed hagree (change_isSome _ _ _ h.root) new

theorem step_follows (h : Follows τ s b) (hfree : Unshared s a) (hs : step strftime s a = some t) :
    ∃ b', Offers.step strftime b (described (s, a)) = some b' ∧ Follows ((s, a) :: τ) t b' := by
  obtain ⟨call, now, k⟩ := a
  cases call with
  | getLogger name =>
    cases hs
    refine ⟨_, rfl, h.silent (agree_getLogger h.agree name) ?_⟩
    show (if rootName = name then some ((b.plans rootName).getD .new) else b.plans rootName).isSome = true
    split
    · rfl
    · exact h.root
  | setLevel name level => exact ⟨_, rfl, h.modified hs fun l hl => agree_setLevel h.agree hl level⟩
  | setFormatter name val => exact ⟨_, rfl, h.modified hs fun l hl => agree_setFormatter h.agree hl val⟩
  | setPattern name val => exact ⟨_, rfl, h.modified hs fun l hl => agree_setPattern h.agree hl val⟩
  | newAppender made =>
    cases hs
    exact ⟨_, rfl, h.silent (agree_make h.agree made) h.root⟩
  | addAppender name i =>
    have hs : (if (s.manager.loggers name).isSome ∧ i < s.manager.appenders.length then
        some (s.withManager (s.manager.attach name i) k) else none) = some t := hs
    split at hs
    · rename_i hmade
      cases hs
      obtain ⟨l, hl⟩ := Option.isSome_iff_exists.mp hmade.1
      have ha : s.manager.appenders[i]? = some (s.found name i).appender := by
        simp only [found, List.getElem?_eq_getElem hmade.2, Option.getD_some]
      have hagree := agree_attach h.agree hl ha (hfree name i rfl)
      exact ⟨_, rfl, h.silent hagree ((modify_isSome _ _ _ _).trans h.root)⟩
    · cases hs
  | delAppender name i =>
    refine ⟨_, rfl, h.modified hs fun l hl => ?_⟩
    have hplace : (s.found name i).place = l.appenders.idxOf i := by
      simp only [found, hl, Option.map_some, Option.getD_some]
    rw [hplace]
    exact agree_delAppender h.agree hl i
  | clearAppenders name => exact ⟨_, rfl, h.modified hs fun l hl => agree_clearAppenders h.agree hl⟩
  | change new event =>
    by_cases hnew : new = s.conf
    · have hsame : new = b.conf := hnew.trans h.conf
      cases (if_pos hnew).symm.trans hs
      have hnext := h.wrote (a := ⟨.change new event, now, k⟩) (.refl k s)
      rw [List.append_nil] at hnext
      exact ⟨b, congrArg some (if_pos hsame), hnext⟩
    · have hchanged : new ≠ b.conf := fun he => hnew (he.trans h.conf.symm)
      obtain ⟨u, hu, hs⟩ := Option.bind_eq_some_iff.mp ((if_neg hnew).symm.trans hs)
      obtain ⟨m, hm, hs⟩ := Option.bind_eq_some_iff.mp hs
      cases hs
      exact ⟨_, congrArg some (if_neg hchanged), h.changed (a := ⟨.change new event, now, k⟩) hu hm⟩
  | log name level event =>
    have hname : (b.plans name).isSome = true := by
      rw [h.agree.isSome name]
      by_contra hnone
      rw [Bool.not_eq_true, Option.isSome_eq_false_iff, Option.isNone_iff_eq_none] at hnone
      have hs : (s.manager.log name level).map _ = some t := hs
      rw [LoggerManager.log, hnone] at hs
      cases hs
    obtain ⟨t', ht', hwrote⟩ := h.logs strftime hname level event now k
    cases hs.symm.trans ht'
    exact ⟨_, rfl, h.wrote hwrote⟩

end Logging

/-- In every run in which no appender is added while a logger has it: nothing is written that the
    description does not offer, or in another order; every line for the terminal is written, and
    every line is while the files answer. A log call on a logger that there is goes through. -/
theorem delivered (strftime : String → Nat → String) {τ : History Logging (Act Nat)} {s : Logging}
    (hr : Run (Logging.step strftime) .init τ s) (hfree : Meets Logging.Unshared τ) :
    ∃ τ' b, Run (Offers.step strftime) .init τ' b ∧ τ'.map Prod.snd = τ.map Logging.described ∧
      s.written.Sublist b.lines ∧
      s.written.filter (fun line => line.file.isNone) = b.lines.filter (fun line => line.file.isNone) ∧
      (Meets (fun _ a => a.answers.Always) τ → s.written = b.lines) ∧
      ∀ name level event now k, (s.manager.loggers name).isSome = true →
        (s.log strftime name level event now k).isSome = true := by
  obtain ⟨τ', b, hr', hcalls, h⟩ := hr.simulated Logging.init_follows
    (fun _ _ _ _ _ h hfree hs => Logging.step_follows h hfree hs) hfree
  refine ⟨τ', b, hr', hcalls, h.sublist, h.terminal, fun hmeets => (h.answered hmeets).1, ?_⟩
  intro name level event now k hname
  obtain ⟨t, ht, -⟩ := h.logs strftime ((h.agree.isSome name).trans hname) level event now k
  rw [ht]
  rfl

/-- An appender with a file goes from one logger to another, and its second line comes when the
    file is away. -/
theorem delivered_file_away :
    ∃ τ s, Run (Logging.step fun _ _ => "12:00") .init τ s ∧
      s.written.map (·.file) = [some "http.log", none] ∧
      ∃ τ' b, Run (Offers.step fun _ _ => "12:00") .init τ' b ∧ τ'.map Prod.snd = τ.map Logging.described ∧
        s.written.Sublist b.lines := by
  let event : LogEvent := ⟨"main.cpp", 1, 0, 1, 0, 1, "main", "up", "http"⟩
  let here : FileAnswers := ⟨fun _ => true, fun _ => true⟩
  let away : FileAnswers := ⟨fun _ => false, fun _ => true⟩
  let toFile : LogAppender := ⟨some "http.log", .INFO, true, some ⟨"%m", [.item "m" ""], false⟩⟩
  have hrun := Run.step (.step (.step (.step (.step (.step (.step (.step (.step
    (Run.nil : Run (Logging.step fun _ _ => "12:00") .init [] .init)
    (a := ⟨.getLogger "old", 1, here⟩) rfl) (a := ⟨.newAppender toFile, 1, here⟩) rfl)
    (a := ⟨.addAppender "old" 1, 1, here⟩) rfl) (a := ⟨.log "old" .WARN event, 1, here⟩) rfl)
    (a := ⟨.delAppender "old" 1, 1, here⟩) rfl) (a := ⟨.getLogger "http", 1, here⟩) rfl)
    (a := ⟨.addAppender "http" 1, 1, here⟩) rfl) (a := ⟨.log "http" .WARN event, 2, away⟩) rfl)
    (a := ⟨.log rootName .WARN event, 3, here⟩) rfl
  have hfirst : ∀ n, ¬ (LoggerManager.init.getLogger "old").Attached n 1 := by
    intro n hn
    exact Nat.one_ne_zero (LoggerManager.attached_init (LoggerManager.attached_getLogger.mp hn)).2
  have hbetween : ∀ n, ¬ (((((LoggerManager.init.getLogger "old").make toFile).attach "old" 1).delAppender "old"
      1).getLogger "http").Attached n 1 := by
    intro n hn
    obtain ⟨hadded, hstays⟩ := LoggerManager.attached_delAppender.mp (LoggerManager.attached_getLogger.mp hn)
    rcases (LoggerManager.attached_attach rfl).mp hadded with hold | ⟨rfl, -⟩
    · exact hfirst n hold
    · exact hstays ⟨rfl, rfl, _, rfl, rfl⟩
  obtain ⟨τ', b, hr', hsame, hsub, -⟩ := delivered _ hrun (by
    refine List.forall_mem_cons.mpr ⟨nofun, List.forall_mem_cons.mpr ⟨nofun, ?_⟩⟩
    refine List.forall_mem_cons.mpr ⟨?_, List.forall_mem_cons.mpr ⟨nofun, List.forall_mem_cons.mpr ⟨nofun, ?_⟩⟩⟩
    · rintro _ _ ⟨⟩
      exact hbetween
    · refine List.forall_mem_cons.mpr ⟨nofun, List.forall_mem_cons.mpr ⟨?_, ?_⟩⟩
      · rintro _ _ ⟨⟩
        exact hfirst
      · exact List.forall_mem_cons.mpr ⟨nofun, List.forall_mem_cons.mpr ⟨nofun, nofun⟩⟩)
  exact ⟨_, _, hrun, rfl, τ', b, hr', hsame, hsub⟩

end LjrServer.Log
