/-
  LjrServer.Log.Logger — loggers and their appenders, and the manager that names them
  (log.cpp).

  An appender is known by its address, its place among those made so far, since loggers
  hold pointers and may share one. A logger is known by its name. An appender without a
  formatter of its own uses the formatter of the logger that took it.

  Proved:
  - `modify_self`, `modify_ne`, `getLogger_self`, `getLogger_ne`: what becomes of a logger, and
    that the others are left alone.
-/

import LjrServer.Log.Formatter
import Mathlib.Data.List.Basic

namespace LjrServer.Log

/-- `file` is a `FileLogAppender`'s; a `StdoutLogAppender` has none. -/
structure LogAppender where
  file : Option String
  level : LogLevel := .DEBUG
  hasFormatter : Bool := false
  formatter : Option LogFormatter := none
  deriving DecidableEq, Repr

def LogAppender.setFormatter (a : LogAppender) (formatter : Option LogFormatter) : LogAppender :=
  { a with formatter, hasFormatter := formatter.isSome }

structure Logger where
  level : LogLevel
  formatter : LogFormatter
  appenders : List Nat
  deriving DecidableEq, Repr

/-- The default argument of the constructor of a logger. -/
def rootName : String := " root "

/-- The constructor. -/
def Logger.new : Logger := ⟨.DEBUG, .new LogFormatter.defaultPattern, []⟩

/-- `m_loggers`, and every appender that was made. -/
structure LoggerManager where
  loggers : String → Option Logger
  appenders : List LogAppender

namespace LoggerManager

def modify (s : LoggerManager) (name : String) (f : Logger → Logger) : LoggerManager :=
  { s with loggers := fun n => if n = name then (s.loggers n).map f else s.loggers n }

/-- The logger of that name, made if there is none. -/
def getLogger (s : LoggerManager) (name : String) : LoggerManager :=
  match s.loggers name with
  | some _ => s
  | none => { s with loggers := fun n => if n = name then some .new else s.loggers n }

def setLevel (s : LoggerManager) (name : String) (level : LogLevel) : LoggerManager :=
  s.modify name fun l => { l with level }

/-- `Logger::setFormatter` of a formatter: for the logger and its appenders without one. -/
def setFormatter (s : LoggerManager) (name : String) (val : LogFormatter) : LoggerManager :=
  let s := s.modify name fun l => { l with formatter := val }
  let own := ((s.loggers name).map (·.appenders)).getD []
  { s with appenders := s.appenders.mapIdx fun i a =>
      if i ∈ own ∧ a.hasFormatter = false then { a with formatter := some val } else a }

/-- `Logger::setFormatter` of a pattern. -/
def setPattern (s : LoggerManager) (name : String) (val : String) : LoggerManager :=
  let formatter := LogFormatter.new val
  if formatter.error then s else s.setFormatter name formatter

def clearAppenders (s : LoggerManager) (name : String) : LoggerManager := s.modify name fun l => { l with appenders := [] }

/-- `addAppender` of an appender that was just made. -/
def addAppender (s : LoggerManager) (name : String) (a : LogAppender) : LoggerManager :=
  let a := if a.formatter.isNone then { a with formatter := (s.loggers name).map (·.formatter) } else a
  { s.modify name fun l => { l with appenders := l.appenders ++ [s.appenders.length] } with
    appenders := s.appenders ++ [a] }

/-- The constructor: the root logger writes to the terminal. -/
def init : LoggerManager :=
  addAppender ⟨fun name => if name = rootName then some .new else none, []⟩ rootName { file := none }

/-! ## What the operations do -/

variable {s : LoggerManager} {name other : String} {l : Logger} {f : Logger → Logger}

/-- Every pointer is to an appender that was made. -/
def Linked (s : LoggerManager) : Prop := ∀ name l, s.loggers name = some l → ∀ i ∈ l.appenders, i < s.appenders.length

@[simp] theorem modify_self (h : s.loggers name = some l) : (s.modify name f).loggers name = some (f l) := by
  simp [modify, h]

@[simp] theorem modify_ne (h : other ≠ name) : (s.modify name f).loggers other = s.loggers other := if_neg h

@[simp] theorem modify_appenders : (s.modify name f).appenders = s.appenders := rfl

theorem getLogger_self (s : LoggerManager) (name : String) :
    (s.getLogger name).loggers name = some ((s.loggers name).getD .new) := by
  unfold getLogger
  split
  · rename_i h
    simp [h]
  · rename_i h
    simp [h]

@[simp] theorem getLogger_ne (h : other ≠ name) : (s.getLogger name).loggers other = s.loggers other := by
  unfold getLogger
  split
  · rfl
  · exact if_neg h

@[simp] theorem getLogger_appenders : (s.getLogger name).appenders = s.appenders := by
  unfold getLogger
  split <;> rfl

end LoggerManager

end LjrServer.Log
