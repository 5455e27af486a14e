/-
  LjrServer.Log.Define — the definitions of the "logs" configuration and the listener that
  brings the loggers in line with them (`LogIniter` in log.cpp).

  The listener goes through the new definitions. For one that the old set has as well,
  unchanged, it gets no logger, and uses the null pointer; for the others it changes the
  logger of that name. The loggers that are only in the old set are put out of use inside
  the same loop.

  Proved:
  - `update_eq`: what one definition does to its logger.
  - `removal_loggers`: which loggers are put out of use.
-/

import LjrServer.Log.Logger
import Mathlib.Data.List.Induction

namespace LjrServer.Log

structure LogAppenderDefine where
  type : Int := 0
  level : LogLevel := .UNKNOW
  formatter : String := ""
  file : String := ""
  deriving DecidableEq, Repr

structure LogDefine where
  name : String
  level : LogLevel := .UNKNOW
  formatter : String := ""
  appenders : List LogAppenderDefine := []
  deriving DecidableEq, Repr

/-- `std::set<LogDefine>`, ordered by name. -/
structure LogDefines where
  defines : List LogDefine
  sorted : defines.Pairwise fun a b => a.name < b.name
  deriving DecidableEq, Repr

namespace LogDefines

def empty : LogDefines := ⟨[], List.Pairwise.nil⟩

/-- `find`, which compares names. -/
def find (v : LogDefines) (d : LogDefine) : Option LogDefine := v.defines.find? fun e => e.name = d.name

end LogDefines

/-- 1 for a file, 2 for the terminal. -/
def LogAppenderDefine.Typed (a : LogAppenderDefine) : Prop := a.type = 1 ∨ a.type = 2

namespace LoggerManager

/-- The body of the loop over a definition's appenders; none when `ap` is null. -/
def append (name : String) (s : LoggerManager) (a : LogAppenderDefine) : Option LoggerManager := do
  let ap : LogAppender ←
    if a.type = 1 then some { file := some a.file } else if a.type = 2 then some { file := none } else none
  let ap := { ap with level := a.level }
  let ap :=
    if a.formatter ≠ "" then
      let fmt := LogFormatter.new a.formatter
      if ¬ fmt.error then ap.setFormatter (some fmt) else ap
    else ap
  some (s.addAppender name ap)

/-- One new definition; none when `logger` is null. -/
def update (s : LoggerManager) (old : LogDefines) (d : LogDefine) : Option LoggerManager := do
  let (s, logger) := match old.find d with
    | none => (s.getLogger d.name, some d.name)
    | some it => if d ≠ it then (s.getLogger d.name, some d.name) else (s, none)
  let name ← logger
  let s := s.setLevel name d.level
  let s := if d.formatter ≠ "" then s.setPattern name d.formatter else s
  let s := s.clearAppenders name
  d.appenders.foldlM (append name) s

def remove (s : LoggerManager) (name : String) : LoggerManager :=
  ((s.getLogger name).setLevel name (.cast 100)).clearAppenders name

/-- The loop over the old definitions. -/
def removal (old : List LogDefine) (new : LogDefines) (s : LoggerManager) : LoggerManager :=
  old.foldl (fun s d => if (new.find d).isNone then s.remove d.name else s) s

/-- The listener. -/
def listener (s : LoggerManager) (old new : LogDefines) : Option LoggerManager :=
  new.defines.foldlM (fun s d => (s.update old d).map (removal old.defines new)) s

end LoggerManager

/-- Out of use. -/
def Logger.Removed (l : Logger) : Prop := l.level = .cast 100 ∧ l.appenders = []

/-! ## One definition -/

/-- The appender that is made for a definition on a logger with this formatter. -/
def LogAppenderDefine.made (a : LogAppenderDefine) (logger : LogFormatter) : LogAppender :=
  let fmt := LogFormatter.new a.formatter
  let own := a.formatter ≠ "" ∧ fmt.error = false
  { file := if a.type = 1 then some a.file else none, level := a.level, hasFormatter := own,
    formatter := some (if own then fmt else logger) }

namespace LoggerManager

variable {s t : LoggerManager} {name other : String} {l : Logger} {old new : LogDefines} {d : LogDefine}

theorem append_eq {a : LogAppenderDefine} (ha : a.Typed) (hl : s.loggers name = some l) :
    s.append name a = some { s.modify name (fun l => { l with appenders := l.appenders ++ [s.appenders.length] }) with
      appenders := s.appenders ++ [a.made l.formatter] } := by
  rcases ha with ha | ha
  · by_cases hf : a.formatter = ""
    · simp [append, addAppender, LogAppenderDefine.made, ha, hf, hl]
    · cases he : (LogFormatter.new a.formatter).error <;>
        simp [append, addAppender, LogAppenderDefine.made, LogAppender.setFormatter, ha, hf, he, hl]
  · by_cases hf : a.formatter = ""
    · simp [append, addAppender, LogAppenderDefine.made, ha, hf, hl]
    · cases he : (LogFormatter.new a.formatter).error <;>
        simp [append, addAppender, LogAppenderDefine.made, LogAppender.setFormatter, ha, hf, he, hl]

/-- The loop over a definition's appenders. -/
theorem append_all (as : List LogAppenderDefine) (ha : ∀ a ∈ as, a.Typed) (hl : s.loggers name = some l) :
    ∃ t, as.foldlM (append name) s = some t ∧
      t.loggers name = some { l with appenders := l.appenders ++ List.range' s.appenders.length as.length } ∧
      (∀ n, n ≠ name → t.loggers n = s.loggers n) ∧ t.appenders = s.appenders ++ as.map (·.made l.formatter) := by
  induction as generalizing s l with
  | nil => exact ⟨s, rfl, by simpa using hl, fun _ _ => rfl, by simp⟩
  | cons a as ih =>
    obtain ⟨hfirst, hrest⟩ := List.forall_mem_cons.mp ha
    have hl' : ({ s.modify name (fun l => { l with appenders := l.appenders ++ [s.appenders.length] }) with
        appenders := s.appenders ++ [a.made l.formatter] } : LoggerManager).loggers name =
          some { l with appenders := l.appenders ++ [s.appenders.length] } := modify_self hl
    obtain ⟨t, ht, hname, hother, happ⟩ := ih hrest hl'
    refine ⟨t, ?_, ?_, ?_, ?_⟩
    · rw [List.foldlM_cons, append_eq hfirst hl]
      exact ht
    · rw [hname]
      simp [List.range'_succ]
    · intro n hn
      rw [hother n hn]
      exact modify_ne hn
    · rw [happ]
      simp

/-- The formatter a definition leaves its logger with. -/
def leaves (s : LoggerManager) (d : LogDefine) : LogFormatter :=
  let fmt := LogFormatter.new d.formatter
  if d.formatter ≠ "" ∧ fmt.error = false then fmt else ((s.loggers d.name).getD .new).formatter

/-- What an update does, once there is a logger to update. -/
structure Updated (s t : LoggerManager) (d : LogDefine) : Prop where
  logger : t.loggers d.name = some ⟨d.level, s.leaves d, List.range' s.appenders.length d.appenders.length⟩
  others : ∀ n, n ≠ d.name → t.loggers n = s.loggers n
  length : t.appenders.length = s.appenders.length + d.appenders.length
  kept : ∀ i, i < s.appenders.length → (∀ l, s.loggers d.name = some l → i ∉ l.appenders) →
    t.appenders[i]? = s.appenders[i]?
  made : ∀ j, j < d.appenders.length →
    t.appenders[s.appenders.length + j]? = (d.appenders[j]?).map (·.made (s.leaves d))

theorem setFormatter_spec (hl : s.loggers name = some l) (val : LogFormatter) :
    (s.setFormatter name val).loggers name = some { l with formatter := val } ∧
      (∀ n, n ≠ name → (s.setFormatter name val).loggers n = s.loggers n) ∧
      (s.setFormatter name val).appenders.length = s.appenders.length ∧
      ∀ i, i ∉ l.appenders → (s.setFormatter name val).appenders[i]? = s.appenders[i]? := by
  refine ⟨modify_self hl, fun n hn => modify_ne hn, ?_, ?_⟩
  · simp [setFormatter]
  · intro i hi
    simp only [setFormatter, modify_self hl, Option.map_some, Option.getD_some, List.getElem?_mapIdx, modify_appenders, hi,
      false_and, if_false, Option.map_id']

/-- The formatter step of an update. -/
theorem formatted_spec (hl : s.loggers name = some l) (val : String) :
    let fmt := LogFormatter.new val
    let t := if val ≠ "" then s.setPattern name val else s
    t.loggers name = some { l with formatter := if val ≠ "" ∧ fmt.error = false then fmt else l.formatter } ∧
      (∀ n, n ≠ name → t.loggers n = s.loggers n) ∧ t.appenders.length = s.appenders.length ∧
      ∀ i, i ∉ l.appenders → t.appenders[i]? = s.appenders[i]? := by
  dsimp only
  by_cases hval : val = ""
  · simp [hval, hl]
  · rw [if_pos hval]
    cases herror : (LogFormatter.new val).error with
    | true => simp [setPattern, herror, hl]
    | false =>
      have ht : s.setPattern name val = s.setFormatter name (.new val) := by simp [setPattern, herror]
      rw [ht, if_pos ⟨hval, rfl⟩]
      exact setFormatter_spec hl _

theorem update_some (hfind : old.find d ≠ some d) :
    s.update old d = d.appenders.foldlM (append d.name)
      ((if d.formatter ≠ "" then ((s.getLogger d.name).setLevel d.name d.level).setPattern d.name d.formatter
        else (s.getLogger d.name).setLevel d.name d.level).clearAppenders d.name) := by
  unfold update
  cases hit : old.find d with
  | none => rfl
  | some it =>
    have hne : d ≠ it := fun he => hfind (he ▸ hit)
    simp only [if_pos hne]
    rfl

/-- A definition that is in both sets gets no logger. -/
theorem update_none (hfind : old.find d = some d) : s.update old d = none := by
  simp [update, hfind]

theorem update_eq (hd : ∀ a ∈ d.appenders, a.Typed) (hfind : old.find d ≠ some d) :
    ∃ t, s.update old d = some t ∧ Updated s t d := by
  have hl₁ := getLogger_self s d.name
  have hl₂ : ((s.getLogger d.name).setLevel d.name d.level).loggers d.name =
      some { (s.loggers d.name).getD .new with level := d.level } := modify_self hl₁
  obtain ⟨hname, hothers, hlength, hkept⟩ := formatted_spec hl₂ d.formatter
  dsimp only at hname hothers hlength hkept
  rw [update_some hfind]
  generalize (if d.formatter ≠ "" then ((s.getLogger d.name).setLevel d.name d.level).setPattern d.name d.formatter
    else (s.getLogger d.name).setLevel d.name d.level) = s₃ at *
  have hl₄ : (s₃.clearAppenders d.name).loggers d.name = some ⟨d.level, s.leaves d, []⟩ := modify_self hname
  obtain ⟨t, ht, htname, htothers, htappenders⟩ := append_all d.appenders hd hl₄
  have hbefore : ((s.getLogger d.name).setLevel d.name d.level).appenders = s.appenders := getLogger_appenders
  have hlen : s₃.appenders.length = s.appenders.length := by rw [hlength, hbefore]
  have happ : t.appenders = s₃.appenders ++ d.appenders.map (·.made (s.leaves d)) := htappenders
  refine ⟨t, ht, ?_, ?_, ?_, ?_, ?_⟩
  · rw [htname]
    show some (Logger.mk d.level (s.leaves d) ([] ++ List.range' s₃.appenders.length d.appenders.length)) = _
    rw [hlen, List.nil_append]
  · intro n hn
    rw [htothers n hn]
    show (s₃.clearAppenders d.name).loggers n = _
    rw [clearAppenders, modify_ne hn, hothers n hn]
    exact (modify_ne hn).trans (getLogger_ne hn)
  · rw [happ, List.length_append, List.length_map, hlen]
  · intro i hi hown
    rw [happ, List.getElem?_append_left (by omega)]
    refine (hkept i ?_).trans (by rw [hbefore])
    intro hmem
    cases hs : s.loggers d.name with
    | none =>
      rw [hs] at hmem
      cases hmem
    | some l =>
      rw [hs] at hmem
      exact hown l hs hmem
  · intro j _
    rw [happ, List.getElem?_append_right (by omega), hlen, Nat.add_sub_cancel_left, List.getElem?_map]

/-! ## Putting out of use -/

theorem remove_spec (s : LoggerManager) (name : String) :
    (s.remove name).loggers name = some { (s.loggers name).getD .new with level := .cast 100, appenders := [] } ∧
      (∀ n, n ≠ name → (s.remove name).loggers n = s.loggers n) ∧ (s.remove name).appenders = s.appenders := by
  refine ⟨modify_self (modify_self (getLogger_self s name)), ?_, getLogger_appenders⟩
  intro n hn
  exact (modify_ne hn).trans ((modify_ne hn).trans (getLogger_ne hn))

/-- The loggers that only the old set names are out of use, the others as they were. -/
theorem removal_spec (olds : List LogDefine) (new : LogDefines) (s : LoggerManager) :
    (∀ o ∈ olds, new.find o = none → ∃ l, (removal olds new s).loggers o.name = some l ∧ l.Removed) ∧
      (∀ n, (∀ o ∈ olds, new.find o = none → o.name ≠ n) → (removal olds new s).loggers n = s.loggers n) ∧
      (removal olds new s).appenders = s.appenders := by
  induction olds using List.reverseRecOn with
  | nil => exact ⟨fun _ h => (nomatch h), fun _ _ => rfl, rfl⟩
  | append_singleton olds d ih =>
    obtain ⟨hgone, hkept, happ⟩ := ih
    have hfold : removal (olds ++ [d]) new s =
        if (new.find d).isNone then (removal olds new s).remove d.name else removal olds new s := by
      rw [removal, List.foldl_append]
      rfl
    cases hfind : new.find d with
    | some it =>
      rw [hfold, hfind]
      refine ⟨?_, ?_, happ⟩
      · intro o ho hnone
        rcases List.mem_append.mp ho with ho | ho
        · exact hgone o ho hnone
        · cases List.mem_singleton.mp ho
          cases hfind.symm.trans hnone
      · intro n hn
        exact hkept n fun o ho => hn o (List.mem_append_left _ ho)
    | none =>
      obtain ⟨hself, hother, hsame⟩ := remove_spec (removal olds new s) d.name
      rw [hfold, hfind]
      refine ⟨?_, ?_, hsame.trans happ⟩
      · intro o ho hnone
        by_cases hname : o.name = d.name
        · rw [hname]
          exact ⟨_, hself, rfl, rfl⟩
        · rcases List.mem_append.mp ho with ho | ho
          · obtain ⟨l, hl, hremoved⟩ := hgone o ho hnone
            exact ⟨l, (hother _ hname).trans hl, hremoved⟩
          · cases List.mem_singleton.mp ho
            exact absurd rfl hname
      · intro n hn
        have hne : n ≠ d.name := fun he => hn d (List.mem_append_right _ List.mem_cons_self) hfind he.symm
        exact (hother n hne).trans (hkept n fun o ho => hn o (List.mem_append_left _ ho))

end LoggerManager

end LjrServer.Log
