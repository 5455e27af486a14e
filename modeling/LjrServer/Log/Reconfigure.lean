/-
  LjrServer.Log.Reconfigure — what the loggers are after a change of the "logs"
  configuration, and after a sequence of changes.

  Proved:
  - `reconfigured_iff`: a change goes through, and leaves every logger as the two sets say,
    exactly when no definition is in both sets, the new set is not empty while there is
    something to put out of use, the patterns parse, and a logger that is named anew
    without a pattern has the default one.
  - `reconfiguration`: with that and, in a sequence of changes, the default pattern wherever
    a definition has none, each logger the last set names is as if that set were the first.
  - `unchanged_definition`: the same definition in both sets.
-/

import LjrServer.Lib.Runs
import LjrServer.Log.Define
import Mathlib.Data.List.Pairwise

namespace LjrServer.Log

open LjrServer.Lib

namespace LogDefines

variable {v : LogDefines} {d e : LogDefine}

theorem names_inj (v : LogDefines) (hd : d ∈ v.defines) (he : e ∈ v.defines) (h : d.name = e.name) : d = e := by
  have hdistinct : v.defines.Pairwise fun a b => a.name ≠ b.name := v.sorted.imp String.ne_of_lt
  by_contra hne
  have hsymm : Std.Symm fun a b : LogDefine => a.name ≠ b.name := ⟨fun _ _ hab => Ne.symm hab⟩
  exact hdistinct.forall hd he hne h

theorem find_of_mem (hd : d ∈ v.defines) : v.find d = some d := by
  cases hfind : v.find d with
  | none =>
    have hnone := List.find?_eq_none.mp hfind d hd
    simp at hnone
  | some e =>
    have hname : e.name = d.name := by simpa using List.find?_some hfind
    rw [names_inj v (List.mem_of_find?_eq_some hfind) hd hname]

theorem find_eq_some_iff : v.find d = some d ↔ d ∈ v.defines :=
  ⟨List.mem_of_find?_eq_some, find_of_mem⟩

/-- Named in the set. -/
def Names (v : LogDefines) (name : String) : Prop := ∃ d ∈ v.defines, d.name = name

theorem find_eq_none_iff : v.find d = none ↔ ¬ v.Names d.name := by
  simp [find, Names]

end LogDefines

/-- The appender a definition asks for on a logger with this formatter. -/
def LogAppenderDefine.wanted (a : LogAppenderDefine) (logger : LogFormatter) : LogAppender :=
  { file := if a.type = 1 then some a.file else none, level := a.level, hasFormatter := a.formatter ≠ "",
    formatter := some (if a.formatter ≠ "" then .new a.formatter else logger) }

/-- The formatter a definition asks for on a fresh logger. -/
def LogDefine.wanted (d : LogDefine) : LogFormatter :=
  if d.formatter ≠ "" then .new d.formatter else .new LogFormatter.defaultPattern

/-- The appenders of a set have a type. -/
def LogDefines.Typed (v : LogDefines) : Prop := ∀ d ∈ v.defines, ∀ a ∈ d.appenders, a.Typed

/-- The patterns of a set parse. -/
def LogDefines.Parses (v : LogDefines) : Prop := ∀ d ∈ v.defines,
  (d.formatter ≠ "" → (LogFormatter.new d.formatter).error = false) ∧
    ∀ a ∈ d.appenders, a.formatter ≠ "" → (LogFormatter.new a.formatter).error = false

namespace LoggerManager

/-- A logger with the appenders it points to. -/
def view (s : LoggerManager) (name : String) : Option (LogLevel × LogFormatter × List (Option LogAppender)) :=
  (s.loggers name).map fun l => (l.level, l.formatter, l.appenders.map fun i => s.appenders[i]?)

/-- The logger of a definition has its level and its appenders, and this formatter. -/
def Matches (s : LoggerManager) (d : LogDefine) (fmt : LogFormatter) : Prop :=
  s.view d.name = some (d.level, fmt, d.appenders.map fun a => some (a.wanted fmt))

/-- The listener goes through, and the loggers are as the two sets say. -/
structure Reconfigured (s : LoggerManager) (old new : LogDefines) (t : LoggerManager) : Prop where
  listener : s.listener old new = some t
  named : ∀ d ∈ new.defines, ∃ fmt, t.Matches d fmt ∧ (d.formatter ≠ "" → fmt = .new d.formatter) ∧
    (d.formatter = "" → ¬ old.Names d.name → fmt = .new LogFormatter.defaultPattern)
  removed : ∀ d ∈ old.defines, ¬ new.Names d.name → ∃ l, t.loggers d.name = some l ∧ l.Removed
  others : ∀ n, ¬ old.Names n → ¬ new.Names n → t.loggers n = s.loggers n
  appenders : ∀ i, i < s.appenders.length → (∀ d ∈ new.defines, ∀ l, s.loggers d.name = some l → i ∉ l.appenders) →
    t.appenders[i]? = s.appenders[i]?

/-- The condition for it. -/
structure Fits (s : LoggerManager) (old new : LogDefines) : Prop where
  changed : ∀ d ∈ new.defines, d ∉ old.defines
  removed : new.defines = [] → ∀ d ∈ old.defines, ∃ l, s.loggers d.name = some l ∧ l.Removed
  patterns : ∀ d ∈ new.defines, d.formatter ≠ "" →
    (LogFormatter.new d.formatter).error = false ∨ ∃ l, s.loggers d.name = some l ∧ l.formatter = .new d.formatter
  appenders : ∀ d ∈ new.defines, ∀ a ∈ d.appenders, a.formatter ≠ "" → (LogFormatter.new a.formatter).error = false
  fresh : ∀ d ∈ new.defines, d.formatter = "" → ¬ old.Names d.name → ∀ l, s.loggers d.name = some l →
    l.formatter = .new LogFormatter.defaultPattern

/-! ## The listener's loop -/

variable {s t u : LoggerManager} {old new : LogDefines} {d : LogDefine}

/-- Where the loop is when it has been through these definitions. -/
structure Progress (s : LoggerManager) (old new : LogDefines) (done : List LogDefine) (t : LoggerManager) : Prop where
  length : s.appenders.length ≤ t.appenders.length
  updated : ∀ d ∈ done, ∃ own, t.loggers d.name = some ⟨d.level, s.leaves d, own⟩ ∧
    (∀ i ∈ own, s.appenders.length ≤ i ∧ i < t.appenders.length) ∧
    own.map (fun i => t.appenders[i]?) = d.appenders.map fun a => some (a.made (s.leaves d))
  removed : done ≠ [] → ∀ o ∈ old.defines, new.find o = none → ∃ l, t.loggers o.name = some l ∧ l.Removed
  others : ∀ n, (∀ d ∈ done, d.name ≠ n) → (∀ o ∈ old.defines, new.find o = none → o.name ≠ n) → t.loggers n = s.loggers n
  appenders : ∀ i, i < s.appenders.length → (∀ d ∈ new.defines, ∀ l, s.loggers d.name = some l → i ∉ l.appenders) →
    t.appenders[i]? = s.appenders[i]?
  start : done = [] → t = s

theorem progress_nil (s : LoggerManager) (old new : LogDefines) : Progress s old new [] s := by
  refine ⟨Nat.le_refl _, fun _ h => (nomatch h), fun h => absurd rfl h, fun _ _ _ => rfl, fun _ _ _ => rfl, fun _ => rfl⟩

theorem progress_step {done : List LogDefine} (hs : s.Linked) (h : Progress s old new done t) (hd : d ∈ new.defines)
    (hnew : ∀ e ∈ done, e ∈ new.defines ∧ e.name ≠ d.name) (hu : Updated t u d) :
    Progress s old new (done ++ [d]) (removal old.defines new u) := by
  obtain ⟨hgone, hkept, happ⟩ := removal_spec old.defines new u
  -- a new definition's logger is not put out of use
  have hstays : ∀ e ∈ new.defines, (removal old.defines new u).loggers e.name = u.loggers e.name := by
    intro e he
    refine hkept e.name ?_
    intro o _ hnone hname
    exact LogDefines.find_eq_none_iff.mp hnone ⟨e, he, hname.symm⟩
  have hsame : t.loggers d.name = s.loggers d.name := by
    refine h.others d.name (fun e he => (hnew e he).2) ?_
    intro o _ hnone hname
    exact LogDefines.find_eq_none_iff.mp hnone ⟨d, hd, hname.symm⟩
  have hleaves : t.leaves d = s.leaves d := by simp only [leaves, hsame]
  have hold : ∀ i, s.appenders.length ≤ i → ∀ l, t.loggers d.name = some l → i ∉ l.appenders := by
    intro i hi l hl hmem
    have hlt := hs d.name l (hsame ▸ hl) i hmem
    omega
  refine ⟨?_, ?_, fun _ => hgone, ?_, ?_, fun hnil => absurd hnil (by simp)⟩
  · have hlength := h.length
    rw [happ, hu.length]
    omega
  · intro e he
    rcases List.mem_append.mp he with he | he
    · obtain ⟨hmem, hne⟩ := hnew e he
      obtain ⟨own, hown, hrange, hmap⟩ := h.updated e he
      refine ⟨own, ?_, ?_, ?_⟩
      · rw [hstays e hmem, hu.others _ hne, hown]
      · intro i hi
        have hlength := hu.length
        rw [happ]
        exact ⟨(hrange i hi).1, by have := (hrange i hi).2; omega⟩
      · rw [happ, ← hmap]
        refine List.map_congr_left ?_
        intro i hi
        exact hu.kept i (hrange i hi).2 (hold i (hrange i hi).1)
    · cases List.mem_singleton.mp he
      refine ⟨_, (hstays d hd).trans (hleaves ▸ hu.logger), ?_, ?_⟩
      · intro i hi
        have hlength := h.length
        have hrange := List.mem_range'_1.mp hi
        rw [happ, hu.length]
        omega
      · rw [happ]
        refine List.ext_getElem (by simp) ?_
        intro j hj _
        have hlt : j < d.appenders.length := by simpa using hj
        have hmade := hu.made j hlt
        rw [hleaves, List.getElem?_eq_getElem hlt] at hmade
        simpa using hmade
  · intro n hdone hgone'
    rw [hkept n hgone', hu.others n fun he => hdone d (List.mem_append_right _ List.mem_cons_self) he.symm]
    exact h.others n (fun e he => hdone e (List.mem_append_left _ he)) hgone'
  · intro i hi hfree
    have hlength := h.length
    rw [happ, hu.kept i (by omega) fun l hl => hfree d hd l (hsame ▸ hl)]
    exact h.appenders i hi hfree

/-- The loop, when no definition is in both sets. -/
theorem listener_progress (hs : s.Linked) (htyped : new.Typed)
    (hchanged : ∀ d ∈ new.defines, d ∉ old.defines) :
    ∃ t, s.listener old new = some t ∧ Progress s old new new.defines t := by
  have hloop : ∀ rest done t, new.defines = done ++ rest → Progress s old new done t →
      ∃ u, rest.foldlM (fun s d => (s.update old d).map (removal old.defines new)) t = some u ∧
        Progress s old new new.defines u := by
    intro rest
    induction rest with
    | nil =>
      intro done t hsplit h
      rw [List.append_nil] at hsplit
      exact ⟨t, rfl, hsplit ▸ h⟩
    | cons d rest ih =>
      intro done t hsplit h
      have hd : d ∈ new.defines := hsplit ▸ List.mem_append_right _ List.mem_cons_self
      have hnew : ∀ e ∈ done, e ∈ new.defines ∧ e.name ≠ d.name := by
        intro e he
        have hsorted := hsplit ▸ new.sorted
        exact ⟨hsplit ▸ List.mem_append_left _ he,
          String.ne_of_lt ((List.pairwise_append.mp hsorted).2.2 e he d List.mem_cons_self)⟩
      obtain ⟨u, hu, hupdated⟩ := update_eq (s := t) (htyped d hd)
        (fun hfind => hchanged d hd (LogDefines.find_eq_some_iff.mp hfind))
      have hnext := progress_step hs h hd hnew hupdated
      obtain ⟨v, hv, hprogress⟩ := ih (done ++ [d]) _ (by rw [hsplit, List.append_assoc, List.singleton_append]) hnext
      refine ⟨v, ?_, hprogress⟩
      rw [List.foldlM_cons, hu]
      exact hv
  exact hloop new.defines [] s rfl (progress_nil s old new)

/-- A definition in both sets stops the loop. -/
theorem changed_of_listener (h : s.listener old new = some t) : ∀ d ∈ new.defines, d ∉ old.defines := by
  have hloop : ∀ (ds : List LogDefine) s, ds.foldlM (fun s d => (s.update old d).map (removal old.defines new)) s = some t →
      ∀ d ∈ ds, d ∉ old.defines := by
    intro ds
    induction ds with
    | nil => exact fun _ _ _ hd => (nomatch hd)
    | cons e ds ih =>
      intro s h d hd
      rw [List.foldlM_cons] at h
      obtain ⟨u, hu, hrest⟩ := Option.bind_eq_some_iff.mp h
      rcases List.mem_cons.mp hd with rfl | hd
      · intro hmem
        rw [update_none (LogDefines.find_of_mem hmem)] at hu
        cases hu
      · exact ih u hrest d hd
  exact hloop new.defines s h

/-! ## One change -/

theorem made_eq_wanted (a : LogAppenderDefine) (fmt : LogFormatter) :
    a.made fmt = a.wanted fmt ↔ (a.formatter ≠ "" → (LogFormatter.new a.formatter).error = false) := by
  unfold LogAppenderDefine.made LogAppenderDefine.wanted
  by_cases hf : a.formatter = ""
  · simp [hf]
  · cases herror : (LogFormatter.new a.formatter).error <;> simp [hf, herror]

/-- What the loop has made of a definition's logger. -/
theorem Progress.view (h : Progress s old new new.defines t) (hd : d ∈ new.defines) :
    t.view d.name = some (d.level, s.leaves d, d.appenders.map fun a => some (a.made (s.leaves d))) := by
  obtain ⟨own, hown, _, hmap⟩ := h.updated d hd
  rw [LoggerManager.view, hown, Option.map_some, hmap]

theorem leaves_eq_new (s : LoggerManager) (hne : d.formatter ≠ "") : s.leaves d = .new d.formatter ↔
    (LogFormatter.new d.formatter).error = false ∨ ∃ l, s.loggers d.name = some l ∧ l.formatter = .new d.formatter := by
  unfold leaves
  cases herror : (LogFormatter.new d.formatter).error with
  | false => simp [hne, herror]
  | true =>
    cases hl : s.loggers d.name with
    | none =>
      -- the default pattern parses, so it is not this one
      have hdefault : Logger.new.formatter ≠ LogFormatter.new d.formatter := by
        intro he
        have hvalid := LogFormatter.default_valid
        rw [show LogFormatter.new LogFormatter.defaultPattern = _ from he, herror] at hvalid
        cases hvalid
      simpa [herror] using hdefault
    | some l => simp [herror]

theorem leaves_eq_default (s : LoggerManager) (hempty : d.formatter = "") :
    s.leaves d = .new LogFormatter.defaultPattern ↔
      ∀ l, s.loggers d.name = some l → l.formatter = .new LogFormatter.defaultPattern := by
  unfold leaves
  cases hl : s.loggers d.name with
  | none => simp [hempty, Logger.new]
  | some l => simp [hempty]

/-- A change goes through and leaves the loggers as the sets say exactly when it fits. -/
theorem reconfigured_iff (hs : s.Linked) (htyped : new.Typed) :
    (∃ t, Reconfigured s old new t) ↔ Fits s old new := by
  constructor
  · intro hre
    obtain ⟨t, h⟩ := hre
    have hchanged := changed_of_listener h.listener
    obtain ⟨t', ht', hprogress⟩ := listener_progress hs htyped hchanged
    cases h.listener.symm.trans ht'
    have hmatch : ∀ d ∈ new.defines, ∀ fmt, t.Matches d fmt →
        fmt = s.leaves d ∧ ∀ a ∈ d.appenders, a.wanted fmt = a.made fmt := by
      intro d hd fmt hm
      have heq := hm.symm.trans (hprogress.view hd)
      simp only [Option.some.injEq, Prod.mk.injEq, true_and] at heq
      obtain ⟨hfmt, happ⟩ := heq
      subst hfmt
      refine ⟨rfl, ?_⟩
      intro a ha
      exact Option.some.inj (List.map_inj_left.mp happ a ha)
    refine ⟨hchanged, ?_, ?_, ?_, ?_⟩
    · intro hnil d hd
      obtain ⟨l, hl, hremoved⟩ := h.removed d hd (by simp [LogDefines.Names, hnil])
      exact ⟨l, hprogress.start hnil ▸ hl, hremoved⟩
    · intro d hd hne
      obtain ⟨fmt, hm, hfmt, _⟩ := h.named d hd
      rw [(hmatch d hd fmt hm).1] at hfmt
      exact (leaves_eq_new s hne).mp (hfmt hne)
    · intro d hd a ha hne
      obtain ⟨fmt, hm, _, _⟩ := h.named d hd
      exact (made_eq_wanted a fmt).mp ((hmatch d hd fmt hm).2 a ha).symm hne
    · intro d hd hempty hnew
      obtain ⟨fmt, hm, _, hfmt⟩ := h.named d hd
      rw [(hmatch d hd fmt hm).1] at hfmt
      exact (leaves_eq_default s hempty).mp (hfmt hempty hnew)
  · intro h
    obtain ⟨t, ht, hprogress⟩ := listener_progress hs htyped h.changed
    refine ⟨t, ht, ?_, ?_, ?_, hprogress.appenders⟩
    · intro d hd
      refine ⟨s.leaves d, ?_, fun hne => (leaves_eq_new s hne).mpr (h.patterns d hd hne),
        fun hempty hnew => (leaves_eq_default s hempty).mpr (h.fresh d hd hempty hnew)⟩
      rw [Matches, hprogress.view hd]
      congr 3
      refine List.map_congr_left ?_
      intro a ha
      rw [(made_eq_wanted a _).mpr (h.appenders d hd a ha)]
    · intro d hd hnew
      by_cases hnil : new.defines = []
      · rw [hprogress.start hnil]
        exact h.removed hnil d hd
      · exact hprogress.removed hnil d hd (LogDefines.find_eq_none_iff.mpr hnew)
    · intro n hold hnew
      refine hprogress.others n (fun d hd hname => hnew ⟨d, hd, hname⟩) ?_
      intro o ho _ hname
      exact hold ⟨o, ho, hname⟩

/-! ## A sequence of changes -/

theorem Progress.linked (hs : s.Linked) (h : Progress s old new new.defines t) : t.Linked := by
  intro n l hl i hi
  by_cases hnew : new.Names n
  · obtain ⟨d, hd, rfl⟩ := hnew
    obtain ⟨own, hown, hrange, _⟩ := h.updated d hd
    cases hl.symm.trans hown
    exact (hrange i hi).2
  · by_cases hgone : ∃ o ∈ old.defines, o.name = n ∧ new.defines ≠ []
    · obtain ⟨o, ho, rfl, hne⟩ := hgone
      obtain ⟨l', hl', hremoved⟩ := h.removed hne o ho (LogDefines.find_eq_none_iff.mpr hnew)
      cases hl.symm.trans hl'
      rw [hremoved.2] at hi
      cases hi
    · have hsame : t.loggers n = s.loggers n := by
        by_cases hnil : new.defines = []
        · rw [h.start hnil]
        · exact h.others n (fun d hd hname => hnew ⟨d, hd, hname⟩) fun o ho _ hname => hgone ⟨o, ho, hname, hnil⟩
      exact Nat.lt_of_lt_of_le (hs n l (hsame ▸ hl) i hi) h.length

/-- `setValue` of the configuration, with its only listener. -/
def change (c : LoggerManager × LogDefines) (new : LogDefines) : Option (LoggerManager × LogDefines) :=
  if new = c.2 then some c else (c.1.listener c.2 new).map (·, new)

/-- A change fits, its patterns parse, and a definition without one is for a logger that has
    the default pattern. -/
def InForm (c : LoggerManager × LogDefines) (new : LogDefines) : Prop :=
  new ≠ c.2 → Fits c.1 c.2 new ∧ new.Parses ∧ ∀ d ∈ new.defines, d.formatter = "" →
    ∀ l, c.1.loggers d.name = some l → l.formatter = .new LogFormatter.defaultPattern

/-- No logger was given a pattern yet. -/
structure Fresh (s : LoggerManager) : Prop where
  linked : s.Linked
  default : ∀ name l, s.loggers name = some l → l.formatter = .new LogFormatter.defaultPattern

/-- The loggers a set names are as it says, down to the default pattern. -/
structure Settled (s : LoggerManager) (v : LogDefines) : Prop where
  linked : s.Linked
  typed : v.Typed
  parses : v.Parses
  view : ∀ d ∈ v.defines, s.view d.name = some (d.level, d.wanted, d.appenders.map fun a => some (a.wanted d.wanted))

theorem settled_of_default (hs : s.Linked) (htyped : new.Typed) (hparses : new.Parses) (hfits : Fits s old new)
    (hdefault : ∀ d ∈ new.defines, d.formatter = "" → ∀ l, s.loggers d.name = some l →
      l.formatter = .new LogFormatter.defaultPattern) (ht : s.listener old new = some t) : t.Settled new := by
  obtain ⟨t', ht', hprogress⟩ := listener_progress hs htyped hfits.changed
  cases ht.symm.trans ht'
  refine ⟨hprogress.linked hs, htyped, hparses, ?_⟩
  intro d hd
  have hleaves : s.leaves d = d.wanted := by
    unfold LogDefine.wanted
    split
    · rename_i hne
      exact (leaves_eq_new s hne).mpr (.inl ((hparses d hd).1 hne))
    · rename_i hempty
      exact (leaves_eq_default s (Classical.not_not.mp hempty)).mpr (hdefault d hd (Classical.not_not.mp hempty))
  rw [hprogress.view hd, hleaves]
  congr 3
  refine List.map_congr_left ?_
  intro a ha
  rw [(made_eq_wanted a _).mpr ((hparses d hd).2 a ha)]

/-- As if a set were the first that fresh loggers get. -/
def AsFirst (s₀ s : LoggerManager) (v : LogDefines) : Prop :=
  ∃ f, s₀.listener .empty v = some f ∧ ∀ d ∈ v.defines, s.view d.name = f.view d.name

theorem asFirst_of_settled {s₀ : LoggerManager} {v : LogDefines} (h₀ : s₀.Fresh) (h : s.Settled v) : AsFirst s₀ s v := by
  have hfits : Fits s₀ .empty v := by
    refine ⟨fun _ _ hd => (nomatch hd), fun _ _ hd => (nomatch hd), ?_, ?_, ?_⟩
    · intro d hd hne
      exact .inl ((h.parses d hd).1 hne)
    · intro d hd a ha hne
      exact (h.parses d hd).2 a ha hne
    · intro d _ _ _ l hl
      exact h₀.default d.name l hl
  obtain ⟨f, hf⟩ := (reconfigured_iff h₀.linked h.typed).mpr hfits
  have hsettled := settled_of_default h₀.linked h.typed h.parses hfits (fun d _ _ => h₀.default d.name) hf.listener
  refine ⟨f, hf.listener, ?_⟩
  intro d hd
  rw [h.view d hd, hsettled.view d hd]

/-- Each change of a run leaves the loggers as its two sets say, and those the last set names
    as if it were the first. -/
structure Followed (s₀ : LoggerManager) (τ : History (LoggerManager × LogDefines) LogDefines)
    (c : LoggerManager × LogDefines) : Prop where
  each : ∀ later p earlier, τ = later ++ p :: earlier → p.2 ≠ p.1.2 → ∃ t, Reconfigured p.1.1 p.1.2 p.2 t
  last : AsFirst s₀ c.1 c.2

theorem step_settled {c c' : LoggerManager × LogDefines} (h : c.1.Settled c.2) (htyped : new.Typed) (hc : InForm c new)
    (hs : change c new = some c') : c'.1.Settled c'.2 := by
  unfold change at hs
  split at hs
  · cases hs
    exact h
  · rename_i hne
    obtain ⟨t, ht, rfl⟩ := Option.map_eq_some_iff.mp hs
    obtain ⟨hfits, hparses, hdefault⟩ := hc hne
    exact settled_of_default h.linked htyped hparses hfits hdefault ht

theorem run_settled {s₀ : LoggerManager} {τ : History (LoggerManager × LogDefines) LogDefines}
    {c : LoggerManager × LogDefines} (h₀ : s₀.Fresh) (hr : Run change (s₀, .empty) τ c)
    (htyped : Meets (fun _ new => new.Typed) τ) (hc : Meets InForm τ) : c.1.Settled c.2 := by
  have hboth : Meets (fun c (new : LogDefines) => new.Typed ∧ InForm c new) τ := fun p hp => ⟨htyped p hp, hc p hp⟩
  refine Run.invariant (I := fun c => c.1.Settled c.2) ?_ (fun _ _ _ h hcall hs => step_settled h hcall.1 hcall.2 hs) hr hboth
  exact ⟨h₀.linked, fun _ hd => (nomatch hd), fun _ hd => (nomatch hd), fun _ hd => (nomatch hd)⟩

/-- For one change, whatever the loggers are before it; and for a sequence of changes, from
    loggers that have no pattern of their own. -/
theorem reconfiguration (s : LoggerManager) :
    (s.Linked → ∀ old new : LogDefines, new.Typed → ((∃ t, Reconfigured s old new t) ↔ Fits s old new)) ∧
      (s.Fresh → ∀ τ c, Run change (s, .empty) τ c → Meets (fun _ new => new.Typed) τ → Meets InForm τ →
        Followed s τ c) := by
  refine ⟨fun hs old new htyped => reconfigured_iff hs htyped, ?_⟩
  intro h₀ τ c hr htyped hc
  refine ⟨?_, asFirst_of_settled h₀ (run_settled h₀ hr htyped hc)⟩
  intro later p earlier hτ hne
  subst hτ
  obtain ⟨_, hr', _, _⟩ := hr.cut_step
  have hrest : ∀ z ∈ earlier, z ∈ later ++ p :: earlier := fun z hz =>
    List.mem_append_right _ (List.mem_cons_of_mem _ hz)
  have hsettled := run_settled h₀ hr' (fun z hz => htyped z (hrest z hz)) (fun z hz => hc z (hrest z hz))
  have hp : p ∈ later ++ p :: earlier := List.mem_append_right _ List.mem_cons_self
  exact (reconfigured_iff hsettled.linked (htyped p hp)).mpr (hc p hp hne).1

theorem init_loggers (name : String) :
    init.loggers name = if name = rootName then some { Logger.new with appenders := [0] } else none := by
  by_cases h : name = rootName <;> simp [init, addAppender, modify, h, Logger.new]

theorem init_fresh : init.Fresh := by
  constructor
  · intro name l hl i hi
    rw [init_loggers] at hl
    split at hl
    · cases hl
      cases List.mem_singleton.mp hi
      decide
    · cases hl
  · intro name l hl
    rw [init_loggers] at hl
    split at hl
    · cases hl
      rfl
    · cases hl

/-- A logger that writes to a file. -/
def toFile (level : LogLevel) : LogDefines :=
  ⟨[⟨"system", level, "%m%n", [⟨1, .UNKNOW, "", "system.log"⟩]⟩], List.pairwise_singleton _ _⟩

theorem toFile_inForm (s : LoggerManager) (level : LogLevel) {v : LogDefines} (hv : ∀ d ∈ v.defines, d.level ≠ level) :
    (toFile level).Typed ∧ InForm (s, v) (toFile level) := by
  have hpattern : (LogFormatter.new "%m%n").error = false := by decide +kernel
  have hgiven : "%m%n" ≠ "" := by decide
  have hparses : (toFile level).Parses := by
    intro d hd
    cases List.mem_singleton.mp hd
    refine ⟨fun _ => hpattern, ?_⟩
    intro a ha hne
    cases List.mem_singleton.mp ha
    exact absurd rfl hne
  have hdefault : ∀ d ∈ (toFile level).defines, d.formatter = "" → False := by
    intro d hd
    cases List.mem_singleton.mp hd
    exact hgiven
  refine ⟨?_, fun _ => ⟨⟨?_, ?_, ?_, ?_, ?_⟩, hparses, fun d hd h => (hdefault d hd h).elim⟩⟩
  · intro d hd a ha
    cases List.mem_singleton.mp hd
    cases List.mem_singleton.mp ha
    exact .inl rfl
  · intro d hd hmem
    cases List.mem_singleton.mp hd
    exact hv _ hmem rfl
  · intro hnil
    cases hnil
  · intro d hd hne
    exact .inl ((hparses d hd).1 hne)
  · intro d hd a ha hne
    exact (hparses d hd).2 a ha hne
  · intro d hd h
    exact (hdefault d hd h).elim

/-- The level of a logger is set, and changed. -/
theorem reconfiguration_two_changes :
    ∃ τ c, Run change (init, .empty) τ c ∧ τ.map (·.2) = [toFile .WARN, toFile .INFO] ∧ Followed init τ c := by
  obtain ⟨htyped₁, hform₁⟩ := toFile_inForm init .INFO (v := .empty) fun _ hd => (nomatch hd)
  obtain ⟨t₁, h₁⟩ := ((reconfiguration init).1 init_fresh.linked .empty _ htyped₁).mpr (hform₁ (by decide)).1
  have hchanged : toFile .WARN ≠ toFile .INFO := by decide
  obtain ⟨htyped₂, hform₂⟩ := toFile_inForm t₁ .WARN (v := toFile .INFO) (by decide)
  have hstep₁ : change (init, .empty) (toFile .INFO) = some (t₁, toFile .INFO) := by
    rw [change, if_neg (by decide), h₁.listener, Option.map_some]
  have hsettled := step_settled (run_settled init_fresh .nil (fun _ h => (nomatch h)) fun _ h => (nomatch h)) htyped₁ hform₁
    hstep₁
  obtain ⟨t₂, h₂⟩ := ((reconfiguration t₁).1 hsettled.linked (toFile .INFO) _ htyped₂).mpr (hform₂ hchanged).1
  have hstep₂ : change (t₁, toFile .INFO) (toFile .WARN) = some (t₂, toFile .WARN) := by
    rw [change, if_neg hchanged, h₂.listener, Option.map_some]
  refine ⟨_, _, .step (.step .nil hstep₁) hstep₂, rfl, ?_⟩
  refine (reconfiguration init).2 init_fresh _ _ (.step (.step .nil hstep₁) hstep₂) ?_ ?_
  · exact List.forall_mem_cons.mpr ⟨htyped₂, List.forall_mem_cons.mpr ⟨htyped₁, fun _ h => (nomatch h)⟩⟩
  · exact Run.meets_cons.mpr ⟨hform₂, Run.meets_cons.mpr ⟨hform₁, fun _ h => (nomatch h)⟩⟩

/-- The same definition once more next to a new one: the listener uses a null logger. With
    no definition at all, it leaves the logger writing. -/
theorem unchanged_definition :
    ∃ t, init.listener .empty (toFile .INFO) = some t ∧
      t.listener (toFile .INFO) ⟨⟨"http", .INFO, "", []⟩ :: (toFile .INFO).defines, by decide⟩ = none ∧
      t.listener (toFile .INFO) .empty = some t ∧ (t.loggers "system").map (·.level) = some .INFO := by
  obtain ⟨htyped, hform⟩ := toFile_inForm init .INFO (v := .empty) fun _ hd => (nomatch hd)
  obtain ⟨t, ht, hprogress⟩ : ∃ t, init.listener .empty (toFile .INFO) = some t ∧
      Progress init .empty (toFile .INFO) (toFile .INFO).defines t :=
    listener_progress init_fresh.linked htyped (hform (by decide)).1.changed
  refine ⟨t, ht, ?_, rfl, ?_⟩
  · cases h : t.listener (toFile .INFO) ⟨⟨"http", .INFO, "", []⟩ :: (toFile .INFO).defines, by decide⟩ with
    | none => rfl
    | some u =>
      exact absurd (List.mem_singleton.mpr rfl) (changed_of_listener h _ (List.mem_cons_of_mem _ List.mem_cons_self))
  · obtain ⟨_, hown, _⟩ := hprogress.updated _ List.mem_cons_self
    exact (congrArg _ hown).trans rfl

end LoggerManager

end LjrServer.Log
