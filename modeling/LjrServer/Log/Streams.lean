/-
  LjrServer.Log.Streams — the file stream of a `FileLogAppender`, and which of the lines that it
  is given get into it (log.cpp).

  The stream is as the standard library has it: closing one that is not open fails, opening one
  that is open fails, and one that has failed takes nothing. `reopen` closes the stream only when
  it has not failed; so after a write that failed it is left open, and cannot be opened again.

  Proved:
  - `shaped_step`: what a call makes of a stream, in terms of what the file answered so far.
  - `line_written_iff`: a line is written exactly when the last time the file was opened went
    well, this write does, and so did every write before it that was made on an open file.
-/

import LjrServer.Lib.Runs

namespace LjrServer.Log

open LjrServer.Lib

/-- `m_filestream` and `m_lastTime`; `good` is the stream as a condition. -/
structure FileStream where
  isOpen : Bool := false
  good : Bool := true
  lastTime : Nat := 0
  deriving DecidableEq, Repr

/-- One call that is not below the level of the appender: the second it is made in, whether the
    file can be opened then, and whether the write goes well. -/
structure LineCall where
  now : Nat
  opens : Bool
  writes : Bool
  deriving DecidableEq, Repr

namespace FileStream

def close (s : FileStream) : FileStream := if s.isOpen then { s with isOpen := false } else { s with good := false }

def reopen (s : FileStream) (opens : Bool) : FileStream :=
  let s := if s.good then s.close else s
  if s.isOpen = false ∧ opens = true then { s with isOpen := true, good := true } else { s with good := false }

/-- The constructor of the appender. -/
def new (opens : Bool) : FileStream := reopen {} opens

/-- `FileLogAppender::log`, and whether the line got into the stream. -/
def log (s : FileStream) (c : LineCall) : Bool × FileStream :=
  let s := if c.now ≠ s.lastTime then { s.reopen c.opens with lastTime := c.now } else s
  if s.good = true ∧ c.writes = true then (true, s) else (false, { s with good := false })

def step (s : FileStream) (c : LineCall) : Option FileStream := some (s.log c).2

/-! ## What the file answered -/

/-- The second of the last call, the calls being listed newest first. -/
def lastSecond : List LineCall → Nat
  | [] => 0
  | c :: _ => c.now

/-- What the last attempt to open the file came to; `first` is the one of the constructor. -/
def opened (first : Bool) : List LineCall → Bool
  | [] => first
  | c :: earlier => if c.now ≠ lastSecond earlier then c.opens else opened first earlier

/-- No write on an open file has failed. -/
def Unbroken (first : Bool) (calls : List LineCall) : Prop :=
  ∀ later c earlier, calls = later ++ c :: earlier → opened first (c :: earlier) = true → c.writes = true

/-- The stream after these calls. -/
structure Shaped (first : Bool) (calls : List LineCall) (s : FileStream) : Prop where
  lastTime : s.lastTime = lastSecond calls
  good : s.good = true ↔ opened first calls = true ∧ Unbroken first calls
  isOpen : s.isOpen = true ↔ opened first calls = true ∨ ¬ Unbroken first calls

variable {first : Bool} {calls : List LineCall} {s s' : FileStream} {c : LineCall}

theorem unbroken_nil (first : Bool) : Unbroken first [] := by
  intro later c earlier h
  cases later <;> cases h

theorem unbroken_cons : Unbroken first (c :: calls) ↔
    (opened first (c :: calls) = true → c.writes = true) ∧ Unbroken first calls := by
  constructor
  · intro h
    exact ⟨h [] c calls rfl, fun later d earlier he => h (c :: later) d earlier (by rw [he]; rfl)⟩
  · intro h later d earlier he
    cases later with
    | nil =>
      cases he
      exact h.1
    | cons _ later =>
      cases he
      exact h.2 later d earlier rfl

theorem shaped_new (first : Bool) : Shaped first [] (new first) := by
  have hunbroken := unbroken_nil first
  constructor <;> cases first <;> simp [new, reopen, close, opened, lastSecond, hunbroken]

/-- A stream that is not broken is open when it is good. -/
theorem Shaped.isOpen_iff (h : Shaped first calls s) (hu : Unbroken first calls) : s.isOpen = true ↔ s.good = true := by
  rw [h.isOpen, h.good]
  simp [hu]

/-- The stream that a call writes to: opened again in a new second. -/
theorem reopened (h : Shaped first calls s) (c : LineCall) :
    let t := if c.now ≠ s.lastTime then { s.reopen c.opens with lastTime := c.now } else s
    t.lastTime = c.now ∧ (t.good = true ↔ opened first (c :: calls) = true ∧ Unbroken first calls) ∧
      (t.isOpen = true ↔ opened first (c :: calls) = true ∨ ¬ Unbroken first calls) := by
  dsimp only
  by_cases hnow : c.now = lastSecond calls
  · have hsame : opened first (c :: calls) = opened first calls := if_neg (Classical.not_not.mpr hnow)
    rw [if_neg (Classical.not_not.mpr (hnow.trans h.lastTime.symm)), hsame]
    exact ⟨h.lastTime.trans hnow.symm, h.good, h.isOpen⟩
  · have hopened : opened first (c :: calls) = c.opens := if_pos hnow
    rw [if_pos (h.lastTime ▸ hnow), hopened]
    refine ⟨rfl, ?_⟩
    by_cases hu : Unbroken first calls
    · -- closed before, or not open: what counts is whether it opens
      have hopen : s.isOpen = s.good := Bool.eq_iff_iff.mpr (h.isOpen_iff hu)
      cases hg : s.good <;> cases ho : c.opens <;> simp [reopen, close, hg, hu, hopen]
    · -- left open by a write that failed
      have hopen : s.isOpen = true := h.isOpen.mpr (.inr hu)
      have hfailed : s.good = false := by
        rw [Bool.eq_false_iff]
        intro hg
        exact hu (h.good.mp hg).2
      simp [reopen, hopen, hfailed, hu]

/-- When the line of a call is written. -/
theorem Shaped.written_iff (h : Shaped first calls s) (c : LineCall) :
    (s.log c).1 = true ↔ opened first (c :: calls) = true ∧ c.writes = true ∧ Unbroken first calls := by
  obtain ⟨-, hgood, -⟩ := reopened h c
  dsimp only at hgood
  unfold log
  dsimp only
  generalize (if c.now ≠ s.lastTime then { s.reopen c.opens with lastTime := c.now } else s) = t at hgood
  have hdone : (if t.good = true ∧ c.writes = true then (true, t) else (false, { t with good := false })).1 = true ↔
      t.good = true ∧ c.writes = true := by
    by_cases hboth : t.good = true ∧ c.writes = true
    · rw [if_pos hboth]
      exact iff_of_true rfl hboth
    · rw [if_neg hboth]
      exact iff_of_false Bool.false_ne_true hboth
  rw [hdone, hgood]
  exact ⟨fun ⟨⟨ho, hu⟩, hw⟩ => ⟨ho, hw, hu⟩, fun ⟨ho, hw, hu⟩ => ⟨⟨ho, hu⟩, hw⟩⟩

theorem shaped_step (h : Shaped first calls s) (hs : s.step c = some s') : Shaped first (c :: calls) s' := by
  cases hs
  obtain ⟨hlast, hgood, hopen⟩ := reopened h c
  dsimp only at hlast hgood hopen
  unfold log
  dsimp only
  generalize (if c.now ≠ s.lastTime then { s.reopen c.opens with lastTime := c.now } else s) = t at hlast hgood hopen
  have hbroken : Unbroken first (c :: calls) ↔
      (opened first (c :: calls) = true → c.writes = true) ∧ Unbroken first calls := unbroken_cons
  by_cases hdone : t.good = true ∧ c.writes = true
  · have hu : Unbroken first (c :: calls) := hbroken.mpr ⟨fun _ => hdone.2, (hgood.mp hdone.1).2⟩
    rw [if_pos hdone]
    refine ⟨hlast, ?_, ?_⟩
    · rw [hgood]
      simp [hu, (hgood.mp hdone.1).2]
    · rw [hopen]
      simp [hu, (hgood.mp hdone.1).2]
  · rw [if_neg hdone]
    refine ⟨hlast, ?_, ?_⟩
    · -- it was open and the write failed, or it was not good before
      constructor
      · intro hfalse
        cases hfalse
      · rintro ⟨ho, hu⟩
        obtain ⟨hw, hu⟩ := hbroken.mp hu
        exact absurd ⟨hgood.mpr ⟨ho, hu⟩, hw ho⟩ hdone
    · show t.isOpen = true ↔ _
      rw [hopen, hbroken]
      by_cases ho : opened first (c :: calls) = true <;> simp [ho]

theorem run_shaped {τ : History FileStream LineCall} (hr : Run step (new first) τ s) :
    Shaped first (τ.map Prod.snd) s :=
  hr.history (I := fun τ s => Shaped first (τ.map Prod.snd) s) (C := fun _ _ => True) (shaped_new first)
    (fun _ _ _ _ h _ hs => shaped_step h hs) fun _ _ => trivial

/-- Of an appender that was made and then called any number of times: which line is written. -/
theorem line_written_iff {τ : History FileStream LineCall} (hr : Run step (new first) τ s) (c : LineCall) :
    (s.log c).1 = true ↔ opened first (c :: τ.map Prod.snd) = true ∧ c.writes = true ∧
      Unbroken first (τ.map Prod.snd) :=
  (run_shaped hr).written_iff c

/-- The file is away in the second after the first line, and back in the next; the write that
    fails then is the last one on this stream. -/
theorem line_written_iff_broken :
    ∃ τ s, Run step (new true) τ s ∧ τ.map (·.2) = [⟨3, true, false⟩, ⟨2, false, true⟩, ⟨1, true, true⟩] ∧
      (s.log ⟨4, true, true⟩).1 = false ∧ ¬ Unbroken true (τ.map (·.2)) := by
  obtain ⟨τ, s, hr, hcalls, hlost⟩ : ∃ τ s, Run step (new true) τ s ∧
      τ.map (·.2) = [⟨3, true, false⟩, ⟨2, false, true⟩, ⟨1, true, true⟩] ∧ (s.log ⟨4, true, true⟩).1 = false :=
    ⟨_, _, .step (.step (.step .nil rfl) rfl) rfl, rfl, rfl⟩
  refine ⟨τ, s, hr, hcalls, hlost, ?_⟩
  intro hu
  rw [(line_written_iff hr ⟨4, true, true⟩).mpr ⟨by rw [hcalls]; rfl, rfl, hu⟩] at hlost
  cases hlost

/-! ## A file that answers -/

/-- A good stream stays good, and takes the line. -/
theorem log_answered (hs : s.good = true) (now : Nat) :
    (s.log ⟨now, true, true⟩).1 = true ∧ (s.log ⟨now, true, true⟩).2.good = true := by
  have hreopened : (s.reopen true).good = true := by
    cases ho : s.isOpen <;> simp [reopen, close, hs, ho]
  unfold log
  by_cases hnow : now = s.lastTime
  · simp [hnow, hs]
  · simp [hnow, hreopened]

end FileStream

end LjrServer.Log
