/-
  LjrServer.Http.ScanParts — a call of a parser that scans, part by part.

  `Takes` is a part of a call: the bytes it reads, and what the machine, the registers and
  the parser's data are before and after.

  Proved:
  - `Takes.append`: parts follow one another.
  - `Takes.byte`: one byte, whose actions do not end the call.
  - `Takes.stop`: the byte that ends the call.
  - `recvHeader_stopped`: a block that a call takes up to its end is received.
-/

import LjrServer.Http.HeaderLoop

namespace LjrServer.Http.ScanParser

open LjrServer.Lib LjrServer.Lib.Scanner

variable {P Q σ ρ κ : Type} [DecidableEq ρ] {S : ScanParser P Q σ ρ κ} {I : HeaderParser P}

structure Progress (Q σ ρ : Type) where
  state : σ
  regs : Regs ρ
  data : Q

/-- In the memory `R`, with the bytes `w` read, the call reads `x` and goes on. -/
def Takes (S : ScanParser P Q σ ρ κ) (R w x : Bytes) (a b : Progress Q σ ρ) : Prop :=
  ∃ es, scan S.automaton x w.length a.state a.regs = ⟨b.state, b.regs, (w ++ x).length, .more, es⟩ ∧
    S.callbacks R es a.data = some b.data

variable {R w x y : Bytes} {a b c : Progress Q σ ρ} {s s' : σ} {g : Regs ρ} {d d' : Q}

theorem Takes.nil : S.Takes R w [] a a := ⟨[], by simp [scan], rfl⟩

theorem Takes.append (hab : S.Takes R w x a b) (hbc : S.Takes R (w ++ x) y b c) : S.Takes R w (x ++ y) a c := by
  obtain ⟨es, hscan, hdata⟩ := hab
  obtain ⟨fs, hscan', hdata'⟩ := hbc
  refine ⟨es ++ fs, ?_, ?_⟩
  · rw [scan_append S.automaton y x w.length a.state a.regs (by rw [hscan]), hscan, ← List.length_append]
    dsimp only
    rw [hscan', Scan.prepend, List.append_assoc]
  · rw [callbacks_append, hdata, Option.bind_some, hdata']

theorem Takes.byte {n : UInt8} {es : List (Effect ρ κ)} (hA : S.automaton s n = some (s', es))
    (hgo : es.any isStop = false) (hdata : S.callbacks R (applyAll w.length g es).2 d = some d') :
    S.Takes R w [n] ⟨s, g, d⟩ ⟨s', (applyAll w.length g es).1, d'⟩ := by
  refine ⟨_, ?_, hdata⟩
  rw [scan, hA]
  simp [hgo, scan, Scan.prepend]

/-- The byte that ends the call. -/
theorem Takes.stop {n : UInt8} {es : List (Effect ρ κ)} (h : S.Takes R [] w a ⟨s, g, d⟩) (hA : S.automaton s n = some (s', es))
    (hstop : es.any isStop = true) (hdata : S.callbacks R (applyAll w.length g es).2 d = some d') :
    ∃ fs, scan S.automaton (w ++ [n]) 0 a.state a.regs =
        ⟨s', (applyAll w.length g es).1, (w ++ [n]).length, .stopped, fs⟩ ∧ S.callbacks R fs a.data = some d' := by
  obtain ⟨fs, hscan, hdata'⟩ := h
  have hend : scan S.automaton [n] w.length s g =
      ⟨s', (applyAll w.length g es).1, w.length + 1, .stopped, (applyAll w.length g es).2⟩ := by
    rw [scan, hA]
    simp [hstop]
  refine ⟨fs ++ (applyAll w.length g es).2, ?_, ?_⟩
  · rw [List.length_nil] at hscan
    rw [scan_append S.automaton [n] w 0 _ _ (by rw [hscan]), hscan, @List.length_append _ _ [n]]
    dsimp only
    rw [Nat.zero_add, hend, Scan.prepend]
    rfl
  · rw [callbacks_append, hdata', Option.bind_some, hdata]

/-- A block in one read, with the bytes `extra` behind it, when what its callbacks keep does
    not depend on what is behind it in memory. -/
theorem Implements.recvHeader_stopped (hS : S.Implements I) {buffSize : BufferSize} {p : P} {block extra : Bytes}
    {es : List (Event κ)} (hp : S.ready p) (hne : block ≠ []) (hle : (block ++ extra).length ≤ buffSize.val)
    (hscan : scan S.automaton block 0 (S.state p) (S.regs p) = ⟨s, g, block.length, .stopped, es⟩)
    (hfinal : S.final s = true) (hdata : ∀ r, S.callbacks (block ++ r) es (S.data p) = some d) (herror : S.error d = false)
    (later : List Bytes) (buffer : Bytes) (fuel : Nat) :
    ∃ p' data, recvHeader I buffSize.val (fuel + 1) (Socket.of ((block ++ extra) :: later)) p buffer 0 =
        some (some (p', data, extra.length), Socket.of later) ∧ S.data p' = d ∧ data.take extra.length = extra := by
  have hpos : 0 < block.length := List.length_pos_iff.mpr hne
  have happ := scan_append_end S.automaton extra block 0 (S.state p) (S.regs p) (by rw [hscan]; exact End.noConfusion)
  rw [hscan] at happ
  have hspl := length_le_splice buffer 0 (block ++ extra)
  obtain ⟨hmt, hml⟩ := hS.memory_take hspl
  rw [take_splice_start] at hmt
  obtain ⟨m, hm⟩ : ∃ m, S.memory (splice buffer 0 (block ++ extra)) (block ++ extra).length = block ++ extra ++ m :=
    ⟨_, ((congrArg (· ++ _) hmt).symm.trans (List.take_append_drop _ _)).symm⟩
  have hread := hS.recvHeader_read fuel (block ++ extra) later buffer (q := d) hp (by simp [hne]) hle
    (by rw [happ]; exact End.noConfusion) (by rw [happ]; exact hpos)
    (by rw [happ, hm, List.append_assoc]; exact hdata _) herror
  simp only [happ] at hread
  rw [if_pos hfinal, List.length_append, Nat.add_sub_cancel_left, ← List.length_append, hm] at hread
  refine ⟨_, _, hread, hS.data_after, ?_⟩
  have hslice : slice (block ++ extra ++ m) block.length extra.length = extra := by
    rw [slice, List.append_assoc, List.drop_left, List.take_left]
  rw [hslice, take_splice_start]

/-! ## Registers behind a byte -/

section
variable {p : Nat} {r : ρ} {fs : List (Effect ρ κ)}

theorem off_unsaved (h : Effect.save r ∉ fs) (g : Regs ρ) : (applyAll p g fs).1.off r = g.off r := by
  induction fs generalizing g with
  | nil => rfl
  | cons e fs ih =>
    rw [applyAll]
    refine (ih (fun hmem => h (List.mem_cons_of_mem _ hmem)) _).trans ?_
    cases e with
    | save q =>
      have hq : r ≠ q := fun hq => h (by rw [hq]; exact List.mem_cons_self)
      simp [Effect.regs, Scanner.set, hq]
    | _ => rfl

theorem off_saved (h : Effect.save r ∈ fs) (g : Regs ρ) : (applyAll p g fs).1.off r = p := by
  induction fs generalizing g with
  | nil => cases h
  | cons e fs ih =>
    rw [applyAll]
    by_cases hfs : Effect.save r ∈ fs
    · exact ih hfs _
    · have he : e = .save r := ((List.mem_cons.mp h).resolve_right hfs).symm
      rw [he]
      exact (off_unsaved hfs _).trans (by simp [Effect.regs, Scanner.set])

theorem len_unmeasured (h : Effect.measure r ∉ fs) (g : Regs ρ) : (applyAll p g fs).1.len r = g.len r := by
  induction fs generalizing g with
  | nil => rfl
  | cons e fs ih =>
    rw [applyAll]
    refine (ih (fun hmem => h (List.mem_cons_of_mem _ hmem)) _).trans ?_
    cases e with
    | measure q =>
      have hq : r ≠ q := fun hq => h (by rw [hq]; exact List.mem_cons_self)
      simp [Effect.regs, Scanner.set, hq]
    | _ => rfl

end

end LjrServer.Http.ScanParser
