/-
  LjrServer.Http.StatusLine — what a call of the response parser makes of a status line.

  Behind the version, the status and the first byte of the reason the machine is in a state
  it stays in up to the end of the token. The reason is any text in one line: at the return
  the line's end has priority.

  Proved:
  - `takes_statusLine`: a status line sets the version, the status and the reason.
-/

import LjrServer.Http.ResponseReads

namespace LjrServer.Http.HttpClient

open LjrServer.Lib LjrServer.Lib.Scanner LjrServer.Lib.Ragel

/-! ## States -/

/-- What is left of a response when `m` is left of its reason. -/
def reasonLine (m : M) : M :=
  .finishing 28 .done (.cat (.cat (.prioAll 1 0 m) (.prioEnter 1 1 CRLF)) (.cat (.star (messageHeader 6)) CRLF))

/-- Behind the version, which is the same for both. -/
def behindVersion : State := reached [main] HTTP_1_1
def beforeStatus : State := (step behindVersion 32).1
def inStatus : State := (step beforeStatus 48).1
def beforeReason : State := [reasonLine (reasonPhrase 4)]
def inReason : State := [reasonLine (.leaving 5 .reasonPhrase (.star (.set { incl := [(0, 255)], excl := [(10, 10)] })))]
def reasonEnd : State := (step inReason 13).1


def digitOk (c : Nat) : Bool := step beforeStatus c = (inStatus, [.mark]) && step inStatus c = (inStatus, [])

def reasonOk (c : Nat) : Bool :=
  c = 10 || c = 13 || step beforeReason c = (inReason, [.mark]) && step inReason c = (inReason, [])

theorem tokens_evaluated : ((List.range 10).all fun i => digitOk (48 + i)) = true ∧
    ((List.range 256).all reasonOk) = true := by
  decide +kernel

variable {b : UInt8}

theorem digit_step (hb : digits.mem b.toNat = true) :
    step beforeStatus b.toNat = (inStatus, [.mark]) ∧ step inStatus b.toNat = (inStatus, []) := by
  have hrange : 48 ≤ b.toNat ∧ b.toNat ≤ 57 := by simpa [digits, CharSet.mem, CharSet.within] using hb
  have hat := List.all_eq_true.mp tokens_evaluated.1 (b.toNat - 48) (List.mem_range.mpr (by omega))
  rw [show 48 + (b.toNat - 48) = b.toNat by omega] at hat
  simpa [digitOk] using hat

theorem reason_step (hb : b ≠ 13 ∧ b ≠ 10) :
    step beforeReason b.toNat = (inReason, [.mark]) ∧ step inReason b.toNat = (inReason, []) := by
  have hreturn : b.toNat ≠ 13 := fun he => hb.1 (UInt8.toNat_inj.mp he)
  have hnewline : b.toNat ≠ 10 := fun he => hb.2 (UInt8.toNat_inj.mp he)
  have hat := List.all_eq_true.mp tokens_evaluated.2 b.toNat (List.mem_range.mpr b.toNat_lt)
  simpa [reasonOk, hreturn, hnewline] using hat

theorem statusLine_marks : (step [main] 72).1 ≠ [] ∧ (step [main] 72).2 = [.mark] ∧
    step behindVersion 32 = (beforeStatus, [.httpVersion]) ∧ step inStatus 32 = (beforeReason, [.statusCode]) ∧
    step inReason 13 = (reasonEnd, [.reasonPhrase]) ∧ step reasonEnd 10 = ([lined .eps], []) ∧
    ∀ v ∈ [HTTP_1_1, HTTP_1_0], quietly (step [main] 72).1 v.tail = true ∧ reached [main] v = behindVersion := by
  decide +kernel

theorem token_ne_nil : beforeStatus ≠ [] ∧ inStatus ≠ [] ∧ beforeReason ≠ [] ∧ inReason ≠ [] ∧ reasonEnd ≠ [] := by
  decide +kernel

/-! ## Tokens -/

variable {R w x r : Bytes} {s s' : State} {g : Regs Reg} {d m : (HttpResponse × Nat) × Bool}

theorem takes_quietly (h : quietly s x = true) : responseScan.Takes R w x ⟨s, g, d⟩ ⟨reached s x, g, d⟩ := by
  induction x generalizing s w with
  | nil => exact .nil
  | cons b x ih =>
    simp only [quietly, Bool.and_eq_true, decide_eq_true_eq, ne_eq] at h
    obtain ⟨⟨hne, hacts⟩, hrest⟩ := h
    have hfirst := takes_acts (R := R) (w := w) (g := g) (d := d) (m := d) hne (by simp [hacts]) (by rw [hacts]; rfl)
    rw [hacts] at hfirst
    exact hfirst.append (ih hrest)

def markedAt (g : Regs Reg) (p : Nat) : Regs Reg := { g with off := Scanner.set g.off .mark p }

/-- A token whose first byte is marked. -/
theorem takes_marked (hstep : step s b.toNat = (s', [.mark])) (hne : s' ≠ []) (h : quietly s' x = true) :
    responseScan.Takes R w (b :: x) ⟨s, g, d⟩ ⟨reached s' x, markedAt g w.length, d⟩ := by
  have hfirst := takes_acts (R := R) (w := w) (g := g) (d := d) (m := d) (by rw [hstep]; exact hne)
    (by rw [hstep]; simp) (by rw [hstep]; rfl)
  rw [hstep] at hfirst
  exact hfirst.append (takes_quietly h)

/-- The byte behind a token, which hands it out. -/
theorem takes_handed {a : Action} {k : Callback} (hstep : step s b.toNat = (s', [a])) (hne : s' ≠ [])
    (ha : a.effects = [.emit k [.upto .mark]])
    (hcall : responseScan.callback R ⟨k, w.length, [⟨g.off .mark, distance w.length (g.off .mark)⟩]⟩ d = some m) :
    responseScan.Takes R w [b] ⟨s, g, d⟩ ⟨s', g, m⟩ := by
  have hdone : Action.done ∉ (step s b.toNat).2 := by
    rw [hstep]
    intro hmem
    rw [← List.mem_singleton.mp hmem] at ha
    cases ha
  have htakes := takes_acts (R := R) (w := w) (g := g) (d := d) (m := m) (by rw [hstep]; exact hne) hdone
    (by rw [hstep]; simp [ha, applyAll, Effect.events, ScanParser.callbacks, Regs.slice, hcall])
  rw [hstep] at htakes
  simpa [ha, applyAll, Effect.regs] using htakes

/-! ## The line -/

section
variable {n : Nat} {m : Slice}

theorem callback_version {version : UInt8} (h : charsToVersion R m = some version) :
    responseScan.callback R ⟨.httpVersion, n, [m]⟩ d = some (({ d.1.1 with version }, d.1.2), d.2) := by
  simp only [responseScan, HttpResponseParser.callback, h, Option.map_some, marksChunked, Bool.or_false]

theorem callback_status {status : Int} (h : atoi (R.drop m.start) = status) :
    responseScan.callback R ⟨.statusCode, n, [m]⟩ d = some (({ d.1.1 with status }, d.1.2), d.2) := by
  simp only [responseScan, HttpResponseParser.callback, h, Option.map_some, marksChunked, Bool.or_false]

theorem callback_reason {reason : Bytes} (h : stringAt R m = some reason) :
    responseScan.callback R ⟨.reasonPhrase, n, [m]⟩ d = some (({ d.1.1 with reason }, d.1.2), d.2) := by
  simp only [responseScan, HttpResponseParser.callback, h, Option.map_some, marksChunked, Bool.or_false]

end

theorem charsToVersion_text {v : Bytes} {version : UInt8}
    (hv : (v = HTTP_1_1 ∧ version = 0x11) ∨ (v = HTTP_1_0 ∧ version = 0x10)) :
    charsToVersion (v ++ 32 :: r) ⟨0, distance v.length 0⟩ = some version := by
  have hlen : v.length = 8 := by rcases hv with ⟨rfl, _⟩ | ⟨rfl, _⟩ <;> rfl
  have hdist : distance v.length 0 = 8 := by
    rw [distance_eq (Nat.zero_le _), hlen]
    omega
  rw [hdist, charsToVersion, List.drop_zero]
  rcases hv with ⟨rfl, rfl⟩ | ⟨rfl, rfl⟩
  · rfl
  · rfl

theorem takes_version {v : Bytes} {version : UInt8} {q : HttpResponse} {n : Nat} {c : Bool}
    (hv : (v = HTTP_1_1 ∧ version = 0x11) ∨ (v = HTTP_1_0 ∧ version = 0x10)) (hR : R = v ++ 32 :: r) :
    ∃ g', responseScan.Takes R [] (v ++ [32]) ⟨[main], g, ((q, n), c)⟩ ⟨beforeStatus, g', (({ q with version }, n), c)⟩ := by
  obtain ⟨hne, hmark, hspace, _, _, _, hquiet⟩ := statusLine_marks
  have hmem : v ∈ [HTTP_1_1, HTTP_1_0] := by
    rcases hv with ⟨rfl, _⟩ | ⟨rfl, _⟩ <;> simp
  obtain ⟨hquiet, hreached⟩ := hquiet v hmem
  have htext : v = 72 :: v.tail := by
    rcases hv with ⟨rfl, _⟩ | ⟨rfl, _⟩ <;> rfl
  have hfirst := takes_marked (R := R) (w := []) (g := g) (d := ((q, n), c)) (b := 72) (Prod.ext rfl hmark) hne hquiet
  have hreached' : reached (step [main] (72 : UInt8).toNat).1 v.tail = behindVersion := by
    have hcons : reached [main] (72 :: v.tail) = behindVersion := by rw [← htext, hreached]
    exact hcons
  rw [← htext, hreached'] at hfirst
  have hversion : charsToVersion R ⟨0, distance v.length 0⟩ = some version := by
    rw [hR]
    exact charsToVersion_text hv
  have hend := takes_handed (R := R) (w := v) (g := markedAt g 0) (b := 32) hspace token_ne_nil.1 rfl
    (callback_version (d := ((q, n), c)) hversion)
  exact ⟨_, hfirst.append hend⟩

theorem digit_mem {n : Nat} {b : UInt8} (hb : b ∈ decimal n) : digits.mem b.toNat = true := by
  have hrange := decimal_printable hb
  simp [digits, CharSet.mem, CharSet.within, hrange]

/-- What is read of a number that a blank ends. -/
theorem atoi_decimal {n : Nat} (h : n < 2 ^ 32) : atoi (decimal n ++ 32 :: r) = toInt32 n := by
  obtain ⟨b, bs, hb⟩ := List.exists_cons_of_ne_nil (decimal_ne_nil n)
  have hdigits : LjrServer.Http.digits 10 0 (decimal n ++ 32 :: r) = n := by
    rw [digits_append _ _ _ fun b hb => decimal_digit hb, digits_stop (by decide), digits_decimal]
  have hfirst : (digitVal 16 b).isSome = true := by
    have hrange := decimal_printable (n := n) (b := b) (by rw [hb]; exact List.mem_cons_self)
    exact isDigit_digitVal (by simp [isDigit, hrange])
  rw [hb, List.cons_append] at hdigits ⊢
  rw [atoi, strtol_of_digit hfirst (.inl (by decide)), hdigits, min_eq_left (by omega)]

theorem takes_status {n : Nat} {status : Int} (hn : n < 2 ^ 32) (hstatus : toInt32 n = status)
    (hR : R = w ++ (decimal n ++ 32 :: r)) :
    ∃ g', responseScan.Takes R w (decimal n ++ [32]) ⟨beforeStatus, g, d⟩
      ⟨beforeReason, g', (({ d.1.1 with status }, d.1.2), d.2)⟩ := by
  have hatoi : atoi (R.drop w.length) = status := by
    rw [hR, List.drop_left, atoi_decimal hn, hstatus]
  have hall : ∀ b ∈ decimal n, digits.mem b.toNat = true := fun b hb => digit_mem hb
  obtain ⟨b, bs, hb⟩ := List.exists_cons_of_ne_nil (decimal_ne_nil n)
  rw [hb] at hall ⊢
  obtain ⟨hquiet, hreached⟩ := quietly_loop token_ne_nil.2.1 fun c hc =>
    (digit_step (hall c (List.mem_cons_of_mem _ hc))).2
  have hfirst := takes_marked (R := R) (w := w) (g := g) (d := d) (digit_step (hall b List.mem_cons_self)).1
    token_ne_nil.2.1 hquiet
  rw [hreached] at hfirst
  have hend := takes_handed (R := R) (w := w ++ b :: bs) (g := markedAt g w.length) (b := 32) statusLine_marks.2.2.2.1
    token_ne_nil.2.2.1 rfl (callback_status (d := d) hatoi)
  exact ⟨_, hfirst.append hend⟩

theorem takes_reason {reason : Bytes} (hne : reason ≠ []) (hreason : ∀ b ∈ reason, b ≠ 13 ∧ b ≠ 10)
    (hR : R = w ++ (reason ++ [13, 10] ++ r)) (h64 : reason.length < 2 ^ 64) :
    ∃ g', responseScan.Takes R w (reason ++ [13, 10]) ⟨beforeReason, g, d⟩
      ⟨[lined .eps], g', (({ d.1.1 with reason }, d.1.2), d.2)⟩ := by
  obtain ⟨_, _, _, _, hreturn, hnewline, _⟩ := statusLine_marks
  have htext : stringAt R ⟨w.length, distance (w ++ reason).length w.length⟩ = some reason :=
    stringAt_upto (r := [13, 10] ++ r) (by rw [hR, List.append_assoc]) h64
  obtain ⟨b, x, rfl⟩ := List.exists_cons_of_ne_nil hne
  obtain ⟨hquiet, hreached⟩ := quietly_loop token_ne_nil.2.2.2.1 fun c hc =>
    (reason_step (hreason c (List.mem_cons_of_mem _ hc))).2
  have hfirst := takes_marked (R := R) (w := w) (g := g) (d := d) (reason_step (hreason b List.mem_cons_self)).1
    token_ne_nil.2.2.2.1 hquiet
  rw [hreached] at hfirst
  have hend := takes_handed (R := R) (w := w ++ b :: x) (g := markedAt g w.length) (b := 13) hreturn
    token_ne_nil.2.2.2.2 rfl (callback_reason (d := d) htext)
  have hnewline : step reasonEnd (10 : UInt8).toNat = ([lined .eps], []) := hnewline
  have hline := takes_acts (R := R) (w := w ++ b :: x ++ [13]) (g := markedAt g w.length) (s := reasonEnd) (b := 10)
    (d := (({ d.1.1 with reason := b :: x }, d.1.2), d.2)) (m := (({ d.1.1 with reason := b :: x }, d.1.2), d.2))
    (by rw [hnewline]; simp) (by rw [hnewline]; simp) (by rw [hnewline]; rfl)
  rw [hnewline] at hline
  exact ⟨_, hfirst.append (hend.append hline)⟩

theorem atStart_start : AtStart [lined .eps] := by
  intro m hm
  exact ⟨.eps, by decide, List.mem_singleton.mp hm⟩

theorem at_start : At .start [lined .eps] :=
  ⟨.inl List.mem_cons_self, fun _ hm => ⟨.eps, List.mem_cons_self, List.mem_singleton.mp hm⟩, List.mem_cons_self⟩

theorem takes_statusLine {v reason : Bytes} {version : UInt8} {n : Nat} {status : Int}
    (hv : (v = HTTP_1_1 ∧ version = 0x11) ∨ (v = HTTP_1_0 ∧ version = 0x10)) (hn : n < 2 ^ 32)
    (hstatus : toInt32 n = status) (hne : reason ≠ [])
    (hreason : ∀ b ∈ reason, b ≠ 13 ∧ b ≠ 10) (h64 : reason.length < 2 ^ 64)
    (hR : R = v ++ 32 :: (decimal n ++ 32 :: (reason ++ [13, 10])) ++ r) :
    ∃ g', responseScan.Takes R [] (v ++ 32 :: (decimal n ++ 32 :: (reason ++ [13, 10]))) ⟨[main], g, d⟩
      ⟨[lined .eps], g', (({ d.1.1 with version, status, reason }, d.1.2), d.2)⟩ := by
  obtain ⟨⟨q, e⟩, c⟩ := d
  obtain ⟨g₁, h₁⟩ := takes_version (R := R) (g := g) (q := q) (n := e) (c := c) hv
    (r := decimal n ++ 32 :: (reason ++ [13, 10]) ++ r) (by rw [hR]; simp)
  obtain ⟨g₂, h₂⟩ := takes_status (R := R) (w := v ++ [32]) (g := g₁) (d := (({ q with version }, e), c)) hn hstatus
    (r := reason ++ [13, 10] ++ r) (by rw [hR]; simp)
  obtain ⟨g₃, h₃⟩ := takes_reason (R := R) (w := v ++ [32] ++ (decimal n ++ [32])) (g := g₂)
    (d := (({ q with version, status }, e), c)) hne hreason (r := r) (by rw [hR]; simp) h64
  have h := h₁.append (h₂.append h₃)
  have htext : v ++ [32] ++ (decimal n ++ [32] ++ (reason ++ [13, 10])) =
      v ++ 32 :: (decimal n ++ 32 :: (reason ++ [13, 10])) := by simp
  rw [htext] at h
  exact ⟨g₃, h⟩

end LjrServer.Http.HttpClient
