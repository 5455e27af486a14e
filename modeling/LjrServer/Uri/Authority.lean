/-
  LjrServer.Uri.Authority — what the machine does in an authority.

  Until '@' is read the text may be a userinfo, or a host and a port. A host may end where
  ':' follows, and nowhere before a ':' of its own.

  Proved:
  - `host_delimited`: no ':' ends a host but the one behind it.
  - `host_before_colon`: of a userinfo, what stands before its first ':' could be a host.
  - `authority_userinfo`, `authority_host`, `authority_end`, …: the actions on each byte.
-/

import LjrServer.Uri.Create

namespace LjrServer.UriParser

open LjrServer.Lib.Ragel LjrServer.Lib.Ragel.Machine
open LjrServer.Http (Bytes)

variable {w v u h : Bytes} {c : UInt8} {z : Nat × Action}

/-! ## Hosts -/

theorem toNat_eq {n : Nat} {d : UInt8} (hd : d.toNat = n) (h : n = c.toNat) : c = d :=
  UInt8.toNat_inj.mp (h.symm.trans hd.symm)

/-- A host is a bracketed literal, or neither begins with a bracket nor has a colon. -/
theorem host_cases (hf : host.Final h) :
    (∃ x, h = 91 :: (x ++ [93]) ∧ (93 : UInt8) ∉ x) ∨ ((58 : UInt8) ∉ h ∧ (91 : UInt8) ∉ h) := by
  rcases final_alt.mp hf with hlit | hrest
  · left
    cases h with
    | nil => exact absurd (final_nil.mp hlit) (by decide)
    | cons d h =>
      obtain ⟨hd, htail⟩ := after_cat_char.mp hlit
      obtain ⟨x, r, rfl, hx, hr⟩ := final_cat.mp htail
      have hnot : (93 : UInt8) ∉ x := fun hmem => not_after_of_avoids (by decide) hmem hx
      cases r with
      | nil => exact absurd (final_nil.mp hr) (by decide)
      | cons e r =>
        obtain ⟨he, hnil⟩ := after_char.mp hr
        rw [toNat_eq (d := 91) rfl hd, toNat_eq (d := 93) rfl he, final_eps.mp hnil]
        exact ⟨x, rfl, hnot⟩
  · right
    have havoids : ∀ c : UInt8, (alts [ipv4Address, regName] : M).avoids c.toNat = true → c ∉ h := fun c hc hmem =>
      not_after_of_avoids hc hmem hrest
    exact ⟨havoids 58 (by decide), havoids 91 (by decide)⟩

theorem host_delimited (hf : host.Final h) : host.Delimited (· = 58) h := by
  refine ⟨hf, ?_, ?_⟩
  · rintro v _ u rfl hv rfl
    rcases host_cases hf with ⟨x, hx, hnot⟩ | ⟨hcolon, _⟩
    · rcases host_cases hv with ⟨y, rfl, _⟩ | ⟨_, hbracket⟩
      · -- the first literal would end inside the whole one
        have htail : y ++ [93] ++ 58 :: u = x ++ [93] := (List.cons.inj hx).2
        have hdrop := congrArg List.dropLast htail
        rw [List.dropLast_concat, List.dropLast_append_of_ne_nil (List.cons_ne_nil _ _)] at hdrop
        exact hnot (hdrop ▸ by simp)
      · cases v with
        | nil => exact absurd (List.cons.inj hx).1 (by decide)
        | cons d v => exact hbracket ((List.cons.inj hx).1 ▸ List.mem_cons_self)
    · exact hcolon (List.mem_append_right _ List.mem_cons_self)
  · rintro _ rfl halive
    rcases alive_alt.mp halive with hlit | hrest
    · cases h with
      | nil => exact absurd hlit (alive_nil.not.mpr (by decide))
      | cons d h =>
        obtain ⟨hd, htail⟩ := after_cat_char.mp hlit
        rcases host_cases hf with ⟨x, hx, _⟩ | ⟨_, hbracket⟩
        · obtain ⟨rfl, rfl⟩ := List.cons.inj hx
          rcases alive_cat.mp htail with hin | ⟨v₁, v₂, he, _, hr⟩
          · exact not_after_of_avoids (c := 93) (by decide) (by simp) hin
          · cases v₂ with
            | nil => exact absurd hr (alive_nil.not.mpr (by decide))
            | cons e v₂ => exact not_alive_eps (after_char.mp hr).2
        · exact hbracket (toNat_eq (d := 91) rfl hd ▸ List.mem_cons_self)
    · exact not_alive_of_avoids (by decide) hrest

/-! ## Userinfo -/

/-- What may be repeated in a userinfo besides ':'. -/
theorem final_userinfo_piece (hp : (alts [unreserved, pctEncoded, subDelims, ch ':'] : M).Final v)
    (hcolon : (58 : UInt8) ∉ v) :
    (alts [unreserved, pctEncoded, subDelims] : M).Final v := by
  rcases final_alt.mp hp with hp | hp
  · exact final_alt.mpr (.inl hp)
  · rcases final_alt.mp hp with hp | hp
    · exact final_alt.mpr (.inr (final_alt.mpr (.inl hp)))
    · rcases final_alt.mp hp with hp | hp
      · exact final_alt.mpr (.inr (final_alt.mpr (.inr hp)))
      · cases v with
        | nil => exact absurd (final_nil.mp hp) (by decide)
        | cons d v =>
          obtain rfl : d = 58 := toNat_eq rfl (after_char.mp hp).1
          exact absurd List.mem_cons_self hcolon

theorem userinfo_colon_piece (hp : (alts [unreserved, pctEncoded, subDelims, ch ':'] : M).Final v)
    (hcolon : (58 : UInt8) ∈ v) :
    v = [58] := by
  have hrest : ¬ (alts [unreserved, pctEncoded, subDelims] : M).Final v :=
    not_after_of_avoids (by decide) hcolon
  have hchar : (ch ':' : M).Final v := by
    rcases final_alt.mp hp with hp | hp
    · exact absurd (final_alt.mpr (.inl hp)) hrest
    · rcases final_alt.mp hp with hp | hp
      · exact absurd (final_alt.mpr (.inr (final_alt.mpr (.inl hp)))) hrest
      · rcases final_alt.mp hp with hp | hp
        · exact absurd (final_alt.mpr (.inr (final_alt.mpr (.inr hp)))) hrest
        · exact hp
  cases v with
  | nil => cases hcolon
  | cons d v =>
    obtain ⟨hd, hv⟩ := after_char.mp hchar
    rw [toNat_eq (d := 58) rfl hd, final_eps.mp hv]

theorem words_before_colon {x y : Bytes}
    (hw : Words (alts [unreserved, pctEncoded, subDelims, ch ':'] : M).Final (x ++ 58 :: y)) (hx : (58 : UInt8) ∉ x) :
    Words (alts [unreserved, pctEncoded, subDelims] : M).Final x := by
  generalize ht : x ++ 58 :: y = t at hw
  induction hw generalizing x with
  | nil => simp at ht
  | @append p r hp _ ih =>
    rcases List.append_eq_append_iff.mp ht with ⟨q, rfl, hq⟩ | ⟨q, rfl, hq⟩
    · cases q with
      | nil =>
        -- the piece ends in front of the colon
        rw [List.append_nil] at hp
        have hpiece : Words (alts [unreserved, pctEncoded, subDelims] : M).Final (x ++ []) :=
          .append (final_userinfo_piece hp hx) .nil
        rwa [List.append_nil] at hpiece
      | cons d q =>
        cases hq
        have hcolon := userinfo_colon_piece hp (List.mem_append_right _ List.mem_cons_self)
        cases x with
        | nil => exact .nil
        | cons e x => simp at hcolon
    · rw [List.mem_append, not_or] at hx
      exact .append (final_userinfo_piece hp hx.1) (ih hx.2 hq.symm)

/-- A prefix of a userinfo before a ':' could be a host if it is the first one. -/
theorem host_before_colon {x y : Bytes} (hu : userinfo.Final (x ++ 58 :: y)) : host.Final x ↔ (58 : UInt8) ∉ x := by
  constructor
  · intro hf
    rcases host_cases hf with ⟨r, rfl, _⟩ | ⟨hcolon, _⟩
    · exact absurd hu (not_after_of_avoids (c := 91) (by decide) (by simp))
    · exact hcolon
  · intro hx
    exact final_alt.mpr (.inr (final_alt.mpr (.inr (final_star.mpr (words_before_colon (final_star.mp hu) hx)))))

/-! ## A host and a port -/

def hostPart : M := .leaving 5 .saveHost (.entering 4 .markh host)
def portPart : M := .leaving 7 .savePort (.entering 6 .markh port)
def hostPort : M := .cat hostPart (opt (.cat (ch ':') portPart))

/-- A port with its colon. -/
def portText : Option Bytes → Bytes
  | none => []
  | some d => 58 :: d

theorem colonPort_begins : (opt (.cat (ch ':') portPart)).Begins (· = 58) := by
  intro c hc
  exact toNat_eq rfl (alive_cat_char.mp (alive_opt.mp hc))

theorem hostPart_delimited (hf : host.Final h) : hostPart.Delimited (· = 58) h := (host_delimited hf).saved

theorem hostPart_pending : hostPart.Pending w z ↔ (w = [] ∧ z = (4, .markh)) ∨ (host.Final w ∧ z = (5, .saveHost)) := by
  have hnil : host.Final [] := final_nil.mpr (by decide)
  rw [hostPart, pending_saved (by decide)]
  simp [hnil]

section
variable (hf : host.Final h)
include hf

theorem hostPort_acts_host (hw : h = v ++ c :: u) : hostPort.Acts v c z ↔ v = [] ∧ z = (4, .markh) := by
  rw [hostPort, (hostPart_delimited hf).inside colonPort_begins hw, hostPart, acts_saved (by decide)]
  refine and_congr_right fun hv => and_iff_left ?_
  subst hv
  exact alive_of_after (w := []) (hw ▸ hf)

theorem hostPort_acts_colon : hostPort.Acts h 58 z ↔ (h = [] ∧ z = (4, .markh)) ∨ z = (5, .saveHost) := by
  have hat := (hostPart_delimited hf).acts_cat colonPort_begins (u := []) (c := 58) (z := z) (by simp) fun _ => rfl
  have halive : (opt (.cat (ch ':') portPart)).Alive [] 58 := alive_opt.mpr (alive_cat_char.mpr rfl)
  have hnone : ¬ (opt (.cat (ch ':') portPart)).Acts [] 58 z := fun hz => not_acts_cat_char (acts_opt.mp hz)
  rw [List.append_nil] at hat
  rw [hostPort, hat, hostPart_pending, or_iff_left hnone]
  simp [hf, halive]

theorem hostPort_acts_port {d : Bytes} (hd : port.Final d) (hw : d = v ++ c :: u) :
    hostPort.Acts (h ++ 58 :: v) c z ↔ v = [] ∧ z = (6, .markh) := by
  have hne : ¬ (58 :: v : Bytes) = [] := List.cons_ne_nil _ _
  rw [hostPort, (hostPart_delimited hf).acts_cat colonPort_begins (u := 58 :: v) (by simp) fun he => absurd he hne]
  rw [or_iff_right fun he => hne he.1, acts_opt, acts_cat_char, and_iff_right (by rfl), portPart,
    acts_saved (by decide)]
  refine and_congr_right fun hv => and_iff_left ?_
  subst hv
  exact alive_of_after (w := []) (hw ▸ hd)

/-- What is pending after a host and a port. -/
def pendingActs (h : Bytes) : Option Bytes → List (Nat × Action)
  | none => (if h = [] then [(4, .markh)] else []) ++ [(5, .saveHost)]
  | some d => (if d = [] then [(6, .markh)] else []) ++ [(7, .savePort)]

theorem hostPort_pending {d : Option Bytes} (hd : ∀ x ∈ d, port.Final x) :
    hostPort.Pending (h ++ portText d) z ↔ z ∈ pendingActs h d := by
  have hbegin : ∀ c ∈ (portText d).head?, c = 58 := by
    cases d <;> simp [portText]
  have hnull : (opt (.cat (ch ':') portPart)).Final [] := final_opt.mpr (.inr rfl)
  rw [hostPort, (hostPart_delimited hf).pending_cat colonPort_begins hbegin, hostPart_pending, pending_opt]
  cases d with
  | none =>
    have hnone : ¬ (Machine.cat (ch ':') portPart).Pending [] z := fun hz => not_final_cat_char hz.final
    by_cases hh : h = [] <;> simp [portText, pendingActs, hf, hnull, hnone, hh]
    exact or_congr Iff.rfl (and_iff_right (hh ▸ hf))
  | some x =>
    have hx : port.Final x := hd x rfl
    have hport : (Machine.cat (ch ':') portPart).Pending (58 :: x) z ↔ portPart.Pending x z :=
      after_cat_char.trans (and_iff_right rfl)
    have hnil : port.Final [] := final_nil.mpr (by decide)
    rw [portText, hport, portPart, pending_saved (by decide)]
    by_cases hx' : x = [] <;> simp [pendingActs, hx', hnil]
    exact fun _ => hx

theorem hostPort_final {d : Option Bytes} (hd : ∀ x ∈ d, port.Final x) : hostPort.Final (h ++ portText d) := by
  refine final_cat.mpr ⟨h, _, rfl, (hostPart_delimited hf).final, final_opt.mpr ?_⟩
  cases d with
  | none => exact .inr rfl
  | some x => exact .inl (after_cat_char.mpr ⟨rfl,
      by rw [portPart]; exact final_leaving.mpr (final_entering.mpr (hd x rfl))⟩)

end

/-- What it does in a text that need not be a host. -/
theorem hostPort_acts : hostPort.Acts w c z ↔ (w = [] ∧ z = (4, .markh) ∧ host.Alive [] c) ∨
    (((w = [] ∧ z = (4, .markh)) ∨ (host.Final w ∧ z = (5, .saveHost))) ∧ c = 58) ∨
    ∃ x, w = x ++ [58] ∧ host.Final x ∧ z = (6, .markh) ∧ port.Alive [] c := by
  have halive : (opt (.cat (ch ':') portPart)).Alive [] c ↔ c = 58 :=
    ⟨colonPort_begins c, fun hc => hc ▸ alive_opt.mpr (alive_cat_char.mpr rfl)⟩
  rw [hostPort, acts_cat, hostPart_pending, halive, hostPart, acts_saved (by decide)]
  refine or_congr Iff.rfl (or_congr Iff.rfl ?_)
  simp only [final_leaving, final_entering]
  constructor
  · rintro ⟨x, y, rfl, hx, hy⟩
    cases y with
    | nil => exact absurd (acts_opt.mp hy) not_acts_cat_char
    | cons e y =>
      obtain ⟨he, hy⟩ := acts_cat_char.mp (acts_opt.mp hy)
      obtain ⟨rfl, hz⟩ := (acts_saved (by decide)).mp hy
      rw [toNat_eq (d := 58) rfl he]
      exact ⟨x, rfl, hx, hz⟩
  · rintro ⟨x, rfl, hx, hz⟩
    exact ⟨x, [58], rfl, hx, acts_opt.mpr (acts_cat_char.mpr ⟨rfl, (acts_saved (by decide)).mpr ⟨rfl, hz⟩⟩)⟩

/-! ## With a userinfo, or without -/

def userinfoPart : M := .cat (.leaving 3 .saveUserinfo userinfo) (ch '@')

theorem authority_eq : authority 2 = .entering 2 .markh (.cat (opt userinfoPart) hostPort) := rfl

theorem userinfoPart_acts : userinfoPart.Acts w c z ↔ userinfo.Final w ∧ z = (3, .saveUserinfo) ∧ c = 64 := by
  have hplain : (userinfo : M).actions = [] := by decide
  have hchar : ∀ v, ¬ (ch '@' : M).Acts v c z := fun v => not_acts rfl
  have halive : (ch '@' : M).Alive [] c ↔ c = 64 := alive_char.trans ⟨toNat_eq rfl, fun h => h ▸ rfl⟩
  rw [userinfoPart, acts_cat, acts_leaving, pending_leaving, halive]
  simp only [not_acts hplain, not_pending hplain, hchar, false_or, and_false, exists_false, or_false, and_assoc]

theorem userinfoPart_final : userinfoPart.Final w ↔ ∃ u, w = u ++ [64] ∧ userinfo.Final u := by
  rw [userinfoPart, final_cat]
  constructor
  · rintro ⟨v, u, rfl, hv, hu⟩
    cases u with
    | nil => exact absurd hu not_final_char
    | cons d u =>
      obtain ⟨hd, hu⟩ := after_char.mp hu
      rw [toNat_eq (d := 64) rfl hd, final_eps.mp hu]
      exact ⟨v, rfl, final_leaving.mp hv⟩
  · rintro ⟨u, rfl, hu⟩
    exact ⟨u, [64], rfl, final_leaving.mpr hu, after_char.mpr ⟨rfl, rfl⟩⟩

theorem userinfo_at (hu : userinfo.Final u) : (64 : UInt8) ∉ u := fun hmem => not_after_of_avoids (by decide) hmem hu

theorem userinfoPart_delimited (hu : userinfo.Final u) : userinfoPart.Delimited (fun _ => True) (u ++ [64]) := by
  refine ⟨userinfoPart_final.mpr ⟨u, rfl, hu⟩, ?_, ?_⟩
  · intro v c r hw hv _
    obtain ⟨x, rfl, _⟩ := userinfoPart_final.mp hv
    have hdrop := congrArg List.dropLast hw
    rw [List.dropLast_concat, List.dropLast_append_of_ne_nil (List.cons_ne_nil _ _)] at hdrop
    exact userinfo_at hu (hdrop ▸ by simp)
  · rintro c - halive
    rcases alive_cat.mp halive with hin | ⟨v₁, v₂, he, hf, hr⟩
    · exact not_after_of_avoids (c := 64) (m := userinfo) (by decide) (by simp) (alive_leaving.mp hin)
    · cases v₂ with
      | nil =>
        rw [List.append_nil] at he
        exact userinfo_at (final_leaving.mp hf) (he ▸ by simp)
      | cons e v₂ => exact not_alive_eps (after_char.mp hr).2

theorem not_userinfoPart_pending : ¬ userinfoPart.Pending w z := by
  have hchar : ∀ v, ¬ (ch '@' : M).Pending v z := fun v => not_pending rfl
  rw [userinfoPart, pending_cat]
  simp [hchar, not_final_char]

theorem not_userinfo_hostPort (hw : (64 : UInt8) ∉ w) :
    (∀ v u, w = v ++ u → ¬ userinfoPart.Final v) := by
  intro v u he hv
  obtain ⟨x, rfl, _⟩ := userinfoPart_final.mp hv
  exact hw (he ▸ by simp)

/-- Before any '@'. -/
theorem authority_acts (hw : (64 : UInt8) ∉ w) : (authority 2).Acts w c z ↔
    hostPort.Acts w c z ∨ (userinfo.Final w ∧ z = (3, .saveUserinfo) ∧ c = 64) ∨
      (w = [] ∧ z = (2, .markh) ∧ (Machine.cat (opt userinfoPart) hostPort).Alive [] c) := by
  have hsplit : ¬ ∃ v u, w = v ++ u ∧ userinfoPart.Final v ∧ hostPort.Acts u c z := fun ⟨v, u, he, hv, _⟩ =>
    not_userinfo_hostPort hw v u he hv
  rw [authority_eq, acts_entering, acts_cat_opt, acts_cat, userinfoPart_acts, or_iff_left hsplit]
  simp only [not_userinfoPart_pending, false_and, or_false]
  rw [or_assoc, or_left_comm]

theorem authority_pending (hw : (64 : UInt8) ∉ w) : (authority 2).Pending w z ↔
    hostPort.Pending w z ∨ (w = [] ∧ z = (2, .markh)) := by
  have hsplit : ¬ ∃ v u, w = v ++ u ∧ userinfoPart.Final v ∧ hostPort.Pending u z := fun ⟨v, u, he, hv, _⟩ =>
    not_userinfo_hostPort hw v u he hv
  have hnil : (Machine.cat (opt userinfoPart) hostPort).Final [] := final_nil.mpr (by decide)
  rw [authority_eq, pending_entering, pending_cat_opt, pending_cat, or_iff_left hsplit]
  simp only [not_userinfoPart_pending, false_and, false_or, hnil, and_true]

section
variable (hu : userinfo.Final u)
include hu

/-- Behind it. -/
theorem authority_acts_after : (authority 2).Acts (u ++ [64] ++ w) c z ↔ hostPort.Acts w c z := by
  have hdead : ¬ hostPort.Acts (u ++ [64] ++ w) c z := not_after_of_avoids (c := 64) (by decide) (by simp)
  rw [authority_eq, acts_entering, acts_cat_opt, or_iff_left hdead, or_iff_left (by simp),
    (userinfoPart_delimited hu).acts_cat (fun _ _ => trivial) (fun _ _ => trivial) fun _ => trivial]
  simp only [not_userinfoPart_pending, false_and, and_false, false_or]

theorem authority_pending_after : (authority 2).Pending (u ++ [64] ++ w) z ↔ hostPort.Pending w z := by
  have hdead : ¬ hostPort.Pending (u ++ [64] ++ w) z := not_after_of_avoids (c := 64) (by decide) (by simp)
  rw [authority_eq, pending_entering, pending_cat_opt, or_iff_left hdead, or_iff_left (by simp),
    (userinfoPart_delimited hu).pending_cat (fun _ _ => trivial) fun _ _ => trivial]
  simp only [not_userinfoPart_pending, false_and, and_false, false_or]

end

/-- A userinfo with its '@'. -/
def userinfoText : Option Bytes → Bytes
  | none => []
  | some u => u ++ [64]

theorem authority_final {o : Option Bytes} (ho : ∀ u ∈ o, userinfo.Final u) (hw : hostPort.Final w) :
    (authority 2).Final (userinfoText o ++ w) := by
  rw [authority_eq, final_entering, final_cat_opt]
  cases o with
  | none => exact .inr hw
  | some u => exact .inl (final_cat.mpr ⟨_, w, rfl, userinfoPart_final.mpr ⟨u, rfl, ho u rfl⟩, hw⟩)

/-! ## Behind a userinfo, or at the begin -/

theorem host_at (hf : host.Final h) : (64 : UInt8) ∉ h := fun hmem => not_after_of_avoids (by decide) hmem hf

/-- The actions on the first byte. -/
def firstActs (o : Option Bytes) : List (Nat × Action) := (if o = none then [(2, .markh)] else []) ++ [(4, .markh)]

section
variable {o : Option Bytes} (ho : ∀ u ∈ o, userinfo.Final u)
include ho

theorem authority_acts_at (hw : (64 : UInt8) ∉ w) (hc : c ≠ 64) (ha : hostPort.Alive w c) :
    (authority 2).Acts (userinfoText o ++ w) c z ↔ hostPort.Acts w c z ∨ (o = none ∧ w = [] ∧ z = (2, .markh)) := by
  cases o with
  | some u => simpa [userinfoText] using authority_acts_after (w := w) (c := c) (z := z) (ho u rfl)
  | none =>
    have halive : w = [] → (Machine.cat (opt userinfoPart) hostPort).Alive [] c := by
      rintro rfl
      exact alive_cat.mpr (.inr ⟨[], [], rfl, rfl, ha⟩)
    rw [userinfoText, List.nil_append, authority_acts hw]
    refine or_congr Iff.rfl ?_
    constructor
    · rintro (⟨_, _, rfl⟩ | ⟨hnil, hz, _⟩)
      · exact absurd rfl hc
      · exact ⟨rfl, hnil, hz⟩
    · rintro ⟨_, hnil, hz⟩
      exact .inr ⟨hnil, hz, halive hnil⟩

theorem authority_pending_at (hw : (64 : UInt8) ∉ w) :
    (authority 2).Pending (userinfoText o ++ w) z ↔ hostPort.Pending w z ∨ (o = none ∧ w = [] ∧ z = (2, .markh)) := by
  cases o with
  | some u => simpa [userinfoText] using authority_pending_after (w := w) (z := z) (ho u rfl)
  | none => simpa [userinfoText] using authority_pending hw

section
variable {d : Option Bytes} (hf : host.Final h) (hd : ∀ x ∈ d, port.Final x)
include hf

theorem authority_host (hw : h = v ++ c :: u) :
    (authority 2).Acts (userinfoText o ++ v) c z ↔ z ∈ if v = [] then firstActs o else [] := by
  have hat : (64 : UInt8) ∉ v ++ c :: u := hw ▸ host_at hf
  simp only [List.mem_append, List.mem_cons, not_or] at hat
  have halive : hostPort.Alive v c := by
    have hfinal : hostPort.Final (h ++ []) := hostPort_final (d := none) hf (by simp)
    rw [List.append_nil, hw] at hfinal
    exact alive_of_after hfinal
  rw [authority_acts_at ho hat.1 (Ne.symm hat.2.1) halive, hostPort_acts_host hf hw]
  by_cases hv : v = [] <;> cases o <;> simp [hv, firstActs, or_comm]

theorem authority_colon : (authority 2).Acts (userinfoText o ++ h) 58 z ↔
    z ∈ (if h = [] then firstActs o else []) ++ [(5, .saveHost)] := by
  have halive : hostPort.Alive h 58 := by
    have hfinal := hostPort_final (d := some []) hf (by rintro x ⟨⟩; rfl)
    exact alive_of_after hfinal
  rw [authority_acts_at ho (host_at hf) (by decide) halive, hostPort_acts_colon hf]
  by_cases hh : h = [] <;> cases o <;> simp [hh, firstActs, or_comm]

include hd

theorem authority_port {x : Bytes} (hx : d = some x) (hw : x = v ++ c :: u) :
    (authority 2).Acts (userinfoText o ++ (h ++ 58 :: v)) c z ↔ z ∈ if v = [] then [(6, .markh)] else [] := by
  have hport : port.Final x := hd x hx
  have hat : (64 : UInt8) ∉ v ++ c :: u := hw ▸ fun hmem => not_after_of_avoids (by decide) hmem hport
  simp only [List.mem_append, List.mem_cons, not_or] at hat
  have hnot : (64 : UInt8) ∉ h ++ 58 :: v := by simp [host_at hf, hat.1]
  have halive : hostPort.Alive (h ++ 58 :: v) c := by
    have hfinal : hostPort.Final (h ++ 58 :: (v ++ c :: u)) := by
      have := hostPort_final hf hd
      rwa [hx, hw] at this
    rw [← List.cons_append, ← List.append_assoc] at hfinal
    exact alive_of_after hfinal
  rw [authority_acts_at ho hnot (Ne.symm hat.2.1) halive, hostPort_acts_port hf hport hw]
  by_cases hv : v = [] <;> simp [hv]

theorem authority_end : (authority 2).Pending (userinfoText o ++ (h ++ portText d)) z ↔
    z ∈ (if o = none ∧ h ++ portText d = [] then [(2, .markh)] else []) ++ pendingActs h d := by
  have hat : (64 : UInt8) ∉ h ++ portText d := by
    have hport : ∀ x ∈ d, (64 : UInt8) ∉ x := fun x hx hmem => not_after_of_avoids (by decide) hmem (hd x hx)
    cases d <;> simp_all [portText, host_at hf]
  rw [authority_pending_at ho hat, hostPort_pending hf hd, List.mem_append, or_comm]
  refine or_congr ?_ Iff.rfl
  split <;> simp_all

end

end

/-! ## In a userinfo -/

/-- A decimal digit. -/
def IsDigit (c : UInt8) : Prop := 48 ≤ c.toNat ∧ c.toNat ≤ 57

instance (c : UInt8) : Decidable (IsDigit c) := inferInstanceAs (Decidable (_ ∧ _))

theorem port_alive : port.Alive [] c ↔ IsDigit c := by
  rw [port, alive_star, alive_nil, digit, edges]
  simp [CharSet.mem, CharSet.within, IsDigit]

def beforeColon (v : Bytes) : Bytes := v.takeWhile (· ≠ 58)

/-- From the first ':' on. -/
def fromColon (v : Bytes) : Bytes := v.dropWhile (· ≠ 58)

theorem beforeColon_append (v : Bytes) : beforeColon v ++ fromColon v = v := List.takeWhile_append_dropWhile

theorem not_mem_beforeColon (v : Bytes) : (58 : UInt8) ∉ beforeColon v := by
  intro hmem
  have hall := List.all_takeWhile (p := fun c : UInt8 => decide (c ≠ 58)) (l := v)
  simpa using List.all_eq_true.mp hall 58 hmem

theorem fromColon_head {x : Bytes} {d : UInt8} (h : fromColon v = d :: x) : d = 58 := by
  have hhead := List.head?_dropWhile_not (· ≠ 58) v
  rw [show v.dropWhile (· ≠ 58) = d :: x from h] at hhead
  simpa using hhead

theorem beforeColon_eq {x y : Bytes} (hx : (58 : UInt8) ∉ x) :
    beforeColon (x ++ 58 :: y) = x ∧ fromColon (x ++ 58 :: y) = 58 :: y := by
  have hne : ∀ c ∈ x, decide (c ≠ 58) = true := fun c hc => decide_eq_true fun h => hx (h ▸ hc)
  constructor
  · rw [beforeColon, List.takeWhile_append_of_pos hne]
    simp
  · rw [fromColon, List.dropWhile_append_of_pos hne]
    simp

theorem fromColon_nil (hv : (58 : UInt8) ∉ v) : fromColon v = [] := by
  cases h : fromColon v with
  | nil => rfl
  | cons d x =>
    have hparts := beforeColon_append v
    rw [h, fromColon_head h] at hparts
    exact absurd (hparts ▸ by simp) hv

/-- Up to the first ':', and it. -/
def EndsAtColon (v : Bytes) : Prop := fromColon v = [58]

instance (v : Bytes) : Decidable (EndsAtColon v) := inferInstanceAs (Decidable (_ = _))

theorem endsAtColon_iff : EndsAtColon v ↔ ∃ x, v = x ++ [58] ∧ (58 : UInt8) ∉ x := by
  constructor
  · intro h
    have hparts := beforeColon_append v
    rw [h] at hparts
    exact ⟨beforeColon v, hparts.symm, not_mem_beforeColon v⟩
  · rintro ⟨x, rfl, hx⟩
    exact (beforeColon_eq hx).2

theorem userinfo_first (hc : userinfo.Alive [] c) : host.Alive [] c ∨ c = 58 := by
  have hreg : (alts [unreserved, pctEncoded, subDelims] : M).Alive [] c → host.Alive [] c := fun h =>
    alive_alt.mpr (.inr (alive_alt.mpr (.inr (alive_star.mpr h))))
  rcases alive_alt.mp (alive_star.mp hc) with h | h
  · exact .inl (hreg (alive_alt.mpr (.inl h)))
  · rcases alive_alt.mp h with h | h
    · exact .inl (hreg (alive_alt.mpr (.inr (alive_alt.mpr (.inl h)))))
    · rcases alive_alt.mp h with h | h
      · exact .inl (hreg (alive_alt.mpr (.inr (alive_alt.mpr (.inr h)))))
      · exact .inr (toNat_eq rfl (alive_char.mp h))

/-- What a userinfo's bytes execute while they may be a host and a port. -/
def userinfoActs (v : Bytes) (c : UInt8) : List (Nat × Action) :=
  (if v = [] then firstActs none else []) ++
    ((if c = 58 ∧ (58 : UInt8) ∉ v then [(5, .saveHost)] else []) ++
      (if EndsAtColon v ∧ IsDigit c then [(6, .markh)] else []))

section
variable {r : Bytes} (hu : userinfo.Final u)
include hu

theorem authority_userinfo (hw : u = v ++ c :: r) : (authority 2).Acts v c z ↔ z ∈ userinfoActs v c := by
  have hat : (64 : UInt8) ∉ v ++ c :: r := hw ▸ userinfo_at hu
  simp only [List.mem_append, List.mem_cons, not_or] at hat
  have halive : userinfo.Alive v c := alive_of_after (hw ▸ hu)
  have hfirst : v = [] → host.Alive [] c ∨ c = 58 := fun hv => userinfo_first (hv ▸ halive)
  have hhost : c = 58 → (host.Final v ↔ (58 : UInt8) ∉ v) := fun hc =>
      host_before_colon (y := r) (by rw [← hc, ← hw]; exact hu)
  have hcolon : (∃ x, v = x ++ [58] ∧ host.Final x) ↔ EndsAtColon v := by
    rw [endsAtColon_iff]
    refine exists_congr fun x => and_congr_right fun hx => host_before_colon (y := c :: r) ?_
    rw [hx, List.append_assoc] at hw
    exact hw ▸ hu
  have hbegin : v = [] → (Machine.cat (opt userinfoPart) hostPort).Alive [] c := by
    rintro rfl
    exact alive_cat.mpr (.inl (alive_opt.mpr (alive_cat.mpr (.inl (alive_leaving.mpr halive)))))
  rw [authority_acts hat.1, hostPort_acts, port_alive]
  have hnot : ¬ c = 64 := Ne.symm hat.2.1
  have hport : (∃ x, v = x ++ [58] ∧ host.Final x ∧ z = (6, .markh) ∧ IsDigit c) ↔
      (EndsAtColon v ∧ IsDigit c) ∧ z = (6, .markh) := by
    rw [← hcolon]
    grind
  rw [hport]
  have hnil : host.Final [] := rfl
  rcases Decidable.em (v = []) with rfl | hv
  · simp only [userinfoActs, firstActs, hnil, hbegin, hnot, List.mem_append, List.mem_ite_nil_right, List.mem_singleton]
    rcases hfirst rfl with h | rfl <;> grind
  · by_cases hc : c = 58
    · simp [userinfoActs, hv, hc, hhost hc]
    · simp [userinfoActs, hv, hnot, hc]

theorem authority_at : (authority 2).Acts u 64 z ↔
    z ∈ (if u = [] then [(2, .markh)] else []) ++ [(3, .saveUserinfo)] := by
  have hhost : ¬ host.Alive [] 64 := alive_nil.not.mpr (by decide)
  have hdigit : ¬ IsDigit 64 := by decide
  have hbegin : (Machine.cat (opt userinfoPart) hostPort).Alive [] 64 := alive_nil.mpr (by decide)
  have hcolon : ¬ (64 : UInt8) = 58 := by decide
  rw [authority_acts (userinfo_at hu), hostPort_acts, port_alive]
  simp only [hhost, hdigit, hbegin, hcolon, hu, and_false, exists_false, false_or, true_and, and_true, List.mem_append,
    List.mem_singleton]
  by_cases hnil : u = [] <;> simp [hnil, or_comm]

end

end LjrServer.UriParser
