/-
  LjrServer.Net.Lookup — how `Address::Lookup` (address.cpp) splits a host into the node and the
  service for `getaddrinfo`, which gets both as C strings.

  A pointer is its place in `host.c_str()`, the bytes of the host with a NUL behind. `none` is a
  read past that NUL.

  Proved:
  - `lookup_bracketed`, `lookup_plain`, `lookup_single`, `lookup_several`: the pair for every host.
  - `splits_right_iff`: no read is past the NUL, and the pair is right but for a host without
    brackets that has two ':' or more, whose service is the text from the first ':' on.
-/

import LjrServer.Http.Message

namespace LjrServer.Net

open LjrServer.Http (Bytes bytes)

/-- `memchr(p, c, n)`: the place of the first `c`, if there is one; it stops there. -/
def memchr (mem : Bytes) (c : UInt8) : Nat → Nat → Option (Option Nat)
  | _, 0 => some none
  | p, n + 1 => do
    let b ← mem[p]?
    if b = c then some (some p) else memchr mem c (p + 1) n

namespace Address

def cStr (host : Bytes) : Bytes := host ++ [0]

/-- `[node]` or `[node]:service` -/
def findBracket (host : Bytes) : Option (Bytes × Option Nat) :=
  if host.head? = some 91 then do
    match ← memchr (cStr host) 93 1 (host.length - 1) with
    | none => some ([], none)
    | some endipv6 => do
      let next ← (cStr host)[endipv6 + 1]?
      some ((host.drop 1).take (endipv6 - 1), if next = 58 then some (endipv6 + 2) else none)
  else some ([], none)

/-- `node:service`. The service stays where the first ':' is when there is a second one. -/
def findColon (host : Bytes) : Option (Bytes × Option Nat) := do
  match ← memchr (cStr host) 58 0 host.length with
  | none => some ([], none)
  | some service =>
    match ← memchr (cStr host) 58 (service + 1) (host.length - service - 1) with
    | none => some (host.take service, some (service + 1))
    | some _ => some ([], some service)

/-- The text a pointer points at, up to the end of the host. -/
def textAt (host : Bytes) (p : Nat) : Option Bytes := if p < (cStr host).length then some (host.drop p) else none

/-- What `getaddrinfo` is called with. -/
def lookup (host : Bytes) : Option (Bytes × Option Bytes) := do
  let (node, service) ← findBracket host
  let (node, service) ← if node = [] then findColon host else some (node, service)
  let node := if node = [] then host else node
  match service with
  | none => some (node, none)
  | some p => do
    let text ← textAt host p
    some (node, some text)

/-- No brackets. -/
def Unbracketed (host : Bytes) : Prop := 91 ∉ host ∧ 93 ∉ host

instance (host : Bytes) : Decidable (Unbracketed host) := inferInstanceAs (Decidable (_ ∧ _))

/-- The pair a host should be split into. -/
structure SplitsRight (host : Bytes) (passed : Bytes × Option Bytes) : Prop where
  bracketed : ∀ x s, x ≠ [] → 93 ∉ x → host = 91 :: (x ++ 93 :: 58 :: s) → passed = (x, some s)
  bare : ∀ x, x ≠ [] → 93 ∉ x → host = 91 :: (x ++ [93]) → passed = (x, none)
  single : Unbracketed host → ∀ node service, node ≠ [] → 58 ∉ node → 58 ∉ service → host = node ++ 58 :: service →
    passed = (node, some service)
  whole : Unbracketed host → host.count 58 ≠ 1 → passed = (host, none)

/-! ## Searching -/

variable {host a b x rest : Bytes} {c : UInt8} {p n : Nat}

theorem memchr_none : ∀ {n p : Nat}, p + n ≤ host.length → c ∉ (host.drop p).take n →
    memchr (cStr host) c p n = some none
  | 0, _, _, _ => rfl
  | n + 1, p, hle, hc => by
    have hp : p < host.length := by omega
    rw [List.drop_eq_getElem_cons hp, List.take_succ_cons] at hc
    have hread : (cStr host)[p]? = some host[p] := by
      rw [cStr, List.getElem?_append_left hp, List.getElem?_eq_getElem hp]
    have hne : host[p] ≠ c := fun h => hc (h ▸ List.mem_cons_self)
    have ih := memchr_none (show p + 1 + n ≤ host.length by omega) fun h => hc (List.mem_cons_of_mem _ h)
    rw [memchr, hread]
    show (if host[p] = c then _ else _) = _
    rw [if_neg hne, ih]

/-- The first `c` behind a place. -/
theorem memchr_some (hc : c ∉ b) (hhost : host = a ++ (b ++ c :: rest)) (hp : p = a.length) (hn : b.length < n) :
    memchr (cStr host) c p n = some (some (p + b.length)) := by
  induction b generalizing a p n with
  | nil =>
    obtain ⟨n, rfl⟩ := Nat.exists_eq_succ_of_ne_zero (show n ≠ 0 by omega)
    have hread : (cStr host)[p]? = some c := by simp [cStr, hhost, hp]
    rw [memchr, hread]
    exact if_pos rfl
  | cons y b ih =>
    obtain ⟨n, rfl⟩ := Nat.exists_eq_succ_of_ne_zero (show n ≠ 0 by omega)
    have hread : (cStr host)[p]? = some y := by simp [cStr, hhost, hp]
    have hne : y ≠ c := fun h => hc (h ▸ List.mem_cons_self)
    have hb : memchr (cStr host) c (p + 1) n = some (some (p + 1 + b.length)) :=
      ih (fun h => hc (List.mem_cons_of_mem _ h)) (hhost.trans (List.append_cons a y _)) (by rw [hp]; simp)
        (Nat.lt_of_succ_lt_succ hn)
    rw [memchr, hread]
    show (if y = c then _ else _) = _
    rw [if_neg hne, hb, List.length_cons, Nat.add_assoc, Nat.add_comm 1]

theorem findBracket_bracketed (hx : 93 ∉ x) (hhost : host = 91 :: (x ++ 93 :: rest)) :
    findBracket host = some (x, if rest.headD 0 = 58 then some (x.length + 3) else none) := by
  have hend : memchr (cStr host) 93 1 (host.length - 1) = some (some (1 + x.length)) :=
    memchr_some (a := [91]) hx hhost rfl (by rw [hhost]; simp)
  have hnext : (cStr host)[1 + x.length + 1]? = some (rest.headD 0) := by
    have hcut : cStr host = 91 :: (x ++ [93]) ++ (rest ++ [0]) := by simp [cStr, hhost]
    have hlen : (91 :: (x ++ [93])).length = 1 + x.length + 1 := by simp [Nat.add_comm]
    rw [hcut, List.getElem?_append_right (by omega), hlen, Nat.sub_self]
    cases rest <;> rfl
  have hnode : (host.drop 1).take (1 + x.length - 1) = x := by simp [hhost]
  have hplace : 1 + x.length + 2 = x.length + 3 := by omega
  have hhead : host.head? = some 91 := by rw [hhost]; rfl
  rw [findBracket, if_pos hhead, hend]
  show ((cStr host)[1 + x.length + 1]?).bind _ = _
  rw [hnext, Option.bind_some, hnode, hplace]

theorem findBracket_empty (h : ¬ ∃ x rest, x ≠ [] ∧ 93 ∉ x ∧ host = 91 :: (x ++ 93 :: rest)) :
    ∃ service, findBracket host = some ([], service) := by
  by_cases hhead : host.head? = some 91
  · obtain ⟨r, rfl⟩ := List.head?_eq_some_iff.mp hhead
    by_cases hr : 93 ∈ r
    · obtain ⟨x, rest, rfl, hx⟩ := List.eq_append_cons_of_mem hr
      have hnil : x = [] := Decidable.byContradiction fun hne => h ⟨x, rest, hne, hx, rfl⟩
      have hfind := findBracket_bracketed hx (Eq.refl (91 :: (x ++ 93 :: rest)))
      rw [hnil] at hfind ⊢
      exact ⟨_, hfind⟩
    · have hnone : memchr (cStr (91 :: r)) 93 1 ((91 :: r).length - 1) = some none :=
        memchr_none (by simp; omega) (by simpa using hr)
      refine ⟨none, ?_⟩
      rw [findBracket, if_pos hhead, hnone]
      rfl
  · exact ⟨none, by rw [findBracket, if_neg hhead]⟩

theorem findColon_none (h : 58 ∉ host) : findColon host = some ([], none) := by
  have hnone : memchr (cStr host) 58 0 host.length = some none := memchr_none (by omega) (by simpa using h)
  rw [findColon, hnone]
  rfl

theorem findColon_first (ha : 58 ∉ a) (hhost : host = a ++ 58 :: b) :
    findColon host = if 58 ∈ b then some ([], some a.length) else some (a, some (a.length + 1)) := by
  have hfirst : memchr (cStr host) 58 0 host.length = some (some (0 + a.length)) :=
    memchr_some (a := []) ha hhost rfl (by rw [hhost]; simp)
  rw [Nat.zero_add] at hfirst
  rw [findColon, hfirst]
  show (memchr (cStr host) 58 (a.length + 1) (host.length - a.length - 1)).bind _ = _
  have hlen : host.length - a.length - 1 = b.length := by rw [hhost]; simp
  rw [hlen]
  split
  · rename_i hb
    obtain ⟨m, rest, rfl, hm⟩ := List.eq_append_cons_of_mem hb
    have hsecond : memchr (cStr host) 58 (a.length + 1) (m ++ 58 :: rest).length =
        some (some (a.length + 1 + m.length)) :=
      memchr_some (a := a ++ [58]) hm (hhost.trans (List.append_cons a 58 _)) (by simp) (by simp)
    rw [hsecond]
    rfl
  · rename_i hb
    have hnone : memchr (cStr host) 58 (a.length + 1) b.length = some none :=
      memchr_none (by rw [hhost]; simp; omega) (by rw [hhost]; simpa using hb)
    rw [hnone]
    simp [hhost]

/-! ## The pair -/

theorem lookup_bracketed (hne : x ≠ []) (hx : 93 ∉ x) (hhost : host = 91 :: (x ++ 93 :: rest)) :
    lookup host = some (x, if rest.headD 0 = 58 then some rest.tail else none) := by
  unfold lookup
  rw [findBracket_bracketed hx hhost]
  simp only [Option.bind_eq_bind, Option.bind_some, hne, if_false]
  cases rest with
  | nil => rfl
  | cons y rest =>
    by_cases hy : y = 58
    · have htext : textAt host (x.length + 3) = some rest := by
        have hlt : x.length + 3 < (cStr host).length := by
          simp only [hhost, cStr, List.length_append, List.length_cons]
          omega
        rw [textAt, if_pos hlt, hhost]
        simp
      simp [hy, htext]
    · simp [hy]

section
variable (hplain : ¬ ∃ x rest, x ≠ [] ∧ 93 ∉ x ∧ host = 91 :: (x ++ 93 :: rest))
include hplain

theorem lookup_plain (h : 58 ∉ host) : lookup host = some (host, none) := by
  obtain ⟨service, hbracket⟩ := findBracket_empty hplain
  unfold lookup
  rw [hbracket]
  simp [findColon_none h]

theorem lookup_single (ha : 58 ∉ a) (hb : 58 ∉ b) (hhost : host = a ++ 58 :: b) :
    lookup host = some (if a = [] then host else a, some b) := by
  obtain ⟨service, hbracket⟩ := findBracket_empty hplain
  have htext : textAt host (a.length + 1) = some b := by
    rw [textAt, if_pos (by rw [hhost]; simp [cStr]), hhost]
    simp
  unfold lookup
  rw [hbracket]
  simp [findColon_first ha hhost, hb, htext]

/-- The service is left where the first ':' is. -/
theorem lookup_several (ha : 58 ∉ a) (hb : 58 ∈ b) (hhost : host = a ++ 58 :: b) :
    lookup host = some (host, some (58 :: b)) := by
  obtain ⟨service, hbracket⟩ := findBracket_empty hplain
  have htext : textAt host a.length = some (58 :: b) := by
    rw [textAt, if_pos (by rw [hhost]; simp [cStr]), hhost]
    simp
  unfold lookup
  rw [hbracket]
  simp [findColon_first ha hhost, hb, htext]

end

theorem lookup_in_bounds (host : Bytes) : ∃ passed, lookup host = some passed := by
  by_cases hplain : ∃ x rest, x ≠ [] ∧ 93 ∉ x ∧ host = 91 :: (x ++ 93 :: rest)
  · obtain ⟨x, rest, hne, hx, hhost⟩ := hplain
    exact ⟨_, lookup_bracketed hne hx hhost⟩
  · by_cases h : 58 ∈ host
    · obtain ⟨a, b, hhost, ha⟩ := List.eq_append_cons_of_mem h
      by_cases hb : 58 ∈ b
      · exact ⟨_, lookup_several hplain ha hb hhost⟩
      · exact ⟨_, lookup_single hplain ha hb hhost⟩
    · exact ⟨_, lookup_plain hplain h⟩

theorem not_bracketed (h : Unbracketed host) : ¬ ∃ x rest, x ≠ [] ∧ 93 ∉ x ∧ host = 91 :: (x ++ 93 :: rest) := by
  intro ⟨x, rest, _, _, hhost⟩
  exact h.1 (hhost ▸ List.mem_cons_self)

theorem splits_right_iff (host : Bytes) : ∃ passed, lookup host = some passed ∧
    (SplitsRight host passed ↔ ¬ (Unbracketed host ∧ 2 ≤ host.count 58)) := by
  obtain ⟨passed, hpassed⟩ := lookup_in_bounds host
  have hpair : ∀ {pair}, lookup host = some pair → passed = pair := fun h => Option.some.inj (hpassed.symm.trans h)
  refine ⟨passed, hpassed, ?_, fun hfew => ⟨?_, ?_, ?_, ?_⟩⟩
  · intro hright ⟨hun, htwo⟩
    obtain ⟨a, b, hhost, ha⟩ := List.eq_append_cons_of_mem (List.count_pos_iff.mp (show 0 < host.count 58 by omega))
    have hb : 58 ∈ b := by
      rw [hhost, List.count_append, List.count_cons_self, List.count_eq_zero_of_not_mem ha] at htwo
      exact List.count_pos_iff.mp (by omega)
    have hseveral := hpair (lookup_several (not_bracketed hun) ha hb hhost)
    have hwhole := hright.whole hun (by omega)
    rw [hseveral] at hwhole
    cases hwhole
  · intro x s hne hx hhost
    exact hpair (lookup_bracketed hne hx hhost)
  · intro x hne hx hhost
    exact hpair (lookup_bracketed hne hx hhost)
  · intro hun node service hne hnode hservice hhost
    have hsingle := hpair (lookup_single (not_bracketed hun) hnode hservice hhost)
    rwa [if_neg hne] at hsingle
  · intro hun hcount
    have hless : ¬ 2 ≤ host.count 58 := fun htwo => hfew ⟨hun, htwo⟩
    have hnone : 58 ∉ host := List.count_eq_zero.mp (by omega)
    exact hpair (lookup_plain (not_bracketed hun) hnone)

/-- `::1` is looked up with the service `::1`. -/
theorem loopback_as_service : lookup (bytes [':', ':', '1']) =
    some (bytes [':', ':', '1'], some (bytes [':', ':', '1'])) ∧
    ∀ passed, lookup (bytes [':', ':', '1']) = some passed → ¬ SplitsRight (bytes [':', ':', '1']) passed := by
  have hlookup : lookup (bytes [':', ':', '1']) =
      some (bytes [':', ':', '1'], some (bytes [':', ':', '1'])) := by decide
  refine ⟨hlookup, fun passed hpassed hright => ?_⟩
  have hwhole := hright.whole (by decide) (by decide)
  rw [hlookup, hwhole] at hpassed
  revert hpassed
  decide

end Address

end LjrServer.Net
