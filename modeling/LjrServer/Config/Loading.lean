/-
  LjrServer.Config.Loading — configuration variables and the YAML tree they are loaded from
  (config.h, config.cpp).

  The nodes of a tree are listed with their dotted paths, and the paths are lower-cased to be
  looked up. A path is checked before that, against a set of characters without capital
  letters and without '9', and a node that fails takes all nodes below it along. What a
  variable makes of a text, and how yaml-cpp writes a node, are parameters.

  Proved:
  - `listAllMember_eq`: the listed nodes are those with a valid path.
  - `loads_iff`: every variable that a node names is set, and a name is accepted by `Lookup`,
    exactly when no such node has a capital letter or a '9' in its path, nor the name a '9'.
-/

import LjrServer.Config.Yaml
import LjrServer.Lib.Fields

namespace LjrServer.Config

open LjrServer.Lib

/-- What names are made of, as `Lookup` and `ListAllMember` have it. -/
def nameChars : String := "abcdefghijklmnopqrstuvwxyz._012345678"

/-- `find_first_not_of` finds nothing. -/
def validName (name : String) : Bool := name.toList.all (· ∈ nameChars.toList)

/-- `::tolower` on each character -/
def lower (name : String) : String := String.ofList (name.toList.map Char.toLower)

/-- The path of a member, from the path of its map. -/
def member (pre key : String) : String := if pre = "" then key else pre ++ "." ++ key

mutual

def listAllMember (pre : String) : Node → List (String × Node)
  | .null => if validName pre then [(pre, .null)] else []
  | .scalar text => if validName pre then [(pre, .scalar text)] else []
  | .seq nodes => if validName pre then [(pre, .seq nodes)] else []
  | .map fields => if validName pre then (pre, .map fields) :: listFields pre fields else []

def listFields (pre : String) : List (String × Node) → List (String × Node)
  | [] => []
  | (key, node) :: fields => listAllMember (member pre key) node ++ listFields pre fields

end

/-- `GetDatas()`, and the calls of `fromString` so far, each with its name and text. -/
structure ConfigVarMap (Var : Type) where
  datas : String → Option Var
  called : List (String × String) := []

namespace ConfigVarMap

variable {Var : Type} (fromString : Var → String → Var) (emit : Node → String)

/-- What `fromString` is called with. -/
def nodeText : Node → String
  | .scalar text => text
  | node => emit node

/-- A turn of the loop of `LoadFromYaml`. -/
def loadNode (c : ConfigVarMap Var) (i : String × Node) : ConfigVarMap Var :=
  if i.1 = "" then c
  else
    let key := lower i.1
    match c.datas key with
    | none => c
    | some var =>
      { datas := fun name => if name = key then some (fromString var (nodeText emit i.2)) else c.datas name
        called := c.called ++ [(key, nodeText emit i.2)] }

def loadFromYaml (c : ConfigVarMap Var) (root : Node) : ConfigVarMap Var :=
  (listAllMember "" root).foldl (loadNode fromString emit) c

/-- `Lookup<T>` with a default value: the variable, or `nullptr` where `castable` says that
    its type is another; `none` is `std::invalid_argument`. -/
def lookup (castable : Var → Bool) (fresh : Var) (c : ConfigVarMap Var) (name : String) :
    Option (Option Var × ConfigVarMap Var) :=
  match c.datas name with
  | some var => some (if castable var then some var else none, c)
  | none =>
    if validName name then
      some (some fresh, { c with datas := fun other => if other = name then some fresh else c.datas other })
    else none

end ConfigVarMap

/-! ## The nodes of a tree -/

mutual

/-- The nodes below a node in pre-order, with the keys that lead to them. -/
def below (keys : List String) : Node → List (List String × Node)
  | .null => []
  | .scalar _ => []
  | .seq _ => []
  | .map fields => belowFields keys fields

def belowFields (keys : List String) : List (String × Node) → List (List String × Node)
  | [] => []
  | (key, node) :: fields => (keys ++ [key], node) :: below (keys ++ [key]) node ++ belowFields keys fields

end

def dotted (keys : List String) : String := ".".intercalate keys

mutual

/-- Of every key in the tree. -/
def allKeys (ok : String → Bool) : Node → Bool
  | .null => true
  | .scalar _ => true
  | .seq _ => true
  | .map fields => fieldKeys ok fields

def fieldKeys (ok : String → Bool) : List (String × Node) → Bool
  | [] => true
  | (key, node) :: fields => ok key && allKeys ok node && fieldKeys ok fields

end

/-- A letter, a digit, '_' or '.'. -/
def isKeyChar (c : Char) : Bool := c.isAlphanum || c = '_' || c = '.'

/-- Some of these. -/
def isKey (key : String) : Bool := key ≠ "" && key.toList.all isKeyChar

/-- Over [a-z0-9._]. -/
def isName (name : String) : Bool := name.toList.all fun c => isKeyChar c && !c.isUpper

/-- Without a capital letter and without a '9'. -/
def Plain (path : String) : Prop := ∀ c ∈ path.toList, c.isUpper = false ∧ c ≠ '9'

namespace ConfigVarMap

variable {Var : Type} (emit : Node → String)

/-- The call of `fromString` for a node with this path. -/
def callOf (c : ConfigVarMap Var) (i : String × Node) : Option (String × String) :=
  if (c.datas (lower i.1)).isSome then some (lower i.1, nodeText emit i.2) else none

/-- The calls there should be. -/
def reached (c : ConfigVarMap Var) (root : Node) : List (String × String) :=
  (below [] root).filterMap fun p => callOf emit c (dotted p.1, p.2)

/-- The variables that nodes name are set from these nodes, and no others. -/
structure Loads (c : ConfigVarMap Var) (root : Node) (result : ConfigVarMap Var) : Prop where
  called : result.called = c.called ++ reached emit c root
  others : ∀ name, name ∉ (reached emit c root).map Prod.fst → result.datas name = c.datas name

end ConfigVarMap

/-! ## Paths -/

theorem toList_dotted (key : String) (keys : List String) :
    (dotted (key :: keys)).toList = key.toList ++ behind '.' (keys.map String.toList) := by
  rw [dotted, String.toList_intercalate, List.map_cons]
  exact joined_cons _ _

theorem dotted_concat (keys : List String) (key : String) (h : ∀ k ∈ keys, k ≠ "") :
    dotted (keys ++ [key]) = member (dotted keys) key := by
  cases keys with
  | nil => rfl
  | cons k keys =>
    have hne : dotted (k :: keys) ≠ "" := by
      intro hnil
      have hk := toList_dotted k keys
      rw [hnil] at hk
      exact h k List.mem_cons_self (String.toList_eq_nil_iff.mp (List.append_eq_nil_iff.mp hk.symm).1)
    rw [member, if_neg hne]
    apply String.toList_inj.mp
    rw [List.cons_append, toList_dotted, String.toList_append, String.toList_append, toList_dotted, List.map_append]
    simp [behind]

theorem validName_member {pre key : String} (h : validName (member pre key) = true) : validName pre = true := by
  unfold member at h
  split at h
  · rename_i hnil
    rw [hnil]
    rfl
  · rw [validName, String.toList_append, String.toList_append, List.append_assoc, List.all_append, Bool.and_eq_true] at h
    exact h.1

variable {ok : String → Bool} {pre key : String} {keys : List String} {node : Node} {fields : List (String × Node)}

theorem listAllMember_invalid (h : ¬ validName pre = true) (node : Node) : listAllMember pre node = [] := by
  cases node <;> exact if_neg h

theorem listFields_invalid (h : ¬ validName pre = true) : ∀ fields : List (String × Node), listFields pre fields = []
  | [] => rfl
  | (key, node) :: fields => by
    rw [listFields, listAllMember_invalid (fun hm => h (validName_member hm)), listFields_invalid h fields]
    rfl

/-- A node that is listed, with its path. -/
def listed (ps : List (List String × Node)) : List (String × Node) :=
  (ps.map fun p => (dotted p.1, p.2)).filter fun p => validName p.1

theorem listed_cons (p : List String × Node) (ps : List (List String × Node)) :
    listed (p :: ps) = if validName (dotted p.1) = true then (dotted p.1, p.2) :: listed ps else listed ps := by
  rw [listed, List.map_cons, List.filter_cons]
  rfl

theorem listed_append (ps qs : List (List String × Node)) : listed (ps ++ qs) = listed ps ++ listed qs := by
  rw [listed, List.map_append, List.filter_append]
  rfl

mutual

theorem listAllMember_eq (hok : ∀ k, ok k = true → k ≠ "") (keys : List String) (hkeys : ∀ k ∈ keys, k ≠ "") :
    ∀ node : Node, allKeys ok node = true →
      listAllMember (dotted keys) node = listed ((keys, node) :: below keys node)
  | .null, _ => by rw [listed_cons]; rfl
  | .scalar _, _ => by rw [listed_cons]; rfl
  | .seq _, _ => by rw [listed_cons]; rfl
  | .map fields, h => by
    have ih := listFields_eq hok keys hkeys fields h
    rw [listed_cons, below, ← ih, listAllMember]
    split
    · rfl
    · rename_i hinvalid
      exact (listFields_invalid hinvalid fields).symm

theorem listFields_eq (hok : ∀ k, ok k = true → k ≠ "") (keys : List String) (hkeys : ∀ k ∈ keys, k ≠ "") :
    ∀ fields : List (String × Node), fieldKeys ok fields = true →
      listFields (dotted keys) fields = listed (belowFields keys fields)
  | [], _ => rfl
  | (key, node) :: fields, h => by
    rw [fieldKeys, Bool.and_eq_true, Bool.and_eq_true] at h
    obtain ⟨⟨hkey, hnode⟩, hfields⟩ := h
    have hkeys' : ∀ k ∈ keys ++ [key], k ≠ "" := by
      intro k hk
      rcases List.mem_append.mp hk with hk | hk
      · exact hkeys k hk
      · exact List.mem_singleton.mp hk ▸ hok key hkey
    rw [listFields, ← dotted_concat keys key hkeys, listAllMember_eq hok (keys ++ [key]) hkeys' node hnode,
      listFields_eq hok keys hkeys fields hfields, belowFields, listed_append]

end

theorem mem_toList_dotted {c : Char} (hc : c ∈ (dotted keys).toList) : c = '.' ∨ ∃ k ∈ keys, c ∈ k.toList := by
  cases keys with
  | nil => exact absurd hc List.not_mem_nil
  | cons key keys =>
    rw [toList_dotted, List.mem_append] at hc
    rcases hc with hc | hc
    · exact .inr ⟨key, List.mem_cons_self, hc⟩
    · obtain ⟨text, htext, hc⟩ := List.mem_flatMap.mp hc
      obtain ⟨k, hk, rfl⟩ := List.mem_map.mp htext
      rcases List.mem_cons.mp hc with hc | hc
      · exact .inl hc
      · exact .inr ⟨k, List.mem_cons_of_mem _ hk, hc⟩

mutual

theorem below_keys (keys : List String) (hkeys : ∀ k ∈ keys, ok k = true) : ∀ node : Node, allKeys ok node = true →
    ∀ p ∈ below keys node, p.1 ≠ [] ∧ ∀ k ∈ p.1, ok k = true
  | .null, _, _, hp => absurd hp List.not_mem_nil
  | .scalar _, _, _, hp => absurd hp List.not_mem_nil
  | .seq _, _, _, hp => absurd hp List.not_mem_nil
  | .map fields, h, p, hp => belowFields_keys keys hkeys fields h p hp

theorem belowFields_keys (keys : List String) (hkeys : ∀ k ∈ keys, ok k = true) : ∀ fields : List (String × Node),
    fieldKeys ok fields = true → ∀ p ∈ belowFields keys fields, p.1 ≠ [] ∧ ∀ k ∈ p.1, ok k = true
  | [], _, _, hp => absurd hp List.not_mem_nil
  | (key, node) :: fields, h, p, hp => by
    rw [fieldKeys, Bool.and_eq_true, Bool.and_eq_true] at h
    obtain ⟨⟨hkey, hnode⟩, hfields⟩ := h
    have hkeys' : ∀ k ∈ keys ++ [key], ok k = true := by
      intro k hk
      rcases List.mem_append.mp hk with hk | hk
      · exact hkeys k hk
      · exact List.mem_singleton.mp hk ▸ hkey
    rcases List.mem_append.mp hp with hp | hp
    · rcases List.mem_cons.mp hp with rfl | hp
      · exact ⟨List.append_ne_nil_of_right_ne_nil _ (List.cons_ne_nil _ _), hkeys'⟩
      · exact below_keys (keys ++ [key]) hkeys' node hnode p hp
    · exact belowFields_keys keys hkeys fields hfields p hp

end

/-! ## Characters -/

theorem mem_nameChars {c : Char} (hc : isKeyChar c = true) :
    c ∈ nameChars.toList ↔ c.isUpper = false ∧ c ≠ '9' := by
  have hcheck : ∀ n < 128, isKeyChar (Char.ofNat n) = true →
      (Char.ofNat n ∈ nameChars.toList ↔ (Char.ofNat n).isUpper = false ∧ Char.ofNat n ≠ '9') := by decide
  have hlt : c.toNat < 128 := by
    have hchar : (((decide (c.val ≥ 65 ∧ c.val ≤ 90) || (c.val ≥ 97 && c.val ≤ 122)) || (c.val ≥ 48 && c.val ≤ 57)) ||
        c = '_' || c = '.') = true := hc
    simp only [Bool.or_eq_true, Bool.and_eq_true, decide_eq_true_eq] at hchar
    rcases hchar with ((((⟨_, h⟩ | ⟨_, h⟩) | ⟨_, h⟩) | rfl) | rfl)
    · exact Nat.lt_of_le_of_lt h (by decide)
    · exact Nat.lt_of_le_of_lt h (by decide)
    · exact Nat.lt_of_le_of_lt h (by decide)
    · decide
    · decide
  have h := hcheck c.toNat hlt
  rw [Char.ofNat_toNat] at h
  exact h hc

theorem isKey_ne_nil {key : String} (h : isKey key = true) : key ≠ "" :=
  of_decide_eq_true (Bool.and_eq_true_iff.mp h).1

theorem validName_iff {path : String} (h : ∀ c ∈ path.toList, isKeyChar c = true) :
    validName path = true ↔ Plain path := by
  rw [validName, List.all_eq_true]
  constructor
  · intro hvalid c hc
    exact (mem_nameChars (h c hc)).mp (of_decide_eq_true (hvalid c hc))
  · intro hplain c hc
    exact decide_eq_true ((mem_nameChars (h c hc)).mpr (hplain c hc))

theorem isKeyChar_dotted (h : ∀ k ∈ keys, isKey k = true) {c : Char} (hc : c ∈ (dotted keys).toList) :
    isKeyChar c = true := by
  rcases mem_toList_dotted hc with rfl | ⟨k, hk, hc⟩
  · decide
  · exact List.all_eq_true.mp (Bool.and_eq_true_iff.mp (h k hk)).2 c hc

theorem dotted_ne_nil (hne : keys ≠ []) (h : ∀ k ∈ keys, isKey k = true) : dotted keys ≠ "" := by
  obtain ⟨key, rest, rfl⟩ := List.exists_cons_of_ne_nil hne
  intro hnil
  have hkey := toList_dotted key rest
  rw [hnil] at hkey
  exact isKey_ne_nil (h key List.mem_cons_self)
    (String.toList_eq_nil_iff.mp (List.append_eq_nil_iff.mp hkey.symm).1)

theorem validName_isName {name : String} (h : isName name = true) : validName name = true ↔ '9' ∉ name.toList := by
  have hchars : ∀ c ∈ name.toList, isKeyChar c = true ∧ c.isUpper = false := by
    intro c hc
    have hc := List.all_eq_true.mp h c hc
    rw [Bool.and_eq_true, Bool.not_eq_true'] at hc
    exact hc
  rw [validName_iff fun c hc => (hchars c hc).1]
  constructor
  · intro hplain hmem
    exact (hplain '9' hmem).2 rfl
  · intro hmem c hc
    exact ⟨(hchars c hc).2, fun h9 => hmem (h9 ▸ hc)⟩

theorem filterMap_filter_eq_iff {α β : Type} (p : α → Bool) (f : α → Option β) : ∀ xs : List α,
    (xs.filter p).filterMap f = xs.filterMap f ↔ ∀ x ∈ xs, (f x).isSome = true → p x = true
  | [] => by simp
  | x :: xs => by
    have ih := filterMap_filter_eq_iff p f xs
    rw [List.forall_mem_cons, List.filter_cons, List.filterMap_cons, ← ih]
    have hlen := (List.filter_sublist (p := p) (l := xs)).filterMap f |>.length_le
    cases hf : f x with
    | none => by_cases hp : p x = true <;> simp [hp, hf]
    | some y =>
      by_cases hp : p x = true
      · simp [hp, hf]
      · rw [if_neg hp]
        refine iff_of_false (fun h => ?_) fun h => hp (h.1 rfl)
        rw [h, List.length_cons] at hlen
        exact Nat.not_succ_le_self _ hlen

/-! ## Loading -/

namespace ConfigVarMap

variable {Var : Type} (fromString : Var → String → Var) (emit : Node → String) (c : ConfigVarMap Var)
  {i : String × Node} {name : String} {root : Node}

theorem loadNode_unnamed (h : c.datas (lower i.1) = none) : loadNode fromString emit c i = c := by
  unfold loadNode
  split
  · rfl
  · simp only [h]

theorem loadNode_called (hi : i.1 ≠ "") :
    (loadNode fromString emit c i).called = c.called ++ (callOf emit c i).toList := by
  unfold callOf
  cases hvar : c.datas (lower i.1) with
  | none => rw [loadNode_unnamed fromString emit c hvar, if_neg (by simp), Option.toList_none,
      List.append_nil]
  | some var =>
    simp only [loadNode, if_neg hi, hvar]
    rfl

theorem loadNode_datas (h : ∀ call ∈ callOf emit c i, call.1 ≠ name) :
    (loadNode fromString emit c i).datas name = c.datas name := by
  unfold callOf at h
  cases hvar : c.datas (lower i.1) with
  | none => rw [loadNode_unnamed fromString emit c hvar]
  | some var =>
    rw [hvar] at h
    have hne : name ≠ lower i.1 := fun heq => h _ rfl heq.symm
    unfold loadNode
    split
    · rfl
    · simp only [hvar]
      exact if_neg hne

theorem loadNode_registered : ((loadNode fromString emit c i).datas name).isSome = (c.datas name).isSome := by
  cases hvar : c.datas (lower i.1) with
  | none => rw [loadNode_unnamed fromString emit c hvar]
  | some var =>
    by_cases hname : name = lower i.1
    · rw [hname, hvar]
      unfold loadNode
      split
      · rw [hvar]
      · simp only [hvar, if_true]
        rfl
    · rw [loadNode_datas]
      rw [callOf, hvar]
      intro call hcall heq
      exact hname (heq.symm.trans (congrArg Prod.fst (Option.some.inj hcall)).symm)

theorem callOf_loadNode (j : String × Node) : callOf emit (loadNode fromString emit c i) j = callOf emit c j := by
  unfold callOf
  rw [loadNode_registered]

theorem foldl_loadNode : ∀ (is : List (String × Node)) (c : ConfigVarMap Var), (∀ i ∈ is, i.1 ≠ "") →
    (is.foldl (loadNode fromString emit) c).called = c.called ++ is.filterMap (callOf emit c) ∧
      ∀ name, name ∉ (is.filterMap (callOf emit c)).map Prod.fst →
        (is.foldl (loadNode fromString emit) c).datas name = c.datas name
  | [], c, _ => ⟨(List.append_nil _).symm, fun _ _ => rfl⟩
  | i :: is, c, hne => by
    have ih := foldl_loadNode is (loadNode fromString emit c i) fun j hj => hne j (List.mem_cons_of_mem _ hj)
    have hcalls : is.filterMap (callOf emit (loadNode fromString emit c i)) = is.filterMap (callOf emit c) :=
      List.filterMap_congr fun j _ => callOf_loadNode fromString emit c j
    have hsplit : (i :: is).filterMap (callOf emit c) = (callOf emit c i).toList ++ is.filterMap (callOf emit c) := by
      rw [List.filterMap_cons]
      cases callOf emit c i <;> rfl
    rw [hcalls, loadNode_called fromString emit c (hne i List.mem_cons_self)] at ih
    rw [List.foldl_cons, hsplit]
    refine ⟨by rw [ih.1, List.append_assoc], fun name hname => ?_⟩
    rw [List.map_append, List.mem_append, not_or] at hname
    rw [ih.2 name hname.2]
    apply loadNode_datas
    intro call hcall heq
    exact hname.1 (List.mem_map.mpr ⟨call, Option.mem_toList.mpr hcall, heq⟩)

theorem loadFromYaml_eq (hroot : allKeys isKey root = true) :
    loadFromYaml fromString emit c root = (listed (below [] root)).foldl (loadNode fromString emit) c := by
  have hlist : listAllMember "" root = ("", root) :: listed (below [] root) := by
    have hlist := listAllMember_eq (fun k => isKey_ne_nil) [] (by simp) root hroot
    rw [listed_cons, if_pos (show validName (dotted []) = true from rfl)] at hlist
    exact hlist
  rw [loadFromYaml, hlist, List.foldl_cons]
  rfl

/-- What is called is what there should be, where no node that names a variable is left out. -/
theorem loads_iff_plain (hroot : allKeys isKey root = true) : Loads emit c root (loadFromYaml fromString emit c root) ↔
    ∀ p ∈ below [] root, (c.datas (lower (dotted p.1))).isSome → Plain (dotted p.1) := by
  have hkeys := below_keys [] (by simp) root hroot
  have hfold := foldl_loadNode fromString emit (listed (below [] root)) c (by
    intro i hi
    obtain ⟨p, hp, rfl⟩ := List.mem_map.mp (List.mem_of_mem_filter hi)
    exact dotted_ne_nil (hkeys p hp).1 (hkeys p hp).2)
  rw [← loadFromYaml_eq fromString emit c hroot] at hfold
  have hreached : reached emit c root =
      ((below [] root).map fun p => (dotted p.1, p.2)).filterMap (callOf emit c) := by
    rw [List.filterMap_map]
    rfl
  have hcalls : Loads emit c root (loadFromYaml fromString emit c root) ↔
      (listed (below [] root)).filterMap (callOf emit c) = reached emit c root := by
    constructor
    · intro h
      exact List.append_cancel_left (hfold.1.symm.trans h.called)
    · intro h
      rw [h] at hfold
      exact ⟨hfold.1, hfold.2⟩
  rw [hcalls, hreached, listed, filterMap_filter_eq_iff]
  constructor
  · intro h p hp hvar
    have hvalid := h (dotted p.1, p.2) (List.mem_map.mpr ⟨p, hp, rfl⟩) (by rw [callOf, if_pos hvar]; rfl)
    exact (validName_iff fun c => isKeyChar_dotted (hkeys p hp).2).mp hvalid
  · intro h i hi hcall
    obtain ⟨p, hp, rfl⟩ := List.mem_map.mp hi
    have hvar : (c.datas (lower (dotted p.1))).isSome = true := by
      unfold callOf at hcall
      split at hcall
      · assumption
      · exact absurd hcall Bool.false_ne_true
    exact (validName_iff fun c => isKeyChar_dotted (hkeys p hp).2).mpr (h p hp hvar)

theorem lookup_isSome_iff (castable : Var → Bool) (fresh : Var) (hname : isName name = true) :
    (lookup castable fresh c name).isSome = true ↔ '9' ∉ name.toList ∨ (c.datas name).isSome = true := by
  unfold lookup
  cases hvar : c.datas name with
  | none =>
    rw [← validName_isName hname]
    split <;> simp_all
  | some var => exact ⟨fun _ => .inr rfl, fun _ => rfl⟩

/-- Both go wrong by the characters that a name may have: the path of a node is checked before
    it is lower-cased, and no name has a '9'. -/
theorem loads_iff (castable : Var → Bool) (fresh : Var) (hroot : allKeys isKey root = true)
    (hname : isName name = true) :
    Loads emit c root (loadFromYaml fromString emit c root) ∧ (lookup castable fresh c name).isSome = true ↔
      (∀ p ∈ below [] root, (c.datas (lower (dotted p.1))).isSome → Plain (dotted p.1)) ∧
        ('9' ∉ name.toList ∨ (c.datas name).isSome = true) := by
  rw [loads_iff_plain fromString emit c hroot, lookup_isSome_iff c castable fresh hname]

/-- A listening port below a section, in lower case. -/
theorem loads_iff_port :
    let c : ConfigVarMap String := { datas := fun name => if name = "servers.port" then some "" else none }
    let root : Node := .map [("servers", .map [("port", .scalar "80")])]
    Loads (fun _ => "") c root (loadFromYaml (fun _ text => text) (fun _ => "") c root) ∧
      (lookup (fun _ => true) "" c "servers.port").isSome = true :=
  (loads_iff (fun _ text => text) (fun _ => "") _ (fun _ => true) "" (by decide) (by decide)).mpr
    ⟨by
      have hsection : Plain (dotted ["servers"]) :=
        (validName_iff fun c => isKeyChar_dotted (by decide)).mp (by decide)
      have hport : Plain (dotted ["servers", "port"]) :=
        (validName_iff fun c => isKeyChar_dotted (by decide)).mp (by decide)
      intro p hp _
      rcases List.mem_cons.mp hp with rfl | hp
      · exact hsection
      · exact List.mem_singleton.mp hp ▸ hport, .inl (by decide)⟩

/-- A section written with a capital letter: its variable is not set, though the path names it.
    And a name that ends in '9'. -/
theorem capital_section_skipped :
    let c : ConfigVarMap String := { datas := fun name => if name = "logs.level" then some "" else none }
    let root : Node := .map [("Logs", .map [("level", .scalar "info")])]
    (allKeys isKey root = true ∧ isName "logs.file9" = true) ∧
      ¬ Loads (fun _ => "") c root (loadFromYaml (fun _ text => text) (fun _ => "") c root) ∧
      (lookup (fun _ => true) "" c "logs.file9").isSome = false := by
  refine ⟨by decide, ?_, by decide⟩
  intro h
  exact absurd h.called (by decide)

end ConfigVarMap

end LjrServer.Config
