/-
  LjrServer.App.Env — the arguments a program is started with (env.cpp).

  A key is what stands behind the '-' of an argument; its value is the argument behind it,
  if that is no key. The loop holds a key until it has seen the next argument. Whether an
  argument is a bare '-' is asked of the program name instead.

  Proved:
  - `parse_long`, `parse_short`: what the loop returns and stores, from any point on.
  - `init_accords_iff`: `init` accepts what it should and stores the last value of each key
    exactly when the program name is longer than a character and there is no bare '-', or
    what was to be refused is refused for another reason.
-/

import LjrServer.Lib.Recency

namespace LjrServer.App

open LjrServer.Lib

structure Env where
  args : Roster String String := []
  helps : List (String × String) := []
  program : String := ""
  exe : String := ""
  cwd : String := ""

/-- `strlen` -/
def strlen (s : String) : Nat := s.utf8ByteSize

/-- `arg[0] == '-'` -/
def isKey (arg : String) : Bool := arg.toList.head? = some '-'

/-- `arg + 1` -/
def behindDash (arg : String) : String := String.ofList arg.toList.tail

namespace Env

def add (env : Env) (key val : String) : Env := { env with args := env.args.put key val }

def has (env : Env) (key : String) : Bool := (env.args.lookup key).isSome

def del (env : Env) (key : String) : Env := { env with args := env.args.remove key }

def get (env : Env) (key default_val : String) : String := (env.args.lookup key).getD default_val

def delHelp (env : Env) (key : String) : Env := { env with helps := env.helps.filter fun it => it.1 ≠ key }

def addHelp (env : Env) (key desc : String) : Env :=
  { env.delHelp key with helps := (env.delHelp key).helps ++ [(key, desc)] }

def getAbsolutePath (env : Env) (path : String) : String :=
  if path = "" then "/"
  else if path.toList.head? = some '/' then path
  else env.cwd ++ path

def getConfigPath (env : Env) : String := env.getAbsolutePath (env.get "c" "conf")

/-- Up to the last '/', with it. -/
def directory (exe : String) : String :=
  if '/' ∈ exe.toList then String.ofList (exe.toList.reverse.dropWhile (· ≠ '/')).reverse else exe ++ "/"

/-- A key that is held gets its value. -/
def settle (env : Env) (nowKey : Option String) (val : String) : Env :=
  match nowKey with
  | some key => env.add key val
  | none => env

/-- The loop, with its `now_key`. -/
def parse (argv0 : String) : Option String → List String → Env → Bool × Env
  | nowKey, [], env => (true, env.settle nowKey "")
  | nowKey, arg :: argv, env =>
    if isKey arg then
      -- `argv[0]`, not `argv[i]`
      if 1 < strlen argv0 then parse argv0 (some (behindDash arg)) argv (env.settle nowKey "")
      else (false, env)
    else
      match nowKey with
      | some key => parse argv0 none argv (env.add key arg)
      | none => (false, env)

/-- `exe` is what the link to the binary says. -/
def init (env : Env) (exe argv0 : String) (argv : List String) : Bool × Env :=
  parse argv0 none argv { env with exe, cwd := directory exe, program := argv0 }

end Env

/-! ## What a command line says -/

/-- Every argument that is no key is right behind one. -/
def ValuesFollowKeys (argv : List String) : Prop :=
  ∀ before arg after, argv = before ++ arg :: after → isKey arg = false →
    ∃ key, before.getLast? = some key ∧ isKey key = true

/-- What is to be accepted. -/
def Valid (argv : List String) : Prop := "-" ∉ argv ∧ ValuesFollowKeys argv

/-- The value of a key with these arguments behind it. -/
def valueOf : List String → String
  | [] => ""
  | arg :: _ => if isKey arg then "" else arg

/-- The keys with their values, in order. -/
def settings : List String → List (String × String)
  | [] => []
  | arg :: argv => if isKey arg then (behindDash arg, valueOf argv) :: settings argv else settings argv

/-- The value of the last occurrence of a key. -/
def lastValue (argv : List String) (key : String) : Option String := (settings argv).reverse.lookup key

/-- Accepted exactly when it is valid, and then each key has the value of its last
    occurrence and there are no others. -/
structure Accords (argv : List String) (result : Bool × Env) : Prop where
  accepts : result.1 = true ↔ Valid argv
  stores : result.1 = true → ∀ key, result.2.args.lookup key = lastValue argv key

/-! ## The loop -/

/-- Values stand behind keys, where the argument before the first is a key or not. -/
def follows : Bool → List String → Bool
  | _, [] => true
  | afterKey, arg :: argv => if isKey arg then follows true argv else afterKey && follows false argv

/-- What is still to be stored while a key is held. -/
def held (nowKey : Option String) (argv : List String) : List (String × String) :=
  (nowKey.map fun key => (key, valueOf argv)).toList

def Env.store (env : Env) (ps : List (String × String)) : Env := ps.foldl (fun env p => env.add p.1 p.2) env

theorem settle_eq (env : Env) (nowKey : Option String) {argv : List String} {val : String} (h : valueOf argv = val) :
    env.settle nowKey val = env.store (held nowKey argv) := by
  subst h
  cases nowKey <;> rfl

variable {argv0 arg : String} {argv : List String} {nowKey : Option String} {env : Env}

theorem parse_key (harg : isKey arg = true) : Env.parse argv0 nowKey (arg :: argv) env =
    if 1 < strlen argv0 then Env.parse argv0 (some (behindDash arg)) argv (env.settle nowKey "") else (false, env) :=
  if_pos harg

theorem parse_value (harg : ¬ isKey arg = true) : Env.parse argv0 nowKey (arg :: argv) env =
    match nowKey with
    | some key => Env.parse argv0 none argv (env.add key arg)
    | none => (false, env) :=
  if_neg harg

theorem store_append (env : Env) (ps qs : List (String × String)) : env.store (ps ++ qs) = (env.store ps).store qs :=
  List.foldl_append

/-- With a program name of two bytes or more. -/
theorem parse_long (h0 : 1 < strlen argv0) : ∀ (argv : List String) (nowKey : Option String) (env : Env),
    if follows nowKey.isSome argv = true then
      Env.parse argv0 nowKey argv env = (true, env.store (held nowKey argv ++ settings argv))
    else (Env.parse argv0 nowKey argv env).1 = false
  | [], nowKey, env => by
    have hnone : valueOf [] = "" := rfl
    rw [follows, if_pos rfl, settings, List.append_nil, ← settle_eq env nowKey hnone]
    rfl
  | arg :: argv, nowKey, env => by
    by_cases harg : isKey arg = true
    · have ih := parse_long h0 argv (some (behindDash arg)) (env.settle nowKey "")
      have hstore : (env.settle nowKey "").store (held (some (behindDash arg)) argv ++ settings argv) =
          env.store (held nowKey (arg :: argv) ++ settings (arg :: argv)) := by
        rw [settle_eq env nowKey (show valueOf (arg :: argv) = "" from if_pos harg), ← store_append, settings,
          if_pos harg]
        rfl
      rw [hstore] at ih
      rw [follows, if_pos harg, parse_key harg, if_pos h0]
      exact ih
    · have hvalue : valueOf (arg :: argv) = arg := if_neg harg
      rw [follows, if_neg harg, parse_value harg, settings, if_neg harg]
      cases nowKey with
      | none => exact rfl
      | some key =>
        have ih := parse_long h0 argv none (env.add key arg)
        have hheld : held (some key) (arg :: argv) = [(key, arg)] := by rw [held, hvalue]; rfl
        rw [hheld, store_append]
        exact ih

/-- With one of a single byte nothing but an empty line is accepted. -/
theorem parse_short (h0 : ¬ 1 < strlen argv0) (argv : List String) (env : Env) :
    (Env.parse argv0 none argv env).1 = true ↔ argv = [] := by
  cases argv with
  | nil => exact iff_of_true rfl rfl
  | cons arg argv =>
    refine iff_of_false ?_ (List.cons_ne_nil _ _)
    by_cases harg : isKey arg = true
    · rw [parse_key harg, if_neg h0]
      exact Bool.false_ne_true
    · rw [parse_value harg]
      exact Bool.false_ne_true

theorem follows_iff : ∀ {argv : List String} {afterKey : Bool}, follows afterKey argv = true ↔
    ∀ before arg after, argv = before ++ arg :: after → isKey arg = false →
      (before = [] ∧ afterKey = true) ∨ ∃ key, before.getLast? = some key ∧ isKey key = true
  | [], afterKey => by
    refine iff_of_true rfl ?_
    intro before arg after h
    exact absurd h (by simp)
  | a :: argv, afterKey => by
    rw [follows]
    constructor
    · intro h before arg after heq harg
      cases before with
      | nil =>
        obtain ⟨rfl, rfl⟩ := List.cons.inj heq
        rw [if_neg (by simp [harg]), Bool.and_eq_true] at h
        exact .inl ⟨rfl, h.1⟩
      | cons b before =>
        obtain ⟨rfl, rfl⟩ := List.cons.inj heq
        have hrest : follows (isKey a) (before ++ arg :: after) = true := by
          cases hb : isKey a with
          | true => rwa [if_pos hb] at h
          | false =>
            rw [if_neg (by simp [hb]), Bool.and_eq_true] at h
            exact h.2
        rcases follows_iff.mp hrest before arg after rfl harg with ⟨rfl, hkey⟩ | ⟨key, hlast, hkey⟩
        · exact .inr ⟨a, rfl, hkey⟩
        · refine .inr ⟨key, ?_, hkey⟩
          rw [List.getLast?_cons, hlast]
          rfl
    · intro h
      have hrest : follows (isKey a) argv = true := by
        refine follows_iff.mpr fun before arg after heq harg => ?_
        rcases h (a :: before) arg after (congrArg _ heq) harg with ⟨hnil, _⟩ | ⟨key, hlast, hkey⟩
        · cases hnil
        · cases before with
          | nil =>
            cases hlast
            exact .inl ⟨rfl, hkey⟩
          | cons b before => exact .inr ⟨key, by rwa [List.getLast?_cons_cons] at hlast, hkey⟩
      cases ha : isKey a with
      | true =>
        rw [ha] at hrest
        exact hrest
      | false =>
        rw [ha] at hrest
        rcases h [] a argv rfl ha with ⟨_, hafter⟩ | ⟨key, hlast, _⟩
        · rw [if_neg Bool.false_ne_true, hafter]
          exact hrest
        · cases hlast

theorem follows_false_iff : follows false argv = true ↔ ValuesFollowKeys argv := by
  rw [follows_iff]
  constructor
  · intro h before arg after heq harg
    rcases h before arg after heq harg with ⟨_, hfalse⟩ | hkey
    · cases hfalse
    · exact hkey
  · intro h before arg after heq harg
    exact .inr (h before arg after heq harg)

instance (argv : List String) : Decidable (ValuesFollowKeys argv) := decidable_of_iff _ follows_false_iff

instance (argv : List String) : Decidable (Valid argv) := inferInstanceAs (Decidable (_ ∧ _))

/-! ## The dictionary -/

theorem lookup_store (key : String) : ∀ (ps : List (String × String)) (env : Env),
    (env.store ps).args.lookup key = (ps.reverse.lookup key).or (env.args.lookup key)
  | [], _ => rfl
  | p :: ps, env => by
    have ih := lookup_store key ps (env.add p.1 p.2)
    rw [Env.store, List.foldl_cons]
    refine ih.trans ?_
    rw [List.reverse_cons, List.lookup_append, Option.or_assoc, Env.add, Roster.lookup_put, List.lookup_cons,
      List.lookup_nil]
    by_cases hkey : p.1 = key
    · rw [if_pos hkey, hkey, beq_self_eq_true]
      rfl
    · rw [if_neg hkey, beq_false_of_ne (Ne.symm hkey)]
      rfl

/-- When the command line is taken as it should be. -/
def TakenRight (argv0 : String) (argv : List String) : Prop :=
  if 1 < strlen argv0 then "-" ∉ argv ∨ ¬ ValuesFollowKeys argv else argv = [] ∨ ¬ Valid argv

instance (argv0 : String) (argv : List String) : Decidable (TakenRight argv0 argv) :=
  inferInstanceAs (Decidable (if 1 < strlen argv0 then _ else _))

/-- On a new environment, whatever help texts it has. -/
theorem init_accords_iff (helps : List (String × String)) (exe argv0 : String) (argv : List String) :
    Accords argv (Env.init { helps } exe argv0 argv) ↔ TakenRight argv0 argv := by
  unfold Env.init TakenRight
  generalize henv : ({ helps, exe, cwd := Env.directory exe, program := argv0 } : Env) = env
  have hargs : env.args = [] := by rw [← henv]
  by_cases h0 : 1 < strlen argv0
  · rw [if_pos h0]
    have hparse := parse_long h0 argv none env
    rw [Option.isSome_none] at hparse
    by_cases hfollow : ValuesFollowKeys argv
    · rw [if_pos (follows_false_iff.mpr hfollow)] at hparse
      have hstores : ∀ key, (env.store (settings argv)).args.lookup key = lastValue argv key := by
        intro key
        rw [lookup_store, hargs, List.lookup_nil, Option.or_none]
        rfl
      rw [hparse]
      constructor
      · intro h
        exact .inl (h.accepts.mp rfl).1
      · intro h
        exact ⟨iff_of_true rfl ⟨h.resolve_right fun hnot => hnot hfollow, hfollow⟩, fun _ => hstores⟩
    · rw [if_neg fun h => hfollow (follows_false_iff.mp h)] at hparse
      have hrefused : ¬ (Env.parse argv0 none argv env).1 = true := by
        rw [hparse]
        exact Bool.false_ne_true
      exact iff_of_true ⟨iff_of_false hrefused fun h => hfollow h.2, fun h => absurd h hrefused⟩ (.inr hfollow)
  · rw [if_neg h0]
    have hshort := parse_short h0 argv env
    by_cases hnil : argv = []
    · subst hnil
      have hvalid : Valid [] := ⟨List.not_mem_nil, follows_false_iff.mp rfl⟩
      refine iff_of_true ⟨iff_of_true (hshort.mpr rfl) hvalid, fun _ key => ?_⟩ (.inl rfl)
      exact congrArg (List.lookup key) hargs
    · constructor
      · intro h
        exact .inr fun hvalid => hnil (hshort.mp (h.accepts.mpr hvalid))
      · intro h
        have hvalid : ¬ Valid argv := h.resolve_left hnil
        exact ⟨iff_of_false (fun htrue => hnil (hshort.mp htrue)) hvalid, fun htrue => absurd (hshort.mp htrue) hnil⟩

/-- `server -` starts with the key "". -/
theorem bare_dash_accepted : ¬ Accords ["-"] (Env.init {} "/bin/server" "server" ["-"]) := by
  intro h
  exact absurd (h.accepts.mp rfl).1 (by decide)

/-- `-c` twice, `-d` without a value, between two values. -/
example : (Env.init {} "/bin/server" "server" ["-c", "a", "-d", "-c", "b"]).2.args = [("c", "b"), ("d", "")] := by
  decide

end LjrServer.App
