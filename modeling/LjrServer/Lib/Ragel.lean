/-
  LjrServer.Lib.Ragel — state machines in Ragel's notation, run without being compiled.

  A `Machine` is a regular expression with embedded actions and priorities. It is run on a
  list of threads, each what is left of the expression; a byte takes each thread to its
  derivatives (`edges`), priorities drop the edges they beat, and the actions of the edges
  that remain are executed in the order of their time stamps, each action once. No thread
  left is the error state.

  Embedding an action gives it a stamp: entering actions before the machine they are
  embedded in, the others after it. An entering action of a machine that accepts the empty
  word is also one of its leaving actions.
-/

namespace LjrServer.Lib.Ragel

/-! ## Alphabets -/

/-- The characters in `incl` and not in `excl`, each a list of ranges. -/
structure CharSet where
  incl : List (Nat × Nat)
  excl : List (Nat × Nat) := []
  deriving DecidableEq, Repr

namespace CharSet

def within (c : Nat) : List (Nat × Nat) → Bool
  | [] => false
  | (lo, hi) :: rs => (Nat.ble lo c && Nat.ble c hi) || within c rs

def mem (s : CharSet) (c : Nat) : Bool := within c s.incl && !within c s.excl

end CharSet

/-! ## Machines -/

inductive Machine (α : Type) where
  | eps
  | set (s : CharSet)
  | cat (a b : Machine α)
  | alt (a b : Machine α)
  | star (m : Machine α)
  /-- `m >x` -/
  | entering (t : Nat) (x : α) (m : Machine α)
  /-- `m @x` -/
  | finishing (t : Nat) (x : α) (m : Machine α)
  /-- `m %x` -/
  | leaving (t : Nat) (x : α) (m : Machine α)
  /-- `m $(key, level)` -/
  | prioAll (key level : Nat) (m : Machine α)
  /-- `m >(key, level)` -/
  | prioEnter (key level : Nat) (m : Machine α)
  /-- `m @(key, level)` -/
  | prioFinish (key level : Nat) (m : Machine α)
  deriving DecidableEq, Repr

namespace Machine

variable {α : Type}

def char (c : Nat) : Machine α := .set { incl := [(c, c)] }

/-- `"abc"` -/
def lit : List Nat → Machine α
  | [] => .eps
  | [c] => char c
  | c :: cs => .cat (char c) (lit cs)

/-- `/abc/i` -/
def litI : List Nat → Machine α
  | [] => .eps
  | c :: cs =>
    let one : Machine α := .set { incl := if 65 ≤ c ∧ c ≤ 90 then [(c, c), (c + 32, c + 32)]
      else if 97 ≤ c ∧ c ≤ 122 then [(c, c), (c - 32, c - 32)] else [(c, c)] }
    match cs with
    | [] => one
    | _ => .cat one (litI cs)

def opt (m : Machine α) : Machine α := .alt m .eps
def plus (m : Machine α) : Machine α := .cat m (.star m)

/-- `m{0,n}` -/
def upTo (m : Machine α) : Nat → Machine α
  | 0 => .eps
  | n + 1 => opt (.cat m (upTo m n))

/-- `m{n}` -/
def times (m : Machine α) : Nat → Machine α
  | 0 => .eps
  | 1 => m
  | n + 2 => .cat m (times m (n + 1))

/-- `a | b | c` -/
def alts : List (Machine α) → Machine α
  | [] => .eps
  | [m] => m
  | m :: ms => .alt m (alts ms)

/-- `a b c` -/
def cats : List (Machine α) → Machine α
  | [] => .eps
  | [m] => m
  | m :: ms => .cat m (cats ms)

/-- `a :> b`: entering `b` ends `a`. -/
def entryGuarded (key : Nat) (a b : Machine α) : Machine α := .cat (.prioAll key 0 a) (.prioEnter key 1 b)

/-- `a :>> b`: finishing `b` ends `a`. -/
def finishGuarded (key : Nat) (a b : Machine α) : Machine α := .cat (.prioAll key 0 a) (.prioFinish key 1 b)

def nullable : Machine α → Bool
  | .eps => true
  | .set _ => false
  | .cat a b => nullable a && nullable b
  | .alt a b => nullable a || nullable b
  | .star _ => true
  | .entering _ _ m => nullable m
  | .finishing _ _ m => nullable m
  | .leaving _ _ m => nullable m
  | .prioAll _ _ m => nullable m
  | .prioEnter _ _ m => nullable m
  | .prioFinish _ _ m => nullable m

/-- The actions pending at a final state, for the transition that leaves it. -/
def out : Machine α → List (Nat × α)
  | .eps => []
  | .set _ => []
  | .cat a b => out a ++ out b
  | .alt a b => (if nullable a then out a else []) ++ (if nullable b then out b else [])
  | .star m => if nullable m then out m else []
  | .entering t x m => (t, x) :: out m
  | .finishing _ _ m => out m
  | .leaving t x m => out m ++ [(t, x)]
  | .prioAll _ _ m => out m
  | .prioEnter _ _ m => out m
  | .prioFinish _ _ m => out m

/-- What is left to do when `a` is done and then `b`. -/
def seq (a b : Machine α) : Machine α :=
  match a with
  | .eps => b
  | a => .cat a b

end Machine

/-- A transition of one thread. -/
structure Edge (α : Type) where
  acts : List (Nat × α) := []
  prios : List (Nat × Nat) := []
  next : Machine α
  deriving DecidableEq, Repr

variable {α : Type}

namespace Edge

def act (e : Edge α) (as : List (Nat × α)) : Edge α := { e with acts := as ++ e.acts }
def prio (e : Edge α) (key level : Nat) : Edge α := { e with prios := (key, level) :: e.prios }
def into (e : Edge α) (f : Machine α → Machine α) : Edge α := { e with next := f e.next }

/-- A transition with a higher priority under the same key drops the lower one. -/
def beats (e e' : Edge α) : Bool := e.prios.any fun p => e'.prios.any fun q => Nat.beq p.1 q.1 && Nat.blt q.2 p.2

end Edge

namespace Machine

def edges : Machine α → Nat → List (Edge α)
  | .eps, _ => []
  | .set s, c => if s.mem c then [{ next := .eps }] else []
  | .cat a b, c =>
    (edges a c).map (·.into (seq · b)) ++ (if nullable a then (edges b c).map (·.act (out a)) else [])
  | .alt a b, c => edges a c ++ edges b c
  | .star m, c => (edges m c).map (·.into (seq · (.star m)))
  | .entering t x m, c => (edges m c).map (·.act [(t, x)])
  | .finishing t x m, c =>
    (edges m c).map fun e => (if nullable e.next then e.act [(t, x)] else e).into (.finishing t x)
  | .leaving t x m, c => (edges m c).map (·.into (.leaving t x))
  | .prioAll k l m, c => (edges m c).map fun e => (e.prio k l).into (.prioAll k l)
  | .prioEnter k l m, c => (edges m c).map (·.prio k l)
  | .prioFinish k l m, c =>
    (edges m c).map fun e => (if nullable e.next then e.prio k l else e).into (.prioFinish k l)

end Machine

/-! ## Running -/

section
variable [DecidableEq α]

/-- Inserts by time stamp. -/
def insertAct (a : Nat × α) : List (Nat × α) → List (Nat × α)
  | [] => [a]
  | b :: bs => if Nat.ble a.1 b.1 then a :: b :: bs else b :: insertAct a bs

def sortActs : List (Nat × α) → List (Nat × α)
  | [] => []
  | a :: as => insertAct a (sortActs as)

/-- The first occurrence of each. -/
def firsts {β : Type} [DecidableEq β] : List β → List β
  | [] => []
  | b :: bs => b :: (firsts bs).filter (· ≠ b)

/-- The threads of a machine's state; none is the error state. -/
abbrev Threads (α : Type) := List (Machine α)

def survivors (s : Threads α) (c : Nat) : List (Edge α) :=
  let es := s.flatMap fun m => m.edges c
  es.filter fun e => !es.any (·.beats e)

def step (s : Threads α) (c : Nat) : Threads α × List α :=
  let es := survivors s c
  (firsts (es.map (·.next)), firsts ((sortActs (es.flatMap (·.acts))).map (·.2)))

def isFinal (s : Threads α) : Bool := s.any Machine.nullable

/-- No byte leads on. -/
def isStuck (s : Threads α) : Bool := (List.range 256).all fun c => (step s c).1 = []

end

end LjrServer.Lib.Ragel
