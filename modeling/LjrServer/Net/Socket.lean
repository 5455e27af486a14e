/-
  LjrServer.Net.Socket — a socket, its descriptor and the two addresses it remembers
  (socket.cpp).

  A descriptor is known by its place among those the kernel made for the socket, since the
  kernel gives a closed descriptor's number out again. What the kernel answers to the system
  calls of one call is recorded with the call. The record keeps every address the kernel
  reported, with the descriptor it was asked about.

  Proved:
  - `truthful_step`: a call keeps the remembered addresses those of the descriptor in use
    exactly when it does not open a descriptor while an address is remembered.
  - `truthful_iff`: the same for a run.
  - `reused_socket`: a socket that is bound, closed and bound again.
-/

import LjrServer.Lib.Flat
import LjrServer.Lib.Runs

namespace LjrServer.Net

open LjrServer.Lib

def AF_UNIX : Int := 1
def AF_INET : Int := 2
def AF_INET6 : Int := 10

/-- `m_addr` as bytes; `length` is the `m_length` of a `UnixAddress`. -/
inductive Address where
  | IPv4Address (addr : List UInt8)
  | IPv6Address (addr : List UInt8)
  | UnixAddress (addr : List UInt8) (length : Nat)
  | UnkonwnAddress (addr : List UInt8)
  deriving DecidableEq, Repr

namespace Address

/-- A zeroed `sockaddr` of a family. -/
def zeroed (size : Nat) (family : Int) : List UInt8 :=
  UInt8.ofNat (family % 256).toNat :: UInt8.ofNat (family / 256 % 256).toNat :: List.replicate (size - 2) 0

/-- The switch over the family. -/
def create (family : Int) : Address :=
  if family = AF_INET then .IPv4Address (zeroed 16 family)
  else if family = AF_INET6 then .IPv6Address (zeroed 28 family)
  else if family = AF_UNIX then .UnixAddress (zeroed 110 family) 109
  else .UnkonwnAddress (zeroed 16 family)

def getAddrLen : Address → Nat
  | IPv4Address addr => addr.length
  | IPv6Address addr => addr.length
  | UnixAddress _ length => length
  | UnkonwnAddress addr => addr.length

def setAddr (f : List UInt8 → List UInt8) : Address → Address
  | IPv4Address addr => .IPv4Address (f addr)
  | IPv6Address addr => .IPv6Address (f addr)
  | UnixAddress addr length => .UnixAddress (f addr) length
  | UnkonwnAddress addr => .UnkonwnAddress (f addr)

def setAddrLen (v : Nat) : Address → Address
  | UnixAddress addr _ => .UnixAddress addr v
  | a => a

/-- The object of a family, with a `sockaddr` the kernel wrote into it as far as it fits. -/
def filled (family : Int) (sockaddr : List UInt8) : Address :=
  let result := create family
  let result := result.setAddr fun addr => splice addr 0 (sockaddr.take result.getAddrLen)
  if family = AF_UNIX then result.setAddrLen sockaddr.length else result

end Address

/-- Which system call an address is from, `getsockname` or `getpeername`. -/
inductive Side where
  | name
  | peer
  deriving DecidableEq, Repr

/-- The kernel's answers: whether `socket`, `bind` and `connect` succeed, and what
    `getsockname` and `getpeername` fill in. -/
structure Answers where
  socket : Bool := true
  bind : Bool := true
  connect : Bool := true
  address : Side → Option (List UInt8)

/-- `sock` is none for -1. `made` and `reported` are what the kernel did so far: how many
    descriptors it made, and which addresses it reported for which. -/
structure Socket where
  sock : Option Nat := none
  family : Int
  isConnected : Bool := false
  localAddress : Option Address := none
  remoteAddress : Option Address := none
  made : Nat := 0
  reported : List (Nat × Side × Address) := []

namespace Socket

def cached (s : Socket) : Side → Option Address
  | .name => s.localAddress
  | .peer => s.remoteAddress

def cache (s : Socket) (side : Side) (result : Address) : Socket :=
  match side with
  | .name => { s with localAddress := some result }
  | .peer => { s with remoteAddress := some result }

/-- What the two getters have in common. The kernel knows no descriptor -1. -/
def getAddress (s : Socket) (side : Side) (k : Answers) : Address × Socket :=
  match s.cached side with
  | some address => (address, s)
  | none =>
    match s.sock, k.address side with
    | some fd, some sockaddr =>
      let result := Address.filled s.family sockaddr
      (result, { s.cache side result with reported := (fd, side, result) :: s.reported })
    | _, _ => (.UnkonwnAddress (Address.zeroed 16 s.family), s)

def getLocalAddress (s : Socket) (k : Answers) : Address × Socket := s.getAddress .name k

def getRemoteAddress (s : Socket) (k : Answers) : Address × Socket := s.getAddress .peer k

def isValid (s : Socket) : Bool := s.sock.isSome

def newSock (s : Socket) (k : Answers) : Socket :=
  if k.socket then { s with sock := some s.made, made := s.made + 1 } else { s with sock := none }

/-- What `bind` and `connect` begin with: a new descriptor if there is none. -/
def ready (s : Socket) (k : Answers) : Socket := if s.isValid then s else s.newSock k

/-- `close`, and whether the socket was closed already. -/
def close (s : Socket) : Bool × Socket :=
  if s.isConnected = false ∧ s.sock = none then (true, s)
  else (false, { s with isConnected := false, sock := none })

/-- `addr` is known by its family. -/
def bind (s : Socket) (addr : Int) (k : Answers) : Bool × Socket :=
  let s := s.ready k
  if ¬ s.isValid then (false, s)
  else if addr ≠ s.family then (false, s)
  else if k.bind = false then (false, s)
  else (true, (s.getLocalAddress k).2)

/-- The connect calls with and without a timeout differ in the system call only. -/
def connect (s : Socket) (addr : Int) (k : Answers) : Bool × Socket :=
  let s := s.ready k
  if ¬ s.isValid then (false, s)
  else if addr ≠ s.family then (false, s)
  else if k.connect = false then (false, s.close.2)
  else
    let s := { s with isConnected := true }
    let s := (s.getRemoteAddress k).2
    (true, (s.getLocalAddress k).2)

/-- `init`, on the descriptor that `accept` returned for a new socket. -/
def init (s : Socket) (k : Answers) : Socket :=
  let s := { s with sock := some s.made, made := s.made + 1, isConnected := true }
  let s := (s.getLocalAddress k).2
  (s.getRemoteAddress k).2

inductive Call where
  | bind (addr : Int) (k : Answers)
  | connect (addr : Int) (k : Answers)
  | close
  | getLocalAddress (k : Answers)
  | getRemoteAddress (k : Answers)

def call (s : Socket) : Call → Socket
  | .bind addr k => (s.bind addr k).2
  | .connect addr k => (s.connect addr k).2
  | .close => s.close.2
  | .getLocalAddress k => (s.getLocalAddress k).2
  | .getRemoteAddress k => (s.getRemoteAddress k).2

def exec (s : Socket) (c : Call) : Option Socket := some (s.call c)

/-- A new socket, or one from `accept`. -/
def start (family : Int) : Option Answers → Socket
  | none => { family }
  | some k => init { family } k

/-! ## The addresses that are remembered -/

/-- An address that a getter returns without asking, while there is a descriptor, is one the
    kernel reported for this descriptor. -/
def Truthful (s : Socket) : Prop :=
  ∀ fd side address, s.sock = some fd → s.cached side = some address → (fd, side, address) ∈ s.reported

/-- The call opens a descriptor, and does not close it again. -/
def opens (s : Socket) : Call → Prop
  | .bind _ k => s.sock = none ∧ k.socket = true
  | .connect addr k => s.sock = none ∧ k.socket = true ∧ ¬ (addr = s.family ∧ k.connect = false)
  | _ => False

/-- No address is remembered when a descriptor is opened. -/
def Fits (s : Socket) (c : Call) : Prop := s.opens c → ∀ side, s.cached side = none

/-- The descriptors in use and in the record were made. -/
structure Made (s : Socket) : Prop where
  sock : ∀ fd, s.sock = some fd → fd < s.made
  reported : ∀ r ∈ s.reported, r.1 < s.made

variable {family : Int} {s t u : Socket} {c : Call} {k : Answers} {side : Side} {addr : Int}

/-- What questions to the kernel do to a socket. -/
structure Asked (s t : Socket) : Prop where
  sock : t.sock = s.sock
  made : t.made = s.made
  kept : ∀ r ∈ s.reported, r ∈ t.reported
  fresh : ∀ r ∈ t.reported, r ∈ s.reported ∨ s.sock = some r.1 ∧ s.cached r.2.1 = none
  still : ∀ side address, s.cached side = some address → t.cached side = some address
  cached : ∀ side address, t.cached side = some address → s.cached side = some address ∨
    ∃ fd, s.sock = some fd ∧ (fd, side, address) ∈ t.reported

theorem Asked.refl (s : Socket) : Asked s s :=
  ⟨rfl, rfl, fun _ h => h, fun _ h => .inl h, fun _ _ h => h, fun _ _ h => .inl h⟩

theorem Asked.trans (h : Asked s t) (h' : Asked t u) : Asked s u := by
  refine ⟨h'.sock.trans h.sock, h'.made.trans h.made, fun r hr => h'.kept r (h.kept r hr), ?_,
    fun side address ha => h'.still side address (h.still side address ha), ?_⟩
  · intro r hr
    rcases h'.fresh r hr with hr | ⟨hfd, hnone⟩
    · exact h.fresh r hr
    · refine .inr ⟨h.sock ▸ hfd, ?_⟩
      cases hs : s.cached r.2.1 with
      | none => rfl
      | some address =>
        rw [h.still _ _ hs] at hnone
        cases hnone
  · intro side address ha
    rcases h'.cached side address ha with ha | ⟨fd, hfd, hr⟩
    · rcases h.cached side address ha with ha | ⟨fd, hfd, hr⟩
      · exact .inl ha
      · exact .inr ⟨fd, hfd, h'.kept _ hr⟩
    · exact .inr ⟨fd, h.sock ▸ hfd, hr⟩

theorem cached_cache {result : Address} (s : Socket) (side other : Side) :
    (s.cache side result).cached other = if other = side then some result else s.cached other := by
  cases side <;> cases other <;> rfl

theorem getAddress_asked (s : Socket) (side : Side) (k : Answers) : Asked s (s.getAddress side k).2 := by
  unfold getAddress
  split
  · exact .refl s
  · rename_i hnone
    split
    · rename_i fd sockaddr hfd _
      refine ⟨by cases side <;> rfl, by cases side <;> rfl, fun r hr => List.mem_cons_of_mem _ hr, ?_, ?_, ?_⟩
      · intro r hr
        rcases List.mem_cons.mp hr with rfl | hr
        · exact .inr ⟨hfd, hnone⟩
        · exact .inl hr
      · intro other address ha
        have hne : other ≠ side := by
          intro heq
          rw [heq, hnone] at ha
          cases ha
        calc ((s.cache side (Address.filled s.family sockaddr)).cached other)
            _ = s.cached other := by rw [cached_cache, if_neg hne]
            _ = some address := ha
      · intro other address ha
        have ha : (s.cache side (Address.filled s.family sockaddr)).cached other = some address := ha
        rw [cached_cache] at ha
        split at ha
        · rename_i heq
          cases ha
          subst heq
          exact .inr ⟨fd, hfd, List.mem_cons_self⟩
        · exact .inl ha
    · exact .refl s

/-- Asking keeps a socket as truthful as it was. -/
theorem Asked.truthful (h : Asked s t) : t.Truthful ↔ s.Truthful := by
  constructor
  · intro ht fd side address hfd ha
    rcases h.fresh _ (ht fd side address (h.sock ▸ hfd) (h.still side address ha)) with hr | ⟨-, hnone⟩
    · exact hr
    · rw [ha] at hnone
      cases hnone
  · intro hs fd side address hfd ha
    have hfd : s.sock = some fd := h.sock ▸ hfd
    rcases h.cached side address ha with ha | ⟨fd', hfd', hr⟩
    · exact h.kept _ (hs fd side address hfd ha)
    · rw [hfd] at hfd'
      cases hfd'
      exact hr

theorem Asked.made' (h : Asked s t) (hm : s.Made) : t.Made := by
  constructor
  · intro fd hfd
    rw [h.made]
    exact hm.sock fd (h.sock ▸ hfd)
  · intro r hr
    rw [h.made]
    rcases h.fresh r hr with hr | ⟨hfd, -⟩
    · exact hm.reported r hr
    · exact hm.sock r.1 hfd

theorem truthful_closed (h : s.sock = none) : s.Truthful := by
  intro fd side address hfd
  rw [h] at hfd
  cases hfd

theorem made_ready (hm : s.Made) (k : Answers) : (s.ready k).Made := by
  unfold ready newSock
  split
  · exact hm
  · split
    · refine ⟨?_, fun r hr => Nat.lt_succ_of_lt (hm.reported r hr)⟩
      intro fd hfd
      cases hfd
      exact Nat.lt_succ_self s.made
    · exact ⟨fun fd hfd => (nomatch hfd), hm.reported⟩

theorem truthful_ready (hm : s.Made) (hs : s.Truthful) :
    (s.ready k).Truthful ↔ (s.sock = none ∧ k.socket = true → ∀ side, s.cached side = none) := by
  unfold ready newSock
  cases hsock : s.sock with
  | some fd => simpa [isValid, hsock] using hs
  | none =>
    cases hk : k.socket with
    | false => simpa [isValid, hsock] using truthful_closed rfl
    | true =>
      simp only [isValid, hsock, Option.isSome_none, Bool.false_eq_true, if_false, if_true, true_and, forall_const]
      constructor
      · intro ht side
        cases ha : s.cached side with
        | none => rfl
        | some address =>
          -- the new descriptor is not in the record yet
          have hr := ht s.made side address rfl (by cases side <;> exact ha)
          exact absurd (hm.reported _ hr) (Nat.lt_irrefl _)
      · intro hnone fd side address _ ha
        have ha : s.cached side = some address := by cases side <;> exact ha
        rw [hnone side] at ha
        cases ha

theorem bind_asked (s : Socket) (addr : Int) (k : Answers) : Asked (s.ready k) (s.bind addr k).2 := by
  unfold bind
  simp only
  split
  · exact .refl _
  · split
    · exact .refl _
    · split
      · exact .refl _
      · exact getAddress_asked _ _ _

/-- A failed `connect` closes the socket; else it asks for the addresses. -/
theorem connect_asked (s : Socket) (addr : Int) (k : Answers) :
    addr = s.family ∧ k.connect = false ∧ (s.connect addr k).2.sock = none ∨
      ¬ (addr = s.family ∧ k.connect = false) ∧ Asked (s.ready k) (s.connect addr k).2 := by
  have hfamily : (s.ready k).family = s.family := by
    unfold ready newSock
    split
    · rfl
    · split <;> rfl
  rw [← hfamily]
  unfold connect
  simp only
  split
  · rename_i hinvalid
    by_cases hfails : addr = (s.ready k).family ∧ k.connect = false
    · refine .inl ⟨hfails.1, hfails.2, ?_⟩
      simpa [isValid] using hinvalid
    · exact .inr ⟨hfails, .refl _⟩
  · split
    · rename_i hne
      exact .inr ⟨fun h => hne h.1, .refl _⟩
    · rename_i heq
      split
      · rename_i hfailed
        refine .inl ⟨not_not.mp heq, hfailed, ?_⟩
        unfold close
        split
        · rename_i hclosed
          exact hclosed.2
        · rfl
      · rename_i hdone
        refine .inr ⟨fun h => hdone h.2, ?_⟩
        have hflag : Asked (s.ready k) { s.ready k with isConnected := true } :=
          ⟨rfl, rfl, fun _ h => h, fun _ h => .inl h, fun _ _ h => h, fun _ _ h => .inl h⟩
        exact (hflag.trans (getAddress_asked _ .peer k)).trans (getAddress_asked _ .name k)

/-- The kernel's record, and the descriptor if there still is one, are as they were. -/
theorem Made.closed (hm : s.Made) (hsock : t.sock = s.sock ∨ t.sock = none) (hmade : t.made = s.made)
    (hreported : t.reported = s.reported) : t.Made := by
  constructor
  · intro fd hfd
    rw [hmade]
    rcases hsock with hsock | hsock
    · exact hm.sock fd (hsock ▸ hfd)
    · rw [hsock] at hfd
      cases hfd
  · intro r hr
    rw [hmade]
    exact hm.reported r (hreported ▸ hr)

theorem made_close (hm : s.Made) : s.close.2.Made := by
  unfold close
  split
  · exact hm
  · exact hm.closed (.inr rfl) rfl rfl

theorem made_connect (hm : s.Made) (addr : Int) (k : Answers) : (s.connect addr k).2.Made := by
  have hready := made_ready hm k
  unfold connect
  simp only
  split
  · exact hready
  · split
    · exact hready
    · split
      · exact made_close hready
      · have hflag : ({ s.ready k with isConnected := true } : Socket).Made := hready.closed (.inl rfl) rfl rfl
        exact (getAddress_asked _ .name k).made' ((getAddress_asked _ .peer k).made' hflag)

theorem made_step (hm : s.Made) (h : exec s c = some t) : t.Made := by
  cases h
  cases c with
  | bind addr k => exact (bind_asked s addr k).made' (made_ready hm k)
  | connect addr k => exact made_connect hm addr k
  | close => exact made_close hm
  | getLocalAddress k => exact (getAddress_asked s .name k).made' hm
  | getRemoteAddress k => exact (getAddress_asked s .peer k).made' hm

theorem truthful_step (hm : s.Made) (hs : s.Truthful) (h : exec s c = some t) : t.Truthful ↔ s.Fits c := by
  cases h
  cases c with
  | bind addr k =>
    have hasked : (s.call (.bind addr k)).Truthful ↔ (s.ready k).Truthful := (bind_asked s addr k).truthful
    rw [hasked]
    exact truthful_ready hm hs
  | connect addr k =>
    rcases connect_asked s addr k with ⟨hfamily, hfailed, hclosed⟩ | ⟨hstays, hasked⟩
    · exact iff_of_true (truthful_closed hclosed) fun hopens => absurd ⟨hfamily, hfailed⟩ hopens.2.2
    · have hasked : (s.call (.connect addr k)).Truthful ↔ (s.ready k).Truthful := hasked.truthful
      rw [hasked, truthful_ready hm hs]
      constructor
      · intro hready hopens
        exact hready ⟨hopens.1, hopens.2.1⟩
      · intro hfits hopens
        exact hfits ⟨hopens.1, hopens.2, hstays⟩
  | close =>
    refine iff_of_true ?_ fun hopens => absurd hopens id
    apply truthful_closed
    change s.close.2.sock = none
    unfold close
    split
    · rename_i hclosed
      exact hclosed.2
    · rfl
  | getLocalAddress k =>
    exact iff_of_true ((getAddress_asked s .name k).truthful.mpr hs) fun hopens => absurd hopens id
  | getRemoteAddress k =>
    exact iff_of_true ((getAddress_asked s .peer k).truthful.mpr hs) fun hopens => absurd hopens id

theorem start_ok (family : Int) (accepted : Option Answers) :
    (start family accepted).Made ∧ (start family accepted).Truthful := by
  cases accepted with
  | none =>
    refine ⟨⟨fun fd hfd => (nomatch hfd), fun r hr => (nomatch hr)⟩, truthful_closed rfl⟩
  | some k =>
    let opened : Socket := { family, sock := some 0, made := 1, isConnected := true }
    have hasked : Asked opened (start family (some k)) :=
        (getAddress_asked opened .name k).trans (getAddress_asked _ .peer k)
    have hmade : opened.Made := ⟨fun fd hfd => Option.some.inj hfd ▸ Nat.one_pos, fun r hr => (nomatch hr)⟩
    have htruthful : opened.Truthful := by
      intro fd side address _ ha
      cases side <;> cases ha
    exact ⟨hasked.made' hmade, hasked.truthful.mpr htruthful⟩

/-- In all states of a run the remembered addresses are those of the descriptor in use,
    exactly when no call of it opens a descriptor while an address is remembered. -/
theorem truthful_iff {τ : History Socket Call} {accepted : Option Answers} (h : Run exec (start family accepted) τ s) :
    (∀ u ∈ s :: τ.map Prod.fst, u.Truthful) ↔ Meets Fits τ := by
  obtain ⟨hmade, htruthful⟩ := start_ok family accepted
  exact (h.throughout_iff hmade htruthful (fun _ _ _ => made_step) fun _ _ _ => truthful_step).2

/-- A connection, and its addresses. -/
theorem truthful_iff_connect : ∃ τ s, Run exec (start AF_INET none) τ s ∧ s.localAddress.isSome = true ∧
    ((∀ u ∈ s :: τ.map Prod.fst, u.Truthful) ↔ Meets Fits τ) := by
  have hrun := Run.step (.step (Run.nil : Run exec (start AF_INET none) [] _)
      (a := .connect AF_INET { address := fun _ => some [2, 0, 31, 144, 127, 0, 0, 1] }) rfl)
    (a := .getLocalAddress { address := fun _ => none }) rfl
  exact ⟨_, _, hrun, by decide, truthful_iff hrun⟩

/-- Bound to one port, closed and bound to another, a socket tells the first. -/
theorem reused_socket : ∃ τ s, Run exec (start AF_INET none) τ s ∧ s.sock = some 1 ∧
    s.localAddress = some (Address.filled AF_INET [2, 0, 31, 144, 127, 0, 0, 1]) ∧ ¬ s.Truthful := by
  let first : Answers := { address := fun _ => some [2, 0, 31, 144, 127, 0, 0, 1] }
  let second : Answers := { address := fun _ => some [2, 0, 35, 40, 127, 0, 0, 1] }
  have hrun := Run.step (.step (.step (Run.nil : Run exec (start AF_INET none) [] _) (a := .bind AF_INET first) rfl)
    (a := .close) rfl) (a := .bind AF_INET second) rfl
  refine ⟨_, _, hrun, rfl, by decide, ?_⟩
  intro h
  have hr := h 1 .name _ rfl rfl
  exact absurd hr (by decide)

end Socket

end LjrServer.Net
