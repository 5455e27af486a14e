/-
  LjrServer.Net.TcpServer — how a TCP server binds its addresses (tcp_server.cpp).

  Each address comes with what the kernel answers to the calls made for it. The sockets that
  listen go behind those the server has; when an address has failed all of them are dropped,
  those of earlier calls too.

  Proved:
  - `bindAll_eq`: what the loop adds to the sockets and to the failed addresses.
  - `bind_all_or_nothing_iff`: `bind` is all or nothing exactly when no address fails or
    there were no sockets before.
-/

import LjrServer.Net.Socket

namespace LjrServer.Net

/-- Of an address, whose `getFamily` this is; `listen` is whether the system call succeeds. -/
structure Endpoint (Addr : Type) where
  addr : Addr
  family : Int
  answers : Answers
  listen : Bool

namespace Socket

/-- The type and the protocol are those of TCP. -/
def CreateTCP (family : Int) : Socket := { family }

def listen (s : Socket) (answer : Bool) : Bool := s.isValid && answer

end Socket

/-- `m_socks`; `bind` reads nothing else of a server. -/
structure TcpServer where
  socks : List Socket

namespace Endpoint

variable {Addr : Type}

def bind (e : Endpoint Addr) : Bool × Socket := (Socket.CreateTCP e.family).bind e.family e.answers

/-- The address is bound and listened on. -/
def Listens (e : Endpoint Addr) : Prop := e.bind.1 = true ∧ e.bind.2.listen e.listen = true

instance (e : Endpoint Addr) : Decidable e.Listens := inferInstanceAs (Decidable (_ ∧ _))

end Endpoint

namespace TcpServer

variable {Addr : Type}

/-- The loop over the addresses: `m_socks` and `fails`. -/
def bindAll : List (Endpoint Addr) → List Socket → List Addr → List Socket × List Addr
  | [], socks, fails => (socks, fails)
  | e :: addrs, socks, fails =>
    let (bound, sock) := e.bind
    if bound = false then bindAll addrs socks (fails ++ [e.addr])
    else if sock.listen e.listen = false then bindAll addrs socks (fails ++ [e.addr])
    else bindAll addrs (socks ++ [sock]) fails

def bind (s : TcpServer) (addrs : List (Endpoint Addr)) (fails : List Addr) : Bool × List Addr × TcpServer :=
  let (socks, fails) := bindAll addrs s.socks fails
  if fails ≠ [] then (false, fails, { s with socks := [] }) else (true, fails, { s with socks })

/-- The overload for one address. -/
def bindOne (s : TcpServer) (addr : Endpoint Addr) : Bool × TcpServer :=
  let (ok, _, s) := s.bind [addr] []
  (ok, s)

/-- All addresses, or none of them and a list of those that failed. -/
structure AllOrNothing (s : TcpServer) (addrs : List (Endpoint Addr)) (result : Bool × List Addr × TcpServer) :
    Prop where
  all : result.1 = true ↔ ∀ e ∈ addrs, e.Listens
  bound : result.1 = true → result.2.2.socks = s.socks ++ addrs.map fun e => e.bind.2
  failed : result.1 = false → result.2.1 = (addrs.filter fun e => ¬ e.Listens).map (·.addr)
  kept : result.1 = false → result.2.2.socks = s.socks

variable {addrs : List (Endpoint Addr)}

theorem bindAll_cons (e : Endpoint Addr) (addrs : List (Endpoint Addr)) (socks : List Socket) (fails : List Addr) :
    bindAll (e :: addrs) socks fails =
      if e.Listens then bindAll addrs (socks ++ [e.bind.2]) fails else bindAll addrs socks (fails ++ [e.addr]) := by
  change (if e.bind.1 = false then bindAll addrs socks (fails ++ [e.addr])
    else if e.bind.2.listen e.listen = false then bindAll addrs socks (fails ++ [e.addr])
    else bindAll addrs (socks ++ [e.bind.2]) fails) = _
  cases hbind : e.bind.1 with
  | false =>
    have hnot : ¬ e.Listens := fun h => Bool.false_ne_true (hbind.symm.trans h.1)
    rw [if_pos rfl, if_neg hnot]
  | true =>
    cases hlisten : e.bind.2.listen e.listen with
    | false =>
      have hnot : ¬ e.Listens := fun h => Bool.false_ne_true (hlisten.symm.trans h.2)
      rw [if_neg Bool.false_ne_true.symm, if_pos rfl, if_neg hnot]
    | true =>
      rw [if_neg Bool.false_ne_true.symm, if_neg Bool.false_ne_true.symm, if_pos (show e.Listens from ⟨hbind, hlisten⟩)]

theorem bindAll_eq : ∀ (addrs : List (Endpoint Addr)) (socks : List Socket) (fails : List Addr),
    bindAll addrs socks fails = (socks ++ (addrs.filter fun e => e.Listens).map (fun e => e.bind.2),
      fails ++ (addrs.filter fun e => ¬ e.Listens).map (·.addr))
  | [], _, _ => by
    rw [bindAll, List.filter_nil, List.filter_nil, List.map_nil, List.map_nil, List.append_nil, List.append_nil]
  | e :: addrs, socks, fails => by
    rw [bindAll_cons]
    by_cases h : e.Listens
    · rw [if_pos h, bindAll_eq addrs, List.filter_cons_of_pos (by simpa using h),
        List.filter_cons_of_neg (by simpa using h), List.map_cons, List.append_assoc]
      rfl
    · rw [if_neg h, bindAll_eq addrs, List.filter_cons_of_neg (by simpa using h),
        List.filter_cons_of_pos (by simpa using h), List.map_cons, List.append_assoc]
      rfl

theorem failing_iff : (addrs.filter fun e => ¬ e.Listens).map (·.addr) = [] ↔ ∀ e ∈ addrs, e.Listens := by
  rw [List.map_eq_nil_iff, List.filter_eq_nil_iff]
  simp

/-- Nothing fails, or nothing is there to be lost. -/
theorem bind_all_or_nothing_iff (s : TcpServer) (addrs : List (Endpoint Addr)) :
    AllOrNothing s addrs (s.bind addrs []) ↔ (∀ e ∈ addrs, e.Listens) ∨ s.socks = [] := by
  unfold bind
  rw [bindAll_eq, List.nil_append]
  dsimp only
  by_cases hall : ∀ e ∈ addrs, e.Listens
  · have hkeep : (addrs.filter fun e => e.Listens) = addrs :=
      List.filter_eq_self.mpr fun e he => by simpa using hall e he
    rw [if_neg fun h => h (failing_iff.mpr hall), hkeep]
    refine iff_of_true ?_ (.inl hall)
    exact ⟨iff_of_true rfl hall, fun _ => rfl, fun h => Bool.noConfusion h, fun h => Bool.noConfusion h⟩
  · rw [if_pos fun h => hall (failing_iff.mp h)]
    constructor
    · intro h
      exact .inr (h.kept rfl).symm
    · intro h
      have hsocks : s.socks = [] := h.resolve_left hall
      exact ⟨iff_of_false Bool.false_ne_true hall, fun htrue => Bool.noConfusion htrue, fun _ => rfl,
        fun _ => hsocks.symm⟩

/-- An address that is in use is asked for on a server that listens on another one. -/
theorem earlier_sockets_dropped : ∃ s : TcpServer, s.socks.length = 1 ∧
    ¬ AllOrNothing s [(⟨8021, AF_INET, { bind := false, address := fun _ => none }, true⟩ : Endpoint Nat)]
      (s.bind [⟨8021, AF_INET, { bind := false, address := fun _ => none }, true⟩] []) := by
  refine ⟨(bindOne ⟨[]⟩ (⟨8020, AF_INET, { address := fun _ => none }, true⟩ : Endpoint Nat)).2, by decide, ?_⟩
  intro h
  exact absurd (congrArg List.length (h.kept rfl)) (by decide)

end TcpServer

end LjrServer.Net
