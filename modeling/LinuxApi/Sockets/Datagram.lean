import LinuxApi.Transition.System
import Mathlib.Logic.Function.Basic
import Mathlib.Tactic.Common

/-! `socket_unix_domain_datagram_server` with any number of
`socket_unix_domain_datagram_client` processes. A client's address is its process. A
datagram is delivered whole, once and in order, to the socket bound at its destination;
`sendto` fails when no process holds such a socket. Senders without an address of their
own may write to the server at any time. -/

namespace LinuxApi.Datagram

/-- `BUF_SIZE` -/
def bufSize : ℕ := 100

abbrev Message := List UInt8

/-- Where the server is; `sendto` holds what `recvfrom` left in `buf`, and the address in
`client_addr` and `len`, which is empty for a sender that has none. -/
inductive ServerPc (P : Type*) where
  | socket | remove | bind | recvfrom
  | sendto (buf : Message) (sender : Option P)
  | exited
  deriving DecidableEq

/-- Where a client is. -/
inductive ClientPc where
  | socket | bind | read | sendto (buf : Message) | recvfrom | exited
  deriving DecidableEq

/-- A client with the datagrams waiting at its socket, and the messages it has sent and
received so far. -/
structure Client where
  pc : ClientPc
  inbox : List Message
  sent : List Message
  received : List Message
  deriving DecidableEq

/-- The server, the datagrams waiting at its socket with their senders' addresses, and
the clients. -/
structure State (P : Type*) where
  server : ServerPc P
  inbox : List (Option P × Message)
  clients : P → Client

/-- One process makes its next call. `ok` is false where the call returns -1 for a reason
of its own; `exit` ends a client from outside, and `stray` is a datagram from a sender
that never bound an address. -/
inductive Action (P : Type*) where
  | server (ok : Bool)
  | client (p : P) (ok : Bool)
  | read (p : P) (r : Option Message)
  | exit (p : P)
  | stray (m : Message)
  deriving DecidableEq

/-- The server's socket is bound. -/
def ServerPc.bound {P : Type*} : ServerPc P → Bool
  | .recvfrom | .sendto _ _ => true
  | _ => false

/-- The client's socket is bound and its process alive. -/
def ClientPc.bound : ClientPc → Bool
  | .read | .sendto _ | .recvfrom => true
  | _ => false

def Client.goto (c : Client) (pc : ClientPc) : Client := { c with pc }

variable {P : Type*} [DecidableEq P]

namespace State

/-- Client `p` changes. -/
def put (s : State P) (p : P) (c : Client) : State P :=
  { s with clients := Function.update s.clients p c }

def gotoServer (s : State P) (pc : ServerPc P) : State P := { s with server := pc }

/-- A datagram arrives at the socket of client `p`. -/
def deliver (s : State P) (p : P) (m : Message) : State P :=
  s.put p { s.clients p with inbox := (s.clients p).inbox ++ [m] }

/-- The server's `sendto`, and its `errExit` when the address has no live socket. -/
def reply (s : State P) (buf : Message) : Option P → State P
  | some p => if (s.clients p).pc.bound then (s.deliver p buf).gotoServer .recvfrom
      else s.gotoServer .exited
  | none => s.gotoServer .exited

end State

open State

/-- The next call of the server. -/
def serverStep (s : State P) (ok : Bool) : Option (State P) :=
  match s.server with
  | .socket => some (s.gotoServer (if ok then .remove else .exited))
  | .remove => some (s.gotoServer (if ok then .bind else .exited))
  | .bind => some (s.gotoServer (if ok then .recvfrom else .exited))
  | .recvfrom =>
    if ok then
      match s.inbox with
      | [] => none
      | (sender, m) :: rest =>
        some ({ s with inbox := rest }.gotoServer (.sendto (m.take bufSize) sender))
    else some (s.gotoServer .exited)
  | .sendto buf sender => some (if ok then s.reply buf sender else s.gotoServer .exited)
  | .exited => none

/-- The next call of client `p` other than its `read`. -/
def clientStep (s : State P) (p : P) (ok : Bool) : Option (State P) :=
  match (s.clients p).pc with
  | .socket => some (s.put p ((s.clients p).goto (if ok then .bind else .exited)))
  | .bind => some (s.put p ((s.clients p).goto (if ok then .read else .exited)))
  | .sendto buf =>
    if ok ∧ s.server.bound then
      some ({ s with inbox := s.inbox ++ [(some p, buf)] }.put p
        { s.clients p with pc := .recvfrom, sent := (s.clients p).sent ++ [buf] })
    else some (s.put p ((s.clients p).goto .exited))
  | .recvfrom =>
    if ok then
      match (s.clients p).inbox with
      | [] => none
      | m :: rest =>
        some (s.put p { s.clients p with
          pc := .read, inbox := rest, received := (s.clients p).received ++ [m.take bufSize] })
    else some (s.put p ((s.clients p).goto .exited))
  | .read | .exited => none

/-- `read(STDIN_FILENO, buf, BUF_SIZE)`: a message, which is empty at the end of the input,
or -1. -/
def clientRead (s : State P) (p : P) (r : Option Message) : Option (State P) :=
  if (s.clients p).pc = .read then
    match r with
    | some m =>
      if m.length ≤ bufSize then some (s.put p ((s.clients p).goto (.sendto m))) else none
    | none => some (s.put p ((s.clients p).goto .exited))
  else none

/-- A client ends, wherever it is. -/
def clientExit (s : State P) (p : P) : Option (State P) :=
  if (s.clients p).pc = .exited then none else some (s.put p ((s.clients p).goto .exited))

/-- A datagram without a sender's address arrives at the server. -/
def strayStep (s : State P) (m : Message) : Option (State P) :=
  if s.server.bound then some { s with inbox := s.inbox ++ [(none, m)] } else none

variable (P) in
/-- The server and the clients `P`, each with a process of its own; `serverMayFail` admits
calls of the server that fail although the address they name has a live socket. -/
def system (serverMayFail : Bool) : System (State P) (Action P) where
  init s := s = ⟨.socket, [], fun _ => ⟨.socket, [], [], []⟩⟩
  step s
    | .server ok => if ok || serverMayFail then serverStep s ok else none
    | .client p ok => clientStep s p ok
    | .read p r => clientRead s p r
    | .exit p => clientExit s p
    | .stray m => strayStep s m

end LinuxApi.Datagram
