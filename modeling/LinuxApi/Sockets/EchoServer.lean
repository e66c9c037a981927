import LinuxApi.Transition.System
import LinuxApi.Transition.Indexed
import Mathlib.Data.List.Basic
import Mathlib.Data.Int.Order.Basic
import Mathlib.Tactic.Common

/-! `socket_echo_server` in `socket_echo_server_example.c`, from the first `accept` on:
the processes it forks, the connections they serve and the SIGCHLDs between them. All
processes run one program; they are numbered in the order of their forks, process 0 is
the original one. SIGCHLD does not queue and is blocked while `signal_handler` runs. -/

namespace LinuxApi.EchoServer

/-- `BUF_SIZE` -/
def bufSize : ℤ := 100

inductive Status where
  | success | failure | killed
  deriving DecidableEq

/-- Where `socket_echo_server` is, and `echo` where it calls it, with the connection in
`client_sock`; `write c n` holds the result of `read`. -/
inductive Pc where
  | accept
  | fork (c : ℕ) | forkFailed (c : ℕ) | closeClient (c : ℕ)
  | closeListen (c : ℕ) | read (c : ℕ) | write (c : ℕ) (numread : ℤ)
  | exited (status : Status)
  deriving DecidableEq

/-- Where `signal_handler` is; `leave` follows the `waitpid` that returned 0 or -1. -/
inductive HandlerPc where
  | wait | leave
  deriving DecidableEq

/-- What a process has done: called `accept` or `fork`, called `read` or `write` on a
connection, returned from `echo` on end of file, or called `exit`. -/
inductive Event where
  | accept | fork | serve (c : ℕ) | eof | exit (status : Status)
  deriving DecidableEq

/-- A process. `forkedFor` is the connection in `client_sock` at its fork, and `events`
what it has done since. -/
structure Proc where
  parent : Option ℕ
  forkedFor : Option ℕ
  pc : Pc
  listenOpen : Bool
  pending : Bool
  handler : Option HandlerPc
  reaped : Bool
  events : List Event
  deriving DecidableEq

/-- The processes and the number of connections that have arrived and been accepted. -/
structure State where
  procs : List Proc
  arrived : ℕ
  accepted : ℕ
  deriving DecidableEq

/-- The process has not terminated. -/
def Proc.live (P : Proc) : Bool :=
  match P.pc with
  | .exited _ => false
  | _ => true

/-- A child of `q` that has terminated and not been waited for. -/
def Proc.zombieOf (q : ℕ) (K : Proc) : Bool := K.parent = some q ∧ !K.live ∧ !K.reaped

/-- Some child of `q` is such a zombie. -/
def State.zombie (s : State) (q : ℕ) : Bool := s.procs.any (Proc.zombieOf q)

/-- A process does something and goes on at `pc`. -/
def Proc.goto (P : Proc) (es : List Event) (pc : Pc) : Proc :=
  { P with pc, events := P.events ++ es }

/-- SIGCHLD becomes pending in a process. -/
def Proc.raise (P : Proc) : Proc := { P with pending := true }

/-- Process `p` changes. -/
def State.modify (s : State) (p : ℕ) (f : Proc → Proc) : State :=
  { s with procs := s.procs.modify p f }

/-- A new process. -/
def State.add (s : State) (K : Proc) : State := { s with procs := s.procs ++ [K] }

/-- SIGCHLD is sent to a process's parent. -/
def State.raise (s : State) (parent : Option ℕ) : State :=
  match parent with
  | some q => s.modify q .raise
  | none => s

/-- The end of a process. -/
def Proc.exit (P : Proc) (es : List Event) (status : Status) : Proc :=
  { P.goto es (.exited status) with handler := none }

/-- Process `p`, which is `P`, terminates. -/
def State.exit (s : State) (p : ℕ) (P : Proc) (es : List Event) (status : Status) : State :=
  (s.modify p (·.exit es status)).raise P.parent

/-- `errExit` -/
def State.errExit (s : State) (p : ℕ) (P : Proc) (es : List Event) : State :=
  s.exit p P (es ++ [.exit .failure]) .failure

/-- The child of a `fork`: its `client_sock` and `listen_sock` are its parent's. -/
def Proc.child (P : Proc) (p c : ℕ) : Proc :=
  ⟨some p, some c, .closeListen c, P.listenOpen, false, none, false, []⟩

/-- The next system call of process `p`, which returns `r` where the environment has a
choice. `accept` fails on a closed `listen_sock` and blocks without a connection. -/
def mainStep (s : State) (p : ℕ) (P : Proc) (r : ℤ) : Option State :=
  match P.pc with
  | .accept =>
    if P.listenOpen = false ∨ r < 0 then some (s.errExit p P [.accept])
    else if s.accepted < s.arrived then
      some ({ s with accepted := s.accepted + 1 }.modify p (·.goto [.accept] (.fork s.accepted)))
    else none
  | .fork c =>
    if r < 0 then some (s.modify p (·.goto [.fork] (.forkFailed c)))
    else some ((s.modify p (·.goto [.fork] (.closeClient c))).add (P.child p c))
  | .forkFailed _ => some (s.errExit p P [])
  | .closeClient _ => some (s.modify p (·.goto [] .accept))
  | .closeListen c => some (s.modify p fun P => { P.goto [] (.read c) with listenOpen := false })
  | .read c =>
    if r < 0 then some (s.errExit p P [.serve c])
    -- the end of file leaves `echo` and the `switch`, not the loop around it
    else if r = 0 then some (s.modify p (·.goto [.serve c, .eof] .accept))
    else if r ≤ bufSize then some (s.modify p (·.goto [.serve c] (.write c r)))
    else none
  | .write c n =>
    if r = n then some (s.modify p (·.goto [.serve c] (.read c)))
    else if r < n then some (s.errExit p P [.serve c])
    else none
  | .exited _ => none

/-- `signal_handler` in process `q`. Its `waitpid` may return any zombie; it returns 0
or -1 when there is none. -/
def handlerStep (s : State) (q : ℕ) (Q : Proc) (pid : Option ℕ) : Option State :=
  match Q.handler, pid with
  | some .wait, some k =>
    if s.procs[k]?.any (Proc.zombieOf q) then some (s.modify k ({ · with reaped := true })) else none
  | some .wait, none =>
    if s.zombie q then none else some (s.modify q ({ · with handler := some .leave }))
  | some .leave, _ => some (s.modify q ({ · with handler := none }))
  | none, _ => none

/-- A client connects; a process makes its next system call, starts its handler or
takes a step of it; a process is killed; or SIGCHLD arrives for another reason. -/
inductive Action where
  | connect
  | main (p : ℕ) (r : ℤ)
  | deliver (q : ℕ)
  | handler (q : ℕ) (pid : Option ℕ)
  | kill (p : ℕ)
  | extra (q : ℕ)
  deriving DecidableEq

/-- The original process before its first `accept`. -/
def start : State := ⟨[⟨none, none, .accept, true, false, none, false, []⟩], 0, 0⟩

def system : System State Action where
  init s := s = start
  step s
    | .connect => some { s with arrived := s.arrived + 1 }
    | .main p r => s.procs[p]?.bind fun P => if P.handler = none then mainStep s p P r else none
    | .deliver q => s.procs[q]?.bind fun Q =>
        if Q.pending ∧ Q.handler = none ∧ Q.live then
          some (s.modify q ({ · with pending := false, handler := some .wait }))
        else none
    | .handler q pid => s.procs[q]?.bind fun Q => handlerStep s q Q pid
    | .kill p => s.procs[p]?.bind fun P => if P.live then some (s.exit p P [] .killed) else none
    | .extra q => some (s.modify q .raise)

/-! ### What a system call does -/

/-- A process goes on: what it has done and where it is then. -/
inductive GoesOn (P : Proc) (r : ℤ) : List Event → Pc → Prop
  | accept (c : ℕ) (hpc : P.pc = .accept) (ho : P.listenOpen = true) : GoesOn P r [.accept] (.fork c)
  | forkFails (c : ℕ) (hpc : P.pc = .fork c) : GoesOn P r [.fork] (.forkFailed c)
  | forks (c : ℕ) (hpc : P.pc = .fork c) : GoesOn P r [.fork] (.closeClient c)
  | closeClient (c : ℕ) (hpc : P.pc = .closeClient c) : GoesOn P r [] .accept
  | eof (c : ℕ) (hpc : P.pc = .read c) (hr : r = 0) : GoesOn P r [.serve c, .eof] .accept
  | read (c : ℕ) (hpc : P.pc = .read c) : GoesOn P r [.serve c] (.write c r)
  | write (c : ℕ) (n : ℤ) (hpc : P.pc = .write c n) : GoesOn P r [.serve c] (.read c)

/-- A process leaves through `errExit`, having done the events of the list. -/
inductive Fails (P : Proc) : List Event → Prop
  | accept (hpc : P.pc = .accept) : Fails P [.accept]
  | fork (c : ℕ) (hpc : P.pc = .forkFailed c) : Fails P []
  | read (c : ℕ) (hpc : P.pc = .read c) : Fails P [.serve c]
  | write (c : ℕ) (n : ℤ) (hpc : P.pc = .write c n) : Fails P [.serve c]

/-- A process that makes a system call goes on, also with a new child, closes its
`listen_sock`, or ends. -/
theorem mainStep_cases {s t : State} {p : ℕ} {P : Proc} {r : ℤ} (hst : mainStep s p P r = some t) :
    (∃ n es pc, GoesOn P r es pc ∧ t = State.modify { s with accepted := n } p (·.goto es pc)) ∨
      (∃ c, P.pc = .fork c ∧ t = (s.modify p (·.goto [.fork] (.closeClient c))).add (P.child p c)) ∨
        (∃ c, P.pc = .closeListen c ∧
          t = s.modify p fun P => { P.goto [] (.read c) with listenOpen := false }) ∨
          ∃ es, Fails P es ∧ t = s.errExit p P es := by
  cases hpc : P.pc with
  | accept =>
    simp only [mainStep, hpc] at hst
    split_ifs at hst with hfail <;> simp only [Option.some.injEq] at hst <;> subst hst
    · exact .inr (.inr (.inr ⟨_, .accept hpc, rfl⟩))
    · exact .inl ⟨_, _, _, .accept _ hpc (by simpa using fun ho => hfail (.inl ho)), rfl⟩
  | fork c =>
    simp only [mainStep, hpc] at hst
    split_ifs at hst <;> simp only [Option.some.injEq] at hst <;> subst hst
    · exact .inl ⟨s.accepted, _, _, .forkFails c hpc, rfl⟩
    · exact .inr (.inl ⟨c, rfl, rfl⟩)
  | forkFailed c =>
    simp only [mainStep, hpc, Option.some.injEq] at hst
    exact .inr (.inr (.inr ⟨_, .fork c hpc, hst.symm⟩))
  | closeClient c =>
    simp only [mainStep, hpc, Option.some.injEq] at hst
    exact .inl ⟨s.accepted, _, _, .closeClient c hpc, hst.symm⟩
  | closeListen c =>
    simp only [mainStep, hpc, Option.some.injEq] at hst
    exact .inr (.inr (.inl ⟨c, rfl, hst.symm⟩))
  | read c =>
    simp only [mainStep, hpc] at hst
    split_ifs at hst with hlt hz <;> simp only [Option.some.injEq] at hst <;> subst hst
    · exact .inr (.inr (.inr ⟨_, .read c hpc, rfl⟩))
    · exact .inl ⟨s.accepted, _, _, .eof c hpc hz, rfl⟩
    · exact .inl ⟨s.accepted, _, _, .read c hpc, rfl⟩
  | write c n =>
    simp only [mainStep, hpc] at hst
    split_ifs at hst <;> simp only [Option.some.injEq] at hst <;> subst hst
    · exact .inl ⟨s.accepted, _, _, .write c n hpc, rfl⟩
    · exact .inr (.inr (.inr ⟨_, .write c n hpc, rfl⟩))
  | exited st => simp [mainStep, hpc] at hst

/-! ### Properties of every process -/

/-- Every process has a property, which may depend on its number. -/
def State.All (Q : ℕ → Proc → Prop) (s : State) : Prop := ∀ p P, s.procs[p]? = some P → Q p P

/-- A property that signals and their handling do not touch. -/
def Unsignalled (Q : ℕ → Proc → Prop) : Prop :=
  ∀ p P pending handler reaped, Q p P → Q p { P with pending, handler, reaped }

namespace State.All

variable {Q : ℕ → Proc → Prop} {s t : State} {p : ℕ} {P : Proc} {f : Proc → Proc}

theorem start (h : Q 0 ⟨none, none, .accept, true, false, none, false, []⟩) : start.All Q := by
  intro p P hP
  rw [EchoServer.start, List.getElem?_singleton, Option.ite_none_right_eq_some, Option.some.injEq] at hP
  obtain ⟨rfl, rfl⟩ := hP
  exact h

/-- Only the process at `p` changes. -/
theorem modify (h : s.All Q) (hP : s.procs[p]? = some P) (hf : Q p (f P)) : (s.modify p f).All Q := by
  refine forall_getElem?_modify h fun R hR => ?_
  rwa [← Option.some.inj (hP.symm.trans hR)]

theorem add (h : s.All Q) {K : Proc} (hK : Q s.procs.length K) : (s.add K).All Q :=
  forall_getElem?_concat h hK

theorem signal (hQ : Unsignalled Q) (h : s.All Q) (pending : Proc → Bool)
    (handler : Proc → Option HandlerPc) (reaped : Proc → Bool) :
    (s.modify p fun P =>
      { P with pending := pending P, handler := handler P, reaped := reaped P }).All Q :=
  forall_getElem?_modify h fun P hP => hQ p P _ _ _ (h p P hP)

theorem raise (hQ : Unsignalled Q) (h : s.All Q) (parent : Option ℕ) : (s.raise parent).All Q := by
  cases parent with
  | none => exact h
  | some q => exact h.signal hQ (fun _ => true) Proc.handler Proc.reaped

theorem exit (hQ : Unsignalled Q) (h : s.All Q) (hP : s.procs[p]? = some P) {es : List Event}
    {st : Status} (hexit : Q p (P.goto es (.exited st))) : (s.exit p P es st).All Q :=
  (h.modify hP (hQ p _ _ none _ hexit)).raise hQ P.parent

/-- A system call keeps a property of every process if its caller and its child keep it. -/
theorem main {r : ℤ} (hQ : Unsignalled Q) (h : s.All Q) (hP : s.procs[p]? = some P)
    (hst : mainStep s p P r = some t) (hgo : ∀ es pc, GoesOn P r es pc → Q p (P.goto es pc))
    (hchild : ∀ c, P.pc = .fork c → Q s.procs.length (P.child p c))
    (hclose : ∀ c, P.pc = .closeListen c → Q p { P.goto [] (.read c) with listenOpen := false })
    (hfail : ∀ es, Fails P es → Q p (P.goto (es ++ [.exit .failure]) (.exited .failure))) :
    t.All Q := by
  rcases mainStep_cases hst with ⟨n, es, pc, hn, rfl⟩ | ⟨c, hpc, rfl⟩ | ⟨c, hpc, rfl⟩ | ⟨es, hes, rfl⟩
  · exact State.All.modify (s := { s with accepted := n }) h hP (hgo es pc hn)
  · refine (h.modify hP (hgo _ _ (.forks c hpc))).add ?_
    rw [State.modify, List.length_modify]
    exact hchild c hpc
  · exact h.modify hP (hclose c hpc)
  · exact h.exit hQ hP (hfail es hes)

theorem handler {pid : Option ℕ} (hQ : Unsignalled Q) (h : s.All Q)
    (hst : handlerStep s p P pid = some t) : t.All Q := by
  unfold handlerStep at hst
  split at hst
  · simp only [Option.ite_none_right_eq_some, Option.some.injEq] at hst
    obtain ⟨-, rfl⟩ := hst
    exact h.signal hQ Proc.pending Proc.handler fun _ => true
  · simp only [Option.ite_none_left_eq_some, Option.some.injEq] at hst
    obtain ⟨-, rfl⟩ := hst
    exact h.signal hQ Proc.pending (fun _ => some .leave) Proc.reaped
  · simp only [Option.some.injEq] at hst
    subst hst
    exact h.signal hQ Proc.pending (fun _ => none) Proc.reaped
  · simp at hst

/-- For a property that signals do not touch, a step is a system call or a kill. -/
theorem step {a : Action} (hQ : Unsignalled Q) (h : s.All Q) (hst : system.step s a = some t)
    (hmain : ∀ p P r, a = .main p r → s.procs[p]? = some P → mainStep s p P r = some t → t.All Q)
    (hkill : ∀ p P, Q p P → Q p (P.goto [] (.exited .killed))) : t.All Q := by
  cases a with
  | connect =>
    simp only [system, Option.some.injEq] at hst
    subst hst
    exact h
  | main p r =>
    simp only [system, Option.bind_eq_some_iff, Option.ite_none_right_eq_some] at hst
    obtain ⟨P, hP, -, hst⟩ := hst
    exact hmain p P r rfl hP hst
  | deliver q =>
    simp only [system, Option.bind_eq_some_iff, Option.ite_none_right_eq_some, Option.some.injEq] at hst
    obtain ⟨P, -, -, rfl⟩ := hst
    exact h.signal hQ (fun _ => false) (fun _ => some .wait) Proc.reaped
  | handler q pid =>
    simp only [system, Option.bind_eq_some_iff] at hst
    obtain ⟨P, -, hst⟩ := hst
    exact h.handler hQ hst
  | kill p =>
    simp only [system, Option.bind_eq_some_iff, Option.ite_none_right_eq_some, Option.some.injEq] at hst
    obtain ⟨P, hP, -, rfl⟩ := hst
    exact h.exit hQ hP (hkill p P (h p P hP))
  | extra q =>
    simp only [system, Option.some.injEq] at hst
    subst hst
    exact h.signal hQ (fun _ => true) Proc.handler Proc.reaped

end State.All

end LinuxApi.EchoServer
