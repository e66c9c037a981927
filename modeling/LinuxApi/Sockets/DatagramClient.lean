import LinuxApi.Kernel.Stream
import LinuxApi.Transition.System

/-! The loop of `socket_inet_domain_datagram_client` and `socket_unix_domain_datagram_client` at the end of
its input. The 0 of the last `read` is sent on like any other count, as a datagram without bytes, and the
answer to it takes the loop round again. -/

namespace LinuxApi.DatagramClient

/-- `BUF_SIZE` of `socket_inet_domain.h` and `socket_unix_domain.h` -/
def bufSize : ℕ := 100

/-- The call that comes next; `sendto` has what was read into `buf`. -/
inductive Pc where
  | read
  | sendto (buf : List UInt8)
  | recvfrom
  | exited (msg : String)
  deriving DecidableEq

/-- `stdin` is what is not yet read; `sent` and `received` are the datagrams so far. -/
structure State where
  pc : Pc
  stdin : List UInt8
  sent : List (List UInt8)
  received : List (List UInt8)
  deriving DecidableEq

/-- What the next call returns. A datagram is sent whole or not at all; `none` is the -1 of `recvfrom`. -/
inductive Action where
  | read (r : ReadResult)
  | sendto (ok : Bool)
  | recvfrom (m : Option (List UInt8))
  deriving DecidableEq

def readStep (s : State) (r : ReadResult) : Option State :=
  (readStream bufSize s.stdin r).map fun p =>
    if r = .error then { s with pc := .exited "read()" }
    else { s with pc := .sendto p.1, stdin := p.2 }

def step (s : State) (a : Action) : Option State :=
  match s.pc, a with
  | .read, .read r => readStep s r
  | .sendto buf, .sendto ok =>
    some (if ok then { s with pc := .recvfrom, sent := s.sent ++ [buf] }
      else { s with pc := .exited "sendto()" })
  | .recvfrom, .recvfrom (some m) =>
    some { s with pc := .read, received := s.received ++ [m.take bufSize] }
  | .recvfrom, .recvfrom none => some { s with pc := .exited "recvfrom()" }
  | _, _ => none

def start (stdin : List UInt8) : State := ⟨.read, stdin, [], []⟩

/-- The loop of both functions, on any input. -/
def datagramClient : System State Action where
  init s := s = start s.stdin
  step := step

def socketInetDomainDatagramClient : System State Action := datagramClient

def socketUnixDomainDatagramClient : System State Action := datagramClient

/-- No call fails, and the server answers, with whatever it likes. -/
def answered (_ : State) : Action → Bool
  | .read .error | .sendto false | .recvfrom none => false
  | _ => true

/-- The loop has not been left, and the next call will return: the run goes on. -/
def GoesOn (S : System State Action) (s : State) : Prop :=
  (∀ msg, s.pc ≠ .exited msg) ∧ ∃ a t, (S.under answered).step s a = some t

variable {s t : State} {a : Action} {as : List Action}

/-! ### One call -/

/-- The three calls, if none of them fails. -/
theorem step_eq_some (ha : answered s a = true) (h : step s a = some t) :
    (s.pc = .read ∧ ∃ chunk rest, chunk ++ rest = s.stdin ∧ (chunk = [] → s.stdin = []) ∧
      t = { s with pc := .sendto chunk, stdin := rest }) ∨
    (∃ buf, s.pc = .sendto buf ∧ t = { s with pc := .recvfrom, sent := s.sent ++ [buf] }) ∨
    (s.pc = .recvfrom ∧ ∃ m, t = { s with pc := .read, received := s.received ++ [m] }) := by
  unfold step at h
  split at h
  case h_1 r hpc =>
    obtain ⟨⟨chunk, rest⟩, hread, rfl⟩ := Option.map_eq_some_iff.mp h
    have hr : r ≠ .error := by
      rintro rfl
      cases ha
    refine .inl ⟨hpc, chunk, rest, readStream_append hread, readStream_eq_nil hread hr, ?_⟩
    rw [if_neg hr]
  case h_2 buf ok hpc =>
    cases ok with
    | false => cases ha
    | true => exact .inr (.inl ⟨buf, hpc, (Option.some.inj h).symm⟩)
  case h_3 m hpc => exact .inr (.inr ⟨hpc, _, (Option.some.inj h).symm⟩)
  case h_4 => cases ha
  case h_5 => cases h

/-- There is always a next call, and never an end. -/
theorem goesOn_of_step (ha : answered s a = true) (h : step s a = some t) : ∀ msg, t.pc ≠ .exited msg := by
  obtain ⟨-, chunk, rest, -, -, rfl⟩ | ⟨buf, -, rfl⟩ | ⟨-, m, rfl⟩ := step_eq_some ha h
  all_goals exact fun msg => Pc.noConfusion

theorem exists_step (h : ∀ msg, s.pc ≠ .exited msg) :
    ∃ a t, (datagramClient.under answered).step s a = some t := by
  cases hpc : s.pc with
  | read =>
    cases hstdin : s.stdin with
    | nil => exact ⟨.read .eof, { s with pc := .sendto [] }, by
        simp [System.under, answered, datagramClient, step, readStep, hpc, readStream, hstdin]⟩
    | cons b rest => exact ⟨.read (.data 1), { s with pc := .sendto [b], stdin := rest }, by
        simp [System.under, answered, datagramClient, step, readStep, hpc, readStream, hstdin, bufSize]⟩
  | sendto buf => exact ⟨.sendto true, { s with pc := .recvfrom, sent := s.sent ++ [buf] }, by
      simp [System.under, answered, datagramClient, step, hpc]⟩
  | recvfrom => exact ⟨.recvfrom (some []), { s with pc := .read, received := s.received ++ [[]] }, by
      simp [System.under, answered, datagramClient, step, hpc]⟩
  | exited msg => exact absurd hpc (h msg)

/-! ### The empty datagram -/

/-- How many calls there can be before a datagram without bytes. -/
def callsLeft (s : State) : ℕ :=
  match s.pc with
  | .read => 3 * s.stdin.length + 2
  | .sendto buf => if buf = [] then 1 else 3 * s.stdin.length + 4
  | .recvfrom => 3 * s.stdin.length + 3
  | .exited _ => 0

theorem callsLeft_step (ha : answered s a = true) (h : step s a = some t) (hs : [] ∉ s.sent) :
    [] ∈ t.sent ∨ [] ∉ t.sent ∧ callsLeft t + 1 ≤ callsLeft s := by
  obtain ⟨hpc, chunk, rest, hsplit, hnil, rfl⟩ | ⟨buf, hpc, rfl⟩ | ⟨hpc, m, rfl⟩ := step_eq_some ha h
  · have hlen := congrArg List.length hsplit
    rw [List.length_append] at hlen
    refine .inr ⟨hs, ?_⟩
    simp only [callsLeft, hpc]
    split_ifs with hchunk
    · omega
    · have hpos := List.length_pos_iff.mpr hchunk
      omega
  · by_cases hbuf : buf = []
    · exact .inl (by simp [hbuf])
    · refine .inr ⟨by simp [hs, Ne.symm hbuf], ?_⟩
      simp [callsLeft, hpc, hbuf]
  · refine .inr ⟨hs, ?_⟩
    simp [callsLeft, hpc]

/-- A datagram that has been sent stays sent. -/
theorem sent_step (h : (datagramClient.under answered).step s a = some t) (hs : [] ∈ s.sent) :
    [] ∈ t.sent := by
  obtain ⟨ha, h⟩ := System.under_step_eq_some.mp h
  obtain ⟨-, chunk, rest, -, -, rfl⟩ | ⟨buf, -, rfl⟩ | ⟨-, m, rfl⟩ := step_eq_some ha h
  · exact hs
  · exact List.mem_append_left _ hs
  · exact hs

theorem length_le (h : (datagramClient.under answered).run s as = some t) (hs : [] ∉ s.sent)
    (ht : [] ∉ t.sent) : as.length + callsLeft t ≤ callsLeft s := by
  induction as generalizing s with
  | nil => simp [Option.some.inj h]
  | cons a as ih =>
    obtain ⟨u, hu, h⟩ := Option.bind_eq_some_iff.mp h
    obtain ⟨ha, hstep⟩ := System.under_step_eq_some.mp hu
    rcases callsLeft_step ha hstep hs with hempty | ⟨hu, hle⟩
    · have hsent := System.run_invariant (I := fun s => [] ∈ s.sent)
        (fun _ _ _ hs hst => sent_step hst hs) hempty h
      exact absurd hsent ht
    · have hrest := ih h hu
      rw [List.length_cons]
      omega

theorem goesOn_of_run (stdin : List UInt8)
    (h : (datagramClient.under answered).run (start stdin) as = some t) : GoesOn datagramClient t := by
  have hgoes : ∀ msg, t.pc ≠ .exited msg := by
    refine System.run_invariant (I := fun s => ∀ msg, s.pc ≠ .exited msg) (fun s a t _ hst => ?_) ?_ h
    · obtain ⟨ha, hst⟩ := System.under_step_eq_some.mp hst
      exact goesOn_of_step ha hst
    · exact fun msg => Pc.noConfusion
  exact ⟨hgoes, exists_step hgoes⟩

theorem callsLeft_pos (h : ∀ msg, s.pc ≠ .exited msg) : 0 < callsLeft s := by
  unfold callsLeft
  cases hpc : s.pc with
  | read | recvfrom => exact Nat.succ_pos _
  | sendto buf =>
    simp only
    split_ifs
    · exact Nat.one_pos
    · exact Nat.succ_pos _
  | exited msg => exact absurd hpc (h msg)

theorem empty_sent (stdin : List UInt8) (h : (datagramClient.under answered).run (start stdin) as = some t)
    (hlen : 3 * stdin.length + 2 ≤ as.length) : [] ∈ t.sent := by
  by_contra ht
  have hle := length_le h List.not_mem_nil ht
  have hstart : callsLeft (start stdin) = 3 * stdin.length + 2 := rfl
  have hpos := callsLeft_pos (goesOn_of_run stdin h).1
  omega

/-- For every input, every way of reading it and every server that answers: the loop of neither function
is ever over, and it has sent a datagram without bytes as soon as it has made two calls more than three for
each byte of the input. -/
theorem never_ends (stdin : List UInt8) (as bs : List Action) {s t : State}
    (hs : (socketInetDomainDatagramClient.under answered).run (start stdin) as = some s)
    (ht : (socketUnixDomainDatagramClient.under answered).run (start stdin) bs = some t) :
    (GoesOn socketInetDomainDatagramClient s ∧ (3 * stdin.length + 2 ≤ as.length → [] ∈ s.sent)) ∧
      GoesOn socketUnixDomainDatagramClient t ∧ (3 * stdin.length + 2 ≤ bs.length → [] ∈ t.sent) :=
  ⟨⟨goesOn_of_run stdin hs, empty_sent stdin hs⟩, goesOn_of_run stdin ht, empty_sent stdin ht⟩

/-- One byte and the end of the input, with the server's answers. -/
def oneByte : List Action :=
  [.read (.data 1), .sendto true, .recvfrom (some [97]), .read .eof, .sendto true]

/-- The answer to the empty datagram can come. -/
theorem never_ends_one : ∃ s, (datagramClient.under answered).run (start [97]) oneByte = some s ∧
    s.sent = [[97], []] ∧ GoesOn socketInetDomainDatagramClient s ∧ [] ∈ s.sent := by
  have h := never_ends [97] oneByte oneByte rfl rfl
  exact ⟨_, rfl, rfl, h.1.1, h.1.2 (by decide)⟩

/-- After the whole input comes a datagram that carries none of it, and a next round. -/
theorem not_over_one : ∃ s t,
    (datagramClient.under answered).run (start [97]) oneByte = some s ∧ s.stdin = [] ∧ [] ∈ s.sent ∧
    (datagramClient.under answered).run s [.recvfrom (some []), .read .eof, .sendto true] = some t ∧
    t.pc = s.pc ∧ t.sent = [[97], [], []] :=
  ⟨_, _, rfl, rfl, by decide, rfl, rfl, rfl⟩

end LinuxApi.DatagramClient
