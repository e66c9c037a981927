import LinuxApi.Transition.System
import LinuxApi.Kernel.Stream

/-! One session of `socket_echo_client` with the server child that runs `echo` for it.
The client's parent copies its standard input to the socket and then shuts its sending
side down, the server's child copies the socket to itself, and the client's child reads
what comes back. Every `read`, `write`, `fork` and `shutdown` is a step, and what it
returns is the environment's choice. -/

namespace LinuxApi.EchoSession

/-- `BUF_SIZE` -/
def bufSize : ℕ := 100

/-- Where the client's parent is. -/
inductive SenderPc where
  | fork | read | write | shutdown | done | exited
  deriving DecidableEq

/-- Where the server's child is in `echo`; `done` follows its return. -/
inductive ServerPc where
  | read | write | done | exited
  deriving DecidableEq

/-- Where the client's child is; `eof` and `failed` follow its `break`. -/
inductive ReceiverPc where
  | unborn | read | eof | failed
  deriving DecidableEq

/-- The three processes and the two directions of the connection. `sending` and `serving`
are the bytes in the parent's and the server's `buf` that `write` has not taken. `entered`,
`served` and `received` are the bytes the parent has read from standard input, the server
has written and the client's child has read, and `shut` says that `shutdown` has
succeeded. -/
structure State where
  stdin : List UInt8
  entered : List UInt8
  sending : List UInt8
  request : List UInt8
  serving : List UInt8
  served : List UInt8
  reply : List UInt8
  received : List UInt8
  shut : Bool
  sender : SenderPc
  server : ServerPc
  receiver : ReceiverPc
  deriving DecidableEq

/-- The next call of one process, with what it returns. -/
inductive Action where
  | fork (ok : Bool)
  | readStdin (r : ReadResult)
  | send (r : Option ℕ)
  | shutdown (ok : Bool)
  | serverRead (r : ReadResult)
  | serverWrite (r : Option ℕ)
  | receive (r : ReadResult)
  deriving DecidableEq

/-- The process has no call left. -/
def SenderPc.ended : SenderPc → Bool
  | .done | .exited => true
  | _ => false

def ServerPc.ended : ServerPc → Bool
  | .done | .exited => true
  | _ => false

namespace State

/-- Nothing more is sent to the server: `shutdown` was called, or both client processes
have closed the socket they share. -/
def requestClosed (s : State) : Bool :=
  s.shut || s.sender.ended && s.receiver ≠ .read

/-- A `read` from a socket: end of file only when the peer has closed its side. -/
def readSocket (bytes : List UInt8) (closed : Bool) (r : ReadResult) :
    Option (List UInt8 × List UInt8) :=
  if r = .eof ∧ closed = false then none else readStream bufSize bytes r

def fork (s : State) (ok : Bool) : Option State :=
  if s.sender = .fork then
    some (if ok then { s with sender := .read, receiver := .read } else { s with sender := .done })
  else none

/-- `read(STDIN_FILENO, buf, BUF_SIZE)` -/
def readStdin (s : State) (r : ReadResult) : Option State :=
  if s.sender = .read then
    (readStream bufSize s.stdin r).map fun (chunk, rest) =>
      { s with
        stdin := rest
        entered := s.entered ++ chunk
        sending := chunk
        sender := if chunk = [] then .shutdown else .write }
  else none

/-- `write(client_sock, buf, numread)` -/
def send (s : State) (r : Option ℕ) : Option State :=
  if s.sender = .write then
    (writeStream s.sending r).map fun (taken, rest) =>
      { s with
        sending := rest
        request := s.request ++ taken
        sender := if r = some s.sending.length then .read else .exited }
  else none

/-- `shutdown(client_sock, SHUT_WR)` -/
def shutdown (s : State) (ok : Bool) : Option State :=
  if s.sender = .shutdown then
    some (if ok then { s with shut := true, sender := .done } else { s with sender := .exited })
  else none

/-- `read(cfd, buf, BUF_SIZE)` -/
def serverRead (s : State) (r : ReadResult) : Option State :=
  if s.server = .read then
    (readSocket s.request s.requestClosed r).map fun (chunk, rest) =>
      { s with
        request := rest
        serving := chunk
        server := if chunk ≠ [] then .write else if r = .error then .exited else .done }
  else none

/-- `write(cfd, buf, numread)` -/
def serverWrite (s : State) (r : Option ℕ) : Option State :=
  if s.server = .write then
    (writeStream s.serving r).map fun (taken, rest) =>
      { s with
        serving := rest
        served := s.served ++ taken
        reply := s.reply ++ taken
        server := if r = some s.serving.length then .read else .exited }
  else none

/-- `read(client_sock, buf, BUF_SIZE)` -/
def receive (s : State) (r : ReadResult) : Option State :=
  if s.receiver = .read then
    (readSocket s.reply s.server.ended r).map fun (chunk, rest) =>
      { s with
        reply := rest
        received := s.received ++ chunk
        receiver := if chunk ≠ [] then .read else if r = .error then .failed else .eof }
  else none

end State

/-- The session on a standard input of `input`, from the client's `fork` on. -/
def system (input : List UInt8) : System State Action where
  init s := s = ⟨input, [], [], [], [], [], [], [], false, .fork, .read, .unborn⟩
  step s
    | .fork ok => s.fork ok
    | .readStdin r => s.readStdin r
    | .send r => s.send r
    | .shutdown ok => s.shutdown ok
    | .serverRead r => s.serverRead r
    | .serverWrite r => s.serverWrite r
    | .receive r => s.receive r

/-! ### Where the bytes are -/

/-- Every byte of the standard input is in one place, in its order. -/
structure Inv (input : List UInt8) (s : State) : Prop where
  whole : s.served ++ s.serving ++ s.request ++ s.sending ++ s.stdin = input
  entered : s.entered ++ s.stdin = input
  echoed : s.received ++ s.reply = s.served
  sent : s.sender = .fork ∨ s.sender = .read → s.sending = []
  answered : s.server = .read → s.serving = []

variable {input : List UInt8} {s t : State}

theorem readSocket_append {bytes chunk rest : List UInt8} {closed : Bool} {r : ReadResult}
    (h : State.readSocket bytes closed r = some (chunk, rest)) : chunk ++ rest = bytes := by
  unfold State.readSocket at h
  split_ifs at h
  exact readStream_append h

theorem Inv.fork_step (hi : Inv input s) {ok : Bool} (h : s.fork ok = some t) : Inv input t := by
  simp only [State.fork, Option.ite_none_right_eq_some, Option.some.injEq] at h
  obtain ⟨hpc, rfl⟩ := h
  have hs := hi.sent (.inl hpc)
  split_ifs
  · exact ⟨hi.whole, hi.entered, hi.echoed, fun _ => hs, hi.answered⟩
  · exact ⟨hi.whole, hi.entered, hi.echoed, fun _ => hs, hi.answered⟩

/-- A chunk of standard input goes into the buffer, which is empty. -/
theorem Inv.readStdin_step (hi : Inv input s) {r : ReadResult} (h : s.readStdin r = some t) :
    Inv input t := by
  simp only [State.readStdin, Option.ite_none_right_eq_some, Option.map_eq_some_iff] at h
  obtain ⟨hpc, ⟨chunk, rest⟩, hread, rfl⟩ := h
  have hs := hi.sent (.inr hpc)
  have hcr := readStream_append hread
  refine ⟨?_, ?_, hi.echoed, ?_, hi.answered⟩
  · have hw := hi.whole
    rw [hs, List.append_nil, ← hcr, ← List.append_assoc] at hw
    exact hw
  · rw [List.append_assoc, hcr]
    exact hi.entered
  · intro h
    split_ifs at h with hc
    · exact hc
    · rcases h with h | h <;> cases h

theorem Inv.send_step (hi : Inv input s) {r : Option ℕ} (h : s.send r = some t) : Inv input t := by
  simp only [State.send, Option.ite_none_right_eq_some, Option.map_eq_some_iff] at h
  obtain ⟨hpc, ⟨taken, rest⟩, hwrite, rfl⟩ := h
  have htr := writeStream_append hwrite
  refine ⟨?_, hi.entered, hi.echoed, ?_, hi.answered⟩
  · have hw := hi.whole
    rw [← htr] at hw
    simpa only [List.append_assoc] using hw
  · intro h
    split_ifs at h with hr
    · exact writeStream_full (hr ▸ hwrite)
    · rcases h with h | h <;> cases h

theorem Inv.shutdown_step (hi : Inv input s) {ok : Bool} (h : s.shutdown ok = some t) :
    Inv input t := by
  simp only [State.shutdown, Option.ite_none_right_eq_some, Option.some.injEq] at h
  obtain ⟨-, rfl⟩ := h
  split_ifs
  · exact ⟨hi.whole, hi.entered, hi.echoed, by simp, hi.answered⟩
  · exact ⟨hi.whole, hi.entered, hi.echoed, by simp, hi.answered⟩

theorem Inv.serverRead_step (hi : Inv input s) {r : ReadResult} (h : s.serverRead r = some t) :
    Inv input t := by
  simp only [State.serverRead, Option.ite_none_right_eq_some, Option.map_eq_some_iff] at h
  obtain ⟨hpc, ⟨chunk, rest⟩, hread, rfl⟩ := h
  have hcr := readSocket_append hread
  refine ⟨?_, hi.entered, hi.echoed, hi.sent, ?_⟩
  · have hw := hi.whole
    rw [hi.answered hpc, List.append_nil, ← hcr] at hw
    simpa only [List.append_assoc] using hw
  · intro h
    by_contra hc
    simp [hc] at h

theorem Inv.serverWrite_step (hi : Inv input s) {r : Option ℕ} (h : s.serverWrite r = some t) :
    Inv input t := by
  simp only [State.serverWrite, Option.ite_none_right_eq_some, Option.map_eq_some_iff] at h
  obtain ⟨hpc, ⟨taken, rest⟩, hwrite, rfl⟩ := h
  have htr := writeStream_append hwrite
  refine ⟨?_, hi.entered, ?_, hi.sent, ?_⟩
  · have hw := hi.whole
    rw [← htr] at hw
    simpa only [List.append_assoc] using hw
  · rw [← List.append_assoc, hi.echoed]
  · intro h
    split_ifs at h with hr
    exact writeStream_full (hr ▸ hwrite)

theorem Inv.receive_step (hi : Inv input s) {r : ReadResult} (h : s.receive r = some t) :
    Inv input t := by
  simp only [State.receive, Option.ite_none_right_eq_some, Option.map_eq_some_iff] at h
  obtain ⟨-, ⟨chunk, rest⟩, hread, rfl⟩ := h
  have hcr := readSocket_append hread
  refine ⟨hi.whole, hi.entered, ?_, hi.sent, hi.answered⟩
  rw [List.append_assoc, hcr]
  exact hi.echoed

theorem Inv.step (hi : Inv input s) {a : Action} (h : (system input).step s a = some t) :
    Inv input t := by
  cases a with
  | fork ok => exact hi.fork_step h
  | readStdin r => exact hi.readStdin_step h
  | send r => exact hi.send_step h
  | shutdown ok => exact hi.shutdown_step h
  | serverRead r => exact hi.serverRead_step h
  | serverWrite r => exact hi.serverWrite_step h
  | receive r => exact hi.receive_step h

theorem inv_init (h : (system input).init s) : Inv input s := by
  obtain rfl : s = _ := h
  exact ⟨rfl, rfl, rfl, fun _ => rfl, fun _ => rfl⟩

theorem inv_reachable (h : (system input).Reachable s) : Inv input s :=
  h.invariant (fun _ => inv_init) fun _ _ _ hi hst => hi.step hst

/-! ### Sessions without a failing call -/

/-- The call does not fail and a `write` takes all it is given. -/
def faultless (s : State) : Action → Bool
  | .fork ok | .shutdown ok => ok
  | .readStdin r | .serverRead r | .receive r => r ≠ .error
  | .send r => r = some s.sending.length
  | .serverWrite r => r = some s.serving.length

/-- The parent has shut down only what it had sent whole, the server has stopped only
after that, and the child has seen the end only after the server stopped. -/
structure Orderly (s : State) : Prop where
  sender : s.sender ≠ .exited
  drained : s.sender = .shutdown ∨ s.sender = .done → s.sending = [] ∧ s.stdin = []
  shut : s.shut = true → s.sender = .done
  server : s.server ≠ .exited
  finished : s.server = .done → s.sender = .done ∧ s.request = [] ∧ s.serving = []
  receiver : s.receiver ≠ .failed
  eof : s.receiver = .eof → s.server = .done ∧ s.reply = []

/-- The server's end of file means that the parent has finished. -/
theorem Orderly.sender_of_closed (ho : Orderly s) (h : s.requestClosed = true) :
    s.sender = .done := by
  simp only [State.requestClosed, Bool.or_eq_true, Bool.and_eq_true] at h
  rcases h with h | ⟨h, -⟩
  · exact ho.shut h
  · have hx := ho.sender
    cases hpc : s.sender with
    | done => rfl
    | exited => exact absurd hpc hx
    | fork | read | write | shutdown => rw [hpc] at h; cases h

/-- A socket that does not fail gives end of file only with nothing left in it. -/
theorem readSocket_nil {bytes rest : List UInt8} {closed : Bool} {r : ReadResult}
    (h : State.readSocket bytes closed r = some ([], rest)) (hr : r ≠ .error) :
    closed = true ∧ bytes = [] ∧ rest = [] := by
  unfold State.readSocket at h
  split_ifs at h with hc
  have hb := readStream_eq_nil h hr rfl
  have hrest := readStream_append h
  rw [hb, List.nil_append] at hrest
  refine ⟨?_, hb, hrest⟩
  cases r with
  | data n =>
    simp only [readStream, hb, List.length_nil, Option.ite_none_right_eq_some] at h
    omega
  | eof => simpa using hc
  | error => exact absurd rfl hr

theorem Orderly.readStdin_step (ho : Orderly s) {r : ReadResult} (hr : r ≠ .error)
    (h : s.readStdin r = some t) : Orderly t := by
  simp only [State.readStdin, Option.ite_none_right_eq_some, Option.map_eq_some_iff] at h
  obtain ⟨hpc, ⟨chunk, rest⟩, hread, rfl⟩ := h
  have hlive : s.sender ≠ .done := by rw [hpc]; nofun
  refine ⟨?_, ?_, fun h => absurd (ho.shut h) hlive, ho.server,
    fun h => absurd (ho.finished h).1 hlive, ho.receiver, ho.eof⟩
  · dsimp only; split_ifs <;> nofun
  · dsimp only
    split_ifs with hc
    · have hb := readStream_eq_nil hread hr hc
      have hrest := readStream_append hread
      rw [hb, hc, List.nil_append] at hrest
      exact fun _ => ⟨hc, hrest⟩
    · rintro (h | h) <;> cases h

theorem Orderly.send_step (ho : Orderly s) (h : s.send (some s.sending.length) = some t) :
    Orderly t := by
  simp only [State.send, Option.ite_none_right_eq_some, Option.map_eq_some_iff, if_true] at h
  obtain ⟨hpc, ⟨taken, rest⟩, -, rfl⟩ := h
  have hlive : s.sender ≠ .done := by rw [hpc]; nofun
  refine ⟨nofun, ?_, fun h => absurd (ho.shut h) hlive, ho.server,
    fun h => absurd (ho.finished h).1 hlive, ho.receiver, ho.eof⟩
  rintro (h | h) <;> cases h

theorem Orderly.serverRead_step (ho : Orderly s) {r : ReadResult} (hr : r ≠ .error)
    (h : s.serverRead r = some t) : Orderly t := by
  simp only [State.serverRead, Option.ite_none_right_eq_some, Option.map_eq_some_iff] at h
  obtain ⟨hpc, ⟨chunk, rest⟩, hread, rfl⟩ := h
  refine ⟨ho.sender, ho.drained, ho.shut, ?_, ?_, ho.receiver, ?_⟩
  · dsimp only; split_ifs <;> nofun
  · dsimp only
    rw [if_neg hr]
    split_ifs with hc
    · nofun
    · obtain rfl := not_not.mp hc
      obtain ⟨hclosed, -, hrest⟩ := readSocket_nil hread hr
      exact fun _ => ⟨ho.sender_of_closed hclosed, hrest, rfl⟩
  · intro h
    have hd := (ho.eof h).1
    rw [hpc] at hd
    cases hd

theorem Orderly.serverWrite_step (ho : Orderly s) (h : s.serverWrite (some s.serving.length) = some t) :
    Orderly t := by
  simp only [State.serverWrite, Option.ite_none_right_eq_some, Option.map_eq_some_iff, if_true] at h
  obtain ⟨hpc, ⟨taken, rest⟩, -, rfl⟩ := h
  refine ⟨ho.sender, ho.drained, ho.shut, nofun, nofun, ho.receiver, fun h => ?_⟩
  have hd := (ho.eof h).1
  rw [hpc] at hd
  cases hd

theorem Orderly.receive_step (ho : Orderly s) {r : ReadResult} (hr : r ≠ .error)
    (h : s.receive r = some t) : Orderly t := by
  simp only [State.receive, Option.ite_none_right_eq_some, Option.map_eq_some_iff] at h
  obtain ⟨-, ⟨chunk, rest⟩, hread, rfl⟩ := h
  refine ⟨ho.sender, ho.drained, ho.shut, ho.server, ho.finished, ?_, ?_⟩
  · dsimp only; rw [if_neg hr]; split_ifs <;> nofun
  · dsimp only
    rw [if_neg hr]
    split_ifs with hc
    · nofun
    · obtain rfl := not_not.mp hc
      obtain ⟨hended, -, hrest⟩ := readSocket_nil hread hr
      refine fun _ => ⟨?_, hrest⟩
      have hx := ho.server
      cases hpc : s.server with
      | done => rfl
      | exited => exact absurd hpc hx
      | read | write => rw [hpc] at hended; cases hended

theorem Orderly.step (ho : Orderly s) {a : Action} (hf : faultless s a = true)
    (h : (system input).step s a = some t) : Orderly t := by
  cases a with
  | fork ok =>
    obtain rfl : ok = true := hf
    simp only [system, State.fork, if_true, Option.ite_none_right_eq_some, Option.some.injEq] at h
    obtain ⟨hpc, rfl⟩ := h
    have hlive : s.sender ≠ .done := by rw [hpc]; nofun
    exact ⟨nofun, by simp, fun h => absurd (ho.shut h) hlive, ho.server,
      fun h => absurd (ho.finished h).1 hlive, nofun, nofun⟩
  | readStdin r => exact ho.readStdin_step (of_decide_eq_true hf) h
  | send r =>
    obtain rfl : r = _ := of_decide_eq_true hf
    exact ho.send_step h
  | shutdown ok =>
    obtain rfl : ok = true := hf
    simp only [system, State.shutdown, if_true, Option.ite_none_right_eq_some, Option.some.injEq] at h
    obtain ⟨hpc, rfl⟩ := h
    exact ⟨nofun, fun _ => ho.drained (.inl hpc), fun _ => rfl, ho.server,
      fun h => ⟨rfl, (ho.finished h).2⟩, ho.receiver, ho.eof⟩
  | serverRead r => exact ho.serverRead_step (of_decide_eq_true hf) h
  | serverWrite r =>
    obtain rfl : r = _ := of_decide_eq_true hf
    exact ho.serverWrite_step h
  | receive r => exact ho.receive_step (of_decide_eq_true hf) h

theorem faultless_reachable (h : ((system input).under faultless).Reachable s) :
    Inv input s ∧ Orderly s := by
  refine h.invariant (I := fun s => Inv input s ∧ Orderly s) ?_ ?_
  · intro s hs
    obtain rfl : s = _ := hs
    exact ⟨inv_init rfl, ⟨nofun, by simp, nofun, nofun, nofun, nofun, nofun⟩⟩
  · intro s a t hi hst
    obtain ⟨hf, hst⟩ := System.under_step_eq_some.mp hst
    exact ⟨hi.1.step hst, hi.2.step hf hst⟩

/-- Whatever the calls return, what has come back is a prefix of what the server has
written, and that of what the client has read from its standard input; a session without
a failing or short call ends, for the client's child, with the whole input received. -/
theorem session_echoes :
    (∀ s, (system input).Reachable s →
      s.received <+: s.served ∧ s.served <+: s.entered ∧ s.entered <+: input) ∧
    ∀ s, ((system input).under faultless).Reachable s → s.receiver = .eof → s.received = input := by
  refine ⟨fun s h => ?_, fun s h he => ?_⟩
  · have hi := inv_reachable h
    have hse : s.served <+: s.entered := by
      have hw := hi.whole.trans hi.entered.symm
      rw [List.append_left_inj] at hw
      simp only [List.append_assoc] at hw
      exact ⟨_, hw⟩
    exact ⟨⟨_, hi.echoed⟩, hse, ⟨_, hi.entered⟩⟩
  · obtain ⟨hi, ho⟩ := faultless_reachable h
    obtain ⟨hserver, hreply⟩ := ho.eof he
    obtain ⟨hsender, hrequest, hserving⟩ := ho.finished hserver
    obtain ⟨hsending, hstdin⟩ := ho.drained (.inr hsender)
    have hw := hi.whole
    rw [hserving, hrequest, hsending, hstdin, ← hi.echoed, hreply] at hw
    simpa only [List.append_nil] using hw

/-- Three bytes sent as two chunks, echoed one by one and read back as one chunk after the
parent has shut its side down. -/
theorem session_echoes_three_bytes :
    ∃ s, ((system [97, 98, 10]).under faultless).Reachable s ∧ s.receiver = .eof ∧
      s.received = [97, 98, 10] := by
  have hr := System.reachable_of_isSome (S := (system [97, 98, 10]).under faultless)
    (s := ⟨[97, 98, 10], [], [], [], [], [], [], [], false, .fork, .read, .unborn⟩) rfl
    [.fork true, .readStdin (.data 2), .send (some 2), .serverRead (.data 1), .readStdin (.data 1),
      .send (some 1), .readStdin .eof, .shutdown true, .serverWrite (some 1), .serverRead (.data 2),
      .serverWrite (some 2), .serverRead .eof, .receive (.data 3), .receive .eof] (by decide)
  exact ⟨_, hr, rfl, session_echoes.2 _ hr rfl⟩

end LinuxApi.EchoSession
