import LinuxApi.FileIo.CopyLoops
import Mathlib.Data.List.Nodup

/-! The iterative stream servers with any number of clients. A client connects and copies its standard
input to the socket; the server accepts one connection after the other and copies it to its standard output
until end of file. Both loops are copy loops, joined by what the socket holds, and connections wait in the
queue of `listen`. -/

namespace LinuxApi.StreamServer

open CopyLoops

/-- `BUF_SIZE` -/
def bufSize : ℕ := 100

/-- `BACKLOG` -/
def backlogSize : ℕ := 5

/-- Where a client is: in front of `connect`, left by its failure, or behind it. -/
inductive Phase where
  | connect | refused | joined
  deriving DecidableEq

/-- `loop` is the client's copy loop, whose `written` is what the socket has taken, and `flight` is what of
that the server has not read. -/
structure Client where
  phase : Phase
  loop : CopyLoops.State bufSize
  flight : List UInt8
  deriving DecidableEq

/-- In front of `accept`, behind it with the connection of a client, or left by its failure. -/
inductive ServerPc (ι : Type*) where
  | accept
  | serve (i : ι)
  | exited
  deriving DecidableEq

/-- `backlog` are the connections not yet accepted, `order` are the accepted ones, the latest last. `loop`
is the server's copy loop, which goes from one connection to the next: its `source` is the socket of the
client it serves, and its `written` is the standard output. -/
structure State (ι : Type*) where
  client : ι → Client
  backlog : List ι
  order : List ι
  pc : ServerPc ι
  loop : CopyLoops.State bufSize

/-- The next call of a client or of the server, with what it returns. -/
inductive Action (ι : Type*) where
  | connect (i : ι) (ok : Bool)
  | clientRead (i : ι) (r : ReadResult)
  | clientWrite (i : ι) (r : Option ℕ)
  | accept (ok : Bool)
  | serverRead (r : ReadResult)
  | serverWrite (r : Option ℕ)
  | close
  deriving DecidableEq

/-- What sets the programs apart: the line the server prints about a client it has accepted and the error
exit of the client's `write`. `room` is what a socket holds before a `write` to it has to wait. -/
structure Programs (ι : Type*) where
  line : ι → List UInt8
  writeExit : Exit
  room : ℕ

/-- The client's loop, `while((numread = read(STDIN_FILENO, buf, BUF_SIZE)) > 0)`. -/
def Programs.clientLoop {ι : Type*} (p : Programs ι) : Loop :=
  ⟨bufSize, conditionStyle (.errExit "read()"), p.writeExit⟩

/-- The server's loop, `while((numread = read(client_fd, buf, BUF_SIZE)) > 0)`. -/
def serverLoop : Loop := ⟨bufSize, conditionStyle (.errExit "read()"), .fatal "failed write"⟩

/-- The client has ended, and with it its end of the connection is closed. -/
def Client.ended (c : Client) : Bool :=
  match c.loop.pc with
  | .done | .exited _ => true
  | _ => false

variable {ι : Type*} [DecidableEq ι]

namespace State

/-- What `write` has put on the standard output. -/
def stdout (s : State ι) : List UInt8 := s.loop.written

/-- What a client has sent. -/
def sent (s : State ι) (i : ι) : List UInt8 := (s.client i).loop.written

/-- The server still runs, so that its sockets are open. -/
def alive (s : State ι) : Bool :=
  match s.pc, s.loop.pc with
  | .exited, _ | _, .exited _ => false
  | _, _ => true

def setClient (s : State ι) (i : ι) (c : Client) : State ι :=
  { s with client := Function.update s.client i c }

/-- `connect(socket_fd, addr, len)`, which waits while the queue is full. -/
def connect (s : State ι) (i : ι) (ok : Bool) : Option (State ι) :=
  if (s.client i).phase = .connect then
    if ok then
      if s.alive ∧ s.backlog.length < backlogSize then
        some { s.setClient i { s.client i with phase := .joined } with backlog := s.backlog ++ [i] }
      else none
    else some (s.setClient i { s.client i with phase := .refused })
  else none

/-- `read(STDIN_FILENO, buf, BUF_SIZE)` -/
def clientRead (p : Programs ι) (s : State ι) (i : ι) (r : ReadResult) : Option (State ι) :=
  if (s.client i).phase = .joined then
    (readStep p.clientLoop (s.client i).loop r).map fun t => s.setClient i { s.client i with loop := t }
  else none

/-- `write(socket_fd, buf, numread)`, which waits for room in the socket and fails when the server is
gone. -/
def clientWrite (p : Programs ι) (s : State ι) (i : ι) (r : Option ℕ) : Option (State ι) :=
  if (s.client i).phase = .joined ∧ (r ≠ none → s.alive ∧ (s.client i).flight.length < p.room) then
    (writeStep p.clientLoop (s.client i).loop r).map fun t => s.setClient i
      { s.client i with
        loop := t
        flight := (s.client i).flight ++ t.written.drop (s.client i).loop.written.length }
  else none

/-- `accept(server_fd, ..)` and the line about the client. -/
def accept (p : Programs ι) (s : State ι) (ok : Bool) : Option (State ι) :=
  match s.pc, ok, s.backlog with
  | .accept, true, i :: rest =>
    some
      { s with
        backlog := rest
        order := s.order ++ [i]
        pc := .serve i
        loop := { s.loop with pc := .read, written := s.loop.written ++ p.line i } }
  | .accept, false, _ => some { s with pc := .exited }
  | _, _, _ => none

/-- The server's loop on the socket of a client. -/
def session (s : State ι) (i : ι) : CopyLoops.State bufSize :=
  { s.loop with source := (s.client i).flight }

/-- `read(client_fd, buf, BUF_SIZE)`: end of file only when the client has closed its end. -/
def serverRead (s : State ι) (r : ReadResult) : Option (State ι) :=
  match s.pc with
  | .serve i =>
    if r = .eof ∧ (s.client i).ended = false then none
    else (readStep serverLoop (s.session i) r).map fun t =>
      { s.setClient i { s.client i with flight := t.source } with loop := t }
  | _ => none

/-- `write(STDOUT_FILENO, buf, numread)` -/
def serverWrite (s : State ι) (r : Option ℕ) : Option (State ι) :=
  match s.pc with
  | .serve i => (writeStep serverLoop (s.session i) r).map fun t => { s with loop := t }
  | _ => none

/-- `close(client_fd)` -/
def close (s : State ι) : Option (State ι) :=
  match s.pc, s.loop.pc with
  | .serve _, .done => some { s with pc := .accept }
  | _, _ => none

end State

/-- The server, from its `listen` on, and the clients, each with a standard input of its own. The buffers
hold anything at first. -/
def system (p : Programs ι) (input : ι → List UInt8) : System (State ι) (Action ι) where
  init s := s = ⟨fun i => ⟨.connect, start (s.client i).loop.buf (input i), []⟩, [], [], .accept,
    start s.loop.buf []⟩
  step s
    | .connect i ok => s.connect i ok
    | .clientRead i r => s.clientRead p i r
    | .clientWrite i r => s.clientWrite p i r
    | .accept ok => s.accept p ok
    | .serverRead r => s.serverRead r
    | .serverWrite r => s.serverWrite r
    | .close => s.close

/-! ### The programs -/

/-- `socket_unix_domain_stream_server` and its clients, which print nothing else. -/
def socketUnixDomainStream (ι : Type*) (room : ℕ) : Programs ι :=
  ⟨fun _ => [], .fatal "failed write", room⟩

/-- `socket_inet_domain_stream_server` on a terminal, with the address and the `sin_port` of each client. -/
def socketInetDomainStream (addr : ι → String) (port : ι → UInt16) (room : ℕ) : Programs ι where
  line i := s!"client address = {addr i}, port = {port i}\n".toUTF8.data.toList
  writeExit := .fatal "write()"
  room := room

/-- `socket_inet_domain_stream_server_v2` on a terminal, with what `getnameinfo` found. -/
def socketInetDomainStreamV2 (name : ι → Option (String × String)) (room : ℕ) : Programs ι where
  line i := match name i with
    | some (host, service) => s!"client address = {host}, port = {service}\n".toUTF8.data.toList
    | none => []
  writeExit := .fatal "write()"
  room := room

/-! ### What is on the standard output -/

/-- The sessions of clients, one after the other. -/
def State.text (p : Programs ι) (s : State ι) (is : List ι) : List UInt8 :=
  is.flatMap fun i => p.line i ++ s.sent i

/-- Clients that have ended and of which everything is read. -/
def State.Closed (s : State ι) (is : List ι) : Prop :=
  ∀ i ∈ is, (s.client i).ended = true ∧ (s.client i).flight = []

/-- The client that has been accepted last may be half printed; in front of it are whole sessions. -/
def State.Printed (p : Programs ι) (s : State ι) : Prop :=
  match s.pc with
  | .serve i => ∃ closed, s.order = closed ++ [i] ∧ s.Closed closed ∧
      s.text p closed ++ p.line i <+: s.stdout ∧ s.stdout <+: s.text p s.order
  | _ => s.Closed s.order ∧ s.stdout = s.text p s.order

/-- The clients that connect in a run, in order. -/
def connected (as : List (Action ι)) : List ι :=
  as.filterMap fun
    | .connect i true => some i
    | _ => none

/-- The current session is where its copy loop is. -/
def State.Output (p : Programs ι) (s : State ι) : Prop :=
  match s.pc with
  | .serve i => ∃ closed, s.order = closed ++ [i] ∧ s.Closed closed ∧
      CopyLoops.Inv (s.text p closed ++ (p.line i ++ s.sent i)) (s.session i) ∧
      s.text p closed ++ p.line i <+: s.stdout ∧ (s.loop.pc = .done → s.Closed [i])
  | _ => s.Closed s.order ∧ s.stdout = s.text p s.order

structure Inv (p : Programs ι) (input : ι → List UInt8) (s : State ι) : Prop where
  client : ∀ i, CopyLoops.Inv (input i) (s.client i).loop
  waiting : ∀ i ∉ s.order, (s.client i).flight = s.sent i
  joined : ∀ i, i ∈ s.order ++ s.backlog ↔ (s.client i).phase = .joined
  nodup : (s.order ++ s.backlog).Nodup
  output : s.Output p

variable {p : Programs ι} {input : ι → List UInt8} {s t : State ι} {is : List ι} {i j : ι}

/-! ### The copy loops -/

/-- A loop that has not seen the end of its source may find more behind it. -/
theorem inv_extend {size : ℕ} {source : List UInt8} {l : CopyLoops.State size}
    (hi : CopyLoops.Inv source l) (hpc : l.pc ≠ .done) (more : List UInt8) :
    CopyLoops.Inv (source ++ more) { l with source := l.source ++ more } := by
  unfold CopyLoops.Inv at hi ⊢
  cases h : l.pc with
  | read =>
    simp only [h] at hi ⊢
    rw [← List.append_assoc, hi]
  | write n =>
    simp only [h] at hi ⊢
    exact ⟨by rw [← hi.1, List.append_assoc, List.append_assoc], hi.2⟩
  | done => exact absurd h hpc
  | exited e =>
    simp only [h] at hi ⊢
    exact hi.trans (List.prefix_append _ _)

/-- A `read` of a loop takes bytes for the next `write`, or leads out of the loop. -/
theorem readStep_cases {c : Loop} (hc : Tests c.afterRead) {l m : CopyLoops.State c.size} {r : ReadResult}
    (h : readStep c l r = some m) : l.pc = .read ∧ m.written = l.written ∧
      ((∃ n, r = .data n ∧ 1 ≤ n ∧ m.pc = .write n ∧ m.source.length + n = l.source.length) ∨
        (r = .eof ∧ m.pc = .done ∧ l.source = [] ∧ m.source = l.source) ∨
        ∃ e, r = .error ∧ m.pc = .exited e ∧ m.source = l.source) := by
  have h : (copy c l.source).step l (.read r) = some m := h
  rcases step_cases hc h with ⟨n, hpc, ha, hn, -, hlen, rfl⟩ | ⟨hpc, ha, hnil, hdone, hsource, hw⟩ |
    ⟨e, hpc, ha, hexited, hsource, hw⟩ | ⟨n, k, -, ha, -⟩ | ⟨n, -, ha, -⟩
  · refine ⟨hpc, rfl, .inl ⟨n, CopyLoops.Action.read.inj ha, hn, rfl, ?_⟩⟩
    show (l.source.drop n).length + n = l.source.length
    rw [List.length_drop]
    omega
  · exact ⟨hpc, hw, .inr (.inl ⟨CopyLoops.Action.read.inj ha, hdone, hnil, hsource⟩)⟩
  · exact ⟨hpc, hw, .inr (.inr ⟨e, CopyLoops.Action.read.inj ha, hexited, hsource⟩)⟩
  · cases ha
  · cases ha

/-- A `write` of a loop takes at most what it is given, and leads back to the `read` if it takes all. -/
theorem writeStep_cases {c : Loop} (hc : Tests c.afterRead) {l m : CopyLoops.State c.size} {r : Option ℕ}
    (h : writeStep c l r = some m) : ∃ n more, l.pc = .write n ∧ m.written = l.written ++ more ∧
      more.length ≤ n ∧ m.source = l.source ∧
      (r = some n ∧ m.pc = .read ∨ r ≠ some n ∧ ∃ e, m.pc = .exited e) := by
  have h : (copy c l.source).step l (.write r) = some m := h
  rcases step_cases hc h with ⟨n, -, ha, -⟩ | ⟨-, ha, -⟩ | ⟨e, -, ha, -⟩ | ⟨n, k, hpc, ha, -, rfl⟩ |
    ⟨n, hpc, ha, rfl⟩
  · cases ha
  · cases ha
  · cases ha
  · obtain rfl := CopyLoops.Action.write.inj ha
    have hlen : ((l.buf.load n).take k).length ≤ n :=
      Nat.le_trans (List.length_take_le' ..) (List.length_take_le ..)
    refine ⟨n, _, hpc, rfl, hlen, rfl, ?_⟩
    by_cases hkn : k = n
    · exact .inl ⟨congrArg some hkn, if_pos hkn⟩
    · exact .inr ⟨fun he => hkn (Option.some.inj he), _, if_neg hkn⟩
  · obtain rfl := CopyLoops.Action.write.inj ha
    exact ⟨n, [], hpc, (List.append_nil _).symm, Nat.zero_le n, rfl, .inr ⟨by simp, _, rfl⟩⟩

theorem writeStep_ne_done {c : Loop} (hc : Tests c.afterRead) {l m : CopyLoops.State c.size} {r : Option ℕ}
    (h : writeStep c l r = some m) : m.pc ≠ .done := by
  obtain ⟨n, more, -, -, -, -, ⟨-, hpc⟩ | ⟨-, e, hpc⟩⟩ := writeStep_cases hc h <;> rw [hpc] <;>
    exact Pc.noConfusion

/-- Only the end of its source leads a loop to its end. -/
theorem readStep_done {c : Loop} (hc : Tests c.afterRead) {l m : CopyLoops.State c.size} {r : ReadResult}
    (h : readStep c l r = some m) (hd : m.pc = .done) : r = .eof ∧ m.source = [] := by
  obtain ⟨-, -, ⟨n, -, -, hpc, -⟩ | ⟨rfl, -, hnil, hsource⟩ | ⟨e, -, hpc, -⟩⟩ := readStep_cases hc h
  · cases hpc.symm.trans hd
  · exact ⟨rfl, hsource.trans hnil⟩
  · cases hpc.symm.trans hd

/-! ### Frames -/

@[simp] theorem setClient_self (s : State ι) (i : ι) (c : Client) : (s.setClient i c).client i = c :=
  Function.update_self ..

theorem setClient_of_ne (s : State ι) (c : Client) (h : j ≠ i) :
    (s.setClient i c).client j = s.client j :=
  Function.update_of_ne h ..

omit [DecidableEq ι] in
theorem text_congr (h : ∀ j ∈ is, t.client j = s.client j) : t.text p is = s.text p is :=
  List.flatMap_congr fun j hj => by rw [State.sent, State.sent, h j hj]

omit [DecidableEq ι] in
theorem closed_congr (h : ∀ j ∈ is, t.client j = s.client j) (hs : s.Closed is) : t.Closed is := by
  intro j hj
  rw [h j hj]
  exact hs j hj

omit [DecidableEq ι] in
theorem text_append (is js : List ι) : s.text p (is ++ js) = s.text p is ++ s.text p js :=
  List.flatMap_append

omit [DecidableEq ι] in
theorem text_singleton : s.text p [i] = p.line i ++ s.sent i := List.flatMap_singleton ..

omit [DecidableEq ι] in
/-- Another client is none of those that have ended. -/
theorem ne_of_closed (hs : s.Closed is) (hi : (s.client i).ended = false) : ∀ j ∈ is, j ≠ i := by
  rintro j hj rfl
  rw [(hs j hj).1] at hi
  cases hi

/-! ### The steps of a client -/

/-- A client that is not at its end moves on, and what it writes is in flight. -/
theorem Inv.move (hi : Inv p input s) (hne : (s.client i).ended = false)
    {m : CopyLoops.State bufSize} {more : List UInt8} (hm : CopyLoops.Inv (input i) m)
    (hw : m.written = (s.client i).loop.written ++ more) :
    Inv p input (s.setClient i { s.client i with loop := m, flight := (s.client i).flight ++ more }) := by
  set t := s.setClient i { s.client i with loop := m, flight := (s.client i).flight ++ more } with ht
  have hself : t.client i = { s.client i with loop := m, flight := (s.client i).flight ++ more } :=
    setClient_self ..
  have hother : ∀ j, j ≠ i → t.client j = s.client j := fun j hj => setClient_of_ne s _ hj
  have hclosed : ∀ is, s.Closed is → ∀ j ∈ is, t.client j = s.client j :=
    fun is hs j hj => hother j (ne_of_closed hs hne j hj)
  refine ⟨fun j => ?_, fun j hj => ?_, fun j => ?_, hi.nodup, ?_⟩
  · by_cases h : j = i
    · subst h
      rw [hself]
      exact hm
    · rw [hother j h]
      exact hi.client j
  · have hwait := hi.waiting j hj
    by_cases h : j = i
    · subst h
      rw [State.sent, hself, hwait]
      exact hw.symm
    · rw [State.sent, hother j h]
      exact hwait
  · rw [show t.order ++ t.backlog = s.order ++ s.backlog from rfl, hi.joined j]
    by_cases h : j = i
    · subst h
      rw [hself]
    · rw [hother j h]
  · have hout := hi.output
    unfold State.Output at hout ⊢
    have hpc : t.pc = s.pc := rfl
    rw [hpc]
    cases hp : s.pc with
    | accept | exited =>
      simp only [hp] at hout ⊢
      have hsame := hclosed _ hout.1
      exact ⟨closed_congr hsame hout.1, hout.2.trans (text_congr hsame).symm⟩
    | serve k =>
      simp only [hp] at hout ⊢
      obtain ⟨closed, horder, hc, hcopy, hline, hdone⟩ := hout
      have hsame := hclosed _ hc
      have htext := text_congr (p := p) hsame
      refine ⟨closed, horder, closed_congr hsame hc, ?_, htext ▸ hline, fun hd => ?_⟩
      · rw [htext]
        by_cases h : k = i
        · subst h
          have hpc : (s.session k).pc ≠ .done := by
            intro hd
            exact absurd rfl (ne_of_closed (hdone hd) hne k (List.mem_singleton_self k))
          have hext := inv_extend hcopy hpc more
          rw [List.append_assoc, List.append_assoc] at hext
          have hsent : t.sent k = s.sent k ++ more := by rw [State.sent, hself]; exact hw
          have hsession : t.session k = { s.session k with source := (s.session k).source ++ more } := by
            rw [State.session, hself]
            rfl
          rw [hsent, hsession]
          exact hext
        · have hsent : t.sent k = s.sent k := by rw [State.sent, hother k h]; rfl
          have hsession : t.session k = s.session k := by rw [State.session, hother k h]; rfl
          rw [hsent, hsession]
          exact hcopy
      · have hck := hdone hd
        exact closed_congr (hclosed _ hck) hck

theorem Inv.clientRead_step (hi : Inv p input s) {r : ReadResult} (h : s.clientRead p i r = some t) :
    Inv p input t := by
  obtain ⟨-, h⟩ := Option.ite_none_right_eq_some.mp h
  obtain ⟨m, hm, rfl⟩ := Option.map_eq_some_iff.mp h
  obtain ⟨hpc, hw, -⟩ := readStep_cases (tests_conditionStyle _) hm
  have hne : (s.client i).ended = false := by
    unfold Client.ended
    rw [hpc]
  have hmove := hi.move hne (inv_step (a := .read r) (tests_conditionStyle _) (hi.client i) hm)
    (hw.trans (List.append_nil _).symm)
  rw [List.append_nil] at hmove
  exact hmove

theorem Inv.clientWrite_step (hi : Inv p input s) {r : Option ℕ} (h : s.clientWrite p i r = some t) :
    Inv p input t := by
  obtain ⟨-, h⟩ := Option.ite_none_right_eq_some.mp h
  obtain ⟨m, hm, rfl⟩ := Option.map_eq_some_iff.mp h
  obtain ⟨n, more, hpc, hw, -⟩ := writeStep_cases (tests_conditionStyle _) hm
  have hne : (s.client i).ended = false := by
    unfold Client.ended
    rw [hpc]
  have hdrop : m.written.drop (s.client i).loop.written.length = more := by
    rw [hw, List.drop_left]
  rw [hdrop]
  exact hi.move hne (inv_step (a := .write r) (tests_conditionStyle _) (hi.client i) hm) hw

/-! ### The steps around the sessions -/

omit [DecidableEq ι] in
/-- What is printed concerns the accepted clients only. -/
theorem output_congr (hc : ∀ j ∈ s.order, t.client j = s.client j) (horder : t.order = s.order)
    (hpc : t.pc = s.pc) (hloop : t.loop = s.loop) (hs : s.Output p) : t.Output p := by
  unfold State.Output at hs ⊢
  rw [hpc, horder, hloop]
  cases hp : s.pc with
  | accept | exited =>
    simp only [hp] at hs ⊢
    rw [text_congr hc, State.stdout, hloop]
    exact ⟨closed_congr hc hs.1, hs.2⟩
  | serve k =>
    simp only [hp] at hs ⊢
    obtain ⟨closed, hsplit, hclosed, hcopy, hline, hdone⟩ := hs
    have hsub : ∀ j ∈ closed, t.client j = s.client j :=
      fun j hj => hc j (hsplit ▸ List.mem_append_left _ hj)
    have hk : t.client k = s.client k := hc k (by simp [hsplit])
    refine ⟨closed, hsplit, closed_congr hsub hclosed, ?_, ?_, fun hd => ?_⟩
    · rw [text_congr hsub, State.sent, State.session, hk, hloop]
      exact hcopy
    · rw [text_congr hsub, State.stdout, hloop]
      exact hline
    · exact closed_congr (by simpa using hk) (hdone hd)

/-- What `connect` changes of a client. -/
theorem setClient_phase (s : State ι) (i j : ι) (phase : Phase) :
    (s.setClient i { s.client i with phase := phase }).client j =
      { s.client j with phase := if j = i then phase else (s.client j).phase } := by
  by_cases h : j = i
  · subst h
    rw [setClient_self, if_pos rfl]
  · rw [setClient_of_ne s _ h, if_neg h]

/-- A client in front of `connect` is in no session. -/
theorem Inv.connect_step (hi : Inv p input s) {ok : Bool} (h : s.connect i ok = some t) :
    Inv p input t := by
  obtain ⟨hphase, h⟩ := Option.ite_none_right_eq_some.mp h
  have hnot : i ∉ s.order ++ s.backlog := by
    rw [hi.joined i, hphase]
    exact Phase.noConfusion
  have horder : ∀ j ∈ s.order, j ≠ i := by
    rintro j hj rfl
    exact hnot (List.mem_append_left _ hj)
  cases ok with
  | true =>
    rw [if_pos rfl] at h
    obtain ⟨-, h⟩ := Option.ite_none_right_eq_some.mp h
    cases h
    refine ⟨fun j => ?_, fun j hj => ?_, fun j => ?_, ?_, ?_⟩
    · rw [setClient_phase]
      exact hi.client j
    · rw [State.sent, setClient_phase]
      exact hi.waiting j hj
    · show j ∈ s.order ++ (s.backlog ++ [i]) ↔ _
      rw [setClient_phase, ← List.append_assoc, List.mem_append, hi.joined j, List.mem_singleton]
      by_cases hj : j = i <;> simp [hj]
    · show (s.order ++ (s.backlog ++ [i])).Nodup
      rw [← List.append_assoc, ← List.concat_eq_append]
      exact hi.nodup.concat hnot
    · exact output_congr (fun j hj => setClient_of_ne s _ (horder j hj)) rfl rfl rfl hi.output
  | false =>
    cases h
    refine ⟨fun j => ?_, fun j hj => ?_, fun j => ?_, hi.nodup, ?_⟩
    · rw [setClient_phase]
      exact hi.client j
    · rw [State.sent, setClient_phase]
      exact hi.waiting j hj
    · rw [setClient_phase]
      by_cases hj : j = i
      · subst hj
        exact iff_of_false hnot (by simp)
      · rw [if_neg hj]
        exact hi.joined j
    · exact output_congr (fun j hj => setClient_of_ne s _ (horder j hj)) rfl rfl rfl hi.output

omit [DecidableEq ι] in
/-- A new session begins with the line about its client, of which nothing has been read. -/
theorem Inv.accept_step (hi : Inv p input s) {ok : Bool} (h : s.accept p ok = some t) :
    Inv p input t := by
  have hout := hi.output
  unfold State.accept at h
  unfold State.Output at hout
  cases hpc : s.pc with
  | serve k => simp [hpc] at h
  | exited => simp [hpc] at h
  | accept =>
    simp only [hpc] at hout
    cases ok with
    | false =>
      simp only [hpc, Option.some.injEq] at h
      subst h
      exact ⟨hi.client, hi.waiting, hi.joined, hi.nodup, hout⟩
    | true =>
      cases hb : s.backlog with
      | nil => simp [hpc, hb] at h
      | cons i rest =>
        simp only [hpc, hb, Option.some.injEq] at h
        have hlist : s.order ++ [i] ++ rest = s.order ++ s.backlog := by simp [hb]
        have hfresh : i ∉ s.order := by
          have hn := hi.nodup
          rw [hb, List.nodup_append] at hn
          exact fun hmem => hn.2.2 i hmem i List.mem_cons_self rfl
        subst h
        refine ⟨hi.client, fun j hj => hi.waiting j ?_, fun j => ?_, ?_, ?_⟩
        · exact fun hmem => hj (List.mem_append_left _ hmem)
        · show j ∈ s.order ++ [i] ++ rest ↔ _
          rw [hlist]
          exact hi.joined j
        · show (s.order ++ [i] ++ rest).Nodup
          rw [hlist]
          exact hi.nodup
        · refine ⟨s.order, rfl, hout.1, ?_, ?_, fun hd => absurd hd Pc.noConfusion⟩
          · have hflight : (s.client i).flight = s.sent i := hi.waiting i hfresh
            have hstdout : s.loop.written = s.text p s.order := hout.2
            show s.loop.written ++ p.line i ++ (s.client i).flight = _
            rw [hflight, hstdout, List.append_assoc]
            rfl
          · have hsame : s.stdout ++ p.line i = s.text p s.order ++ p.line i := by rw [hout.2]
            exact hsame ▸ List.prefix_rfl

/-- The server reads from the socket of its client what is in flight. -/
theorem Inv.serverRead_step (hi : Inv p input s) {r : ReadResult} (h : s.serverRead r = some t) :
    Inv p input t := by
  have hout := hi.output
  unfold State.serverRead at h
  unfold State.Output at hout
  cases hpc : s.pc with
  | accept => simp [hpc] at h
  | exited => simp [hpc] at h
  | serve i =>
    simp only [hpc] at h hout
    split_ifs at h with heof
    obtain ⟨m, hm, rfl⟩ := Option.map_eq_some_iff.mp h
    obtain ⟨closed, horder, hclosed, hcopy, hline, -⟩ := hout
    have hnot : ∀ j ∈ closed, j ≠ i := by
      rintro j hj rfl
      have hn := (List.nodup_append.mp hi.nodup).1
      rw [horder, List.nodup_append] at hn
      exact hn.2.2 j hj j (List.mem_singleton_self j) rfl
    set u : State ι := { s.setClient i { s.client i with flight := m.source } with loop := m } with hu
    have hother : ∀ j, j ≠ i → u.client j = s.client j := fun j hj => setClient_of_ne s _ hj
    have hself : u.client i = { s.client i with flight := m.source } := setClient_self ..
    have hloop : ∀ j, (u.client j).loop = (s.client j).loop ∧ (u.client j).phase = (s.client j).phase := by
      intro j
      by_cases hj : j = i
      · subst hj
        rw [hself]
        exact ⟨rfl, rfl⟩
      · rw [hother j hj]
        exact ⟨rfl, rfl⟩
    have hsub : ∀ j ∈ closed, u.client j = s.client j := fun j hj => hother j (hnot j hj)
    refine ⟨fun j => (hloop j).1 ▸ hi.client j, fun j hj => ?_, fun j => ?_, hi.nodup, ?_⟩
    · have hji : j ≠ i := by
        rintro rfl
        exact hj (horder ▸ List.mem_append_right _ (List.mem_singleton_self j))
      rw [State.sent, hother j hji]
      exact hi.waiting j hj
    · rw [(hloop j).2]
      exact hi.joined j
    · have hpcu : u.pc = .serve i := hpc
      unfold State.Output
      simp only [hpcu]
      refine ⟨closed, horder, closed_congr hsub hclosed, ?_, ?_, fun hd => ?_⟩
      · have hsession : u.session i = m := by rw [State.session, hself]
        rw [text_congr hsub, State.sent, (hloop i).1, hsession]
        exact inv_step (a := .read r) (tests_conditionStyle _) hcopy hm
      · rw [text_congr hsub, State.stdout, (readStep_cases (tests_conditionStyle _) hm).2.1]
        exact hline
      · obtain ⟨rfl, hnil⟩ := readStep_done (tests_conditionStyle _) hm hd
        intro j hj
        obtain rfl := List.mem_singleton.mp hj
        have hended : (s.client j).ended = true := by simpa using heof
        rw [hself]
        exact ⟨hended, hnil⟩

omit [DecidableEq ι] in
/-- What the server writes is what it has read. -/
theorem Inv.serverWrite_step (hi : Inv p input s) {r : Option ℕ} (h : s.serverWrite r = some t) :
    Inv p input t := by
  have hout := hi.output
  unfold State.serverWrite at h
  unfold State.Output at hout
  cases hpc : s.pc with
  | accept => simp [hpc] at h
  | exited => simp [hpc] at h
  | serve i =>
    simp only [hpc] at h hout
    obtain ⟨m, hm, rfl⟩ := Option.map_eq_some_iff.mp h
    obtain ⟨closed, horder, hclosed, hcopy, hline, -⟩ := hout
    obtain ⟨n, more, hwrite, hw, -, hsource, -⟩ := writeStep_cases (tests_conditionStyle _) hm
    refine ⟨hi.client, hi.waiting, hi.joined, hi.nodup, ?_⟩
    have hsession : { m with source := (s.client i).flight } = m := by
      rw [← show m.source = (s.client i).flight from hsource]
    refine ⟨closed, horder, hclosed, ?_, ?_, fun hd => ?_⟩
    · show CopyLoops.Inv _ { m with source := (s.client i).flight }
      rw [hsession]
      exact inv_step (a := .write r) (tests_conditionStyle _) hcopy hm
    · show s.text p closed ++ p.line i <+: m.written
      rw [hw]
      exact hline.trans (List.prefix_append _ _)
    · exact absurd hd (writeStep_ne_done (tests_conditionStyle _) hm)

omit [DecidableEq ι] in
/-- A session that is closed is whole. -/
theorem Inv.close_step (hi : Inv p input s) (h : s.close = some t) : Inv p input t := by
  have hout := hi.output
  unfold State.close at h
  unfold State.Output at hout
  cases hpc : s.pc with
  | accept => simp [hpc] at h
  | exited => simp [hpc] at h
  | serve i =>
    cases hdone : s.loop.pc with
    | read | write | exited => simp [hpc, hdone] at h
    | done =>
      simp only [hpc, hdone, Option.some.injEq] at h
      simp only [hpc] at hout
      subst h
      obtain ⟨closed, horder, hclosed, hcopy, hline, hlast⟩ := hout
      have hwhole : s.Closed s.order := by
        intro j hj
        rw [horder] at hj
        rcases List.mem_append.mp hj with hj | hj
        · exact hclosed j hj
        · exact hlast hdone j hj
      simp only [CopyLoops.Inv, State.session, hdone] at hcopy
      refine ⟨hi.client, hi.waiting, hi.joined, hi.nodup, hwhole, ?_⟩
      show s.loop.written = s.text p s.order
      rw [hcopy, horder, text_append, text_singleton]

theorem Inv.step (hi : Inv p input s) {a : Action ι} (h : (system p input).step s a = some t) :
    Inv p input t := by
  cases a with
  | connect i ok => exact hi.connect_step h
  | clientRead i r => exact hi.clientRead_step h
  | clientWrite i r => exact hi.clientWrite_step h
  | accept ok => exact hi.accept_step h
  | serverRead r => exact hi.serverRead_step h
  | serverWrite r => exact hi.serverWrite_step h
  | close => exact hi.close_step h

theorem inv_init (h : (system p input).init s) : Inv p input s := by
  have h : s = _ := h
  rw [h]
  exact ⟨fun i => rfl, fun i _ => rfl, fun i => by simp, List.nodup_nil, by simp [State.Closed],
    rfl⟩

/-! ### Runs -/

omit [DecidableEq ι] in
theorem connected_cons (a : Action ι) (as : List (Action ι)) :
    connected (a :: as) = connected [a] ++ connected as :=
  List.filterMap_append (l := [a])

/-- The queue of `listen` and the accepted clients grow by the client that connects. -/
theorem connected_step {a : Action ι} (h : (system p input).step s a = some t) :
    t.order ++ t.backlog = s.order ++ s.backlog ++ connected [a] := by
  cases a with
  | connect i ok =>
    obtain ⟨-, h⟩ := Option.ite_none_right_eq_some.mp h
    cases ok with
    | true =>
      rw [if_pos rfl] at h
      obtain ⟨-, h⟩ := Option.ite_none_right_eq_some.mp h
      cases h
      exact (List.append_assoc ..).symm
    | false =>
      cases h
      exact (List.append_nil _).symm
  | clientRead i r =>
    obtain ⟨-, h⟩ := Option.ite_none_right_eq_some.mp h
    obtain ⟨m, -, rfl⟩ := Option.map_eq_some_iff.mp h
    exact (List.append_nil _).symm
  | clientWrite i r =>
    obtain ⟨-, h⟩ := Option.ite_none_right_eq_some.mp h
    obtain ⟨m, -, rfl⟩ := Option.map_eq_some_iff.mp h
    exact (List.append_nil _).symm
  | accept ok =>
    simp only [system, State.accept] at h
    split at h
    · rename_i i rest _ _ hb
      cases h
      simp [connected, hb]
    · cases h
      exact (List.append_nil _).symm
    · cases h
  | serverRead r =>
    simp only [system, State.serverRead] at h
    split at h
    · split_ifs at h
      obtain ⟨m, -, rfl⟩ := Option.map_eq_some_iff.mp h
      exact (List.append_nil _).symm
    · cases h
  | serverWrite r =>
    simp only [system, State.serverWrite] at h
    split at h
    · obtain ⟨m, -, rfl⟩ := Option.map_eq_some_iff.mp h
      exact (List.append_nil _).symm
    · cases h
  | close =>
    simp only [system, State.close] at h
    split at h
    · cases h
      exact (List.append_nil _).symm
    · cases h

theorem connected_run {as : List (Action ι)} (h : (system p input).run s as = some t) :
    t.order ++ t.backlog = s.order ++ s.backlog ++ connected as := by
  induction as generalizing s with
  | nil =>
    cases h
    exact (List.append_nil _).symm
  | cons a as ih =>
    obtain ⟨u, hu, h⟩ := Option.bind_eq_some_iff.mp h
    rw [connected_cons, ← List.append_assoc, ← connected_step hu]
    exact ih h

theorem order_eq_connected {as : List (Action ι)} (hs : (system p input).init s)
    (h : (system p input).run s as = some t) : t.order ++ t.backlog = connected as := by
  have hs : s = _ := hs
  rw [connected_run h, hs]
  rfl

omit [DecidableEq ι] in
/-- What the invariant says about the standard output. -/
theorem Inv.printed (hi : Inv p input s) : s.Printed p := by
  have hout := hi.output
  unfold State.Output at hout
  unfold State.Printed
  cases hpc : s.pc with
  | accept | exited =>
    simp only [hpc] at hout ⊢
    exact hout
  | serve i =>
    simp only [hpc] at hout ⊢
    obtain ⟨closed, horder, hclosed, hcopy, hline, -⟩ := hout
    refine ⟨closed, horder, hclosed, hline, ?_⟩
    rw [horder, text_append, text_singleton]
    exact hcopy.written_isPrefix

/-- In every interleaving of the server with any number of clients, whatever the calls return: the clients
are accepted in the order in which they have connected, each once; the standard output is made of their
sessions in this order, all of them whole but the last one; and a session is what its client has read of its
standard input, all of it if the client has ended well. -/
theorem stdout_in_sessions {as : List (Action ι)} (hs : (system p input).init s)
    (h : (system p input).run s as = some t) :
    t.order ++ t.backlog = connected as ∧ (connected as).Nodup ∧ t.Printed p ∧
      ∀ i, t.sent i <+: input i ∧ ((t.client i).loop.pc = .done → t.sent i = input i) := by
  have hi : Inv p input t := System.run_invariant (fun _ _ _ hi ht => hi.step ht) (inv_init hs) h
  refine ⟨order_eq_connected hs h, order_eq_connected hs h ▸ hi.nodup, hi.printed, fun i => ?_⟩
  have hclient := hi.client i
  exact ⟨hclient.written_isPrefix, hclient.written_eq⟩

/-- Two clients send at the same time; the second is printed behind the first, a part of it so far. -/
theorem stdout_in_sessions_two : ∃ (as : List (Action Bool)) (s t : State Bool),
    (system (socketUnixDomainStream Bool 4096) fun i => if i then [1, 2] else [3, 4]).run s as = some t ∧
    t.stdout = [1, 2, 3] ∧ t.order = [true, false] ∧ t.Printed (socketUnixDomainStream Bool 4096) := by
  let input : Bool → List UInt8 := fun i => if i then [1, 2] else [3, 4]
  let s : State Bool :=
    ⟨fun i => ⟨.connect, start (.zero _) (input i), []⟩, [], [], .accept, start (.zero _) []⟩
  let as : List (Action Bool) :=
    [.connect true true, .connect false true, .clientRead true (.data 1), .clientRead false (.data 2),
      .clientWrite false (some 2), .accept true, .clientWrite true (some 1), .serverRead (.data 1),
      .clientRead true (.data 1), .clientWrite true (some 1), .serverWrite (some 1),
      .clientRead true .eof, .serverRead (.data 1), .serverWrite (some 1), .serverRead .eof, .close,
      .accept true, .serverRead (.data 1), .serverWrite (some 1)]
  have hs : (system (socketUnixDomainStream Bool 4096) input).init s := rfl
  have hprinted : ∀ t, (system (socketUnixDomainStream Bool 4096) input).run s as = some t →
      t.Printed (socketUnixDomainStream Bool 4096) :=
    fun t ht => (stdout_in_sessions hs ht).2.2.1
  exact ⟨as, s, _, rfl, rfl, rfl, hprinted _ rfl⟩

end LinuxApi.StreamServer
