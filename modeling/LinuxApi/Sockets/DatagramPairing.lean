import LinuxApi.Sockets.Datagram

/-! Requests and loopback messages of the datagram server are paired. What a client has
sent is what it has received, followed by what waits at its socket, what the server
holds for it and what of its datagrams waits at the server. All clients share the
server's `buf` and `client_addr`; the invariant is stated for every client on its own. -/

namespace LinuxApi.Datagram

variable {P : Type*} [DecidableEq P]

/-- The messages among these datagrams that client `p` sent. -/
def fromClient (p : P) (ds : List (Option P × Message)) : List Message :=
  (ds.filter (·.1 = some p)).map (·.2)

/-- What the server is about to send back to client `p`. -/
def ServerPc.holds (p : P) : ServerPc P → List Message
  | .sendto buf sender => if sender = some p then [buf] else []
  | _ => []

/-- The messages of client `p` the server has not sent back. -/
def State.underway (s : State P) (p : P) : List Message :=
  s.server.holds p ++ fromClient p s.inbox

theorem fromClient_append (p : P) (ds es : List (Option P × Message)) :
    fromClient p (ds ++ es) = fromClient p ds ++ fromClient p es := by
  rw [fromClient, List.filter_append, List.map_append]
  rfl

theorem fromClient_self (p : P) (m : Message) : fromClient p [(some p, m)] = [m] := by
  simp [fromClient]

theorem fromClient_of_ne {p : P} {a : Option P} (h : a ≠ some p) (m : Message) :
    fromClient p [(a, m)] = [] := by
  simp [fromClient, h]

/-- The messages of every client, by where they are. A server that has left its loop
may have lost one. -/
structure Paired (s : State P) : Prop where
  delivered : ∀ p, (s.clients p).received ++ (s.clients p).inbox <+: (s.clients p).sent
  balance : s.server ≠ .exited → ∀ p, (s.clients p).pc ≠ .exited →
    (s.clients p).sent = (s.clients p).received ++ (s.clients p).inbox ++ s.underway p
  fits : ∀ p, ∀ m ∈ (s.clients p).sent, m.length ≤ bufSize
  typed : ∀ p buf, (s.clients p).pc = .sendto buf → buf.length ≤ bufSize
  queued : ∀ p m, (some p, m) ∈ s.inbox → m.length ≤ bufSize

variable {s t : State P}

/-- The server moves while it holds nothing for anybody. -/
theorem Paired.goto_server (hi : Paired s) {pc : ServerPc P} (h : ∀ p, s.server.holds p = [])
    (hpc : pc = .exited ∨ s.server ≠ .exited ∧ ∀ p, pc.holds p = []) :
    Paired (s.gotoServer pc) where
  delivered := hi.delivered
  balance he p hp := by
    obtain ⟨hs, hn⟩ := hpc.resolve_left he
    have hb := hi.balance hs p hp
    rw [State.underway, h p] at hb
    rw [State.underway, State.gotoServer, hn p]
    exact hb
  fits := hi.fits
  typed := hi.typed
  queued := hi.queued

/-- A server that leaves its loop takes what it holds with it. -/
theorem Paired.server_exits (hi : Paired s) : Paired (s.gotoServer .exited) where
  delivered := hi.delivered
  balance he := absurd rfl he
  fits := hi.fits
  typed := hi.typed
  queued := hi.queued

/-- `recvfrom` moves the first datagram into `buf`, whole if a client sent it. -/
theorem Paired.server_receives (hi : Paired s) {sender : Option P} {m : Message}
    {rest : List (Option P × Message)} (hpc : s.server = .recvfrom)
    (hin : s.inbox = (sender, m) :: rest) :
    Paired ({ s with inbox := rest }.gotoServer (.sendto (m.take bufSize) sender)) where
  delivered := hi.delivered
  balance _ p hp := by
    have hb := hi.balance (by rw [hpc]; nofun) p hp
    have hsplit := fromClient_append p [(sender, m)] rest
    simp only [State.underway, hpc, ServerPc.holds, List.nil_append, hin] at hb
    rw [List.singleton_append] at hsplit
    simp only [State.underway, State.gotoServer, ServerPc.holds]
    rw [hsplit] at hb
    split_ifs with hs
    · subst hs
      rw [fromClient_self] at hb
      rw [List.take_of_length_le (hi.queued p m (hin ▸ List.mem_cons_self))]
      exact hb
    · rw [fromClient_of_ne hs] at hb
      exact hb
  fits := hi.fits
  typed := hi.typed
  queued p m' h := hi.queued p m' (hin ▸ List.mem_cons_of_mem _ h)

/-- One client changes, and the server and its queue for that client only. -/
theorem Paired.put (hi : Paired s) {p : P} {c : Client} {pc : ServerPc P}
    {inbox : List (Option P × Message)} (hd : c.received ++ c.inbox <+: c.sent)
    (hb : pc ≠ .exited → c.pc ≠ .exited →
      c.sent = c.received ++ c.inbox ++ (pc.holds p ++ fromClient p inbox))
    (hf : ∀ m ∈ c.sent, m.length ≤ bufSize)
    (ht : ∀ buf, c.pc = .sendto buf → buf.length ≤ bufSize)
    (hq : ∀ q m, (some q, m) ∈ inbox → m.length ≤ bufSize)
    (hother : pc ≠ .exited → s.server ≠ .exited ∧
      ∀ q, q ≠ p → pc.holds q ++ fromClient q inbox = s.underway q) :
    Paired ({ s with server := pc, inbox := inbox }.put p c) := by
  refine ⟨fun q => ?_, fun hs q hlive => ?_, fun q => ?_, fun q buf => ?_, hq⟩
  all_goals
    simp only [State.put] at *
    by_cases hqp : q = p
  · subst hqp
    rw [Function.update_self]
    exact hd
  · rw [Function.update_of_ne hqp]
    exact hi.delivered q
  · subst hqp
    rw [Function.update_self] at hlive ⊢
    exact hb hs hlive
  · obtain ⟨hsrv, hu⟩ := hother hs
    rw [Function.update_of_ne hqp] at hlive ⊢
    rw [State.underway, hu q hqp]
    exact hi.balance hsrv q hlive
  · subst hqp
    rw [Function.update_self]
    exact hf
  · rw [Function.update_of_ne hqp]
    exact hi.fits q
  · subst hqp
    rw [Function.update_self]
    exact ht buf
  · rw [Function.update_of_ne hqp]
    exact hi.typed q buf

/-- The reply reaches the client the datagram came from. -/
theorem Paired.server_replies (hi : Paired s) {p : P} {buf : Message}
    (hpc : s.server = .sendto buf (some p)) (hp : (s.clients p).pc.bound = true) :
    Paired ((s.deliver p buf).gotoServer .recvfrom) := by
  have hs : s.server ≠ .exited := by rw [hpc]; nofun
  have hlive : (s.clients p).pc ≠ .exited := by intro h; rw [h] at hp; cases hp
  have hmoved : (s.clients p).sent = (s.clients p).received ++ ((s.clients p).inbox ++ [buf]) ++
      fromClient p s.inbox := by
    have h := hi.balance hs p hlive
    simp only [State.underway, hpc, ServerPc.holds, if_true] at h
    simpa only [List.append_assoc] using h
  refine hi.put (hmoved ▸ List.prefix_append _ _) (fun _ _ => hmoved) (hi.fits p) (hi.typed p)
    hi.queued fun _ => ⟨hs, fun q hq => ?_⟩
  simp [State.underway, State.deliver, State.put, hpc, ServerPc.holds, Ne.symm hq]

/-- A client goes on without sending or receiving. -/
theorem Paired.client_goto (hi : Paired s) {p : P} {pc : ClientPc}
    (hpc : pc = .exited ∨ (s.clients p).pc ≠ .exited)
    (ht : ∀ buf, pc = .sendto buf → buf.length ≤ bufSize) :
    Paired (s.put p ((s.clients p).goto pc)) :=
  hi.put (hi.delivered p) (fun hs hl => hi.balance hs p (hpc.resolve_left hl)) (hi.fits p) ht hi.queued
    fun hs => ⟨hs, fun _ _ => rfl⟩

/-- A client's message joins the server's queue behind its earlier ones. -/
theorem Paired.client_sends (hi : Paired s) {p : P} {buf : Message}
    (hpc : (s.clients p).pc = .sendto buf) :
    Paired ({ s with inbox := s.inbox ++ [(some p, buf)] }.put p
      { s.clients p with pc := .recvfrom, sent := (s.clients p).sent ++ [buf] }) := by
  have hlen := hi.typed p buf hpc
  refine hi.put ((hi.delivered p).trans (List.prefix_append _ _)) (fun hs _ => ?_) ?_ nofun ?_
    fun hs => ⟨hs, fun q hq => ?_⟩
  · have hb := congrArg (· ++ [buf]) (hi.balance hs p (by rw [hpc]; nofun))
    rw [fromClient_append, fromClient_self]
    simpa only [State.underway, List.append_assoc] using hb
  · intro m hm
    rcases List.mem_append.mp hm with hm | hm
    · exact hi.fits p m hm
    · exact List.mem_singleton.mp hm ▸ hlen
  · intro q m hm
    rcases List.mem_append.mp hm with hm | hm
    · exact hi.queued q m hm
    · obtain ⟨-, rfl⟩ := Prod.mk.inj (List.mem_singleton.mp hm)
      exact hlen
  · have hne : some p ≠ some q := fun h => hq (Option.some.inj h).symm
    rw [fromClient_append, fromClient_of_ne hne, List.append_nil]
    rfl

/-- A client takes the first message from its socket, whole. -/
theorem Paired.client_receives (hi : Paired s) {p : P} {m : Message} {rest : List Message}
    (hpc : (s.clients p).pc = .recvfrom) (hin : (s.clients p).inbox = m :: rest) :
    Paired (s.put p { s.clients p with
      pc := .read, inbox := rest, received := (s.clients p).received ++ [m.take bufSize] }) := by
  have hd := hi.delivered p
  have hm : m.take bufSize = m := by
    refine List.take_of_length_le (hi.fits p m (hd.subset ?_))
    rw [hin]
    exact List.mem_append_right _ List.mem_cons_self
  rw [hm]
  have hshift : (s.clients p).received ++ [m] ++ rest =
      (s.clients p).received ++ (s.clients p).inbox := by
    rw [hin, List.append_assoc, List.singleton_append]
  refine hi.put (hshift ▸ hd) (fun hs _ => ?_) (hi.fits p) nofun hi.queued
    fun hs => ⟨hs, fun _ _ => rfl⟩
  rw [hshift]
  exact hi.balance hs p (by rw [hpc]; nofun)

theorem Paired.server_step (hi : Paired s) {ok : Bool} (h : serverStep s ok = some t) : Paired t := by
  unfold serverStep at h
  cases hpc : s.server with
  | socket | remove | bind =>
    simp only [hpc, Option.some.injEq] at h
    have hn : ∀ p, s.server.holds p = [] := fun p => by rw [hpc]; rfl
    have hs : s.server ≠ .exited := by rw [hpc]; nofun
    subst h
    cases ok with
    | true => exact hi.goto_server hn (.inr ⟨hs, fun _ => rfl⟩)
    | false => exact hi.server_exits
  | recvfrom =>
    simp only [hpc] at h
    cases ok with
    | false =>
      simp only [Bool.false_eq_true, if_false, Option.some.injEq] at h
      exact h ▸ hi.server_exits
    | true =>
      simp only [if_true] at h
      cases hin : s.inbox with
      | nil => simp only [hin] at h; cases h
      | cons d rest =>
        simp only [hin, Option.some.injEq] at h
        exact h ▸ hi.server_receives hpc hin
  | sendto buf sender =>
    simp only [hpc, Option.some.injEq] at h
    subst h
    cases ok with
    | false => exact hi.server_exits
    | true =>
      cases sender with
      | none => exact hi.server_exits
      | some p =>
        rw [if_pos rfl, State.reply]
        split_ifs with hp
        · exact hi.server_replies hpc hp
        · exact hi.server_exits
  | exited => simp only [hpc] at h; cases h

theorem Paired.client_step (hi : Paired s) {p : P} {ok : Bool} (h : clientStep s p ok = some t) :
    Paired t := by
  unfold clientStep at h
  cases hpc : (s.clients p).pc with
  | socket | bind =>
    simp only [hpc, Option.some.injEq] at h
    have hl : (s.clients p).pc ≠ .exited := by rw [hpc]; nofun
    subst h
    cases ok with
    | true => exact hi.client_goto (.inr hl) nofun
    | false => exact hi.client_goto (.inl rfl) nofun
  | sendto buf =>
    simp only [hpc] at h
    split_ifs at h <;> simp only [Option.some.injEq] at h <;> subst h
    · exact hi.client_sends hpc
    · exact hi.client_goto (.inl rfl) nofun
  | recvfrom =>
    simp only [hpc] at h
    cases ok with
    | false =>
      simp only [Bool.false_eq_true, if_false, Option.some.injEq] at h
      exact h ▸ hi.client_goto (.inl rfl) nofun
    | true =>
      simp only [if_true] at h
      cases hin : (s.clients p).inbox with
      | nil => simp only [hin] at h; cases h
      | cons m rest =>
        simp only [hin, Option.some.injEq] at h
        exact h ▸ hi.client_receives hpc hin
  | read | exited => simp only [hpc] at h; cases h

theorem Paired.read_step (hi : Paired s) {p : P} {r : Option Message}
    (h : clientRead s p r = some t) : Paired t := by
  simp only [clientRead, Option.ite_none_right_eq_some] at h
  obtain ⟨hpc, h⟩ := h
  cases r with
  | some m =>
    simp only [Option.ite_none_right_eq_some, Option.some.injEq] at h
    obtain ⟨hm, rfl⟩ := h
    refine hi.client_goto (.inr (by rw [hpc]; nofun)) ?_
    rintro buf hbuf
    exact ClientPc.sendto.inj hbuf ▸ hm
  | none =>
    simp only [Option.some.injEq] at h
    exact h ▸ hi.client_goto (.inl rfl) nofun

end LinuxApi.Datagram
