import LinuxApi.Sockets.DatagramPairing

/-! When the datagram server stays in its loop. Its `sendto` ends the process if the
datagram had no sender's address or the sender's socket is gone, so the server depends on
its clients: it goes on as long as every sender is bound and no client ends with a
message on its way, and one datagram that cannot be answered ends it. -/

namespace LinuxApi.Datagram

variable {P : Type*} [DecidableEq P]

/-- No datagram comes from a sender without an address, and no client ends, by itself or
by a failing call, while a message of its own waits for the reply. -/
def considerate (s : State P) : Action P → Bool
  | .stray _ => false
  | .exit p | .client p false | .read p none => s.underway p = []
  | _ => true

/-- The server runs, and whoever it has to answer has a live socket. -/
structure Answerable (s : State P) : Prop where
  running : s.server ≠ .exited
  idle : s.server.bound = false → s.inbox = []
  addressed : ∀ d ∈ s.inbox, d.1 ≠ none
  held : ∀ buf, s.server ≠ .sendto buf none
  live : ∀ p, s.underway p ≠ [] → (s.clients p).pc.bound = true

variable {s t : State P}

/-- Whoever is not bound has nothing on its way. -/
theorem Answerable.underway_eq_nil (hi : Answerable s) {p : P}
    (h : (s.clients p).pc.bound = false) : s.underway p = [] := by
  by_contra hu
  exact absurd (hi.live p hu) (by rw [h]; decide)

/-- Before its loop the server holds nothing. -/
theorem Answerable.underway_of_idle (hi : Answerable s) (h : s.server.bound = false) (p : P) :
    s.underway p = [] := by
  rw [State.underway, hi.idle h]
  cases hpc : s.server with
  | sendto buf sender => rw [hpc] at h; cases h
  | socket | remove | bind | recvfrom | exited => rfl

/-- The server's calls before its loop. -/
theorem Answerable.server_starts (hi : Answerable s) {pc : ServerPc P} (h : s.server.bound = false)
    (hx : pc ≠ .exited) (hheld : ∀ buf, pc ≠ .sendto buf none) (hh : ∀ p, pc.holds p = []) :
    Answerable (s.gotoServer pc) where
  running := hx
  idle _ := hi.idle h
  addressed := hi.addressed
  held := hheld
  live p hu := by
    simp only [State.underway, State.gotoServer, hh p, hi.idle h] at hu
    exact absurd rfl hu

theorem Answerable.server_receives (hi : Answerable s) {sender : Option P} {m : Message}
    {rest : List (Option P × Message)} (hin : s.inbox = (sender, m) :: rest) :
    Answerable ({ s with inbox := rest }.gotoServer (.sendto (m.take bufSize) sender)) where
  running := nofun
  idle := nofun
  addressed d hd := hi.addressed d (hin ▸ List.mem_cons_of_mem _ hd)
  held buf hp := hi.addressed (sender, m) (hin ▸ List.mem_cons_self) (ServerPc.sendto.inj hp).2
  live p hu := by
    refine hi.live p fun hn => hu ?_
    rw [State.underway, hin, ← List.singleton_append, fromClient_append] at hn
    obtain ⟨-, hn⟩ := List.append_eq_nil_iff.mp hn
    obtain ⟨hone, hrest⟩ := List.append_eq_nil_iff.mp hn
    have hs : sender ≠ some p := by
      rintro rfl
      rw [fromClient_self] at hone
      cases hone
    simp only [State.underway, State.gotoServer, ServerPc.holds, if_neg hs, hrest, List.append_nil]

/-- A reply takes the server back to `recvfrom`. -/
theorem Answerable.server_replies (hi : Answerable s) {p : P} {buf : Message}
    (hpc : s.server = .sendto buf (some p)) :
    Answerable ((s.deliver p buf).gotoServer .recvfrom) where
  running := nofun
  idle := nofun
  addressed := hi.addressed
  held := nofun
  live q hu := by
    have hq : (s.clients q).pc.bound = true := by
      refine hi.live q fun hn => hu ?_
      exact (List.append_eq_nil_iff.mp hn).2
    by_cases hqp : q = p
    · subst hqp
      simpa only [State.gotoServer, State.deliver, State.put, Function.update_self] using hq
    · simpa only [State.gotoServer, State.deliver, State.put, Function.update_of_ne hqp] using hq

/-- The server's `sendto` finds the sender's socket. -/
theorem Answerable.server_step (hi : Answerable s) (h : serverStep s true = some t) :
    Answerable t := by
  unfold serverStep at h
  cases hpc : s.server with
  | socket | remove | bind =>
    simp only [hpc, if_true, Option.some.injEq] at h
    exact h ▸ hi.server_starts (by rw [hpc]; rfl) nofun nofun fun _ => rfl
  | recvfrom =>
    simp only [hpc, if_true] at h
    cases hin : s.inbox with
    | nil => simp only [hin] at h; cases h
    | cons d rest =>
      simp only [hin, Option.some.injEq] at h
      exact h ▸ hi.server_receives hin
  | sendto buf sender =>
    simp only [hpc, if_true, Option.some.injEq] at h
    subst h
    cases sender with
    | none => exact absurd hpc (hi.held buf)
    | some p =>
      have hp := hi.live p (by simp [State.underway, hpc, ServerPc.holds])
      rw [State.reply, if_pos hp]
      exact hi.server_replies hpc
  | exited => simp only [hpc] at h; cases h

/-- A client changes, and the server's queue for that client only: it must stay bound or
have nothing on its way. -/
theorem Answerable.put (hi : Answerable s) {p : P} {c : Client} {inbox : List (Option P × Message)}
    (hidle : s.server.bound = false → inbox = []) (haddr : ∀ d ∈ inbox, d.1 ≠ none)
    (hother : ∀ q, q ≠ p → fromClient q inbox = fromClient q s.inbox)
    (hp : c.pc.bound = true ∨ s.server.holds p ++ fromClient p inbox = []) :
    Answerable ({ s with inbox := inbox }.put p c) where
  running := hi.running
  idle := hidle
  addressed := haddr
  held := hi.held
  live q hu := by
    simp only [State.underway, State.put] at hu ⊢
    by_cases hqp : q = p
    · subst hqp
      rw [Function.update_self]
      exact hp.resolve_right hu
    · rw [Function.update_of_ne hqp]
      rw [hother q hqp] at hu
      exact hi.live q hu

theorem Answerable.client_goto (hi : Answerable s) {p : P} {c : Client}
    (hp : c.pc.bound = true ∨ s.underway p = []) : Answerable (s.put p c) :=
  hi.put hi.idle hi.addressed (fun _ _ => rfl) hp

theorem Answerable.client_sends (hi : Answerable s) {p : P} {buf : Message} {c : Client}
    (hs : s.server.bound = true) (hc : c.pc.bound = true) :
    Answerable ({ s with inbox := s.inbox ++ [(some p, buf)] }.put p c) := by
  refine hi.put (fun h => absurd (hs.symm.trans h) (by decide)) ?_ ?_ (.inl hc)
  · intro d hd
    rcases List.mem_append.mp hd with hd | hd
    · exact hi.addressed d hd
    · rw [List.mem_singleton.mp hd]
      nofun
  · intro q hq
    have hne : some p ≠ some q := fun h => hq (Option.some.inj h).symm
    rw [fromClient_append, fromClient_of_ne hne, List.append_nil]

theorem Answerable.client_step (hi : Answerable s) {p : P} {ok : Bool}
    (hc : considerate s (.client p ok) = true) (h : clientStep s p ok = some t) : Answerable t := by
  cases ok with
  | false =>
    -- every failing call ends the client, and nothing of its own is on its way
    have hu : s.underway p = [] := of_decide_eq_true hc
    unfold clientStep at h
    cases hpc : (s.clients p).pc with
    | socket | bind | sendto _ | recvfrom =>
      simp only [hpc, Bool.false_eq_true, false_and, if_false, Option.some.injEq] at h
      exact h ▸ hi.client_goto (.inr hu)
    | read | exited => simp only [hpc] at h; cases h
  | true =>
    unfold clientStep at h
    cases hpc : (s.clients p).pc with
    | socket =>
      simp only [hpc, if_true, Option.some.injEq] at h
      exact h ▸ hi.client_goto (.inr (hi.underway_eq_nil (by rw [hpc]; rfl)))
    | bind =>
      simp only [hpc, if_true, Option.some.injEq] at h
      exact h ▸ hi.client_goto (.inl rfl)
    | sendto buf =>
      simp only [hpc, true_and] at h
      split_ifs at h with hs <;> simp only [Option.some.injEq] at h <;> subst h
      · exact hi.client_sends hs rfl
      · exact hi.client_goto (.inr (hi.underway_of_idle (Bool.eq_false_iff.mpr hs) p))
    | recvfrom =>
      simp only [hpc, if_true] at h
      cases hin : (s.clients p).inbox with
      | nil => simp only [hin] at h; cases h
      | cons m rest =>
        simp only [hin, Option.some.injEq] at h
        exact h ▸ hi.client_goto (.inl rfl)
    | read | exited => simp only [hpc] at h; cases h

theorem Answerable.read_step (hi : Answerable s) {p : P} {r : Option Message}
    (hc : considerate s (.read p r) = true) (h : clientRead s p r = some t) : Answerable t := by
  simp only [clientRead, Option.ite_none_right_eq_some] at h
  obtain ⟨-, h⟩ := h
  cases r with
  | some m =>
    simp only [Option.ite_none_right_eq_some, Option.some.injEq] at h
    obtain ⟨-, rfl⟩ := h
    exact hi.client_goto (.inl rfl)
  | none =>
    simp only [Option.some.injEq] at h
    exact h ▸ hi.client_goto (.inr (of_decide_eq_true hc))

theorem answerable_reachable (h : ((system P false).under considerate).Reachable s) :
    Answerable s := by
  refine h.invariant ?_ ?_
  · intro s hs
    obtain rfl : s = _ := hs
    exact ⟨nofun, fun _ => rfl, nofun, nofun, fun _ hu => absurd rfl hu⟩
  · intro s a t hi hst
    obtain ⟨hc, hst⟩ := System.under_step_eq_some.mp hst
    cases a with
    | server ok =>
      obtain ⟨hok, hst⟩ := Option.ite_none_right_eq_some.mp hst
      obtain rfl : ok = true := by simpa using hok
      exact hi.server_step hst
    | client p ok => exact hi.client_step hc hst
    | read p r => exact hi.read_step hc hst
    | exit p =>
      simp only [system, clientExit] at hst
      split_ifs at hst
      simp only [Option.some.injEq] at hst
      exact hst ▸ hi.client_goto (.inr (of_decide_eq_true hc))
    | stray m => cases hc

/-- Whatever any number of clients do in whatever order, the server never leaves its loop
if no sender is without an address and no client ends between its `sendto` and the
server's reply. -/
theorem server_keeps_running (h : ((system P false).under considerate).Reachable s) :
    s.server ≠ .exited :=
  (answerable_reachable h).running

/-- Two clients send before either is answered, and one exits while the other is still waiting. -/
theorem server_keeps_running_two_clients :
    ∃ s, ((system (Fin 2) false).under considerate).Reachable s ∧ (s.clients 0).pc = .exited ∧
      (s.clients 1).pc = .recvfrom ∧ s.server ≠ .exited := by
  have hr := System.reachable_of_isSome (S := (system (Fin 2) false).under considerate)
    (s := ⟨.socket, [], fun _ => ⟨.socket, [], [], []⟩⟩) rfl
    ([.replicate 3 (.server true), .replicate 2 (.client 0 true), .replicate 2 (.client 1 true),
      [.read 1 (some [50]), .client 1 true, .read 0 (some [49]), .client 0 true, .server true, .server true,
        .server true, .server true, .client 0 true, .exit 0]].flatten) (by decide)
  exact ⟨_, hr, by decide, by decide, server_keeps_running hr⟩

/-- A client that exits before the reply stops the server, and so does a sender without an
address. -/
theorem server_stopped_by_client :
    (∃ s, (system Unit false).Reachable s ∧ s.server = .exited ∧ (s.clients ()).sent = [[49]]) ∧
      ∃ s, (system Unit false).Reachable s ∧ s.server = .exited ∧ (s.clients ()).pc = .socket := by
  have hleft := System.reachable_of_isSome (S := system Unit false)
    (s := ⟨.socket, [], fun _ => ⟨.socket, [], [], []⟩⟩) rfl
    ([.replicate 3 (.server true), .replicate 2 (.client () true), [.read () (some [49]),
      .client () true, .exit (), .server true, .server true]].flatten) (by decide)
  have hstray := System.reachable_of_isSome (S := system Unit false)
    (s := ⟨.socket, [], fun _ => ⟨.socket, [], [], []⟩⟩) rfl
    ([.replicate 3 (.server true), [.stray [49], .server true, .server true]].flatten) (by decide)
  exact ⟨⟨_, hleft, by decide, by decide⟩, _, hstray, by decide, by decide⟩

/-- A delivery changes nobody's socket. -/
theorem deliver_bound (s : State P) (p q : P) (m : Message) :
    ((s.deliver p m).clients q).pc.bound = (s.clients q).pc.bound := by
  by_cases hqp : q = p
  · subst hqp
    simp only [State.deliver, State.put, Function.update_self]
  · simp only [State.deliver, State.put, Function.update_of_ne hqp]

/-- The condition cannot be weakened: once a datagram waits whose sender has no live
socket, the server's own next calls bring it out of its loop. -/
theorem server_stops {waiting : List (Option P × Message)} :
    ∀ {s : State P}, s.server = .recvfrom → s.inbox = waiting →
      (∃ d ∈ waiting, ∀ p, d.1 = some p → (s.clients p).pc.bound = false) →
      ∃ n t, (system P false).run s (.replicate n (.server true)) = some t ∧ t.server = .exited := by
  induction waiting with
  | nil => rintro s - - ⟨d, hd, -⟩; cases hd
  | cons first rest ih =>
    obtain ⟨sender, m⟩ := first
    rintro s hpc hin ⟨d, hd, hdead⟩
    have hrecv : (system P false).step s (.server true) =
        some ({ s with inbox := rest }.gotoServer (.sendto (m.take bufSize) sender)) := by
      simp [system, serverStep, hpc, hin]
    set u := { s with inbox := rest }.gotoServer (.sendto (m.take bufSize) sender) with hu
    have hsend : (system P false).step u (.server true) = some (u.reply (m.take bufSize) sender) := by
      simp [system, serverStep, hu, State.gotoServer]
    by_cases hlive : ∃ p, sender = some p ∧ (s.clients p).pc.bound = true
    · -- this one is answered, and the other still waits
      obtain ⟨p, rfl, hp⟩ := hlive
      have hrest : d ∈ rest := by
        rcases List.mem_cons.mp hd with rfl | hd
        · exact absurd (hdead p rfl) (by rw [hp]; decide)
        · exact hd
      have hreply : u.reply (m.take bufSize) (some p) =
          (u.deliver p (m.take bufSize)).gotoServer .recvfrom := if_pos hp
      obtain ⟨n, t, hrun, ht⟩ := ih (s := (u.deliver p (m.take bufSize)).gotoServer .recvfrom) rfl rfl
        ⟨d, hrest, fun q hq => (deliver_bound u p q _).trans (hdead q hq)⟩
      refine ⟨n + 2, t, ?_, ht⟩
      rw [List.replicate_succ, List.replicate_succ, System.run_cons, hrecv, Option.bind_some,
        System.run_cons, hsend, Option.bind_some, hreply]
      exact hrun
    · have hexit : (u.reply (m.take bufSize) sender).server = .exited := by
        cases sender with
        | none => rfl
        | some p =>
          have hp : ¬ (u.clients p).pc.bound = true := fun hp => hlive ⟨p, rfl, hp⟩
          rw [State.reply, if_neg hp]
          rfl
      refine ⟨2, _, ?_, hexit⟩
      rw [List.replicate_succ, List.replicate_succ, System.run_cons, hrecv, Option.bind_some,
        System.run_cons, hsend]
      rfl

end LinuxApi.Datagram
