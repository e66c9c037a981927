import LinuxApi.Sockets.StreamServer
import LinuxApi.Transition.Indexed

/-! The iterative stream servers come to an end with every client. Each call of a client or of the server
lowers a measure, so no run is longer than the standard inputs allow, whatever the calls return; and where no
call fails a run can only stop when every client has been served. -/

namespace LinuxApi.StreamServer

open CopyLoops

variable {ι : Type*} [DecidableEq ι]

/-- The calls that do not fail, and write what they are given. -/
def smooth (s : State ι) : Action ι → Bool
  | .connect _ ok | .accept ok => ok
  | .clientRead _ r | .serverRead r => r ≠ .error
  | .clientWrite i r => decide ((s.client i).loop.pc = .write (r.getD 0)) && r.isSome
  | .serverWrite r => decide (s.loop.pc = .write (r.getD 0)) && r.isSome
  | .close => true

/-! ### The measure -/

/-- The calls of a client that are left, as far as the bytes in its hands allow; three for a byte in
flight. -/
def Client.work (c : Client) : ℕ :=
  6 * c.loop.source.length + 3 * c.flight.length + (if c.phase = .connect then 4 else 0) +
    match c.loop.pc with
    | .read => 1
    | .write n => 4 * n + 2
    | _ => 0

/-- The calls of the server that are left in a session for what is in its hands. -/
def sessionWork : Pc → ℕ
  | .read => 3
  | .write n => n + 4
  | .done => 2
  | .exited _ => 0

def State.serverWork (s : State ι) : ℕ :=
  match s.pc with
  | .accept => 1
  | .exited => 0
  | .serve _ => sessionWork s.loop.pc

def State.work [Fintype ι] (s : State ι) : ℕ :=
  (∑ i, (s.client i).work) + 3 * s.backlog.length + s.serverWork

/-- How long a run can be. -/
def bound [Fintype ι] (input : ι → List UInt8) : ℕ := (∑ i, (6 * (input i).length + 5)) + 1

variable {p : Programs ι} {input : ι → List UInt8} {s t : State ι} {i : ι}

section Measure

variable [Fintype ι]

omit [DecidableEq ι] [Fintype ι] in
theorem work_flight (c : Client) (f : List UInt8) :
    Client.work { c with flight := f } + 3 * c.flight.length = c.work + 3 * f.length := by
  simp only [Client.work]
  omega

omit [DecidableEq ι] [Fintype ι] in
theorem serverWork_serve (h : s.pc = .serve i) : s.serverWork = sessionWork s.loop.pc := by
  rw [State.serverWork, h]

/-- A client that has less to do lowers the measure, when nothing else changes. -/
theorem work_setClient {c : Client} (h : c.work < (s.client i).work) : (s.setClient i c).work < s.work := by
  have hsum := sum_update_add Client.work s.client i c
  show (∑ j, (Function.update s.client i c j).work) + 3 * s.backlog.length + s.serverWork < s.work
  unfold State.work
  omega

/-- A client that has connected has four calls less to do, and the server three more. -/
theorem work_connect (h : s.connect i true = some t) : t.work < s.work := by
  obtain ⟨hphase, h⟩ := Option.ite_none_right_eq_some.mp h
  rw [if_pos rfl] at h
  obtain ⟨-, h⟩ := Option.ite_none_right_eq_some.mp h
  cases h
  have hsum := sum_update_add Client.work s.client i { s.client i with phase := .joined }
  have hless : Client.work { s.client i with phase := .joined } + 4 = (s.client i).work := by
    unfold Client.work
    rw [hphase]
    simp only [reduceCtorEq, if_false, if_true]
    omega
  show (∑ j, (Function.update s.client i { s.client i with phase := .joined } j).work) +
    3 * (s.backlog ++ [i]).length + s.serverWork < s.work
  rw [List.length_append, List.length_singleton]
  unfold State.work
  omega

/-- The bytes that the server has read are in flight no more. -/
theorem work_serverRead {r : ReadResult} (h : s.serverRead r = some t) : t.work < s.work := by
  unfold State.serverRead at h
  split at h
  · rename_i i hpc
    split_ifs at h
    obtain ⟨m, hm, rfl⟩ := Option.map_eq_some_iff.mp h
    obtain ⟨hread, -, hm⟩ := readStep_cases (tests_conditionStyle _) hm
    have hread : s.loop.pc = .read := hread
    have hflight : Client.work { s.client i with flight := m.source } +
        3 * (s.client i).flight.length = (s.client i).work + 3 * m.source.length := work_flight ..
    have hsum := sum_update_add Client.work s.client i { s.client i with flight := m.source }
    have hwork : s.work = (∑ j, (s.client j).work) + 3 * s.backlog.length + 3 := by
      rw [State.work, serverWork_serve hpc, hread]
      rfl
    set u : State ι := { s.setClient i { s.client i with flight := m.source } with loop := m } with hu
    have hserver : u.serverWork = sessionWork m.pc := serverWork_serve (show u.pc = .serve i from hpc)
    rw [hwork, State.work, hserver]
    show (∑ j, (Function.update s.client i { s.client i with flight := m.source } j).work) +
      3 * s.backlog.length + sessionWork m.pc < _
    rcases hm with ⟨n, -, hn, hmpc, hlen⟩ | ⟨-, hmpc, -, hsource⟩ | ⟨e, -, hmpc, hsource⟩
    · have hlen : m.source.length + n = (s.client i).flight.length := hlen
      have hless : sessionWork m.pc = n + 4 := congrArg sessionWork hmpc
      omega
    · have hlen : m.source.length = (s.client i).flight.length := congrArg List.length hsource
      have hless : sessionWork m.pc = 2 := congrArg sessionWork hmpc
      omega
    · have hlen : m.source.length = (s.client i).flight.length := congrArg List.length hsource
      have hless : sessionWork m.pc = 0 := congrArg sessionWork hmpc
      omega
  · cases h

theorem work_step {a : Action ι} (h : (system p input).step s a = some t) : t.work < s.work := by
  cases a with
  | connect i ok =>
    cases ok with
    | true => exact work_connect h
    | false =>
      obtain ⟨hphase, h⟩ := Option.ite_none_right_eq_some.mp h
      cases h
      apply work_setClient
      unfold Client.work
      rw [hphase]
      simp only [reduceCtorEq, if_false, if_true]
      omega
  | clientRead i r =>
    obtain ⟨-, h⟩ := Option.ite_none_right_eq_some.mp h
    obtain ⟨m, hm, rfl⟩ := Option.map_eq_some_iff.mp h
    apply work_setClient
    unfold Client.work
    obtain ⟨hpc, -, ⟨n, -, hn, hmpc, hlen⟩ | ⟨-, hmpc, -, hsource⟩ | ⟨e, -, hmpc, hsource⟩⟩ :=
      readStep_cases (tests_conditionStyle _) hm
    · simp only [hpc, hmpc]
      omega
    · simp only [hpc, hmpc, hsource]
      omega
    · simp only [hpc, hmpc, hsource]
      omega
  | clientWrite i r =>
    obtain ⟨-, h⟩ := Option.ite_none_right_eq_some.mp h
    obtain ⟨m, hm, rfl⟩ := Option.map_eq_some_iff.mp h
    obtain ⟨n, more, hpc, hw, hlen, hsource, hmpc⟩ := writeStep_cases (tests_conditionStyle _) hm
    apply work_setClient
    unfold Client.work
    rw [hw, List.drop_left]
    simp only [hpc, hsource, List.length_append]
    rcases hmpc with ⟨-, hmpc⟩ | ⟨-, e, hmpc⟩ <;> simp only [hmpc] <;> omega
  | accept ok =>
    simp only [system, State.accept] at h
    split at h
    · rename_i hpc hb
      cases h
      unfold State.work State.serverWork
      simp only [hpc, hb, List.length_cons, sessionWork]
      omega
    · rename_i hpc
      cases h
      unfold State.work State.serverWork
      simp only [hpc]
      omega
    · cases h
  | serverRead r => exact work_serverRead h
  | serverWrite r =>
    simp only [system, State.serverWrite] at h
    split at h
    · rename_i i hpc
      obtain ⟨m, hm, rfl⟩ := Option.map_eq_some_iff.mp h
      obtain ⟨n, -, hwrite, -, -, -, hmpc⟩ := writeStep_cases (tests_conditionStyle _) hm
      have hwrite : s.loop.pc = .write n := hwrite
      unfold State.work State.serverWork
      rcases hmpc with ⟨-, hmpc⟩ | ⟨-, e, hmpc⟩ <;> simp only [hpc, hwrite, hmpc, sessionWork] <;> omega
    · cases h
  | close =>
    simp only [system, State.close] at h
    split at h
    · rename_i i hpc hdone
      cases h
      unfold State.work State.serverWork
      simp only [hpc, hdone, sessionWork]
      omega
    · cases h

end Measure

/-! ### Runs in which no call fails -/

/-- No call has failed. -/
structure Unfailed (s : State ι) : Prop where
  phase : ∀ i, (s.client i).phase ≠ .refused
  client : ∀ i e, (s.client i).loop.pc ≠ .exited e
  server : ∀ e, s.loop.pc ≠ .exited e
  pc : s.pc ≠ .exited

theorem readStep_ne_exited {c : Loop} (hc : Tests c.afterRead) {l m : CopyLoops.State c.size}
    {r : ReadResult} (h : readStep c l r = some m) (hr : r ≠ .error) (e : Exit) : m.pc ≠ .exited e := by
  obtain ⟨-, -, ⟨n, -, -, hpc, -⟩ | ⟨-, hpc, -⟩ | ⟨e', rfl, -⟩⟩ := readStep_cases hc h
  · rw [hpc]
    exact Pc.noConfusion
  · rw [hpc]
    exact Pc.noConfusion
  · exact absurd rfl hr

theorem writeStep_ne_exited {c : Loop} (hc : Tests c.afterRead) {l m : CopyLoops.State c.size}
    {r : Option ℕ} (h : writeStep c l r = some m) (hr : l.pc = .write (r.getD 0)) (hsome : r.isSome = true)
    (e : Exit) : m.pc ≠ .exited e := by
  obtain ⟨k, rfl⟩ := Option.isSome_iff_exists.mp hsome
  obtain ⟨n, more, hpc, -, -, -, ⟨-, hread⟩ | ⟨hne, -⟩⟩ := writeStep_cases hc h
  · rw [hread]
    exact Pc.noConfusion
  · cases hpc.symm.trans hr
    exact absurd rfl hne

theorem Unfailed.setClient (hu : Unfailed s) {c : Client} (hphase : c.phase ≠ .refused)
    (hloop : ∀ e, c.loop.pc ≠ .exited e) : Unfailed (s.setClient i c) := by
  refine ⟨fun j => ?_, fun j => ?_, hu.server, hu.pc⟩
  · by_cases h : j = i
    · subst h
      rw [setClient_self]
      exact hphase
    · rw [setClient_of_ne s c h]
      exact hu.phase j
  · by_cases h : j = i
    · subst h
      rw [setClient_self]
      exact hloop
    · rw [setClient_of_ne s c h]
      exact hu.client j

theorem Unfailed.step (hu : Unfailed s) {a : Action ι} (ha : smooth s a = true)
    (h : (system p input).step s a = some t) : Unfailed t := by
  cases a with
  | connect i ok =>
    obtain ⟨-, h⟩ := Option.ite_none_right_eq_some.mp h
    obtain rfl : ok = true := ha
    rw [if_pos rfl] at h
    obtain ⟨-, h⟩ := Option.ite_none_right_eq_some.mp h
    cases h
    obtain ⟨hphase, hclient, hserver, hpc⟩ :=
      hu.setClient (i := i) (c := { s.client i with phase := .joined }) Phase.noConfusion (hu.client i)
    exact ⟨hphase, hclient, hserver, hpc⟩
  | clientRead i r =>
    obtain ⟨-, h⟩ := Option.ite_none_right_eq_some.mp h
    obtain ⟨m, hm, rfl⟩ := Option.map_eq_some_iff.mp h
    exact hu.setClient (hu.phase i) (readStep_ne_exited (tests_conditionStyle _) hm (of_decide_eq_true ha))
  | clientWrite i r =>
    obtain ⟨-, h⟩ := Option.ite_none_right_eq_some.mp h
    obtain ⟨m, hm, rfl⟩ := Option.map_eq_some_iff.mp h
    obtain ⟨hpc, hsome⟩ := Bool.and_eq_true_iff.mp ha
    exact hu.setClient (hu.phase i) (writeStep_ne_exited (tests_conditionStyle _) hm (of_decide_eq_true hpc) hsome)
  | accept ok =>
    obtain rfl : ok = true := ha
    simp only [system, State.accept] at h
    split at h
    · cases h
      exact ⟨hu.phase, hu.client, fun _ => Pc.noConfusion, by simp⟩
    · contradiction
    · cases h
  | serverRead r =>
    simp only [system, State.serverRead] at h
    split at h
    · rename_i i hpc
      split_ifs at h
      obtain ⟨m, hm, rfl⟩ := Option.map_eq_some_iff.mp h
      obtain ⟨hphase, hclient, -, hpc⟩ :=
        hu.setClient (i := i) (c := { s.client i with flight := m.source }) (hu.phase i) (hu.client i)
      exact ⟨hphase, hclient, readStep_ne_exited (tests_conditionStyle _) hm (of_decide_eq_true ha), hpc⟩
    · cases h
  | serverWrite r =>
    simp only [system, State.serverWrite] at h
    split at h
    · obtain ⟨m, hm, rfl⟩ := Option.map_eq_some_iff.mp h
      obtain ⟨hpc, hsome⟩ := Bool.and_eq_true_iff.mp ha
      have hserver := writeStep_ne_exited (tests_conditionStyle _) hm (of_decide_eq_true hpc) hsome
      exact ⟨hu.phase, hu.client, hserver, hu.pc⟩
    · cases h
  | close =>
    simp only [system, State.close] at h
    split at h
    · cases h
      exact ⟨hu.phase, hu.client, hu.server, by simp⟩
    · cases h

/-! ### Where a run can stop -/

omit [DecidableEq ι] in
theorem smooth_ended (hu : Unfailed s) (he : (s.client i).ended = true) :
    (s.client i).loop.pc = .done := by
  unfold Client.ended at he
  split at he
  · assumption
  · rename_i e hpc
    exact absurd hpc (hu.client i e)
  · cases he

/-- A loop in front of its `read` can take a byte, or see the end of its source. -/
theorem exists_readStep {c : Loop} (hsize : 0 < c.size) {l : CopyLoops.State c.size} (hpc : l.pc = .read) :
    ∃ r, r ≠ .error ∧ (r = .eof → l.source = []) ∧ readStep c l r ≠ none := by
  cases hs : l.source with
  | nil =>
    refine ⟨.eof, ReadResult.noConfusion, fun _ => rfl, ?_⟩
    simp [readStep, hpc, readStream, hs]
  | cons b rest =>
    refine ⟨.data 1, ReadResult.noConfusion, fun h => ReadResult.noConfusion h, ?_⟩
    have hone : 1 ≤ c.size := hsize
    simp [readStep, hpc, readStream, hs, hone]

/-- A loop in front of its `write` can write all it has. -/
theorem writeStep_ne_none {c : Loop} {source : List UInt8} {l : CopyLoops.State c.size} {n : ℕ}
    (hi : CopyLoops.Inv source l) (hpc : l.pc = .write n) : writeStep c l (some n) ≠ none := by
  simp only [CopyLoops.Inv, hpc] at hi
  simp [writeStep, hpc, writeStream, hi.2.1]

section Stuck

variable (hi : Inv p input s) (hu : Unfailed s) (hs : ((system p input).under smooth).Stuck s)
include hs

theorem stuck_step (a : Action ι) (ha : smooth s a = true) : (system p input).step s a = none := by
  have h := hs a
  simpa [System.under, ha] using h

include hi hu

omit [DecidableEq ι] hi hs in
theorem alive_of_unfailed : s.alive = true := by
  unfold State.alive
  cases hpc : s.pc with
  | exited => exact absurd hpc hu.pc
  | accept | serve =>
    cases hloop : s.loop.pc with
    | exited e => exact absurd hloop (hu.server e)
    | read | write | done => rfl

/-- A client that is not at its end waits for room in its socket. -/
theorem stuck_client (hroom : 0 < p.room) (hj : (s.client i).phase = .joined)
    (hempty : (s.client i).flight = []) : (s.client i).ended = true := by
  cases hpc : (s.client i).loop.pc with
  | read =>
    have hsize : 0 < p.clientLoop.size := Nat.succ_pos 99
    obtain ⟨r, hr, -, hstep⟩ := exists_readStep hsize hpc
    have h := stuck_step hs (.clientRead i r) (decide_eq_true hr)
    simp only [system, State.clientRead, if_pos hj] at h
    exact absurd (Option.map_eq_none_iff.mp h) hstep
  | write n =>
    have h := stuck_step hs (.clientWrite i (some n)) (by simp [smooth, hpc])
    have hopen : s.alive = true ∧ (s.client i).flight.length < p.room :=
      ⟨alive_of_unfailed hu, by rw [hempty]; exact hroom⟩
    simp only [system, State.clientWrite, hj, true_and, if_pos fun _ => hopen] at h
    exact absurd (Option.map_eq_none_iff.mp h) (writeStep_ne_none (hi.client i) hpc)
  | done => simp [Client.ended, hpc]
  | exited => simp [Client.ended, hpc]

/-- The server has closed its last connection. -/
theorem stuck_server (hroom : 0 < p.room) : s.pc = .accept := by
  cases hpc : s.pc with
  | accept => rfl
  | exited => exact absurd hpc hu.pc
  | serve i =>
    have hout := hi.output
    unfold State.Output at hout
    simp only [hpc] at hout
    obtain ⟨closed, horder, -, hcopy, -, -⟩ := hout
    have hjoined : (s.client i).phase = .joined := (hi.joined i).mp (by simp [horder])
    cases hloop : s.loop.pc with
    | read =>
      have hsession : (s.session i).pc = .read := hloop
      obtain ⟨r, hr, heof, hstep⟩ := exists_readStep (c := serverLoop) (by decide) hsession
      have h := stuck_step hs (.serverRead r) (decide_eq_true hr)
      simp only [system, State.serverRead, hpc] at h
      split_ifs at h with hclosed
      · rw [stuck_client hi hu hs hroom hjoined (heof hclosed.1)] at hclosed
        cases hclosed.2
      · exact absurd (Option.map_eq_none_iff.mp h) hstep
    | write n =>
      have h := stuck_step hs (.serverWrite (some n)) (by simp [smooth, hloop])
      simp only [system, State.serverWrite, hpc] at h
      have hsession : (s.session i).pc = .write n := hloop
      exact absurd (Option.map_eq_none_iff.mp h) (writeStep_ne_none hcopy hsession)
    | done =>
      have h := stuck_step hs .close rfl
      simp [system, State.close, hpc, hloop] at h
    | exited e => exact absurd hloop (hu.server e)

theorem stuck_backlog (hroom : 0 < p.room) : s.backlog = [] := by
  have hpc := stuck_server hi hu hs hroom
  cases hb : s.backlog with
  | nil => rfl
  | cons j rest =>
    have h := stuck_step hs (.accept true) rfl
    simp [system, State.accept, hpc, hb] at h

/-- Every client has been accepted. -/
theorem stuck_order (hroom : 0 < p.room) (i : ι) : i ∈ s.order := by
  have hback := stuck_backlog hi hu hs hroom
  cases hphase : (s.client i).phase with
  | refused => exact absurd hphase (hu.phase i)
  | joined =>
    have hmem := (hi.joined i).mpr hphase
    rwa [hback, List.append_nil] at hmem
  | connect =>
    have h := stuck_step hs (.connect i true) rfl
    have hopen : s.alive = true ∧ s.backlog.length < backlogSize :=
      ⟨alive_of_unfailed hu, by rw [hback]; exact Nat.succ_pos 4⟩
    simp [system, State.connect, hphase, hopen] at h

/-- The standard inputs, one after the other, are on the standard output. -/
theorem stuck_stdout (hroom : 0 < p.room) :
    s.stdout = s.order.flatMap fun i => p.line i ++ input i := by
  have hout := hi.output
  unfold State.Output at hout
  simp only [stuck_server hi hu hs hroom] at hout
  rw [hout.2, State.text]
  refine List.flatMap_congr fun i hmem => ?_
  have hdone := smooth_ended hu (hout.1 i hmem).1
  rw [State.sent, (hi.client i).written_eq hdone]

end Stuck

theorem work_init [Fintype ι] (h : (system p input).init s) : s.work = bound input := by
  have h : s = _ := h
  rw [h]
  rfl

/-- What the steps without failures keep. -/
theorem unfailed_step {a : Action ι} (h : Inv p input s ∧ Unfailed s)
    (ht : ((system p input).under smooth).step s a = some t) : Inv p input t ∧ Unfailed t := by
  obtain ⟨ha, ht⟩ := System.under_step_eq_some.mp ht
  exact ⟨h.1.step ht, h.2.step ha ht⟩

theorem unfailed_init (h : (system p input).init s) : Unfailed s := by
  have h : s = _ := h
  rw [h]
  exact ⟨fun _ => Phase.noConfusion, fun _ _ => Pc.noConfusion, fun _ => Pc.noConfusion, by simp⟩

/-- For any number of clients and every interleaving: the clients and the server together make no more calls
than the standard inputs allow, whatever the calls return. As long as none of them fails they can go on until
nothing is left to do, and then the standard output is the standard inputs of all the clients, whole and one
after the other, in the order in which the clients have connected. -/
theorem every_client_served [Fintype ι] {as : List (Action ι)} (hroom : 0 < p.room)
    (hs : (system p input).init s) (h : (system p input).run s as = some t) :
    as.length ≤ bound input ∧
      (((system p input).under smooth).run s as = some t →
        (∃ bs u, ((system p input).under smooth).run t bs = some u ∧
          ((system p input).under smooth).Stuck u) ∧
        (((system p input).under smooth).Stuck t →
          t.stdout = (connected as).flatMap (fun i => p.line i ++ input i) ∧ (connected as).Nodup ∧
            ∀ i, i ∈ connected as)) := by
  have hlength := System.length_add_le_of_run (I := fun _ => True) (fun _ _ _ _ _ => trivial)
    (fun _ _ _ _ ht => work_step ht) trivial h
  rw [work_init hs] at hlength
  refine ⟨by omega, fun hsmooth => ?_⟩
  have ht : Inv p input t ∧ Unfailed t := System.run_invariant (fun _ _ _ hu ht => unfailed_step hu ht)
    ⟨inv_init hs, unfailed_init hs⟩ hsmooth
  refine ⟨?_, fun hstuck => ?_⟩
  · exact System.exists_run_stuck (μ := State.work) (fun _ _ _ hu ht => unfailed_step hu ht)
      (fun _ _ _ _ ht => work_step (System.under_step_eq_some.mp ht).2) ht
  · have horder := order_eq_connected hs h
    rw [stuck_backlog ht.1 ht.2 hstuck hroom, List.append_nil] at horder
    rw [← horder]
    exact ⟨stuck_stdout ht.1 ht.2 hstuck hroom, (List.nodup_append.mp ht.1.nodup).1,
      stuck_order ht.1 ht.2 hstuck hroom⟩

/-- Two clients, one of which sends nothing; some run serves both. -/
theorem every_client_served_two : ∃ (as : List (Action Bool)) (t : State Bool),
    as.length ≤ 23 ∧ t.stdout = (connected as).flatMap (fun i => if i then [1, 2] else []) ∧
      (connected as).Nodup ∧ true ∈ connected as ∧ false ∈ connected as := by
  let input : Bool → List UInt8 := fun i => if i then [1, 2] else []
  let s : State Bool :=
    ⟨fun i => ⟨.connect, start (.zero _) (input i), []⟩, [], [], .accept, start (.zero _) []⟩
  have hs : (system (socketUnixDomainStream Bool 4096) input).init s := rfl
  obtain ⟨as, t, ht, hstuck⟩ := ((every_client_served (by decide) hs (System.run_nil s)).2 rfl).1
  obtain ⟨hlength, hserved⟩ := every_client_served (by decide) hs (System.run_of_under ht)
  obtain ⟨hout, hnodup, hall⟩ := (hserved ht).2 hstuck
  exact ⟨as, t, hlength, hout, hnodup, hall true, hall false⟩

end LinuxApi.StreamServer
