import LinuxApi.SystemV.QueueServer

/-! Whether the published identifier names a queue. Nothing but the `IPC_RMID` in a
server's start-up takes a queue away, so an identifier goes stale only by a start-up; and
as long as no start-up overlaps a running server or a client's session, it does not. -/

namespace LinuxApi.QueueServer

variable {S C : Type*}

/-- The server is in its start-up. -/
def ServerPc.starting : ServerPc → Bool
  | .create | .lookup | .remove _ | .openFile _ | .write _ | .close _ => true
  | _ => false

/-- The server is in its start-up and has not yet emptied the file. -/
def ServerPc.preparing : ServerPc → Bool
  | .create | .lookup | .remove _ | .openFile _ => true
  | _ => false

/-- The server is in its start-up or receives. -/
def ServerPc.running : ServerPc → Bool
  | .ftok | .exited => false
  | _ => true

/-- The client has opened the file and not yet sent both messages. -/
def ClientPc.inSession : ClientPc → Bool
  | .read _ | .close _ | .send1 _ | .send2 _ => true
  | _ => false

/-- A server starts only beside no running server and no client's session, clients move
only beside no start-up, and no server is killed in its start-up. -/
def exclusive [Fintype S] [DecidableEq S] [Fintype C] (s : State S C) : Action S C → Bool
  | .server i => s.servers i = .ftok →
      (∀ j, j ≠ i → (s.servers j).running = false) ∧ ∀ c, (s.clients c).inSession = false
  | .client _ => ∀ i, (s.servers i).starting = false
  | .kill i => (s.servers i).starting = false

/-- Every queue somebody relies on exists, and the file names it outside a start-up. -/
structure Live (s : State S C) : Prop where
  alone : ∀ i, (s.servers i).starting = true →
    (∀ j, j ≠ i → (s.servers j).running = false) ∧ ∀ c, (s.clients c).inSession = false
  looked : ∀ i, s.servers i = .lookup → s.queue.isSome
  found : ∀ i f, s.servers i = .remove f → f = s.queue ∧ s.queue.isSome
  server : ∀ i q, (s.servers i).created = some q → s.queue = some q
  client : ∀ c q, (s.clients c).holds = some q → s.queue = some q
  file : ∀ q, s.file = some (some q) → s.queue = some q ∨ ∃ i, (s.servers i).preparing = true

theorem ServerPc.running_of_starting {pc : ServerPc} (h : pc.starting = true) : pc.running = true := by
  cases pc <;> first | rfl | cases h

theorem ServerPc.starting_of_preparing {pc : ServerPc} (h : pc.preparing = true) :
    pc.starting = true := by
  cases pc <;> first | rfl | cases h

theorem ServerPc.running_of_created {pc : ServerPc} {q : ℕ} (h : pc.created = some q) :
    pc.running = true := by
  cases pc <;> first | rfl | cases h

theorem ClientPc.inSession_of_holds {pc : ClientPc} {q : ℕ} (h : pc.holds = some q) :
    pc.inSession = true := by
  cases pc <;> first | rfl | cases h

variable {s t : State S C}

section Servers

variable [DecidableEq S]

/-- The one server that runs, beside no client's session, takes a step of its start-up. -/
theorem live_of_start {i : S} {pc : ServerPc} {queue : Option ℕ}
    {file : Option (Option ℕ)} {next : ℕ} {removed : List (S × ℕ)}
    (ho : ∀ j, j ≠ i → (s.servers j).running = false) (hc : ∀ c, (s.clients c).inSession = false)
    (hlook : pc = .lookup → queue.isSome) (hfound : ∀ f, pc = .remove f → f = queue ∧ queue.isSome)
    (hown : ∀ q, pc.created = some q → queue = some q)
    (hfile : ∀ q, file = some (some q) → queue = some q ∨ pc.preparing = true) :
    Live ({ s with queue, next, file, removed }.gotoServer i pc) := by
  have hrun : ∀ j, (Function.update s.servers i pc j).running = true → j = i := by
    intro j hj
    by_contra hne
    rw [Function.update_of_ne hne, ho j hne] at hj
    cases hj
  have hself : ∀ {j}, j = i → Function.update s.servers i pc j = pc := by
    rintro j rfl
    exact Function.update_self ..
  refine ⟨fun j hj => ⟨fun k hk => ?_, hc⟩, fun j hj => ?_, fun j f hj => ?_, fun j q hj => ?_,
    fun c q h => ?_, fun q h => ?_⟩
  all_goals simp only [State.gotoServer] at *
  · rw [Function.update_of_ne (hrun j (ServerPc.running_of_starting hj) ▸ hk)]
    exact ho k (hrun j (ServerPc.running_of_starting hj) ▸ hk)
  · rw [hself (hrun j (by rw [hj]; rfl))] at hj
    exact hlook hj
  · rw [hself (hrun j (by rw [hj]; rfl))] at hj
    exact hfound f hj
  · rw [hself (hrun j (ServerPc.running_of_created hj))] at hj
    exact hown q hj
  · exact absurd (ClientPc.inSession_of_holds h) (by rw [hc c]; decide)
  · exact (hfile q h).imp_right fun hp => ⟨i, by rw [Function.update_self]; exact hp⟩

/-- A step before it has a queue of its own. -/
theorem live_of_preparing {i : S} {pc : ServerPc} {queue : Option ℕ} {file : Option (Option ℕ)} {next : ℕ}
    {removed : List (S × ℕ)} (ho : ∀ j, j ≠ i → (s.servers j).running = false)
    (hc : ∀ c, (s.clients c).inSession = false) (hnone : pc.created = none)
    (hprep : pc.preparing = true) (hlook : pc = .lookup → queue.isSome)
    (hfound : ∀ f, pc = .remove f → f = queue ∧ queue.isSome) :
    Live ({ s with queue, next, file, removed }.gotoServer i pc) := by
  refine live_of_start ho hc hlook hfound (fun q hq => ?_) fun _ _ => .inr hprep
  rw [hnone] at hq
  cases hq

/-- A step with its own queue, which is the one of the key. -/
theorem live_of_owner {i : S} {pc : ServerPc} {queue : Option ℕ} {file : Option (Option ℕ)} {next q : ℕ}
    {removed : List (S × ℕ)} (ho : ∀ j, j ≠ i → (s.servers j).running = false)
    (hc : ∀ c, (s.clients c).inSession = false) (hown : pc.created = some q) (hq : queue = some q)
    (hfile : ∀ q, file = some (some q) → queue = some q ∨ pc.preparing = true) :
    Live ({ s with queue, next, file, removed }.gotoServer i pc) := by
  refine live_of_start ho hc ?_ ?_ (fun p hp => hq.trans (hown.symm.trans hp)) hfile
  · rintro rfl
    cases hown
  · rintro f rfl
    cases hown

/-- A server outside its start-up ends. -/
theorem Live.server_exits (hi : Live s) {i : S} (h : (s.servers i).starting = false) :
    Live (s.gotoServer i .exited) := by
  have hold : ∀ {j pc}, Function.update s.servers i .exited j = pc → pc ≠ .exited →
      s.servers j = pc := by
    rintro j pc rfl hne
    by_cases hj : j = i
    · subst hj
      rw [Function.update_self] at hne
      exact absurd rfl hne
    · rw [Function.update_of_ne hj]
  refine ⟨fun j hj => ⟨fun k hk => ?_, ?_⟩, fun j hj => ?_, fun j f hj => ?_, fun j q hj => ?_,
    hi.client, fun q hq => ?_⟩
  all_goals simp only [State.gotoServer] at *
  · have hsj := hold rfl (by rintro he; rw [he] at hj; cases hj)
    rw [← hsj] at hj
    by_cases hki : k = i
    · subst hki
      rw [Function.update_self]
      rfl
    · rw [Function.update_of_ne hki]
      exact (hi.alone j hj).1 k hk
  · have hsj := hold rfl (by rintro he; rw [he] at hj; cases hj)
    rw [← hsj] at hj
    exact (hi.alone j hj).2
  · exact hi.looked j (hold hj ServerPc.noConfusion)
  · exact hi.found j f (hold hj ServerPc.noConfusion)
  · have hsj := hold rfl (by rintro he; rw [he] at hj; cases hj)
    rw [← hsj] at hj
    exact hi.server j q hj
  · refine (hi.file q hq).imp_right ?_
    rintro ⟨j, hj⟩
    have hne : j ≠ i := by
      rintro rfl
      rw [ServerPc.starting_of_preparing hj] at h
      cases h
    refine ⟨j, ?_⟩
    rw [Function.update_of_ne hne]
    exact hj

variable [Fintype S] [Fintype C]

theorem Live.server_step (hi : Live s) {i : S} (he : exclusive s (.server i) = true)
    (h : serverStep s i = some t) : Live t := by
  unfold serverStep at h
  cases hpc : s.servers i with
  | ftok =>
    obtain ⟨ho, hc⟩ := of_decide_eq_true he hpc
    simp only [hpc, Option.some.injEq] at h
    exact h ▸ live_of_preparing ho hc rfl rfl ServerPc.noConfusion fun _ => ServerPc.noConfusion
  | create =>
    obtain ⟨ho, hc⟩ := hi.alone i (by rw [hpc]; rfl)
    simp only [hpc, Option.some.injEq, State.create] at h
    split_ifs at h with hq
    · exact h ▸ live_of_owner ho hc rfl rfl fun _ _ => .inr rfl
    · exact h ▸ live_of_preparing ho hc rfl rfl (fun _ => Option.isSome_iff_ne_none.mpr hq)
        fun _ => ServerPc.noConfusion
  | lookup =>
    obtain ⟨ho, hc⟩ := hi.alone i (by rw [hpc]; rfl)
    have hq := hi.looked i hpc
    simp only [hpc, Option.some.injEq] at h
    exact h ▸ live_of_preparing ho hc rfl rfl ServerPc.noConfusion fun f hf =>
      ⟨(ServerPc.remove.inj hf).symm, hq⟩
  | remove found =>
    obtain ⟨ho, hc⟩ := hi.alone i (by rw [hpc]; rfl)
    obtain ⟨rfl, hq⟩ := hi.found i found hpc
    obtain ⟨q, hq⟩ := Option.isSome_iff_exists.mp hq
    simp only [hpc, Option.some.injEq, hq, State.remove, if_true] at h
    exact h ▸ live_of_preparing ho hc rfl rfl ServerPc.noConfusion fun _ => ServerPc.noConfusion
  | openFile q =>
    obtain ⟨ho, hc⟩ := hi.alone i (by rw [hpc]; rfl)
    have hq := hi.server i q (by rw [hpc]; rfl)
    simp only [hpc, Option.some.injEq] at h
    exact h ▸ live_of_owner ho hc rfl hq (by rintro _ ⟨⟩)
  | write q =>
    obtain ⟨ho, hc⟩ := hi.alone i (by rw [hpc]; rfl)
    have hq := hi.server i q (by rw [hpc]; rfl)
    simp only [hpc, Option.some.injEq] at h
    exact h ▸ live_of_owner ho hc rfl hq fun p hp => .inl (hq.trans (Option.some.inj hp))
  | close q =>
    obtain ⟨ho, hc⟩ := hi.alone i (by rw [hpc]; rfl)
    have hq := hi.server i q (by rw [hpc]; rfl)
    simp only [hpc, Option.some.injEq] at h
    refine h ▸ live_of_owner ho hc rfl hq fun p hp => ?_
    -- nobody prepares, since the one server that runs has already written
    refine .inl ((hi.file p hp).resolve_right ?_)
    rintro ⟨j, hj⟩
    by_cases hji : j = i
    · subst hji
      rw [hpc] at hj
      cases hj
    · have hrun := ServerPc.running_of_starting (ServerPc.starting_of_preparing hj)
      rw [ho j hji] at hrun
      cases hrun
  | receive q =>
    simp only [hpc, Option.some.injEq] at h
    rw [if_pos (hi.server i q (by rw [hpc]; rfl))] at h
    exact h ▸ hi
  | exited => simp only [hpc] at h; cases h

end Servers

section Clients

variable [DecidableEq C]

/-- Beside no start-up a client moves on, with an identifier that names the queue. -/
theorem Live.client_step (hi : Live s) (hn : ∀ i, (s.servers i).starting = false) {c : C}
    (h : clientStep s c = some t) : Live t := by
  obtain ⟨pc, rfl, hpc⟩ := clientStep_spec h
  refine ⟨fun i hs => absurd ((hn i).symm.trans hs) (by decide), hi.looked, hi.found, hi.server,
    holds_gotoClient hi.client fun q hq => ?_, hi.file⟩
  rcases hpc q hq with hold | hfile
  · exact hi.client c q hold
  · refine (hi.file q hfile).resolve_right ?_
    rintro ⟨i, hp⟩
    have hs := ServerPc.starting_of_preparing hp
    rw [hn i] at hs
    cases hs

end Clients

variable [DecidableEq S] [DecidableEq C] [Fintype S] [Fintype C]

theorem live_reachable (h : ((system S C).under exclusive).Reachable s) : Live s := by
  refine h.invariant ?_ ?_
  · intro s hs
    obtain rfl : s = _ := hs
    exact ⟨nofun, nofun, nofun, nofun, nofun, nofun⟩
  · intro s a t hi hst
    obtain ⟨he, hst⟩ := System.under_step_eq_some.mp hst
    cases a with
    | server i => exact hi.server_step he hst
    | client c => exact hi.client_step (of_decide_eq_true he) hst
    | kill i =>
      simp only [system, killStep] at hst
      split_ifs at hst
      exact Option.some.inj hst ▸ hi.server_exits (of_decide_eq_true he)

/-- From its `read` on the identifier of a client names a queue that exists unless a
server's start-up has removed it, and so does the one of a receiving server unless another
server's start-up has; where no start-up overlaps a running server or a client's session,
none has. -/
theorem published_queue_exists :
    (∀ s, (system S C).Reachable s →
      (∀ c q, (s.clients c).holds = some q → s.queue = some q ∨ ∃ j, (j, q) ∈ s.removed) ∧
      ∀ i q, s.servers i = .receive q → s.queue = some q ∨ ∃ j, j ≠ i ∧ (j, q) ∈ s.removed) ∧
    ∀ s, ((system S C).under exclusive).Reachable s →
      (∀ c q, (s.clients c).holds = some q → s.queue = some q) ∧
      ∀ i q, s.servers i = .receive q → s.queue = some q := by
  refine ⟨fun s h => ⟨fun c q hq => ?_, fun i q hq => ?_⟩, fun s h => ?_⟩
  · have hi := issued_reachable h
    exact hi.kept q (hi.client c q hq)
  · have hi := issued_reachable h
    obtain ⟨hlt, hown⟩ := hi.server i q (by rw [hq]; rfl)
    refine (hi.kept q hlt).imp_right fun ⟨j, hj⟩ => ⟨j, ?_, hj⟩
    rintro rfl
    exact hown hj
  · have hi := live_reachable h
    exact ⟨hi.client, fun i q hq => hi.server i q (by rw [hq]; rfl)⟩

/-- A server is killed, another takes over, removes its queue and publishes a new one. -/
theorem published_queue_exists_after_restart :
    ∃ s, ((system Bool Unit).under exclusive).Reachable s ∧ s.clients () = .send1 1 ∧
      s.removed = [(true, 0)] ∧ s.queue = some 1 := by
  have hr := System.reachable_of_isSome (S := (system Bool Unit).under exclusive)
    (s := ⟨none, 0, none, [], fun _ => .ftok, fun _ => .openFile⟩) rfl
    ([.replicate 5 (.server false), [.kill false], .replicate 8 (.server true),
      .replicate 3 (.client ())].flatten) (by decide)
  exact ⟨_, hr, by decide, by decide, (published_queue_exists.2 _ hr).1 () 1 (by decide)⟩

/-- A second start-up removes the queue of a receiving server, between the `read` and the
`msgsnd` of a client. -/
theorem published_queue_removed :
    ∃ s, (system Bool Unit).Reachable s ∧ s.servers false = .receive 0 ∧
      s.clients () = .send1 0 ∧ s.queue = none ∧ s.removed = [(true, 0)] := by
  have hr := System.reachable_of_isSome (S := system Bool Unit)
    (s := ⟨none, 0, none, [], fun _ => .ftok, fun _ => .openFile⟩) rfl
    ([.replicate 5 (.server false), .replicate 3 (.client ()), .replicate 4 (.server true)].flatten)
    (by decide)
  exact ⟨_, hr, by decide, by decide, by decide, by decide⟩

end LinuxApi.QueueServer
