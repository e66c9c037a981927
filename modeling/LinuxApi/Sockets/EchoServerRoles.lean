import LinuxApi.Sockets.EchoServer

/-! Which process of the echo server does what. The original process accepts and forks
and every child serves its own connection, until a client closes: on the end of file
`echo` returns, and the child, which nothing makes exit, goes round the accept loop. -/

namespace LinuxApi.EchoServer

/-- What the events of process `p` must look like: only process 0 accepts and forks, a
process serves only the connection it was forked for, and after the end of file it does
nothing but exit with success. -/
structure RolesOk (p : ℕ) (P : Proc) : Prop where
  original : p ≠ 0 → .accept ∉ P.events ∧ .fork ∉ P.events
  served : ∀ c, .serve c ∈ P.events → P.forkedFor = some c
  ended : ∀ pre post, P.events = pre ++ .eof :: post → ∀ e ∈ post, e = .exit .success

/-- Process `p` is about to read from its client. -/
def State.reading (s : State) (p : ℕ) : Bool :=
  s.procs[p]?.any fun P => match P.pc with
    | .read _ => true
    | _ => false

/-- No `read` returns end of file. -/
def noEof (s : State) : Action → Bool
  | .main p r => !(r == 0 && s.reading p)
  | _ => true

/-! ### Before the end of file -/

/-- An event that process `p`, forked for `c`, may have to its name. -/
def Allowed (p : ℕ) (c : Option ℕ) : Event → Prop
  | .accept | .fork => p = 0
  | .serve d => c = some d
  | .eof => False
  | .exit _ => True

/-- A place where process `p`, forked for `c`, may be. -/
def Place (p : ℕ) (c : Option ℕ) : Pc → Prop
  | .accept | .fork _ | .forkFailed _ | .closeClient _ => p = 0
  | .closeListen d | .read d | .write d _ => p ≠ 0 ∧ c = some d
  | .exited _ => True

structure Kept (p : ℕ) (P : Proc) : Prop where
  events : ∀ e ∈ P.events, Allowed p P.forkedFor e
  place : Place p P.forkedFor P.pc

theorem Kept.rolesOk {p : ℕ} {P : Proc} (h : Kept p P) : RolesOk p P where
  original hp := ⟨fun he => hp (h.events _ he), fun he => hp (h.events _ he)⟩
  served _ he := h.events _ he
  ended pre post he := absurd (h.events .eof (he ▸ by simp)) id

theorem Kept.goto {p : ℕ} {P : Proc} (h : Kept p P) {es : List Event} {pc : Pc}
    (hes : ∀ e ∈ es, Allowed p P.forkedFor e) (hpc : Place p P.forkedFor pc) :
    Kept p (P.goto es pc) where
  events e he := (List.mem_append.mp he).elim (h.events e) (hes e)
  place := hpc

theorem kept_unsignalled : Unsignalled Kept := fun _ _ _ _ _ h => ⟨h.events, h.place⟩

/-- A process that goes on, but not from an end of file, keeps to its role. -/
theorem Kept.goesOn {p : ℕ} {P : Proc} {r : ℤ} {es : List Event} {pc : Pc} (h : Kept p P)
    (hn : GoesOn P r es pc) (hr : ∀ c, P.pc = .read c → r ≠ 0) : Kept p (P.goto es pc) := by
  have hp := h.place
  cases hn with
  | accept c hpc _ =>
    simp only [Place, hpc] at hp
    exact h.goto (by simp [Allowed, hp]) hp
  | forkFails c hpc | forks c hpc =>
    simp only [Place, hpc] at hp
    exact h.goto (by simp [Allowed, hp]) hp
  | closeClient c hpc =>
    simp only [Place, hpc] at hp
    exact h.goto nofun hp
  | eof c hpc hz => exact absurd hz (hr c hpc)
  | read c hpc =>
    simp only [Place, hpc] at hp
    exact h.goto (by simp [Allowed, hp.2]) hp
  | write c n hpc =>
    simp only [Place, hpc] at hp
    exact h.goto (by simp [Allowed, hp.2]) hp

theorem Kept.fails {p : ℕ} {P : Proc} {es : List Event} (h : Kept p P) (hf : Fails P es) :
    Kept p (P.goto (es ++ [.exit .failure]) (.exited .failure)) := by
  have hp := h.place
  refine h.goto (fun e he => ?_) trivial
  rcases List.mem_append.mp he with he | he
  · cases hf with
    | accept hpc =>
      simp only [Place, hpc] at hp
      exact List.mem_singleton.mp he ▸ hp
    | fork c hpc => simp at he
    | read c hpc | write c n hpc =>
      simp only [Place, hpc] at hp
      exact List.mem_singleton.mp he ▸ hp.2
  · exact List.mem_singleton.mp he ▸ trivial

theorem kept_main {s t : State} {p : ℕ} {P : Proc} {r : ℤ} (h : s.All Kept) (hP : s.procs[p]? = some P)
    (hr : ∀ c, P.pc = .read c → r ≠ 0) (hst : mainStep s p P r = some t) : t.All Kept := by
  have hk := h p P hP
  have hlt := (List.getElem?_eq_some_iff.mp hP).choose
  refine h.main kept_unsignalled hP hst (fun es pc hn => hk.goesOn hn hr) (fun c _ => ?_)
    (fun c hpc => ?_) fun es hf => hk.fails hf
  · exact ⟨nofun, by omega, rfl⟩
  · have hp := hk.place
    simp only [Place, hpc] at hp
    have hg : Kept p (P.goto [] (.read c)) := hk.goto nofun hp
    exact ⟨hg.events, hg.place⟩

theorem kept_reachable {s : State} (h : (system.under noEof).Reachable s) : s.All Kept := by
  refine h.invariant ?_ fun s a t hi hst => ?_
  · rintro s rfl
    exact State.All.start ⟨nofun, rfl⟩
  · obtain ⟨hc, hst⟩ := System.under_step_eq_some.mp hst
    refine hi.step kept_unsignalled hst ?_ fun p P hP => hP.goto nofun trivial
    rintro p P r rfl hP hst
    refine kept_main hi hP (fun c hpc hr => ?_) hst
    simp [noEof, State.reading, hP, hpc, hr] at hc

/-! ### The end of file -/

/-- A place where process `p` may be, with `listen_sock` open or not. -/
def Shut (p : ℕ) (listenOpen : Bool) : Pc → Prop
  | .accept => p = 0 ∨ listenOpen = false
  | .fork _ | .forkFailed _ | .closeClient _ => p = 0
  | .closeListen _ => p ≠ 0
  | .read _ | .write _ _ => p ≠ 0 ∧ listenOpen = false
  | .exited _ => True

/-- A child has closed `listen_sock` before it reads. -/
def Closed (p : ℕ) (P : Proc) : Prop := Shut p P.listenOpen P.pc

theorem closed_unsignalled : Unsignalled Closed := fun _ _ _ _ _ h => h

theorem Closed.goesOn {p : ℕ} {P : Proc} {r : ℤ} {es : List Event} {pc : Pc} (h : Closed p P)
    (hn : GoesOn P r es pc) : Closed p (P.goto es pc) := by
  unfold Closed at h
  cases hn with
  | accept c hpc ho =>
    simp only [Shut, hpc] at h
    exact h.resolve_right (by simp [ho])
  | forkFails c hpc | forks c hpc =>
    simp only [Shut, hpc] at h
    exact h
  | closeClient c hpc =>
    simp only [Shut, hpc] at h
    exact .inl h
  | eof c hpc _ =>
    simp only [Shut, hpc] at h
    exact .inr h.2
  | read c hpc | write c n hpc =>
    simp only [Shut, hpc] at h
    exact h

theorem closed_main {s t : State} {p : ℕ} {P : Proc} {r : ℤ} (h : s.All Closed)
    (hP : s.procs[p]? = some P) (hst : mainStep s p P r = some t) : t.All Closed := by
  have hc := h p P hP
  have hlt := (List.getElem?_eq_some_iff.mp hP).choose
  refine h.main closed_unsignalled hP hst (fun es pc hn => hc.goesOn hn) (fun c _ => ?_)
    (fun c hpc => ?_) fun es _ => trivial
  · show s.procs.length ≠ 0
    omega
  · simp only [Closed, Shut, hpc] at hc
    exact ⟨hc, rfl⟩

theorem closed_reachable {s : State} (h : system.Reachable s) : s.All Closed := by
  refine h.invariant ?_ fun s a t hi hst => ?_
  · rintro s rfl
    exact State.All.start (.inl rfl)
  · refine hi.step closed_unsignalled hst ?_ fun p P _ => trivial
    rintro p P r - hP hst
    exact closed_main hi hP hst

theorem getElem?_modify_self {s : State} {p : ℕ} {P : Proc} (hP : s.procs[p]? = some P)
    (f : Proc → Proc) : (s.modify p f).procs[p]? = some (f P) := by
  rw [State.modify, List.getElem?_modify, hP, Option.map_eq_map, Option.map_some, if_pos rfl]

/-- A SIGCHLD changes nothing of a process but the pending bit. -/
theorem getElem?_raise {s : State} {p : ℕ} {P : Proc} (hP : s.procs[p]? = some P) (parent : Option ℕ) :
    ∃ b, (s.raise parent).procs[p]? = some { P with pending := b } := by
  cases parent with
  | none => exact ⟨P.pending, hP⟩
  | some q =>
    by_cases hq : q = p
    · subst hq
      exact ⟨true, getElem?_modify_self hP _⟩
    · refine ⟨P.pending, ?_⟩
      rw [State.raise, State.modify, List.getElem?_modify, hP, Option.map_eq_map, Option.map_some,
        if_neg hq]

/-- A child that reads the end of file calls `accept` next, on the socket it has closed,
and exits with failure. -/
theorem eof_accepts {s : State} (h : system.Reachable s) {p c : ℕ} {P : Proc}
    (hP : s.procs[p]? = some P) (hpc : P.pc = .read c) (hh : P.handler = none) (r : ℤ) :
    ∃ t, system.run s [.main p 0, .main p r] = some t ∧ ¬ t.All RolesOk ∧
      ∃ Q, t.procs[p]? = some Q ∧ Q.pc = .exited .failure := by
  have hclosed := closed_reachable h p P hP
  simp only [Closed, Shut, hpc] at hclosed
  obtain ⟨hp, hopen⟩ := hclosed
  let u := s.modify p (·.goto [.serve c, .eof] .accept)
  have hu : u.procs[p]? = some (P.goto [.serve c, .eof] .accept) := getElem?_modify_self hP _
  let t := u.errExit p (P.goto [.serve c, .eof] .accept) [.accept]
  have hfirst : system.step s (.main p 0) = some u := by
    simp [system, hP, hh, mainStep, hpc, u]
  have hsecond : system.step u (.main p r) = some t := by
    simp [system, hu, hh, mainStep, hopen, Proc.goto, t]
  obtain ⟨b, hb⟩ := getElem?_raise (getElem?_modify_self hu
    (·.exit [.accept, .exit .failure] .failure)) (P.goto [.serve c, .eof] .accept).parent
  refine ⟨t, ?_, fun hall => ?_, _, hb, rfl⟩
  · rw [System.run_cons, hfirst, Option.bind_some, System.run_cons, hsecond]
    rfl
  · exact ((hall p _ hb).original hp).1 (by simp [Proc.exit, Proc.goto])

/-- In every run in which no `read` returns end of file every process keeps to its role;
and a child whose `read` does return it leaves its role with its next call. -/
theorem roles_until_eof (s : State) :
    ((system.under noEof).Reachable s → s.All RolesOk) ∧
      (system.Reachable s → ∀ (p c : ℕ) (P : Proc), s.procs[p]? = some P → P.pc = .read c →
        P.handler = none → ∀ r, ∃ t, system.run s [.main p 0, .main p r] = some t ∧ ¬ t.All RolesOk ∧
          ∃ Q, t.procs[p]? = some Q ∧ Q.pc = .exited .failure) :=
  ⟨fun h p P hP => (kept_reachable h p P hP).rolesOk,
    fun h _ _ _ hP hpc hh r => eof_accepts h hP hpc hh r⟩

/-- One client, whose bytes are echoed once before its connection breaks. -/
def echoOnce : List Action :=
  [.connect, .main 0 0, .main 0 0, .main 1 0, .main 1 5, .main 1 5, .main 1 (-1)]

theorem roles_until_eof_once :
    ∃ s, (system.under noEof).Reachable s ∧ (s.procs[1]?.any fun P => .serve 0 ∈ P.events) = true ∧
      s.All RolesOk := by
  have hr : (system.under noEof).Reachable (((system.under noEof).run start echoOnce).get (by decide)) :=
    System.reachable_of_isSome rfl echoOnce (by decide)
  exact ⟨_, hr, by decide, (roles_until_eof _).1 hr⟩

/-- One client that closes at once. -/
def closeAtOnce : List Action :=
  [.connect, .main 0 0, .main 0 0, .main 1 0, .main 1 0, .main 1 0]

theorem child_accepts : ¬ ∀ s, system.Reachable s → s.All RolesOk := by
  intro hall
  have hr : system.Reachable ((system.run start closeAtOnce).get (by decide)) :=
    System.reachable_of_isSome rfl closeAtOnce (by decide)
  exact absurd ((hall _ hr 1 _ rfl).original (by decide)).1 (by decide)

end LinuxApi.EchoServer
