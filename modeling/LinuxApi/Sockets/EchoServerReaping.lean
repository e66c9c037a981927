import LinuxApi.Sockets.EchoServer

/-! The echo server leaves no zombie. A child's end makes SIGCHLD pending in its parent,
and `signal_handler` takes the pending bit before it reaps and leaves only when
`waitpid` has nothing to return, so a zombie is always covered by one of the two. -/

namespace LinuxApi.EchoServer

/-- SIGCHLD is pending, or the handler will call `waitpid` again, or the process has
terminated itself. -/
def Proc.Watching (Q : Proc) : Prop := Q.pending = true ∨ Q.handler = some .wait ∨ Q.live = false

/-- Every process with a zombie is watching, save process `r`. -/
def CoveredBut (r : Option ℕ) (s : State) : Prop :=
  s.All fun q Q => s.zombie q = true → Q.Watching ∨ r = some q

/-- A parent is older than its children. -/
def Younger (k : ℕ) (K : Proc) : Prop := ∀ q, K.parent = some q → q < k

theorem Proc.zombieOf_iff {q : ℕ} {K : Proc} :
    K.zombieOf q = true ↔ K.parent = some q ∧ K.live = false ∧ K.reaped = false := by
  simp [Proc.zombieOf]

theorem State.zombie_iff {s : State} {q : ℕ} :
    s.zombie q = true ↔ ∃ (k : ℕ) (K : Proc), s.procs[k]? = some K ∧ K.zombieOf q = true := by
  rw [State.zombie, List.any_eq_true]
  constructor
  · rintro ⟨K, hK, hz⟩
    obtain ⟨k, hk⟩ := List.mem_iff_getElem?.mp hK
    exact ⟨k, K, hk, hz⟩
  · rintro ⟨k, K, hk, hz⟩
    exact ⟨K, List.mem_of_getElem? hk, hz⟩

/-- A change of one process makes no zombies but its own. -/
theorem zombie_modify {s : State} {p q : ℕ} {f : Proc → Proc} (hz : (s.modify p f).zombie q = true) :
    s.zombie q = true ∨ ∃ P, s.procs[p]? = some P ∧ (f P).zombieOf q = true := by
  obtain ⟨k, K, hk, hK⟩ := State.zombie_iff.mp hz
  have hall : (s.modify p f).All fun _ K => K.zombieOf q = true →
      s.zombie q = true ∨ ∃ P, s.procs[p]? = some P ∧ (f P).zombieOf q = true := by
    refine forall_getElem?_modify (fun k K hk hK => ?_) fun P hP hK => .inr ⟨P, hP, hK⟩
    exact .inl (State.zombie_iff.mpr ⟨k, K, hk, hK⟩)
  exact hall k K hk hK

/-- Process `p` changes, makes at most a zombie of parent `r`, and goes on watching if
it has zombies. -/
theorem CoveredBut.modify {s : State} (h : CoveredBut none s) {r : Option ℕ} {p : ℕ} {P : Proc}
    {f : Proc → Proc} (hP : s.procs[p]? = some P)
    (hz : ∀ q, (f P).zombieOf q = true → P.zombieOf q = true ∨ r = some q)
    (hw : s.zombie p = true → P.Watching → (f P).Watching) : CoveredBut r (s.modify p f) := by
  have hnew : ∀ q, (s.modify p f).zombie q = true → s.zombie q = true ∨ r = some q := by
    intro q hq
    rcases zombie_modify hq with hq | ⟨R, hR, hq⟩
    · exact .inl hq
    · obtain rfl := Option.some.inj (hP.symm.trans hR)
      exact (hz q hq).imp_left fun hq => State.zombie_iff.mpr ⟨p, P, hP, hq⟩
  have hold : s.All fun q Q => (s.modify p f).zombie q = true → Q.Watching ∨ r = some q :=
    fun q Q hQ hq => (hnew q hq).imp_left fun hq => (h q Q hQ hq).resolve_right nofun
  exact hold.modify hP fun hq => (hnew p hq).imp_left fun hq =>
    hw hq ((h p P hP hq).resolve_right nofun)

theorem CoveredBut.mono {s : State} {r : Option ℕ} (h : CoveredBut none s) : CoveredBut r s :=
  fun q Q hQ hq => .inl ((h q Q hQ hq).resolve_right nofun)

/-- The SIGCHLD a process is sent for its zombie covers it. -/
theorem CoveredBut.raise {s : State} {r : Option ℕ} (h : CoveredBut r s) :
    CoveredBut none (s.raise r) := by
  cases r with
  | none => exact h
  | some r =>
    intro q Q hQ hq
    rw [State.raise, State.modify, List.getElem?_modify, Option.map_eq_map, Option.map_eq_some_iff] at hQ
    obtain ⟨R, hR, rfl⟩ := hQ
    by_cases hrq : r = q
    · rw [if_pos hrq]
      exact .inl (.inl rfl)
    · rw [if_neg hrq]
      refine .inl ((h q R hR ?_).resolve_right (by simpa using hrq))
      rcases zombie_modify hq with hq | ⟨P, hP, hq⟩
      · exact hq
      · exact State.zombie_iff.mpr ⟨r, P, hP, hq⟩

/-- A live process goes on. -/
theorem covered_live {s : State} (h : CoveredBut none s) {p : ℕ} {P : Proc} {f : Proc → Proc}
    (hP : s.procs[p]? = some P) (hlive : P.live = true) (hf : (f P).live = true)
    (hpend : (f P).pending = P.pending) (hhand : (f P).handler = P.handler) :
    CoveredBut none (s.modify p f) := by
  refine h.modify hP (fun q hq => ?_) fun _ hw => ?_
  · simp [Proc.zombieOf_iff, hf] at hq
  · simpa [Proc.Watching, hpend, hhand, hlive, hf] using hw

theorem covered_exit {s : State} (h : CoveredBut none s) {p : ℕ} {P : Proc} (hP : s.procs[p]? = some P)
    (es : List Event) (st : Status) : CoveredBut none (s.exit p P es st) := by
  refine CoveredBut.raise (h.modify hP (fun q hq => ?_) fun _ _ => .inr (.inr rfl))
  exact .inr (Proc.zombieOf_iff.mp hq).1

/-- A new process has no zombies and is none. -/
theorem covered_add {s : State} (h : CoveredBut none s) (hy : s.All Younger) {K : Proc}
    (hK : K.live = true) : CoveredBut none (s.add K) := by
  have hold : ∀ q, (s.add K).zombie q = true → s.zombie q = true := by
    intro q hq
    rw [State.zombie, State.add, List.any_append, Bool.or_eq_true] at hq
    exact hq.resolve_right (by simp [Proc.zombieOf, hK])
  refine State.All.add (fun q Q hQ hq => h q Q hQ (hold q hq)) fun hq => ?_
  obtain ⟨k, J, hJ, hz⟩ := State.zombie_iff.mp (hold _ hq)
  have hlt := hy k J hJ _ (Proc.zombieOf_iff.mp hz).1
  have hk := (List.getElem?_eq_some_iff.mp hJ).choose
  omega

/-! ### Every step -/

theorem GoesOn.live {P : Proc} {r : ℤ} {es : List Event} {pc : Pc} (h : GoesOn P r es pc) :
    P.live = true ∧ (P.goto es pc).live = true := by
  cases h <;> simp [Proc.live, Proc.goto, *]

theorem younger_unsignalled : Unsignalled Younger := fun _ _ _ _ _ h => h

theorem younger_main {s t : State} {p : ℕ} {P : Proc} {r : ℤ} (h : s.All Younger)
    (hP : s.procs[p]? = some P) (hst : mainStep s p P r = some t) : t.All Younger := by
  have hy := h p P hP
  refine h.main younger_unsignalled hP hst (fun _ _ _ => hy) (fun c _ q hq => ?_) (fun _ _ => hy)
    fun _ _ => hy
  obtain rfl : p = q := Option.some.inj hq
  exact (List.getElem?_eq_some_iff.mp hP).choose

theorem covered_main {s t : State} {p : ℕ} {P : Proc} {r : ℤ} (h : CoveredBut none s)
    (hy : s.All Younger) (hP : s.procs[p]? = some P) (hst : mainStep s p P r = some t) :
    CoveredBut none t := by
  rcases mainStep_cases hst with ⟨n, es, pc, hn, rfl⟩ | ⟨c, hpc, rfl⟩ | ⟨c, hpc, rfl⟩ | ⟨es, hes, rfl⟩
  · exact covered_live (s := { s with accepted := n }) h hP hn.live.1 hn.live.2 rfl rfl
  · have hl : P.live = true := by simp [Proc.live, hpc]
    have hparent : (s.modify p (·.goto [.fork] (.closeClient c))).All Younger :=
      hy.modify hP (hy p P hP)
    exact covered_add (covered_live h hP hl rfl rfl rfl) hparent rfl
  · have hl : P.live = true := by simp [Proc.live, hpc]
    exact covered_live h hP hl rfl rfl rfl
  · exact covered_exit h hP _ _

/-- The handler reaps a zombie, or leaves when there is none. -/
theorem covered_handler {s t : State} {q : ℕ} {Q : Proc} {pid : Option ℕ} (h : CoveredBut none s)
    (hQ : s.procs[q]? = some Q) (hst : handlerStep s q Q pid = some t) : CoveredBut none t := by
  unfold handlerStep at hst
  split at hst
  case h_1 k hh hpid =>
    simp only [Option.ite_none_right_eq_some, Option.some.injEq, Option.any_eq_true] at hst
    obtain ⟨⟨K, hK, -⟩, rfl⟩ := hst
    refine h.modify hK (fun q hq => ?_) fun _ hw => hw
    simp [Proc.zombieOf] at hq
  case h_2 hh hpid =>
    simp only [Option.ite_none_left_eq_some, Option.some.injEq] at hst
    obtain ⟨hz, rfl⟩ := hst
    exact h.modify hQ (fun q hq => .inl hq) fun hq => absurd hq hz
  case h_3 hh =>
    simp only [Option.some.injEq] at hst
    subst hst
    refine h.modify hQ (fun q hq => .inl hq) fun _ hw => ?_
    rcases hw with hw | hw | hw
    · exact .inl hw
    · rw [hh] at hw
      contradiction
    · exact .inr (.inr hw)
  case h_4 => simp at hst

theorem covered_step {s t : State} {a : Action} (h : CoveredBut none s) (hy : s.All Younger)
    (hst : system.step s a = some t) : CoveredBut none t := by
  cases a with
  | connect =>
    simp only [system, Option.some.injEq] at hst
    subst hst
    exact h
  | main p r =>
    simp only [system, Option.bind_eq_some_iff, Option.ite_none_right_eq_some] at hst
    obtain ⟨P, hP, -, hst⟩ := hst
    exact covered_main h hy hP hst
  | deliver q =>
    simp only [system, Option.bind_eq_some_iff, Option.ite_none_right_eq_some, Option.some.injEq] at hst
    obtain ⟨Q, hQ, -, rfl⟩ := hst
    exact h.modify hQ (fun q hq => .inl hq) fun _ _ => .inr (.inl rfl)
  | handler q pid =>
    simp only [system, Option.bind_eq_some_iff] at hst
    obtain ⟨Q, hQ, hst⟩ := hst
    exact covered_handler h hQ hst
  | kill p =>
    simp only [system, Option.bind_eq_some_iff, Option.ite_none_right_eq_some, Option.some.injEq] at hst
    obtain ⟨P, hP, -, rfl⟩ := hst
    exact covered_exit h hP _ _
  | extra q =>
    simp only [system, Option.some.injEq] at hst
    subst hst
    exact CoveredBut.raise (r := some q) h.mono

theorem covered_reachable {s : State} (h : system.Reachable s) : CoveredBut none s := by
  refine (h.invariant (I := fun s => CoveredBut none s ∧ s.All Younger) ?_ ?_).1
  · rintro s rfl
    exact ⟨State.All.start fun hz => absurd hz (by decide), State.All.start nofun⟩
  · rintro s a t ⟨hc, hy⟩ hst
    refine ⟨covered_step hc hy hst, hy.step younger_unsignalled hst ?_ fun p P hP => hP⟩
    rintro p P r - hP hst
    exact younger_main hy hP hst

/-- Whatever the order of forks, terminations and handler runs: a live process with no
SIGCHLD pending and no handler running, the original one among them, has no zombie. -/
theorem no_zombie_unsignalled {s : State} (h : system.Reachable s) {q : ℕ} {Q : Proc}
    (hQ : s.procs[q]? = some Q) (hlive : Q.live = true) (hpend : Q.pending = false)
    (hhand : Q.handler = none) {k : ℕ} {K : Proc} (hK : s.procs[k]? = some K)
    (hparent : K.parent = some q) (hdead : K.live = false) : K.reaped = true := by
  by_contra hr
  have hz : s.zombie q = true := State.zombie_iff.mpr
    ⟨k, K, hK, Proc.zombieOf_iff.mpr ⟨hparent, hdead, Bool.eq_false_iff.mpr hr⟩⟩
  rcases (covered_reachable h q Q hQ hz).resolve_right nofun with hw | hw | hw
  · simp [hpend] at hw
  · simp [hhand] at hw
  · simp [hlive] at hw

/-- Two clients whose children end in one handler run of the original process. -/
def reapTwo : List Action :=
  [.connect, .main 0 0, .main 0 0, .main 0 0, .connect, .main 0 0, .main 0 0, .main 0 0,
    .kill 1, .main 2 0, .main 2 (-1), .deliver 0, .handler 0 (some 2), .handler 0 (some 1),
    .handler 0 none, .handler 0 none]

theorem no_zombie_unsignalled_two :
    ∃ s, system.Reachable s ∧ ∃ K ∈ s.procs, K.parent = some 0 ∧ K.live = false ∧ K.reaped = true := by
  have hr : system.Reachable ((system.run start reapTwo).get (by decide)) :=
    System.reachable_of_isSome rfl reapTwo (by decide)
  refine ⟨_, hr, _, List.mem_of_getElem? (i := 1) rfl, rfl, rfl, ?_⟩
  exact no_zombie_unsignalled hr (q := 0) (k := 1) rfl rfl rfl rfl rfl rfl rfl

end LinuxApi.EchoServer
