import LinuxApi.SystemV.SemaphoreStartup
import LinuxApi.Transition.History

/-! The test of `ds.sem_otime` that both branches of `ipc_systemv_sem` come to. The second branch has
filled `ds` by then; the creator never writes it, and passes on what was there before. -/

namespace LinuxApi.SemaphoreStartup

/-- What a process has done: the `SETVAL` to 2, the second `semget`, and an `IPC_STAT` with what it
saw of `sem_otime`. -/
inductive Note where
  | initialized
  | found
  | polled (otime : Bool)
  deriving DecidableEq

/-- The notes of one system call. -/
def notes (set : Option SemSet) (p : Proc) (ok : Bool) : List Note :=
  match p.pc, ok with
  | .setTwo, true => [.initialized]
  | .lookup, true => if set.isSome then [.found] else []
  | .poll _, true => [.polled (set.any SemSet.otime)]
  | _, _ => []

/-- `fatal("Semaphore not initialized yet.")` -/
def notInitialized : String := "Semaphore not initialized yet."

/-- At the `-1` semop or past it. -/
def Proc.atSemop (p : Proc) : Prop :=
  p.pc = .acquire ∨ p.pc = .inside ∨ p.pc = .returned ∨ p.pc = .exited "semop()"

variable {P : Type*} [DecidableEq P]

def emit (s : State P) : Action P → List (P × Note)
  | .call i ok => (notes s.set (s.proc i) ok).map fun e => (i, e)
  | .kill _ => []

/-- The processes with the notes of all. -/
abbrev recorded (P : Type*) [DecidableEq P] : System (State P × List (P × Note)) (Action P) :=
  (system P).recorded emit

/-- `n` calls of its own, whatever they return, bring the process to the `-1` semop. -/
def Arrives (n : ℕ) (s : State P) (i : P) : Prop :=
  ∀ oks : List Bool, oks.length = n →
    ∃ t, (system P).run s (oks.map fun ok => .call i ok) = some t ∧ (t.proc i).atSemop

/-- A process that has initialised the set goes on to the `-1` semop unless it dies, with two calls at
most, and the fatal exit is for one that found the set and saw zero at every poll. -/
structure Recognized (s : State P) (h : List (P × Note)) : Prop where
  creator : ∀ i, .initialized ∈ eventsOf i h → (s.proc i).pc = .killed ∨ ∃ n ≤ 2, Arrives n s i
  fatal : ∀ i, (s.proc i).pc = .exited notInitialized →
    eventsOf i h = .found :: .replicate maxTries (.polled false)

/-! ### What the notes say about a process -/

/-- By its place. Of a creator `ds.sem_otime` is not zero, which nothing writes before the test. -/
def Known (set : Option SemSet) (p : Proc) (l : List Note) : Prop :=
  match p.pc with
  | .semget => l = [] ∧ (set = none → p.dsOtime = true)
  | .setZero | .touch | .setTwo => l = [] ∧ p.dsOtime = true ∧ set.isSome
  | .lookup => l = []
  | .poll j => j < maxTries ∧ l = .found :: .replicate j (.polled false) ∧ set.isSome
  | .test => set.isSome ∧ (p.dsOtime = false → l = .found :: .replicate maxTries (.polled false))
  | .getval => set.isSome
  | .exited msg => (.initialized ∈ l → msg = "semop()") ∧
    (msg = notInitialized → l = .found :: .replicate maxTries (.polled false))
  | .acquire | .inside | .returned | .killed => True

/-- It is kept while the set stays. -/
theorem Known.mono {set new : Option SemSet} {p : Proc} {l : List Note} (h : Known set p l)
    (hset : set.isSome → new.isSome) : Known new p l := by
  cases hpc : p.pc with
  | semget =>
    simp only [Known, hpc] at h ⊢
    refine ⟨h.1, fun hnew => h.2 ?_⟩
    by_contra hne
    have hsome := hset (Option.isSome_iff_ne_none.mpr hne)
    simp [hnew] at hsome
  | setZero | touch | setTwo | poll =>
    simp only [Known, hpc] at h ⊢
    exact ⟨h.1, h.2.1, hset h.2.2⟩
  | test =>
    simp only [Known, hpc] at h ⊢
    exact ⟨hset h.1, h.2⟩
  | getval =>
    simp only [Known, hpc] at h ⊢
    exact hset h
  | lookup | exited =>
    simp only [Known, hpc] at h ⊢
    exact h
  | acquire | inside | returned | killed => simp only [Known, hpc]

/-- No call removes the set. -/
theorem procStep_isSome {set : Option SemSet} {p : Proc} {ok : Bool} {r : Option SemSet × Proc}
    (h : procStep set p ok = some r) (hset : set.isSome) : r.1.isSome := by
  obtain ⟨S, rfl⟩ := Option.isSome_iff_exists.mp hset
  cases hpc : p.pc with
  | semget | test =>
    simp only [procStep, hpc, Option.some.injEq] at h
    exact h ▸ rfl
  | setZero | setTwo | lookup | poll =>
    simp only [procStep, hpc, Option.map_some] at h
    split_ifs at h <;> exact Option.some.inj h ▸ rfl
  | getval =>
    simp only [procStep, hpc, Option.map_some, Option.some.injEq] at h
    exact h ▸ rfl
  | touch | acquire =>
    simp only [procStep, hpc, Option.bind_some] at h
    split_ifs at h
    · obtain ⟨T, -, rfl⟩ := Option.map_eq_some_iff.mp h
      rfl
    · exact Option.some.inj h ▸ rfl
  | inside =>
    simp only [procStep, hpc, Option.bind_some] at h
    obtain ⟨T, -, rfl⟩ := Option.map_eq_some_iff.mp h
    rfl
  | returned | exited | killed => simp [procStep, hpc] at h

/-- Only the last poll goes on with `sem_otime` zero, and then every poll has seen it. -/
theorem known_poll {S : SemSet} {p : Proc} {j : ℕ} {l : List Note} (hj : j < maxTries)
    (hl : l = .found :: .replicate j (.polled false)) :
    Known (some S) ⟨if S.otime ∨ maxTries ≤ j + 1 then .test else .poll (j + 1), S.otime, p.semval⟩
      (l ++ [.polled S.otime]) := by
  cases hseen : S.otime with
  | true => simp [Known]
  | false =>
    have hnext : l ++ [.polled false] = .found :: .replicate (j + 1) (.polled false) := by
      rw [hl, List.cons_append, List.replicate_succ']
    by_cases hlast : maxTries ≤ j + 1
    · have htries : maxTries = j + 1 := by omega
      simp [Known, hnext, htries]
    · simp [Known, hlast, hnext]
      omega

/-- An `errExit` before the initialisation is complete. -/
theorem known_errExit {set : Option SemSet} {p : Proc} {msg : String} {l : List Note}
    (hl : .initialized ∉ l) (hmsg : msg ≠ notInitialized) : Known set (p.goto (.exited msg)) l :=
  ⟨fun hinit => absurd hinit hl, fun hfatal => absurd hfatal hmsg⟩

/-- The three calls of a creator. -/
theorem known_of_creator {set : Option SemSet} {p : Proc} {ok : Bool} {r : Option SemSet × Proc}
    (hds : p.dsOtime = true) (hset : set.isSome) (h : procStep set p ok = some r)
    (hpc : p.pc = .setZero ∨ p.pc = .touch ∨ p.pc = .setTwo) : Known r.1 r.2 (notes set p ok) := by
  rcases hpc with hpc | hpc | hpc
  · have hnotes : notes set p ok = [] := by simp [notes, hpc]
    simp only [procStep, hpc] at h
    rw [hnotes]
    split_ifs at h
    · cases h
      simpa [Known, Proc.goto, hds] using hset
    · cases h
      exact known_errExit (by simp) (by decide)
  · have hnotes : notes set p ok = [] := by simp [notes, hpc]
    simp only [procStep, hpc] at h
    rw [hnotes]
    split_ifs at h
    · obtain ⟨S, -, h⟩ := Option.bind_eq_some_iff.mp h
      obtain ⟨T, -, rfl⟩ := Option.map_eq_some_iff.mp h
      simp [Known, Proc.goto, hds]
    · cases h
      exact known_errExit (by simp) (by decide)
  · simp only [procStep, hpc] at h
    split_ifs at h with hok
    · cases h
      simpa [Known, Proc.goto, hds] using hset
    · cases h
      have hnotes : notes set p ok = [] := by simp [notes, hpc, hok]
      rw [hnotes]
      exact known_errExit (by simp) (by decide)

/-- The second `semget`. -/
theorem known_of_lookup {set : Option SemSet} {p : Proc} {ok : Bool} {r : Option SemSet × Proc}
    (h : procStep set p ok = some r) (hpc : p.pc = .lookup) : Known r.1 r.2 (notes set p ok) := by
  simp only [procStep, hpc] at h
  split_ifs at h with hfound
  · cases h
    simp [Known, Proc.goto, notes, hpc, hfound.1, hfound.2, maxTries]
  · cases h
    have hnotes : notes set p ok = [] := by
      cases ok <;> simp_all [notes]
    rw [hnotes]
    exact known_errExit (by simp) (by decide)

/-- An `IPC_STAT` of the loop. -/
theorem known_of_poll {set : Option SemSet} {p : Proc} {ok : Bool} {r : Option SemSet × Proc}
    {j : ℕ} {l : List Note} (hj : j < maxTries) (hl : l = .found :: .replicate j (.polled false))
    (h : procStep set p ok = some r) (hpc : p.pc = .poll j) :
    Known r.1 r.2 (l ++ notes set p ok) := by
  simp only [procStep, hpc] at h
  split_ifs at h with hok
  · obtain ⟨S, rfl, rfl⟩ := Option.map_eq_some_iff.mp h
    simpa [notes, hpc, hok] using known_poll hj hl
  · cases h
    have hnotes : notes set p ok = [] := by simp [notes, hpc, hok]
    rw [hnotes, List.append_nil]
    refine known_errExit ?_ (by decide)
    rw [hl]
    simp

theorem Known.step {set : Option SemSet} {p : Proc} {ok : Bool} {r : Option SemSet × Proc}
    {l : List Note} (hk : Known set p l) (h : procStep set p ok = some r) :
    Known r.1 r.2 (l ++ notes set p ok) := by
  cases hpc : p.pc with
  | semget =>
    simp only [Known, hpc] at hk
    obtain ⟨rfl, hds⟩ := hk
    simp only [procStep, hpc] at h
    split at h
    · cases h
      simp [Known, Proc.goto, notes, hpc, hds]
    · cases h
      simp [Known, Proc.goto, notes, hpc]
  | setZero | touch | setTwo =>
    simp only [Known, hpc] at hk
    obtain ⟨rfl, hds, hset⟩ := hk
    exact known_of_creator hds hset h (by simp [hpc])
  | lookup =>
    simp only [Known, hpc] at hk
    subst hk
    exact known_of_lookup h hpc
  | poll j =>
    simp only [Known, hpc] at hk
    exact known_of_poll hk.1 hk.2.1 h hpc
  | test =>
    simp only [Known, hpc] at hk
    obtain ⟨hset, hzero⟩ := hk
    simp only [procStep, hpc] at h
    cases h
    have hnotes : notes set p ok = [] := by simp [notes, hpc]
    rw [hnotes, List.append_nil]
    cases hds : p.dsOtime with
    | true => simpa [Known, Proc.goto, hds] using hset
    | false =>
      have hl := hzero hds
      simp [Known, Proc.goto, hl]
  | getval =>
    simp only [procStep, hpc] at h
    obtain ⟨S, -, rfl⟩ := Option.map_eq_some_iff.mp h
    trivial
  | acquire =>
    simp only [procStep, hpc] at h
    split_ifs at h
    · obtain ⟨S, -, h⟩ := Option.bind_eq_some_iff.mp h
      obtain ⟨T, -, rfl⟩ := Option.map_eq_some_iff.mp h
      trivial
    · cases h
      exact ⟨fun _ => rfl, fun hfatal => absurd hfatal (by decide)⟩
  | inside =>
    simp only [procStep, hpc] at h
    obtain ⟨S, -, h⟩ := Option.bind_eq_some_iff.mp h
    obtain ⟨T, -, rfl⟩ := Option.map_eq_some_iff.mp h
    trivial
  | returned | exited | killed => simp [procStep, hpc] at h

/-! ### Runs -/

/-- A call moves its process and what it does to the set is seen by all. -/
theorem step_call {s : State P} {i : P} {ok : Bool} {r : Option SemSet × Proc}
    (h : procStep s.set (s.proc i) ok = some r) :
    ∃ t, (system P).step s (.call i ok) = some t ∧ t.set = r.1 ∧ t.proc = Function.update s.proc i r.2 := by
  refine ⟨_, Option.map_eq_some_iff.mpr ⟨r, h, rfl⟩, rfl, rfl⟩

theorem known_step {s t : State P} {h later : List (P × Note)} {a : Action P}
    (hk : ∀ i, Known s.set (s.proc i) (eventsOf i h))
    (hst : (recorded P).step (s, h) a = some (t, later)) :
    ∀ i, Known t.set (t.proc i) (eventsOf i later) := by
  obtain ⟨hst, hlater⟩ := System.recorded_step_eq_some.mp hst
  obtain rfl : later = h ++ emit s a := hlater
  intro j
  rw [eventsOf_append]
  cases a with
  | call i ok =>
    obtain ⟨r, hr, rfl⟩ := Option.map_eq_some_iff.mp hst
    rw [emit, eventsOf_map]
    by_cases hji : i = j
    · subst hji
      rw [if_pos rfl]
      show Known r.1 (Function.update s.proc i r.2 i) _
      rw [Function.update_self]
      exact (hk i).step hr
    · rw [if_neg hji, List.append_nil]
      show Known r.1 (Function.update s.proc i r.2 j) _
      rw [Function.update_of_ne (Ne.symm hji)]
      exact (hk j).mono (procStep_isSome hr)
  | kill i =>
    obtain ⟨-, hst⟩ := Option.ite_none_left_eq_some.mp hst
    obtain rfl := Option.some.inj hst
    have hnil : eventsOf j (emit s (.kill i)) = [] := rfl
    rw [hnil, List.append_nil]
    have hkilled : Known s.set ((s.proc i).goto .killed) (eventsOf i h) := trivial
    exact (Function.forall_update_iff s.proc fun j p => Known s.set p (eventsOf j h)).mpr
      ⟨hkilled, fun j _ => hk j⟩ j

theorem arrives_zero {s : State P} {i : P} (h : (s.proc i).atSemop) : Arrives 0 s i := by
  intro oks hoks
  rw [List.eq_nil_of_length_eq_zero hoks]
  exact ⟨s, rfl, h⟩

theorem arrives_succ {n : ℕ} {s : State P} {i : P}
    (h : ∀ ok, ∃ t, (system P).step s (.call i ok) = some t ∧ Arrives n t i) :
    Arrives (n + 1) s i := by
  intro oks hoks
  obtain ⟨ok, oks, rfl⟩ := List.exists_cons_of_length_eq_add_one hoks
  obtain ⟨t, ht, hrest⟩ := h ok
  obtain ⟨u, hu, hat⟩ := hrest oks (Nat.succ.inj hoks)
  refine ⟨u, ?_, hat⟩
  rw [List.map_cons, System.run_cons, ht]
  exact hu

theorem procStep_getval {S : SemSet} {p : Proc} (hpc : p.pc = .getval) (ok : Bool) :
    procStep (some S) p ok =
      some (some S, ⟨.acquire, p.dsOtime, if ok then S.semval 0 else -1⟩) := by
  simp [procStep, hpc]

theorem procStep_test (set : Option SemSet) {p : Proc} (hpc : p.pc = .test) (ok : Bool) :
    procStep set p ok = some (set, p.goto (if p.dsOtime then .getval else .exited notInitialized)) := by
  simp [procStep, hpc, notInitialized]

theorem arrives_getval {s : State P} {i : P} (hpc : (s.proc i).pc = .getval)
    (hset : s.set.isSome) : Arrives 1 s i := by
  obtain ⟨S, hS⟩ := Option.isSome_iff_exists.mp hset
  refine arrives_succ fun ok => ?_
  have hcall := procStep_getval (S := S) hpc ok
  rw [← hS] at hcall
  obtain ⟨t, ht, -, hproc⟩ := step_call hcall
  refine ⟨t, ht, arrives_zero (.inl ?_)⟩
  rw [hproc, Function.update_self]

/-- With a time in `ds` the test goes well. -/
theorem arrives_test {s : State P} {i : P} (hpc : (s.proc i).pc = .test)
    (hds : (s.proc i).dsOtime = true) (hset : s.set.isSome) : Arrives 2 s i := by
  refine arrives_succ fun ok => ?_
  obtain ⟨t, ht, hkeep, hproc⟩ := step_call (procStep_test s.set hpc ok)
  refine ⟨t, ht, arrives_getval ?_ (by rw [hkeep]; exact hset)⟩
  rw [hproc, Function.update_self, hds]
  rfl

theorem recognized_of_known {s : State P} {h : List (P × Note)}
    (hk : ∀ i, Known s.set (s.proc i) (eventsOf i h)) : Recognized s h where
  creator i hinit := by
    have hk := hk i
    cases hpc : (s.proc i).pc with
    | semget | setZero | touch | setTwo =>
      simp only [Known, hpc] at hk
      simp [hk.1] at hinit
    | lookup =>
      simp only [Known, hpc] at hk
      simp [hk] at hinit
    | poll j =>
      simp only [Known, hpc] at hk
      simp [hk.2.1] at hinit
    | test =>
      simp only [Known, hpc] at hk
      obtain ⟨hset, hzero⟩ := hk
      cases hds : (s.proc i).dsOtime with
      | true => exact .inr ⟨2, by omega, arrives_test hpc hds hset⟩
      | false => simp [hzero hds] at hinit
    | getval =>
      simp only [Known, hpc] at hk
      exact .inr ⟨1, by omega, arrives_getval hpc hk⟩
    | acquire | inside | returned =>
      exact .inr ⟨0, by omega, arrives_zero (by simp [Proc.atSemop, hpc])⟩
    | exited msg =>
      simp only [Known, hpc] at hk
      exact .inr ⟨0, by omega, arrives_zero (by simp [Proc.atSemop, hpc, hk.1 hinit])⟩
    | killed => exact .inl rfl
  fatal i hpc := by
    have hk := hk i
    simp only [Known, hpc] at hk
    exact hk.2 trivial

/-! ### The creator with a zero in `ds` -/

/-- The calls of one process while the others rest, with its notes. -/
def ownRun : Option SemSet → Proc → List Bool → Option (Proc × List Note)
  | _, p, [] => some (p, [])
  | set, p, ok :: oks => (procStep set p ok).bind fun r =>
      (ownRun r.1 r.2 oks).map fun q => (q.1, notes set p ok ++ q.2)

/-- They are a run of the system. -/
theorem run_own {s : State P} {i : P} {l : List (P × Note)} {oks : List Bool} {q : Proc}
    {own : List Note} (h : ownRun s.set (s.proc i) oks = some (q, own)) :
    ∃ t later, (recorded P).run (s, l) (oks.map fun ok => .call i ok) = some (t, later) ∧
      t.proc i = q ∧ eventsOf i later = eventsOf i l ++ own := by
  induction oks generalizing s l own with
  | nil =>
    cases h
    exact ⟨s, l, rfl, rfl, (List.append_nil _).symm⟩
  | cons ok oks ih =>
    obtain ⟨r, hr, h⟩ := Option.bind_eq_some_iff.mp h
    obtain ⟨⟨q, rest⟩, hrest, hown⟩ := Option.map_eq_some_iff.mp h
    cases hown
    obtain ⟨u, hu, hset, hproc⟩ := step_call hr
    have hstep : (recorded P).step (s, l) (.call i ok) = some (u, l ++ emit s (.call i ok)) :=
      System.recorded_step_eq_some.mpr ⟨hu, rfl⟩
    have hrest : ownRun u.set (u.proc i) oks = some (q, rest) := by
      rw [hset, hproc, Function.update_self, hrest]
    obtain ⟨t, later, hrun, hq, hevents⟩ := ih (l := l ++ emit s (.call i ok)) hrest
    refine ⟨t, later, ?_, hq, ?_⟩
    · rw [List.map_cons, System.run_cons, hstep]
      exact hrun
    · rw [hevents, eventsOf_append, emit, eventsOf_map, if_pos rfl, List.append_assoc]

/-- It creates the set, initialises it and takes it for uninitialised. -/
theorem creator_exits {s : State P} {i : P} (hpc : (s.proc i).pc = .semget) (hset : s.set = none)
    (hds : (s.proc i).dsOtime = false) :
    ∃ as t h, (recorded P).run (s, []) as = some (t, h) ∧
      (t.proc i).pc = .exited notInitialized ∧ eventsOf i h = [.initialized] := by
  have hproc : s.proc i = ⟨.semget, false, (s.proc i).semval⟩ := by
    rw [← hpc, ← hds]
  have hown : ownRun s.set (s.proc i) (List.replicate 5 true) =
      some (⟨.exited notInitialized, false, (s.proc i).semval⟩, [.initialized]) := by
    rw [hproc, hset]
    rfl
  obtain ⟨t, h, hrun, hq, hevents⟩ := run_own (l := []) hown
  refine ⟨_, t, h, hrun, ?_, hevents⟩
  rw [hq]

/-- Whatever the interleaving, every creator goes on and the fatal exit is only for a process that
has seen zero at every poll, exactly if there is a set from the start or no `ds` holds a zero there. -/
theorem creator_recognized_iff {s : State P} (hs : ∀ i, (s.proc i).pc = .semget) :
    (∀ as t h, (recorded P).run (s, []) as = some (t, h) → Recognized t h) ↔
      s.set ≠ none ∨ ∀ i, (s.proc i).dsOtime = true := by
  constructor
  · intro hall
    by_contra hno
    simp only [not_or, not_not, not_forall] at hno
    obtain ⟨hset, i, hds⟩ := hno
    obtain ⟨as, t, h, hrun, hpc, hnotes⟩ := creator_exits (hs i) hset (Bool.eq_false_iff.mpr hds)
    have hfatal := (hall as t h hrun).fatal i hpc
    rw [hnotes] at hfatal
    simp at hfatal
  · intro hcond as t h hrun
    have hstart : ∀ i, Known s.set (s.proc i) (eventsOf i []) := by
      intro i
      rw [Known, hs i]
      exact ⟨rfl, fun hset => hcond.resolve_left (fun hne => hne hset) i⟩
    refine recognized_of_known (h := h) ?_
    exact System.run_invariant (I := fun x : State P × List (P × Note) =>
      ∀ i, Known x.1.set (x.1.proc i) (eventsOf i x.2)) (fun _ _ _ hk => known_step hk) hstart hrun

/-- The `ds` of either process holds a time. -/
theorem creator_recognized_iff_pair :
    ∃ t h, (recorded (Fin 2)).run (pair, []) enter = some (t, h) ∧ Recognized t h := by
  have hds : ∀ i, (pair.proc i).dsOtime = true := fun _ => rfl
  exact ⟨_, _, rfl, (creator_recognized_iff (s := pair) fun _ => rfl).mpr (.inr hds) enter _ _ rfl⟩

/-- One process with a zero in its `ds`. -/
def aloneZero : State Unit := ⟨none, fun _ => ⟨.semget, false, 0⟩, false⟩

theorem not_recognized_zero : ¬∀ s : State Unit, Start s →
    ∀ as t h, (recorded Unit).run (s, []) as = some (t, h) → Recognized t h := by
  intro hall
  have hstart : Start aloneZero := ⟨fun _ => rfl, fun _ => rfl, rfl⟩
  obtain ⟨as, t, h, hrun, hpc, hnotes⟩ := creator_exits (s := aloneZero) (i := ()) rfl rfl rfl
  have hfatal := (hall aloneZero hstart as t h hrun).fatal () hpc
  rw [hnotes] at hfatal
  simp at hfatal

end LinuxApi.SemaphoreStartup
