import LinuxApi.Pthread.Adders
import LinuxApi.Transition.System

/-! `timer_advanced_thread` in `timer_advanced_thread.c`: every timer expiration runs
`thread_func` in a thread of its own, and the main thread waits on the condition variable,
prints the counter and unlocks the mutex in a loop. It locks the mutex once, before the loop. -/

namespace LinuxApi.TimerAdvanced

/-- Where the main thread is, from `pthread_mutex_lock` on. -/
inductive MainPc where
  | lock | wait | waiting | print | unlock
  deriving DecidableEq

/-- `waits` counts the calls of `pthread_cond_wait`. `calls` records for each of them, and for
each `pthread_mutex_unlock`, whether the main thread held the mutex. -/
structure State where
  shared : Shared
  pc : MainPc
  waits : ℕ
  calls : List Bool
  deriving DecidableEq

/-- A step of the main thread, a timer expiration, a step of `thread_func` whose signal wakes
`r`, and a wake-up without a signal. -/
inductive Action where
  | main
  | expire
  | threadFunc (i : ℕ) (r : Option Thread)
  | wake

/-- The main thread holds the mutex. -/
def State.holds (s : State) : Bool := s.shared.monitor.owner = some .main

def State.setMonitor (s : State) (m : Monitor Thread) : State :=
  { s with shared := { s.shared with monitor := m } }

def mainStep (s : State) : Option State :=
  match s.pc with
  | .lock => (s.shared.monitor.lock .main).map fun m => { s.setMonitor m with pc := .wait }
  | .wait =>
    some { s.setMonitor (s.shared.monitor.wait .main) with
      pc := .waiting, waits := s.waits + 1, calls := s.calls ++ [s.holds] }
  | .waiting => (s.shared.monitor.lock .main).map fun m => { s.setMonitor m with pc := .print }
  | .print => some { s with pc := .unlock }
  | .unlock =>
    some { s.setMonitor s.shared.monitor.unlock with pc := .wait, calls := s.calls ++ [s.holds] }

/-- The program once both timers are set. -/
def system : System State Action where
  init s := s = ⟨.init, .lock, 0, []⟩
  step s
    | .main => mainStep s
    | .expire => some { s with shared := s.shared.create 1 }
    | .threadFunc i r => (s.shared.adderStep i r).map fun shared => { s with shared }
    | .wake => (s.shared.monitor.wake .main).map s.setMonitor

/-- A thread is at `expire_cnt++`, or the main thread at its reading of `expire_cnt`. -/
def State.Inside (s : State) : Thread → Prop
  | .main => s.pc = .print
  | .adder i => ∃ a : Adder, s.shared.adders[i]? = some a ∧ (a.pc = .load ∨ ∃ v, a.pc = .store v)

/-- The mutex discipline of the counter. -/
structure Disciplined (s : State) : Prop where
  held : ∀ b ∈ s.calls, b = true
  alone : ∀ t u, s.Inside t → s.Inside u → t = u
  counted : s.shared.monitor.owner = none → s.shared.counter = s.shared.passed

/-! ### Up to the second wait -/

/-- The main thread is where it holds the mutex, as long as it has not waited twice. -/
def State.locked (s : State) : Bool :=
  match s.pc with
  | .lock | .waiting => false
  | .wait => s.waits = 0
  | .print | .unlock => true

/-- What holds as long as the main thread has not waited twice. -/
structure FirstPass (s : State) : Prop where
  sound : s.shared.Sound
  owner : s.shared.monitor.owner = some .main ↔ s.locked = true
  start : s.pc = .lock → s.waits = 0
  waited : s.pc ≠ .lock → s.pc ≠ .wait → s.waits ≠ 0
  few : s.waits ≤ 1
  added : s.shared.counter = s.shared.added
  held : ∀ b ∈ s.calls, b = true

/-- The main thread has waited twice, and not always with the mutex. -/
structure Broken (s : State) : Prop where
  waits : 1 < s.waits
  call : false ∈ s.calls

variable {s t : State}

theorem FirstPass.lock_step (hi : FirstPass s) (hpc : s.pc = .lock) {m : Monitor Thread}
    (hm : s.shared.monitor.lock .main = some m) : FirstPass { s.setMonitor m with pc := .wait } := by
  obtain ⟨hs, ho, -⟩ := hi.sound.main_locks hm
  refine ⟨hs, ⟨fun _ => ?_, fun _ => ho⟩, nofun, fun _ h => absurd rfl h, hi.few, hi.added, hi.held⟩
  exact decide_eq_true (hi.start hpc)

theorem FirstPass.wait_step (hi : FirstPass s) (hpc : s.pc = .wait) (hw : s.waits = 0) :
    FirstPass { s.setMonitor (s.shared.monitor.wait .main) with
      pc := .waiting, waits := s.waits + 1, calls := s.calls ++ [s.holds] } := by
  have ho : s.shared.monitor.owner = some .main := by
    apply hi.owner.mpr
    rw [State.locked, hpc]
    exact decide_eq_true hw
  refine ⟨hi.sound.main_waits ho, ⟨nofun, nofun⟩, nofun, fun _ _ => Nat.succ_ne_zero _, ?_, hi.added, ?_⟩
  · exact Nat.succ_le_succ hw.le
  · exact List.forall_mem_append.mpr ⟨hi.held, List.forall_mem_singleton.mpr (decide_eq_true ho)⟩

theorem FirstPass.waiting_step (hi : FirstPass s) (hpc : s.pc = .waiting) {m : Monitor Thread}
    (hm : s.shared.monitor.lock .main = some m) : FirstPass { s.setMonitor m with pc := .print } := by
  obtain ⟨hs, ho, -⟩ := hi.sound.main_locks hm
  have hw := hi.waited (by rw [hpc]; nofun) (by rw [hpc]; nofun)
  exact ⟨hs, ⟨fun _ => rfl, fun _ => ho⟩, nofun, fun _ _ => hw, hi.few, hi.added, hi.held⟩

theorem FirstPass.print_step (hi : FirstPass s) (hpc : s.pc = .print) :
    FirstPass { s with pc := .unlock } := by
  have ho : s.shared.monitor.owner = some .main := hi.owner.mpr (by rw [State.locked, hpc])
  have hw := hi.waited (by rw [hpc]; nofun) (by rw [hpc]; nofun)
  exact ⟨hi.sound, ⟨fun _ => rfl, fun _ => ho⟩, nofun, fun _ _ => hw, hi.few, hi.added, hi.held⟩

theorem FirstPass.unlock_step (hi : FirstPass s) (hpc : s.pc = .unlock) :
    FirstPass { s.setMonitor s.shared.monitor.unlock with
      pc := .wait, calls := s.calls ++ [s.holds] } := by
  have ho : s.shared.monitor.owner = some .main := hi.owner.mpr (by rw [State.locked, hpc])
  have hw := hi.waited (by rw [hpc]; nofun) (by rw [hpc]; nofun)
  refine ⟨hi.sound.main_unlocks ho, ⟨nofun, fun h => ?_⟩, nofun, fun _ h => absurd rfl h, hi.few,
    hi.added, ?_⟩
  · exact absurd (of_decide_eq_true h) hw
  · exact List.forall_mem_append.mpr ⟨hi.held, List.forall_mem_singleton.mpr (decide_eq_true ho)⟩

/-- The main thread keeps to the discipline, or waits for the second time without the mutex. -/
theorem FirstPass.main_step (hi : FirstPass s) (h : mainStep s = some t) :
    FirstPass t ∨ Broken t := by
  unfold mainStep at h
  cases hpc : s.pc with
  | lock =>
    simp only [hpc, Option.map_eq_some_iff] at h
    obtain ⟨m, hm, rfl⟩ := h
    exact .inl (hi.lock_step hpc hm)
  | wait =>
    simp only [hpc, Option.some.injEq] at h
    subst h
    by_cases hw : s.waits = 0
    · exact .inl (hi.wait_step hpc hw)
    · have hn : s.holds = false := by
        apply decide_eq_false
        rw [hi.owner, State.locked, hpc]
        exact fun h => hw (of_decide_eq_true h)
      refine .inr ⟨Nat.succ_lt_succ (Nat.pos_of_ne_zero hw), ?_⟩
      rw [← hn]
      exact List.mem_append_right _ (List.mem_singleton_self _)
  | waiting =>
    simp only [hpc, Option.map_eq_some_iff] at h
    obtain ⟨m, hm, rfl⟩ := h
    exact .inl (hi.waiting_step hpc hm)
  | print =>
    simp only [hpc, Option.some.injEq] at h
    subst h
    exact .inl (hi.print_step hpc)
  | unlock =>
    simp only [hpc, Option.some.injEq] at h
    subst h
    exact .inl (hi.unlock_step hpc)

theorem FirstPass.thread_step (hi : FirstPass s) {i : ℕ} {r : Option Thread} {shared : Shared}
    (h : s.shared.adderStep i r = some shared) : FirstPass { s with shared } := by
  obtain ⟨howner, -, -, -, hdiff⟩ := hi.sound.adder_frame h
  have hadd := hi.added
  refine ⟨hi.sound.adder_step h, howner.trans hi.owner, hi.start, hi.waited, hi.few, ?_, hi.held⟩
  show shared.counter = shared.added
  omega

theorem FirstPass.wake_step (hi : FirstPass s) {m : Monitor Thread}
    (hm : s.shared.monitor.wake .main = some m) : FirstPass (s.setMonitor m) := by
  have hs := hi.sound.wakes hm
  obtain rfl := Monitor.wake_of_alone hm hi.sound.alone
  exact ⟨hs, hi.owner, hi.start, hi.waited, hi.few, hi.added, hi.held⟩

theorem firstPass_init : FirstPass ⟨.init, .lock, 0, []⟩ :=
  ⟨Shared.sound_init, ⟨nofun, nofun⟩, fun _ => rfl, fun h => absurd rfl h, Nat.zero_le 1, rfl, nofun⟩

theorem FirstPass.step (hi : FirstPass s) {a : Action} (h : system.step s a = some t) :
    FirstPass t ∨ Broken t := by
  cases a with
  | main => exact hi.main_step h
  | expire =>
    cases h
    exact .inl ⟨hi.sound.creates 1, hi.owner, hi.start, hi.waited, hi.few, hi.added, hi.held⟩
  | threadFunc i r =>
    obtain ⟨shared, hs, rfl⟩ := Option.map_eq_some_iff.mp h
    exact .inl (hi.thread_step hs)
  | wake =>
    obtain ⟨m, hm, rfl⟩ := Option.map_eq_some_iff.mp h
    exact .inl (hi.wake_step hm)

/-! ### From the second wait on -/

theorem Broken.main_step (hb : Broken s) (h : mainStep s = some t) : Broken t := by
  obtain ⟨hw, hc⟩ := hb
  unfold mainStep at h
  cases hpc : s.pc with
  | lock | waiting =>
    simp only [hpc, Option.map_eq_some_iff] at h
    obtain ⟨m, -, rfl⟩ := h
    exact ⟨hw, hc⟩
  | wait =>
    simp only [hpc, Option.some.injEq] at h
    subst h
    exact ⟨Nat.lt_succ_of_lt hw, List.mem_append_left _ hc⟩
  | print =>
    simp only [hpc, Option.some.injEq] at h
    subst h
    exact ⟨hw, hc⟩
  | unlock =>
    simp only [hpc, Option.some.injEq] at h
    subst h
    exact ⟨hw, List.mem_append_left _ hc⟩

/-- A call without the mutex stays on record. -/
theorem Broken.step (hb : Broken s) {a : Action} (h : system.step s a = some t) : Broken t := by
  cases a with
  | main => exact hb.main_step h
  | expire =>
    cases h
    exact ⟨hb.waits, hb.call⟩
  | threadFunc i r =>
    obtain ⟨shared, -, rfl⟩ := Option.map_eq_some_iff.mp h
    exact ⟨hb.waits, hb.call⟩
  | wake =>
    obtain ⟨m, -, rfl⟩ := Option.map_eq_some_iff.mp h
    exact ⟨hb.waits, hb.call⟩

theorem firstPass_or_broken (h : system.Reachable s) : FirstPass s ∨ Broken s := by
  induction h with
  | init h =>
    cases h
    exact .inl firstPass_init
  | step _ ht ih =>
    rcases ih with hi | hb
    · exact hi.step ht
    · exact .inr (hb.step ht)

/-! ### The discipline -/

/-- A thread inside holds the mutex. -/
theorem FirstPass.owner_of_inside (hi : FirstPass s) {u : Thread} (h : s.Inside u) :
    s.shared.monitor.owner = some u := by
  cases u with
  | main =>
    have hpc : s.pc = .print := h
    exact hi.owner.mpr (by rw [State.locked, hpc])
  | adder i =>
    obtain ⟨a, ha, hpc | ⟨v, hpc⟩⟩ := h
    · exact hi.sound.inside i a ha (by rw [hpc]; rfl)
    · exact hi.sound.inside i a ha (by rw [hpc]; rfl)

theorem FirstPass.disciplined (hi : FirstPass s) : Disciplined s where
  held := hi.held
  alone u w hu hw := Option.some.inj ((hi.owner_of_inside hu).symm.trans (hi.owner_of_inside hw))
  counted hfree := by
    have hpass := hi.sound.added_of_free hfree
    have hadd := hi.added
    omega

/-- The discipline holds as long as the main thread has not called `pthread_cond_wait` for the
second time. -/
theorem disciplined_iff (h : system.Reachable s) : Disciplined s ↔ s.waits ≤ 1 := by
  rcases firstPass_or_broken h with hi | ⟨hw, hc⟩
  · exact ⟨fun _ => hi.few, fun _ => hi.disciplined⟩
  · constructor
    · intro hd
      cases hd.held false hc
    · intro hle
      omega

/-- Two expirations, each counted and printed before the second wait. -/
theorem disciplined_one_wait : ∃ s, system.Reachable s ∧ s.waits = 1 ∧ s.pc = .wait ∧ Disciplined s := by
  have hr := System.reachable_of_run (S := system) (s := ⟨.init, .lock, 0, []⟩) rfl
    ([.replicate 2 .main, .replicate 2 .expire, .replicate 5 (.threadFunc 0 (some .main)),
      .replicate 5 (.threadFunc 1 none), .replicate 3 .main].flatten) rfl
  exact ⟨_, hr, rfl, rfl, (disciplined_iff hr).mpr le_rfl⟩

/-- A whole pass, then the second wait while the second of three threads is inside, and the
third thread's lock and load. -/
def secondWait : List Action :=
  [.replicate 2 .main, .replicate 3 .expire, .replicate 5 (.threadFunc 0 (some .main)),
    .replicate 3 .main, .replicate 2 (.threadFunc 1 none), [.main],
    .replicate 2 (.threadFunc 2 none)].flatten

/-- The second wait is called while `thread_func` holds the mutex and frees it, a third thread
enters, and one of two increments is lost. -/
theorem discipline_broken_by_second_wait : ∃ s t, system.Reachable s ∧ system.Reachable t ∧
    s.calls = [true, true, false] ∧ s.Inside (.adder 1) ∧ s.Inside (.adder 2) ∧
    t.shared.monitor.owner = none ∧ t.shared.counter = 2 ∧ t.shared.passed = 3 ∧
    ¬Disciplined s ∧ ¬Disciplined t := by
  have hs : system.Reachable ⟨⟨⟨some (.adder 2), [.main]⟩, 1,
      [⟨.ended, 0⟩, ⟨.store 1, 1⟩, ⟨.store 1, 1⟩], 1, 1⟩, .waiting, 2, [true, true, false]⟩ :=
    System.reachable_of_run (S := system) (s := ⟨.init, .lock, 0, []⟩) rfl secondWait rfl
  have ht : system.Reachable ⟨⟨⟨none, [.main]⟩, 2, [⟨.ended, 0⟩, ⟨.signal, 1⟩, ⟨.signal, 1⟩], 3, 3⟩,
      .waiting, 2, [true, true, false]⟩ :=
    System.reachable_of_run (S := system) (s := ⟨.init, .lock, 0, []⟩) rfl
      (secondWait ++
        [.threadFunc 1 none, .threadFunc 1 none, .threadFunc 2 none, .threadFunc 2 none]) rfl
  refine ⟨_, _, hs, ht, rfl, ⟨_, rfl, .inr ⟨1, rfl⟩⟩, ⟨_, rfl, .inr ⟨1, rfl⟩⟩, rfl, rfl, rfl,
    fun hd => ?_, fun hd => ?_⟩
  · exact absurd (hd.held false (by decide)) nofun
  · exact absurd (hd.counted rfl) (by decide)

end LinuxApi.TimerAdvanced
