import LinuxApi.Pthread.Adders
import LinuxApi.Transition.System

/-! `pthread_cond_var` in `pthread_condition_variable.c` and `mutex_cond_example` in
`pthread_lock.c`: the main thread consumes what any number of adders produce. It waits on the
condition variable while the counter is zero, then counts it down, and holds the mutex except
while it waits. The counter is an `int` in the source and an integer here. -/

namespace LinuxApi.ProducerConsumer

/-- Which of the two programs runs. -/
inductive Program where
  | pthreadCondVar | mutexCondExample

/-- The condition of the inner loop: `work > 0`, and `job`. -/
def Program.more : Program → ℤ → Bool
  | .pthreadCondVar, work => 0 < work
  | .mutexCondExample, job => job ≠ 0

/-- Where the main thread is; `store` holds the value it has loaded to decrement. -/
inductive ConsumerPc where
  | lock | test | wait | waiting | drain | load
  | store (v : ℤ)
  deriving DecidableEq

/-- `consumed` counts the decrements so far. -/
structure State where
  shared : Shared
  pc : ConsumerPc
  consumed : ℕ
  deriving DecidableEq

/-- A step of the main thread, a step of a producer whose signal wakes `r`, a wake-up without
a signal, and the creation of a producer of any number of rounds. -/
inductive Action where
  | consumer
  | producer (i : ℕ) (r : Option Thread)
  | wake
  | create (rounds : ℕ)

/-- The main thread moves on with a new state of the mutex. -/
def State.setMonitor (s : State) (m : Monitor Thread) (pc : ConsumerPc) : State :=
  { s with shared := { s.shared with monitor := m }, pc }

/-- The two nested loops, from `pthread_mutex_lock` on. -/
def consumerStep (p : Program) (s : State) : Option State :=
  match s.pc with
  | .lock | .waiting => (s.shared.monitor.lock .main).map fun m => s.setMonitor m .test
  | .test => some { s with pc := if s.shared.counter = 0 then .wait else .drain }
  | .wait => some (s.setMonitor (s.shared.monitor.wait .main) .waiting)
  | .drain => some { s with pc := if p.more s.shared.counter then .load else .test }
  | .load => some { s with pc := .store s.shared.counter }
  | .store v =>
    some { shared := { s.shared with counter := v - 1 }, pc := .drain, consumed := s.consumed + 1 }

/-- The main thread creates the producers before it locks the mutex. -/
def system (p : Program) : System State Action where
  init s := s = ⟨.init, .lock, 0⟩
  step s
    | .consumer => consumerStep p s
    | .producer i r => (s.shared.adderStep i r).map fun shared => { s with shared }
    | .wake => (s.shared.monitor.wake .main).map fun m => s.setMonitor m s.pc
    | .create rounds => if s.pc = .lock then some { s with shared := s.shared.create rounds } else none

/-! ### The invariant -/

/-- The main thread holds the mutex. -/
def ConsumerPc.inside : ConsumerPc → Bool
  | .lock | .waiting => false
  | _ => true

/-- What the main thread has learnt about the counter. -/
def ConsumerPc.Knows (c : ℤ) : ConsumerPc → Prop
  | .wait => c = 0
  | .load => 0 < c
  | .store v => 0 < c ∧ v = c
  | _ => True

/-- The counter is what has been produced and not consumed, and the main thread waits only on
a zero counter or with a signal on its way. -/
structure Inv (s : State) : Prop where
  sound : s.shared.Sound
  owner : s.shared.monitor.owner = some .main ↔ s.pc.inside = true
  knows : s.pc.Knows s.shared.counter
  balance : s.shared.counter + s.consumed = s.shared.added
  enough : s.consumed ≤ s.shared.added
  attended : s.shared.Attended (· = 0)

variable {p : Program} {s t : State}

theorem more_pos {c : ℤ} (hc : 0 ≤ c) (h : p.more c = true) : 0 < c := by
  cases p with
  | pthreadCondVar => exact of_decide_eq_true h
  | mutexCondExample => exact lt_of_le_of_ne hc (of_decide_eq_true h).symm

theorem ConsumerPc.knows_of_outside {pc : ConsumerPc} (h : pc.inside = false) (c : ℤ) : pc.Knows c := by
  cases pc <;> trivial

/-- The main thread gets the mutex, at the start or on its way out of a wait. -/
theorem Inv.locks (hi : Inv s) {m : Monitor Thread} (h : s.shared.monitor.lock .main = some m) :
    Inv (s.setMonitor m .test) := by
  obtain ⟨hs, ho, hw⟩ := hi.sound.main_locks h
  exact ⟨hs, ⟨fun _ => rfl, fun _ => ho⟩, trivial, hi.balance, hi.enough, fun hm => absurd hm hw⟩

/-- The main thread moves with the mutex and what it protects as they are. -/
theorem Inv.moves (hi : Inv s) {pc : ConsumerPc} (hin : s.pc.inside = true) (hpc : pc.inside = true)
    (hk : pc.Knows s.shared.counter) : Inv { s with pc } where
  sound := hi.sound
  owner := ⟨fun _ => hpc, fun _ => hi.owner.mpr hin⟩
  knows := hk
  balance := hi.balance
  enough := hi.enough
  attended := hi.attended

theorem Inv.consumer_step (hi : Inv s) (h : consumerStep p s = some t) : Inv t := by
  have hbal := hi.balance
  have henough := hi.enough
  unfold consumerStep at h
  cases hpc : s.pc with
  | lock | waiting =>
    simp only [hpc, Option.map_eq_some_iff] at h
    obtain ⟨m, hm, rfl⟩ := h
    exact hi.locks hm
  | test =>
    simp only [hpc, Option.some.injEq] at h
    subst h
    by_cases hc : s.shared.counter = 0
    · rw [if_pos hc]
      exact hi.moves (by rw [hpc]; rfl) rfl hc
    · rw [if_neg hc]
      exact hi.moves (by rw [hpc]; rfl) rfl trivial
  | wait =>
    simp only [hpc, Option.some.injEq] at h
    subst h
    have hzero := hi.knows
    rw [hpc] at hzero
    have ho := hi.owner.mpr (by rw [hpc]; rfl)
    exact ⟨hi.sound.main_waits ho, ⟨nofun, nofun⟩, trivial, hbal, henough, fun _ => .inl hzero⟩
  | drain =>
    simp only [hpc, Option.some.injEq] at h
    subst h
    by_cases hc : p.more s.shared.counter = true
    · rw [if_pos hc]
      exact hi.moves (by rw [hpc]; rfl) rfl (more_pos (by omega) hc)
    · rw [if_neg hc]
      exact hi.moves (by rw [hpc]; rfl) rfl trivial
  | load =>
    simp only [hpc, Option.some.injEq] at h
    subst h
    have hk := hi.knows
    rw [hpc] at hk
    exact hi.moves (by rw [hpc]; rfl) rfl ⟨hk, rfl⟩
  | store v =>
    simp only [hpc, Option.some.injEq] at h
    subst h
    have hk := hi.knows
    rw [hpc] at hk
    obtain ⟨hpos, rfl⟩ := hk
    have ho := hi.owner.mpr (by rw [hpc]; rfl)
    refine ⟨?_, ⟨fun _ => rfl, fun _ => ho⟩, trivial, ?_, ?_,
      fun hm => absurd hm (hi.sound.not_waiting ho)⟩
    · exact hi.sound.main_step (fun _ => Iff.rfl) (.inl (hi.sound.awake ho)) (.inr ho)
    · show s.shared.counter - 1 + ((s.consumed + 1 : ℕ) : ℤ) = s.shared.added
      omega
    · show s.consumed + 1 ≤ s.shared.added
      omega

/-- A producer does not disturb the main thread while that holds the mutex. -/
theorem Inv.producer_step (hi : Inv s) {i : ℕ} {r : Option Thread} {shared : Shared}
    (h : s.shared.adderStep i r = some shared) : Inv { s with shared } := by
  obtain ⟨howner, hkept, -, hle, hdiff⟩ := hi.sound.adder_frame h
  have hbal := hi.balance
  refine ⟨hi.sound.adder_step h, howner.trans hi.owner, ?_, ?_, hi.enough.trans hle,
    hi.attended.adder_step hi.sound h⟩
  · show s.pc.Knows shared.counter
    cases hin : s.pc.inside with
    | true =>
      rw [hkept (hi.owner.mpr hin)]
      exact hi.knows
    | false => exact ConsumerPc.knows_of_outside hin _
  · show shared.counter + s.consumed = shared.added
    omega

theorem inv_init : Inv ⟨.init, .lock, 0⟩ :=
  ⟨Shared.sound_init, ⟨nofun, nofun⟩, trivial, rfl, le_rfl, nofun⟩

theorem inv_step {a : Action} (hi : Inv s) (h : (system p).step s a = some t) : Inv t := by
  cases a with
  | consumer => exact hi.consumer_step h
  | producer i r =>
    obtain ⟨shared, hs, rfl⟩ := Option.map_eq_some_iff.mp h
    exact hi.producer_step hs
  | wake =>
    obtain ⟨m, hm, rfl⟩ := Option.map_eq_some_iff.mp h
    have hs := hi.sound.wakes hm
    obtain rfl := Monitor.wake_of_alone hm hi.sound.alone
    exact ⟨hs, hi.owner, hi.knows, hi.balance, hi.enough, nofun⟩
  | create rounds =>
    obtain ⟨-, ht⟩ := Option.ite_none_right_eq_some.mp h
    cases ht
    refine ⟨hi.sound.creates rounds, hi.owner, hi.knows, hi.balance, hi.enough, fun hm => ?_⟩
    exact (hi.attended hm).imp_right fun hp => hp.creates rounds

theorem inv_reachable (h : (system p).Reachable s) : Inv s := by
  refine h.invariant ?_ ?_
  · rintro s rfl
    exact inv_init
  · intro s a t hi ht
    exact inv_step hi ht

/-- Whenever the mutex is free, the counter is the number of items produced and not consumed,
and the main thread does not wait for a positive one unless a producer is about to signal. -/
theorem no_work_or_wake_lost (h : (system p).Reachable s) (hfree : s.shared.monitor.owner = none) :
    (s.shared.counter = s.shared.added - s.consumed ∧ 0 ≤ s.shared.counter) ∧
      ¬(.main ∈ s.shared.monitor.waiting ∧ 0 < s.shared.counter ∧
        ∀ (i : ℕ) (a : Adder), s.shared.adders[i]? = some a → a.pc ≠ .signal) := by
  have hi := inv_reachable h
  have hbal := hi.balance
  have henough := hi.enough
  refine ⟨⟨by omega, by omega⟩, ?_⟩
  rintro ⟨hw, hpos, hsignal⟩
  rcases hi.attended hw with hzero | ⟨i, a, ha, hp⟩
  · have hzero : s.shared.counter = 0 := hzero
    omega
  · cases hpc : a.pc with
    | signal => exact hsignal i a ha hpc
    | unlock =>
      -- the mutex is not free while an adder is before its unlock
      have ho := hi.sound.inside i a ha (by rw [hpc]; rfl)
      rw [hfree] at ho
      cases ho
    | lock | load | store | ended =>
      rw [hpc] at hp
      cases hp

/-- A job is produced while the main thread waits for one, and consumed. -/
theorem no_work_or_wake_lost_one_job : ∃ s, (system .mutexCondExample).Reachable s ∧
    s.shared.added = 1 ∧ s.consumed = 1 ∧ s.shared.counter = 0 := by
  have hr := System.reachable_of_run (S := system .mutexCondExample) (s := ⟨.init, .lock, 0⟩) rfl
    ([[.create 1], .replicate 3 .consumer, .replicate 5 (.producer 0 (some .main)),
      .replicate 8 .consumer].flatten) rfl
  exact ⟨_, hr, rfl, rfl, (no_work_or_wake_lost hr rfl).1.1⟩

end LinuxApi.ProducerConsumer
