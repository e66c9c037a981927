import LinuxApi.Pthread.Adders
import LinuxApi.Transition.System

/-! `timer_example_settime_thread` in `timer_example.c`: every timer expiration runs
`thread_func` in a thread of its own, and the main thread waits on the condition variable until
it finds `loop_count` above five. It waits before it tests `loop_count` for the first time. -/

namespace LinuxApi.TimerSettime

/-- Where the main thread is, from `pthread_mutex_lock` on. -/
inductive MainPc where
  | lock | wait | waiting | test | unlock | done
  deriving DecidableEq

/-- `shared.counter` is `loop_count`. -/
structure State where
  shared : Shared
  pc : MainPc
  deriving DecidableEq

/-- A step of the main thread, a timer expiration, a step of `thread_func` whose signal wakes
`r`, and a wake-up without a signal. -/
inductive Action where
  | main
  | expire
  | threadFunc (i : ℕ) (r : Option Thread)
  | wake

/-- The main thread moves on with a new state of the mutex. -/
def State.setMonitor (s : State) (m : Monitor Thread) (pc : MainPc) : State :=
  { shared := { s.shared with monitor := m }, pc }

def mainStep (s : State) : Option State :=
  match s.pc with
  | .lock => (s.shared.monitor.lock .main).map fun m => s.setMonitor m .wait
  | .wait => some (s.setMonitor (s.shared.monitor.wait .main) .waiting)
  | .waiting => (s.shared.monitor.lock .main).map fun m => s.setMonitor m .test
  | .test => some { s with pc := if s.shared.counter > 5 then .unlock else .wait }
  | .unlock => some (s.setMonitor s.shared.monitor.unlock .done)
  | .done => none

/-- The program once the timer is set. -/
def system : System State Action where
  init s := s = ⟨.init, .lock⟩
  step s
    | .main => mainStep s
    | .expire => some { s with shared := s.shared.create 1 }
    | .threadFunc i r => (s.shared.adderStep i r).map fun shared => { s with shared }
    | .wake => (s.shared.monitor.wake .main).map fun m => s.setMonitor m s.pc

/-- The main thread waits unsignalled for what has happened, and no signal is on its way. -/
def Lost (s : State) : Prop :=
  .main ∈ s.shared.monitor.waiting ∧ s.shared.counter > 5 ∧ ¬s.shared.Pending

/-- The main thread locks the mutex before the counter is above five. -/
def lockInTime (s : State) : Action → Bool
  | .main => s.pc ≠ .lock ∨ s.shared.counter ≤ 5
  | _ => true

/-! ### Where the mutex is -/

/-- The main thread holds the mutex. -/
def MainPc.inside : MainPc → Bool
  | .wait | .test | .unlock => true
  | .lock | .waiting | .done => false

structure Inv (s : State) : Prop where
  sound : s.shared.Sound
  owner : s.shared.monitor.owner = some .main ↔ s.pc.inside = true
  waiting : .main ∈ s.shared.monitor.waiting → s.pc = .waiting

variable {s t : State}

/-- The main thread gets the mutex, at the start or on its way out of a wait. -/
theorem Inv.locks (hi : Inv s) {m : Monitor Thread} (h : s.shared.monitor.lock .main = some m)
    {pc : MainPc} (hpc : pc.inside = true) : Inv (s.setMonitor m pc) := by
  obtain ⟨hs, ho, hw⟩ := hi.sound.main_locks h
  exact ⟨hs, ⟨fun _ => hpc, fun _ => ho⟩, fun hm => absurd hm hw⟩

theorem Inv.main_step (hi : Inv s) (h : mainStep s = some t) : Inv t := by
  unfold mainStep at h
  cases hpc : s.pc with
  | lock | waiting =>
    simp only [hpc, Option.map_eq_some_iff] at h
    obtain ⟨m, hm, rfl⟩ := h
    exact hi.locks hm rfl
  | wait =>
    simp only [hpc, Option.some.injEq] at h
    subst h
    have ho := hi.owner.mpr (by rw [hpc]; rfl)
    exact ⟨hi.sound.main_waits ho, ⟨nofun, nofun⟩, fun _ => rfl⟩
  | test =>
    simp only [hpc, Option.some.injEq] at h
    subst h
    have ho := hi.owner.mpr (by rw [hpc]; rfl)
    refine ⟨hi.sound, ⟨fun _ => ?_, fun _ => ho⟩, fun hm => absurd hm (hi.sound.not_waiting ho)⟩
    show MainPc.inside (if s.shared.counter > 5 then .unlock else .wait) = true
    split_ifs <;> rfl
  | unlock =>
    simp only [hpc, Option.some.injEq] at h
    subst h
    have ho := hi.owner.mpr (by rw [hpc]; rfl)
    exact ⟨hi.sound.main_unlocks ho, ⟨nofun, nofun⟩, fun hm => absurd hm (hi.sound.not_waiting ho)⟩
  | done =>
    simp only [hpc] at h
    cases h

theorem inv_init : Inv ⟨.init, .lock⟩ := ⟨Shared.sound_init, ⟨nofun, nofun⟩, nofun⟩

theorem inv_step {a : Action} (hi : Inv s) (h : system.step s a = some t) : Inv t := by
  cases a with
  | main => exact hi.main_step h
  | expire =>
    cases h
    exact ⟨hi.sound.creates 1, hi.owner, hi.waiting⟩
  | threadFunc i r =>
    obtain ⟨shared, hs, rfl⟩ := Option.map_eq_some_iff.mp h
    obtain ⟨howner, -, hwait, -⟩ := hi.sound.adder_frame hs
    exact ⟨hi.sound.adder_step hs, howner.trans hi.owner, fun hm => hi.waiting (hwait hm)⟩
  | wake =>
    obtain ⟨m, hm, rfl⟩ := Option.map_eq_some_iff.mp h
    have hs := hi.sound.wakes hm
    obtain rfl := Monitor.wake_of_alone hm hi.sound.alone
    exact ⟨hs, hi.owner, nofun⟩

theorem inv_reachable (h : system.Reachable s) : Inv s := by
  refine h.invariant ?_ ?_
  · rintro s rfl
    exact inv_init
  · intro s a t hi ht
    exact inv_step hi ht

/-! ### Wake-ups are kept when the mutex is locked in time -/

/-- The main thread waits only for a counter that is not above five, or with a signal on its
way. -/
structure Kept (s : State) : Prop where
  inv : Inv s
  few : s.pc = .wait → s.shared.counter ≤ 5
  attended : s.shared.Attended (· ≤ 5)

theorem Kept.not_lost (hk : Kept s) : ¬Lost s := by
  rintro ⟨hw, hc, hp⟩
  rcases hk.attended hw with hle | hpend
  · exact absurd hle (not_le_of_gt hc)
  · exact hp hpend

theorem Kept.main_step (hk : Kept s) (hlock : lockInTime s .main = true) (h : mainStep s = some t) :
    Kept t := by
  have hi := hk.inv.main_step h
  unfold mainStep at h
  cases hpc : s.pc with
  | lock =>
    simp only [hpc, Option.map_eq_some_iff] at h
    obtain ⟨m, hm, rfl⟩ := h
    have hw := (hk.inv.sound.main_locks hm).2.2
    refine ⟨hi, fun _ => ?_, fun hm => absurd hm hw⟩
    exact (of_decide_eq_true hlock).resolve_left fun h => h hpc
  | wait =>
    simp only [hpc, Option.some.injEq] at h
    subst h
    exact ⟨hi, nofun, fun _ => .inl (hk.few hpc)⟩
  | waiting =>
    simp only [hpc, Option.map_eq_some_iff] at h
    obtain ⟨m, hm, rfl⟩ := h
    have hw := (hk.inv.sound.main_locks hm).2.2
    exact ⟨hi, nofun, fun hm => absurd hm hw⟩
  | test =>
    simp only [hpc, Option.some.injEq] at h
    subst h
    refine ⟨hi, fun hw => ?_, hk.attended⟩
    have hw : (if s.shared.counter > 5 then MainPc.unlock else .wait) = .wait := hw
    split_ifs at hw with hc
    exact not_lt.mp hc
  | unlock =>
    simp only [hpc, Option.some.injEq] at h
    subst h
    exact ⟨hi, nofun, hk.attended⟩
  | done =>
    simp only [hpc] at h
    cases h

theorem Kept.thread_step (hk : Kept s) {i : ℕ} {r : Option Thread} {shared : Shared}
    (h : s.shared.adderStep i r = some shared) (hi : Inv { s with shared }) :
    Kept { s with shared } := by
  obtain ⟨-, hkept, -⟩ := hk.inv.sound.adder_frame h
  refine ⟨hi, fun hpc => ?_, hk.attended.adder_step hk.inv.sound h⟩
  show shared.counter ≤ 5
  rw [hkept (hk.inv.owner.mpr (by rw [show s.pc = .wait from hpc]; rfl))]
  exact hk.few hpc

theorem kept_step {a : Action} (hk : Kept s) (hlock : lockInTime s a = true)
    (h : system.step s a = some t) : Kept t := by
  have hi := inv_step hk.inv h
  cases a with
  | main => exact hk.main_step hlock h
  | expire =>
    cases h
    exact ⟨hi, hk.few, fun hm => (hk.attended hm).imp_right fun hp => hp.creates 1⟩
  | threadFunc i r =>
    obtain ⟨shared, hs, rfl⟩ := Option.map_eq_some_iff.mp h
    exact hk.thread_step hs hi
  | wake =>
    obtain ⟨m, hm, rfl⟩ := Option.map_eq_some_iff.mp h
    obtain rfl := Monitor.wake_of_alone hm hk.inv.sound.alone
    exact ⟨hi, hk.few, nofun⟩

theorem kept_reachable (h : (system.under lockInTime).Reachable s) : Kept s := by
  refine h.invariant ?_ ?_
  · rintro s rfl
    exact ⟨inv_init, nofun, nofun⟩
  · intro s a t hk ht
    obtain ⟨hlock, ht⟩ := System.under_step_eq_some.mp ht
    exact kept_step hk hlock ht

/-! ### Wake-ups can be lost otherwise -/

/-- At a wait above five, all signals on their way may be sent before the main thread waits. -/
theorem Inv.exists_lost {n : ℕ} (hi : Inv s) (hpc : s.pc = .wait) (hc : s.shared.counter > 5)
    (hn : s.shared.adders.countP (·.pc = .signal) = n) : ∃ as t, system.run s as = some t ∧ Lost t := by
  have ho := hi.owner.mpr (by rw [hpc]; rfl)
  induction n generalizing s with
  | zero =>
    refine ⟨[.main], s.setMonitor (s.shared.monitor.wait .main) .waiting, ?_, ?_, hc, ?_⟩
    · rw [System.run_cons]
      show (mainStep s).bind _ = _
      rw [mainStep, hpc]
      rfl
    · exact List.mem_cons_self
    · rintro ⟨i, a, ha, hp⟩
      cases hapc : a.pc with
      | signal =>
        refine List.countP_eq_zero.mp hn a (List.mem_of_getElem? ha) ?_
        exact decide_eq_true hapc
      | unlock =>
        -- the main thread has the mutex, so no adder is before its unlock
        have hadder := hi.sound.inside i a ha (by rw [hapc]; rfl)
        rw [ho] at hadder
        cases hadder
      | lock | load | store | ended =>
        rw [hapc] at hp
        cases hp
  | succ n ih =>
    have hpos : 0 < s.shared.adders.countP (·.pc = .signal) := by omega
    obtain ⟨a, ha, hsig⟩ := List.countP_pos_iff.mp hpos
    obtain ⟨i, hai⟩ := List.getElem?_of_mem ha
    have hsig := of_decide_eq_true hsig
    have hstep : system.step s (.threadFunc i none) =
        some { s with shared := s.shared.set i (.start (a.left - 1)) } := by
      show (s.shared.adderStep i none).map _ = _
      rw [Shared.adderStep_signal hai hsig (hi.sound.awake ho)]
      rfl
    have hcount := countP_set_add (p := (·.pc = .signal)) hai (.start (a.left - 1))
    have hnext : (Adder.start (a.left - 1)).pc ≠ .signal := by
      rcases Shared.start_pc (a.left - 1) with h | h <;> rw [h] <;> nofun
    rw [decide_eq_true hsig, decide_eq_false hnext, Bool.toNat_true, Bool.toNat_false] at hcount
    obtain ⟨as, t, hrun, hlost⟩ := ih (inv_step hi hstep) hpc hc
      (by show (s.shared.adders.set i _).countP _ = n; omega) ho
    refine ⟨.threadFunc i none :: as, t, ?_, hlost⟩
    rw [System.run_cons, hstep]
    exact hrun

/-- If the main thread locks the mutex above five, a wake-up can be lost. -/
theorem Inv.exists_lost_of_lock (hi : Inv s) (hpc : s.pc = .lock)
    (hfree : s.shared.monitor.owner = none) (hc : s.shared.counter > 5) :
    ∃ as t, system.run s (.main :: as) = some t ∧ Lost t := by
  have hnot : .main ∉ s.shared.monitor.waiting := by
    intro hw
    have hw := hi.waiting hw
    rw [hpc] at hw
    cases hw
  have hstep : system.step s .main =
      some (s.setMonitor ⟨some .main, s.shared.monitor.waiting⟩ .wait) := by
    show mainStep s = _
    rw [mainStep, hpc]
    show (s.shared.monitor.lock .main).map _ = _
    rw [Monitor.lock_eq_some.mpr ⟨hfree, hnot, rfl⟩]
    rfl
  obtain ⟨as, t, hrun, hlost⟩ := (inv_step hi hstep).exists_lost rfl hc rfl
  refine ⟨as, t, ?_, hlost⟩
  rw [System.run_cons, hstep]
  exact hrun

/-- Six timer expirations, each with a whole run of `thread_func`. -/
def sixExpirations : List Action :=
  (List.range 6).flatMap fun i => .expire :: .replicate 5 (.threadFunc i none)

/-- No wake-up is lost in a run whose main thread locks the mutex while the counter is at most
five, and where it locks it later, the run can go on to lose one. -/
theorem wakeup_kept_by_lock_in_time (s : State) :
    ((system.under lockInTime).Reachable s → ¬Lost s) ∧
      (system.Reachable s → s.pc = .lock → s.shared.monitor.owner = none → s.shared.counter > 5 →
        ∃ as t, system.run s (.main :: as) = some t ∧ Lost t) :=
  ⟨fun h => (kept_reachable h).not_lost, fun h => (inv_reachable h).exists_lost_of_lock⟩

/-- The main thread locks the mutex before the first expiration in one run, and after the sixth
in another. -/
theorem wakeup_kept_by_lock_in_time_at_zero_and_six :
    (∃ s, (system.under lockInTime).Reachable s ∧ s.pc = .waiting ∧ ¬Lost s) ∧
      ∃ s as t, system.Reachable s ∧ s.shared.counter = 6 ∧
        system.run s (.main :: as) = some t ∧ Lost t := by
  have hzero := System.reachable_of_run (S := system.under lockInTime) (s := ⟨.init, .lock⟩) rfl
    (.replicate 2 .main) rfl
  have hsix := System.reachable_of_run (S := system) (s := ⟨.init, .lock⟩) rfl sixExpirations rfl
  obtain ⟨as, t, hrun, hlost⟩ := (wakeup_kept_by_lock_in_time _).2 hsix rfl rfl (by decide)
  exact ⟨⟨_, hzero, rfl, (wakeup_kept_by_lock_in_time _).1 hzero⟩, _, as, t, hsix, rfl, hrun, hlost⟩

/-- Six runs of `thread_func` end before the main thread locks the mutex: it waits for what has
happened six times. -/
theorem wakeup_lost_after_six_expirations :
    ∃ s, system.Reachable s ∧ s.shared.counter = 6 ∧ Lost s := by
  have hr := System.reachable_of_run (S := system) (s := ⟨.init, .lock⟩) rfl
    (sixExpirations ++ .replicate 2 .main) rfl
  refine ⟨_, hr, rfl, List.mem_cons_self, by decide, ?_⟩
  rintro ⟨i, a, ha, hp⟩
  have hended : a = ⟨.ended, 0⟩ := List.eq_of_mem_replicate (n := 6) (List.mem_of_getElem? ha)
  rw [hended] at hp
  cases hp

end LinuxApi.TimerSettime
