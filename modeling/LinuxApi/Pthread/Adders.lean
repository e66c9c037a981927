import LinuxApi.Kernel.Monitor
import LinuxApi.Transition.Indexed
import Mathlib.Data.List.Basic
import Mathlib.Data.Int.Order.Basic
import Mathlib.Tactic.Common

/-! Threads that add to a shared counter. `thread_func` in `pthread_condition_variable.c`,
`start_routine_cond` in `pthread_lock.c` and the `thread_func` of both timer programs have
one body: lock the mutex, increment the counter, unlock, signal the condition variable.
Here it is run by any number of threads beside a main thread that waits, with the load
and the store of the increment as two steps. The counter is an `int` in the source and an
integer here. -/

namespace LinuxApi

/-- The main thread or an adder, by number. -/
inductive Thread where
  | main
  | adder (i : ℕ)
  deriving DecidableEq

/-- Where an adder is; `store` holds the value it has loaded. -/
inductive AdderPc where
  | lock | load
  | store (v : ℤ)
  | unlock | signal | ended
  deriving DecidableEq

/-- An adder and the rounds of its loop that are left, the present one included. -/
structure Adder where
  pc : AdderPc
  left : ℕ
  deriving DecidableEq

/-- An adder before the next of `n` rounds. -/
def Adder.start (n : ℕ) : Adder := if n = 0 then ⟨.ended, 0⟩ else ⟨.lock, n⟩

/-- What the threads share, and all adders. `added` counts the increments and `passed` the
unlocks of adders so far. -/
structure Shared where
  monitor : Monitor Thread
  counter : ℤ
  adders : List Adder
  added : ℕ
  passed : ℕ
  deriving DecidableEq

/-- The adder is between its lock and its unlock. -/
def AdderPc.inside : AdderPc → Bool
  | .load | .store _ | .unlock => true
  | _ => false

/-- The adder is between its increment and its signal. -/
def AdderPc.pending : AdderPc → Bool
  | .unlock | .signal => true
  | _ => false

namespace Shared

/-- Nothing has happened. -/
def init : Shared := ⟨⟨none, []⟩, 0, [], 0, 0⟩

/-- A new adder. -/
def create (s : Shared) (rounds : ℕ) : Shared := { s with adders := s.adders ++ [.start rounds] }

/-- Adder `i` changes. -/
def set (s : Shared) (i : ℕ) (a : Adder) : Shared := { s with adders := s.adders.set i a }

/-- The next step of adder `i`; its signal wakes `r`. -/
def adderStep (s : Shared) (i : ℕ) (r : Option Thread) : Option Shared :=
  match s.adders[i]? with
  | none => none
  | some a =>
    match a.pc with
    | .lock =>
      (s.monitor.lock (.adder i)).map fun m => { s with monitor := m }.set i { a with pc := .load }
    | .load => some (s.set i { a with pc := .store s.counter })
    | .store v =>
      some ({ s with counter := v + 1, added := s.added + 1 }.set i { a with pc := .unlock })
    | .unlock =>
      some ({ s with monitor := s.monitor.unlock, passed := s.passed + 1 }.set i
        { a with pc := .signal })
    | .signal => (s.monitor.signal r).map fun m => { s with monitor := m }.set i (.start (a.left - 1))
    | .ended => none

/-- Some adder is between its increment and its signal. -/
def Pending (s : Shared) : Prop := ∃ (i : ℕ) (a : Adder), s.adders[i]? = some a ∧ a.pc.pending = true

/-- The mutex protects the counter: whoever works on it holds the mutex, what an adder has
loaded is still there, and only the main thread ever waits. -/
structure Sound (s : Shared) : Prop where
  inside : ∀ (i : ℕ) (a : Adder), s.adders[i]? = some a → a.pc.inside = true →
    s.monitor.owner = some (.adder i)
  owner : ∀ i : ℕ, s.monitor.owner = some (.adder i) →
    ∃ a : Adder, s.adders[i]? = some a ∧ a.pc.inside = true
  loaded : ∀ (i : ℕ) (a : Adder) (v : ℤ), s.adders[i]? = some a → a.pc = .store v → s.counter = v
  alone : s.monitor.waiting = [] ∨ s.monitor.waiting = [.main]
  awake : s.monitor.owner = some .main → s.monitor.waiting = []
  settled : s.added = s.passed + s.adders.countP (·.pc = .unlock)

variable {s t : Shared} {i : ℕ} {r : Option Thread}

theorem start_pc (n : ℕ) : (Adder.start n).pc = .ended ∨ (Adder.start n).pc = .lock := by
  unfold Adder.start
  split_ifs
  · exact .inl rfl
  · exact .inr rfl

/-- What a step of an adder does. -/
theorem adderStep_cases (h : s.adderStep i r = some t) : ∃ a : Adder, s.adders[i]? = some a ∧
    (a.pc = .lock ∧ s.monitor.owner = none ∧ .adder i ∉ s.monitor.waiting ∧
        t = { s with monitor := ⟨some (.adder i), s.monitor.waiting⟩ }.set i { a with pc := .load } ∨
      a.pc = .load ∧ t = s.set i { a with pc := .store s.counter } ∨
      (∃ v, a.pc = .store v ∧
        t = { s with counter := v + 1, added := s.added + 1 }.set i { a with pc := .unlock }) ∨
      a.pc = .unlock ∧ t = { s with monitor := ⟨none, s.monitor.waiting⟩, passed := s.passed + 1 }.set i
        { a with pc := .signal } ∨
      a.pc = .signal ∧ ∃ m, s.monitor.signal r = some m ∧
        t = { s with monitor := m }.set i (.start (a.left - 1))) := by
  unfold adderStep at h
  cases ha : s.adders[i]? with
  | none => rw [ha] at h; cases h
  | some a =>
    refine ⟨a, rfl, ?_⟩
    simp only [ha] at h
    cases hpc : a.pc with
    | lock =>
      simp only [hpc, Option.map_eq_some_iff] at h
      obtain ⟨m, hm, rfl⟩ := h
      obtain ⟨ho, hw, rfl⟩ := Monitor.lock_eq_some.mp hm
      exact .inl ⟨rfl, ho, hw, rfl⟩
    | load =>
      simp only [hpc, Option.some.injEq] at h
      exact .inr (.inl ⟨rfl, h.symm⟩)
    | store v =>
      simp only [hpc, Option.some.injEq] at h
      exact .inr (.inr (.inl ⟨v, rfl, h.symm⟩))
    | unlock =>
      simp only [hpc, Option.some.injEq] at h
      exact .inr (.inr (.inr (.inl ⟨rfl, h.symm⟩)))
    | signal =>
      simp only [hpc, Option.map_eq_some_iff] at h
      obtain ⟨m, hm, rfl⟩ := h
      exact .inr (.inr (.inr (.inr ⟨rfl, m, hm, rfl⟩)))
    | ended => simp only [hpc] at h; cases h

/-- A signal while nobody waits is lost. -/
theorem adderStep_signal {a : Adder} (ha : s.adders[i]? = some a) (hpc : a.pc = .signal)
    (hw : s.monitor.waiting = []) : s.adderStep i none = some (s.set i (.start (a.left - 1))) := by
  simp only [adderStep, ha, hpc, Monitor.signal, hw, if_true, Option.map_some]

/-! ### The mutex protects the counter -/

/-- While another adder is inside, adder `i` neither is inside nor gets in. -/
theorem Sound.outside_of_other (hs : Sound s) {a b : Adder} (ha : s.adders[i]? = some a)
    (hf : b.pc.inside = true → a.pc.inside = true ∨ s.monitor.owner = none) {j : ℕ} {a' : Adder}
    (hji : j ≠ i) (ha' : s.adders[j]? = some a') (hin : a'.pc.inside = true) :
    s.monitor.owner = some (.adder j) ∧ a.pc.inside = false ∧ b.pc.inside = false := by
  have hj := hs.inside j a' ha' hin
  have hai : a.pc.inside = false := by
    by_contra h
    have hi := hs.inside i a ha (Bool.not_eq_false _ ▸ h)
    rw [hj, Option.some.injEq, Thread.adder.injEq] at hi
    exact hji hi
  refine ⟨hj, hai, Bool.eq_false_iff.mpr fun hb => ?_⟩
  rcases hf hb with h | h
  · rw [hai] at h
    cases h
  · rw [hj] at h
    cases h

/-- Adder `i` goes from `a` to `b`. It holds the mutex afterwards exactly if it is inside, it
gives it up when it leaves, and it changes the counter only inside. -/
theorem Sound.move (hs : Sound s) {a b : Adder} {m : Monitor Thread} {c : ℤ} {n k : ℕ}
    (ha : s.adders[i]? = some a)
    (ho : m.owner = if b.pc.inside then some (.adder i) else
      if a.pc.inside then none else s.monitor.owner)
    (hf : b.pc.inside = true → a.pc.inside = true ∨ s.monitor.owner = none)
    (hc : c = s.counter ∨ a.pc.inside = true) (hv : ∀ v, b.pc = .store v → c = v)
    (hw : m.waiting = s.monitor.waiting ∨ m.waiting = [])
    (hn : n + s.passed + (decide (a.pc = .unlock)).toNat =
      k + s.added + (decide (b.pc = .unlock)).toNat) :
    Sound ({ s with monitor := m, counter := c, added := n, passed := k }.set i b) := by
  refine ⟨fun j b' hb' hin => ?_, fun j hj => ?_, fun j b' v hb' hst => ?_, ?_, fun hm => ?_, ?_⟩
  · rcases getElem?_set_eq_some hb' with ⟨rfl, rfl⟩ | ⟨hji, hb'⟩
    · exact ho.trans (if_pos hin)
    · obtain ⟨hj, hai, hbi⟩ := hs.outside_of_other ha hf hji hb' hin
      rw [hai, hbi] at ho
      exact ho.trans hj
  · have hi : i < s.adders.length := (List.getElem?_eq_some_iff.mp ha).1
    have hj : m.owner = some (.adder j) := hj
    rw [ho] at hj
    split_ifs at hj with hb hai
    · obtain rfl : i = j := Thread.adder.inj (Option.some.inj hj)
      exact ⟨b, List.getElem?_set_self hi, hb⟩
    · obtain ⟨a', ha', hin⟩ := hs.owner j hj
      have hji : j ≠ i := by
        rintro rfl
        rw [ha, Option.some.injEq] at ha'
        exact hai (ha' ▸ hin)
      exact ⟨a', (List.getElem?_set_ne (Ne.symm hji)).trans ha', hin⟩
  · rcases getElem?_set_eq_some hb' with ⟨rfl, rfl⟩ | ⟨hji, hb'⟩
    · exact hv v hst
    · obtain ⟨-, hai, -⟩ := hs.outside_of_other ha hf hji hb' (by rw [hst]; rfl)
      exact (hc.resolve_right (by rw [hai]; decide)).trans (hs.loaded j b' v hb' hst)
  · rcases hw with hw | hw
    · exact (congrArg (fun w => w = [] ∨ w = [.main]) hw).mpr hs.alone
    · exact .inl hw
  · have hm : m.owner = some .main := hm
    rw [ho] at hm
    split_ifs at hm
    · cases hm
    · rcases hw with hw | hw
      · exact hw.trans (hs.awake hm)
      · exact hw
  · have hcount := countP_set_add (p := (·.pc = .unlock)) ha b
    have hset := hs.settled
    show n = k + (s.adders.set i b).countP (·.pc = .unlock)
    omega

/-- The body of an adder keeps the counter protected. -/
theorem Sound.adder_step (hs : Sound s) (h : s.adderStep i r = some t) : Sound t := by
  obtain ⟨a, ha, h⟩ := adderStep_cases h
  rcases h with ⟨hpc, ho, -, rfl⟩ | ⟨hpc, rfl⟩ | ⟨v, hpc, rfl⟩ | ⟨hpc, rfl⟩ | ⟨hpc, m, hm, rfl⟩
  · refine hs.move ha rfl (fun _ => .inr ho) (.inl rfl) nofun (.inl rfl) ?_
    rw [hpc]
    show s.added + s.passed + 0 = s.passed + s.added + 0
    omega
  · have hin := hs.inside i a ha (by rw [hpc]; rfl)
    refine hs.move ha hin (fun _ => .inl (by rw [hpc]; rfl)) (.inl rfl) ?_ (.inl rfl) ?_
    · intro v hv
      exact AdderPc.store.inj hv
    · rw [hpc]
      show s.added + s.passed + 0 = s.passed + s.added + 0
      omega
  · have hin := hs.inside i a ha (by rw [hpc]; rfl)
    refine hs.move ha hin (fun _ => .inl (by rw [hpc]; rfl)) (.inr (by rw [hpc]; rfl)) nofun
      (.inl rfl) ?_
    rw [hpc]
    show s.added + 1 + s.passed + 0 = s.passed + s.added + 1
    omega
  · refine hs.move ha ?_ nofun (.inl rfl) nofun (.inl rfl) ?_
    · rw [hpc]
      rfl
    · rw [hpc]
      show s.added + s.passed + 1 = s.passed + 1 + s.added + 0
      omega
  · obtain rfl := Monitor.signal_of_alone hm hs.alone
    have hnext : (Adder.start (a.left - 1)).pc.inside = false ∧
        (Adder.start (a.left - 1)).pc ≠ .unlock ∧ ∀ v, (Adder.start (a.left - 1)).pc ≠ .store v := by
      rcases start_pc (a.left - 1) with h | h <;> rw [h] <;> exact ⟨rfl, nofun, nofun⟩
    refine hs.move ha ?_ (fun h => ?_) (.inl rfl) (fun v hv => absurd hv (hnext.2.2 v)) (.inr rfl) ?_
    · rw [hnext.1, hpc]
      rfl
    · rw [hnext.1] at h
      cases h
    · rw [hpc, decide_eq_false hnext.2.1]
      show s.added + s.passed + 0 = s.passed + s.added + 0
      omega

/-- Every increment is behind its unlock while nobody holds the mutex. -/
theorem Sound.added_of_free (hs : Sound s) (hfree : s.monitor.owner = none) : s.added = s.passed := by
  have hzero : s.adders.countP (·.pc = .unlock) = 0 := by
    apply List.countP_eq_zero.mpr
    intro a ha hpc
    obtain ⟨i, hi⟩ := List.getElem?_of_mem ha
    have ho := hs.inside i a hi (by rw [of_decide_eq_true hpc]; rfl)
    rw [hfree] at ho
    cases ho
  have hset := hs.settled
  omega

/-- What the other threads see of a step of an adder. -/
theorem Sound.adder_frame (hs : Sound s) (h : s.adderStep i r = some t) :
    (t.monitor.owner = some .main ↔ s.monitor.owner = some .main) ∧
      (s.monitor.owner = some .main → t.counter = s.counter) ∧
      (.main ∈ t.monitor.waiting → .main ∈ s.monitor.waiting) ∧
      s.added ≤ t.added ∧ t.counter - t.added = s.counter - s.added := by
  obtain ⟨a, ha, h⟩ := adderStep_cases h
  have hin : a.pc.inside = true → s.monitor.owner ≠ some .main := by
    intro h
    rw [hs.inside i a ha h]
    nofun
  rcases h with ⟨hpc, ho, -, rfl⟩ | ⟨hpc, rfl⟩ | ⟨v, hpc, rfl⟩ | ⟨hpc, rfl⟩ | ⟨hpc, m, hm, rfl⟩
  · refine ⟨⟨nofun, fun h => ?_⟩, fun _ => rfl, id, le_rfl, rfl⟩
    rw [ho] at h
    cases h
  · exact ⟨Iff.rfl, fun _ => rfl, id, le_rfl, rfl⟩
  · have hv := hs.loaded i a v ha hpc
    refine ⟨Iff.rfl, fun h => absurd h (hin (by rw [hpc]; rfl)), id, Nat.le_succ _, ?_⟩
    show v + 1 - ((s.added + 1 : ℕ) : ℤ) = s.counter - s.added
    omega
  · exact ⟨⟨nofun, fun h => absurd h (hin (by rw [hpc]; rfl))⟩, fun _ => rfl, id, le_rfl, rfl⟩
  · obtain rfl := Monitor.signal_of_alone hm hs.alone
    exact ⟨Iff.rfl, fun _ => rfl, nofun, le_rfl, rfl⟩

/-- A thread that waits does so for a reason that still holds, or is about to be woken. -/
def Attended (s : Shared) (P : ℤ → Prop) : Prop :=
  .main ∈ s.monitor.waiting → P s.counter ∨ s.Pending

/-- An adder that changes the counter has a signal to send, which reaches the waiter. -/
theorem Attended.adder_step {P : ℤ → Prop} (hw : s.Attended P) (hs : Sound s)
    (h : s.adderStep i r = some t) : t.Attended P := by
  obtain ⟨a, ha, h⟩ := adderStep_cases h
  have hi := (List.getElem?_eq_some_iff.mp ha).1
  have hkeep : ∀ b, a.pc.pending = false → s.Pending → (s.set i b).Pending := by
    rintro b hn ⟨j, a', ha', hp⟩
    have hji : j ≠ i := by
      rintro rfl
      rw [ha, Option.some.injEq] at ha'
      rw [ha', hp] at hn
      cases hn
    exact ⟨j, a', (List.getElem?_set_ne (Ne.symm hji)).trans ha', hp⟩
  rcases h with ⟨hpc, -, -, rfl⟩ | ⟨hpc, rfl⟩ | ⟨v, hpc, rfl⟩ | ⟨hpc, rfl⟩ | ⟨hpc, m, hm, rfl⟩
  · exact fun hm => (hw hm).imp_right (hkeep _ (by rw [hpc]; rfl))
  · exact fun hm => (hw hm).imp_right (hkeep _ (by rw [hpc]; rfl))
  · exact fun _ => .inr ⟨i, _, List.getElem?_set_self hi, rfl⟩
  · exact fun _ => .inr ⟨i, _, List.getElem?_set_self hi, rfl⟩
  · obtain rfl := Monitor.signal_of_alone hm hs.alone
    nofun

/-! ### The main thread -/

/-- The main thread takes or gives up the mutex, waits or wakes, or changes the counter while
it holds the mutex. -/
theorem Sound.main_step (hs : Sound s) {m : Monitor Thread} {c : ℤ}
    (ho : ∀ i, m.owner = some (.adder i) ↔ s.monitor.owner = some (.adder i))
    (hw : m.waiting = [] ∨ m.waiting = [.main] ∧ m.owner ≠ some .main)
    (hc : c = s.counter ∨ s.monitor.owner = some .main) :
    Sound { s with monitor := m, counter := c } where
  inside i a ha hin := (ho i).mpr (hs.inside i a ha hin)
  owner i hi := hs.owner i ((ho i).mp hi)
  loaded i a v ha hpc := by
    have hi := hs.inside i a ha (by rw [hpc]; rfl)
    refine (hc.resolve_right fun h => ?_).trans (hs.loaded i a v ha hpc)
    rw [hi] at h
    cases h
  alone := hw.imp_right And.left
  awake h := hw.resolve_right fun hm => hm.2 h
  settled := hs.settled

theorem Sound.not_waiting (hs : Sound s) (ho : s.monitor.owner = some .main) :
    .main ∉ s.monitor.waiting := by
  rw [hs.awake ho]
  nofun

theorem Sound.main_locks (hs : Sound s) {m : Monitor Thread} (h : s.monitor.lock .main = some m) :
    Sound { s with monitor := m } ∧ m.owner = some .main ∧ .main ∉ m.waiting := by
  obtain ⟨ho, hn, rfl⟩ := Monitor.lock_eq_some.mp h
  have hw : s.monitor.waiting = [] :=
    hs.alone.resolve_right fun hm => hn (by rw [hm]; exact List.mem_singleton_self _)
  refine ⟨hs.main_step (fun i => ?_) (.inl hw) (.inl rfl), rfl, hn⟩
  rw [ho]
  exact ⟨nofun, nofun⟩

theorem Sound.main_unlocks (hs : Sound s) (ho : s.monitor.owner = some .main) :
    Sound { s with monitor := s.monitor.unlock } := by
  refine hs.main_step (fun i => ?_) (.inl (hs.awake ho)) (.inl rfl)
  rw [ho]
  exact ⟨nofun, nofun⟩

theorem Sound.main_waits (hs : Sound s) (ho : s.monitor.owner = some .main) :
    Sound { s with monitor := s.monitor.wait .main } := by
  refine hs.main_step (fun i => ?_) (.inr ⟨?_, nofun⟩) (.inl rfl)
  · rw [ho]
    exact ⟨nofun, nofun⟩
  · rw [Monitor.wait, hs.awake ho]

/-- A wake without a signal. -/
theorem Sound.wakes (hs : Sound s) {u : Thread} {m : Monitor Thread} (h : s.monitor.wake u = some m) :
    Sound { s with monitor := m } := by
  obtain rfl := Monitor.wake_of_alone h hs.alone
  exact hs.main_step (fun _ => Iff.rfl) (.inl rfl) (.inl rfl)

/-- A new adder has not begun. -/
theorem Sound.creates (hs : Sound s) (n : ℕ) : Sound (s.create n) := by
  have hstart : (Adder.start n).pc.inside = false ∧ (Adder.start n).pc ≠ .unlock ∧
      ∀ v, (Adder.start n).pc ≠ .store v := by
    rcases start_pc n with h | h <;> rw [h] <;> exact ⟨rfl, nofun, nofun⟩
  refine ⟨?_, fun i hi => ?_, ?_, hs.alone, hs.awake, ?_⟩
  · refine forall_getElem?_concat hs.inside fun h => ?_
    rw [hstart.1] at h
    cases h
  · obtain ⟨a, ha, hin⟩ := hs.owner i hi
    exact ⟨a, (List.getElem?_append_left (List.getElem?_eq_some_iff.mp ha).1).trans ha, hin⟩
  · intro i a v ha hpc
    exact forall_getElem?_concat (fun i a ha => hs.loaded i a v ha) (fun h => absurd h (hstart.2.2 v))
      i a ha hpc
  · have hset := hs.settled
    simp only [create, List.countP_append, List.countP_singleton, hstart.2.1, decide_false,
      Bool.false_eq_true, if_false, Nat.add_zero]
    exact hset

theorem Pending.creates (hp : s.Pending) (n : ℕ) : (s.create n).Pending := by
  obtain ⟨i, a, ha, hp⟩ := hp
  exact ⟨i, a, (List.getElem?_append_left (List.getElem?_eq_some_iff.mp ha).1).trans ha, hp⟩

theorem sound_init : Sound init := ⟨nofun, nofun, nofun, .inl rfl, nofun, rfl⟩

end Shared

end LinuxApi
