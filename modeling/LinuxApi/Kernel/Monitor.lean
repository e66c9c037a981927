import Mathlib.Data.List.Basic
import Mathlib.Tactic.Common

/-! A mutex with a condition variable. The mutex does not check who unlocks it: an unlock,
and the wait that gives it up, free it whoever holds it. A signal wakes one of the threads
that wait, chosen by the system, and does nothing if none waits; a waiter may also wake
without a signal. A woken thread has to lock the mutex before it returns. -/

namespace LinuxApi

/-- Who holds the mutex, and the threads that wait unsignalled. -/
structure Monitor (τ : Type*) where
  owner : Option τ
  waiting : List τ
  deriving DecidableEq

namespace Monitor

variable {τ : Type*} [DecidableEq τ]

/-- `pthread_mutex_lock`, and the return from `pthread_cond_wait`: blocks while the mutex is
held or the thread waits. -/
def lock (m : Monitor τ) (t : τ) : Option (Monitor τ) :=
  if m.owner = none ∧ t ∉ m.waiting then some { m with owner := some t } else none

/-- `pthread_mutex_unlock` -/
def unlock (m : Monitor τ) : Monitor τ := { m with owner := none }

/-- `pthread_cond_wait`, up to the point where the thread waits. -/
def wait (m : Monitor τ) (t : τ) : Monitor τ := ⟨none, t :: m.waiting⟩

/-- A waiter wakes. -/
def wake (m : Monitor τ) (t : τ) : Option (Monitor τ) :=
  if t ∈ m.waiting then some { m with waiting := m.waiting.erase t } else none

/-- `pthread_cond_signal`, with the waiter it wakes. -/
def signal (m : Monitor τ) : Option τ → Option (Monitor τ)
  | some t => m.wake t
  | none => if m.waiting = [] then some m else none

variable {m m' : Monitor τ} {t : τ}

theorem lock_eq_some : m.lock t = some m' ↔
    m.owner = none ∧ t ∉ m.waiting ∧ m' = ⟨some t, m.waiting⟩ := by
  simp only [lock, Option.ite_none_right_eq_some, Option.some.injEq, and_assoc]
  exact and_congr_right fun _ => and_congr_right fun _ => eq_comm

/-- Nobody but the waiter itself is affected when it wakes. -/
theorem wake_eq_some : m.wake t = some m' ↔
    t ∈ m.waiting ∧ m' = ⟨m.owner, m.waiting.erase t⟩ := by
  simp only [wake, Option.ite_none_right_eq_some, Option.some.injEq]
  exact and_congr_right fun _ => eq_comm

/-- Where at most `t` waits, a wake of anybody is the wake of `t`. -/
theorem wake_of_alone {u : τ} (h : m.wake u = some m') (ha : m.waiting = [] ∨ m.waiting = [t]) :
    m' = ⟨m.owner, []⟩ := by
  obtain ⟨hu, rfl⟩ := wake_eq_some.mp h
  rcases ha with ha | ha
  · rw [ha] at hu
    cases hu
  · rw [ha, List.mem_singleton] at hu
    rw [ha, hu, List.erase_cons_head]

/-- Where at most `t` waits, nobody waits after a signal. -/
theorem signal_of_alone {r : Option τ} (h : m.signal r = some m')
    (ha : m.waiting = [] ∨ m.waiting = [t]) : m' = ⟨m.owner, []⟩ := by
  cases r with
  | some u => exact wake_of_alone h ha
  | none =>
    simp only [signal, Option.ite_none_right_eq_some, Option.some.injEq] at h
    obtain ⟨hn, rfl⟩ := h
    rw [← hn]

end Monitor

end LinuxApi
