import Mathlib.Data.List.Basic

/-! The two primitives that protect a shared variable: a mutex, and an unnamed semaphore. Both have
units, one for a free mutex and its value for a semaphore; taking the lock takes a unit and blocks
without one. A mutex does not check who unlocks it. -/

namespace LinuxApi

inductive Lock (τ : Type*) where
  | mutex (owner : Option τ)
  | sem (value : ℕ)
  deriving DecidableEq

namespace Lock

variable {τ : Type*} {l m : Lock τ}

def units : Lock τ → ℕ
  | .mutex none => 1
  | .mutex (some _) => 0
  | .sem value => value

/-- `PTHREAD_MUTEX_INITIALIZER`, or `sem_init` with 1. -/
def Fresh (l : Lock τ) : Prop := l = .mutex none ∨ l = .sem 1

/-- `pthread_mutex_lock` and `sem_wait` -/
def acquire (l : Lock τ) (t : τ) : Option (Lock τ) :=
  match l with
  | .mutex none => some (.mutex (some t))
  | .mutex (some _) => none
  | .sem 0 => none
  | .sem (value + 1) => some (.sem value)

/-- `pthread_mutex_unlock` and `sem_post` -/
def release : Lock τ → Lock τ
  | .mutex _ => .mutex none
  | .sem value => .sem (value + 1)

theorem Fresh.units_eq (h : l.Fresh) : l.units = 1 := by
  rcases h with rfl | rfl <;> rfl

theorem acquire_units {t : τ} (h : l.acquire t = some m) : l.units = m.units + 1 := by
  cases l with
  | mutex owner =>
    cases owner with
    | none =>
      cases h
      rfl
    | some u => cases h
  | sem value =>
    cases value with
    | zero => cases h
    | succ value =>
      cases h
      rfl

theorem release_units (h : l.units = 0) : l.release.units = 1 := by
  cases l with
  | mutex owner => rfl
  | sem value =>
    have hv : value = 0 := h
    rw [hv]
    rfl

end Lock

end LinuxApi
