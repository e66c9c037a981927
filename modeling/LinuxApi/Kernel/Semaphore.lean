import Mathlib.Logic.Function.Basic
import Mathlib.Data.Int.Order.Basic
import Mathlib.Tactic.Common

/-! System V semaphore sets. `semctl(SETVAL)` writes a value; one `semop` operation
on one semaphore either happens atomically or blocks. Of `sem_otime` only whether
it is still zero is kept: `semop` sets it, `SETVAL` leaves it unchanged. -/

namespace LinuxApi

/-- The values of a set by semaphore number, and whether `sem_otime` is nonzero. -/
structure SemSet where
  semval : ℕ → ℕ
  otime : Bool

namespace SemSet

/-- A set as `semget` creates it. -/
def new : SemSet := ⟨fun _ => 0, false⟩

/-- `semctl(semid, num, SETVAL, val)`. -/
def setval (S : SemSet) (num val : ℕ) : SemSet :=
  { S with semval := Function.update S.semval num val }

/-- One `sembuf` operation: `sem_op = 0` waits for zero, a negative one waits until
the value can be decreased by it. `none` means the caller blocks. -/
def semop (S : SemSet) (num : ℕ) (op : ℤ) : Option SemSet :=
  if op = 0 then
    if S.semval num = 0 then some { S with otime := true } else none
  else if 0 ≤ S.semval num + op then
    some ⟨Function.update S.semval num (S.semval num + op).toNat, true⟩
  else none

@[simp] theorem setval_semval_self (S : SemSet) (num val : ℕ) :
    (S.setval num val).semval num = val := by simp [setval]

@[simp] theorem setval_semval_of_ne (S : SemSet) {num m : ℕ} (val : ℕ) (h : m ≠ num) :
    (S.setval num val).semval m = S.semval m := by simp [setval, h]

/-- An acquire takes one unit. -/
theorem semop_acquire {S T : SemSet} {num : ℕ} (h : S.semop num (-1) = some T) :
    S.semval num = T.semval num + 1 ∧ (∀ m, m ≠ num → T.semval m = S.semval m) ∧ T.otime = true := by
  rw [semop, if_neg (by decide), Option.ite_none_right_eq_some,
    Option.some.injEq] at h
  obtain ⟨hle, rfl⟩ := h
  refine ⟨?_, fun m hm => by simp [hm], rfl⟩
  simp only [Function.update_self]
  omega

/-- A release gives one unit and never blocks. -/
theorem semop_release {S T : SemSet} {num : ℕ} (h : S.semop num 1 = some T) :
    T.semval num = S.semval num + 1 ∧ (∀ m, m ≠ num → T.semval m = S.semval m) ∧ T.otime = true := by
  rw [semop, if_neg (by decide), Option.ite_none_right_eq_some,
    Option.some.injEq] at h
  obtain ⟨-, rfl⟩ := h
  refine ⟨?_, fun m hm => by simp [hm], rfl⟩
  simp only [Function.update_self]
  omega

theorem exists_release (S : SemSet) (num : ℕ) : ∃ T, S.semop num 1 = some T := by
  rw [semop, if_neg (by decide), if_pos (by omega)]
  exact ⟨_, rfl⟩

/-- An acquire does not block if there is a unit. -/
theorem exists_acquire {S : SemSet} {num : ℕ} (h : S.semval num ≠ 0) :
    ∃ T, S.semop num (-1) = some T := by
  rw [semop, if_neg (by decide), if_pos (by omega)]
  exact ⟨_, rfl⟩

/-- A wait for zero changes no value. -/
theorem semop_wait_zero {S T : SemSet} {num : ℕ} (h : S.semop num 0 = some T) :
    S.semval num = 0 ∧ T.semval = S.semval ∧ T.otime = true := by
  rw [semop, if_pos rfl, Option.ite_none_right_eq_some,
    Option.some.injEq] at h
  obtain ⟨hz, rfl⟩ := h
  exact ⟨hz, rfl, rfl⟩

end SemSet

end LinuxApi
