import Mathlib.Data.List.Basic
import Mathlib.Algebra.Order.Ring.Nat

/-! Numbers in memory, lowest byte first. -/

namespace LinuxApi

/-- The lowest `n` bytes of a number. -/
def leBytes : ℕ → ℕ → List UInt8
  | 0, _ => []
  | n + 1, x => UInt8.ofNat x :: leBytes n (x / 256)

def leNat : List UInt8 → ℕ
  | [] => 0
  | b :: bs => b.toNat + 256 * leNat bs

@[simp] theorem length_leBytes (n x : ℕ) : (leBytes n x).length = n := by
  induction n generalizing x with
  | zero => rfl
  | succ n ih => rw [leBytes, List.length_cons, ih]

/-- The lowest bytes of the lowest bytes. -/
theorem take_leBytes {m n : ℕ} (h : m ≤ n) (x : ℕ) : (leBytes n x).take m = leBytes m x := by
  induction m generalizing n x with
  | zero => rfl
  | succ m ih =>
    cases n with
    | zero => cases h
    | succ n => rw [leBytes, leBytes, List.take_succ_cons, ih (Nat.le_of_succ_le_succ h)]

theorem leNat_leBytes (n x : ℕ) : leNat (leBytes n x) = x % 256 ^ n := by
  induction n generalizing x with
  | zero => rw [Nat.pow_zero, Nat.mod_one]; rfl
  | succ n ih =>
    rw [leBytes, leNat, ih, Nat.pow_succ', Nat.mod_mul]
    simp

/-- A number that fits is read back. -/
theorem leNat_leBytes_of_lt {n x : ℕ} (h : x < 256 ^ n) : leNat (leBytes n x) = x := by
  rw [leNat_leBytes, Nat.mod_eq_of_lt h]

end LinuxApi
