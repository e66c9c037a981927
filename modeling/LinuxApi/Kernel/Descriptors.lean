import Mathlib.Data.List.Basic
import Mathlib.Logic.Function.Basic

/-! The descriptor table of a process over any type of open files. `open` takes the lowest free
number, `dup2` the number it is told, and both stay below the soft limit. `close` does not look at
the limit, so a descriptor may be above one that was lowered later. -/

namespace LinuxApi

/-- `none` is a descriptor that is not open. -/
abbrev Descriptors (φ : Type*) := ℕ → Option φ

namespace Descriptors

variable {φ : Type*}

def close (t : Descriptors φ) (fd : ℕ) : Descriptors φ := Function.update t fd none

/-- Close the descriptors from 0 on, `n` of them. -/
def closeBelow (t : Descriptors φ) : ℕ → Descriptors φ
  | 0 => t
  | n + 1 => (t.closeBelow n).close n

/-- The lowest free descriptor below the limit. -/
def lowest (t : Descriptors φ) (limit : ℕ) : Option ℕ :=
  (List.range limit).find? fun fd => (t fd).isNone

/-- `open` of a file; the result is the descriptor. -/
def openFile (t : Descriptors φ) (limit : ℕ) (f : φ) : Option (ℕ × Descriptors φ) :=
  (t.lowest limit).map fun fd => (fd, Function.update t fd (some f))

/-- `dup`, which takes the lowest free descriptor too. -/
def dup (t : Descriptors φ) (limit old : ℕ) : Option (ℕ × Descriptors φ) :=
  (t old).bind fun f => t.openFile limit f

/-- `none` is `EBADF`: nothing to duplicate, or a number beyond the limit. -/
def dup2 (t : Descriptors φ) (limit old new : ℕ) : Option (Descriptors φ) :=
  if (t old).isSome ∧ new < limit then some (Function.update t new (t old)) else none

variable {t u : Descriptors φ} {limit : ℕ} {f : φ}

@[simp] theorem close_self (t : Descriptors φ) (fd : ℕ) : t.close fd fd = none := by
  rw [close, Function.update_self]

@[simp] theorem close_of_ne {fd x : ℕ} (h : x ≠ fd) : t.close fd x = t x := by
  rw [close, Function.update_of_ne h]

/-- The loop leaves exactly the descriptors at and above its bound. -/
theorem closeBelow_apply (t : Descriptors φ) (n x : ℕ) :
    t.closeBelow n x = if x < n then none else t x := by
  induction n with
  | zero => rfl
  | succ n ih =>
    by_cases hx : x = n
    · subst hx
      rw [closeBelow, close_self, if_pos (Nat.lt_succ_self x)]
    · have hlt : x < n + 1 ↔ x < n := by omega
      rw [closeBelow, close_of_ne hx, ih]
      simp only [hlt]

theorem lowest_eq_some {fd : ℕ} :
    t.lowest limit = some fd ↔ fd < limit ∧ t fd = none ∧ ∀ x < fd, t x ≠ none := by
  rw [lowest, List.find?_range_eq_some, List.mem_range]
  simp only [Option.isNone_iff_eq_none, Bool.not_eq_true', Option.isNone_eq_false_iff,
    Option.isSome_iff_ne_none]
  tauto

/-- With everything below `n` open, and `n` free, it is `n` that a new file gets, if the limit leaves it
anything at all. -/
theorem openFile_at {n : ℕ} (hopen : ∀ x < n, t x ≠ none) (hfree : t n = none) :
    t.openFile limit f = if n < limit then some (n, Function.update t n (some f)) else none := by
  unfold openFile
  split_ifs with hlimit
  · rw [lowest_eq_some.mpr ⟨hlimit, hfree, hopen⟩]
    rfl
  · have hnone : t.lowest limit = none := by
      by_contra hsome
      obtain ⟨fd, hfd⟩ := Option.ne_none_iff_exists'.mp hsome
      obtain ⟨hlt, hfd, -⟩ := lowest_eq_some.mp hfd
      exact hopen fd (by omega) hfd
    rw [hnone]
    rfl

/-- With 0 free `open` gives 0. -/
theorem openFile_of_zero (h : t 0 = none) :
    t.openFile limit f = if 0 < limit then some (0, Function.update t 0 (some f)) else none :=
  openFile_at (fun x hx => absurd hx (Nat.not_lt_zero x)) h

theorem dup_at {n old : ℕ} (hold : t old = some f) (hopen : ∀ x < n, t x ≠ none) (hfree : t n = none) :
    t.dup limit old = if n < limit then some (n, Function.update t n (some f)) else none := by
  rw [dup, hold]
  exact openFile_at hopen hfree

theorem openFile_eq_some {fd : ℕ} :
    t.openFile limit f = some (fd, u) ↔
      t.lowest limit = some fd ∧ u = Function.update t fd (some f) := by
  simp only [openFile, Option.map_eq_some_iff, Prod.mk.injEq]
  constructor
  · rintro ⟨x, hx, rfl, rfl⟩
    exact ⟨hx, rfl⟩
  · rintro ⟨h, rfl⟩
    exact ⟨fd, h, rfl, rfl⟩

/-- Whatever was done with a new descriptor, closing it restores the table. -/
theorem close_update_of_free {fd : ℕ} (h : t fd = none) (x : Option φ) :
    Descriptors.close (Function.update t fd x) fd = t := by
  rw [close, Function.update_idem, ← h, Function.update_eq_self]

theorem dup2_eq_some {old new : ℕ} :
    t.dup2 limit old new = some u ↔
      ((t old).isSome ∧ new < limit) ∧ u = Function.update t new (t old) := by
  rw [dup2, Option.ite_none_right_eq_some, Option.some.injEq, eq_comm (a := u)]

end Descriptors

end LinuxApi
