import Mathlib.Data.List.Pairwise
import Mathlib.Tactic.Common

/-! A lock that is held in common or by one alone. Whoever asks for it in common waits for a holder alone,
whoever asks for it alone waits for every holder. That the holders of a lock may have it at the same time is part
of the lock. -/

namespace LinuxApi

inductive LockMode where
  | shared | exclusive
  deriving DecidableEq

/-- Two may have the lock at the same time. -/
def LockMode.compatible : LockMode → LockMode → Bool
  | .shared, .shared => true
  | _, _ => false

theorem LockMode.compatible_comm (m k : LockMode) : m.compatible k = k.compatible m := by
  cases m <;> cases k <;> rfl

structure SharedLock (π : Type*) where
  holders : List (π × LockMode)
  compatible : holders.Pairwise fun a b => a.2.compatible b.2 = true

namespace SharedLock

variable {π : Type*} {l k : SharedLock π} {i : π} {m : LockMode}

def free : SharedLock π := ⟨[], .nil⟩

/-- No holder is in the way. -/
def grants (l : SharedLock π) (m : LockMode) : Bool := l.holders.all fun h => m.compatible h.2

/-- One who holds nothing asks for the lock; `none` means that someone is in the way. -/
def acquire (l : SharedLock π) (i : π) (m : LockMode) : Option (SharedLock π) :=
  if h : l.grants m = true then
    some ⟨(i, m) :: l.holders, List.pairwise_cons.mpr ⟨List.all_eq_true.mp h, l.compatible⟩⟩
  else none

/-- What `i` holds is given back. -/
def release [DecidableEq π] (l : SharedLock π) (i : π) : SharedLock π :=
  ⟨l.holders.filter fun h => h.1 ≠ i, l.compatible.filter _⟩

theorem acquire_eq_some (h : l.acquire i m = some k) :
    l.grants m = true ∧ k.holders = (i, m) :: l.holders := by
  unfold acquire at h
  split_ifs at h with hg
  cases h
  exact ⟨hg, rfl⟩

theorem acquire_eq_none (h : l.acquire i m = none) : ∃ a ∈ l.holders, m.compatible a.2 = false := by
  unfold acquire at h
  split_ifs at h with hg
  simpa [grants] using hg

theorem compatible_of_grants (h : l.grants m = true) {a : π × LockMode} (ha : a ∈ l.holders) :
    m.compatible a.2 = true :=
  List.all_eq_true.mp h a ha

theorem mem_release [DecidableEq π] {a : π × LockMode} :
    a ∈ (l.release i).holders ↔ a ∈ l.holders ∧ a.1 ≠ i := by
  simp [release]

/-- Two different holders. -/
theorem compatible_of_ne {a b : π × LockMode} (ha : a ∈ l.holders) (hb : b ∈ l.holders) (hab : a.1 ≠ b.1) :
    a.2.compatible b.2 = true := by
  have hsymm : Std.Symm fun x y : π × LockMode => x.2.compatible y.2 = true := by
    constructor
    intro x y hxy
    rw [LockMode.compatible_comm]
    exact hxy
  apply l.compatible.forall ha hb
  intro h
  exact hab (congrArg Prod.fst h)

end SharedLock

end LinuxApi
