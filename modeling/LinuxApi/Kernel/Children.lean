import Mathlib.Data.List.Perm.Basic
import Mathlib.Data.List.Nodup
import Mathlib.Data.List.Range

/-! The children of one process as the kernel keeps them: running, terminated but
not yet waited for, and reaped. Children are numbered in the order of their forks,
and every number is in exactly one of the three lists; the structure carries this,
so that nothing can be reaped twice. -/

namespace LinuxApi

/-- The first `forked` numbers, divided by what became of each child. -/
structure Children where
  forked : ℕ
  running : List ℕ
  zombies : List ℕ
  reaped : List ℕ
  perm : (running ++ (zombies ++ reaped)).Perm (List.range forked)

namespace Children

/-- No child yet. -/
def none : Children := ⟨0, [], [], [], .nil⟩

/-- `fork` -/
def fork (c : Children) : Children where
  forked := c.forked + 1
  running := c.forked :: c.running
  zombies := c.zombies
  reaped := c.reaped
  perm := by
    rw [List.range_succ]
    exact (c.perm.cons c.forked).trans (List.perm_append_singleton _ _).symm

/-- A running child terminates and becomes a zombie. -/
def terminate (c : Children) (pid : ℕ) (h : pid ∈ c.running) : Children where
  forked := c.forked
  running := c.running.erase pid
  zombies := pid :: c.zombies
  reaped := c.reaped
  perm := by
    refine List.Perm.trans ?_ c.perm
    rw [List.cons_append]
    exact List.perm_middle.trans ((List.perm_cons_erase h).symm.append_right _)

/-- `waitpid` returns a zombie. -/
def reap (c : Children) (pid : ℕ) (h : pid ∈ c.zombies) : Children where
  forked := c.forked
  running := c.running
  zombies := c.zombies.erase pid
  reaped := pid :: c.reaped
  perm := by
    refine List.Perm.trans (List.Perm.append_left _ ?_) c.perm
    exact List.perm_middle.trans ((List.perm_cons_erase h).symm.append_right _)

/-- Every child is running, a zombie or reaped. -/
theorem length_eq (c : Children) :
    c.running.length + c.zombies.length + c.reaped.length = c.forked := by
  have h := c.perm.length_eq
  simp only [List.length_append, List.length_range] at h
  omega

/-- When as many children are reaped as were forked, each was reaped exactly once. -/
theorem reaped_perm (c : Children) (h : c.forked ≤ c.reaped.length) :
    c.reaped.Perm (List.range c.forked) := by
  have hl := c.length_eq
  have hr : c.running = [] := List.length_eq_zero_iff.mp (by omega)
  have hz : c.zombies = [] := List.length_eq_zero_iff.mp (by omega)
  simpa [hr, hz] using c.perm

end Children

end LinuxApi
