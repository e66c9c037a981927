import Mathlib.Order.Interval.Finset.Nat
import Mathlib.Order.Interval.Set.LinearOrder

/-! The pages of a process that are mapped, for any page size, and the calls that change them. Where the
kernel chooses an address the choice is an argument: it has to be free, or the call fails. -/

namespace LinuxApi.Pages

variable (size : ℕ)

/-- The pages that hold `len` bytes from an address on. -/
def range (addr len : ℕ) : Finset ℕ := .Ico (addr / size) ((addr + len + size - 1) / size)

/-- `none` is `MAP_FAILED`. -/
def mmap (m : Finset ℕ) (len : ℕ) (place : Option ℕ) : Option (ℕ × Finset ℕ) :=
  place.bind fun addr =>
    if 0 < len ∧ addr % size = 0 ∧ Disjoint m (range size addr len) then
      some (addr, m ∪ range size addr len)
    else none

/-- With `MREMAP_MAYMOVE`; a mapping that stays may grow into what was its own. -/
def mremap (m : Finset ℕ) (old oldLen newLen : ℕ) (place : Option ℕ) : Option (ℕ × Finset ℕ) :=
  place.bind fun addr =>
    if 0 < newLen ∧ addr % size = 0 ∧ range size old oldLen ⊆ m ∧
        (addr = old ∧ Disjoint (m \ range size old oldLen) (range size addr newLen) ∨
          Disjoint m (range size addr newLen)) then
      some (addr, m \ range size old oldLen ∪ range size addr newLen)
    else none

/-- Pages that are not mapped are no error for `munmap`. -/
def munmap (m : Finset ℕ) (addr len : ℕ) : Option (Finset ℕ) :=
  if 0 < len ∧ addr % size = 0 then some (m \ range size addr len) else none

/-- They are one for `mprotect`, `msync` and `madvise`. -/
def covers (m : Finset ℕ) (addr len : ℕ) : Bool := addr % size = 0 ∧ range size addr len ⊆ m

variable {size} {m m' : Finset ℕ} {place : Option ℕ} {addr len old oldLen newLen : ℕ}

theorem mmap_eq_some : mmap size m len place = some (addr, m') ↔
    place = some addr ∧ (0 < len ∧ addr % size = 0 ∧ Disjoint m (range size addr len)) ∧
      m' = m ∪ range size addr len := by
  simp only [mmap, Option.bind_eq_some_iff, Option.ite_none_right_eq_some, Option.some.injEq,
    Prod.mk.injEq]
  constructor
  · rintro ⟨a, rfl, hfree, rfl, rfl⟩
    exact ⟨rfl, hfree, rfl⟩
  · rintro ⟨rfl, hfree, rfl⟩
    exact ⟨addr, rfl, hfree, rfl, rfl⟩

/-- Wherever a mapping ends up, it does not meet the others. -/
theorem disjoint_of_mremap (h : mremap size m old oldLen newLen place = some (addr, m')) :
    place = some addr ∧ 0 < newLen ∧ addr % size = 0 ∧
      Disjoint (m \ range size old oldLen) (range size addr newLen) ∧
      m' = m \ range size old oldLen ∪ range size addr newLen := by
  simp only [mremap, Option.bind_eq_some_iff, Option.ite_none_right_eq_some, Option.some.injEq,
    Prod.mk.injEq] at h
  obtain ⟨a, rfl, ⟨hlen, halign, -, hfree⟩, rfl, rfl⟩ := h
  refine ⟨rfl, hlen, halign, ?_, rfl⟩
  rcases hfree with ⟨-, hfree⟩ | hfree
  · exact hfree
  · exact hfree.mono_left Finset.sdiff_subset

theorem munmap_eq_some : munmap size m addr len = some m' ↔
    (0 < len ∧ addr % size = 0) ∧ m' = m \ range size addr len := by
  rw [munmap, Option.ite_none_right_eq_some, Option.some.injEq, eq_comm (a := m')]

/-- A range that was added to a space, replaced by another and taken away again leaves the space alone
exactly if the other is a part of it. -/
theorem replace_sdiff_eq_iff {R R' : Finset ℕ} (hR : Disjoint m R) (hR' : Disjoint m R') :
    ((m ∪ R) \ R ∪ R') \ R = m ↔ R' ⊆ R := by
  rw [Finset.union_sdiff_cancel_right hR, Finset.union_sdiff_distrib, Finset.sdiff_eq_self_of_disjoint hR,
    Finset.union_eq_left]
  constructor
  · intro h
    rw [← Finset.sdiff_eq_empty_iff_subset, ← Finset.disjoint_self_iff_empty]
    exact (hR'.mono h Finset.sdiff_subset)
  · intro h
    rw [Finset.sdiff_eq_empty_iff_subset.mpr h]
    exact Finset.empty_subset m

theorem range_of_aligned (hsize : 0 < size) (halign : addr % size = 0) :
    range size addr len = .Ico (addr / size) (addr / size + (len + size - 1) / size) := by
  obtain ⟨a, rfl⟩ := Nat.dvd_of_mod_eq_zero halign
  have hend : size * a + len + size - 1 = size * a + (len + size - 1) := by omega
  rw [range, hend, Nat.mul_add_div hsize, Nat.mul_div_cancel_left a hsize]

/-- Aligned ranges are equal if they start at one address and take up as many pages. -/
theorem range_eq_iff (hsize : 0 < size) {addr' len' : ℕ} (halign : addr % size = 0)
    (halign' : addr' % size = 0) (hlen : 0 < len) :
    range size addr len = range size addr' len' ↔
      addr = addr' ∧ (len + size - 1) / size = (len' + size - 1) / size := by
  have hpages : 0 < (len + size - 1) / size := Nat.div_pos (by omega) hsize
  rw [range_of_aligned hsize halign, range_of_aligned hsize halign', ← Finset.coe_inj, Finset.coe_Ico,
    Finset.coe_Ico, Set.Ico_eq_Ico_iff (.inl (Nat.lt_add_of_pos_right hpages))]
  constructor
  · rintro ⟨hstart, hend⟩
    refine ⟨?_, Nat.add_left_cancel (hend.trans (by rw [hstart]))⟩
    rw [← Nat.div_add_mod addr size, ← Nat.div_add_mod addr' size, hstart, halign, halign']
  · rintro ⟨rfl, hcount⟩
    exact ⟨rfl, by rw [hcount]⟩

end LinuxApi.Pages
