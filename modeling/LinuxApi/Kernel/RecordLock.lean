import Mathlib.Data.Nat.Init
import Mathlib.Data.Int.Init

/-! Record locks of `fcntl`. A lock belongs to a process and covers a region of the file, which may run
to its end; locks of two processes conflict if they have a byte in common and one of them is a write
lock. -/

namespace LinuxApi

/-- `F_RDLCK` and `F_WRLCK` -/
inductive LockType where
  | rdlck | wrlck
  deriving DecidableEq

/-- The bytes from `first` to `last`; without `last` those to the end of the file. -/
structure Region where
  first : ℕ
  last : Option ℕ
  le : ∀ n ∈ last, first ≤ n
  deriving DecidableEq

namespace Region

def Contains (r : Region) (n : ℕ) : Prop := r.first ≤ n ∧ ∀ m ∈ r.last, n ≤ m

/-- Each begins before the other's end. -/
def overlaps (r q : Region) : Bool := q.last.all (r.first ≤ ·) && r.last.all (q.first ≤ ·)

/-- The region of `l_start` and `l_len` from the beginning of the file; `none` is `EINVAL`. -/
def ofFlock (start len : ℤ) : Option Region :=
  if h : 0 ≤ start ∧ 0 < len then
    some ⟨start.toNat, some (start + len - 1).toNat, by
      rintro n ⟨⟩
      omega⟩
  else if 0 ≤ start ∧ len = 0 then some ⟨start.toNat, none, by rintro n ⟨⟩⟩
  else if h : 0 ≤ start + len ∧ len < 0 then
    some ⟨(start + len).toNat, some (start - 1).toNat, by
      rintro n ⟨⟩
      omega⟩
  else none

theorem overlaps_iff {r q : Region} : r.overlaps q = true ↔ ∃ n, r.Contains n ∧ q.Contains n := by
  simp only [overlaps, Bool.and_eq_true, Option.all_eq_true, decide_eq_true_eq, Contains]
  constructor
  · rintro ⟨hq, hr⟩
    rcases Nat.le_total r.first q.first with h | h
    · exact ⟨q.first, ⟨h, hr⟩, Nat.le_refl _, q.le⟩
    · exact ⟨r.first, ⟨Nat.le_refl _, r.le⟩, h, hq⟩
  · rintro ⟨n, ⟨hr, hrn⟩, hq, hqn⟩
    exact ⟨fun m hm => Nat.le_trans hr (hqn m hm), fun m hm => Nat.le_trans hq (hrn m hm)⟩

end Region

/-- A lock of a process of any type of process identifiers. -/
structure RecordLock (π : Type*) where
  pid : π
  type : LockType
  region : Region
  deriving DecidableEq

namespace RecordLock

variable {π : Type*} [DecidableEq π]

def conflicts (l k : RecordLock π) : Bool :=
  l.pid ≠ k.pid && (l.type = .wrlck || k.type = .wrlck) && l.region.overlaps k.region

/-- Without a conflict two processes share a byte only for reading. -/
theorem rdlck_of_not_conflicts {l k : RecordLock π} (h : l.conflicts k = false) (hpid : l.pid ≠ k.pid)
    {n : ℕ} (hl : l.region.Contains n) (hk : k.region.Contains n) :
    l.type = .rdlck ∧ k.type = .rdlck := by
  have hoverlap := Region.overlaps_iff.mpr ⟨n, hl, hk⟩
  simp only [conflicts, hoverlap, hpid, ne_eq, not_false_eq_true, decide_true, Bool.true_and,
    Bool.and_true, Bool.or_eq_false_iff, decide_eq_false_iff_not] at h
  cases hl : l.type <;> cases hk : k.type <;> simp [hl, hk] at h ⊢

end RecordLock

end LinuxApi
