import Mathlib.Data.Finset.Basic
import Mathlib.Logic.Function.Basic

/-! The heap of a process, as `malloc` and `free` see it, and a family of owners that hold its blocks. A
`free` of something that is not allocated is a fault. While every block has one owner, which frees it when
it has done with it, there is no fault, and what is left on the heap is what the owners still hold. -/

namespace LinuxApi

/-- `live` are the allocated blocks, `next` the one that `malloc` gives next, and `faults` counts the calls
of `free` for what is not allocated. -/
structure Heap where
  live : Finset ℕ
  next : ℕ
  faults : ℕ
  fresh : ∀ b ∈ live, b < next

namespace Heap

def empty : Heap := ⟨∅, 0, 0, fun _ hb => absurd hb (Finset.notMem_empty _)⟩

/-- `malloc`, which returns `NULL` when it fails. -/
def malloc (h : Heap) (ok : Bool) : Option ℕ × Heap :=
  if ok then
    (some h.next, ⟨insert h.next h.live, h.next + 1, h.faults, fun b hb => by
      rcases Finset.mem_insert.mp hb with rfl | hb
      · exact Nat.lt_succ_self _
      · exact Nat.lt_succ_of_lt (h.fresh b hb)⟩)
  else (none, h)

/-- `free`, which does nothing with `NULL`. -/
def free (h : Heap) : Option ℕ → Heap
  | none => h
  | some b =>
    if b ∈ h.live then
      ⟨h.live.erase b, h.next, h.faults, fun c hc => h.fresh c (Finset.mem_of_mem_erase hc)⟩
    else ⟨h.live, h.next, h.faults + 1, h.fresh⟩

/-- Every block is held by one owner, and nothing was freed that was not allocated. -/
structure OwnedBy {ι : Type*} (h : Heap) (held : ι → Option ℕ) : Prop where
  live : ∀ b, b ∈ h.live ↔ ∃ i, held i = some b
  alone : ∀ i j b, held i = some b → held j = some b → i = j
  sound : h.faults = 0

variable {ι : Type*} {h : Heap} {held : ι → Option ℕ}

theorem ownedBy_empty : empty.OwnedBy (fun _ : ι => none) where
  live b := by simp [empty]
  alone _ _ _ hi := by cases hi
  sound := rfl

namespace OwnedBy

theorem lt_next (ho : h.OwnedBy held) {i : ι} {b : ℕ} (hi : held i = some b) : b < h.next :=
  h.fresh b ((ho.live b).mpr ⟨i, hi⟩)

variable [DecidableEq ι]

/-- An owner that holds nothing may take what `malloc` returns. -/
theorem malloc (ho : h.OwnedBy held) {i : ι} (hi : held i = none) (ok : Bool) :
    (h.malloc ok).2.OwnedBy (Function.update held i (h.malloc ok).1) := by
  cases ok with
  | false =>
    show h.OwnedBy (Function.update held i none)
    rwa [← hi, Function.update_eq_self]
  | true =>
    have hother : ∀ j b, j ≠ i → Function.update held i (some h.next) j = some b → b < h.next := by
      intro j b hj hb
      rw [Function.update_of_ne hj] at hb
      exact ho.lt_next hb
    refine ⟨fun b => ?_, fun j k b hj hk => ?_, ho.sound⟩
    · show b ∈ insert h.next h.live ↔ ∃ j, Function.update held i (some h.next) j = some b
      rw [Finset.mem_insert, ho.live]
      constructor
      · rintro (rfl | ⟨j, hj⟩)
        · exact ⟨i, Function.update_self ..⟩
        · have hji : j ≠ i := by
            rintro rfl
            rw [hi] at hj
            cases hj
          exact ⟨j, by rwa [Function.update_of_ne hji]⟩
      · rintro ⟨j, hj⟩
        by_cases hji : j = i
        · subst hji
          rw [Function.update_self, Option.some.injEq] at hj
          exact .inl hj.symm
        · rw [Function.update_of_ne hji] at hj
          exact .inr ⟨j, hj⟩
    · have hj : Function.update held i (some h.next) j = some b := hj
      have hk : Function.update held i (some h.next) k = some b := hk
      by_cases hji : j = i
      · subst hji
        rw [Function.update_self, Option.some.injEq] at hj
        by_contra hkj
        have hlt := hother k b (Ne.symm hkj) hk
        omega
      · by_cases hki : k = i
        · subst hki
          rw [Function.update_self, Option.some.injEq] at hk
          have hlt := hother j b hji hj
          omega
        · rw [Function.update_of_ne hji] at hj
          rw [Function.update_of_ne hki] at hk
          exact ho.alone j k b hj hk

/-- An owner frees what it holds, and has done with it. -/
theorem free (ho : h.OwnedBy held) (i : ι) : (h.free (held i)).OwnedBy (Function.update held i none) := by
  cases hi : held i with
  | none =>
    show h.OwnedBy (Function.update held i none)
    rwa [← hi, Function.update_eq_self]
  | some b =>
    have hb : b ∈ h.live := (ho.live b).mpr ⟨i, hi⟩
    rw [Heap.free, if_pos hb]
    refine ⟨fun d => ?_, fun j k d hj hk => ?_, ho.sound⟩
    · show d ∈ h.live.erase b ↔ ∃ j, Function.update held i none j = some d
      rw [Finset.mem_erase, ho.live]
      constructor
      · rintro ⟨hdb, j, hj⟩
        have hji : j ≠ i := by
          rintro rfl
          rw [hi, Option.some.injEq] at hj
          exact hdb hj.symm
        exact ⟨j, by rwa [Function.update_of_ne hji]⟩
      · rintro ⟨j, hj⟩
        have hji : j ≠ i := by
          rintro rfl
          rw [Function.update_self] at hj
          cases hj
        rw [Function.update_of_ne hji] at hj
        refine ⟨?_, j, hj⟩
        rintro rfl
        exact hji (ho.alone j i d hj hi)
    · have hne : ∀ {j}, Function.update held i none j = some d → held j = some d := by
        intro j hj
        by_cases hji : j = i
        · subst hji
          rw [Function.update_self] at hj
          cases hj
        · rwa [Function.update_of_ne hji] at hj
      exact ho.alone j k d (hne hj) (hne hk)

omit [DecidableEq ι] in
/-- When nobody holds anything, nothing is left. -/
theorem live_eq_empty (ho : h.OwnedBy held) (hn : ∀ i, held i = none) : h.live = ∅ := by
  refine Finset.eq_empty_of_forall_notMem fun b hb => ?_
  obtain ⟨i, hi⟩ := (ho.live b).mp hb
  rw [hn i] at hi
  cases hi

end OwnedBy

end Heap

end LinuxApi
