import LinuxApi.Kernel.Stream
import Mathlib.Data.List.TakeWhile

/-! What `%s` prints of a byte array: the bytes before the first zero. A chunk stored into an array
that is used again prints as itself only if what lies behind it happens to be a zero. -/

namespace LinuxApi

/-- The text of a C string. -/
def cText (bytes : List UInt8) : List UInt8 := bytes.takeWhile (· ≠ 0)

variable {l m : List UInt8}

theorem cText_cons_zero (l : List UInt8) : cText (0 :: l) = [] := rfl

theorem cText_cons_of_ne {a : UInt8} (h : a ≠ 0) (l : List UInt8) : cText (a :: l) = a :: cText l := by
  simp [cText, h]

theorem cText_eq_self : cText l = l ↔ 0 ∉ l := by
  simp only [cText, List.takeWhile_eq_self_iff, decide_eq_true_eq]
  constructor
  · intro h h0
    exact h 0 h0 rfl
  · rintro h a ha rfl
    exact h ha

theorem cText_eq_nil : cText l = [] ↔ ∀ a ∈ l.head?, a = 0 := by
  cases l with
  | nil => simp [cText]
  | cons a l =>
    by_cases ha : a = 0
    · simp [ha, cText_cons_zero]
    · simp [cText_cons_of_ne ha, ha]

/-- The text stops in front of a zero. -/
theorem length_cText_lt (h : 0 ∈ l) : (cText l).length < l.length := by
  have hle : cText l <+: l := List.takeWhile_prefix _
  refine Nat.lt_of_le_of_ne hle.length_le fun heq => ?_
  exact cText_eq_self.mp (hle.eq_of_length heq) h

/-- The first zero ends the text. -/
theorem cText_append_of_mem (h : 0 ∈ l) : cText (l ++ m) = cText l := by
  induction l with
  | nil => cases h
  | cons a l ih =>
    by_cases ha : a = 0
    · subst ha
      rfl
    · have hl : 0 ∈ l := (List.mem_cons.mp h).resolve_left (Ne.symm ha)
      rw [List.cons_append, cText_cons_of_ne ha, cText_cons_of_ne ha, ih hl]

/-- Without a zero the text runs into what follows. -/
theorem cText_append_of_notMem (h : 0 ∉ l) : cText (l ++ m) = l ++ cText m := by
  refine List.takeWhile_append_of_pos fun a ha => decide_eq_true ?_
  rintro rfl
  exact h ha

/-- The text is the whole chunk exactly if the chunk has no zero and is followed by one, or by nothing. -/
theorem cText_append_eq_left : cText (l ++ m) = l ↔ 0 ∉ l ∧ ∀ a ∈ m.head?, a = 0 := by
  by_cases hl : 0 ∈ l
  · have hne := mt cText_eq_self.mp (not_not.mpr hl)
    simp [cText_append_of_mem hl, hne, hl]
  · rw [cText_append_of_notMem hl, List.append_right_eq_self, cText_eq_nil]
    simp [hl]

/-- The text ends in the array and is `m` exactly if the array begins with `m` and a zero. -/
theorem cText_eq_iff_prefix (hm : 0 ∉ m) : cText l = m ∧ 0 ∈ l ↔ m ++ [0] <+: l := by
  constructor
  · rintro ⟨rfl, h0⟩
    induction l with
    | nil => cases h0
    | cons a l ih =>
      by_cases ha : a = 0
      · subst ha
        exact ⟨l, rfl⟩
      · have hl : 0 ∈ l := (List.mem_cons.mp h0).resolve_left (Ne.symm ha)
        rw [cText_cons_of_ne ha] at hm ⊢
        exact (List.cons_prefix_cons).mpr ⟨rfl, ih hl (List.not_mem_of_not_mem_cons hm)⟩
  · rintro ⟨rest, rfl⟩
    rw [List.append_assoc, cText_append_of_notMem hm]
    exact ⟨by simp [cText_cons_zero], by simp⟩

namespace Buffer

variable {size : ℕ}

/-- The first byte of what a chunk has left is the old one there. -/
theorem head?_drop (b : Buffer size) (n : ℕ) : (b.bytes.drop n).head? = b.bytes[n]? :=
  List.head?_drop

/-- The text of the array is that of the chunk, and ends in the array, exactly if the chunk has a
zero or the next byte was one before. -/
theorem cText_store_iff (b : Buffer size) (h : l.length ≤ size) :
    cText (b.store l).bytes = cText l ∧ 0 ∈ (b.store l).bytes ↔ 0 ∈ l ∨ b.bytes[l.length]? = some 0 := by
  rw [store_bytes b h, ← head?_drop]
  by_cases hl : 0 ∈ l
  · rw [cText_append_of_mem hl]
    simp [hl]
  · rw [cText_append_of_notMem hl, cText_eq_self.mpr hl, List.append_right_eq_self, cText_eq_nil]
    cases hrest : b.bytes.drop l.length with
    | nil => simp [hl]
    | cons a rest => simp +contextual [hl, eq_comm]

end Buffer

end LinuxApi
