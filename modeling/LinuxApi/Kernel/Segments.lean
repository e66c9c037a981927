import Mathlib.Data.List.Basic
import Mathlib.Order.Monotone.Basic
import Mathlib.Tactic.Common

/-! A stream cut into pieces. The same stream may be cut in two ways, once by the calls
that wrote it and once by the calls that read it; the pieces of both are compared by the
position of their first byte. -/

namespace LinuxApi

variable {α : Type*}

/-- The position in the stream where piece `k` begins. -/
def offset (l : List (List α)) (k : ℕ) : ℕ := (l.take k).flatten.length

theorem offset_cons (r : List α) (l : List (List α)) (k : ℕ) :
    offset (r :: l) (k + 1) = r.length + offset l k := by
  rw [offset, List.take_succ_cons, List.flatten_cons, List.length_append]
  rfl

theorem offset_succ {l : List (List α)} {k : ℕ} {r : List α} (h : l[k]? = some r) :
    offset l (k + 1) = offset l k + r.length := by
  rw [offset, List.take_add_one, h, List.flatten_append, List.length_append]
  simp [offset]

theorem offset_mono (l : List (List α)) : Monotone (offset l) := by
  refine monotone_nat_of_le_succ fun k => ?_
  rw [offset, offset, List.take_add_one, List.flatten_append, List.length_append]
  exact Nat.le_add_right _ _

theorem offset_of_length_le {l : List (List α)} {k : ℕ} (h : l.length ≤ k) :
    offset l k = l.flatten.length := by
  rw [offset, List.take_of_length_le h]

theorem offset_le (l : List (List α)) (k : ℕ) : offset l k ≤ l.flatten.length := by
  rcases Nat.le_total l.length k with h | h
  · exact (offset_of_length_le h).le
  · exact (offset_mono l h).trans (offset_of_length_le (Nat.le_refl _)).le

/-- Later pieces do not move the earlier ones. -/
theorem offset_append {l : List (List α)} {k : ℕ} (h : k ≤ l.length) (m : List (List α)) :
    offset (l ++ m) k = offset l k := by
  rw [offset, List.take_append_of_le_length h]
  rfl

/-- Pieces of whole multiples begin at multiples. -/
theorem dvd_offset {d : ℕ} {l : List (List α)} (h : ∀ r ∈ l, d ∣ r.length) (k : ℕ) :
    d ∣ offset l k := by
  induction k with
  | zero => exact Nat.dvd_zero d
  | succ k ih =>
    cases hk : l[k]? with
    | none =>
      have hlen := List.getElem?_eq_none_iff.mp hk
      rw [offset_of_length_le hlen] at ih
      rwa [offset_of_length_le (hlen.trans (Nat.le_succ k))]
    | some r =>
      rw [offset_succ hk]
      exact Nat.dvd_add ih (h r (List.mem_of_getElem? hk))

/-- Every position lies in one of the pieces. -/
theorem exists_piece {l : List (List α)} :
    ∀ {x : ℕ}, x < l.flatten.length → ∃ k r, l[k]? = some r ∧ offset l k ≤ x ∧
      x < offset l (k + 1) := by
  induction l with
  | nil => intro x h; cases h
  | cons r l ih =>
    intro x h
    rw [List.flatten_cons, List.length_append] at h
    by_cases hx : x < r.length
    · exact ⟨0, r, rfl, Nat.zero_le _, by rw [offset_cons]; exact hx⟩
    · obtain ⟨k, q, hq, hle, hlt⟩ := ih (x := x - r.length) (by omega)
      refine ⟨k + 1, q, hq, ?_, ?_⟩
      · rw [offset_cons]; omega
      · rw [offset_cons]; omega

/-- What lies before and behind a piece. -/
theorem flatten_eq {l : List (List α)} {k : ℕ} {r : List α} (h : l[k]? = some r) :
    l.flatten = (l.take k).flatten ++ (r ++ (l.drop (k + 1)).flatten) := by
  obtain ⟨hk, rfl⟩ := List.getElem?_eq_some_iff.mp h
  rw [← List.flatten_cons, ← List.drop_eq_getElem_cons hk, ← List.flatten_append,
    List.take_append_drop]

/-- A piece is read off the stream at its position. -/
theorem piece_eq {l : List (List α)} {k : ℕ} {r : List α} (rest : List α) (h : l[k]? = some r) :
    r = ((l.flatten ++ rest).drop (offset l k)).take r.length := by
  rw [flatten_eq h, List.append_assoc, offset, List.drop_left, List.append_assoc, List.take_left]

/-- Two cuts of one stream agree on pieces of one length at one position. -/
theorem piece_unique {l m : List (List α)} {j k : ℕ} {q r rest later : List α}
    (hq : l[j]? = some q) (hr : m[k]? = some r) (hs : l.flatten ++ rest = m.flatten ++ later)
    (ho : offset l j = offset m k) (hl : q.length = r.length) : q = r := by
  have hq := piece_eq rest hq
  have hr := piece_eq later hr
  rw [hs, ho, hl] at hq
  exact hq.trans hr.symm

/-! ### A cursor over the pieces -/

/-- A loop with the test `i < total` and the increment `sizeAt i`, for at most `n` tests: where it has
been, and where it ends. -/
def visits (sizeAt : ℕ → ℕ) (total : ℕ) : ℕ → ℕ → Option (List ℕ × ℕ)
  | 0, _ => none
  | n + 1, i =>
    if i < total then (visits sizeAt total n (i + sizeAt i)).map fun v => (i :: v.1, v.2)
    else some ([], i)

/-- The cursor does not go back. -/
theorem visits_le {sizeAt : ℕ → ℕ} {total n i : ℕ} {v : List ℕ × ℕ}
    (h : visits sizeAt total n i = some v) : i ≤ v.2 := by
  induction n generalizing i v with
  | zero => cases h
  | succ n ih =>
    rw [visits] at h
    split_ifs at h
    · obtain ⟨w, hw, rfl⟩ := Option.map_eq_some_iff.mp h
      have hle := ih hw
      exact (Nat.le_add_right i (sizeAt i)).trans hle
    · cases h
      exact Nat.le_refl _

/-- From the beginning of a piece on the cursor comes to the beginning of each later one. -/
theorem visits_offset {sizeAt : ℕ → ℕ} {l : List (List α)} (hne : ∀ r ∈ l, r ≠ [])
    (hsize : ∀ k r, l[k]? = some r → sizeAt (offset l k) = r.length) {k m : ℕ} (hk : k + m = l.length)
    (extra : ℕ) :
    visits sizeAt l.flatten.length (m + 1 + extra) (offset l k) =
      some ((List.range' k m).map (offset l), l.flatten.length) := by
  induction m generalizing k with
  | zero =>
    have hend : offset l k = l.flatten.length := offset_of_length_le (by omega)
    rw [show 0 + 1 + extra = extra + 1 by omega, visits, hend, if_neg (Nat.lt_irrefl _)]
    rfl
  | succ m ih =>
    obtain ⟨r, hr⟩ : ∃ r, l[k]? = some r := ⟨_, List.getElem?_eq_getElem (by omega)⟩
    have hpos : 0 < r.length := List.length_pos_iff.mpr (hne r (List.mem_of_getElem? hr))
    have hnext := offset_succ hr
    have hle := offset_le l (k + 1)
    rw [show m + 1 + 1 + extra = m + 1 + extra + 1 by omega, visits, if_pos (by omega), hsize k r hr,
      ← hnext, ih (by omega), List.range'_succ]
    rfl

/-- The cursor comes to each piece once, in order, and ends behind the last one. -/
theorem visits_eq {sizeAt : ℕ → ℕ} {l : List (List α)} (hne : ∀ r ∈ l, r ≠ [])
    (hsize : ∀ k r, l[k]? = some r → sizeAt (offset l k) = r.length) (extra : ℕ) :
    visits sizeAt l.flatten.length (l.length + 1 + extra) 0 =
      some ((List.range l.length).map (offset l), l.flatten.length) := by
  rw [List.range_eq_range']
  exact visits_offset hne hsize (Nat.zero_add _) extra

end LinuxApi
