import Mathlib.Algebra.BigOperators.Group.Finset.Basic
import Mathlib.Algebra.BigOperators.Ring.Finset
import Mathlib.Algebra.Order.BigOperators.Group.Finset
import Mathlib.Data.Fintype.Card
import Mathlib.Logic.Function.Basic

/-! Counting over a finite family of parties, given by an index type or as a list. A
step of an interleaved system changes one member of the family, so the number of
members with a property changes by what that member loses and gains. -/

namespace LinuxApi

variable {ι α : Type*} [Fintype ι]

/-- How many members of a family satisfy `p`. -/
def countWhere (p : α → Bool) (f : ι → α) : ℕ := (Finset.univ.filter fun i => p (f i)).card

variable {p : α → Bool} {f : ι → α}

theorem countWhere_eq_zero (h : ∀ i, p (f i) = false) : countWhere p f = 0 := by
  simp [countWhere, h]

variable [DecidableEq ι]

/-- A sum over the family changes by what the replaced member loses and gains. -/
theorem sum_update_add (g : α → ℕ) (f : ι → α) (i : ι) (a : α) :
    (∑ j, g (Function.update f i a j)) + g (f i) = (∑ j, g (f j)) + g a := by
  have hrest : ∑ j ∈ Finset.univ.erase i, g (Function.update f i a j) =
      ∑ j ∈ Finset.univ.erase i, g (f j) :=
    Finset.sum_congr rfl fun j hj => by rw [Function.update_of_ne (Finset.ne_of_mem_erase hj)]
  have hold := Finset.add_sum_erase Finset.univ (fun j => g (f j)) (Finset.mem_univ i)
  have hnew := Finset.add_sum_erase Finset.univ (fun j => g (Function.update f i a j)) (Finset.mem_univ i)
  rw [Function.update_self, hrest] at hnew
  omega

/-- Replacing one member takes away its old share and adds its new one. -/
theorem countWhere_update (i : ι) (a : α) :
    countWhere p (Function.update f i a) + (p (f i)).toNat = countWhere p f + (p a).toNat := by
  have hsum : ∀ g : ι → α, countWhere p g = ∑ j, (p (g j)).toNat := by
    intro g
    rw [countWhere, Finset.card_filter]
    exact Finset.sum_congr rfl fun j _ => by cases p (g j) <;> rfl
  rw [hsum, hsum]
  exact sum_update_add (fun b => (p b).toNat) f i a

/-- A member that keeps the property or keeps lacking it leaves the count. -/
theorem countWhere_update_of_eq {i : ι} {a : α} (h : p a = p (f i)) :
    countWhere p (Function.update f i a) = countWhere p f := by
  have hu := countWhere_update (p := p) (f := f) i a
  rw [h] at hu
  omega

/-- The same for a family given as a list. -/
theorem countP_set_add {l : List α} {k : ℕ} {b : α} (hk : l[k]? = some b) (a : α) :
    (l.set k a).countP p + (p b).toNat = l.countP p + (p a).toNat := by
  obtain ⟨hlt, rfl⟩ := List.getElem?_eq_some_iff.mp hk
  have hle := List.boole_getElem_le_countP (p := p) hlt
  rw [List.countP_set hlt]
  cases hb : p l[k] <;> cases ha : p a <;> simp_all

/-- The same for a family given as a list, in any monoid. -/
theorem sum_map_set_add {M : Type*} [AddCommMonoid M] (f : α → M) {l : List α} {k : ℕ} {b : α}
    (hk : l[k]? = some b) (a : α) : ((l.set k a).map f).sum + f b = (l.map f).sum + f a := by
  induction l generalizing k with
  | nil => cases hk
  | cons c l ih =>
    cases k with
    | zero =>
      cases hk
      rw [List.set_cons_zero, List.map_cons, List.map_cons, List.sum_cons, List.sum_cons,
        add_right_comm, add_comm (f a), add_right_comm]
    | succ k =>
      rw [List.set_cons_succ, List.map_cons, List.map_cons, List.sum_cons, List.sum_cons, add_assoc,
        ih hk, add_assoc]

/-- Where at most one member has the property, two that have it are the same. -/
theorem eq_of_countP_le_one {l : List α} {i j : ℕ} {a b : α} (h : l.countP p ≤ 1)
    (hi : l[i]? = some a) (hj : l[j]? = some b) (ha : p a = true) (hb : p b = true) : i = j := by
  induction l generalizing i j with
  | nil => cases hi
  | cons c l ih =>
    rw [List.countP_cons] at h
    cases i with
    | zero =>
      cases j with
      | zero => rfl
      | succ j =>
        cases hi
        have hpos : 0 < l.countP p := List.countP_pos_iff.mpr ⟨b, List.mem_of_getElem? (i := j) hj, hb⟩
        rw [if_pos ha] at h
        omega
    | succ i =>
      cases j with
      | zero =>
        cases hj
        have hpos : 0 < l.countP p := List.countP_pos_iff.mpr ⟨a, List.mem_of_getElem? (i := i) hi, ha⟩
        rw [if_pos hb] at h
        omega
      | succ j => rw [ih (by omega) hi hj]

/-- A member of a changed family is the new one or an old one. -/
theorem getElem?_set_eq_some {l : List α} {k i : ℕ} {a b : α} (h : (l.set k a)[i]? = some b) :
    i = k ∧ b = a ∨ i ≠ k ∧ l[i]? = some b := by
  by_cases hik : i = k
  · subst hik
    rw [List.getElem?_set_self', Option.map_eq_map, Option.map_eq_some_iff] at h
    obtain ⟨-, -, rfl⟩ := h
    exact .inl ⟨rfl, rfl⟩
  · rw [List.getElem?_set_ne (Ne.symm hik)] at h
    exact .inr ⟨hik, h⟩

/-- What holds of every member is kept when the changed member keeps it. -/
theorem forall_getElem?_modify {Q : ℕ → α → Prop} {l : List α} {k : ℕ} {g : α → α}
    (h : ∀ i a, l[i]? = some a → Q i a) (hk : ∀ a, l[k]? = some a → Q k (g a)) :
    ∀ i a, (l.modify k g)[i]? = some a → Q i a := by
  intro i a hi
  rw [List.getElem?_modify, Option.map_eq_map, Option.map_eq_some_iff] at hi
  obtain ⟨b, hb, rfl⟩ := hi
  by_cases hki : k = i
  · subst hki
    rw [if_pos rfl]
    exact hk b hb
  · rw [if_neg hki]
    exact h i b hb

/-- What holds of every member holds of them and a new one. -/
theorem forall_getElem?_concat {Q : ℕ → α → Prop} {l : List α} {b : α}
    (h : ∀ i a, l[i]? = some a → Q i a) (hb : Q l.length b) :
    ∀ i a, (l ++ [b])[i]? = some a → Q i a := by
  intro i a hi
  rw [List.getElem?_append] at hi
  split_ifs at hi with hlt
  · exact h i a hi
  · rw [List.getElem?_singleton, Option.ite_none_right_eq_some, Option.some.injEq] at hi
    obtain ⟨hz, rfl⟩ := hi
    obtain rfl : i = l.length := by omega
    exact hb

end LinuxApi
