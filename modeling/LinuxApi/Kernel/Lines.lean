import Mathlib.Data.List.TakeWhile

/-! Lines and `fgets`, over any alphabet with a separator. A line keeps its separator, which the last one may
lack. A stream is read with `fgets` in as many calls as it has lines exactly if every line fits. -/

namespace LinuxApi.Lines

variable {α : Type*} [DecidableEq α] (sep : α)

/-- The lines of a text. -/
def lines : List α → List (List α)
  | [] => []
  | a :: s =>
    if a = sep then [a] :: lines s
    else
      match lines s with
      | [] => [[a]]
      | l :: ls => (a :: l) :: ls

/-- At most `n` elements, through the first separator, and what is left. -/
def gets : ℕ → List α → List α × List α
  | 0, s => ([], s)
  | _, [] => ([], [])
  | n + 1, a :: s => if a = sep then ([a], s) else (a :: (gets n s).1, (gets n s).2)

/-- The elements in front of the first separator, of the first `n`. -/
def body (n : ℕ) (s : List α) : List α := (s.take n).takeWhile (· ≠ sep)

/-- `fgets` with a buffer of `size`, which leaves one place for the terminator; `none` is `NULL`. -/
def fgets (size : ℕ) (s : List α) : Option (List α × List α) :=
  if (gets sep (size - 1) s).1 = [] then none else some (gets sep (size - 1) s)

variable {sep} {s : List α} {l : List α} {ls : List (List α)} {size : ℕ}

theorem lines_nil : lines sep [] = [] := rfl

theorem lines_cons_self (s : List α) : lines sep (sep :: s) = [sep] :: lines sep s := if_pos rfl

theorem lines_singleton {a : α} (ha : a ≠ sep) : lines sep [a] = [[a]] := if_neg ha

theorem lines_cons {a : α} (ha : a ≠ sep) (h : lines sep s = l :: ls) :
    lines sep (a :: s) = (a :: l) :: ls := by
  rw [lines, if_neg ha, h]

theorem lines_cons_ne_nil (a : α) (s : List α) : lines sep (a :: s) ≠ [] := by
  unfold lines
  split_ifs
  · exact List.cons_ne_nil _ _
  · split <;> exact List.cons_ne_nil _ _

/-- A text whose only separator ends it is one line. -/
theorem lines_append_self (h : sep ∉ s) : lines sep (s ++ [sep]) = [s ++ [sep]] := by
  induction s with
  | nil => exact lines_cons_self []
  | cons a s ih =>
    obtain ⟨ha, hs⟩ := not_or.mp (mt List.mem_cons.mpr h)
    exact lines_cons (Ne.symm ha) (ih hs)

variable (sep) in
/-- The elements of a text, one after the other, by the line they belong to. -/
theorem lines_induction {P : List α → Prop} (nil : P []) (separator : ∀ s, P s → P (sep :: s))
    (unfinished : ∀ a, a ≠ sep → P [a])
    (inside : ∀ a s l ls, a ≠ sep → lines sep s = l :: ls → P s → P (a :: s)) (s : List α) : P s := by
  induction s with
  | nil => exact nil
  | cons a s ih =>
    by_cases ha : a = sep
    · exact ha ▸ separator s ih
    · cases h : lines sep s with
      | nil =>
        cases s with
        | nil => exact unfinished a ha
        | cons b s => exact absurd h (lines_cons_ne_nil b s)
      | cons l ls => exact inside a s l ls ha h ih

/-- Every separator ends a line, and so does the end of the text. -/
theorem length_lines (s : List α) :
    (lines sep s).length = s.count sep + if s.getLast? = none ∨ s.getLast? = some sep then 0 else 1 := by
  induction s using lines_induction sep with
  | nil => rfl
  | separator s ih =>
    rw [lines_cons_self, List.length_cons, ih, List.count_cons_self]
    cases s with
    | nil => simp
    | cons b s => simp [Nat.add_right_comm]
  | unfinished a ha => simp [lines_singleton ha, ha]
  | inside a s l ls ha h ih =>
    rw [lines_cons ha h, List.length_cons, ← List.length_cons, ← h, ih, List.count_cons_of_ne ha]
    cases s with
    | nil => cases h
    | cons b s => simp

theorem gets_append (n : ℕ) (s : List α) : (gets sep n s).1 ++ (gets sep n s).2 = s := by
  induction n generalizing s with
  | zero => rfl
  | succ n ih =>
    cases s with
    | nil => rfl
    | cons a s =>
      unfold gets
      split_ifs
      · rfl
      · simp [ih]

theorem length_gets_le (n : ℕ) (s : List α) : (gets sep n s).1.length ≤ n := by
  induction n generalizing s with
  | zero => exact Nat.le_refl 0
  | succ n ih =>
    cases s with
    | nil => exact Nat.zero_le _
    | cons a s =>
      unfold gets
      split_ifs
      · simp
      · exact Nat.succ_le_succ (ih s)

theorem body_nil (n : ℕ) : body sep n [] = [] := by rw [body, List.take_nil, List.takeWhile_nil]

theorem body_cons_self (n : ℕ) (s : List α) : body sep n (sep :: s) = [] := by
  cases n with
  | zero => rfl
  | succ n => rw [body, List.take_succ_cons, List.takeWhile_cons_of_neg (by simp)]

theorem body_cons {a : α} (ha : a ≠ sep) (n : ℕ) (s : List α) :
    body sep (n + 1) (a :: s) = a :: body sep n s := by
  rw [body, List.take_succ_cons, List.takeWhile_cons_of_pos (by simpa using ha), body]

/-- What is read is the body, and the separator where one is among the first `n`. -/
theorem gets_eq_body (n : ℕ) (s : List α) :
    (gets sep n s).1 = if sep ∈ s.take n then body sep n s ++ [sep] else body sep n s := by
  induction n generalizing s with
  | zero => rfl
  | succ n ih =>
    cases s with
    | nil => rw [List.take_nil, if_neg List.not_mem_nil, body_nil]; rfl
    | cons a s =>
      by_cases ha : a = sep
      · subst ha
        rw [gets, if_pos rfl, List.take_succ_cons, if_pos List.mem_cons_self, body_cons_self]
        rfl
      · rw [gets, if_neg ha, ih, body_cons ha, List.take_succ_cons]
        simp only [List.mem_cons, Ne.symm ha, false_or]
        split_ifs <;> rfl

theorem notMem_body (n : ℕ) (s : List α) : sep ∉ body sep n s := by
  intro h
  have := List.mem_takeWhile_imp h
  simp at this

theorem mem_gets (n : ℕ) (s : List α) : sep ∈ (gets sep n s).1 ↔ sep ∈ s.take n := by
  rw [gets_eq_body]
  split_ifs with h
  · simp [h]
  · simp [h, notMem_body]

/-- A separator in reach ends the reading there. -/
theorem gets_of_append {n : ℕ} {before : List α} (hb : sep ∉ before) (hn : before.length < n)
    (rest : List α) : body sep n (before ++ sep :: rest) = before ∧
      (gets sep n (before ++ sep :: rest)).2 = rest := by
  induction before generalizing n with
  | nil =>
    obtain ⟨n, rfl⟩ := Nat.exists_eq_add_of_lt hn
    rw [List.nil_append, body_cons_self, gets, if_pos rfl]
    exact ⟨rfl, rfl⟩
  | cons a before ih =>
    obtain ⟨ha, hb⟩ := not_or.mp (mt List.mem_cons.mpr hb)
    cases n with
    | zero => cases hn
    | succ n =>
      obtain ⟨hbody, hrest⟩ := ih hb (Nat.lt_of_succ_lt_succ hn)
      rw [List.cons_append, body_cons (Ne.symm ha), gets, if_neg (Ne.symm ha)]
      exact ⟨by rw [hbody], hrest⟩

/-- Without one the reading goes as far as it can. -/
theorem gets_of_notMem {n : ℕ} (h : sep ∉ s.take n) :
    body sep n s = s.take n ∧ (gets sep n s).2 = s.drop n := by
  have hbody : body sep n s = s.take n := by
    rw [body, List.takeWhile_eq_self_iff]
    intro a ha
    exact decide_eq_true fun heq => h (heq ▸ ha)
  refine ⟨hbody, ?_⟩
  have happend : (gets sep n s).1 ++ (gets sep n s).2 = s := gets_append n s
  rw [gets_eq_body, if_neg h, hbody] at happend
  exact List.append_cancel_left (happend.trans (List.take_append_drop n s).symm)

/-- One call takes as much of the first line as fits. -/
theorem gets_of_lines (n : ℕ) (h : lines sep s = l :: ls) :
    (gets sep n s).1 = l.take n ∧
      lines sep (gets sep n s).2 = if n < l.length then l.drop n :: ls else ls := by
  induction s using lines_induction sep generalizing n l ls with
  | nil => cases h
  | separator s ih =>
    obtain ⟨rfl, rfl⟩ := List.cons.inj ((lines_cons_self s).symm.trans h)
    cases n with
    | zero => exact ⟨rfl, lines_cons_self s⟩
    | succ n => simp [gets]
  | unfinished a ha =>
    obtain ⟨rfl, rfl⟩ := List.cons.inj ((lines_singleton ha).symm.trans h)
    cases n with
    | zero => exact ⟨rfl, lines_singleton ha⟩
    | succ n => cases n <;> simp [gets, ha, lines_nil]
  | inside a s l' ls' ha h' ih =>
    obtain ⟨rfl, rfl⟩ := List.cons.inj ((lines_cons ha h').symm.trans h)
    cases n with
    | zero => exact ⟨rfl, lines_cons ha h'⟩
    | succ n =>
      obtain ⟨htake, hrest⟩ := ih n h'
      rw [gets, if_neg ha]
      simp [htake, hrest]

theorem ne_nil_of_lines (h : lines sep s = l :: ls) : l ≠ [] := by
  induction s using lines_induction sep with
  | nil => cases h
  | separator s =>
    obtain ⟨rfl, -⟩ := List.cons.inj ((lines_cons_self s).symm.trans h)
    exact List.cons_ne_nil _ _
  | unfinished a ha =>
    obtain ⟨rfl, -⟩ := List.cons.inj ((lines_singleton ha).symm.trans h)
    exact List.cons_ne_nil _ _
  | inside a s l' ls' ha h' =>
    obtain ⟨rfl, -⟩ := List.cons.inj ((lines_cons ha h').symm.trans h)
    exact List.cons_ne_nil _ _

theorem fgets_append {r : List α × List α} (h : fgets sep size s = some r) :
    r.1 ++ r.2 = s ∧ r.1 ≠ [] := by
  obtain ⟨hne, h⟩ := Option.ite_none_left_eq_some.mp h
  obtain rfl := Option.some.inj h
  exact ⟨gets_append _ s, hne⟩

theorem length_rest_lt {r : List α × List α} (h : fgets sep size s = some r) : r.2.length < s.length := by
  obtain ⟨happend, hne⟩ := fgets_append h
  rw [← happend, List.length_append]
  exact Nat.lt_add_of_pos_left (List.length_pos_iff.mpr hne)

theorem length_fgets_lt {r : List α × List α} (h : fgets sep size s = some r) : r.1.length < size := by
  obtain ⟨hne, h⟩ := Option.ite_none_left_eq_some.mp h
  obtain rfl := Option.some.inj h
  have hpos := List.length_pos_iff.mpr hne
  have hle : (gets sep (size - 1) s).1.length ≤ size - 1 := length_gets_le _ s
  exact Nat.lt_of_le_of_lt (length_gets_le _ s) (by omega)

/-- `NULL` means that nothing is left. -/
theorem eq_nil_of_fgets (hsize : 1 < size) (h : fgets sep size s = none) : s = [] := by
  have hgets : (gets sep (size - 1) s).1 = [] := by simpa [fgets] using h
  cases hlines : lines sep s with
  | nil =>
    cases s with
    | nil => rfl
    | cons a s => exact absurd hlines (lines_cons_ne_nil a s)
  | cons l ls =>
    rw [(gets_of_lines _ hlines).1, List.take_eq_nil_iff] at hgets
    exact absurd hgets (not_or.mpr ⟨by omega, ne_nil_of_lines hlines⟩)

theorem fgets_of_lines {r : List α × List α} (h : lines sep s = l :: ls)
    (hr : fgets sep size s = some r) :
    r.1 = l.take (size - 1) ∧ lines sep r.2 = if size - 1 < l.length then l.drop (size - 1) :: ls else ls := by
  obtain ⟨-, hr⟩ := Option.ite_none_left_eq_some.mp hr
  obtain rfl := Option.some.inj hr
  exact gets_of_lines _ h

variable (sep) in
/-- What the calls return, one after the other. -/
def reads (size : ℕ) (s : List α) : List (List α) :=
  match _h : fgets sep size s with
  | none => []
  | some r => r.1 :: reads size r.2
termination_by s.length
decreasing_by exact length_rest_lt _h

theorem reads_of_none (h : fgets sep size s = none) : reads sep size s = [] := by
  rw [reads]
  split
  · rfl
  · simp_all

theorem reads_of_some {r : List α × List α} (h : fgets sep size s = some r) :
    reads sep size s = r.1 :: reads sep size r.2 := by
  rw [reads]
  split
  · simp_all
  · simp_all

theorem flatten_reads (hsize : 1 < size) (s : List α) : (reads sep size s).flatten = s := by
  fun_induction reads sep size s with
  | case1 s h => exact (eq_nil_of_fgets hsize h).symm
  | case2 s r h ih => rw [List.flatten_cons, ih, (fgets_append h).1]

/-- There are as many calls as lines exactly if every line leaves room for the terminator, and more of
them otherwise. -/
theorem length_reads (hsize : 1 < size) (s : List α) :
    (lines sep s).length ≤ (reads sep size s).length ∧
      ((reads sep size s).length = (lines sep s).length ↔ ∀ l ∈ lines sep s, l.length < size) := by
  fun_induction reads sep size s with
  | case1 s h =>
    obtain rfl := eq_nil_of_fgets hsize h
    simp [lines_nil]
  | case2 s r h ih =>
    cases hlines : lines sep s with
    | nil =>
      obtain ⟨happend, hne⟩ := fgets_append h
      cases s with
      | nil => exact absurd (List.append_eq_nil_iff.mp happend).1 hne
      | cons a s => exact absurd hlines (lines_cons_ne_nil a s)
    | cons l ls =>
      have hrest := (fgets_of_lines hlines h).2
      by_cases hlong : size - 1 < l.length
      · rw [if_pos hlong] at hrest
        rw [hrest, List.length_cons] at ih
        refine ⟨?_, iff_of_false ?_ fun hall => ?_⟩
        · simp only [List.length_cons]
          omega
        · simp only [List.length_cons]
          omega
        · have := hall l (List.mem_cons_self)
          omega
      · rw [if_neg hlong] at hrest
        rw [hrest] at ih
        have hshort : l.length < size := by omega
        simp [ih, hshort]

end LinuxApi.Lines
