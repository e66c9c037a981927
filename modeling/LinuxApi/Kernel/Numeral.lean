import Mathlib.Data.Int.Order.Basic
import Mathlib.Data.List.TakeWhile
import Mathlib.Data.Nat.Digits.Lemmas
import Mathlib.Tactic.Common

/-! Integers in C text. A numeral is white space, a sign, a prefix that names the base, and digits, most
significant first. `strtol` reads the longest numeral at the front of a text and says what it denotes, cut
down to the range of a `long`. -/

namespace LinuxApi.Numeral

/-- `isspace` in the C locale. -/
def isSpace (c : Char) : Bool := c.toNat == 32 || 9 ≤ c.toNat && c.toNat ≤ 13

/-- The value of a digit or a letter; 36 for any other character. -/
def digitVal (c : Char) : ℕ :=
  if 48 ≤ c.toNat ∧ c.toNat ≤ 57 then c.toNat - 48
  else if 97 ≤ c.toNat ∧ c.toNat ≤ 122 then c.toNat - 87
  else if 65 ≤ c.toNat ∧ c.toNat ≤ 90 then c.toNat - 55
  else 36

def isDigit (b : ℕ) (c : Char) : Bool := digitVal c < b

/-- The value of digits in base `b`. -/
def value (b : ℕ) (ds : List Char) : ℕ := ds.foldl (fun n c => n * b + digitVal c) 0

def longMax : ℤ := 2 ^ 63 - 1

def longMin : ℤ := -2 ^ 63

def fitsLong (n : ℤ) : Bool := longMin ≤ n && n ≤ longMax

/-- Whether there is a minus sign, and what follows the sign. -/
def sign : List Char → Bool × List Char
  | '-' :: s => (true, s)
  | '+' :: s => (false, s)
  | s => (false, s)

/-- The base and the text of the digits. Base 0 is to be found from the prefix. -/
def radix (base : ℕ) : List Char → ℕ × List Char
  | '0' :: x :: d :: s =>
    if (x = 'x' ∨ x = 'X') ∧ (base = 0 ∨ base = 16) ∧ isDigit 16 d then (16, d :: s)
    else (if base = 0 then 8 else base, '0' :: x :: d :: s)
  | '0' :: s => (if base = 0 then 8 else base, '0' :: s)
  | s => (if base = 0 then 10 else base, s)

/-- What `strtol` returns, what `endptr` points to, and whether `errno` is `ERANGE`. -/
structure Result where
  value : ℤ
  rest : List Char
  erange : Bool
  deriving DecidableEq

def clamp (n : ℤ) (rest : List Char) : Result :=
  if longMax < n then ⟨longMax, rest, true⟩
  else if n < longMin then ⟨longMin, rest, true⟩
  else ⟨n, rest, false⟩

/-- Without digits nothing is read at all. -/
def strtol (base : ℕ) (s : List Char) : Result :=
  let t := sign (s.dropWhile isSpace)
  let u := radix base t.2
  let ds := u.2.takeWhile (isDigit u.1)
  if ds.isEmpty then ⟨0, s, false⟩
  else clamp (if t.1 then -(value u.1 ds : ℤ) else value u.1 ds) (u.2.dropWhile (isDigit u.1))

/-! ### Numerals -/

/-- The prefix `pre` in front of the digits `ds` selects the base `b`. -/
inductive Prefixed (base : ℕ) : (pre ds : List Char) → (b : ℕ) → Prop
  | given {ds : List Char} (h : base ≠ 0) : Prefixed base [] ds base
  | hex {x : Char} {ds : List Char} (hx : x = 'x' ∨ x = 'X') (h : base = 0 ∨ base = 16) :
    Prefixed base ['0', x] ds 16
  | octal {ds : List Char} (h : base = 0) : Prefixed base [] ('0' :: ds) 8
  | decimal {d : Char} {ds : List Char} (h : base = 0) (hd : d ≠ '0') : Prefixed base [] (d :: ds) 10

/-- An optional sign; whether it is a minus. -/
inductive Signed : List Char → Bool → Prop
  | none : Signed [] false
  | plus : Signed ['+'] false
  | minus : Signed ['-'] true

/-- The text `s` is a numeral for `n`. -/
inductive Denotes (base : ℕ) : List Char → ℤ → Prop
  | intro {space sgn pre ds : List Char} {neg : Bool} {b : ℕ} (hspace : ∀ c ∈ space, isSpace c = true)
    (hsign : Signed sgn neg) (hbasis : Prefixed base pre ds b) (hds : ds ≠ [])
    (hdigits : ∀ c ∈ ds, isDigit b c = true) :
    Denotes base (space ++ (sgn ++ (pre ++ ds))) (if neg then -(value b ds : ℤ) else value b ds)

variable {base b : ℕ} {s t u pre ds : List Char} {c d : Char} {n : ℤ} {neg : Bool}

theorem not_space_of_digit (h : isDigit 36 c = true) : isSpace c = false := by
  unfold isDigit digitVal at h
  have h := of_decide_eq_true h
  unfold isSpace
  have h32 : (c.toNat == 32) = false := by
    rw [beq_eq_false_iff_ne]
    split_ifs at h <;> omega
  have h13 : decide (c.toNat ≤ 13) = false := by
    apply decide_eq_false
    split_ifs at h <;> omega
  rw [h32, h13, Bool.and_false, Bool.false_or]

/-- A sign is no digit, whatever the base. -/
theorem ne_sign_of_digit (h : isDigit 36 c = true) : c ≠ '-' ∧ c ≠ '+' := by
  constructor <;> rintro rfl <;> exact absurd h (by decide)

theorem isDigit_mono (h : isDigit b c = true) {a : ℕ} (hba : b ≤ a) : isDigit a c = true := by
  have h := of_decide_eq_true h
  exact decide_eq_true (by omega)

/-- The first character of the digits with their prefix. -/
theorem Prefixed.head (h : Prefixed base pre ds b) (hb : b ≤ 36) (hds : ds ≠ [])
    (hdigits : ∀ c ∈ ds, isDigit b c = true) : ∃ d t, pre ++ ds = d :: t ∧ isDigit 36 d = true := by
  cases h with
  | hex => exact ⟨'0', _, rfl, by decide⟩
  | given =>
    obtain ⟨d, t, rfl⟩ := List.exists_cons_of_ne_nil hds
    exact ⟨d, t, rfl, isDigit_mono (hdigits d List.mem_cons_self) hb⟩
  | octal | decimal => exact ⟨_, _, rfl, isDigit_mono (hdigits _ List.mem_cons_self) hb⟩

theorem sign_cons (h : isDigit 36 c = true) (t : List Char) : sign (c :: t) = (false, c :: t) := by
  obtain ⟨hminus, hplus⟩ := ne_sign_of_digit h
  unfold sign
  split
  · rename_i heq
    exact absurd (List.cons.inj heq).1 hminus
  · rename_i heq
    exact absurd (List.cons.inj heq).1 hplus
  · rfl

/-- White space and the sign are skipped. -/
theorem sign_dropWhile {space sgn : List Char} (hspace : ∀ c ∈ space, isSpace c = true)
    (hsign : Signed sgn neg) (hc : isDigit 36 c = true) (t : List Char) :
    sign ((space ++ (sgn ++ c :: t)).dropWhile isSpace) = (neg, c :: t) := by
  rw [List.dropWhile_append_of_pos hspace]
  cases hsign with
  | none =>
    rw [List.nil_append, List.dropWhile_cons_of_neg (by rw [not_space_of_digit hc]; exact Bool.noConfusion)]
    exact sign_cons hc t
  | plus => rfl
  | minus => rfl

/-! ### The base -/

theorem radix_of_ne (hd : d ≠ '0') (s : List Char) :
    radix base (d :: s) = (if base = 0 then 10 else base, d :: s) := by
  unfold radix
  split
  · rename_i heq
    exact absurd (List.cons.inj heq).1 hd
  · rename_i heq
    exact absurd (List.cons.inj heq).1 hd
  · rfl

theorem radix_zero (hx : ∀ x ∈ s.head?, (x = 'x' ∨ x = 'X') → ¬ (base = 0 ∨ base = 16)) :
    radix base ('0' :: s) = (if base = 0 then 8 else base, '0' :: s) := by
  cases s with
  | nil => rfl
  | cons x s =>
    cases s with
    | nil => rfl
    | cons d s => exact if_neg fun h => hx x rfl h.1 h.2.1

theorem radix_hex {x : Char} (hx : x = 'x' ∨ x = 'X') (hbase : base = 0 ∨ base = 16)
    (hd : isDigit 16 d = true) (s : List Char) : radix base ('0' :: x :: d :: s) = (16, d :: s) :=
  if_pos ⟨hx, hbase, hd⟩

/-- No base that a prefix can change has `x` as a digit. -/
theorem ne_x_of_digit (h : isDigit 16 c = true) : ¬ (c = 'x' ∨ c = 'X') := by
  rintro (rfl | rfl) <;> exact absurd h (by decide)

/-- The prefix and the first digits decide the base, except that a single zero may belong to `0x`. -/
theorem radix_append (h : Prefixed base pre ds b) (hds : ds ≠ [])
    (hdigits : ∀ c ∈ ds, isDigit b c = true) (hu : ds = ['0'] → u = []) :
    radix base (pre ++ (ds ++ u)) = (b, ds ++ u) := by
  have hzero : ∀ rest, ds = '0' :: rest → b ≤ 16 → ∀ x ∈ (rest ++ u).head?, ¬ (x = 'x' ∨ x = 'X') := by
    rintro rest rfl hb x hx
    cases rest with
    | nil =>
      rw [hu rfl] at hx
      cases hx
    | cons c rest =>
      obtain rfl : c = x := Option.some.inj hx
      exact ne_x_of_digit (isDigit_mono (hdigits c (List.mem_cons_of_mem _ List.mem_cons_self)) hb)
  cases h with
  | given hbase =>
    obtain ⟨d, rest, rfl⟩ := List.exists_cons_of_ne_nil hds
    by_cases hd : d = '0'
    · subst hd
      refine (radix_zero fun x hx hX hor => ?_).trans (by rw [if_neg hbase]; rfl)
      rcases hor with h0 | h16
      · exact hbase h0
      · exact hzero rest rfl (Nat.le_of_eq h16) x hx hX
    · exact (radix_of_ne hd (rest ++ u)).trans (by rw [if_neg hbase]; rfl)
  | hex hx hbase =>
    obtain ⟨d, rest, rfl⟩ := List.exists_cons_of_ne_nil hds
    exact radix_hex hx hbase (hdigits d List.mem_cons_self) (rest ++ u)
  | octal hbase =>
    refine (radix_zero fun x hx hX _ => ?_).trans (by rw [if_pos hbase]; rfl)
    exact hzero _ rfl (by decide) x hx hX
  | decimal hbase hd => exact (radix_of_ne hd _).trans (by rw [if_pos hbase]; rfl)

/-- A text whose base is found has a prefix for it, if there is a digit. -/
theorem prefixed_of_radix (h : (radix base s).2 = d :: t) (hd : isDigit (radix base s).1 d = true) :
    ∃ pre, s = pre ++ d :: t ∧ ∀ rest, Prefixed base pre (d :: rest) (radix base s).1 := by
  have hplain : ∀ k, (radix base s).2 = s → (base ≠ 0 → (radix base s).1 = base) →
      (base = 0 → (radix base s).1 = k) → (∀ rest, base = 0 → Prefixed base [] (d :: rest) k) →
      ∃ pre, s = pre ++ d :: t ∧ ∀ rest, Prefixed base pre (d :: rest) (radix base s).1 := by
    intro k hs hne heq hk
    refine ⟨[], hs.symm.trans h, fun rest => ?_⟩
    by_cases hbase : base = 0
    · rw [heq hbase]
      exact hk rest hbase
    · rw [hne hbase]
      exact .given hbase
  cases s with
  | nil => cases h
  | cons c s =>
    by_cases hc : c = '0'
    · subst hc
      have hoctal : radix base ('0' :: s) = (if base = 0 then 8 else base, '0' :: s) →
          ∃ pre, '0' :: s = pre ++ d :: t ∧ ∀ rest, Prefixed base pre (d :: rest) (radix base ('0' :: s)).1 := by
        intro hradix
        have hd : '0' = d := (List.cons.inj ((congrArg Prod.snd hradix).symm.trans h)).1
        refine hplain 8 (congrArg Prod.snd hradix) (fun hne => ?_) (fun h0 => ?_) fun rest h0 => ?_
        · rw [hradix, if_neg hne]
        · rw [hradix, if_pos h0]
        · rw [← hd]
          exact .octal h0
      cases s with
      | nil => exact hoctal rfl
      | cons x s =>
        cases s with
        | nil => exact hoctal rfl
        | cons e s =>
          by_cases hhex : (x = 'x' ∨ x = 'X') ∧ (base = 0 ∨ base = 16) ∧ isDigit 16 e = true
          · have hradix : radix base ('0' :: x :: e :: s) = (16, e :: s) := if_pos hhex
            rw [hradix] at h ⊢
            refine ⟨['0', x], ?_, fun rest => .hex hhex.1 hhex.2.1⟩
            exact congrArg (fun l => '0' :: x :: l) h
          · exact hoctal (if_neg hhex)
    · have hradix : radix base (c :: s) = _ := radix_of_ne hc s
      have hd : c = d := (List.cons.inj ((congrArg Prod.snd hradix).symm.trans h)).1
      refine hplain 10 (congrArg Prod.snd hradix) (fun hne => ?_) (fun h0 => ?_) fun rest h0 => ?_
      · rw [hradix, if_neg hne]
      · rw [hradix, if_pos h0]
      · exact .decimal h0 (hd ▸ hc)

/-! ### `strtol` -/

theorem fitsLong_iff : fitsLong n = true ↔ longMin ≤ n ∧ n ≤ longMax := by
  simp [fitsLong]

theorem clamp_of_fits (h : fitsLong n = true) (rest : List Char) : clamp n rest = ⟨n, rest, false⟩ := by
  obtain ⟨hmin, hmax⟩ := fitsLong_iff.mp h
  rw [clamp, if_neg (by omega), if_neg (by omega)]

theorem clamp_rest (n : ℤ) (rest : List Char) : (clamp n rest).rest = rest := by
  unfold clamp
  split_ifs <;> rfl

theorem clamp_erange (n : ℤ) (rest : List Char) : (clamp n rest).erange = true ↔ fitsLong n = false := by
  rw [← Bool.not_eq_true, fitsLong_iff]
  unfold clamp
  split_ifs with hmax hmin
  · exact iff_of_true rfl (by omega)
  · exact iff_of_true rfl (by omega)
  · exact iff_of_false id (by omega)

theorem value_append (b : ℕ) (ds es : List Char) :
    value b (ds ++ es) = es.foldl (fun n c => n * b + digitVal c) (value b ds) :=
  List.foldl_append

/-- More digits make no smaller number. -/
theorem value_le_append (hb : 0 < b) (ds es : List Char) : value b ds ≤ value b (ds ++ es) := by
  rw [value_append]
  generalize value b ds = m
  induction es generalizing m with
  | nil => exact le_rfl
  | cons c es ih =>
    have hfirst : m ≤ m * b := Nat.le_mul_of_pos_right m hb
    have hrest := ih (m * b + digitVal c)
    rw [List.foldl_cons]
    omega

/-- `strtol` on the parts of a numeral and what follows them. -/
theorem strtol_append {space sgn : List Char} (hbase : base ≤ 36) (hspace : ∀ c ∈ space, isSpace c = true)
    (hsign : Signed sgn neg) (hbasis : Prefixed base pre ds b) (hds : ds ≠ [])
    (hdigits : ∀ c ∈ ds, isDigit b c = true) (hu : ds = ['0'] → u = []) :
    strtol base (space ++ (sgn ++ (pre ++ (ds ++ u)))) =
      clamp (if neg then -(value b (ds ++ u.takeWhile (isDigit b)) : ℤ)
        else value b (ds ++ u.takeWhile (isDigit b))) (u.dropWhile (isDigit b)) := by
  have hb : b ≤ 36 := by cases hbasis <;> omega
  obtain ⟨d, t, hhead, hd⟩ := hbasis.head hb hds hdigits
  have hradix := radix_append hbasis hds hdigits hu
  have hfirst : pre ++ (ds ++ u) = d :: (t ++ u) := by
    rw [← List.append_assoc, hhead]
    rfl
  have htake : (ds ++ u).takeWhile (isDigit b) = ds ++ u.takeWhile (isDigit b) :=
    List.takeWhile_append_of_pos hdigits
  have hdrop : (ds ++ u).dropWhile (isDigit b) = u.dropWhile (isDigit b) :=
    List.dropWhile_append_of_pos hdigits
  have hsome : (ds ++ u.takeWhile (isDigit b)).isEmpty = false := by
    rw [List.isEmpty_eq_false_iff]
    exact List.append_ne_nil_of_left_ne_nil hds _
  unfold strtol
  rw [hfirst, sign_dropWhile hspace hsign hd (t ++ u), ← hfirst]
  dsimp only
  rw [hradix]
  dsimp only
  rw [htake, hdrop, hsome]
  rfl

/-- A numeral is read to its end. -/
theorem strtol_of_denotes (hbase : base ≤ 36) (h : Denotes base s n) : strtol base s = clamp n [] := by
  cases h with
  | intro hspace hsign hbasis hds hdigits =>
    have happend := strtol_append hbase hspace hsign hbasis hds hdigits (u := []) fun _ => rfl
    simp only [List.append_nil, List.takeWhile_nil, List.dropWhile_nil] at happend
    exact happend

/-- The sign and the white space of a text. -/
theorem exists_signed (s : List Char) : ∃ space sgn, (∀ c ∈ space, isSpace c = true) ∧
    Signed sgn (sign (s.dropWhile isSpace)).1 ∧ s = space ++ (sgn ++ (sign (s.dropWhile isSpace)).2) := by
  have hsplit : s = s.takeWhile isSpace ++ s.dropWhile isSpace := List.takeWhile_append_dropWhile.symm
  have hspace : ∀ c ∈ s.takeWhile isSpace, isSpace c = true := fun c hc => List.mem_takeWhile_imp hc
  generalize s.dropWhile isSpace = t at hsplit
  generalize s.takeWhile isSpace = space at hsplit hspace
  subst hsplit
  unfold sign
  split
  · exact ⟨space, ['-'], hspace, .minus, rfl⟩
  · exact ⟨space, ['+'], hspace, .plus, rfl⟩
  · exact ⟨space, [], hspace, .none, rfl⟩

/-- Either nothing is read, or a numeral at the front of the text. -/
theorem strtol_cases (base : ℕ) (s : List Char) : strtol base s = ⟨0, s, false⟩ ∨
    ∃ t rest n, s = t ++ rest ∧ Denotes base t n ∧ strtol base s = clamp n rest := by
  obtain ⟨space, sgn, hspace, hsign, hs⟩ := exists_signed s
  unfold strtol
  generalize sign (s.dropWhile isSpace) = t at hsign hs
  dsimp only
  cases hds : (radix base t.2).2.takeWhile (isDigit (radix base t.2).1) with
  | nil => exact .inl rfl
  | cons d ds =>
    right
    set b := (radix base t.2).1 with hb
    have hdigits : ∀ c ∈ d :: ds, isDigit b c = true := fun c hc => List.mem_takeWhile_imp (hds ▸ hc)
    have hsplit : (radix base t.2).2 = d :: (ds ++ (radix base t.2).2.dropWhile (isDigit b)) := by
      rw [← List.cons_append, ← hds]
      exact List.takeWhile_append_dropWhile.symm
    obtain ⟨pre, hpre, hbasis⟩ := prefixed_of_radix hsplit (hdigits d List.mem_cons_self)
    refine ⟨space ++ (sgn ++ (pre ++ d :: ds)), (radix base t.2).2.dropWhile (isDigit b), _, ?_,
      .intro hspace hsign (hbasis ds) (List.cons_ne_nil d ds) hdigits, rfl⟩
    simp only [List.append_assoc, List.cons_append]
    exact hs.trans (congrArg (fun l => space ++ (sgn ++ l)) hpre)

/-- A numeral out of range at the front of a text is noticed, whatever follows it. -/
theorem erange_of_denotes (hbase : base ≤ 36) (h : Denotes base t n) (hn : fitsLong n = false)
    (rest : List Char) : (strtol base (t ++ rest)).erange = true := by
  cases h with
  | @intro space sgn pre ds neg b hspace hsign hbasis hds hdigits =>
    rw [← Bool.not_eq_true, fitsLong_iff] at hn
    have hbig : (longMax : ℤ) < value b ds := by
      unfold longMin longMax at *
      split_ifs at hn <;> omega
    have hb : 0 < b := by
      obtain ⟨d, ds, rfl⟩ := List.exists_cons_of_ne_nil hds
      have hd := of_decide_eq_true (hdigits d List.mem_cons_self)
      omega
    have hle := value_le_append hb ds (rest.takeWhile (isDigit b))
    have hzero : ds = ['0'] → rest = [] := by
      rintro rfl
      have hvalue : value b ['0'] = 0 := by
        show 0 * b + 0 = 0
        omega
      rw [hvalue] at hbig
      exact absurd hbig (by decide)
    have happend := strtol_append hbase hspace hsign hbasis hds hdigits hzero
    have htext : space ++ (sgn ++ (pre ++ ds)) ++ rest = space ++ (sgn ++ (pre ++ (ds ++ rest))) := by
      simp only [List.append_assoc]
    rw [htext, happend, clamp_erange, ← Bool.not_eq_true, fitsLong_iff]
    unfold longMin longMax at *
    cases neg <;> simp only [Bool.false_eq_true, if_true, if_false] at hn ⊢ <;> omega

/-! ### Printed numbers -/

/-- The digits of a number as `printf` writes them. -/
def digits (b n : ℕ) : List Char := if n = 0 then ['0'] else (Nat.digits b n).reverse.map Nat.digitChar

/-- `%ld` -/
def decimal (n : ℤ) : List Char := (if n < 0 then ['-'] else []) ++ digits 10 n.natAbs

/-- `%#lo` -/
def octal (n : ℕ) : List Char := if n = 0 then ['0'] else '0' :: digits 8 n

/-- `%#lx` -/
def hexadecimal (n : ℕ) : List Char := if n = 0 then ['0'] else '0' :: 'x' :: digits 16 n

theorem digitVal_digitChar : ∀ d < 16, digitVal (Nat.digitChar d) = d := by decide

theorem value_concat (b : ℕ) (ds : List Char) (c : Char) : value b (ds ++ [c]) = value b ds * b + digitVal c :=
  value_append b ds [c]

/-- Characters for digits below the base have the value of the digits. -/
theorem value_map_digitChar (hb : b ≤ 16) {l : List ℕ} (hl : ∀ d ∈ l, d < b) :
    value b (l.reverse.map Nat.digitChar) = Nat.ofDigits b l := by
  induction l with
  | nil => rfl
  | cons d l ih =>
    have hd := hl d List.mem_cons_self
    have hrest := ih fun e he => hl e (List.mem_cons_of_mem d he)
    rw [List.reverse_cons, List.map_append, List.map_singleton, value_concat, hrest,
      digitVal_digitChar d (by omega), Nat.ofDigits_cons, mul_comm, add_comm]

theorem value_digits (hb : 1 < b) (hb' : b ≤ 16) (m : ℕ) :
    value b (digits b m) = m ∧ digits b m ≠ [] ∧ ∀ c ∈ digits b m, isDigit b c = true := by
  unfold digits
  split_ifs with hm
  · subst hm
    refine ⟨?_, List.cons_ne_nil _ _, fun c hc => ?_⟩
    · show 0 * b + 0 = 0
      omega
    · rw [List.mem_singleton.mp hc]
      exact decide_eq_true (by show 0 < b; omega)
  · refine ⟨?_, ?_, fun c hc => ?_⟩
    · rw [value_map_digitChar hb' fun d hd => Nat.digits_lt_base hb hd]
      exact Nat.ofDigits_digits b m
    · rw [Ne, List.map_eq_nil_iff, List.reverse_eq_nil_iff]
      exact Nat.digits_ne_nil_iff_ne_zero.mpr hm
    · obtain ⟨d, hd, rfl⟩ := List.mem_map.mp hc
      have hlt := Nat.digits_lt_base hb (List.mem_reverse.mp hd)
      apply decide_eq_true
      rw [digitVal_digitChar d (by omega)]
      exact hlt

/-- The first digit of a positive number is not zero. -/
theorem digits_eq_cons (hb : 1 < b) (hb' : b ≤ 16) {m : ℕ} (hm : m ≠ 0) :
    ∃ d t, digits b m = d :: t ∧ d ≠ '0' := by
  have hne := (Nat.digits_ne_nil_iff_ne_zero (b := b)).mpr hm
  have hlast := Nat.getLast_digit_ne_zero b hm
  have hlt := Nat.digits_lt_base hb (List.getLast_mem hne)
  refine ⟨_, _, (if_neg hm).trans (by
    rw [← List.dropLast_append_getLast hne, List.reverse_append, List.reverse_singleton, List.map_append]
    rfl), fun h0 => hlast ?_⟩
  have hval := digitVal_digitChar _ (Nat.lt_of_lt_of_le hlt hb')
  rw [h0] at hval
  exact hval.symm

/-- Without white space. -/
theorem denotes_of_signed {sgn : List Char} (hsign : Signed sgn neg) (hbasis : Prefixed base pre ds b)
    (hds : ds ≠ []) (hdigits : ∀ c ∈ ds, isDigit b c = true) :
    Denotes base (sgn ++ (pre ++ ds)) (if neg then -(value b ds : ℤ) else value b ds) := by
  have hspace : ∀ c ∈ ([] : List Char), isSpace c = true := fun c hc => absurd hc List.not_mem_nil
  exact .intro hspace hsign hbasis hds hdigits

theorem Prefixed.of_eq (h : base = b) (hb : b ≠ 0) (ds : List Char) : Prefixed base [] ds b := by
  subst h
  exact .given hb

/-- A zero is a numeral in every base. -/
theorem denotes_zero : Denotes base ['0'] 0 := by
  have hdigits : ∀ b, b ≠ 0 → ∀ c ∈ ['0'], isDigit b c = true := by
    intro b hb c hc
    rw [List.mem_singleton.mp hc]
    exact decide_eq_true (by show 0 < b; omega)
  by_cases h0 : base = 0
  · exact denotes_of_signed .none (.octal h0) (List.cons_ne_nil _ _) (hdigits 8 (by decide))
  · have hzero := denotes_of_signed .none (.given h0) (List.cons_ne_nil '0' []) (hdigits base h0)
    have hvalue : value base ['0'] = 0 := by
      show 0 * base + 0 = 0
      omega
    rw [hvalue] at hzero
    exact hzero

/-- `%ld` prints a numeral for the number, also where the base is open. -/
theorem denotes_decimal (hbase : base = 10 ∨ base = 0) (n : ℤ) : Denotes base (decimal n) n := by
  by_cases hn : n = 0
  · subst hn
    exact denotes_zero
  · obtain ⟨hvalue, hne, hdigits⟩ := value_digits (b := 10) (by decide) (by decide) n.natAbs
    have hbasis : Prefixed base [] (digits 10 n.natAbs) 10 := by
      rcases hbase with hbase | hbase
      · exact .of_eq hbase (by decide) _
      · obtain ⟨d, t, hcons, hd⟩ := digits_eq_cons (b := 10) (by decide) (by decide) (Int.natAbs_ne_zero.mpr hn)
        rw [hcons]
        exact .decimal hbase hd
    unfold decimal
    split_ifs with hneg
    · have h := denotes_of_signed .minus hbasis hne hdigits
      rw [hvalue, if_pos rfl, show -(n.natAbs : ℤ) = n by omega] at h
      exact h
    · have h := denotes_of_signed .none hbasis hne hdigits
      rw [hvalue, if_neg Bool.false_ne_true, show (n.natAbs : ℤ) = n by omega] at h
      exact h

/-- `%#lx` prints a numeral for the number. -/
theorem denotes_hexadecimal (hbase : base = 16 ∨ base = 0) (m : ℕ) : Denotes base (hexadecimal m) m := by
  unfold hexadecimal
  split_ifs with hm
  · subst hm
    exact denotes_zero
  · obtain ⟨hvalue, hne, hdigits⟩ := value_digits (b := 16) (by decide) (by decide) m
    have h := denotes_of_signed .none (.hex (.inl rfl) hbase.symm) hne hdigits
    rw [hvalue] at h
    exact h

/-- `%#lo` prints a numeral for the number. -/
theorem denotes_octal (hbase : base = 8 ∨ base = 0) (m : ℕ) : Denotes base (octal m) m := by
  unfold octal
  split_ifs with hm
  · subst hm
    exact denotes_zero
  · obtain ⟨hvalue, -, hdigits⟩ := value_digits (b := 8) (by decide) (by decide) m
    have hall : ∀ c ∈ '0' :: digits 8 m, isDigit 8 c = true := by
      intro c hc
      rcases List.mem_cons.mp hc with rfl | hc
      · decide
      · exact hdigits c hc
    have hbasis : Prefixed base [] ('0' :: digits 8 m) 8 := by
      rcases hbase with hbase | hbase
      · exact .of_eq hbase (by decide) _
      · exact .octal hbase
    have h := denotes_of_signed .none hbasis (List.cons_ne_nil _ _) hall
    have hzero : value 8 ('0' :: digits 8 m) = value 8 (digits 8 m) := rfl
    rw [hzero, hvalue] at h
    exact h

end LinuxApi.Numeral
