import LinuxApi.Kernel.Numeral

/-! `getLong` and `getInt`, which turn a command-line argument into a number. They accept exactly the numerals
of the base the flags name that lie in the range, and report the first check that fails. -/

namespace LinuxApi.GetNum

open Numeral

/-- `GN_NONNEG` -/
def gnNonneg : ℕ := 0x1

/-- `GN_GT_0` -/
def gnGt0 : ℕ := 0x2

/-- `GN_ANY_BASE` -/
def gnAnyBase : ℕ := 0x40

/-- `GN_BASE_8` -/
def gnBase8 : ℕ := 0x80

/-- `GN_BASE_16` -/
def gnBase16 : ℕ := 0x100

def flag (flags mask : ℕ) : Bool := flags &&& mask != 0

/-- What `gnFail` prints before it ends the process. -/
def gnFail (fname msg : String) (arg : Option (List Char)) (name : Option String) : String :=
  fname ++ " error" ++
  (match name with
    | none => ""
    | some name => " (in " ++ name ++ ")") ++
  ": " ++ msg ++ "\n" ++
  match arg with
  | none | some [] => ""
  | some (c :: s) => "        offending text: " ++ String.ofList (c :: s) ++ "\n"

def baseOf (flags : ℕ) : ℕ :=
  if flag flags gnAnyBase then 0 else if flag flags gnBase8 then 8 else if flag flags gnBase16 then 16 else 10

/-- The result, or what is printed when the process ends. -/
def getNum (fname : String) (arg : Option (List Char)) (flags : ℕ) (name : Option String) :
    Except String ℤ :=
  match arg with
  | none | some [] => .error (gnFail fname "null or empty string" arg name)
  | some (c :: s) =>
    let res := strtol (baseOf flags) (c :: s)
    if res.erange then .error (gnFail fname "strtol() failed" arg name)
    else if !res.rest.isEmpty then .error (gnFail fname "nonnumeric characters" arg name)
    else if flag flags gnNonneg && decide (res.value < 0) then
      .error (gnFail fname "negative value not allowed" arg name)
    else if flag flags gnGt0 && decide (res.value ≤ 0) then
      .error (gnFail fname "value must be > 0" arg name)
    else .ok res.value

def getLong (arg : Option (List Char)) (flags : ℕ) (name : Option String) : Except String ℤ :=
  getNum "getLong" arg flags name

def intMax : ℤ := 2 ^ 31 - 1

def intMin : ℤ := -2 ^ 31

def getInt (arg : Option (List Char)) (flags : ℕ) (name : Option String) : Except String ℤ :=
  match getNum "getInt" arg flags name with
  | .error text => .error text
  | .ok res =>
    if res > intMax ∨ res < intMin then .error (gnFail "getInt" "integer out of range" arg name)
    else .ok res

/-! ### What is accepted -/

/-- The value meets the checks that the flags ask for. -/
def allowed (flags : ℕ) (n : ℤ) : Prop :=
  (flag flags gnNonneg = true → 0 ≤ n) ∧ (flag flags gnGt0 = true → 0 < n)

variable {fname : String} {arg : Option (List Char)} {flags : ℕ} {name : Option String} {s : List Char}
  {n : ℤ} {msg : String}

theorem baseOf_le (flags : ℕ) : baseOf flags ≤ 36 := by
  unfold baseOf
  split_ifs <;> decide

theorem denotes_ne_nil {base : ℕ} (h : Denotes base s n) : s ≠ [] := by
  cases h with
  | intro _ _ _ hds _ =>
    apply List.append_ne_nil_of_right_ne_nil
    apply List.append_ne_nil_of_right_ne_nil
    exact List.append_ne_nil_of_right_ne_nil _ hds

/-- Everything a nonempty argument can lead to, check by check. -/
theorem getNum_cons (c : Char) (s : List Char) :
    getNum fname (some (c :: s)) flags name =
      if (strtol (baseOf flags) (c :: s)).erange then
        .error (gnFail fname "strtol() failed" (some (c :: s)) name)
      else if !(strtol (baseOf flags) (c :: s)).rest.isEmpty then
        .error (gnFail fname "nonnumeric characters" (some (c :: s)) name)
      else if flag flags gnNonneg && decide ((strtol (baseOf flags) (c :: s)).value < 0) then
        .error (gnFail fname "negative value not allowed" (some (c :: s)) name)
      else if flag flags gnGt0 && decide ((strtol (baseOf flags) (c :: s)).value ≤ 0) then
        .error (gnFail fname "value must be > 0" (some (c :: s)) name)
      else .ok (strtol (baseOf flags) (c :: s)).value := rfl

/-- A numeral in range is judged by the flags alone. -/
theorem getNum_of_denotes (h : Denotes (baseOf flags) s n) (hfits : fitsLong n = true) :
    getNum fname (some s) flags name =
      if flag flags gnNonneg && decide (n < 0) then
        .error (gnFail fname "negative value not allowed" (some s) name)
      else if flag flags gnGt0 && decide (n ≤ 0) then .error (gnFail fname "value must be > 0" (some s) name)
      else .ok n := by
  obtain ⟨c, t, rfl⟩ := List.exists_cons_of_ne_nil (denotes_ne_nil h)
  rw [getNum_cons, strtol_of_denotes (baseOf_le flags) h, clamp_of_fits hfits]
  rfl

/-- What `strtol` makes of a text that is no numeral in range. -/
theorem strtol_of_not_denotes {base : ℕ} (hbase : base ≤ 36) (hs : s ≠ [])
    (h : ∀ n, Denotes base s n → fitsLong n = false) :
    ((strtol base s).erange = true ↔ ∃ t n, t <+: s ∧ Denotes base t n ∧ fitsLong n = false) ∧
      ((strtol base s).erange = true ∨ (strtol base s).rest ≠ []) := by
  have hback : (∃ t n, t <+: s ∧ Denotes base t n ∧ fitsLong n = false) → (strtol base s).erange = true := by
    rintro ⟨t, n, ⟨rest, rfl⟩, hden, hn⟩
    exact erange_of_denotes hbase hden hn rest
  rcases strtol_cases base s with hr | ⟨t, rest, n, ht, hden, hr⟩
  · refine ⟨⟨fun he => ?_, hback⟩, .inr ?_⟩
    · rw [hr] at he
      cases he
    · rw [hr]
      exact hs
  · refine ⟨⟨fun he => ?_, hback⟩, ?_⟩
    · rw [hr, clamp_erange] at he
      exact ⟨t, n, ⟨rest, ht.symm⟩, hden, he⟩
    · rw [hr, clamp_rest, clamp_erange]
      by_cases hrest : rest = []
      · left
        rw [hrest, List.append_nil] at ht
        exact h n (ht ▸ hden)
      · exact .inr hrest

/-- An argument is accepted, with the value `n`, exactly if it is a numeral for `n` in the base of the flags,
`n` fits a `long`, and `n` meets the checks of the flags. -/
theorem getNum_eq_ok_iff : getNum fname arg flags name = .ok n ↔
    ∃ s, arg = some s ∧ Denotes (baseOf flags) s n ∧ fitsLong n = true ∧ allowed flags n := by
  constructor
  · intro h
    rcases arg with _ | _ | ⟨c, s⟩
    · cases h
    · cases h
    · rw [getNum_cons] at h
      split_ifs at h with he hrest hneg hpos
      have hrest : (strtol (baseOf flags) (c :: s)).rest = [] := by simpa using hrest
      obtain rfl := Except.ok.inj h
      rcases strtol_cases (baseOf flags) (c :: s) with hr | ⟨t, rest, n, ht, hden, hr⟩
      · rw [hr] at hrest
        cases hrest
      · rw [hr, clamp_rest] at hrest
        rw [hrest, List.append_nil] at ht
        rw [hr, clamp_erange, Bool.not_eq_false] at he
        rw [hr, clamp_of_fits he] at hneg hpos ⊢
        refine ⟨c :: s, rfl, ht ▸ hden, he, fun hf => ?_, fun hf => ?_⟩
        · simpa [hf] using hneg
        · simpa [hf] using hpos
  · rintro ⟨s, rfl, hden, hfits, hnonneg, hpos⟩
    rw [getNum_of_denotes hden hfits, if_neg, if_neg]
    · simp only [Bool.and_eq_true, decide_eq_true_eq, not_and]
      intro hf
      have h := hpos hf
      omega
    · simp only [Bool.and_eq_true, decide_eq_true_eq, not_and]
      intro hf
      have h := hnonneg hf
      omega

/-! ### What is rejected -/

/-- The check that an argument fails first, by its message. The text behind a number that is too large is not
looked at. -/
inductive Rejected (flags : ℕ) : Option (List Char) → String → Prop
  | null : Rejected flags none "null or empty string"
  | empty : Rejected flags (some []) "null or empty string"
  | range {s t : List Char} {n : ℤ} (ht : t <+: s) (h : Denotes (baseOf flags) t n) (hn : fitsLong n = false) :
    Rejected flags (some s) "strtol() failed"
  | text {s : List Char} (hs : s ≠ []) (h : ∀ n, ¬ Denotes (baseOf flags) s n)
    (hn : ∀ t n, t <+: s → Denotes (baseOf flags) t n → fitsLong n = true) :
    Rejected flags (some s) "nonnumeric characters"
  | negative {s : List Char} {n : ℤ} (h : Denotes (baseOf flags) s n) (hfits : fitsLong n = true)
    (hf : flag flags gnNonneg = true) (hn : n < 0) : Rejected flags (some s) "negative value not allowed"
  | nonpositive {s : List Char} {n : ℤ} (h : Denotes (baseOf flags) s n) (hfits : fitsLong n = true)
    (hnonneg : flag flags gnNonneg = true → 0 ≤ n) (hf : flag flags gnGt0 = true) (hn : n ≤ 0) :
    Rejected flags (some s) "value must be > 0"

theorem getNum_of_rejected (h : Rejected flags arg msg) :
    getNum fname arg flags name = .error (gnFail fname msg arg name) := by
  cases h with
  | null | empty => rfl
  | @range s t n ht hden hn =>
    obtain ⟨rest, rfl⟩ := ht
    have herange := erange_of_denotes (baseOf_le flags) hden hn rest
    have hne := List.append_ne_nil_of_left_ne_nil (denotes_ne_nil hden) rest
    generalize t ++ rest = s at herange hne ⊢
    obtain ⟨c, s, rfl⟩ := List.exists_cons_of_ne_nil hne
    rw [getNum_cons, if_pos herange]
  | @text s hs hden hn =>
    obtain ⟨hrange, hor⟩ := strtol_of_not_denotes (baseOf_le flags) hs fun n h => absurd h (hden n)
    have herange : ¬ (strtol (baseOf flags) s).erange = true := by
      intro he
      obtain ⟨t, n, ht, hd, hfalse⟩ := hrange.mp he
      rw [hn t n ht hd] at hfalse
      cases hfalse
    have hrest := hor.resolve_left herange
    obtain ⟨c, s, rfl⟩ := List.exists_cons_of_ne_nil hs
    rw [getNum_cons, if_neg herange, if_pos]
    simpa using hrest
  | negative hden hfits hf hn =>
    rw [getNum_of_denotes hden hfits, if_pos]
    rw [hf, Bool.true_and, decide_eq_true hn]
  | @nonpositive s n hden hfits hnonneg hf hn =>
    rw [getNum_of_denotes hden hfits, if_neg, if_pos]
    · rw [hf, Bool.true_and, decide_eq_true hn]
    · rw [Bool.and_eq_true, decide_eq_true_eq]
      rintro ⟨hg, hlt⟩
      have h := hnonneg hg
      omega

theorem exists_rejected {text : String} (h : getNum fname arg flags name = .error text) :
    ∃ msg, Rejected flags arg msg ∧ text = gnFail fname msg arg name := by
  rcases arg with _ | _ | ⟨c, s⟩
  · exact ⟨_, .null, (Except.error.inj h).symm⟩
  · exact ⟨_, .empty, (Except.error.inj h).symm⟩
  · by_cases hden : ∃ n, Denotes (baseOf flags) (c :: s) n ∧ fitsLong n = true
    · obtain ⟨n, hden, hfits⟩ := hden
      rw [getNum_of_denotes hden hfits] at h
      split_ifs at h with hneg hpos
      · rw [Bool.and_eq_true, decide_eq_true_eq] at hneg
        exact ⟨_, .negative hden hfits hneg.1 hneg.2, (Except.error.inj h).symm⟩
      · rw [Bool.and_eq_true, decide_eq_true_eq] at hneg hpos
        refine ⟨_, .nonpositive hden hfits (fun hf => ?_) hpos.1 hpos.2, (Except.error.inj h).symm⟩
        exact not_lt.mp fun hn => hneg ⟨hf, hn⟩
    · have hfalse : ∀ n, Denotes (baseOf flags) (c :: s) n → fitsLong n = false :=
        fun n hd => Bool.eq_false_iff.mpr fun hn => hden ⟨n, hd, hn⟩
      obtain ⟨hrange, hor⟩ := strtol_of_not_denotes (baseOf_le flags) (List.cons_ne_nil c s) hfalse
      rw [getNum_cons] at h
      by_cases he : (strtol (baseOf flags) (c :: s)).erange = true
      · rw [if_pos he] at h
        obtain ⟨t, n, ht, hd, hn⟩ := hrange.mp he
        exact ⟨_, .range ht hd hn, (Except.error.inj h).symm⟩
      · have hrest := hor.resolve_left he
        rw [if_neg he, if_pos (by simpa using hrest)] at h
        have hfits : ∀ t n, t <+: c :: s → Denotes (baseOf flags) t n → fitsLong n = true := by
          intro t n ht hd
          by_contra hn
          exact he (hrange.mpr ⟨t, n, ht, hd, Bool.eq_false_iff.mpr hn⟩)
        refine ⟨_, .text (List.cons_ne_nil c s) (fun n hd => ?_) hfits, (Except.error.inj h).symm⟩
        have hself := hfits _ n (List.prefix_refl _) hd
        rw [hfalse n hd] at hself
        cases hself

/-- The process ends with the message of the first check that fails, and only then. -/
theorem getNum_eq_error_iff {text : String} : getNum fname arg flags name = .error text ↔
    ∃ msg, Rejected flags arg msg ∧ text = gnFail fname msg arg name := by
  constructor
  · exact exists_rejected
  · rintro ⟨msg, hrejected, rfl⟩
    exact getNum_of_rejected hrejected

/-! ### Printed numbers -/

/-- The conversion of `printf` that fits the base of the flags; where the base is open all three do. -/
inductive Printed (flags : ℕ) : List Char → ℤ → Prop
  | decimal (hbase : baseOf flags = 10 ∨ baseOf flags = 0) (n : ℤ) : Printed flags (decimal n) n
  | octal (hbase : baseOf flags = 8 ∨ baseOf flags = 0) (m : ℕ) : Printed flags (octal m) m
  | hexadecimal (hbase : baseOf flags = 16 ∨ baseOf flags = 0) (m : ℕ) : Printed flags (hexadecimal m) m

theorem Printed.denotes (h : Printed flags s n) : Denotes (baseOf flags) s n := by
  cases h with
  | decimal hbase n => exact denotes_decimal hbase n
  | octal hbase m => exact denotes_octal hbase m
  | hexadecimal hbase m => exact denotes_hexadecimal hbase m

/-- What is printed is read back: by `getLong` if it fits a `long`, by `getInt` if it fits an `int`, provided
the flags allow it. A `long` that fits no `int` makes `getInt` end the process. -/
theorem printed_is_read (h : Printed flags s n) (hflags : allowed flags n) (hfits : fitsLong n = true) :
    getLong (some s) flags name = .ok n ∧
      (intMin ≤ n ∧ n ≤ intMax → getInt (some s) flags name = .ok n) ∧
      (¬ (intMin ≤ n ∧ n ≤ intMax) →
        getInt (some s) flags name = .error (gnFail "getInt" "integer out of range" (some s) name)) := by
  have hread : ∀ fname, getNum fname (some s) flags name = .ok n := by
    intro fname
    rw [getNum_of_denotes h.denotes hfits, if_neg, if_neg]
    · rw [Bool.and_eq_true, decide_eq_true_eq]
      rintro ⟨hf, hn⟩
      have hpos := hflags.2 hf
      omega
    · rw [Bool.and_eq_true, decide_eq_true_eq]
      rintro ⟨hf, hn⟩
      have hnonneg := hflags.1 hf
      omega
  refine ⟨hread _, fun hint => ?_, fun hint => ?_⟩
  · unfold getInt
    rw [hread]
    exact if_neg (by omega)
  · unfold getInt
    rw [hread]
    exact if_pos (by omega)

/-- `0x1f` with an open base. -/
theorem printed_is_read_hexadecimal : getInt (some ['0', 'x', '1', 'f']) gnAnyBase none = .ok 31 := by
  have hprinted : Printed gnAnyBase (hexadecimal 31) 31 := .hexadecimal (.inr rfl) 31
  have hdigits : hexadecimal 31 = ['0', 'x', '1', 'f'] := by simp [hexadecimal, digits]
  rw [← hdigits]
  exact (printed_is_read hprinted ⟨nofun, nofun⟩ rfl).2.1 ⟨by decide, by decide⟩

end LinuxApi.GetNum
