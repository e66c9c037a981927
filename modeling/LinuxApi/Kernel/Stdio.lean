import Mathlib.Data.List.TakeDrop
import Mathlib.Data.List.TakeWhile
import Mathlib.Tactic.Common

/-! Texts that are formatted into buffers, and output through stdio. `snprintf` cuts what does not fit, and what
reads the buffer stops at a zero. Standard output waits in a buffer, of which any part may be written at any
`printf`; standard error is written at once; and both go to the same file. -/

namespace LinuxApi.Stdio

/-- The character that ends a string. -/
def nul : Char := Char.ofNat 0

/-- What is read of a buffer as a string. -/
def cString (l : List Char) : List Char := l.takeWhile (· ≠ nul)

/-- The string that `snprintf` leaves in a buffer of `size` characters. -/
def snprintf (size : ℕ) (text : List Char) : List Char := cString (text.take (size - 1))

variable {size n : ℕ} {l m : List Char}

theorem cString_of_notMem (h : nul ∉ l) : cString l = l := by
  rw [cString, List.takeWhile_eq_self_iff]
  intro c hc
  rw [decide_eq_true_eq]
  rintro rfl
  exact h hc

theorem nul_notMem_cString (l : List Char) : nul ∉ cString l := by
  intro h
  have hne := List.mem_takeWhile_imp h
  rw [decide_eq_true_eq] at hne
  exact hne rfl

theorem cString_take (n : ℕ) (l : List Char) : cString (l.take n) = (cString l).take n := by
  induction l generalizing n with
  | nil => rw [List.take_nil, cString, List.takeWhile_nil, List.take_nil]
  | cons c l ih =>
    cases n with
    | zero => rfl
    | succ n =>
      rw [List.take_succ_cons, cString, cString, List.takeWhile_cons, List.takeWhile_cons]
      split_ifs with hc
      · rw [List.take_succ_cons]
        exact congrArg (c :: ·) (ih n)
      · rfl

theorem snprintf_eq (size : ℕ) (text : List Char) : snprintf size text = (cString text).take (size - 1) :=
  cString_take (size - 1) text

/-- A text that is cut in the end may as well have parts that are cut to the same length before. -/
theorem take_append_take (l m k : List Char) (n : ℕ) : (l ++ (m.take n ++ k)).take n = (l ++ (m ++ k)).take n := by
  by_cases hm : m.length ≤ n
  · rw [List.take_of_length_le hm]
  · have hlength : (m.take n).length = n := by
      rw [List.length_take]
      omega
    have hleft : ∀ j : List Char, (l ++ (m.take n ++ j)).take n = (l ++ m.take n).take n := by
      intro j
      rw [← List.append_assoc, List.take_append_of_le_length]
      rw [List.length_append]
      omega
    have hwhole : l ++ (m ++ k) = l ++ (m.take n ++ (m.drop n ++ k)) := by
      rw [← List.append_assoc (m.take n), List.take_append_drop]
    rw [hleft k, hwhole, hleft (m.drop n ++ k)]

/-- The file, and what of standard output still waits in its buffer. -/
structure Output where
  file : List Char
  buffer : List Char

namespace Output

/-- All that has been printed. -/
def text (o : Output) : List Char := o.file ++ o.buffer

/-- Text for standard output, after which the first `k` characters of the buffer are written. -/
def puts (o : Output) (k : ℕ) (text : List Char) : Output :=
  ⟨o.file ++ (o.buffer ++ text).take k, (o.buffer ++ text).drop k⟩

/-- `fflush(stdout)` -/
def flush (o : Output) : Output := ⟨o.file ++ o.buffer, []⟩

/-- Text for standard error. -/
def putsErr (o : Output) (text : List Char) : Output := { o with file := o.file ++ text }

@[simp] theorem text_puts (o : Output) (k : ℕ) (text : List Char) : (o.puts k text).text = o.text ++ text := by
  simp [Output.text, puts, List.append_assoc]

@[simp] theorem file_flush (o : Output) : o.flush.file = o.text := rfl

@[simp] theorem buffer_flush (o : Output) : o.flush.buffer = [] := rfl

@[simp] theorem file_putsErr (o : Output) (text : List Char) : (o.putsErr text).file = o.file ++ text := rfl

@[simp] theorem buffer_putsErr (o : Output) (text : List Char) : (o.putsErr text).buffer = o.buffer := rfl

theorem putsErr_putsErr (o : Output) (l m : List Char) : (o.putsErr l).putsErr m = o.putsErr (l ++ m) := by
  simp [putsErr, List.append_assoc]

/-- What has been flushed stays in front of a message. -/
theorem text_putsErr_flush (o : Output) (text : List Char) : (o.flush.putsErr text).text = o.text ++ text := by
  simp [Output.text, flush, putsErr]

end Output

end LinuxApi.Stdio
