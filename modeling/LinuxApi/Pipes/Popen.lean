import LinuxApi.Kernel.CText
import LinuxApi.Kernel.Lines
import Mathlib.Data.Int.Init

/-! `ipc_pipe_popen`, which copies the output of a command with `fgets` and `printf` and counts the calls.
They are as many as the lines if every line fits into `pathname`. -/

namespace LinuxApi.Popen

open Lines

/-- `PATH_MAX` -/
def pathMax : ℕ := 4096

/-- `INT_MAX` -/
def intMax : ℤ := 2147483647

def newline : UInt8 := 10

/-- What the loop leaves: the counter, and the text printed. -/
structure Listing where
  filecnt : ℤ
  printed : List UInt8
  deriving DecidableEq

/-- The loop on a stream that still has the bytes `fp`; `none` is an overflow of `filecnt`, which is not
defined. -/
def loop (pathname : Buffer pathMax) (fp : List UInt8) (filecnt : ℤ) (printed : List UInt8) :
    Option Listing :=
  match _h : fgets newline pathMax fp with
  | none => some ⟨filecnt, printed⟩
  | some r =>
    let pathname := pathname.store (r.1 ++ [0])
    if filecnt < intMax then loop pathname r.2 (filecnt + 1) (printed ++ cText pathname.bytes) else none
termination_by fp.length
decreasing_by exact length_rest_lt _h

/-- How the program ends: `errExit`, or with the text printed by the loop and the numbers behind `list
count =` and `close status =`. -/
inductive Outcome where
  | errExit (msg : String)
  | exited (printed : List UInt8) (listCount : ℤ) (closeStatus : ℤ)
  deriving DecidableEq

/-- `fp` is the output of the command, `none` a failed `popen`, and `status` what `pclose` returns. -/
def ipcPipePopen (pathname : Buffer pathMax) (fp : Option (List UInt8)) (status : ℤ) : Option Outcome :=
  match fp with
  | none => some (.errExit "popen()")
  | some output => (loop pathname output 0 []).map fun l => .exited l.printed l.filecnt status

variable {pathname : Buffer pathMax} {fp printed : List UInt8} {filecnt : ℤ}

/-- `%s` prints a chunk up to its first zero, if it has one. -/
theorem cText_pathname {chunk : List UInt8} (h : chunk.length < pathMax) :
    cText (pathname.store (chunk ++ [0])).bytes = cText chunk := by
  have hlen : (chunk ++ [0]).length ≤ pathMax := by
    rw [List.length_append, List.length_singleton]
    exact h
  rw [Buffer.store_bytes _ hlen, cText_append_of_mem (by simp)]
  by_cases h0 : 0 ∈ chunk
  · exact cText_append_of_mem h0
  · rw [cText_append_of_notMem h0, cText_eq_self.mpr h0]
    exact List.append_nil chunk

/-- The loop counts the calls and prints what they return. -/
theorem loop_eq (hcount : filecnt ≤ intMax) : loop pathname fp filecnt printed =
    if filecnt + (reads newline pathMax fp).length ≤ intMax then
      some ⟨filecnt + (reads newline pathMax fp).length,
        printed ++ ((reads newline pathMax fp).map cText).flatten⟩
    else none := by
  fun_induction loop pathname fp filecnt printed with
  | case1 pathname fp filecnt printed h =>
    rw [reads_of_none h]
    simp [hcount]
  | case2 pathname fp filecnt printed r h pathname' hlt ih =>
    have hcall : filecnt + 1 + (reads newline pathMax r.2).length =
        filecnt + (reads newline pathMax fp).length := by
      rw [reads_of_some h, List.length_cons]
      omega
    have htext : cText pathname'.bytes = cText r.1 := cText_pathname (length_fgets_lt h)
    rw [ih hlt, hcall, htext, reads_of_some h, List.map_cons, List.flatten_cons, List.append_assoc]
  | case3 pathname fp filecnt printed r h hge =>
    have hover : ¬filecnt + (reads newline pathMax fp).length ≤ intMax := by
      rw [reads_of_some h, List.length_cons]
      omega
    rw [if_neg hover]

/-- With lines that fit the loop counts the newlines, and a last line without one. -/
theorem filecnt_of_fits (hfits : ∀ l ∈ lines newline fp, l.length < pathMax)
    (hmax : (lines newline fp).length ≤ intMax) : ∃ l, loop pathname fp 0 [] = some l ∧
      l.filecnt = (fp.count newline + if fp.getLast? = none ∨ fp.getLast? = some newline then 0 else 1 : ℕ) := by
  have hcalls := (length_reads (by decide) fp).2.mpr hfits
  rw [loop_eq (by decide), hcalls, Int.zero_add, if_pos hmax]
  exact ⟨_, rfl, congrArg Nat.cast (length_lines fp)⟩

theorem length_flatten_cText (chunks : List (List UInt8)) :
    (chunks.map cText).flatten.length ≤ chunks.flatten.length := by
  induction chunks with
  | nil => exact Nat.le_refl 0
  | cons chunk chunks ih =>
    have hle : (cText chunk).length ≤ chunk.length := (List.takeWhile_prefix _).length_le
    simp only [List.map_cons, List.flatten_cons, List.length_append]
    omega

/-- Nothing is lost exactly if there is no zero. -/
theorem flatten_cText (chunks : List (List UInt8)) :
    (chunks.map cText).flatten = chunks.flatten ↔ 0 ∉ chunks.flatten := by
  induction chunks with
  | nil => simp
  | cons chunk chunks ih =>
    rw [List.map_cons, List.flatten_cons, List.flatten_cons, List.mem_append, not_or, ← ih]
    constructor
    · intro h
      have hlen := congrArg List.length h
      have hle : (cText chunk).length ≤ chunk.length := (List.takeWhile_prefix _).length_le
      have hle' := length_flatten_cText chunks
      simp only [List.length_append] at hlen
      obtain ⟨hchunk, hchunks⟩ := List.append_inj h (by omega)
      exact ⟨cText_eq_self.mp hchunk, hchunks⟩
    · rintro ⟨h0, h⟩
      rw [cText_eq_self.mpr h0, h]

/-- The program prints the output and the number of its lines exactly if every line, with its newline,
leaves room for the terminator, there is no zero byte, and the lines can be counted. -/
theorem counted_iff (pathname : Buffer pathMax) (output : List UInt8) (status : ℤ) :
    ipcPipePopen pathname (some output) status =
        some (.exited output (lines newline output).length status) ↔
      (∀ l ∈ lines newline output, l.length < pathMax) ∧ 0 ∉ output ∧
        (lines newline output).length ≤ intMax := by
  obtain ⟨hle, hcalls⟩ : (lines newline output).length ≤ (reads newline pathMax output).length ∧ _ :=
    length_reads (by decide) output
  have hprinted : ((reads newline pathMax output).map cText).flatten = output ↔ 0 ∉ output := by
    have h := flatten_cText (reads newline pathMax output)
    rwa [flatten_reads (by decide)] at h
  rw [ipcPipePopen, loop_eq (by decide), Option.map_eq_some_iff, Int.zero_add, List.nil_append,
    ← hcalls, ← hprinted]
  constructor
  · rintro ⟨l, hl, hout⟩
    obtain ⟨hmax, hl⟩ := Option.ite_none_right_eq_some.mp hl
    obtain rfl := Option.some.inj hl
    obtain ⟨hprint, hcount, -⟩ := Outcome.exited.inj hout
    have hcount : (reads newline pathMax output).length = (lines newline output).length := by
      exact Int.ofNat_inj.mp hcount
    exact ⟨hcount, hprint, by rw [← hcount]; exact hmax⟩
  · rintro ⟨hcount, hprint, hmax⟩
    rw [hcount, hprint, if_pos hmax]
    exact ⟨_, rfl, rfl⟩

/-- A line that takes up 4096 bytes with its newline. -/
def longLine : List UInt8 := .replicate 4095 97 ++ [newline]

theorem length_reads_longLine : (reads newline pathMax longLine).length = 2 := by
  have hline : lines newline longLine = [longLine] :=
    lines_append_self fun h => absurd (List.eq_of_mem_replicate h) (by decide)
  have hlen : longLine.length = 4096 := by
    rw [longLine, List.length_append, List.length_replicate, List.length_singleton]
  cases h : fgets newline pathMax longLine with
  | none =>
    have hnil := congrArg List.length (eq_nil_of_fgets (by decide) h)
    rw [hlen] at hnil
    cases hnil
  | some r =>
    -- the first call leaves the newline to a second one
    have hrest := (fgets_of_lines hline h).2
    rw [hlen, if_pos (by decide)] at hrest
    have hcalls : (reads newline pathMax r.2).length = (lines newline r.2).length :=
      (length_reads (by decide) r.2).2.mpr fun l hl => by
        rw [hrest, List.mem_singleton] at hl
        rw [hl, List.length_drop, hlen]
        decide
    rw [reads_of_some h, List.length_cons, hcalls, hrest, List.length_singleton]

/-- It is one line, and is counted as two. -/
theorem not_counted : (lines newline longLine).length = 1 ∧ ∀ pathname status,
    ipcPipePopen pathname (some longLine) status = some (.exited longLine 2 status) := by
  constructor
  · rw [longLine, lines_append_self fun h => absurd (List.eq_of_mem_replicate h) (by decide)]
    rfl
  · intro pathname status
    have hzero : 0 ∉ longLine := by
      intro h
      rcases List.mem_append.mp h with h | h
      · exact absurd (List.eq_of_mem_replicate h) (by decide)
      · exact absurd (List.mem_singleton.mp h) (by decide)
    have hprinted : ((reads newline pathMax longLine).map cText).flatten = longLine := by
      rw [(flatten_cText _).mpr] <;> rw [flatten_reads (by decide)]
      exact hzero
    rw [ipcPipePopen, loop_eq (by decide), length_reads_longLine, hprinted]
    rfl

end LinuxApi.Popen
