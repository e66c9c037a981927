import LinuxApi.Process.Daemonize
import Mathlib.Data.Int.Notation

/-! `log_message` in `process_daemonize.c`. `vsprintf` puts the formatted text into a zeroed array of
4096 bytes, and `write` takes from it as many bytes as the format string has. The line is whole when
text and format happen to be of one length, which for `count = %d` are the counts of two digits. -/

namespace LinuxApi.LogMessage

/-- A C string without its terminating zero. -/
structure CString where
  bytes : List UInt8
  nonzero : 0 ∉ bytes

def strlen (s : CString) : ℕ := s.bytes.length

/-- The size of `buf`. -/
def bufSize : ℕ := 4096

/-- `'\n'` -/
def newline : UInt8 := 10

/-- The byte `i` places behind the start of `buf`: the text, the zeros behind it, and then what is on
the stack. -/
def bufByte (text : List UInt8) (stack : ℕ → UInt8) (i : ℕ) : UInt8 :=
  if i < bufSize then text.getD i 0 else stack (i - bufSize)

variable {α : Type*}

/-- What `log_message` appends to the log, and its result; `fd` is `none` for -1, and the two writes
may fail. -/
def logMessage (vsprintf : CString → α → List UInt8) (fd : Option ℕ) (msgform : CString) (vl : α)
    (stack : ℕ → UInt8) (textOk newlineOk : Bool) : List UInt8 × ℤ :=
  if fd = none then ([], 0)
  else
    let wlen := strlen msgform
    let written := (List.range wlen).map (bufByte (vsprintf msgform vl) stack)
    if textOk then
      if newlineOk then (written ++ [newline], 0) else (written, -1)
    else ([], -1)

/-! ### Any format -/

section AnyFormat

variable {text : List UInt8} {stack : ℕ → UInt8}

/-- As many bytes as the text has are the text. -/
theorem written_text (h : text.length ≤ bufSize) :
    (List.range text.length).map (bufByte text stack) = text := by
  apply List.ext_getElem
  · rw [List.length_map, List.length_range]
  · intro i hi hi'
    rw [List.getElem_map, List.getElem_range, bufByte, if_pos (by omega)]
    simp [hi']

/-- One byte more is a zero. -/
theorem written_succ (h : text.length < bufSize) :
    (List.range (text.length + 1)).map (bufByte text stack) = text ++ [0] := by
  have hzero : bufByte text stack text.length = 0 := by
    rw [bufByte, if_pos h]
    simp
  rw [List.range_succ, List.map_append, List.map_singleton, written_text (Nat.le_of_lt h), hzero]

end AnyFormat

variable (vsprintf : CString → α → List UInt8) (fd : Option ℕ) (msgform : CString) (vl : α)
  (stack : ℕ → UInt8) (textOk newlineOk : Bool)

/-- Whatever is appended, it is no longer than the format and a newline. -/
theorem logMessage_length_le :
    (logMessage vsprintf fd msgform vl stack textOk newlineOk).1.length ≤ strlen msgform + 1 := by
  unfold logMessage
  split_ifs <;> simp

/-- The whole line is appended exactly when the log is open, both writes succeed, and the text has
the length of the format. -/
theorem logMessage_eq_iff (hfit : (vsprintf msgform vl).length < bufSize) :
    (logMessage vsprintf fd msgform vl stack textOk newlineOk).1 = vsprintf msgform vl ++ [newline] ↔
      fd ≠ none ∧ textOk = true ∧ newlineOk = true ∧
        (vsprintf msgform vl).length = strlen msgform := by
  generalize htext : vsprintf msgform vl = text at hfit ⊢
  simp only [logMessage, htext]
  constructor
  · intro h
    have hlen := congrArg List.length h
    split_ifs at h hlen with hfd htextOk hnewlineOk
    · simp at h
    · refine ⟨hfd, htextOk, hnewlineOk, ?_⟩
      simp only [List.length_append, List.length_map, List.length_range] at hlen
      omega
    · -- the text without the newline would have to end in one, but ends in a zero
      have hwlen : strlen msgform = text.length + 1 := by
        simpa using hlen
      rw [hwlen, written_succ hfit] at h
      have hbyte := List.append_cancel_left h
      exact absurd hbyte (by decide)
    · simp at h
  · rintro ⟨hfd, rfl, rfl, hlen⟩
    rw [if_neg hfd, if_pos rfl, if_pos rfl, ← hlen, written_text (Nat.le_of_lt hfit)]

/-! ### `count = %d` -/

/-- `%d` -/
def decimal (n : ℤ) : List UInt8 :=
  (if n < 0 then [45] else []) ++ (Nat.toDigits 10 n.natAbs).map fun c => c.toNat.toUInt8

/-- `vsprintf` for formats that have no conversion but `%d`. -/
def vsprintfInt (msgform : CString) (vl : List ℤ) : List UInt8 := go msgform.bytes vl where
  go : List UInt8 → List ℤ → List UInt8
    | 37 :: 100 :: rest, n :: vl => decimal n ++ go rest vl
    | c :: rest, vl => c :: go rest vl
    | [], _ => []

/-- `"count = %d"` -/
def countForm : CString := ⟨[99, 111, 117, 110, 116, 32, 61, 32, 37, 100], by decide⟩

/-- `log_message("count = %d", count)` -/
def logCount (fd : Option ℕ) (count : ℕ) (stack : ℕ → UInt8) (textOk newlineOk : Bool) :
    List UInt8 × ℤ :=
  logMessage vsprintfInt fd countForm [(count : ℤ)] stack textOk newlineOk

theorem vsprintfInt_count (n : ℤ) :
    vsprintfInt countForm [n] = [99, 111, 117, 110, 116, 32, 61, 32] ++ decimal n := by
  simp [vsprintfInt, vsprintfInt.go, countForm]

theorem decimal_length (n : ℕ) : (decimal n).length = 2 ↔ 10 ≤ n ∧ n ≤ 99 := by
  have hone := Nat.length_toDigits_le_iff (n := n) (b := 10) (k := 1) (by decide) (by decide)
  have htwo := Nat.length_toDigits_le_iff (n := n) (b := 10) (k := 2) (by decide) (by decide)
  have hlen : (decimal n).length = (Nat.toDigits 10 n).length := by
    simp [decimal]
  rw [hlen]
  omega

/-- The line of a count is whole exactly for two digits. -/
theorem logCount_eq_iff (fd : Option ℕ) (count : ℕ) (stack : ℕ → UInt8) (textOk newlineOk : Bool) :
    (logCount fd count stack textOk newlineOk).1 = vsprintfInt countForm [(count : ℤ)] ++ [newline] ↔
      fd ≠ none ∧ textOk = true ∧ newlineOk = true ∧ 10 ≤ count ∧ count ≤ 99 := by
  have hlen : (vsprintfInt countForm [(count : ℤ)]).length = 8 + (decimal count).length := by
    rw [vsprintfInt_count, List.length_append]
    rfl
  have hform : strlen countForm = 10 := rfl
  have htwo := decimal_length count
  by_cases hfit : (vsprintfInt countForm [(count : ℤ)]).length < bufSize
  · rw [logCount, logMessage_eq_iff _ _ _ _ _ _ _ hfit, hlen, hform]
    have hiff : 8 + (decimal count).length = 10 ↔ 10 ≤ count ∧ count ≤ 99 := by omega
    rw [hiff]
  · have hbig : bufSize ≤ 8 + (decimal count).length := by omega
    refine iff_of_false (fun h => ?_) ?_
    · have hle := logMessage_length_le vsprintfInt fd countForm [(count : ℤ)] stack textOk newlineOk
      rw [← logCount, h, List.length_append, hform, hlen, List.length_singleton] at hle
      rw [bufSize] at hbig
      omega
    · rintro ⟨-, -, -, hcount⟩
      have hdigits := htwo.mpr hcount
      rw [bufSize] at hbig
      omega

/-! ### The counts of the daemon -/

open Daemonize

/-- The count is positive before a line is logged. -/
theorem count_pos {s t : Daemonize.State} {a : Action} (hs : s.pc = .message → 1 ≤ s.count)
    (h : Daemonize.system.step s a = some t) : t.pc = .message → 1 ≤ t.count := by
  cases a with
  | hup =>
    obtain ⟨-, h⟩ := Option.ite_none_left_eq_some.mp h
    cases h
    exact hs
  | wake r =>
    obtain ⟨-, h⟩ := Option.ite_none_right_eq_some.mp h
    cases h
    intro ht
    cases ht
  | main ok =>
    have h : mainStep s ok = some t := h
    cases hpc : s.pc with
    | tick =>
      cases ok <;> simp only [mainStep, hpc, reduceCtorEq] at h
      split_ifs at h
      · cases h
        exact fun _ => Nat.le_add_left 1 s.count
      · cases h
        intro ht
        cases ht
    | test =>
      cases ok <;> simp only [mainStep, hpc, reduceCtorEq, Option.some.injEq] at h
      subst h
      intro ht
      have ht : (if s.hupSignaled = true then Daemonize.Pc.closeTest else .tick) = .message := ht
      split_ifs at ht
    | closeTest =>
      cases ok <;> simp only [mainStep, hpc, reduceCtorEq, Option.some.injEq] at h
      subst h
      intro ht
      have ht : (if s.fd = none then Daemonize.Pc.openCall .loop else .closeWrite) = .message := ht
      split_ifs at ht
    | openWrite c =>
      simp only [mainStep, hpc, Option.some.injEq] at h
      subst h
      intro ht
      cases c <;> cases ht
    | _ =>
      cases ok <;> simp only [mainStep, hpc, reduceCtorEq, Option.some.injEq] at h <;> subst h <;>
        intro ht <;> cases ht

/-- The daemon logs positive counts. -/
theorem message_pos {s : Daemonize.State} {history : List Event}
    (h : recorded.Reachable (s, history)) {fd : Option ℕ} {count : ℕ}
    (hmem : .message fd count ∈ history) : 1 ≤ count := by
  have hall : (s.pc = .message → 1 ≤ s.count) ∧
      ∀ fd count, Event.message fd count ∈ history → 1 ≤ count := by
    refine h.invariant (I := fun p : Daemonize.State × List Event =>
      (p.1.pc = .message → 1 ≤ p.1.count) ∧ ∀ fd count, .message fd count ∈ p.2 → 1 ≤ count) ?_ ?_
    · rintro ⟨s, history⟩ ⟨hs, rfl⟩
      obtain rfl : s = ⟨.becomeDaemon, false, some 0, 0, 0, 0⟩ := hs
      exact ⟨nofun, nofun⟩
    · rintro ⟨s, history⟩ a ⟨t, later⟩ ⟨hpc, hold⟩ hstep
      obtain ⟨hstep, rfl⟩ := System.recorded_step_eq_some.mp hstep
      refine ⟨count_pos hpc hstep, fun fd count hmem => ?_⟩
      rcases List.mem_append.mp hmem with hmem | hmem
      · exact hold fd count hmem
      · cases a with
        | hup | wake => simp [emit] at hmem
        | main ok =>
          cases hs : s.pc with
          | message =>
            simp only [emit, hs, List.mem_singleton, Event.message.injEq] at hmem
            exact hmem.2 ▸ hpc hs
          | _ => cases ok <;> simp [emit, hs] at hmem
  exact hall.2 fd count hmem

/-- `log_message` appends the whole line exactly when the log is open, both writes succeed, and the
text is as long as the format; of the lines of the daemon these are those with a count of two
digits. -/
theorem log_message_whole_iff (hfit : (vsprintf msgform vl).length < bufSize) :
    ((logMessage vsprintf fd msgform vl stack textOk newlineOk).1 =
        vsprintf msgform vl ++ [newline] ↔
      fd ≠ none ∧ textOk = true ∧ newlineOk = true ∧
        (vsprintf msgform vl).length = strlen msgform) ∧
    ∀ s history log count, recorded.Reachable (s, history) → .message log count ∈ history →
      1 ≤ count ∧
      ((logCount log count stack textOk newlineOk).1 =
          vsprintfInt countForm [(count : ℤ)] ++ [newline] ↔
        log ≠ none ∧ textOk = true ∧ newlineOk = true ∧ 10 ≤ count ∧ count ≤ 99) := by
  refine ⟨logMessage_eq_iff vsprintf fd msgform vl stack textOk newlineOk hfit, ?_⟩
  intro s history log count h hmem
  exact ⟨message_pos h hmem, logCount_eq_iff log count stack textOk newlineOk⟩

/-- A count of two digits is written whole. -/
theorem log_message_whole_ten :
    (logMessage vsprintfInt (some 1) countForm [10] (fun _ => 0) true true).1 =
      [99, 111, 117, 110, 116, 32, 61, 32, 49, 48, 10] :=
  (log_message_whole_iff vsprintfInt (some 1) countForm [10] (fun _ => 0) true true
    (by decide)).1.mpr (by decide)

/-- The first line of the daemon gets a zero byte before its newline. -/
theorem not_whole_one : ∃ s history, recorded.Reachable (s, history) ∧
    .message (some 1) 1 ∈ history ∧ ∀ stack,
    (logCount (some 1) 1 stack true true).1 = vsprintfInt countForm [1] ++ [0, newline] ∧
    (logCount (some 1) 1 stack true true).1 ≠ vsprintfInt countForm [1] ++ [newline] := by
  have hrun : recorded.Reachable _ :=
    System.reachable_of_isSome (S := recorded) (s := (⟨.becomeDaemon, false, some 0, 0, 0, 0⟩, []))
      ⟨rfl, rfl⟩ [.main true, .main true, .main true, .main true, .main true, .wake 0, .main true,
        .main true, .main true] (by decide)
  refine ⟨_, _, hrun, by decide, fun stack => ⟨rfl, fun h => ?_⟩⟩
  have h : vsprintfInt countForm [1] ++ [0, newline] = vsprintfInt countForm [1] ++ [newline] := h
  exact absurd h (by decide)

end LinuxApi.LogMessage
