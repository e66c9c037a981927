import LinuxApi.Kernel.Stream
import LinuxApi.Transition.System

/-! The loop of `fileio_read_write` under `case 'r'`, which fills `buf` from a file in as many pieces as
`read` returns, again after a signal. `len` and `idx` are complementary throughout, so the schedule of the
pieces does not matter. -/

namespace LinuxApi.FullRead

/-- `BUF_SIZE` -/
def bufSize : ℕ := 1000

/-- `EINTR` -/
def eintr : ℕ := 4

inductive Pc where
  | read
  | ended
  | exited (msg : String)
  deriving DecidableEq

/-- `idx` is an index, and `file` what is not yet read. -/
structure State where
  pc : Pc
  len : ℕ
  idx : ℕ
  buf : Buffer bufSize
  file : List UInt8
  deriving DecidableEq

/-- What a `read` returned, with `errno` after it. -/
structure Result where
  value : ReadResult
  errno : ℕ
  deriving DecidableEq

/-- The first half of the condition: no `read` without room. -/
def State.again (s : State) : State := if s.len ≠ 0 then s else { s with pc := .ended }

/-- A chunk of `n` bytes has come; `len -= numread` and `idx += numread`. -/
def State.advance (s : State) (n : ℕ) (chunk rest : List UInt8) : State where
  pc := s.pc
  len := s.len - n
  idx := s.idx + n
  buf := s.buf.storeAt s.idx chunk
  file := rest

/-- The condition's `read`, the body, and the condition up to the next `read`. -/
def step (s : State) (r : Result) : Option State :=
  match s.pc with
  | .read => (readStream s.len s.file r.value).map fun p =>
      match r.value with
      | .data n => (s.advance n p.1 p.2).again
      | .eof => { s with pc := .ended }
      | .error => if r.errno = eintr then s.again else { s with pc := .exited "read" }
  | _ => none

def start (buf : Buffer bufSize) (file : List UInt8) : State := State.again ⟨.read, bufSize, 0, buf, file⟩

/-- The loop on a file; `buf` holds anything at first. -/
def system (file : List UInt8) : System State Result where
  init s := ∃ buf, s = start buf file
  step := step

/-- A `read` that a signal has interrupted. -/
def interrupted (r : Result) : Bool := r.value = .error ∧ r.errno = eintr

/-- A `read` that has failed otherwise. -/
def fails (r : Result) : Bool := r.value = .error ∧ r.errno ≠ eintr

variable {s t : State} {r : Result} {file : List UInt8} {as : List Result}

/-! ### The complement -/

/-- `buf` begins with what has been read, and there is room for `len` bytes more. -/
structure Inv (file : List UInt8) (s : State) : Prop where
  room : s.idx + s.len = bufSize
  bytes : s.buf.load s.idx ++ s.file = file
  length : (s.buf.load s.idx).length = s.idx
  reading : s.pc = .read → s.len ≠ 0
  ended : s.pc = .ended → s.len = 0 ∨ s.file = []

theorem State.again_eq (s : State) :
    s.again = { s with pc := if s.len ≠ 0 then s.pc else .ended } := by
  unfold again
  split_ifs <;> rfl

theorem Inv.again (hroom : s.idx + s.len = bufSize) (hbytes : s.buf.load s.idx ++ s.file = file)
    (hlength : (s.buf.load s.idx).length = s.idx) (hpc : s.pc = .read) : Inv file s.again := by
  rw [State.again_eq]
  refine ⟨hroom, hbytes, hlength, fun hread hlen => ?_, fun hended => ?_⟩
  · have hlen : s.len = 0 := hlen
    simp [hlen] at hread
  · by_cases hlen : s.len = 0
    · exact .inl hlen
    · simp [hlen, hpc] at hended

theorem inv_start (buf : Buffer bufSize) (file : List UInt8) : Inv file (start buf file) :=
  Inv.again rfl rfl rfl rfl

/-- What a step does, and when it takes place. -/
theorem step_eq_some (h : step s r = some t) : s.pc = .read ∧
    ((∃ n, r.value = .data n ∧ (1 ≤ n ∧ n ≤ s.len ∧ n ≤ s.file.length) ∧
      t = (s.advance n (s.file.take n) (s.file.drop n)).again) ∨
    (r.value = .eof ∧ s.file = [] ∧ t = { s with pc := .ended }) ∨
    (interrupted r = true ∧ t = s.again) ∨
    (fails r = true ∧ t = { s with pc := .exited "read" })) := by
  unfold step at h
  cases hpc : s.pc with
  | ended | exited => simp [hpc] at h
  | read =>
    simp only [hpc, Option.map_eq_some_iff] at h
    obtain ⟨⟨chunk, rest⟩, hread, rfl⟩ := h
    refine ⟨rfl, ?_⟩
    cases hr : r.value with
    | data n =>
      simp only [hr, readStream, Option.ite_none_right_eq_some, Option.some.injEq, Prod.mk.injEq] at hread
      obtain ⟨hn, rfl, rfl⟩ := hread
      exact .inl ⟨n, rfl, hn, rfl⟩
    | eof =>
      simp only [hr, readStream, Option.ite_none_right_eq_some, Option.some.injEq, Prod.mk.injEq] at hread
      exact .inr (.inl ⟨rfl, hread.1, rfl⟩)
    | error =>
      by_cases he : r.errno = eintr
      · exact .inr (.inr (.inl ⟨by simp [interrupted, hr, he], by simp [he]⟩))
      · exact .inr (.inr (.inr ⟨by simp [fails, hr, he], by simp [he]⟩))

theorem inv_step (hi : Inv file s) (h : step s r = some t) : Inv file t := by
  obtain ⟨hpc, ⟨n, -, ⟨hn, hlen, hfile⟩, rfl⟩ | ⟨-, hnil, rfl⟩ | ⟨-, rfl⟩ | ⟨-, rfl⟩⟩ := step_eq_some h
  · have htake : (s.file.take n).length = n := List.length_take_of_le hfile
    have hroom := hi.room
    have hload : (s.buf.storeAt s.idx (s.file.take n)).load (s.idx + n) =
        s.buf.load s.idx ++ s.file.take n := by
      have hfit : s.idx + (s.file.take n).length ≤ bufSize := by omega
      have hload := s.buf.load_storeAt hfit
      rwa [htake] at hload
    refine Inv.again ?_ ?_ ?_ hpc
    · simp only [State.advance]
      omega
    · simp only [State.advance]
      rw [hload, List.append_assoc, List.take_append_drop]
      exact hi.bytes
    · simp only [State.advance]
      rw [hload, List.length_append, hi.length, htake]
  · exact ⟨hi.room, hi.bytes, hi.length, Pc.noConfusion, fun _ => .inr hnil⟩
  · exact Inv.again hi.room hi.bytes hi.length hpc
  · exact ⟨hi.room, hi.bytes, hi.length, Pc.noConfusion, Pc.noConfusion⟩

theorem inv_run {buf : Buffer bufSize} (h : (system file).run (start buf file) as = some t) :
    Inv file t :=
  System.run_invariant (I := Inv file) (fun _ _ _ hi hst => inv_step hi hst) (inv_start buf file) h

/-- At its end the loop has what there is, or as much as fits. -/
theorem Inv.filled (hi : Inv file s) (hpc : s.pc = .ended) :
    s.idx = min file.length bufSize ∧ s.buf.load s.idx = file.take bufSize := by
  have hroom := hi.room
  have hlength := congrArg List.length hi.bytes
  rw [List.length_append, hi.length] at hlength
  have hidx : s.idx = min file.length bufSize := by
    rcases hi.ended hpc with hlen | hnil
    · omega
    · rw [hnil, List.length_nil] at hlength
      omega
  refine ⟨hidx, ?_⟩
  rcases hi.ended hpc with hlen | hnil
  · have hfull : s.idx = bufSize := by omega
    rw [← hi.bytes, List.take_left' (hi.length.trans hfull)]
  · have hall := hi.bytes
    rw [hnil, List.append_nil] at hall
    have hle : file.length ≤ bufSize := by
      rw [hnil, List.length_nil] at hlength
      omega
    rw [hall, List.take_of_length_le hle]

/-! ### The number of calls -/

/-- How many calls a state leaves, apart from interrupted ones. -/
def callsLeft (s : State) : ℕ := if s.pc = .read then min s.len s.file.length + 1 else 0

theorem callsLeft_again (hpc : s.pc = .read) : callsLeft s.again ≤ min s.len s.file.length + 1 := by
  rw [State.again_eq, callsLeft]
  by_cases hlen : s.len ≠ 0
  · simp [hlen, hpc]
  · simp [hlen]

theorem callsLeft_step (h : step s r = some t) :
    callsLeft t + 1 ≤ callsLeft s + if interrupted r then 1 else 0 := by
  obtain ⟨hpc, hcases⟩ := step_eq_some h
  have hs : callsLeft s = min s.len s.file.length + 1 := if_pos hpc
  rw [hs]
  rcases hcases with ⟨n, -, ⟨hn, hlen, hfile⟩, rfl⟩ | ⟨-, -, rfl⟩ | ⟨hr, rfl⟩ | ⟨-, rfl⟩
  · have hle := callsLeft_again (s := s.advance n (s.file.take n) (s.file.drop n)) hpc
    simp only [State.advance, List.length_drop] at hle ⊢
    omega
  · have hzero : callsLeft { s with pc := .ended } = 0 := rfl
    omega
  · rw [if_pos hr]
    have hle := callsLeft_again hpc
    omega
  · have hzero : callsLeft { s with pc := .exited "read" } = 0 := rfl
    omega

theorem length_le {file : List UInt8} (h : (system file).run s as = some t) :
    as.length + callsLeft t ≤ as.countP interrupted + callsLeft s := by
  induction as generalizing s with
  | nil => simp [Option.some.inj h]
  | cons r as ih =>
    obtain ⟨u, hu, h⟩ := Option.bind_eq_some_iff.mp h
    have hstep := callsLeft_step hu
    have hrest := ih h
    rw [List.length_cons, List.countP_cons]
    omega

/-! ### Errors -/

theorem again_ne_exited (hpc : s.pc = .read) (msg : String) : s.again.pc ≠ .exited msg := by
  rw [State.again_eq]
  by_cases hlen : s.len ≠ 0
  · simp [hlen, hpc]
  · simp [hlen]

/-- The process ends at a failure and not otherwise. -/
theorem exited_step_iff (h : step s r = some t) : t.pc = .exited "read" ↔ fails r = true := by
  obtain ⟨hpc, ⟨n, hr, -, rfl⟩ | ⟨hr, -, rfl⟩ | ⟨hr, rfl⟩ | ⟨hr, rfl⟩⟩ := step_eq_some h
  · have hne := again_ne_exited (s := s.advance n (s.file.take n) (s.file.drop n)) hpc "read"
    exact iff_of_false hne (by simp [fails, hr])
  · exact iff_of_false Pc.noConfusion (by simp [fails, hr])
  · have hfails : fails r = false := by
      simp only [interrupted, decide_eq_true_eq] at hr
      simp [fails, hr.2]
    exact iff_of_false (again_ne_exited hpc _) (by simp [hfails])
  · exact iff_of_true rfl hr

theorem exited_run_iff {file : List UInt8} (hs : s.pc ≠ .exited "read")
    (h : (system file).run s as = some t) : t.pc = .exited "read" ↔ ∃ r ∈ as, fails r = true := by
  induction as generalizing s with
  | nil => simp [← Option.some.inj h, hs]
  | cons r as ih =>
    obtain ⟨u, hu, h⟩ := Option.bind_eq_some_iff.mp h
    by_cases hexit : u.pc = .exited "read"
    · -- nothing follows an exit
      have hnil : as = [] := by
        cases as with
        | nil => rfl
        | cons q as =>
          obtain ⟨v, hv, -⟩ := Option.bind_eq_some_iff.mp h
          rw [(step_eq_some hv).1] at hexit
          cases hexit
      subst hnil
      obtain rfl := Option.some.inj h
      simpa using exited_step_iff hu
    · have hr : ¬fails r = true := mt (exited_step_iff hu).mpr hexit
      rw [ih hexit h]
      simp [hr]

/-- The loop is never stuck: in front of a `read` there is a next piece, or the end of the file. -/
theorem Inv.exists_step (hi : Inv file s) (hpc : s.pc = .read) :
    ∃ r t, r.value ≠ .error ∧ step s r = some t := by
  have hlen := hi.reading hpc
  cases hfile : s.file with
  | nil =>
    refine ⟨⟨.eof, 0⟩, { s with pc := .ended }, ReadResult.noConfusion, ?_⟩
    simp [step, hpc, readStream, hfile]
  | cons a rest =>
    refine ⟨⟨.data 1, 0⟩, (s.advance 1 [a] rest).again, ReadResult.noConfusion, ?_⟩
    have hroom : 1 ≤ s.len := by omega
    simp [step, hpc, readStream, hfile, hroom]

/-- However the file is cut and the calls are interrupted: at its end the loop has the first bytes of the
file, all or `BUF_SIZE` of them; it makes no more calls than bytes and one more, besides the interrupted
ones, and is not stuck before; and it exits exactly at an error other than `EINTR`. -/
theorem read_full (file : List UInt8) (buf : Buffer bufSize) (as : List Result) {s : State}
    (h : (system file).run (start buf file) as = some s) :
    (s.pc = .ended → s.idx = min file.length bufSize ∧ s.buf.load s.idx = file.take bufSize) ∧
    as.length ≤ as.countP interrupted + min file.length bufSize + 1 ∧
    (s.pc = .read → ∃ r t, r.value ≠ .error ∧ (system file).step s r = some t) ∧
    (s.pc = .exited "read" ↔ ∃ r ∈ as, fails r = true) := by
  have hi := inv_run h
  refine ⟨hi.filled, ?_, hi.exists_step, exited_run_iff ?_ h⟩
  · have hle := length_le h
    have hstart : callsLeft (start buf file) ≤ min bufSize file.length + 1 :=
      callsLeft_again (s := ⟨.read, bufSize, 0, buf, file⟩) rfl
    omega
  · exact Pc.noConfusion

/-- Five bytes in two pieces, with an interrupted `read` between them. -/
theorem read_full_five : ∃ as s,
    as = [⟨.data 3, 0⟩, ⟨.error, eintr⟩, ⟨.data 2, 0⟩, ⟨.eof, 0⟩] ∧
    (system [1, 2, 3, 4, 5]).run (start (.zero _) [1, 2, 3, 4, 5]) as = some s ∧ s.idx = 5 ∧
    (s.pc = .ended → s.idx = 5 ∧ s.buf.load s.idx = [1, 2, 3, 4, 5]) ∧ as.length ≤ 7 ∧
    (s.pc = .exited "read" ↔ ∃ r ∈ as, fails r = true) := by
  have h := read_full [1, 2, 3, 4, 5] (.zero _)
    [⟨.data 3, 0⟩, ⟨.error, eintr⟩, ⟨.data 2, 0⟩, ⟨.eof, 0⟩] rfl
  exact ⟨_, _, rfl, rfl, rfl, h.1, h.2.1, h.2.2.2⟩

end LinuxApi.FullRead
