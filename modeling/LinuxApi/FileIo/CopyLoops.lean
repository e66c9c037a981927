import LinuxApi.Kernel.Stream
import LinuxApi.Transition.System
import Mathlib.Algebra.Ring.Nat

/-! The copy loops of `file_open_read_write`, `ipc_pipe`, `socket_pair_sample` and `echo`. Two of them
have the `read` in the condition and test for an error behind the loop, the other two test each result in
the body; they differ further in the buffer's size and in how they exit. -/

namespace LinuxApi.CopyLoops

/-- The error exits. -/
inductive Exit where
  | errExit (msg : String)
  | fatal (msg : String)
  deriving DecidableEq

/-- In front of the `read`, in front of the `write` of `numread` bytes, or behind the loop. -/
inductive Pc where
  | read
  | write (numread : ℕ)
  | done
  | exited (e : Exit)
  deriving DecidableEq

/-- What sets a loop apart; `afterRead` is where a result of `read` leads. -/
structure Loop where
  size : ℕ
  afterRead : ℤ → Pc
  writeExit : Exit

/-- `source` are the bytes not yet read. -/
structure State (size : ℕ) where
  pc : Pc
  buf : Buffer size
  source : List UInt8
  written : List UInt8
  deriving DecidableEq

/-- The result of a `read`, or of a `write`, where `none` is -1. -/
inductive Action where
  | read (r : ReadResult)
  | write (r : Option ℕ)
  deriving DecidableEq

/-- The value of `read`. -/
def numread : ReadResult → ℤ
  | .data n => n
  | .eof => 0
  | .error => -1

/-- `while((numread = read(..)) > 0)`, and `if(numread == -1)` behind the loop. -/
def conditionStyle (readExit : Exit) (numread : ℤ) : Pc :=
  if 0 < numread then .write numread.toNat
  else if numread = -1 then .exited readExit
  else .done

/-- `if(numread == -1)` and `if(numread == 0) break` in the loop. -/
def breakStyle (readExit : Exit) (numread : ℤ) : Pc :=
  if numread = -1 then .exited readExit
  else if numread = 0 then .done
  else .write numread.toNat

def readStep (c : Loop) (s : State c.size) (r : ReadResult) : Option (State c.size) :=
  match s.pc with
  | .read => (readStream c.size s.source r).map fun p =>
      { s with
        pc := c.afterRead (numread r)
        buf := s.buf.store p.1
        source := p.2 }
  | _ => none

/-- `if(write(fd, buf, numread) != numread)` -/
def writeStep (c : Loop) (s : State c.size) (r : Option ℕ) : Option (State c.size) :=
  match s.pc with
  | .write n => (writeStream (s.buf.load n) r).map fun p =>
      { s with
        pc := if r = some n then .read else .exited c.writeExit
        written := s.written ++ p.1 }
  | _ => none

def start {size : ℕ} (buf : Buffer size) (source : List UInt8) : State size :=
  ⟨.read, buf, source, []⟩

/-- A loop on a source; `buf` holds anything at first. -/
def copy (c : Loop) (source : List UInt8) : System (State c.size) Action where
  init s := s = start s.buf source
  step s
    | .read r => readStep c s r
    | .write r => writeStep c s r

/-! ### The four loops -/

/-- Behind `lseek(input_fd, 10, SEEK_SET)`; `BUFFER_SIZE` is that of `file_func.h`. -/
def fileOpenReadWrite (file : List UInt8) : System (State 1024) Action :=
  copy ⟨1024, conditionStyle (.errExit "read"), .fatal "Couldn't write whole buffer"⟩ (file.drop 10)

/-- The child of `ipc_pipe`. -/
def ipcPipe (source : List UInt8) : System (State 4096) Action :=
  copy ⟨4096, breakStyle (.errExit "read() - child"), .fatal "parent - partial / failed write"⟩ source

/-- The child of `socket_pair_sample`. -/
def socketPairSample (source : List UInt8) : System (State 100) Action :=
  copy ⟨100, breakStyle (.errExit "read() - child"), .fatal "parent - partial / failed write"⟩ source

/-- `echo` -/
def echo (source : List UInt8) : System (State 100) Action :=
  copy ⟨100, conditionStyle (.errExit "read()"), .errExit "write()"⟩ source

/-! ### What a run copies -/

/-- The bytes that a call says it has written. -/
def Action.written : Action → ℕ
  | .write (some n) => n
  | .write none | .read _ => 0

/-- Among these results there is a failed `read`, or a `write` that failed or was shorter than the `read`
in front of it. -/
def Fails : List Action → Bool
  | .read .error :: _ => true
  | .read (.data n) :: .write r :: as => r ≠ some n || Fails as
  | _ => false

/-- The loop has been left, one way or the other. -/
def Pc.Ended (pc : Pc) : Prop := pc = .done ∨ ∃ e, pc = .exited e

/-- What holds after a run with these results: a prefix of the source is written, all of it behind the
loop; a failure, and nothing else, ends the process through an error exit; and until the loop is left
it takes every chunk that fits, can go on without a failure, and has done so only so often. -/
structure Exact {size : ℕ} (S : System (State size) Action) (source : List UInt8) (as : List Action)
    (s : State size) : Prop where
  written : s.written <+: source
  counted : s.written.length = (as.map Action.written).sum
  complete : s.pc = .done → s.written = source
  failed : (∃ e, s.pc = .exited e) ↔ Fails as = true
  ended : s.pc.Ended → S.Stuck s
  chunk : s.pc = .read → ∀ n, 1 ≤ n → n ≤ size → s.written.length + n ≤ source.length →
    (S.step s (.read (.data n))).isSome
  goesOn : s.pc.Ended ∨ ∃ a, (S.step s a).isSome ∧ Fails (as ++ [a]) = false
  bounded : as.length ≤ 2 * source.length + 1

def CopiesExactly {size : ℕ} (S : System (State size) Action) (source : List UInt8) : Prop :=
  ∀ s as t, S.init s → S.run s as = some t → Exact S source as t

variable {c : Loop} {source : List UInt8}

/-! ### One loop -/

/-- Both ways to test the result of `read`. -/
structure Tests (afterRead : ℤ → Pc) : Prop where
  data : ∀ n : ℕ, 1 ≤ n → afterRead n = .write n
  eof : afterRead 0 = .done
  error : ∃ e, afterRead (-1) = .exited e

theorem tests_conditionStyle (readExit : Exit) : Tests (conditionStyle readExit) where
  data n hn := by rw [conditionStyle, if_pos (by omega), Int.toNat_natCast]
  eof := rfl
  error := ⟨readExit, rfl⟩

theorem tests_breakStyle (readExit : Exit) : Tests (breakStyle readExit) where
  data n hn := by rw [breakStyle, if_neg (by omega), if_neg (by omega), Int.toNat_natCast]
  eof := rfl
  error := ⟨readExit, rfl⟩

variable {s t : State c.size}

/-- The steps of a loop; every case of a result has its own place to go. -/
theorem step_cases (hc : Tests c.afterRead) {a : Action} (h : (copy c source).step s a = some t) :
    (∃ n, s.pc = .read ∧ a = .read (.data n) ∧ 1 ≤ n ∧ n ≤ c.size ∧ n ≤ s.source.length ∧
      t = { s with pc := .write n, buf := s.buf.store (s.source.take n), source := s.source.drop n }) ∨
    (s.pc = .read ∧ a = .read .eof ∧ s.source = [] ∧ t.pc = .done ∧ t.source = s.source ∧
      t.written = s.written) ∨
    (∃ e, s.pc = .read ∧ a = .read .error ∧ t.pc = .exited e ∧ t.source = s.source ∧
      t.written = s.written) ∨
    (∃ n k, s.pc = .write n ∧ a = .write (some k) ∧ k ≤ (s.buf.load n).length ∧
      t = { s with
        pc := if k = n then .read else .exited c.writeExit
        written := s.written ++ (s.buf.load n).take k }) ∨
    ∃ n, s.pc = .write n ∧ a = .write none ∧ t = { s with pc := .exited c.writeExit } := by
  cases a with
  | read r =>
    have h : readStep c s r = some t := h
    unfold readStep at h
    cases hpc : s.pc with
    | read =>
      simp only [hpc, Option.map_eq_some_iff] at h
      obtain ⟨⟨chunk, rest⟩, hread, rfl⟩ := h
      cases r with
      | data n =>
        simp only [readStream, Option.ite_none_right_eq_some, Option.some.injEq, Prod.mk.injEq] at hread
        obtain ⟨⟨hn, hsize, hlen⟩, rfl, rfl⟩ := hread
        refine .inl ⟨n, rfl, rfl, hn, hsize, hlen, ?_⟩
        rw [numread, hc.data n hn]
      | eof =>
        simp only [readStream, Option.ite_none_right_eq_some, Option.some.injEq, Prod.mk.injEq] at hread
        obtain ⟨hnil, -, rfl⟩ := hread
        exact .inr (.inl ⟨rfl, rfl, hnil, hc.eof, hnil.symm, rfl⟩)
      | error =>
        cases hread
        obtain ⟨e, he⟩ := hc.error
        exact .inr (.inr (.inl ⟨e, rfl, rfl, he, rfl, rfl⟩))
    | write | done | exited => simp [hpc] at h
  | write r =>
    have h : writeStep c s r = some t := h
    unfold writeStep at h
    cases hpc : s.pc with
    | write n =>
      simp only [hpc, Option.map_eq_some_iff] at h
      obtain ⟨⟨taken, rest⟩, hwrite, rfl⟩ := h
      cases r with
      | some k =>
        simp only [writeStream, Option.ite_none_right_eq_some, Option.some.injEq, Prod.mk.injEq] at hwrite
        obtain ⟨hk, rfl, -⟩ := hwrite
        refine .inr (.inr (.inr (.inl ⟨n, k, rfl, rfl, hk, ?_⟩)))
        simp only [Option.some.injEq]
      | none =>
        simp only [writeStream, Option.some.injEq, Prod.mk.injEq] at hwrite
        obtain ⟨rfl, -⟩ := hwrite
        refine .inr (.inr (.inr (.inr ⟨n, rfl, rfl, ?_⟩)))
        simp only [reduceCtorEq, if_false, List.append_nil]
    | read | done | exited => simp [hpc] at h

/-- Nothing is lost between the source and the destination. -/
def Inv {size : ℕ} (source : List UInt8) (s : State size) : Prop :=
  match s.pc with
  | .read => s.written ++ s.source = source
  | .write n =>
    s.written ++ (s.buf.load n ++ s.source) = source ∧ (s.buf.load n).length = n ∧ 1 ≤ n
  | .done => s.written = source
  | .exited _ => s.written <+: source

theorem Inv.written_isPrefix {size : ℕ} {s : State size} (hi : Inv source s) :
    s.written <+: source := by
  unfold Inv at hi
  cases hpc : s.pc with
  | read => exact ⟨s.source, by simpa only [hpc] using hi⟩
  | write n => simp only [hpc] at hi; exact ⟨_, hi.1⟩
  | done => simp only [hpc] at hi; exact hi ▸ List.prefix_refl _
  | exited e => simpa only [hpc] using hi

theorem Inv.written_eq {size : ℕ} {s : State size} (hi : Inv source s) (hdone : s.pc = .done) :
    s.written = source := by
  simpa only [Inv, hdone] using hi

theorem inv_step (hc : Tests c.afterRead) {a : Action} (hi : Inv source s)
    (h : (copy c source).step s a = some t) : Inv source t := by
  rcases step_cases hc h with ⟨n, hpc, -, hn, hsize, hlen, rfl⟩ | ⟨hpc, -, hnil, hdone, -, hwritten⟩ |
    ⟨e, hpc, -, hexited, -, hwritten⟩ | ⟨n, k, hpc, -, hk, rfl⟩ | ⟨n, hpc, -, rfl⟩
  · have htake : (s.source.take n).length = n := List.length_take_of_le hlen
    have hload : (s.buf.store (s.source.take n)).load n = s.source.take n := by
      have hstored := s.buf.load_store (Nat.le_trans (Nat.le_of_eq htake) hsize)
      rwa [htake] at hstored
    simp only [Inv, hpc] at hi
    simp only [Inv, hload, List.take_append_drop]
    exact ⟨hi, htake, hn⟩
  · simp only [Inv, hpc, hnil, List.append_nil] at hi
    simpa only [Inv, hdone, hwritten] using hi
  · simp only [Inv, hexited, hwritten]
    exact hi.written_isPrefix
  · simp only [Inv, hpc] at hi
    obtain ⟨hflow, hlen, -⟩ := hi
    by_cases hkn : k = n
    · simp only [Inv, if_pos hkn]
      rw [hkn, List.take_of_length_le (Nat.le_of_eq hlen), List.append_assoc]
      exact hflow
    · simp only [Inv, if_neg hkn]
      refine ⟨(s.buf.load n).drop k ++ s.source, ?_⟩
      rw [List.append_assoc, ← List.append_assoc (List.take _ _), List.take_append_drop]
      exact hflow
  · simp only [Inv, hpc] at hi
    exact ⟨_, hi.1⟩

theorem inv_run (hc : Tests c.afterRead) {as : List Action} (hi : Inv source s)
    (h : (copy c source).run s as = some t) : Inv source t :=
  System.run_invariant (fun _ _ _ hs hst => inv_step hc hs hst) hi h

/-- What the calls have written is what they say. -/
theorem written_length (hc : Tests c.afterRead) {as : List Action}
    (h : (copy c source).run s as = some t) :
    t.written.length = s.written.length + (as.map Action.written).sum := by
  induction as generalizing s with
  | nil => cases h; rfl
  | cons a as ih =>
    obtain ⟨u, hu, h⟩ := Option.bind_eq_some_iff.mp h
    have hstep : u.written.length = s.written.length + a.written := by
      rcases step_cases hc hu with ⟨n, -, rfl, -, -, -, rfl⟩ | ⟨-, rfl, -, -, -, hw⟩ |
        ⟨e, -, rfl, -, -, hw⟩ | ⟨n, k, -, rfl, hk, rfl⟩ | ⟨n, -, rfl, rfl⟩
      · rfl
      · rw [hw]; rfl
      · rw [hw]; rfl
      · rw [List.length_append, List.length_take_of_le hk]
        rfl
      · rfl
    rw [ih h, hstep, List.map_cons, List.sum_cons]
    omega

/-- No step follows the end. -/
theorem stuck_of_ended (hc : Tests c.afterRead) (hs : s.pc.Ended) : (copy c source).Stuck s := by
  intro a
  by_contra hne
  obtain ⟨t, ht⟩ := Option.ne_none_iff_exists'.mp hne
  rcases step_cases hc ht with ⟨n, hpc, -⟩ | ⟨hpc, -⟩ | ⟨e, hpc, -⟩ | ⟨n, k, hpc, -⟩ | ⟨n, hpc, -⟩ <;>
    simp [Pc.Ended, hpc] at hs

theorem run_of_ended (hc : Tests c.afterRead) {as : List Action} (hs : s.pc.Ended)
    (h : (copy c source).run s as = some t) : as = [] ∧ t = s := by
  cases as with
  | nil => exact ⟨rfl, (Option.some.inj h).symm⟩
  | cons a as =>
    rw [System.run_cons, stuck_of_ended hc hs a] at h
    cases h

/-- The results of a run tell whether it ends in an error exit, from either place in the loop. -/
theorem exited_iff (hc : Tests c.afterRead) {as : List Action} (h : (copy c source).run s as = some t) :
    (s.pc = .read → ((∃ e, t.pc = .exited e) ↔ Fails as = true)) ∧
      ∀ n, s.pc = .write n → ((∃ e, t.pc = .exited e) ↔ Fails (.read (.data n) :: as) = true) := by
  induction as generalizing s with
  | nil =>
    cases h
    exact ⟨fun hpc => by simp [hpc, Fails], fun n hpc => by simp [hpc, Fails]⟩
  | cons a as ih =>
    obtain ⟨u, hu, hrest⟩ := Option.bind_eq_some_iff.mp h
    rcases step_cases hc hu with ⟨n, hpc, rfl, -, -, -, rfl⟩ | ⟨hpc, rfl, -, hdone, -⟩ |
      ⟨e, hpc, rfl, hexited, -⟩ | ⟨n, k, hpc, rfl, -, rfl⟩ | ⟨n, hpc, rfl, rfl⟩
    · refine ⟨fun _ => (ih hrest).2 n rfl, fun m hm => ?_⟩
      cases hpc.symm.trans hm
    · obtain ⟨-, rfl⟩ := run_of_ended hc (.inl hdone) hrest
      refine ⟨fun _ => by simp [hdone, Fails], fun m hm => ?_⟩
      cases hpc.symm.trans hm
    · obtain ⟨-, rfl⟩ := run_of_ended hc (.inr ⟨e, hexited⟩) hrest
      refine ⟨fun _ => by simp [hexited, Fails], fun m hm => ?_⟩
      cases hpc.symm.trans hm
    · refine ⟨fun hm => ?_, fun m hm => ?_⟩
      · cases hpc.symm.trans hm
      · cases hpc.symm.trans hm
        by_cases hkn : k = n
        · rw [(ih hrest).1 (if_pos hkn)]
          simp [Fails, hkn]
        · obtain ⟨-, rfl⟩ := run_of_ended hc (.inr ⟨c.writeExit, if_neg hkn⟩) hrest
          simp [Fails, hkn]
    · obtain ⟨-, rfl⟩ := run_of_ended hc (.inr ⟨c.writeExit, rfl⟩) hrest
      refine ⟨fun hm => ?_, fun m hm => by simp [Fails]⟩
      cases hpc.symm.trans hm

/-- Every round takes a byte from the source. -/
def State.left {size : ℕ} (s : State size) : ℕ :=
  match s.pc with
  | .read => 2 * s.source.length + 1
  | .write _ => 2 * s.source.length + 2
  | .done | .exited _ => 0

theorem left_step (hc : Tests c.afterRead) {a : Action} (h : (copy c source).step s a = some t) :
    t.left < s.left := by
  rcases step_cases hc h with ⟨n, hpc, -, hn, -, hlen, rfl⟩ | ⟨hpc, -, -, hdone, -⟩ |
    ⟨e, hpc, -, hexited, -⟩ | ⟨n, k, hpc, -, -, rfl⟩ | ⟨n, hpc, -, rfl⟩
  · simp only [State.left, hpc, List.length_drop]
    omega
  · simp only [State.left, hpc, hdone]
    omega
  · simp only [State.left, hpc, hexited]
    omega
  · by_cases hkn : k = n
    · simp only [State.left, hpc, if_pos hkn]
      omega
    · simp only [State.left, hpc, if_neg hkn]
      omega
  · simp only [State.left, hpc]
    omega

theorem chunk_isSome (hi : Inv source s) (hpc : s.pc = .read) {n : ℕ} (hn : 1 ≤ n)
    (hsize : n ≤ c.size) (hlen : s.written.length + n ≤ source.length) :
    ((copy c source).step s (.read (.data n))).isSome := by
  simp only [Inv, hpc] at hi
  have hflow := congrArg List.length hi
  rw [List.length_append] at hflow
  have hread : readStream c.size s.source (.data n) = some (s.source.take n, s.source.drop n) :=
    if_pos ⟨hn, hsize, by omega⟩
  simp only [copy, readStep, hpc, hread, Option.map_some, Option.isSome_some]

/-- A result that is no failure can always follow. -/
theorem exists_step (hc : Tests c.afterRead) (hsize : 1 ≤ c.size) (hi : Inv source s)
    (hs : ¬s.pc.Ended) :
    ∃ a u, (copy c source).step s a = some u ∧ ∀ e, u.pc ≠ .exited e := by
  cases hpc : s.pc with
  | read =>
    by_cases hnil : s.source = []
    · refine ⟨.read .eof, { s with pc := .done, buf := s.buf.store [], source := [] }, ?_, fun _ => Pc.noConfusion⟩
      simp only [copy, readStep, hpc, hnil, readStream, if_true, Option.map_some, numread, hc.eof]
    · have hpos := List.length_pos_iff.mpr hnil
      have hlen : s.written.length + 1 ≤ source.length := by
        simp only [Inv, hpc] at hi
        rw [← hi, List.length_append]
        omega
      obtain ⟨u, hu⟩ := Option.isSome_iff_exists.mp (chunk_isSome hi hpc (Nat.le_refl 1) hsize hlen)
      refine ⟨_, u, hu, ?_⟩
      rcases step_cases hc hu with ⟨n, -, -, -, -, -, rfl⟩ | ⟨-, ha, -⟩ | ⟨e, -, ha, -⟩ |
        ⟨n, k, -, ha, -⟩ | ⟨n, -, ha, -⟩
      · exact fun _ => Pc.noConfusion
      all_goals cases ha
  | write n =>
    simp only [Inv, hpc] at hi
    have hwrite : writeStream (s.buf.load n) (some n) =
        some ((s.buf.load n).take n, (s.buf.load n).drop n) := if_pos (Nat.le_of_eq hi.2.1.symm)
    refine ⟨.write (some n), { s with
      pc := .read
      written := s.written ++ (s.buf.load n).take n }, ?_, fun _ => Pc.noConfusion⟩
    simp only [copy, writeStep, hpc, hwrite, Option.map_some, if_true]
  | done => exact absurd (.inl hpc) hs
  | exited e => exact absurd (.inr ⟨e, hpc⟩) hs

theorem copy_exact (hc : Tests c.afterRead) (hsize : 1 ≤ c.size) : CopiesExactly (copy c source) source := by
  intro s as t hs h
  have hs : s = start s.buf source := hs
  have hpc : s.pc = .read := by rw [hs]; rfl
  have hi : Inv source s := by rw [hs]; exact List.nil_append source
  have ht := inv_run hc hi h
  refine ⟨ht.written_isPrefix, ?_, ht.written_eq, (exited_iff hc h).1 hpc, stuck_of_ended hc,
    fun hr n => chunk_isSome ht hr, ?_, ?_⟩
  · rw [written_length hc h, hs]
    exact Nat.zero_add _
  · refine or_iff_not_imp_left.mpr fun hended => ?_
    obtain ⟨a, u, hu, hne⟩ := exists_step hc hsize ht hended
    have hrun : (copy c source).run s (as ++ [a]) = some u := by
      rw [System.run_append, h, Option.bind_some, System.run_cons, hu, Option.bind_some, System.run_nil]
    refine ⟨a, by rw [hu]; rfl, ?_⟩
    rw [← Bool.not_eq_true, ← (exited_iff hc hrun).1 hpc]
    exact fun ⟨e, he⟩ => hne e he
  · have hle := System.length_add_le_of_run (I := fun _ => True) (μ := State.left)
      (fun _ _ _ _ _ => trivial) (fun _ _ _ _ hst => left_step hc hst) trivial h
    have hleft : s.left = 2 * source.length + 1 := by rw [hs]; rfl
    omega

/-- In all four loops, whatever the calls return. -/
theorem copies_exact (file pipe socket cfd : List UInt8) :
    CopiesExactly (fileOpenReadWrite file) (file.drop 10) ∧ CopiesExactly (ipcPipe pipe) pipe ∧
      CopiesExactly (socketPairSample socket) socket ∧ CopiesExactly (echo cfd) cfd := by
  refine ⟨?_, ?_, ?_, ?_⟩
  · exact copy_exact (tests_conditionStyle _) (by decide)
  · exact copy_exact (tests_breakStyle _) (by decide)
  · exact copy_exact (tests_breakStyle _) (by decide)
  · exact copy_exact (tests_conditionStyle _) (by decide)

/-- A file of twelve bytes and the two of a socket are copied in pieces, and the other two loops are left
by a short `write` and by a failing `read`. -/
theorem copies_exact_twelve : ∃ file s t u v,
    file = [0, 0, 0, 0, 0, 0, 0, 0, 0, 0, 1, 2] ∧
    (fileOpenReadWrite file).run (start (.zero _) [1, 2])
      [.read (.data 1), .write (some 1), .read (.data 1), .write (some 1), .read .eof] = some s ∧
    (ipcPipe [1, 2]).run (start (.zero _) [1, 2]) [.read (.data 2), .write (some 1)] = some t ∧
    (socketPairSample [1, 2]).run (start (.zero _) [1, 2]) [.read .error] = some u ∧
    (echo [1, 2]).run (start (.zero _) [1, 2]) [.read (.data 2), .write (some 2), .read .eof] = some v ∧
    s.written = [1, 2] ∧ (∃ e, t.pc = .exited e) ∧ (∃ e, u.pc = .exited e) ∧ v.written = [1, 2] := by
  obtain ⟨hs, ht, hu, hv⟩ := copies_exact [0, 0, 0, 0, 0, 0, 0, 0, 0, 0, 1, 2] [1, 2] [1, 2] [1, 2]
  have hs := hs (start (.zero _) [1, 2])
    [.read (.data 1), .write (some 1), .read (.data 1), .write (some 1), .read .eof] _ rfl rfl
  have ht := ht (start (.zero _) [1, 2]) [.read (.data 2), .write (some 1)] _ rfl rfl
  have hu := hu (start (.zero _) [1, 2]) [.read .error] _ rfl rfl
  have hv := hv (start (.zero _) [1, 2]) [.read (.data 2), .write (some 2), .read .eof] _ rfl rfl
  exact ⟨_, _, _, _, _, rfl, rfl, rfl, rfl, rfl, hs.complete rfl, ht.failed.mpr rfl, hu.failed.mpr rfl,
    hv.complete rfl⟩

end LinuxApi.CopyLoops
