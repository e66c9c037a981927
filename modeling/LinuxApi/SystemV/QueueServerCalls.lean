import LinuxApi.Transition.System
import LinuxApi.Kernel.CText

/-! `ipc_systemv_msg_server` call by call, for every result the calls may have. The first loop goes
round at any failure of its `msgget`, and the last loop ends at a failure of its `msgrcv` in a normal
return; the tests behind and inside the loops come too late. One `struct msgbuf` takes all messages
in turn. -/

namespace LinuxApi.QueueServerCalls

/-- `MAX_MTEXT` -/
def maxMtext : ℕ := 1024

/-- `EEXIST` -/
def eexist : ℕ := 17

/-- A message that `msgrcv` with the type -2 and the size `MAX_MTEXT` can take. -/
structure Message where
  mtype : ℕ
  mtext : List UInt8
  type_mem : mtype = 1 ∨ mtype = 2
  length_le : mtext.length ≤ maxMtext
  deriving DecidableEq

/-- What a call returned; `id` is a queue identifier. -/
inductive Result where
  | ok
  | id (msqid : ℕ)
  | message (m : Message)
  | error (errno : ℕ)
  deriving DecidableEq

/-- The call that comes next; `remove` has the result of `msgget(key, 0)`, and `write` knows whether
`open` succeeded. -/
inductive Pc where
  | ftok | create | lookup
  | remove (found : Option ℕ)
  | openFile (msqid : ℕ)
  | write (msqid : ℕ) (opened : Bool)
  | close (msqid : ℕ) | receive (msqid : ℕ) | stat (msqid : ℕ)
  | returned
  | exited (msg : String)
  deriving DecidableEq

/-- One `printf` of a message. With `overrun` the text does not end in `mtext`. -/
structure Line where
  mtype : ℕ
  text : List UInt8
  overrun : Bool
  deriving DecidableEq

/-- `mtext` is the array in `msg`. `received` are the messages taken so far, and `failed` records
that a `msgget`, `msgctl` or `msgrcv` has failed, except for the `EEXIST` of the first `msgget`. -/
structure State where
  pc : Pc
  mtext : Buffer maxMtext
  printed : List Line
  received : List Message
  failed : Bool
  deriving DecidableEq

/-- `printf` with `msg.mtype` and `msg.mtext`. -/
def line (mtype : ℕ) (mtext : Buffer maxMtext) : Line :=
  ⟨mtype, cText mtext.bytes, 0 ∉ mtext.bytes⟩

/-- The line a message should give. -/
def Message.line (m : Message) : Line := ⟨m.mtype, cText m.mtext, false⟩

def State.goto (s : State) (pc : Pc) : State := { s with pc }

/-- A failure that is not expected. -/
def State.fail (s : State) (pc : Pc) : State := { s with pc, failed := true }

/-- Behind the first loop: `msqid` is tested once more. -/
def afterCreate (s : State) (msqid : ℤ) : State :=
  if msqid = -1 then s.goto (.exited "msgget()") else s.goto (.openFile msqid.toNat)

/-- In the last loop: `msgLen` is tested once more, and the message is printed. -/
def afterReceive (s : State) (msqid : ℕ) (msgLen : ℤ) (m : Message) : State :=
  if msgLen = -1 then s.goto (.exited "msgrcv")
  else
    { s with
      pc := .stat msqid
      mtext := s.mtext.store m.mtext
      printed := s.printed ++ [line m.mtype (s.mtext.store m.mtext)]
      received := s.received ++ [m] }

/-- The next call with its result. `msgget(key, 0)` cannot fail with `EEXIST`, there is no queue -1 to
remove, and nothing is written without a descriptor; the results of `open` and `close` are not tested. -/
def step (s : State) (r : Result) : Option State :=
  match s.pc, r with
  | .ftok, .ok => some (s.goto .create)
  | .ftok, .error _ => some (s.goto (.exited "ftok()"))
  | .create, .id msqid => some (afterCreate s msqid)
  | .create, .error errno => some (if errno = eexist then s.goto .lookup else s.fail .create)
  | .lookup, .id msqid => some (s.goto (.remove (some msqid)))
  | .lookup, .error errno => if errno = eexist then none else some (s.fail (.remove none))
  | .remove (some _), .ok => some (s.goto .create)
  | .remove _, .error _ => some (s.fail (.exited "msgctl()"))
  | .openFile msqid, .ok => some (s.goto (.write msqid true))
  | .openFile msqid, .error _ => some (s.goto (.write msqid false))
  | .write msqid true, .ok => some (s.goto (.close msqid))
  | .write _ _, .error _ => some (s.goto (.exited "write()"))
  | .close msqid, .ok | .close msqid, .error _ => some (s.goto (.receive msqid))
  | .receive msqid, .message m => some (afterReceive s msqid m.mtext.length m)
  | .receive _, .error _ => some (s.fail .returned)
  | .stat msqid, .ok => some (s.goto (.receive msqid))
  | .stat _, .error _ => some (s.fail (.exited "msgctl()"))
  | _, _ => none

def start (mtext : Buffer maxMtext) : State := ⟨.ftok, mtext, [], [], false⟩

/-- `mtext` holds anything at first. -/
def system : System State Result where
  init s := ∃ mtext, s = start mtext
  step := step

/-- The process has ended through `errExit`, or is about to: `msgctl(-1, IPC_RMID)` fails. -/
def Pc.ending : Pc → Bool
  | .exited _ | .remove none => true
  | _ => false

/-- Every failure so far has ended the process through `errExit`. -/
def Reported (s : State) : Prop := s.failed = true → s.pc.ending = true

/-- The first `msgget` fails with `EEXIST` only, and `msgrcv` not at all. -/
def expected (s : State) (r : Result) : Bool :=
  match s.pc, r with
  | .create, .error errno => errno = eexist
  | .receive _, .error _ => false
  | _, _ => true

/-- The `msgget` that creates the queue fails with `errno`. -/
def createFails (errno : ℕ) (s : State) (r : Result) : Bool :=
  match s.pc with
  | .create => r = .error errno
  | _ => true

/-- The results of a run in which the creating `msgget` keeps failing with `errno`. -/
def KeepsFailing (errno : ℕ) (as : List Result) : Prop :=
  ∃ s t, system.init s ∧ (system.under (createFails errno)).run s as = some t

/-- The result of a `msgget` that has found a queue. -/
def Result.isId : Result → Bool
  | .id _ => true
  | .ok | .message _ | .error _ => false

/-- Every line is that of its message. -/
def Exact (s : State) : Prop := s.printed = s.received.map Message.line

/-- A message has a zero, or the byte behind it in `mtext` is one. -/
def endsInside (s : State) (r : Result) : Bool :=
  match s.pc, r with
  | .receive _, .message m => 0 ∈ m.mtext ∨ s.mtext.bytes[m.mtext.length]? = some 0
  | _, _ => true

variable {s t : State} {r : Result}

theorem afterCreate_eq (s : State) (msqid : ℕ) :
    afterCreate s msqid = s.goto (.openFile msqid) := by
  rw [afterCreate, if_neg (by omega), Int.toNat_natCast]

theorem afterReceive_eq (s : State) (msqid : ℕ) (n : ℕ) (m : Message) :
    afterReceive s msqid n m =
      { s with
        pc := .stat msqid
        mtext := s.mtext.store m.mtext
        printed := s.printed ++ [line m.mtype (s.mtext.store m.mtext)]
        received := s.received ++ [m] } := by
  rw [afterReceive, if_neg (by omega)]

/-! ### Failures -/

theorem reported_of_not_failed (h : s.failed = false) : Reported s :=
  fun hf => Bool.noConfusion (h.symm.trans hf)

theorem reported_fail_iff (s : State) (pc : Pc) : Reported (s.fail pc) ↔ pc.ending = true :=
  ⟨fun h => h rfl, fun h _ => h⟩

/-- A process that is not ending has seen no failure. -/
theorem Reported.not_failed (h : Reported s) (hpc : s.pc.ending = false) : s.failed = false := by
  by_contra hf
  exact Bool.noConfusion (hpc.symm.trans (h (Bool.not_eq_false _ ▸ hf)))

/-- Outside the two loop conditions a failure is not noted or ends the process. -/
theorem step_outside (h : step s r = some t) (hc : s.pc ≠ .create) (hr : ∀ q, s.pc ≠ .receive q) :
    t.pc.ending = true ∨ s.pc.ending = false ∧ t.failed = s.failed := by
  cases hpc : s.pc with
  | create => exact absurd hpc hc
  | receive msqid => exact absurd hpc (hr msqid)
  | lookup =>
    cases r <;> simp only [step, hpc, Option.some.injEq, reduceCtorEq] at h
    case id => exact .inr ⟨rfl, h ▸ rfl⟩
    case error =>
      obtain ⟨-, h⟩ := Option.ite_none_left_eq_some.mp h
      exact .inl (Option.some.inj h ▸ rfl)
  | remove found =>
    cases found with
    | none =>
      cases r <;> simp only [step, hpc, Option.some.injEq, reduceCtorEq] at h
      exact .inl (h ▸ rfl)
    | some q =>
      cases r <;> simp only [step, hpc, Option.some.injEq, reduceCtorEq] at h
      case ok => exact .inr ⟨rfl, h ▸ rfl⟩
      case error => exact .inl (h ▸ rfl)
  | write msqid opened =>
    cases opened <;> cases r <;> simp only [step, hpc, Option.some.injEq, reduceCtorEq] at h
    case true.ok => exact .inr ⟨rfl, h ▸ rfl⟩
    all_goals exact .inl (h ▸ rfl)
  | stat msqid =>
    cases r <;> simp only [step, hpc, Option.some.injEq, reduceCtorEq] at h
    case ok => exact .inr ⟨rfl, h ▸ rfl⟩
    case error => exact .inl (h ▸ rfl)
  | ftok | openFile | close =>
    cases r <;> simp only [step, hpc, Option.some.injEq, reduceCtorEq] at h
    all_goals exact .inr ⟨rfl, h ▸ rfl⟩
  | returned | exited => simp [step, hpc] at h

theorem expected_outside (hc : s.pc ≠ .create) (hr : ∀ q, s.pc ≠ .receive q) :
    expected s r = true := by
  cases hpc : s.pc with
  | create => exact absurd hpc hc
  | receive msqid => exact absurd hpc (hr msqid)
  | _ => simp [expected, hpc]

theorem reported_step (hi : Reported s) (h : step s r = some t) :
    Reported t ↔ expected s r = true := by
  cases hpc : s.pc with
  | create =>
    have hf := hi.not_failed (by rw [hpc]; rfl)
    cases r with
    | id msqid =>
      simp only [step, hpc, afterCreate_eq, Option.some.injEq] at h
      subst h
      exact iff_of_true (reported_of_not_failed hf) (by simp [expected, hpc])
    | error errno =>
      simp only [step, hpc, Option.some.injEq] at h
      subst h
      by_cases he : errno = eexist
      · rw [if_pos he]
        exact iff_of_true (reported_of_not_failed hf) (by simp [expected, hpc, he])
      · rw [if_neg he, reported_fail_iff]
        simp [expected, hpc, he, Pc.ending]
    | ok | message => simp [step, hpc] at h
  | receive msqid =>
    have hf := hi.not_failed (by rw [hpc]; rfl)
    cases r with
    | message m =>
      simp only [step, hpc, afterReceive_eq, Option.some.injEq] at h
      subst h
      exact iff_of_true (reported_of_not_failed hf) (by simp [expected, hpc])
    | error errno =>
      simp only [step, hpc, Option.some.injEq] at h
      subst h
      rw [reported_fail_iff]
      simp [expected, hpc, Pc.ending]
    | ok | id => simp [step, hpc] at h
  | _ =>
    have hc : s.pc ≠ .create := by simp [hpc]
    have hr : ∀ q, s.pc ≠ .receive q := by simp [hpc]
    refine iff_of_true ?_ (expected_outside hc hr)
    rcases step_outside h hc hr with hend | ⟨hs, ht⟩
    · exact fun _ => hend
    · exact reported_of_not_failed (ht.trans (hi.not_failed hs))

/-! ### The errno that comes again and again -/

/-- How many calls are left to a start-up that creates no queue and finds none any more. -/
def Pc.left : Pc → Option ℕ
  | .ftok | .remove (some _) => some 4
  | .create => some 3
  | .lookup => some 2
  | .remove none => some 1
  | .exited _ => some 0
  | _ => none

/-- With `EEXIST` every call brings the end nearer, but for the removal of a queue that was found. -/
theorem left_step {n : ℕ} (hn : s.pc.left = some n)
    (h : (system.under (createFails eexist)).step s r = some t) :
    ∃ m, t.pc.left = some m ∧ m + 1 ≤ n + 3 * r.isId.toNat := by
  obtain ⟨hC, h⟩ := System.under_step_eq_some.mp h
  have h : step s r = some t := h
  cases hpc : s.pc with
  | ftok =>
    obtain rfl : 4 = n := Option.some.inj (by rw [← hn, hpc]; rfl)
    cases r <;> simp only [step, hpc, Option.some.injEq, reduceCtorEq] at h
    case ok => exact ⟨3, h ▸ rfl, by decide⟩
    case error => exact ⟨0, h ▸ rfl, by omega⟩
  | create =>
    obtain rfl : 3 = n := Option.some.inj (by rw [← hn, hpc]; rfl)
    obtain rfl : r = .error eexist := by simpa [createFails, hpc] using hC
    simp only [step, hpc, if_true, Option.some.injEq] at h
    exact ⟨2, h ▸ rfl, by decide⟩
  | lookup =>
    obtain rfl : 2 = n := Option.some.inj (by rw [← hn, hpc]; rfl)
    cases r <;> simp only [step, hpc, Option.some.injEq, reduceCtorEq] at h
    case id => exact ⟨4, h ▸ rfl, Nat.le_refl 5⟩
    case error =>
      obtain ⟨-, h⟩ := Option.ite_none_left_eq_some.mp h
      exact ⟨1, Option.some.inj h ▸ rfl, by omega⟩
  | remove found =>
    cases found with
    | none =>
      obtain rfl : 1 = n := Option.some.inj (by rw [← hn, hpc]; rfl)
      cases r <;> simp only [step, hpc, Option.some.injEq, reduceCtorEq] at h
      exact ⟨0, h ▸ rfl, by omega⟩
    | some q =>
      obtain rfl : 4 = n := Option.some.inj (by rw [← hn, hpc]; rfl)
      cases r <;> simp only [step, hpc, Option.some.injEq, reduceCtorEq] at h
      case ok => exact ⟨3, h ▸ rfl, by decide⟩
      case error => exact ⟨0, h ▸ rfl, by omega⟩
  | exited => simp [step, hpc] at h
  | _ => simp [hpc, Pc.left] at hn

theorem length_le_left {n : ℕ} {as : List Result} (hn : s.pc.left = some n)
    (h : (system.under (createFails eexist)).run s as = some t) :
    as.length ≤ n + 3 * as.countP Result.isId := by
  induction as generalizing s n with
  | nil => exact Nat.zero_le _
  | cons r as ih =>
    obtain ⟨u, hu, h⟩ := Option.bind_eq_some_iff.mp h
    obtain ⟨m, hleft, hm⟩ := left_step hn hu
    have hlen := ih hleft h
    rw [List.length_cons, List.countP_cons]
    cases hr : r.isId <;> simp only [hr, Bool.toNat_true, Bool.toNat_false] at hm ⊢
    · simp only [Bool.false_eq_true, if_false]
      omega
    · simp only [if_true]
      omega

/-- One round of the first loop; with `EEXIST` somebody else creates the queue anew. -/
def round (errno : ℕ) : List Result :=
  if errno = eexist then [.error errno, .id 0, .ok] else [.error errno]

theorem round_run (errno : ℕ) (hpc : s.pc = .create) :
    ∃ t, (system.under (createFails errno)).run s (round errno) = some t ∧ t.pc = .create := by
  by_cases he : errno = eexist
  · refine ⟨s.goto .create, ?_, rfl⟩
    simp [round, he, System.under, system, step, createFails, hpc, State.goto]
  · refine ⟨s.fail .create, ?_, rfl⟩
    simp [round, he, System.under, system, step, createFails, hpc]

theorem rounds_run (errno : ℕ) (hpc : s.pc = .create) (n : ℕ) :
    ∃ t, (system.under (createFails errno)).run s (List.replicate n (round errno)).flatten = some t := by
  induction n generalizing s with
  | zero => exact ⟨s, rfl⟩
  | succ n ih =>
    obtain ⟨u, hu, hpc⟩ := round_run errno hpc
    obtain ⟨t, ht⟩ := ih hpc
    refine ⟨t, ?_⟩
    rw [List.replicate_succ, List.flatten_cons, System.run_append, hu, Option.bind_some, ht]

/-- The loop goes round any number of times. -/
theorem keepsFailing_rounds (errno n : ℕ) :
    KeepsFailing errno (.ok :: (List.replicate n (round errno)).flatten) := by
  obtain ⟨t, ht⟩ := rounds_run (s := (start (.zero maxMtext)).goto .create) errno rfl n
  exact ⟨start (.zero maxMtext), t, ⟨_, rfl⟩, ht⟩

theorem lt_length_rounds (errno n : ℕ) :
    n < (Result.ok :: (List.replicate n (round errno)).flatten).length := by
  rw [List.length_cons, Nat.lt_succ_iff]
  induction n with
  | zero => exact Nat.zero_le _
  | succ n ih =>
    have hround : 1 ≤ (round errno).length := by
      unfold round
      split_ifs <;> simp
    rw [List.replicate_succ, List.flatten_cons, List.length_append]
    omega

/-- Whatever the errno, the runs in which it comes again and again have no bound. -/
theorem not_bounded (errno : ℕ) : ¬∃ n, ∀ as, KeepsFailing errno as → as.length ≤ n := by
  rintro ⟨n, hn⟩
  have hle := hn _ (keepsFailing_rounds errno n)
  have hlt := lt_length_rounds errno n
  omega

/-- Where only so many queues are found, they have one exactly for `EEXIST`. -/
theorem bounded_iff (errno k : ℕ) :
    (∃ n, ∀ as, KeepsFailing errno as → as.countP Result.isId ≤ k → as.length ≤ n) ↔
      errno = eexist := by
  constructor
  · rintro ⟨n, hn⟩
    by_contra he
    have hcount : (Result.ok :: (List.replicate n (round errno)).flatten).countP Result.isId = 0 := by
      rw [round, if_neg he, List.countP_eq_zero]
      simp +contextual [Result.isId]
    have hle := hn _ (keepsFailing_rounds errno n) (by omega)
    have hlt := lt_length_rounds errno n
    omega
  · rintro rfl
    refine ⟨4 + 3 * k, fun as hfails hk => ?_⟩
    obtain ⟨s, t, ⟨mtext, rfl⟩, hrun⟩ := hfails
    have hle := length_le_left (n := 4) rfl hrun
    omega

/-- In a run every failure is reported exactly if no `msgget` of the first loop fails with another
errno than `EEXIST` and no `msgrcv` fails. A creating `msgget` that keeps failing with the same errno
keeps the first loop going without a bound; where only `k` queues are found to remove, there is one
exactly for `EEXIST`. -/
theorem failures_reported_iff {as : List Result} (hs : system.init s)
    (h : system.run s as = some t) :
    (system.Throughout Reported s as ↔ system.Along expected s as) ∧
      (∀ errno, ¬∃ n, ∀ as, KeepsFailing errno as → as.length ≤ n) ∧
      ∀ errno k, (∃ n, ∀ as, KeepsFailing errno as → as.countP Result.isId ≤ k → as.length ≤ n) ↔
        errno = eexist := by
  refine ⟨System.throughout_iff_along (I := Reported) (fun _ hi => hi) ?_ ?_ h, not_bounded, bounded_iff⟩
  · intro s r t hi ht
    exact ⟨reported_step hi ht, fun hp => hp⟩
  · obtain ⟨mtext, rfl⟩ := hs
    exact reported_of_not_failed rfl

/-- An old queue is replaced, and the `msgctl` behind the first message fails. -/
theorem failures_reported_iff_stat : ∃ as t,
    as = [.ok, .error eexist, .id 0, .ok, .id 1, .ok, .ok, .ok,
      .message ⟨1, [104], by decide, by decide⟩, .error 22] ∧
    system.run (start (.zero maxMtext)) as = some t ∧ t.pc = .exited "msgctl()" ∧
    (system.Throughout Reported (start (.zero maxMtext)) as ↔
      system.Along expected (start (.zero maxMtext)) as) :=
  ⟨_, _, rfl, rfl, rfl, (failures_reported_iff ⟨_, rfl⟩ rfl).1⟩

/-- `ENOSPC` (28) of `msgget` is not reported and keeps the first loop going, and `EIDRM` (43) of
`msgrcv` ends in a return. -/
theorem not_reported_enospc :
    (∃ t, system.run (start (.zero maxMtext)) [.ok, .error 28] = some t ∧ t.pc = .create ∧
      ¬Reported t) ∧
    (∃ t, system.run (start (.zero maxMtext)) [.ok, .id 0, .ok, .ok, .ok, .error 43] = some t ∧
      t.pc = .returned ∧ ¬Reported t) ∧
    ¬∃ n, ∀ as, KeepsFailing 28 as → as.length ≤ n := by
  refine ⟨⟨_, rfl, rfl, fun h => ?_⟩, ⟨_, rfl, rfl, fun h => ?_⟩, not_bounded 28⟩
  · exact Bool.noConfusion (h rfl)
  · exact Bool.noConfusion (h rfl)

/-! ### Texts -/

/-- The line of a received message is right exactly if the text ends inside. -/
theorem line_store_eq_iff (mtext : Buffer maxMtext) (m : Message) :
    line m.mtype (mtext.store m.mtext) = m.line ↔
      0 ∈ m.mtext ∨ mtext.bytes[m.mtext.length]? = some 0 := by
  rw [← Buffer.cText_store_iff mtext m.length_le, line, Message.line, Line.mk.injEq]
  simp

/-- Outside `msgrcv` nothing is printed, and nothing is taken. -/
theorem step_frame (h : step s r = some t) (hr : ∀ q, s.pc ≠ .receive q) :
    t.printed = s.printed ∧ t.received = s.received := by
  unfold step at h
  split at h
  case h_6 =>
    obtain ⟨-, h⟩ := Option.ite_none_left_eq_some.mp h
    exact Option.some.inj h ▸ ⟨rfl, rfl⟩
  all_goals simp only [Option.some.injEq, reduceCtorEq] at h
  all_goals subst h
  case h_15 => exact absurd ‹_› (hr _)
  case h_3 => rw [afterCreate_eq]; exact ⟨rfl, rfl⟩
  case h_4 => split_ifs <;> exact ⟨rfl, rfl⟩
  all_goals exact ⟨rfl, rfl⟩

theorem exact_of_frame (hi : Exact s) (h : t.printed = s.printed ∧ t.received = s.received) :
    Exact t := by
  rw [Exact, h.1, h.2]
  exact hi

theorem exact_step (hi : Exact s) (h : step s r = some t) :
    Exact t ↔ endsInside s r = true := by
  cases hpc : s.pc with
  | receive msqid =>
    cases r with
    | message m =>
      simp only [step, hpc, afterReceive_eq, Option.some.injEq] at h
      subst h
      rw [Exact, show s.printed = _ from hi, List.map_append, List.map_singleton,
        List.append_cancel_left_eq, List.singleton_inj, line_store_eq_iff]
      simp [endsInside, hpc]
    | error errno =>
      simp only [step, hpc, Option.some.injEq] at h
      subst h
      exact iff_of_true hi (by simp [endsInside, hpc])
    | ok | id => simp [step, hpc] at h
  | _ =>
    have hr : ∀ q, s.pc ≠ .receive q := by simp [hpc]
    exact iff_of_true (exact_of_frame hi (step_frame h hr)) (by simp [endsInside, hpc])

/-- In a run the lines are those of the messages exactly if every message has a zero, or the byte
that is behind it in `mtext` when it arrives is one. -/
theorem texts_exact_iff {as : List Result} (hs : system.init s) (h : system.run s as = some t) :
    system.Throughout Exact s as ↔ system.Along endsInside s as := by
  refine System.throughout_iff_along (I := Exact) (fun _ hi => hi) ?_ ?_ h
  · intro s r t hi ht
    exact ⟨exact_step hi ht, fun hp => hp⟩
  · obtain ⟨mtext, rfl⟩ := hs
    rfl

/-- Each of the two messages ends in a zero, as those of the client do. -/
theorem texts_exact_iff_client : ∃ as t,
    as = [.ok, .id 0, .ok, .ok, .ok, .message ⟨1, [104, 105, 0], by decide, by decide⟩, .ok,
      .message ⟨2, [97, 0], by decide, by decide⟩] ∧
    system.run (start (.zero maxMtext)) as = some t ∧
    t.printed = [⟨1, [104, 105], false⟩, ⟨2, [97], false⟩] ∧
    (system.Throughout Exact (start (.zero maxMtext)) as ↔
      system.Along endsInside (start (.zero maxMtext)) as) :=
  ⟨_, _, rfl, rfl, by decide, texts_exact_iff ⟨_, rfl⟩ rfl⟩

/-- A shorter message without a zero is printed with the end of the one before. -/
theorem not_exact_shorter : ¬∀ s, system.Reachable s → Exact s := by
  intro h
  have hrun : system.Reachable _ :=
    System.reachable_of_isSome (S := system) (s := start (.zero maxMtext)) ⟨_, rfl⟩
      [.ok, .id 0, .ok, .ok, .ok, .message ⟨1, [104, 105, 33], by decide, by decide⟩, .ok,
        .message ⟨2, [97], by decide, by decide⟩] (by decide)
  exact absurd (h _ hrun) (by unfold Exact; decide)

end LinuxApi.QueueServerCalls
