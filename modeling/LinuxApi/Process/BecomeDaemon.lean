import LinuxApi.Kernel.Descriptors
import Mathlib.Data.Int.Notation

/-! `become_daemon` in `process_daemonize.c`: two forks with a `setsid` between them, and then the
file mask, the directory and the descriptors of the grandchild. The loop of `close` stops at the
soft limit of the moment, whatever is open above it. -/

namespace LinuxApi.BecomeDaemon

/-- `BD_NO_CHDIR` -/
def noChdir : Int32 := 0o1

/-- `BD_NO_CLOSE_FILES` -/
def noCloseFiles : Int32 := 0o2

/-- `BD_NO_REOPEN_STD_FDS` -/
def noReopenStdFds : Int32 := 0o4

/-- `BD_NO_UMASK0` -/
def noUmask0 : Int32 := 0o10

/-- `BD_MAX_CLOSE` -/
def maxClose : ℤ := 8192

/-- `flags & mask` -/
def isSet (flags mask : Int32) : Bool := flags &&& mask != 0

/-- An open file of the caller, or the `/dev/null` of `become_daemon`. -/
inductive File (φ : Type*) where
  | caller (f : φ)
  | devNull
  deriving DecidableEq

structure Process (φ : Type*) where
  pid : ℕ
  pgid : ℕ
  sid : ℕ
  umask : ℕ
  cwd : String
  table : Descriptors φ

/-- What the kernel answers. `child` and `grandchild` are the pids of the two forks, `none` for -1;
the other calls may fail, `open` and `dup2` also at the soft limit. -/
structure Kernel where
  child : Option ℕ
  grandchild : Option ℕ
  limit : ℕ
  chdirOk : Bool
  sysconfOk : Bool
  openOk : Bool
  stdoutOk : Bool
  stderrOk : Bool

variable {φ : Type*}

namespace Process

/-- The same process, its files marked as those of the caller. -/
def asCaller (p : Process φ) : Process (File φ) :=
  ⟨p.pid, p.pgid, p.sid, p.umask, p.cwd, fun fd => (p.table fd).map .caller⟩

/-- The child of a `fork`. Its pid is not in use for a process, a group or a session. -/
def fork (p : Process φ) (pid : ℕ) : Option (Process φ) :=
  if pid ∈ [p.pid, p.pgid, p.sid] then none else some { p with pid }

/-- `setsid` fails for the leader of a process group. -/
def setsid (p : Process φ) : Option (Process φ) :=
  if p.pid = p.pgid then none else some { p with pgid := p.pid, sid := p.pid }

end Process

/-- The value of `maxfds` at the loop: `sysconf(_SC_OPEN_MAX)` as an `int`. -/
def maxfds (k : Kernel) : ℤ :=
  let maxfds := if k.sysconfOk then (Int32.ofNat k.limit).toInt else -1
  if maxfds = -1 then maxClose else maxfds

/-- `open("/dev/null", O_RDWR)` -/
def openNull (k : Kernel) (t : Descriptors (File φ)) : Option (ℕ × Descriptors (File φ)) :=
  if k.openOk then t.openFile k.limit .devNull else none

/-- `dup2(STDIN_FILENO, fd)` -/
def dupStdin (limit : ℕ) (ok : Bool) (fd : ℕ) (t : Descriptors φ) : Option (Descriptors φ) :=
  if ok then t.dup2 limit 0 fd else none

/-- The standard descriptors on `/dev/null`, and the value returned. -/
def reopenStdFds (k : Kernel) (t : Descriptors (File φ)) : ℤ × Descriptors (File φ) :=
  let t := t.close 0
  match openNull k t with
  | none => (-1, t)
  | some (fd, t) =>
    if fd ≠ 0 then (-1, t)
    else
      match dupStdin k.limit k.stdoutOk 1 t with
      | none => (-1, t)
      | some t =>
        match dupStdin k.limit k.stderrOk 2 t with
        | none => (-1, t)
        | some t => (0, t)

/-- The part that the grandchild runs. -/
def grandchild (k : Kernel) (flags : Int32) (p : Process (File φ)) : ℤ × Process (File φ) :=
  let p := if isSet flags noUmask0 then p else { p with umask := 0 }
  let p := if isSet flags noChdir then p else if k.chdirOk then { p with cwd := "/" } else p
  let p :=
    if isSet flags noCloseFiles then p
    else { p with table := p.table.closeBelow (maxfds k).toNat }
  if isSet flags noReopenStdFds then (0, p)
  else
    let r := reopenStdFds k p.table
    (r.1, { p with table := r.2 })

/-- The value `become_daemon` returns and the process in which it does; the parents end with
`_exit`. There is no outcome with a pid that is in use. -/
def becomeDaemon (k : Kernel) (flags : Int32) (caller : Process φ) :
    Option (ℤ × Process (File φ)) :=
  let p := caller.asCaller
  match k.child with
  | none => some (-1, p)
  | some pid =>
    (p.fork pid).bind fun p =>
      match p.setsid with
      | none => some (-1, p)
      | some p =>
        match k.grandchild with
        | none => some (-1, p)
        | some pid => (p.fork pid).map fun p => grandchild k flags p

/-- Not a session leader, nothing left of the caller's files, the standard descriptors on
`/dev/null`; the last two as far as the flags ask for them. -/
structure Daemon (flags : Int32) (q : Process (File φ)) : Prop where
  not_leader : q.pid ≠ q.sid
  closed : isSet flags noCloseFiles = false → ∀ fd f, q.table fd ≠ some (.caller f)
  reopened : isSet flags noReopenStdFds = false → ∀ fd ≤ 2, q.table fd = some .devNull

/-- Every open descriptor is below the bound of the loop, or is one that is reopened. -/
def Reached (k : Kernel) (flags : Int32) (caller : Process φ) : Prop :=
  ∀ fd, (caller.table fd).isSome →
    (fd : ℤ) < maxfds k ∨ isSet flags noReopenStdFds = false ∧ fd ≤ 2

/-! ### The two sessions -/

/-- The child is in the group of its parent and leads none, so `setsid` succeeds. -/
theorem setsid_fork {p q : Process φ} {pid : ℕ} (h : p.fork pid = some q) :
    q.setsid = some { p with pid, pgid := pid, sid := pid } := by
  obtain ⟨hpid, h⟩ := Option.ite_none_left_eq_some.mp h
  obtain rfl := Option.some.inj h
  have hgroup : pid ≠ p.pgid := by
    intro hpgid
    apply hpid
    simp [hpgid]
  rw [Process.setsid, if_neg hgroup]

/-- A child does not lead the session of its parent. -/
theorem fork_not_leader {p q : Process φ} {pid : ℕ} (h : p.fork pid = some q) :
    q.pid ≠ q.sid ∧ q.table = p.table := by
  obtain ⟨hpid, h⟩ := Option.ite_none_left_eq_some.mp h
  obtain rfl := Option.some.inj h
  refine ⟨fun hsid => hpid ?_, rfl⟩
  have hsid : pid = p.sid := hsid
  simp [hsid]

/-! ### The descriptors -/

variable {k : Kernel} {flags : Int32}

/-- With 0 closed before it, `open` can only give 0. -/
theorem openNull_eq_some {t : Descriptors (File φ)} {r : ℕ × Descriptors (File φ)}
    (h : openNull k (t.close 0) = some r) :
    r = (0, Function.update (t.close 0) 0 (some .devNull)) := by
  obtain ⟨-, h⟩ := Option.ite_none_right_eq_some.mp h
  rw [Descriptors.openFile_of_zero (t.close_self 0)] at h
  obtain ⟨-, h⟩ := Option.ite_none_right_eq_some.mp h
  exact (Option.some.inj h).symm

theorem dupStdin_eq_some {limit fd : ℕ} {ok : Bool} {t u : Descriptors φ}
    (h : dupStdin limit ok fd t = some u) : u = Function.update t fd (t 0) := by
  obtain ⟨-, h⟩ := Option.ite_none_right_eq_some.mp h
  exact (Descriptors.dup2_eq_some.mp h).2

/-- A successful reopening puts `/dev/null` on 0, 1 and 2 and leaves the others. -/
theorem reopenStdFds_apply {t u : Descriptors (File φ)} (h : reopenStdFds k t = (0, u)) (fd : ℕ) :
    u fd = if fd ≤ 2 then some .devNull else t fd := by
  have hzero : ¬((0 : ℕ) ≠ 0) := fun hne => hne rfl
  cases hopen : openNull k (t.close 0) with
  | none =>
    simp only [reopenStdFds, hopen, Prod.mk.injEq] at h
    exact absurd h.1 (by decide)
  | some r =>
    obtain rfl := openNull_eq_some hopen
    cases hstdout : dupStdin k.limit k.stdoutOk 1 (Function.update (t.close 0) 0 (some .devNull)) with
    | none =>
      simp only [reopenStdFds, hopen, if_neg hzero, hstdout, Prod.mk.injEq] at h
      exact absurd h.1 (by decide)
    | some v =>
      cases hstderr : dupStdin k.limit k.stderrOk 2 v with
      | none =>
        simp only [reopenStdFds, hopen, if_neg hzero, hstdout, hstderr, Prod.mk.injEq] at h
        exact absurd h.1 (by decide)
      | some w =>
        simp only [reopenStdFds, hopen, if_neg hzero, hstdout, hstderr, Prod.mk.injEq] at h
        obtain rfl : w = u := h.2
        obtain rfl := dupStdin_eq_some hstdout
        obtain rfl := dupStdin_eq_some hstderr
        match fd with
        | 0 | 1 | 2 => rfl
        | fd + 3 => rfl

/-- The table after a return of 0, descriptor by descriptor. -/
def finalTable (k : Kernel) (flags : Int32) (t : Descriptors (File φ)) (fd : ℕ) : Option (File φ) :=
  if isSet flags noReopenStdFds = false ∧ fd ≤ 2 then some .devNull
  else if isSet flags noCloseFiles = false ∧ (fd : ℤ) < maxfds k then none
  else t fd

theorem grandchild_eq_zero {p q : Process (File φ)} (h : grandchild k flags p = (0, q)) :
    q.pid = p.pid ∧ q.sid = p.sid ∧ q.table = finalTable k flags p.table := by
  unfold grandchild at h
  extract_lets masked moved closed at h
  have hmasked : masked.pid = p.pid ∧ masked.sid = p.sid ∧ masked.table = p.table := by
    unfold masked
    split_ifs <;> exact ⟨rfl, rfl, rfl⟩
  have hmoved : moved.pid = p.pid ∧ moved.sid = p.sid ∧ moved.table = p.table := by
    unfold moved
    split_ifs <;> exact hmasked
  have hclosed : closed.pid = p.pid ∧ closed.sid = p.sid ∧ ∀ fd, closed.table fd =
      if isSet flags noCloseFiles = false ∧ (fd : ℤ) < maxfds k then none else p.table fd := by
    unfold closed
    cases isSet flags noCloseFiles with
    | true => exact ⟨hmoved.1, hmoved.2.1, fun fd => by simp [hmoved.2.2]⟩
    | false =>
      refine ⟨hmoved.1, hmoved.2.1, fun fd => ?_⟩
      show moved.table.closeBelow (maxfds k).toNat fd = _
      rw [Descriptors.closeBelow_apply, hmoved.2.2]
      simp only [Int.lt_toNat, true_and]
  obtain ⟨hpid, hsid, htable⟩ := hclosed
  cases hreopen : isSet flags noReopenStdFds with
  | true =>
    simp only [hreopen, if_true, Prod.mk.injEq, true_and] at h
    obtain rfl := h
    refine ⟨hpid, hsid, funext fun fd => ?_⟩
    simp only [htable, finalTable, hreopen, Bool.true_eq_false, false_and, if_false]
  | false =>
    simp only [hreopen, Bool.false_eq_true, if_false, Prod.mk.injEq] at h
    obtain ⟨hzero, rfl⟩ := h
    refine ⟨hpid, hsid, funext fun fd => ?_⟩
    have hreopened : reopenStdFds k closed.table = (0, (reopenStdFds k closed.table).2) :=
      Prod.ext hzero rfl
    show (reopenStdFds k closed.table).2 fd = finalTable k flags p.table fd
    rw [reopenStdFds_apply hreopened, htable]
    simp only [finalTable, hreopen, true_and]

theorem becomeDaemon_eq_zero {caller : Process φ} {q : Process (File φ)}
    (h : becomeDaemon k flags caller = some (0, q)) :
    q.pid ≠ q.sid ∧ q.table = finalTable k flags caller.asCaller.table := by
  unfold becomeDaemon at h
  cases hchild : k.child with
  | none =>
    simp only [hchild, Option.some.injEq, Prod.mk.injEq] at h
    exact absurd h.1 (by decide)
  | some pid =>
    simp only [hchild, Option.bind_eq_some_iff] at h
    obtain ⟨child, hfork, h⟩ := h
    rw [setsid_fork hfork] at h
    cases hgrandchild : k.grandchild with
    | none =>
      simp only [hgrandchild, Option.some.injEq, Prod.mk.injEq] at h
      exact absurd h.1 (by decide)
    | some pid' =>
      simp only [hgrandchild, Option.map_eq_some_iff] at h
      obtain ⟨p, hfork', h⟩ := h
      obtain ⟨hleader, htable⟩ := fork_not_leader hfork'
      obtain ⟨hpid, hsid, hq⟩ := grandchild_eq_zero h
      rw [hpid, hsid, hq, htable]
      exact ⟨hleader, rfl⟩

/-! ### A return of 0 -/

/-- A return of 0 leaves a daemon exactly if the files were not to be closed, or each descriptor open
before was below the bound of the loop or one of those reopened. -/
theorem become_daemon_iff {caller : Process φ} {q : Process (File φ)}
    (h : becomeDaemon k flags caller = some (0, q)) :
    Daemon flags q ↔ isSet flags noCloseFiles = true ∨ Reached k flags caller := by
  obtain ⟨hleader, htable⟩ := becomeDaemon_eq_zero h
  constructor
  · intro hd
    cases hclose : isSet flags noCloseFiles with
    | true => exact .inl rfl
    | false =>
      refine .inr fun fd hopen => ?_
      by_contra hno
      obtain ⟨hmaxfds, hstd⟩ := not_or.mp hno
      obtain ⟨f, hf⟩ := Option.isSome_iff_exists.mp hopen
      apply hd.closed hclose fd f
      rw [htable, finalTable, if_neg hstd, if_neg fun hboth => hmaxfds hboth.2]
      simp [Process.asCaller, hf]
  · intro hreached
    refine ⟨hleader, fun hclose fd f hfile => ?_, fun hreopen fd hfd => ?_⟩
    · have hreached := hreached.resolve_left (by rw [hclose]; decide)
      rw [htable, finalTable] at hfile
      split_ifs at hfile with hstd hmaxfds
      · cases hfile
      · have hopen : (caller.table fd).isSome = true := by
          by_contra hnone
          simp [Process.asCaller, Option.not_isSome_iff_eq_none.mp hnone] at hfile
        rcases hreached fd hopen with hlow | hlow
        · exact hmaxfds ⟨hclose, hlow⟩
        · exact hstd hlow
    · rw [htable, finalTable, if_pos ⟨hreopen, hfd⟩]

/-- A kernel that refuses nothing, with a limit of 16. -/
def kernel : Kernel := ⟨some 101, some 102, 16, true, true, true, true, true⟩

/-- A caller that has the standard descriptors and one more. -/
def callerWith (fd : ℕ) : Process ℕ :=
  ⟨100, 100, 50, 0o22, "/home", fun x => if x ≤ 2 ∨ x = fd then some x else none⟩

theorem becomeDaemon_callerWith (fd : ℕ) :
    ∃ q, becomeDaemon kernel 0 (callerWith fd) = some (0, q) := by
  have h : (becomeDaemon kernel 0 (callerWith fd)).map Prod.fst = some 0 := rfl
  obtain ⟨⟨n, q⟩, h, rfl⟩ := Option.map_eq_some_iff.mp h
  exact ⟨q, h⟩

theorem become_daemon_iff_five :
    ∃ q, becomeDaemon kernel 0 (callerWith 5) = some (0, q) ∧ Daemon 0 q := by
  obtain ⟨q, h⟩ := becomeDaemon_callerWith 5
  refine ⟨q, h, (become_daemon_iff h).mpr (.inr fun fd hopen => ?_)⟩
  have hfd : fd ≤ 2 ∨ fd = 5 := by simpa [callerWith] using hopen
  have hmaxfds : maxfds kernel = 16 := by decide
  rw [hmaxfds]
  omega

/-- The limit was lowered after descriptor 20 had been opened. -/
theorem not_daemon_twenty :
    ∃ q, becomeDaemon kernel 0 (callerWith 20) = some (0, q) ∧ ¬Daemon 0 q := by
  obtain ⟨q, h⟩ := becomeDaemon_callerWith 20
  refine ⟨q, h, fun hd => hd.closed (by decide) 20 20 ?_⟩
  rw [(becomeDaemon_eq_zero h).2]
  decide

end LinuxApi.BecomeDaemon
