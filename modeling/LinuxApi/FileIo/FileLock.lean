import LinuxApi.Transition.System
import LinuxApi.Kernel.RecordLock

/-! `file_lock_region`. Whether the lock was granted is judged from `errno` after a non-blocking
request, and not at all after a blocking one. The other processes may change their locks at any time, and
any call may change `errno`. -/

namespace LinuxApi.FileLock

/-- `EAGAIN` -/
def eagain : ℕ := 11

/-- `b` and `n` -/
inductive Mode where
  | block | nblock
  deriving DecidableEq

/-- `type` is `F_WRLCK` for the option `w` and `F_RDLCK` for `r`. -/
structure Args where
  pid : ℕ
  type : LockType
  mode : Mode
  start : ℤ
  len : ℤ

/-- The call that comes next, or a `printf`; `report` has the result of `lock_region_is_locked`. -/
inductive Pc where
  | openFile | isLocked
  | report (pid : ℤ)
  | request | announce
  | paused
  | exited (msg : String)
  deriving DecidableEq

/-- What was printed. -/
inductive Line where
  | free | lockedBy (pid : ℤ) | locked
  deriving DecidableEq

/-- `held` is the lock of the process, and `failed` records that its request has failed. -/
structure State where
  pc : Pc
  errno : ℕ
  held : Option (RecordLock ℕ)
  others : List (RecordLock ℕ)
  printed : List Line
  failed : Bool
  deriving DecidableEq

/-- The other processes change their locks, a system call returns, with an `errno` if it failed, or a
`printf` returns, which may change `errno`. -/
inductive Action where
  | others (locks : List (RecordLock ℕ))
  | call (error : Option ℕ)
  | printf (errno : Option ℕ)
  deriving DecidableEq

/-- The process ends and gives its lock back. -/
def State.exit (s : State) (msg : String) : State := { s with pc := .exited msg, held := none }

/-- The lock that is asked for; there is none in a region that does not exist. -/
def Args.lock (a : Args) : Option (RecordLock ℕ) :=
  (Region.ofFlock a.start a.len).map fun region => ⟨a.pid, a.type, region⟩

/-- `lock_region_is_locked`, where the `fcntl` succeeds: the owner of a lock in the way, or 0. -/
def lockRegionIsLocked (others : List (RecordLock ℕ)) (lock : RecordLock ℕ) : ℤ :=
  match others.find? lock.conflicts with
  | some l => l.pid
  | none => 0

/-- Behind the request: the results of `lock_region_block` and `lock_region_nblock` are not used. -/
def afterRequest (a : Args) (s : State) : State :=
  match a.mode with
  | .block => { s with pc := .announce }
  | .nblock =>
    if s.errno = eagain then s.exit "region was locked by others.\n" else { s with pc := .paused }

/-- The result of a system call. A query or a request without an error needs a region, and a lock is
granted only if no other is in the way. -/
def callStep (a : Args) (s : State) (error : Option ℕ) : Option State :=
  match s.pc, error with
  | .openFile, none => some { s with pc := .isLocked }
  | .openFile, some errno => some ({ s with errno }.exit "open()")
  | .isLocked, none => a.lock.map fun lock => { s with pc := .report (lockRegionIsLocked s.others lock) }
  | .isLocked, some errno => some { s with errno, pc := .report (-1) }
  | .request, none =>
    match a.lock with
    | some lock =>
      if s.others.any lock.conflicts then none else some (afterRequest a { s with held := some lock })
    | none => none
  | .request, some errno => some (afterRequest a { s with errno, failed := true })
  | _, _ => none

def printfStep (s : State) (errno : Option ℕ) : Option State :=
  match s.pc with
  | .report pid =>
    some { s with
      printed := s.printed ++ [if pid = 0 then .free else .lockedBy pid]
      errno := errno.getD s.errno
      pc := .request }
  | .announce =>
    some { s with printed := s.printed ++ [.locked], errno := errno.getD s.errno, pc := .paused }
  | _ => none

/-- What the others can have beside a lock of the process. -/
def Admissible (a : Args) (held : Option (RecordLock ℕ)) (locks : List (RecordLock ℕ)) : Prop :=
  (∀ l ∈ locks, l.pid ≠ a.pid) ∧ ∀ h ∈ held, ∀ l ∈ locks, h.conflicts l = false

instance decidableAdmissible (a : Args) (held : Option (RecordLock ℕ)) (locks : List (RecordLock ℕ)) :
    Decidable (Admissible a held locks) :=
  inferInstanceAs (Decidable ((∀ l ∈ locks, l.pid ≠ a.pid) ∧
    ∀ h ∈ held, ∀ l ∈ locks, h.conflicts l = false))

/-- `errno` is left over from earlier calls, and the others have any locks. -/
def system (a : Args) : System State Action where
  init s := s = ⟨.openFile, s.errno, none, s.others, [], false⟩ ∧ Admissible a none s.others
  step s
    | .others locks => if Admissible a s.held locks then some { s with others := locks } else none
    | .call error => callStep a s error
    | .printf errno => printfStep s errno

def Pc.hasExited : Pc → Bool
  | .exited _ => true
  | _ => false

/-- The process has the lock it asked for. -/
def Holds (a : Args) (s : State) : Prop := s.held.isSome = true ∧ s.held = a.lock

/-- It waits, and says that it has locked the region, only with the lock; and it has exited if its
request has failed. -/
structure Honest (a : Args) (s : State) : Prop where
  paused : s.pc = .paused → Holds a s
  printed : .locked ∈ s.printed → Holds a s
  failed : s.failed = true → s.pc.hasExited = true

/-- A request is granted, or it is a non-blocking one and fails with `EAGAIN`. -/
def answered (a : Args) (s : State) : Action → Bool
  | .call (some errno) => s.pc = .request → a.mode = .nblock ∧ errno = eagain
  | _ => true

variable {a : Args} {s t : State} {x : Action}

/-! ### The request -/

/-- The request has not been made. -/
def Pc.asking : Pc → Bool
  | .openFile | .isLocked | .report _ | .request => true
  | _ => false

/-- Before the request nothing was said, and what follows a request has the lock. -/
structure Inv (a : Args) (s : State) : Prop where
  honest : Honest a s
  asking : s.pc.asking = true → .locked ∉ s.printed
  announce : s.pc = .announce → Holds a s

theorem inv_of_asking (hpc : s.pc.asking = true) (hp : .locked ∉ s.printed) (hf : s.failed = false) :
    Inv a s := by
  refine ⟨⟨fun h => ?_, fun h => absurd h hp, fun h => ?_⟩, fun _ => hp, fun h => ?_⟩
  · rw [h] at hpc
    cases hpc
  · rw [hf] at h
    cases h
  · rw [h] at hpc
    cases hpc

theorem inv_exit (hp : .locked ∉ s.printed) (msg : String) : Inv a (s.exit msg) := by
  refine ⟨⟨fun h => ?_, fun h => absurd h hp, fun _ => rfl⟩, fun _ => hp, fun h => ?_⟩ <;> cases h

theorem inv_of_holds (hpc : s.pc.asking = false) (hh : Holds a s) (hf : s.failed = false) :
    Inv a s := by
  refine ⟨⟨fun _ => hh, fun _ => hh, fun h => ?_⟩, fun h => ?_, fun _ => hh⟩
  · rw [hf] at h
    cases h
  · rw [hpc] at h
    cases h

/-- A process that has not exited has seen no failure. -/
theorem Inv.not_failed (hi : Inv a s) (hpc : s.pc.hasExited = false) : s.failed = false := by
  by_contra hf
  exact Bool.noConfusion (hpc.symm.trans (hi.honest.failed (Bool.not_eq_false _ ▸ hf)))

/-- Where the invariant is kept, a condition that holds decides rightly. -/
theorem Inv.decides (hi : Inv a s) {p : Prop} (hp : p) : (Honest a s ↔ p) ∧ (Honest a s → Inv a s) :=
  ⟨iff_of_true hi.honest hp, fun _ => hi⟩

/-- A request that fails is taken for what it is exactly if it does not wait and `errno` is `EAGAIN`. -/
theorem honest_afterRequest_failed (errno : ℕ) (hp : .locked ∉ s.printed) :
    (Honest a (afterRequest a { s with errno, failed := true }) ↔ a.mode = .nblock ∧ errno = eagain) ∧
      (Honest a (afterRequest a { s with errno, failed := true }) →
        Inv a (afterRequest a { s with errno, failed := true })) := by
  unfold afterRequest
  cases hmode : a.mode with
  | block =>
    have hno : ¬Honest a { s with pc := .announce, errno, failed := true } :=
      fun h => Bool.noConfusion (h.failed rfl)
    exact ⟨iff_of_false hno (fun h => by cases h.1), fun h => absurd h hno⟩
  | nblock =>
    by_cases he : errno = eagain
    · have hi : Inv a (State.exit { s with errno, failed := true } "region was locked by others.\n") :=
        inv_exit (s := { s with errno, failed := true }) hp _
      simp only [if_pos he]
      exact hi.decides ⟨trivial, he⟩
    · have hno : ¬Honest a { s with pc := .paused, errno, failed := true } :=
        fun h => Bool.noConfusion (h.failed rfl)
      simp only [if_neg he]
      exact ⟨iff_of_false hno (fun h => he h.2), fun h => absurd h hno⟩

/-- With the lock the process goes on, or exits for an `errno` from before. -/
theorem inv_afterRequest_granted {lock : RecordLock ℕ} (hlock : a.lock = some lock)
    (hp : .locked ∉ s.printed) (hf : s.failed = false) :
    Inv a (afterRequest a { s with held := some lock }) := by
  have hh : ∀ pc, Holds a { s with pc, held := some lock } := fun pc => ⟨rfl, hlock.symm⟩
  unfold afterRequest
  cases a.mode with
  | block => exact inv_of_holds rfl (hh _) hf
  | nblock =>
    simp only
    split_ifs with he
    · exact inv_exit hp _
    · exact inv_of_holds rfl (hh _) hf

theorem callStep_spec {error : Option ℕ} (hi : Inv a s) (h : callStep a s error = some t) :
    (Honest a t ↔ answered a s (.call error) = true) ∧ (Honest a t → Inv a t) := by
  cases hpc : s.pc with
  | openFile =>
    have hp := hi.asking (by rw [hpc]; rfl)
    cases error with
    | none =>
      simp only [callStep, hpc, Option.some.injEq] at h
      have ht : Inv a t := h ▸ inv_of_asking rfl hp (hi.not_failed (by rw [hpc]; rfl))
      exact ht.decides rfl
    | some errno =>
      simp only [callStep, hpc, Option.some.injEq] at h
      have ht : Inv a t := h ▸ inv_exit (s := { s with errno }) hp _
      exact ht.decides (by simp [answered, hpc])
  | isLocked =>
    have hp := hi.asking (by rw [hpc]; rfl)
    have hf := hi.not_failed (by rw [hpc]; rfl)
    cases error with
    | none =>
      simp only [callStep, hpc, Option.map_eq_some_iff] at h
      obtain ⟨lock, -, rfl⟩ := h
      have ht : Inv a { s with pc := .report (lockRegionIsLocked s.others lock) } :=
        inv_of_asking rfl hp hf
      exact ht.decides rfl
    | some errno =>
      simp only [callStep, hpc, Option.some.injEq] at h
      have ht : Inv a t := h ▸ inv_of_asking rfl hp hf
      exact ht.decides (by simp [answered, hpc])
  | request =>
    have hp := hi.asking (by rw [hpc]; rfl)
    have hf := hi.not_failed (by rw [hpc]; rfl)
    cases error with
    | none =>
      cases hlock : a.lock with
      | none => simp [callStep, hpc, hlock] at h
      | some lock =>
        simp only [callStep, hpc, hlock, Option.ite_none_left_eq_some, Option.some.injEq] at h
        have ht : Inv a t := h.2 ▸ inv_afterRequest_granted hlock hp hf
        exact ht.decides rfl
    | some errno =>
      simp only [callStep, hpc, Option.some.injEq] at h
      obtain ⟨hiff, hinv⟩ := honest_afterRequest_failed (a := a) errno hp
      rw [hpc, h] at hiff hinv
      exact ⟨hiff.trans (by simp [answered, hpc]), hinv⟩
  | report | announce | paused | exited => simp [callStep, hpc] at h

theorem inv_printfStep {errno : Option ℕ} (hi : Inv a s) (h : printfStep s errno = some t) :
    Inv a t := by
  unfold printfStep at h
  cases hpc : s.pc with
  | report pid =>
    have hp := hi.asking (by rw [hpc]; rfl)
    simp only [hpc, Option.some.injEq] at h
    refine h ▸ inv_of_asking rfl ?_ (hi.not_failed (by rw [hpc]; rfl))
    rw [List.mem_append, List.mem_singleton]
    split_ifs <;> simp [hp]
  | announce =>
    simp only [hpc, Option.some.injEq] at h
    exact h ▸ inv_of_holds rfl (hi.announce hpc) (hi.not_failed (by rw [hpc]; rfl))
  | openFile | isLocked | request | paused | exited => simp [hpc] at h

theorem honest_step (hi : Inv a s) (h : (system a).step s x = some t) :
    (Honest a t ↔ answered a s x = true) ∧ (Honest a t → Inv a t) := by
  cases x with
  | others locks =>
    obtain ⟨-, h⟩ := Option.ite_none_right_eq_some.mp h
    obtain rfl := Option.some.inj h
    have ht : Inv a { s with others := locks } :=
      ⟨⟨hi.honest.paused, hi.honest.printed, hi.honest.failed⟩, hi.asking, hi.announce⟩
    exact ht.decides rfl
  | call error => exact callStep_spec hi h
  | printf errno =>
    have ht := inv_printfStep hi h
    exact ht.decides rfl

/-- In a run the process waits, and says so, only with its lock, and exits whenever it is refused, exactly
if its request is granted, or is a non-blocking one that fails with `EAGAIN`. -/
theorem waits_only_with_lock_iff {xs : List Action} (hs : (system a).init s)
    (h : (system a).run s xs = some t) :
    (system a).Throughout (Honest a) s xs ↔ (system a).Along (answered a) s xs := by
  refine System.throughout_iff_along (I := Inv a) (fun _ hi => hi.honest) ?_ ?_ h
  · intro s x t hi ht
    exact honest_step hi ht
  · rw [hs.1]
    exact inv_of_asking rfl List.not_mem_nil rfl

/-- Another process gives back its read lock between the query and the non-blocking request. -/
theorem waits_only_with_lock_iff_released : ∃ a s t xs,
    a = ⟨7, .wrlck, .nblock, 0, 10⟩ ∧
    xs = [.call none, .call none, .printf none, .others [], .call none] ∧
    (system a).run s xs = some t ∧ t.printed = [.lockedBy 9] ∧ t.pc = .paused ∧
    ((system a).Throughout (Honest a) s xs ↔ (system a).Along (answered a) s xs) := by
  let s : State := ⟨.openFile, 0, none, [⟨9, .rdlck, ⟨0, none, by simp⟩⟩], [], false⟩
  have hs : (system ⟨7, .wrlck, .nblock, 0, 10⟩).init s := ⟨rfl, by decide⟩
  exact ⟨_, s, _, _, rfl, rfl, rfl, rfl, rfl, waits_only_with_lock_iff hs rfl⟩

/-- A blocking request fails with `EDEADLK` (35), and the process says that it has the lock and waits; so
it waits after a non-blocking one that fails with `ENOLCK` (37). -/
theorem not_honest_without_lock :
    (∃ a s t, a.mode = .block ∧ (system a).init s ∧
      (system a).run s [.call none, .call none, .printf none, .call (some 35), .printf none] = some t ∧
      t.pc = .paused ∧ t.held = none ∧ t.printed = [.free, .locked] ∧ ¬Honest a t) ∧
    ∃ a s t, a.mode = .nblock ∧ (system a).init s ∧
      (system a).run s [.call none, .call none, .printf none, .call (some 37)] = some t ∧
      t.pc = .paused ∧ t.held = none ∧ ¬Honest a t := by
  let s : State := ⟨.openFile, 0, none, [], [], false⟩
  refine ⟨⟨⟨7, .wrlck, .block, 0, 10⟩, s, _, rfl, ⟨rfl, by decide⟩, rfl, rfl, rfl, rfl, fun h => ?_⟩,
    ⟨7, .wrlck, .nblock, 0, 10⟩, s, _, rfl, ⟨rfl, by decide⟩, rfl, rfl, rfl, fun h => ?_⟩
  · exact Bool.noConfusion (h.paused rfl).1
  · exact Bool.noConfusion (h.paused rfl).1

/-! ### The locks of the others -/

theorem admissible_exit (h : Admissible a s.held s.others) (msg : String) :
    Admissible a (s.exit msg).held (s.exit msg).others :=
  ⟨h.1, fun _ hh => by cases hh⟩

theorem admissible_afterRequest (h : Admissible a s.held s.others) :
    Admissible a (afterRequest a s).held (afterRequest a s).others := by
  unfold afterRequest
  cases a.mode with
  | block => exact h
  | nblock =>
    simp only
    split_ifs
    · exact admissible_exit h _
    · exact h

theorem admissible_step (hi : Admissible a s.held s.others) (h : (system a).step s x = some t) :
    Admissible a t.held t.others := by
  cases x with
  | others locks =>
    obtain ⟨hlocks, h⟩ := Option.ite_none_right_eq_some.mp h
    exact Option.some.inj h ▸ hlocks
  | printf errno =>
    simp only [system, printfStep] at h
    split at h <;> simp only [Option.some.injEq, reduceCtorEq] at h <;> subst h <;> exact hi
  | call error =>
    simp only [system] at h
    unfold callStep at h
    split at h
    case h_1 => exact Option.some.inj h ▸ hi
    case h_2 => exact Option.some.inj h ▸ admissible_exit hi "open()"
    case h_3 =>
      obtain ⟨lock, -, rfl⟩ := Option.map_eq_some_iff.mp h
      exact hi
    case h_4 => exact Option.some.inj h ▸ hi
    case h_5 =>
      split at h
      case h_1 lock hlock =>
        obtain ⟨hno, h⟩ := Option.ite_none_left_eq_some.mp h
        refine Option.some.inj h ▸ admissible_afterRequest ⟨hi.1, ?_⟩
        rintro l ⟨⟩ k hk
        simpa using fun hc => hno (List.any_eq_true.mpr ⟨k, hk, hc⟩)
      case h_2 => cases h
    case h_6 => exact Option.some.inj h ▸ admissible_afterRequest hi
    case h_7 => cases h

/-- While the process has a lock, a byte of its region is in a lock of another process only if both are
read locks. -/
theorem shared_bytes_read_locked (h : (system a).Reachable s) {l k : RecordLock ℕ} (hl : s.held = some l)
    (hk : k ∈ s.others) (hpid : l.pid = a.pid) {n : ℕ} (hln : l.region.Contains n)
    (hkn : k.region.Contains n) : l.type = .rdlck ∧ k.type = .rdlck := by
  have hi : Admissible a s.held s.others := by
    refine h.invariant (I := fun s => Admissible a s.held s.others) (fun s hs => ?_) fun s x t hi ht => ?_
    · rw [hs.1]
      exact hs.2
    · exact admissible_step hi ht
  refine RecordLock.rdlck_of_not_conflicts (hi.2 l hl k hk) ?_ hln hkn
  rw [hpid]
  exact (hi.1 k hk).symm

end LinuxApi.FileLock
