import LinuxApi.Kernel.SharedLock
import LinuxApi.Transition.History
import LinuxApi.Transition.Indexed
import LinuxApi.Transition.System
import Mathlib.Data.Fin.VecNotation

/-! `file_lock_flock` in `file_lock.c`, run by any number of processes on the same file. The history holds what
each of them does with the lock and the line it prints. -/

namespace LinuxApi.Flock

/-- What `getopt` finds. Without one of the two options nothing sets `lock`, which then has any value. -/
inductive Opt where
  | s | e
  | other (lock : BitVec 32)
  deriving DecidableEq

/-- `LOCK_SH` or `LOCK_EX`. -/
def Opt.lock : Opt → BitVec 32
  | .s => 1
  | .e => 2
  | .other lock => lock

inductive Request where
  | lock (mode : LockMode) (block : Bool)
  | unlock
  | ignored
  | invalid
  deriving DecidableEq

/-- What `flock` makes of its second argument, where 4 is `LOCK_NB` and 8 is `LOCK_UN`. With 32, which is
`LOCK_MAND`, it returns 0 and does nothing. -/
def request (operation : BitVec 32) : Request :=
  if operation &&& 32 ≠ 0 then .ignored
  else
    let block := decide (operation &&& 4 = 0)
    match (operation &&& ~~~4).toNat with
    | 1 => .lock .shared block
    | 2 => .lock .exclusive block
    | 8 => .unlock
    | _ => .invalid

inductive Pc where
  | opening | locking | print | sleep | unlocking
  | done
  | failed (msg : String)
  | killed
  deriving DecidableEq

/-- The process has ended. -/
def Pc.ended : Pc → Bool
  | .done | .failed _ | .killed => true
  | _ => false

/-- The process is between its two calls of `flock`. -/
def Pc.inside : Pc → Bool
  | .print | .sleep | .unlocking => true
  | _ => false

inductive Event where
  | granted (mode : LockMode)
  | refused
  | printed (text : String)
  | released
  deriving DecidableEq

/-- The line of a process that has come behind its first `flock`. -/
def acquiredText (lock : BitVec 32) : String := "lock(type = " ++ toString lock.toInt ++ ") was acquired.\n"

structure State (ι : Type*) where
  lock : SharedLock ι
  pc : ι → Pc
  history : List (ι × Event)

/-- How the next call of a process ends. -/
inductive Outcome where
  | ok | error | killed
  deriving DecidableEq

structure Action (ι : Type*) where
  who : ι
  outcome : Outcome

variable {ι : Type*} [DecidableEq ι]

def State.goto (s : State ι) (i : ι) (pc : Pc) : State ι := { s with pc := Function.update s.pc i pc }

/-- What a process holds is given back by `LOCK_UN`, and when it ends. -/
def State.leave (s : State ι) (i : ι) (pc : Pc) : State ι :=
  if s.lock.holders.any (·.1 = i) then
    { s.goto i pc with lock := s.lock.release i, history := s.history ++ [(i, .released)] }
  else s.goto i pc

/-- The first `flock`, which waits for those in the way unless it must not block. -/
def flock (operation : BitVec 32) (s : State ι) (i : ι) : Option (State ι) :=
  match request operation with
  | .lock mode block =>
    match s.lock.acquire i mode with
    | some l => some { s.goto i .print with lock := l, history := s.history ++ [(i, .granted mode)] }
    | none =>
      if block then none
      else some { s.goto i (.failed "file is locked already.\n") with history := s.history ++ [(i, .refused)] }
  | .unlock | .ignored => some (s.goto i .print)
  | .invalid => some (s.goto i (.failed "flock()"))

def fileLockFlock (lock : BitVec 32) (s : State ι) (i : ι) (outcome : Outcome) : Option (State ι) :=
  match outcome with
  | .ok =>
    match s.pc i with
    | .opening => some (s.goto i .locking)
    | .locking => flock lock s i
    | .print => some { s.goto i .sleep with history := s.history ++ [(i, .printed (acquiredText lock))] }
    | .sleep => some (s.goto i .unlocking)
    | .unlocking => some (s.leave i .done)
    | _ => none
  | .error =>
    match s.pc i with
    | .opening => some (s.goto i (.failed "open()"))
    | .locking | .unlocking => some (s.leave i (.failed "flock()"))
    | _ => none
  | .killed => if (s.pc i).ended then none else some (s.leave i .killed)

/-- `opt i` is the option that the process `i` is started with. -/
def system (opt : ι → Opt) : System (State ι) (Action ι) where
  init s := s = ⟨.free, fun _ => .opening, []⟩
  step s a := fileLockFlock (opt a.who).lock s a.who a.outcome

/-! ### Who holds the lock -/

/-- Among its events, a process has been granted the lock and has not given it back. -/
def Holds (own : List Event) (m : LockMode) : Prop := .granted m ∈ own ∧ .released ∉ own

/-- What the events before allow: a lock is granted only beside holders that it goes together with, and refused
only when there is another one; and only who holds it prints that, and gives it back. -/
def Legal (opt : ι → Opt) (pre : List (ι × Event)) : ι × Event → Prop
  | (i, .granted m) => (∃ block, request (opt i).lock = .lock m block) ∧
      ∀ j k, Holds (eventsOf j pre) k → m.compatible k = true
  | (i, .refused) => ∃ m j k, request (opt i).lock = .lock m false ∧ Holds (eventsOf j pre) k ∧
      m.compatible k = false
  | (i, .printed text) => text = acquiredText (opt i).lock ∧
      ∀ m block, request (opt i).lock = .lock m block → Holds (eventsOf i pre) m
  | (i, .released) => ∃ m, Holds (eventsOf i pre) m

/-- What is granted by the first `flock` of a process. -/
def grant (lock : BitVec 32) : List Event :=
  match request lock with
  | .lock m _ => [.granted m]
  | _ => []

/-- The events of a process that comes to its end. -/
def complete (lock : BitVec 32) : List Event :=
  match request lock with
  | .lock m _ => [.granted m, .printed (acquiredText lock), .released]
  | _ => [.printed (acquiredText lock)]

/-- The events of a process, by its place. -/
def Own (lock : BitVec 32) (own : List Event) : Pc → Prop
  | .opening | .locking => own = []
  | .print => own = grant lock
  | .sleep | .unlocking => own = grant lock ++ [.printed (acquiredText lock)]
  | .done => own = complete lock
  | .failed _ | .killed => ∀ m, ¬ Holds own m

structure Inv (opt : ι → Opt) (s : State ι) : Prop where
  holders : ∀ i m, (i, m) ∈ s.lock.holders ↔ Holds (eventsOf i s.history) m
  legal : Each (Legal opt) s.history
  own : ∀ i, Own (opt i).lock (eventsOf i s.history) (s.pc i)

variable {opt : ι → Opt} {s t : State ι} {i j : ι} {m k : LockMode} {lock : BitVec 32}

theorem goto_self (s : State ι) (i : ι) (pc : Pc) : (s.goto i pc).pc i = pc := Function.update_self ..

theorem goto_of_ne (s : State ι) (pc : Pc) (h : j ≠ i) : (s.goto i pc).pc j = s.pc j :=
  Function.update_of_ne h ..

/-- A step that leaves the lock alone. -/
theorem Inv.quiet (hi : Inv opt s) {pc : Pc} (hown : Own (opt i).lock (eventsOf i s.history) pc) :
    Inv opt (s.goto i pc) := by
  refine ⟨hi.holders, hi.legal, fun j => ?_⟩
  by_cases hj : j = i
  · subst hj
    rw [goto_self]
    exact hown
  · rw [goto_of_ne s pc hj]
    exact hi.own j

/-- A step with an event. -/
theorem Inv.event (hi : Inv opt s) {pc : Pc} {e : Event} {l : SharedLock ι}
    (hlegal : Legal opt s.history (i, e)) (hown : Own (opt i).lock (eventsOf i s.history ++ [e]) pc)
    (hself : ∀ m, (i, m) ∈ l.holders ↔ Holds (eventsOf i s.history ++ [e]) m)
    (hother : ∀ j m, j ≠ i → ((j, m) ∈ l.holders ↔ (j, m) ∈ s.lock.holders)) :
    Inv opt { s.goto i pc with lock := l, history := s.history ++ [(i, e)] } := by
  refine ⟨fun j m => ?_, hi.legal.concat hlegal, fun j => ?_⟩
  · dsimp only
    rw [eventsOf_concat]
    by_cases hj : j = i
    · subst hj
      rw [if_pos rfl]
      exact hself m
    · rw [if_neg (Ne.symm hj), List.append_nil, hother j m hj]
      exact hi.holders j m
  · dsimp only
    rw [eventsOf_concat]
    by_cases hj : j = i
    · subst hj
      rw [goto_self, if_pos rfl]
      exact hown
    · rw [goto_of_ne s pc hj, if_neg (Ne.symm hj), List.append_nil]
      exact hi.own j

theorem holds_concat_iff {own : List Event} {e : Event} (hg : ∀ m, e ≠ .granted m) (hr : e ≠ .released) :
    Holds (own ++ [e]) m ↔ Holds own m := by
  have hm := Ne.symm (hg m)
  simp [Holds, hm, Ne.symm hr]

/-- A step with an event that is about no change of the lock. -/
theorem Inv.tell (hi : Inv opt s) {pc : Pc} {e : Event} (hg : ∀ m, e ≠ .granted m) (hr : e ≠ .released)
    (hlegal : Legal opt s.history (i, e)) (hown : Own (opt i).lock (eventsOf i s.history ++ [e]) pc) :
    Inv opt { s.goto i pc with history := s.history ++ [(i, e)] } := by
  apply hi.event hlegal hown
  · intro m
    rw [holds_concat_iff hg hr]
    exact hi.holders i m
  · intro j m _
    rfl

theorem not_holds_released (own : List Event) (m : LockMode) : ¬ Holds (own ++ [.released]) m := by
  intro h
  exact h.2 (List.mem_append_right own List.mem_cons_self)

/-- The lock is given back, if it is held. -/
theorem Inv.leave (hi : Inv opt s) {pc : Pc}
    (hheld : ∀ m, Holds (eventsOf i s.history) m → Own (opt i).lock (eventsOf i s.history ++ [.released]) pc)
    (hfree : (∀ m, ¬ Holds (eventsOf i s.history) m) → Own (opt i).lock (eventsOf i s.history) pc) :
    Inv opt (s.leave i pc) := by
  unfold State.leave
  split_ifs with hany
  · obtain ⟨⟨j, m⟩, hmem, hj⟩ := List.any_eq_true.mp hany
    obtain rfl : j = i := of_decide_eq_true hj
    have hm := (hi.holders j m).mp hmem
    apply hi.event
    · exact ⟨m, hm⟩
    · exact hheld m hm
    · intro k
      constructor
      · intro hk
        exact absurd rfl (SharedLock.mem_release.mp hk).2
      · intro hk
        exact absurd hk (not_holds_released _ k)
    · intro p k hp
      rw [SharedLock.mem_release]
      exact and_iff_left hp
  · apply hi.quiet
    apply hfree
    intro m hm
    apply hany
    exact List.any_eq_true.mpr ⟨(i, m), (hi.holders i m).mpr hm, decide_eq_true rfl⟩

/-- A process that ends before its time. -/
theorem Inv.stop (hi : Inv opt s) (i : ι) {pc : Pc} (hpc : ∀ own, (∀ m, ¬ Holds own m) → Own (opt i).lock own pc) :
    Inv opt (s.leave i pc) :=
  hi.leave (fun _ _ => hpc _ (not_holds_released _)) fun h => hpc _ h

theorem not_holds_nil (m : LockMode) : ¬ Holds [] m := by
  intro h
  exact List.not_mem_nil h.1

/-- Whoever is in the way has been granted the lock. -/
theorem Inv.exists_holds (hi : Inv opt s) (h : s.lock.acquire i m = none) :
    ∃ j k, Holds (eventsOf j s.history) k ∧ m.compatible k = false := by
  obtain ⟨⟨j, k⟩, hmem, hk⟩ := SharedLock.acquire_eq_none h
  exact ⟨j, k, (hi.holders j k).mp hmem, hk⟩

theorem Inv.flock_step (hi : Inv opt s) (hpc : s.pc i = .locking) (h : flock (opt i).lock s i = some t) :
    Inv opt t := by
  have hown : eventsOf i s.history = [] := by
    have hown := hi.own i
    rw [hpc] at hown
    exact hown
  unfold flock at h
  cases hreq : request (opt i).lock with
  | lock m block =>
    simp only [hreq] at h
    cases hacq : s.lock.acquire i m with
    | some l =>
      simp only [hacq, Option.some.injEq] at h
      subst h
      obtain ⟨hgrants, hl⟩ := SharedLock.acquire_eq_some hacq
      apply hi.event
      · refine ⟨⟨block, hreq⟩, fun j k hk => ?_⟩
        exact SharedLock.compatible_of_grants hgrants ((hi.holders j k).mpr hk)
      · rw [hown]
        simp [Own, grant, hreq]
      · intro k
        rw [hl, List.mem_cons, hi.holders i k, hown]
        simp [Holds]
      · intro j k hj
        rw [hl, List.mem_cons]
        simp [hj]
    | none =>
      simp only [hacq, Option.ite_none_left_eq_some, Option.some.injEq] at h
      obtain ⟨hblock, rfl⟩ := h
      obtain ⟨j, k, hk, hconf⟩ := hi.exists_holds hacq
      rw [Bool.not_eq_true] at hblock
      subst hblock
      apply hi.tell (by simp) (by simp)
      · exact ⟨m, j, k, hreq, hk, hconf⟩
      · rw [hown]
        intro n
        simp [Holds]
  | unlock | ignored =>
    simp only [hreq, Option.some.injEq] at h
    subst h
    apply hi.quiet
    simp [Own, grant, hreq, hown]
  | invalid =>
    simp only [hreq, Option.some.injEq] at h
    subst h
    apply hi.quiet
    rw [hown]
    exact not_holds_nil

/-- A process behind its first `flock` holds what it has asked for. -/
theorem Inv.holds_inside (hi : Inv opt s) (hpc : (s.pc i).inside = true) {block : Bool}
    (hreq : request (opt i).lock = .lock m block) : Holds (eventsOf i s.history) m := by
  have hown := hi.own i
  have hgrant : grant (opt i).lock = [.granted m] := by simp [grant, hreq]
  cases hi : s.pc i with
  | print =>
    rw [hi] at hown
    unfold Own at hown
    rw [hown, hgrant]
    simp [Holds]
  | sleep | unlocking =>
    rw [hi] at hown
    unfold Own at hown
    rw [hown, hgrant]
    simp [Holds]
  | opening | locking | done | failed | killed =>
    rw [hi] at hpc
    cases hpc

theorem Inv.step (hi : Inv opt s) {a : Action ι} (h : (system opt).step s a = some t) : Inv opt t := by
  obtain ⟨i, outcome⟩ := a
  have hown := hi.own i
  simp only [system, fileLockFlock] at h
  cases outcome with
  | ok =>
    cases hpc : s.pc i with
    | opening =>
      simp only [hpc, Option.some.injEq] at h
      subst h
      rw [hpc] at hown
      exact hi.quiet hown
    | locking =>
      simp only [hpc] at h
      exact hi.flock_step hpc h
    | print =>
      simp only [hpc, Option.some.injEq] at h
      subst h
      rw [hpc] at hown
      unfold Own at hown
      apply hi.tell (by simp) (by simp)
      · exact ⟨rfl, fun m block hreq => hi.holds_inside (by rw [hpc]; rfl) hreq⟩
      · rw [hown]
        rfl
    | sleep =>
      simp only [hpc, Option.some.injEq] at h
      subst h
      rw [hpc] at hown
      exact hi.quiet hown
    | unlocking =>
      simp only [hpc, Option.some.injEq] at h
      subst h
      rw [hpc] at hown
      unfold Own at hown
      apply hi.leave
      · intro m hm
        rw [hown] at hm ⊢
        unfold Own complete grant at *
        cases hreq : request (opt i).lock <;> simp_all [Holds]
      · intro hnone
        have hfree : ∀ m block, request (opt i).lock ≠ .lock m block := by
          intro m block hreq
          exact hnone m (hi.holds_inside (by rw [hpc]; rfl) hreq)
        rw [hown]
        unfold Own complete grant
        cases hreq : request (opt i).lock with
        | lock m block => exact absurd hreq (hfree m block)
        | unlock | ignored | invalid => rfl
    | done | failed | killed => simp [hpc] at h
  | error =>
    cases hpc : s.pc i with
    | opening =>
      simp only [hpc, Option.some.injEq] at h
      subst h
      rw [hpc] at hown
      unfold Own at hown
      apply hi.quiet
      rw [hown]
      exact not_holds_nil
    | locking | unlocking =>
      simp only [hpc, Option.some.injEq] at h
      subst h
      exact hi.stop i fun _ hnone => hnone
    | print | sleep | done | failed | killed => simp [hpc] at h
  | killed =>
    simp only [Option.ite_none_left_eq_some, Option.some.injEq] at h
    obtain ⟨-, rfl⟩ := h
    exact hi.stop i fun _ hnone => hnone

theorem inv_reachable (h : (system opt).Reachable s) : Inv opt s := by
  refine h.invariant (I := Inv opt) (fun s hs => ?_) fun s a t hi ht => hi.step ht
  have hs : s = _ := hs
  rw [hs]
  refine ⟨fun i m => ?_, Each.nil, fun i => rfl⟩
  simp [SharedLock.free, Holds, eventsOf]

/-- In every run of any number of processes with any options, whatever fails and whoever is killed: a lock is
granted only beside holders that it goes together with, and refused only when there is another one; only who
holds it prints that and gives it back; and two processes that have asked for the lock are between their calls of
`flock` at the same time only if both have it in common. -/
theorem lock_respected (h : (system opt).Reachable s) :
    Each (Legal opt) s.history ∧
      ∀ i j, i ≠ j → (s.pc i).inside = true → (s.pc j).inside = true → ∀ m k b c,
        request (opt i).lock = .lock m b → request (opt j).lock = .lock k c → m.compatible k = true := by
  have hi := inv_reachable h
  refine ⟨hi.legal, fun i j hij hpi hpj m k b c hm hk => ?_⟩
  have hmi := (hi.holders i m).mpr (hi.holds_inside hpi hm)
  have hkj := (hi.holders j k).mpr (hi.holds_inside hpj hk)
  exact SharedLock.compatible_of_ne hmi hkj hij

/-- Two processes with `-s` and one with `-e`, which gets the lock when the others have given it back. -/
theorem lock_respected_three :
    let opt : Fin 3 → Opt := ![.s, .s, .e]
    ∃ as s t, (system opt).run s as = some t ∧ t.pc 0 = .killed ∧ t.pc 1 = .done ∧ t.pc 2 = .print ∧
      Each (Legal opt) t.history := by
  intro opt
  let as : List (Action (Fin 3)) := [⟨0, .ok⟩, ⟨1, .ok⟩, ⟨2, .ok⟩, ⟨0, .ok⟩, ⟨1, .ok⟩, ⟨1, .ok⟩, ⟨1, .ok⟩,
    ⟨0, .killed⟩, ⟨1, .ok⟩, ⟨2, .ok⟩]
  let s : State (Fin 3) := ⟨.free, fun _ => .opening, []⟩
  have hs : (system opt).init s := rfl
  have hend : ((system opt).run s as).map (fun t => (t.pc 0, t.pc 1, t.pc 2)) =
      some (.killed, .done, .print) := by decide +kernel
  obtain ⟨t, ht, hpc⟩ := Option.map_eq_some_iff.mp hend
  rw [Prod.mk.injEq, Prod.mk.injEq] at hpc
  exact ⟨as, s, t, ht, hpc.1, hpc.2.1, hpc.2.2, (lock_respected (System.reachable_of_run hs as ht)).1⟩

/-! ### Everyone gets the lock -/

def Pc.work : Pc → ℕ
  | .opening => 5
  | .locking => 4
  | .print => 3
  | .sleep => 2
  | .unlocking => 1
  | .done | .failed _ | .killed => 0

def State.work [Fintype ι] (s : State ι) : ℕ := ∑ i, (s.pc i).work

/-- A process that ends by an error or is killed. -/
def Pc.stopped : Pc → Bool
  | .failed _ | .killed => true
  | _ => false

theorem Pc.work_pos {pc : Pc} (h : pc.ended = false) : 0 < pc.work := by
  cases pc with
  | done | failed | killed => cases h
  | opening | locking | print | sleep | unlocking => exact Nat.succ_pos _

theorem leave_pc (s : State ι) (i : ι) (pc : Pc) : (s.leave i pc).pc = Function.update s.pc i pc := by
  unfold State.leave
  split_ifs <;> rfl

theorem flock_pc (h : flock lock s i = some t) :
    ∃ pc, t.pc = Function.update s.pc i pc ∧ pc.work < 4 ∧
      (∀ m, request lock = .lock m true → pc.stopped = false) := by
  unfold flock at h
  cases hreq : request lock with
  | lock m block =>
    simp only [hreq] at h
    cases hacq : s.lock.acquire i m with
    | some l =>
      simp only [hacq, Option.some.injEq] at h
      subst h
      exact ⟨.print, rfl, by decide, fun _ _ => rfl⟩
    | none =>
      simp only [hacq, Option.ite_none_left_eq_some, Option.some.injEq] at h
      obtain ⟨hblock, rfl⟩ := h
      refine ⟨_, rfl, Nat.succ_pos 3, fun k hk => ?_⟩
      rw [(Request.lock.inj hk).2] at hblock
      exact absurd rfl hblock
  | unlock | ignored =>
    simp only [hreq, Option.some.injEq] at h
    subst h
    exact ⟨.print, rfl, by decide, fun _ _ => rfl⟩
  | invalid =>
    simp only [hreq, Option.some.injEq] at h
    subst h
    refine ⟨_, rfl, Nat.succ_pos 3, fun k hk => ?_⟩
    cases hk

/-- A step takes one process further; without an error it does not stop one that waits for its lock. -/
theorem step_pc {a : Action ι} (h : (system opt).step s a = some t) :
    ∃ pc, t.pc = Function.update s.pc a.who pc ∧ pc.work < (s.pc a.who).work ∧
      (a.outcome = .ok → ∀ m, request (opt a.who).lock = .lock m true → pc.stopped = false) := by
  obtain ⟨i, outcome⟩ := a
  simp only [system, fileLockFlock] at h
  cases outcome with
  | ok =>
    cases hpc : s.pc i with
    | opening =>
      simp only [hpc, Option.some.injEq] at h
      subst h
      exact ⟨.locking, rfl, by decide, fun _ _ _ => rfl⟩
    | locking =>
      simp only [hpc] at h
      obtain ⟨pc, ht, hwork, hstop⟩ := flock_pc h
      exact ⟨pc, ht, hwork, fun _ m hm => hstop m hm⟩
    | print =>
      simp only [hpc, Option.some.injEq] at h
      subst h
      exact ⟨.sleep, rfl, by decide, fun _ _ _ => rfl⟩
    | sleep =>
      simp only [hpc, Option.some.injEq] at h
      subst h
      exact ⟨.unlocking, rfl, by decide, fun _ _ _ => rfl⟩
    | unlocking =>
      simp only [hpc, Option.some.injEq] at h
      subst h
      exact ⟨.done, leave_pc s i .done, by decide, fun _ _ _ => rfl⟩
    | done | failed | killed => simp [hpc] at h
  | error =>
    cases hpc : s.pc i with
    | opening =>
      simp only [hpc, Option.some.injEq] at h
      subst h
      exact ⟨_, rfl, Nat.succ_pos 4, fun ho => by cases ho⟩
    | locking =>
      simp only [hpc, Option.some.injEq] at h
      subst h
      exact ⟨_, leave_pc s i _, Nat.succ_pos 3, fun ho => by cases ho⟩
    | unlocking =>
      simp only [hpc, Option.some.injEq] at h
      subst h
      exact ⟨_, leave_pc s i _, Nat.succ_pos 0, fun ho => by cases ho⟩
    | print | sleep | done | failed | killed => simp [hpc] at h
  | killed =>
    simp only [Option.ite_none_left_eq_some, Option.some.injEq, Bool.not_eq_true] at h
    obtain ⟨hended, rfl⟩ := h
    exact ⟨_, leave_pc s i .killed, Pc.work_pos hended, fun ho => by cases ho⟩

theorem work_step [Fintype ι] {a : Action ι} (h : (system opt).step s a = some t) : t.work < s.work := by
  obtain ⟨pc, hpc, hwork, -⟩ := step_pc h
  have hsum := sum_update_add Pc.work s.pc a.who pc
  unfold State.work
  rw [hpc]
  omega

/-- A process whose next call cannot return waits for the lock, and another one holds it. -/
theorem Inv.exists_holder (hi : Inv opt s) (h : (system opt).step s ⟨i, .ok⟩ = none)
    (hended : (s.pc i).ended = false) : ∃ j m, Holds (eventsOf j s.history) m := by
  simp only [system, fileLockFlock] at h
  cases hpc : s.pc i with
  | locking =>
    simp only [hpc] at h
    unfold flock at h
    cases hreq : request (opt i).lock with
    | lock m block =>
      simp only [hreq] at h
      cases hacq : s.lock.acquire i m with
      | some l => simp [hacq] at h
      | none =>
        obtain ⟨j, k, hk, -⟩ := hi.exists_holds hacq
        exact ⟨j, k, hk⟩
    | unlock | ignored | invalid => simp [hreq] at h
  | opening | print | sleep | unlocking => simp [hpc] at h
  | done | failed | killed =>
    rw [hpc] at hended
    cases hended

/-- A holder goes on. -/
theorem Inv.holder_moves (hi : Inv opt s) (h : Holds (eventsOf j s.history) m) :
    (system opt).step s ⟨j, .ok⟩ ≠ none := by
  have hown := hi.own j
  simp only [system, fileLockFlock]
  cases hpc : s.pc j with
  | print | sleep | unlocking => exact Option.some_ne_none _
  | opening | locking =>
    rw [hpc] at hown
    unfold Own at hown
    rw [hown] at h
    exact absurd h (not_holds_nil m)
  | done =>
    rw [hpc] at hown
    unfold Own complete at hown
    rw [hown] at h
    cases hreq : request (opt j).lock <;> simp [hreq, Holds] at h
  | failed | killed =>
    rw [hpc] at hown
    exact absurd h (hown m)

/-- A run has at most five calls for each process; where no call can return everyone has ended; and then a process
that asks with `-s` or `-e` and is hit by no error and not killed has got the lock, printed its line and given
the lock back, whatever has happened to the others. -/
theorem everyone_gets_lock [Fintype ι] {as : List (Action ι)} (hs : (system opt).init s)
    (h : (system opt).run s as = some t) :
    as.length ≤ 5 * Fintype.card ι ∧
      ((∀ i, (system opt).step t ⟨i, .ok⟩ = none) → ∀ i, (t.pc i).ended = true ∧
        ((∀ a ∈ as, a.who = i → a.outcome = .ok) → ∀ m, request (opt i).lock = .lock m true →
          eventsOf i t.history = [.granted m, .printed (acquiredText (opt i).lock), .released])) := by
  have hlength := System.length_add_le_of_run (I := fun _ => True) (fun _ _ _ _ _ => trivial)
    (fun _ _ _ _ ht => work_step ht) trivial h
  have hs : s = _ := hs
  have hwork : s.work = 5 * Fintype.card ι := by
    rw [hs]
    simp [State.work, Pc.work, mul_comm]
  refine ⟨by omega, fun hstuck i => ?_⟩
  have hi : Inv opt t := inv_reachable (System.reachable_of_run hs as h)
  have hended : (t.pc i).ended = true := by
    by_contra hgoes
    rw [Bool.not_eq_true] at hgoes
    obtain ⟨j, m, hm⟩ := hi.exists_holder (hstuck i) hgoes
    exact hi.holder_moves hm (hstuck j)
  refine ⟨hended, fun hok m hreq => ?_⟩
  have hgoes : (t.pc i).stopped = false := by
    refine System.run_invariant_of_forall (I := fun s => (s.pc i).stopped = false)
      (fun u a v ha hu hv => ?_) hok (by rw [hs]; rfl) h
    obtain ⟨pc, hpc, -, hstop⟩ := step_pc hv
    rw [hpc]
    by_cases hai : i = a.who
    · subst hai
      rw [Function.update_self]
      exact hstop (ha rfl) m hreq
    · rw [Function.update_of_ne hai]
      exact hu
  have hown := hi.own i
  cases hpc : t.pc i with
  | done =>
    rw [hpc] at hown
    unfold Own complete at hown
    rw [hown, hreq]
  | failed | killed =>
    rw [hpc] at hgoes
    cases hgoes
  | opening | locking | print | sleep | unlocking =>
    rw [hpc] at hended
    cases hended

/-- A process with `-e` gets the lock although the one that held it with `-s` is killed. -/
theorem everyone_gets_lock_killed :
    let opt : Fin 2 → Opt := ![.s, .e]
    ∃ as s t, (system opt).run s as = some t ∧ t.pc 0 = .killed ∧
      eventsOf 1 t.history = [.granted .exclusive, .printed (acquiredText 2), .released] := by
  intro opt
  let as : List (Action (Fin 2)) := [⟨0, .ok⟩, ⟨1, .ok⟩, ⟨0, .ok⟩, ⟨0, .killed⟩, ⟨1, .ok⟩, ⟨1, .ok⟩, ⟨1, .ok⟩,
    ⟨1, .ok⟩]
  let s : State (Fin 2) := ⟨.free, fun _ => .opening, []⟩
  have hs : (system opt).init s := rfl
  have hend : ((system opt).run s as).map (fun t => (t.pc 0, t.pc 1)) = some (.killed, .done) := by
    decide +kernel
  obtain ⟨t, ht, hpc⟩ := Option.map_eq_some_iff.mp hend
  obtain ⟨hpc0, hpc1⟩ := Prod.mk.inj hpc
  refine ⟨as, s, t, ht, hpc0, ?_⟩
  have hstuck : ∀ i, (system opt).step t ⟨i, .ok⟩ = none := by
    intro i
    match i with
    | 0 => simp [system, fileLockFlock, hpc0]
    | 1 => simp [system, fileLockFlock, hpc1]
  exact ((everyone_gets_lock hs ht).2 hstuck 1).2 (by decide) .exclusive (by decide)

end LinuxApi.Flock
