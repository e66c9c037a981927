import LinuxApi.Kernel.Lock
import LinuxApi.Transition.Indexed
import LinuxApi.Transition.System

/-! Threads that add to shared variables under a lock: `thread_func` of `pthread_sync.c` with a
mutex, `thread_func` of `ipc_posix_unnamed_sem.c` with a semaphore, and `start_routine_lock` of
`pthread_lock.c`, which works on the `struct tdata` it is given. Any number of them run at the same
time, and the load, the addition and the store of `+=` are steps of their own. -/

namespace LinuxApi.ProtectedSum

/-- What a thread runs: either `thread_func`, with its start value, or `start_routine_lock`. -/
inductive Routine where
  | threadFunc (start : ℤ)
  | startRoutineLock
  deriving DecidableEq

/-- Where a thread is, with its loop variable `i`, the value it has loaded and the one it is about
to store. -/
inductive Pc where
  | test (i : ℤ)
  | lock (i : ℤ)
  | load (i : ℤ)
  | add (i v : ℤ)
  | store (i w : ℤ)
  | unlock (i : ℤ)
  | ended
  deriving DecidableEq

namespace Routine

/-- `i = *start`, or `i = 0`. -/
def first : Routine → ℤ
  | .threadFunc start => start
  | .startRoutineLock => 0

/-- The loop goes on for `i < *start + 100`, or `i < 10000`. -/
def bound : Routine → ℤ
  | .threadFunc start => start + 100
  | .startRoutineLock => 10000

/-- `thread_func` locks inside its loop, `start_routine_lock` around it. -/
def entry : Routine → Pc
  | .threadFunc start => .test start
  | .startRoutineLock => .lock 0

def afterTest (r : Routine) (i : ℤ) : Pc :=
  match r with
  | .threadFunc _ => if i < r.bound then .lock i else .ended
  | .startRoutineLock => if i < r.bound then .load i else .unlock i

def afterLock : Routine → ℤ → Pc
  | .threadFunc _, i => .load i
  | .startRoutineLock, i => .test i

def afterStore : Routine → ℤ → Pc
  | .threadFunc _, i => .unlock i
  | .startRoutineLock, i => .test (i + 1)

def afterUnlock : Routine → ℤ → Pc
  | .threadFunc _, i => .test (i + 1)
  | .startRoutineLock, _ => .ended

/-- What is left to add for a loop variable `i`. -/
def sumFrom (r : Routine) (i : ℤ) : ℤ := ∑ k ∈ Finset.range (r.bound - i).toNat, (i + k)

/-- What the routine adds in all. -/
def total (r : Routine) : ℤ := r.sumFrom r.first

end Routine

/-- `gsum` with its lock, or a `struct tdata`. -/
structure Object where
  value : ℤ
  lock : Lock ℕ

structure Thread (ι : Type*) where
  obj : ι
  routine : Routine
  pc : Pc

structure State (ι : Type*) where
  objects : ι → Object
  threads : List (Thread ι)

variable {ι : Type*} [DecidableEq ι]

/-- Thread `k` moves on. -/
def State.goto (s : State ι) (k : ℕ) (t : Thread ι) (pc : Pc) : State ι :=
  { s with threads := s.threads.set k { t with pc } }

/-- The object of a thread changes. -/
def State.setObject (s : State ι) (o : ι) (x : Object) : State ι :=
  { s with objects := Function.update s.objects o x }

/-- The next step of thread `k`. -/
def threadStep (s : State ι) (k : ℕ) : Option (State ι) :=
  match s.threads[k]? with
  | none => none
  | some t =>
    let x := s.objects t.obj
    match t.pc with
    | .test i => some (s.goto k t (t.routine.afterTest i))
    | .lock i => (x.lock.acquire k).map fun lock =>
      (s.setObject t.obj { x with lock }).goto k t (t.routine.afterLock i)
    | .load i => some (s.goto k t (.add i x.value))
    | .add i v => some (s.goto k t (.store i (v + i)))
    | .store i w =>
      some ((s.setObject t.obj { x with value := w }).goto k t (t.routine.afterStore i))
    | .unlock i =>
      some ((s.setObject t.obj { x with lock := x.lock.release }).goto k t (t.routine.afterUnlock i))
    | .ended => none

/-- Threads `ts`, each with its object and routine, on variables with the given values. -/
def system (values : ι → ℤ) (ts : List (ι × Routine)) : System (State ι) ℕ where
  init s := (∀ o, (s.objects o).value = values o ∧ (s.objects o).lock.Fresh) ∧
    s.threads = ts.map fun p => ⟨p.1, p.2, p.2.entry⟩
  step := threadStep

/-! ### What is left to add -/

namespace Routine

variable {r : Routine} {i : ℤ}

theorem sumFrom_of_lt (h : i < r.bound) : r.sumFrom i = i + r.sumFrom (i + 1) := by
  have hn : (r.bound - i).toNat = (r.bound - (i + 1)).toNat + 1 := by omega
  rw [sumFrom, hn, Finset.sum_range_succ', sumFrom, Nat.cast_zero, add_zero, add_comm]
  refine congrArg (i + ·) (Finset.sum_congr rfl fun k _ => ?_)
  push_cast
  omega

theorem sumFrom_of_not_lt (h : ¬i < r.bound) : r.sumFrom i = 0 := by
  have hn : (r.bound - i).toNat = 0 := by omega
  rw [sumFrom, hn, Finset.sum_range_zero]

end Routine

namespace Thread

/-- The thread is between its lock and its unlock. -/
def inside (t : Thread ι) : Bool :=
  match t.pc with
  | .load _ | .add _ _ | .store _ _ | .unlock _ => true
  | .test _ => t.routine = .startRoutineLock
  | .lock _ | .ended => false

/-- What the thread has still to add. -/
def left (t : Thread ι) : ℤ :=
  match t.pc with
  | .test i | .lock i | .load i | .add i _ | .store i _ => t.routine.sumFrom i
  | .unlock i => if t.routine = .startRoutineLock then 0 else t.routine.sumFrom (i + 1)
  | .ended => 0

/-- What the thread has loaded is still the value, and its loop variable is in bounds. -/
def Fits (t : Thread ι) (value : ℤ) : Prop :=
  match t.pc with
  | .lock i => t.routine = .startRoutineLock ∨ i < t.routine.bound
  | .load i => i < t.routine.bound
  | .add i v => i < t.routine.bound ∧ v = value
  | .store i w => i < t.routine.bound ∧ w = value + i
  | .test _ | .unlock _ | .ended => True

omit [DecidableEq ι] in
/-- A thread outside its critical section does not care for the value. -/
theorem Fits.of_outside {t : Thread ι} {v w : ℤ} (h : t.Fits v) (hout : t.inside = false) :
    t.Fits w := by
  unfold Fits inside at *
  cases hpc : t.pc <;> simp_all

/-- The thread has the lock of `o`. -/
def holds (o : ι) (t : Thread ι) : Bool := t.obj = o ∧ t.inside = true

/-- What the thread has still to add to `o`. -/
def leftOn (o : ι) (t : Thread ι) : ℤ := if t.obj = o then t.left else 0

@[simp] theorem holds_self (t : Thread ι) : t.holds t.obj = t.inside := by simp [holds]

@[simp] theorem leftOn_self (t : Thread ι) : t.leftOn t.obj = t.left := if_pos rfl

theorem holds_of_ne {o : ι} {t : Thread ι} (h : o ≠ t.obj) : t.holds o = false :=
  decide_eq_false fun ho => h ho.1.symm

theorem leftOn_of_ne {o : ι} {t : Thread ι} (h : o ≠ t.obj) : t.leftOn o = 0 := if_neg h.symm

end Thread

/-- What the threads `ts` add to `o` in all. -/
def totalOn (ts : List (ι × Routine)) (o : ι) : ℤ :=
  ((ts.filter fun p => p.1 = o).map fun p => p.2.total).sum

structure Inv (values : ι → ℤ) (ts : List (ι × Routine)) (s : State ι) : Prop where
  fits : ∀ (k : ℕ) (t : Thread ι), s.threads[k]? = some t → t.Fits (s.objects t.obj).value
  units : ∀ o, (s.objects o).lock.units + s.threads.countP (Thread.holds o) = 1
  sum : ∀ o, (s.objects o).value + (s.threads.map (Thread.leftOn o)).sum = values o + totalOn ts o

variable {values : ι → ℤ} {ts : List (ι × Routine)} {s u : State ι} {k : ℕ} {t : Thread ι}

theorem setObject_self (s : State ι) (o : ι) : s.setObject o (s.objects o) = s := by
  rw [State.setObject, Function.update_eq_self]

/-- A value that changes does so under the lock, where no other thread of its object is. -/
theorem Inv.fits_other (hi : Inv values ts s) (hk : s.threads[k]? = some t) {v : ℤ}
    (hvalue : v ≠ (s.objects t.obj).value → t.inside = true) {j : ℕ} {a : Thread ι}
    (hj : s.threads[j]? = some a) (hjk : j ≠ k) (hobj : a.obj = t.obj) : a.Fits v := by
  have hold := hi.fits j a hj
  by_cases hv : v = (s.objects t.obj).value
  · rw [hv, ← hobj]
    exact hold
  · refine hold.of_outside (Bool.not_eq_true _ ▸ fun hin => hjk ?_)
    have hone : s.threads.countP (Thread.holds t.obj) ≤ 1 := by
      have hunits := hi.units t.obj
      omega
    have hj' : a.holds t.obj = true := decide_eq_true ⟨hobj, hin⟩
    exact eq_of_countP_le_one hone hj hk hj' ((Thread.holds_self t).trans (hvalue hv))

/-- A step of thread `k`: what its object and what is left for it become. Only a thread that has
the lock changes the value. -/
theorem Inv.change (hi : Inv values ts s) (hk : s.threads[k]? = some t) {x : Object} {pc : Pc}
    (hfits : Thread.Fits { t with pc } x.value)
    (hvalue : x.value ≠ (s.objects t.obj).value → t.inside = true)
    (hunits : x.lock.units + (Thread.inside { t with pc }).toNat =
      (s.objects t.obj).lock.units + t.inside.toNat)
    (hsum : x.value + Thread.left { t with pc } = (s.objects t.obj).value + t.left) :
    Inv values ts ((s.setObject t.obj x).goto k t pc) := by
  have hself : ((s.setObject t.obj x).goto k t pc).objects t.obj = x := by
    simp [State.setObject, State.goto]
  have hother : ∀ o, o ≠ t.obj → ((s.setObject t.obj x).goto k t pc).objects o = s.objects o := by
    intro o ho
    simp [State.setObject, State.goto, ho]
  refine ⟨fun j a hj => ?_, fun o => ?_, fun o => ?_⟩
  · rcases getElem?_set_eq_some hj with ⟨rfl, rfl⟩ | ⟨hjk, hj⟩
    · rw [hself]
      exact hfits
    · by_cases hobj : a.obj = t.obj
      · rw [hobj, hself]
        exact hi.fits_other hk hvalue hj hjk hobj
      · rw [hother _ hobj]
        exact hi.fits j a hj
  · have hcount := countP_set_add (p := Thread.holds o) hk { t with pc }
    have hone := hi.units o
    show _ + (s.threads.set k _).countP (Thread.holds o) = 1
    by_cases ho : o = t.obj
    · subst ho
      rw [Thread.holds_self t, Thread.holds_self { t with pc }] at hcount
      rw [hself]
      omega
    · rw [Thread.holds_of_ne ho, Thread.holds_of_ne (t := { t with pc }) ho] at hcount
      rw [hother o ho]
      omega
  · have hleft := sum_map_set_add (Thread.leftOn o) hk { t with pc }
    have hold := hi.sum o
    show _ + ((s.threads.set k _).map (Thread.leftOn o)).sum = _
    by_cases ho : o = t.obj
    · subst ho
      rw [Thread.leftOn_self t, Thread.leftOn_self { t with pc }] at hleft
      rw [hself]
      omega
    · rw [Thread.leftOn_of_ne ho, Thread.leftOn_of_ne (t := { t with pc }) ho] at hleft
      rw [hother o ho]
      omega

/-- The same for a step that leaves the object alone. -/
theorem Inv.move (hi : Inv values ts s) (hk : s.threads[k]? = some t) {pc : Pc}
    (hfits : Thread.Fits { t with pc } (s.objects t.obj).value)
    (hinside : Thread.inside { t with pc } = t.inside) (hleft : Thread.left { t with pc } = t.left) :
    Inv values ts (s.goto k t pc) := by
  have h := hi.change hk (x := s.objects t.obj) hfits (fun hne => absurd rfl hne) (by rw [hinside])
    (by rw [hleft])
  rwa [setObject_self] at h

theorem Inv.test (hi : Inv values ts s) (hk : s.threads[k]? = some t) {i : ℤ} (hpc : t.pc = .test i) :
    Inv values ts (s.goto k t (t.routine.afterTest i)) := by
  by_cases hlt : i < t.routine.bound
  · cases hr : t.routine with
    | threadFunc start =>
      rw [hr] at hlt
      rw [Routine.afterTest, if_pos hlt]
      refine hi.move hk ?_ ?_ ?_
      all_goals simp [Thread.Fits, Thread.inside, Thread.left, hpc, hr, hlt]
    | startRoutineLock =>
      rw [hr] at hlt
      rw [Routine.afterTest, if_pos hlt]
      refine hi.move hk ?_ ?_ ?_
      all_goals simp [Thread.Fits, Thread.inside, Thread.left, hpc, hr, hlt]
  · have hzero := Routine.sumFrom_of_not_lt hlt
    cases hr : t.routine with
    | threadFunc start =>
      rw [hr] at hlt hzero
      rw [Routine.afterTest, if_neg hlt]
      refine hi.move hk ?_ ?_ ?_
      all_goals simp [Thread.Fits, Thread.inside, Thread.left, hpc, hr, hzero]
    | startRoutineLock =>
      rw [hr] at hlt hzero
      rw [Routine.afterTest, if_neg hlt]
      refine hi.move hk ?_ ?_ ?_
      all_goals simp [Thread.Fits, Thread.inside, Thread.left, hpc, hr, hzero]

theorem Inv.lock (hi : Inv values ts s) (hk : s.threads[k]? = some t) {i : ℤ} {l : Lock ℕ}
    (hpc : t.pc = .lock i) (hl : (s.objects t.obj).lock.acquire k = some l) :
    Inv values ts ((s.setObject t.obj { s.objects t.obj with lock := l }).goto k t
      (t.routine.afterLock i)) := by
  have hunits := Lock.acquire_units hl
  have hfits := hi.fits k t hk
  rw [Thread.Fits, hpc] at hfits
  refine hi.change hk ?_ (fun hne => absurd rfl hne) ?_ (congrArg _ ?_)
  · cases hr : t.routine with
    | threadFunc start =>
      rw [hr] at hfits
      exact hfits.resolve_left nofun
    | startRoutineLock => trivial
  · rw [show t.inside = false by rw [Thread.inside, hpc], hunits]
    cases t.routine <;> simp [Thread.inside, Routine.afterLock]
  · cases hr : t.routine <;> simp [Thread.left, Routine.afterLock, hr, hpc]

/-- The store adds what the thread has less to add. -/
theorem Inv.store (hi : Inv values ts s) (hk : s.threads[k]? = some t) {i w : ℤ}
    (hpc : t.pc = .store i w) :
    Inv values ts ((s.setObject t.obj { s.objects t.obj with value := w }).goto k t
      (t.routine.afterStore i)) := by
  have hfits := hi.fits k t hk
  rw [Thread.Fits, hpc] at hfits
  obtain ⟨hlt, rfl⟩ := hfits
  have hsum := Routine.sumFrom_of_lt hlt
  have hin : t.inside = true := by rw [Thread.inside, hpc]
  have hleft : t.left = t.routine.sumFrom i := by rw [Thread.left, hpc]
  refine hi.change hk ?_ (fun _ => hin) ?_ ?_
  · cases hr : t.routine <;> trivial
  · rw [hin]
    cases t.routine <;> simp [Thread.inside, Routine.afterStore]
  · rw [hleft, hsum]
    have hnext : Thread.left { t with pc := t.routine.afterStore i } = t.routine.sumFrom (i + 1) := by
      cases t.routine <;> simp [Thread.left, Routine.afterStore]
    rw [hnext, add_assoc]

theorem Inv.unlock (hi : Inv values ts s) (hk : s.threads[k]? = some t) {i : ℤ}
    (hpc : t.pc = .unlock i) :
    Inv values ts ((s.setObject t.obj { s.objects t.obj with
      lock := (s.objects t.obj).lock.release }).goto k t (t.routine.afterUnlock i)) := by
  have hin : t.inside = true := by rw [Thread.inside, hpc]
  have hheld : (s.objects t.obj).lock.units = 0 := by
    have hone := hi.units t.obj
    have hpos : 0 < s.threads.countP (Thread.holds t.obj) :=
      List.countP_pos_iff.mpr ⟨t, List.mem_of_getElem? hk, (Thread.holds_self t).trans hin⟩
    omega
  have hfree := Lock.release_units hheld
  refine hi.change hk ?_ (fun hne => absurd rfl hne) ?_ (congrArg _ ?_)
  · cases hr : t.routine <;> trivial
  · rw [hin, hfree, hheld]
    cases t.routine <;> simp [Thread.inside, Routine.afterUnlock]
  · cases hr : t.routine <;> simp [Thread.left, Routine.afterUnlock, hr, hpc]

theorem inv_step (hi : Inv values ts s) (h : threadStep s k = some u) : Inv values ts u := by
  unfold threadStep at h
  cases hk : s.threads[k]? with
  | none => rw [hk] at h; cases h
  | some t =>
    have hfits := hi.fits k t hk
    simp only [hk] at h
    cases hpc : t.pc with
    | test i =>
      simp only [hpc, Option.some.injEq] at h
      exact h ▸ hi.test hk hpc
    | lock i =>
      simp only [hpc, Option.map_eq_some_iff] at h
      obtain ⟨l, hl, rfl⟩ := h
      exact hi.lock hk hpc hl
    | load i =>
      simp only [hpc, Option.some.injEq] at h
      rw [Thread.Fits, hpc] at hfits
      refine h ▸ hi.move hk ⟨hfits, rfl⟩ ?_ ?_
      all_goals simp [Thread.inside, Thread.left, hpc]
    | add i v =>
      simp only [hpc, Option.some.injEq] at h
      rw [Thread.Fits, hpc] at hfits
      refine h ▸ hi.move hk ⟨hfits.1, by rw [hfits.2]⟩ ?_ ?_
      all_goals simp [Thread.inside, Thread.left, hpc]
    | store i w =>
      simp only [hpc, Option.some.injEq] at h
      exact h ▸ hi.store hk hpc
    | unlock i =>
      simp only [hpc, Option.some.injEq] at h
      exact h ▸ hi.unlock hk hpc
    | ended => simp only [hpc] at h; cases h

theorem inv_init (h : (system values ts).init s) : Inv values ts s := by
  obtain ⟨hobjects, hthreads⟩ := h
  have hentry : ∀ (o : ι) (p : ι × Routine), Thread.leftOn o ⟨p.1, p.2, p.2.entry⟩ =
      if p.1 = o then p.2.total else 0 := by
    rintro o ⟨obj, r⟩
    cases r <;> rfl
  refine ⟨fun k t hk => ?_, fun o => ?_, fun o => ?_⟩
  · rw [hthreads, List.getElem?_map, Option.map_eq_some_iff] at hk
    obtain ⟨⟨obj, r⟩, -, rfl⟩ := hk
    cases r with
    | threadFunc start => trivial
    | startRoutineLock => exact .inl rfl
  · rw [(hobjects o).2.units_eq, hthreads, List.countP_eq_zero.mpr]
    intro t ht
    obtain ⟨⟨obj, r⟩, -, rfl⟩ := List.mem_map.mp ht
    cases r <;> simp [Thread.holds, Thread.inside, Routine.entry]
  · rw [(hobjects o).1, hthreads, totalOn]
    congr 1
    clear hthreads
    induction ts with
    | nil => rfl
    | cons p ts ih =>
      rw [List.map_cons, List.map_cons, List.sum_cons, ih, hentry, List.filter_cons]
      by_cases hp : p.1 = o <;> simp [hp]

theorem inv_reachable (h : (system values ts).Reachable s) : Inv values ts s := by
  refine h.invariant ?_ ?_
  · intro s hs
    exact inv_init hs
  · intro s k u hi hu
    exact inv_step hi hu

/-- A thread changes only its own object. -/
theorem threadStep_frame {o : ι} (h : threadStep s k = some u) (hk : s.threads[k]? = some t)
    (ho : t.obj ≠ o) : u.objects o = s.objects o := by
  have hother : ∀ x pc, ((s.setObject t.obj x).goto k t pc).objects o = s.objects o := by
    intro x pc
    simp [State.setObject, State.goto, Ne.symm ho]
  simp only [threadStep, hk] at h
  cases hpc : t.pc with
  | test | load | add =>
    simp only [hpc, Option.some.injEq] at h
    exact h ▸ rfl
  | lock i =>
    simp only [hpc, Option.map_eq_some_iff] at h
    obtain ⟨l, -, rfl⟩ := h
    exact hother _ _
  | store | unlock =>
    simp only [hpc, Option.some.injEq] at h
    exact h ▸ hother _ _
  | ended => simp only [hpc] at h; cases h

/-- When the threads on a variable have ended, it is its initial value and the sum of all they have
added; and the threads on other variables never touch it. -/
theorem protected_sum (h : (system values ts).Reachable s) (o : ι) :
    ((∀ t ∈ s.threads, t.obj = o → t.pc = .ended) →
      (s.objects o).value = values o + totalOn ts o) ∧
    ∀ k t u, s.threads[k]? = some t → t.obj ≠ o → (system values ts).step s k = some u →
      u.objects o = s.objects o := by
  refine ⟨fun hended => ?_, fun k t u hk ho hu => threadStep_frame hu hk ho⟩
  have hsum := (inv_reachable h).sum o
  have hzero : (s.threads.map (Thread.leftOn o)).sum = 0 := by
    refine List.sum_eq_zero fun x hx => ?_
    obtain ⟨t, ht, rfl⟩ := List.mem_map.mp hx
    by_cases ho : t.obj = o
    · rw [Thread.leftOn, if_pos ho, Thread.left, hended t ht ho]
    · exact Thread.leftOn_of_ne (Ne.symm ho)
  rw [hzero, add_zero] at hsum
  exact hsum

/-- Two `thread_func` from 1 on, and a `start_routine_lock` on an object of its own. -/
def three : List (Bool × Routine) :=
  [(false, .threadFunc 1), (false, .threadFunc 1), (true, .startRoutineLock)]

def threeStart : State Bool :=
  ⟨fun _ => ⟨7, .mutex none⟩, [⟨false, .threadFunc 1, .test 1⟩, ⟨false, .threadFunc 1, .test 1⟩,
    ⟨true, .startRoutineLock, .lock 0⟩]⟩

/-- The first two take turns in their critical sections, with a step of the third in between. -/
def turns : List ℕ :=
  (List.replicate 100 [0, 1, 0, 0, 2, 0, 0, 0, 1, 1, 1, 1, 1]).flatten ++ [0, 1]

/-- Each of the two adds 5050. -/
theorem protected_sum_three : ∃ s, (system (fun _ : Bool => 7) three).Reachable s ∧
    (s.objects false).value = 10107 := by
  have hsome : ((system (fun _ : Bool => 7) three).run threeStart turns).isSome := by
    decide +kernel
  have hended : ∀ s ∈ (system (fun _ : Bool => 7) three).run threeStart turns,
      ∀ t ∈ s.threads, t.obj = false → t.pc = .ended := by
    decide +kernel
  have htotal : (7 : ℤ) + totalOn three false = 10107 := by
    decide +kernel
  have hrun := System.reachable_of_isSome (S := system (fun _ : Bool => 7) three)
    ⟨fun _ => ⟨rfl, .inl rfl⟩, rfl⟩ _ hsome
  exact ⟨_, hrun, ((protected_sum hrun false).1 (hended _ (Option.get_mem hsome))).trans htotal⟩

end LinuxApi.ProtectedSum
