import LinuxApi.Transition.System
import LinuxApi.Transition.Indexed
import LinuxApi.Kernel.Semaphore
import Mathlib.Data.Fintype.Basic

/-! `ipc_systemv_sem.c`: whoever creates the semaphore set initialises it, announces
this through `sem_otime` and then admits two; everybody else polls `sem_otime`. Any
number of processes run it on one key, and every system call is a step of its own. -/

namespace LinuxApi.SemaphoreStartup

/-- `MAX_TRIES` -/
def maxTries : ℕ := 10

/-- The next system call of `ipc_systemv_sem`: `setZero`, `touch` and `setTwo` are the
creator's, `lookup` and `poll j` everybody else's; `inside` ends with the `+1` semop. -/
inductive Pc where
  | semget
  | setZero | touch | setTwo
  | lookup | poll (j : ℕ)
  | test | getval | acquire | inside | returned
  | exited (msg : String) | killed
  deriving DecidableEq

/-- One process. `dsOtime` is whether its local `ds.sem_otime` is nonzero and
`semval` its local of that name; both hold anything at first. -/
structure Proc where
  pc : Pc
  dsOtime : Bool
  semval : ℤ
  deriving DecidableEq

def Proc.goto (p : Proc) (pc : Pc) : Proc := { p with pc }

/-- One system call of a process, and whether it succeeds. Besides `EEXIST` any other
failure of the first `semget` leads to the second branch as well. The `+1` semop does
not fail. -/
def procStep (set : Option SemSet) (p : Proc) (ok : Bool) : Option (Option SemSet × Proc) :=
  match p.pc with
  | .semget =>
    match set, ok with
    | none, true => some (some .new, p.goto .setZero)
    | _, _ => some (set, p.goto .lookup)
  | .setZero =>
    if ok then some (set.map (·.setval 0 0), p.goto .touch)
    else some (set, p.goto (.exited "semctl()"))
  | .touch =>
    if ok then set.bind fun S => (S.semop 0 0).map fun T => (some T, p.goto .setTwo)
    else some (set, p.goto (.exited "semop()"))
  | .setTwo =>
    if ok then some (set.map (·.setval 0 2), p.goto .test)
    else some (set, p.goto (.exited "semctl()"))
  | .lookup =>
    if ok ∧ set.isSome then some (set, p.goto (.poll 0))
    else some (set, p.goto (.exited "semget()"))
  | .poll j =>
    if ok then
      set.map fun S =>
        (set, ⟨if S.otime ∨ maxTries ≤ j + 1 then .test else .poll (j + 1), S.otime, p.semval⟩)
    else some (set, p.goto (.exited "semctl()"))
  | .test =>
    some (set, p.goto (if p.dsOtime then .getval else .exited "Semaphore not initialized yet."))
  | .getval => set.map fun S => (set, ⟨.acquire, p.dsOtime, if ok then S.semval 0 else -1⟩)
  | .acquire =>
    if ok then set.bind fun S => (S.semop 0 (-1)).map fun T => (some T, p.goto .inside)
    else some (set, p.goto (.exited "semop()"))
  | .inside => set.bind fun S => (S.semop 0 1).map fun T => (some T, p.goto .returned)
  | .returned | .exited _ | .killed => none

/-- The set under the key and the processes; `ready` records that the `SETVAL` to 2
has been executed. -/
structure State (P : Type*) where
  set : Option SemSet
  proc : P → Proc
  ready : Bool

/-- A process makes its next system call, or dies. -/
inductive Action (P : Type*) where
  | call (i : P) (ok : Bool)
  | kill (i : P)

/-- The value of semaphore 0, 0 without a set. -/
def units (set : Option SemSet) : ℕ := (set.map (·.semval 0)).getD 0

/-- At the start there is no set, or one that earlier runs left behind, whether or not
its creator lived to admit two. -/
def Start {P : Type*} (s : State P) : Prop :=
  (∀ i, (s.proc i).pc = .semget) ∧ (s.set = none → s.ready = false) ∧
    units s.set = if s.ready then 2 else 0

/-- The processes on one key; none dies holding the semaphore. -/
def system (P : Type*) [DecidableEq P] : System (State P) (Action P) where
  init := Start
  step s
    | .call i ok => (procStep s.set (s.proc i) ok).map fun r =>
        { set := r.1
          proc := Function.update s.proc i r.2
          ready := s.ready || (decide ((s.proc i).pc = .setTwo) && ok) }
    | .kill i =>
      if (s.proc i).pc = .inside then none
      else some { s with proc := Function.update s.proc i ((s.proc i).goto .killed) }

/-! ### The invariant -/

/-- Between the successful `semget` and the `SETVAL` to 2. -/
def Proc.creating (p : Proc) : Bool := p.pc = .setZero ∨ p.pc = .touch ∨ p.pc = .setTwo

/-- Between the `-1` semop and the `+1` semop. -/
def Proc.inside (p : Proc) : Bool := p.pc = .inside

/-- Past the `-1` semop. -/
def Proc.passed (p : Proc) : Bool := p.pc = .inside ∨ p.pc = .returned

variable {P : Type*} [Fintype P] [DecidableEq P]

/-- How many processes are between the `-1` and the `+1` semop. -/
def State.inside (s : State P) : ℕ := countWhere Proc.inside s.proc

structure Inv (s : State P) : Prop where
  absent : s.set = none → s.ready = false ∧ ∀ i, (s.proc i).creating = false
  creator : ∀ i, (s.proc i).creating = true →
    s.ready = false ∧ ∀ j, (s.proc j).creating = true → j = i
  passed : ∀ i, (s.proc i).passed = true → s.ready = true
  balance : units s.set + s.inside = if s.ready then 2 else 0

omit [DecidableEq P] in
theorem inv_start {s : State P} (h : Start s) : Inv s := by
  obtain ⟨hpc, hset, hval⟩ := h
  refine ⟨fun hn => ⟨hset hn, fun i => ?_⟩, fun i hi => ?_, fun i hi => ?_, ?_⟩
  · simp [Proc.creating, hpc]
  · simp [Proc.creating, hpc] at hi
  · simp [Proc.passed, hpc] at hi
  · rw [State.inside, countWhere_eq_zero fun i => by simp [Proc.inside, hpc], Nat.add_zero, hval]

/-- A step that leaves the announcement alone and gives up a unit for every process it
lets in. -/
theorem Inv.move {s : State P} (h : Inv s) (i : P) {q : Proc} {set : Option SemSet}
    (hs : set = none → s.set = none) (hc : q.creating = true → (s.proc i).creating = true)
    (hp : q.passed = true → s.ready = true)
    (hb : units set + q.inside.toNat = units s.set + (s.proc i).inside.toNat) :
    Inv { s with set, proc := Function.update s.proc i q } where
  absent hn := by
    obtain ⟨hr, hno⟩ := h.absent (hs hn)
    refine ⟨hr, (Function.forall_update_iff s.proc fun _ p => p.creating = false).mpr
      ⟨?_, fun j _ => hno j⟩⟩
    exact Bool.eq_false_iff.mpr fun hq => by simpa [hno i] using hc hq
  creator := by
    have hold : ∀ j, (Function.update s.proc i q j).creating = true → (s.proc j).creating = true := by
      refine (Function.forall_update_iff s.proc
        (fun j p => p.creating = true → (s.proc j).creating = true)).mpr ⟨hc, fun j _ => id⟩
    intro j hj
    obtain ⟨hr, hu⟩ := h.creator j (hold j hj)
    exact ⟨hr, fun k hk => hu k (hold k hk)⟩
  passed := (Function.forall_update_iff s.proc (fun _ p => p.passed = true → s.ready = true)).mpr
    ⟨hp, fun j _ => h.passed j⟩
  balance := by
    have hcount := countWhere_update (p := Proc.inside) (f := s.proc) i q
    have hbal := h.balance
    rw [State.inside] at hbal
    show units set + countWhere Proc.inside (Function.update s.proc i q) = if s.ready then 2 else 0
    omega

omit [DecidableEq P] in
/-- A creator has a set. -/
theorem Inv.exists_set {s : State P} (h : Inv s) {i : P} (hc : (s.proc i).creating = true) :
    ∃ S, s.set = some S := by
  refine Option.ne_none_iff_exists'.mp fun hn => ?_
  simpa [hc] using (h.absent hn).2 i

/-- A step between two positions outside, with the set left alone. -/
theorem Inv.leave {s : State P} (h : Inv s) (i : P) {q : Proc} (hi : (s.proc i).inside = false)
    (hc : q.creating = false) (hp : q.passed = false) :
    Inv { s with proc := Function.update s.proc i q } := by
  have hq : q.inside = false := by
    simp only [Proc.passed, decide_eq_false_iff_not, not_or] at hp
    simpa [Proc.inside] using hp.1
  exact h.move i id (by simp [hc]) (by simp [hp]) (by rw [hq, hi])

/-- The one successful `semget` makes its caller the only creator. -/
theorem inv_create {s : State P} (h : Inv s) (i : P) (hset : s.set = none)
    (hi : (s.proc i).inside = false) :
    Inv { s with set := some .new, proc := Function.update s.proc i ((s.proc i).goto .setZero) } := by
  obtain ⟨hr, hno⟩ := h.absent hset
  have honly : ∀ j, (Function.update s.proc i ((s.proc i).goto .setZero) j).creating = true → j = i := by
    intro j hj
    by_contra hne
    simp [hne, hno j] at hj
  refine ⟨nofun, fun j hj => ⟨hr, fun k hk => (honly k hk).trans (honly j hj).symm⟩, ?_, ?_⟩
  · exact (Function.forall_update_iff s.proc fun _ p => p.passed = true → s.ready = true).mpr
      ⟨nofun, fun j _ => h.passed j⟩
  · have hcount := countWhere_update_of_eq (p := Proc.inside) (f := s.proc) (i := i)
      (a := (s.proc i).goto .setZero) (by rw [hi]; rfl)
    have hbal := h.balance
    rw [State.inside, hset] at hbal
    rw [State.inside, hcount]
    exact hbal

/-- The creator's last step admits two and ends the creation. -/
theorem inv_setTwo {s : State P} (h : Inv s) {i : P} (hpc : (s.proc i).pc = .setTwo) :
    Inv { set := s.set.map (·.setval 0 2), proc := Function.update s.proc i ((s.proc i).goto .test),
          ready := true } := by
  obtain ⟨hr, hu⟩ := h.creator i (by simp [Proc.creating, hpc])
  have hno : ∀ j, (Function.update s.proc i ((s.proc i).goto .test) j).creating = false := by
    refine (Function.forall_update_iff s.proc fun _ p => p.creating = false).mpr
      ⟨rfl, fun j hj => Bool.eq_false_iff.mpr fun hc => hj (hu j hc)⟩
  have hbal := h.balance
  rw [State.inside, hr] at hbal
  obtain ⟨S, hS⟩ := h.exists_set (i := i) (by simp [Proc.creating, hpc])
  refine ⟨fun hn => ?_, fun j hj => ?_, fun _ _ => rfl, ?_⟩
  · simp [hS] at hn
  · simp [hno j] at hj
  · have hcount := countWhere_update_of_eq (p := Proc.inside) (f := s.proc) (i := i)
      (a := (s.proc i).goto .test) (by simp [Proc.inside, Proc.goto, hpc])
    simp only [if_neg Bool.false_ne_true] at hbal
    rw [State.inside, hcount]
    simp only [hS, units, Option.map_some, Option.getD_some, SemSet.setval_semval_self, if_true]
    omega

omit [DecidableEq P] in
/-- Before the announcement the value is 0. -/
theorem Inv.units_eq_zero {s : State P} (h : Inv s) (hr : s.ready = false) : units s.set = 0 := by
  have hbal := h.balance
  rw [hr, if_neg Bool.false_ne_true] at hbal
  omega

/-- The `-1` semop lets one process in and takes one unit, which is there only after
the announcement. -/
theorem inv_acquire {s : State P} (h : Inv s) {i : P} {S T : SemSet} (hS : s.set = some S)
    (hT : S.semop 0 (-1) = some T) (hpc : (s.proc i).pc = .acquire) :
    Inv { s with set := some T, proc := Function.update s.proc i ((s.proc i).goto .inside) } := by
  have hval := (SemSet.semop_acquire hT).1
  have hunits : units s.set = T.semval 0 + 1 := by rw [hS]; exact hval
  refine h.move i nofun nofun (fun _ => ?_) ?_
  · by_contra hr
    have := h.units_eq_zero (Bool.eq_false_iff.mpr hr)
    omega
  · rw [hunits]
    simp [units, Proc.inside, Proc.goto, hpc]

/-- The `+1` semop gives the unit back. -/
theorem inv_release {s : State P} (h : Inv s) {i : P} {S T : SemSet} (hS : s.set = some S)
    (hT : S.semop 0 1 = some T) (hpc : (s.proc i).pc = .inside) :
    Inv { s with set := some T, proc := Function.update s.proc i ((s.proc i).goto .returned) } := by
  have hval := (SemSet.semop_release hT).1
  refine h.move i nofun nofun (fun _ => h.passed i (by simp [Proc.passed, hpc])) ?_
  rw [hS]
  simpa [units, Proc.inside, Proc.goto, hpc] using hval

/-- The creator's other two steps leave the value at 0. -/
theorem inv_creator {s : State P} (h : Inv s) {i : P} {T : SemSet} {pc : Pc}
    (hT : T.semval 0 = 0) (hc : (s.proc i).creating = true) (hi : (s.proc i).inside = false)
    (hq : pc = .touch ∨ pc = .setTwo) :
    Inv { s with set := some T, proc := Function.update s.proc i ((s.proc i).goto pc) } := by
  have hzero := h.units_eq_zero (h.creator i hc).1
  refine h.move i nofun (fun _ => hc) ?_ ?_
  · rcases hq with rfl | rfl <;> exact nofun
  · rw [hzero, hi]
    rcases hq with rfl | rfl <;> simp [units, hT, Proc.inside, Proc.goto]

/-- Every other call. -/
theorem inv_call {s : State P} (h : Inv s) {i : P} {ok : Bool} {r : Option SemSet × Proc}
    (hr : procStep s.set (s.proc i) ok = some r) (hne : ¬ ((s.proc i).pc = .setTwo ∧ ok = true)) :
    Inv { s with set := r.1, proc := Function.update s.proc i r.2 } := by
  by_cases hin : (s.proc i).pc = .inside
  · simp only [procStep, hin, Option.bind_eq_some_iff, Option.map_eq_some_iff] at hr
    obtain ⟨S, hS, T, hT, rfl⟩ := hr
    exact inv_release h hS hT hin
  have hi : (s.proc i).inside = false := by simp [Proc.inside, hin]
  cases hpc : (s.proc i).pc with
  | semget =>
    simp only [procStep, hpc] at hr
    split at hr <;> simp only [Option.some.injEq] at hr <;> subst hr
    · exact inv_create h i ‹_› hi
    · exact h.leave i hi rfl rfl
  | setZero =>
    have hc : (s.proc i).creating = true := by simp [Proc.creating, hpc]
    obtain ⟨S, hS⟩ := h.exists_set hc
    simp only [procStep, hpc, hS, Option.map_some] at hr
    split_ifs at hr <;> simp only [Option.some.injEq] at hr <;> subst hr
    · exact inv_creator h (S.setval_semval_self 0 0) hc hi (.inl rfl)
    · exact hS ▸ h.leave i hi rfl rfl
  | touch =>
    have hc : (s.proc i).creating = true := by simp [Proc.creating, hpc]
    simp only [procStep, hpc] at hr
    split_ifs at hr
    · simp only [Option.bind_eq_some_iff, Option.map_eq_some_iff] at hr
      obtain ⟨S, -, T, hT, rfl⟩ := hr
      obtain ⟨hz, hv, -⟩ := SemSet.semop_wait_zero hT
      exact inv_creator h (hv ▸ hz) hc hi (.inr rfl)
    · simp only [Option.some.injEq] at hr
      subst hr
      exact h.leave i hi rfl rfl
  | setTwo =>
    have hok : ok = false := by simpa [hpc] using hne
    simp only [procStep, hpc, hok, Bool.false_eq_true, if_false, Option.some.injEq] at hr
    subst hr
    exact h.leave i hi rfl rfl
  | lookup =>
    simp only [procStep, hpc] at hr
    split_ifs at hr <;> simp only [Option.some.injEq] at hr <;> subst hr <;>
      exact h.leave i hi rfl rfl
  | poll j =>
    simp only [procStep, hpc] at hr
    split_ifs at hr
    · simp only [Option.map_eq_some_iff] at hr
      obtain ⟨S, hS, rfl⟩ := hr
      refine h.leave i hi ?_ ?_ <;> dsimp only <;> split_ifs <;> rfl
    · simp only [Option.some.injEq] at hr
      subst hr
      exact h.leave i hi rfl rfl
  | test =>
    simp only [procStep, hpc, Option.some.injEq] at hr
    subst hr
    refine h.leave i hi ?_ ?_ <;> dsimp only <;> split_ifs <;> rfl
  | getval =>
    simp only [procStep, hpc, Option.map_eq_some_iff] at hr
    obtain ⟨S, hS, rfl⟩ := hr
    exact h.leave i hi rfl rfl
  | acquire =>
    simp only [procStep, hpc] at hr
    split_ifs at hr
    · simp only [Option.bind_eq_some_iff, Option.map_eq_some_iff] at hr
      obtain ⟨S, hS, T, hT, rfl⟩ := hr
      exact inv_acquire h hS hT hpc
    · simp only [Option.some.injEq] at hr
      subst hr
      exact h.leave i hi rfl rfl
  | inside => exact absurd hpc hin
  | returned | exited | killed => simp [procStep, hpc] at hr

theorem inv_step {s t : State P} {a : Action P} (h : Inv s) (hst : (system P).step s a = some t) :
    Inv t := by
  cases a with
  | call i ok =>
    obtain ⟨r, hr, rfl⟩ := Option.map_eq_some_iff.mp hst
    by_cases htwo : (s.proc i).pc = .setTwo ∧ ok = true
    · simp only [procStep, htwo.1, htwo.2, if_true, Option.some.injEq] at hr
      subst hr
      simpa [htwo] using inv_setTwo h htwo.1
    · have hready : (s.ready || (decide ((s.proc i).pc = .setTwo) && ok)) = s.ready := by
        simpa using fun hpc hok => absurd ⟨hpc, hok⟩ htwo
      rw [hready]
      exact inv_call h hr htwo
  | kill i =>
    simp only [system, Option.ite_none_left_eq_some, Option.some.injEq] at hst
    obtain ⟨hpc, rfl⟩ := hst
    exact h.leave i (by simpa [Proc.inside] using hpc) rfl rfl

theorem inv_reachable {s : State P} (h : (system P).Reachable s) : Inv s :=
  h.invariant (fun _ => inv_start) fun _ _ _ hi hst => inv_step hi hst

/-! ### Entry -/

/-- However the calls interleave and whatever an earlier run left: at most two are
inside, nobody has passed the `-1` semop before the `SETVAL` to 2, and from then on
the value and the processes inside add up to 2. -/
theorem entry_bounded {s : State P} (h : (system P).Reachable s) :
    s.inside ≤ 2 ∧ (s.ready = false → ∀ i, (s.proc i).passed = false) ∧
      (s.ready = true → ∃ S, s.set = some S ∧ S.semval 0 + s.inside = 2) := by
  have hi := inv_reachable h
  have hbal := hi.balance
  refine ⟨?_, fun hr j => ?_, fun hr => ?_⟩
  · split_ifs at hbal <;> omega
  · simpa [hr] using mt (hi.passed j)
  · cases hS : s.set with
    | none => exact absurd (hi.absent hS).1 (by simp [hr])
    | some S =>
      rw [hr, if_pos rfl, hS] at hbal
      exact ⟨S, rfl, hbal⟩

/-- Two processes on a key without a set; the `ds` of each happens to hold a time. -/
def pair : State (Fin 2) := ⟨none, fun _ => ⟨.semget, true, 0⟩, false⟩

/-- The first creates the set while the second polls, and both enter. -/
def enter : List (Action (Fin 2)) :=
  ([0, 1, 1, 1, 0, 0, 1, 0, 0, 0, 0, 1, 1, 1] : List (Fin 2)).map fun i => .call i true

theorem entry_bounded_two :
    ∃ s : State (Fin 2), s.inside = 2 ∧ (s.inside ≤ 2 ∧ (s.ready = false → ∀ i, (s.proc i).passed = false) ∧
      (s.ready = true → ∃ S, s.set = some S ∧ S.semval 0 + s.inside = 2)) := by
  have hs : (system (Fin 2)).init pair := ⟨fun _ => rfl, fun _ => rfl, rfl⟩
  exact ⟨((system (Fin 2)).run pair enter).get (by decide), by decide,
    entry_bounded (System.reachable_of_isSome hs enter (by decide))⟩

end LinuxApi.SemaphoreStartup
