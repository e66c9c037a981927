import LinuxApi.Transition.History
import LinuxApi.Transition.Indexed
import LinuxApi.Transition.System
import Mathlib.Data.Fin.VecNotation

/-! The programs in `ipc_posix_sem.c`, any number of each at the same time. A semaphore has a name until it is
unlinked; who opened it before goes on with it, and a later one of the same name is another. The history holds
what happens to the semaphores. -/

namespace LinuxApi.NamedSemaphore

/-- `ipc_posix_sem_create`, `ipc_posix_sem_acquire`, `ipc_posix_sem_release` and `ipc_posix_sem_destroy`. -/
inductive Role where
  | create | acquire | release | destroy
  deriving DecidableEq

/-- Where a process is; it has opened the semaphore `o`, and `value` is what `sem_getvalue` returned. -/
inductive Pc where
  | start
  | wait (o : ℕ)
  | post (o : ℕ)
  | print (o : ℕ)
  | getvalue (o : ℕ)
  | report (value : ℕ)
  | done
  | failed (msg : String)
  deriving DecidableEq

/-- What a process prints, one `printf` each. -/
inductive Line where
  | acquired | released
  | value (v : ℕ)
  deriving DecidableEq

def Line.text : Line → String
  | .acquired => "semaphore acquired.\n"
  | .released => "semaphore released.\n"
  | .value v => "semaphore value = " ++ toString v ++ "\n"

inductive Event (ι : Type*) where
  | created (o : ℕ)
  | unlinked (o : ℕ)
  | opened (i : ι) (o : ℕ)
  | posted (i : ι) (o : ℕ)
  | waited (i : ι) (o : ℕ)
  | read (i : ι) (o v : ℕ)
  deriving DecidableEq

/-- `name` is the semaphore that `POSIX_SEM` names, and `next` one that has not existed yet. -/
structure State (ι : Type*) where
  name : Option ℕ
  value : ℕ → ℕ
  next : ℕ
  pc : ι → Pc
  stdout : List (ι × Line)
  history : List (Event ι)

/-- The next call of a process, which fails unless `ok`. -/
structure Action (ι : Type*) where
  who : ι
  ok : Bool

variable {ι : Type*} [DecidableEq ι]

def State.goto (s : State ι) (i : ι) (pc : Pc) : State ι := { s with pc := Function.update s.pc i pc }

/-- `ipc_posix_sem_create` does not look at what `sem_open` returns. -/
def ipcPosixSemCreate (s : State ι) (i : ι) (ok : Bool) : Option (State ι) :=
  match s.pc i with
  | .start =>
    if ok ∧ s.name = none then
      some { s.goto i .done with
        name := some s.next, value := Function.update s.value s.next 0, next := s.next + 1,
        history := s.history ++ [.created s.next] }
    else some (s.goto i .done)
  | _ => none

/-- The end of `ipc_posix_sem_acquire` and `ipc_posix_sem_release`. -/
def report (line : Line) (s : State ι) (i : ι) (ok : Bool) : Option (State ι) :=
  match s.pc i with
  | .print o => some { s.goto i (.getvalue o) with stdout := s.stdout ++ [(i, line)] }
  | .getvalue o =>
    if ok then
      some { s.goto i (.report (s.value o)) with history := s.history ++ [.read i o (s.value o)] }
    else some (s.goto i (.failed "sem_getvalue()"))
  | .report v => some { s.goto i .done with stdout := s.stdout ++ [(i, .value v)] }
  | _ => none

/-- `sem_open` of a semaphore that should exist. -/
def semOpen (s : State ι) (i : ι) (ok : Bool) (pc : ℕ → Pc) : State ι :=
  match s.name with
  | some o =>
    if ok then { s.goto i (pc o) with history := s.history ++ [.opened i o] }
    else s.goto i (.failed "sem_open()")
  | none => s.goto i (.failed "sem_open()")

/-- `sem_wait` blocks at 0. -/
def ipcPosixSemAcquire (s : State ι) (i : ι) (ok : Bool) : Option (State ι) :=
  match s.pc i with
  | .start => some (semOpen s i ok .wait)
  | .wait o =>
    if !ok then some (s.goto i (.failed "sem_wait()"))
    else if 0 < s.value o then
      some { s.goto i (.print o) with
        value := Function.update s.value o (s.value o - 1), history := s.history ++ [.waited i o] }
    else none
  | _ => report .acquired s i ok

def ipcPosixSemRelease (s : State ι) (i : ι) (ok : Bool) : Option (State ι) :=
  match s.pc i with
  | .start => some (semOpen s i ok .post)
  | .post o =>
    if !ok then some (s.goto i (.failed "sem_post()"))
    else
      some { s.goto i (.print o) with
        value := Function.update s.value o (s.value o + 1), history := s.history ++ [.posted i o] }
  | _ => report .released s i ok

def ipcPosixSemDestroy (s : State ι) (i : ι) (ok : Bool) : Option (State ι) :=
  match s.pc i with
  | .start =>
    match s.name with
    | some o =>
      if ok then some { s.goto i .done with name := none, history := s.history ++ [.unlinked o] }
      else some (s.goto i (.failed "sem_unlink()"))
    | none => some (s.goto i (.failed "sem_unlink()"))
  | _ => none

/-- The units at the start of a semaphore that may be left from before, with the number 0. -/
def initial (left : Option ℕ) (o : ℕ) : ℕ := if o = 0 then left.getD 0 else 0

/-- `role i` is the program that `i` runs. -/
def system (role : ι → Role) (left : Option ℕ) : System (State ι) (Action ι) where
  init s := s = ⟨left.map fun _ => 0, initial left, 1, fun _ => .start, [], []⟩
  step s a :=
    match role a.who with
    | .create => ipcPosixSemCreate s a.who a.ok
    | .acquire => ipcPosixSemAcquire s a.who a.ok
    | .release => ipcPosixSemRelease s a.who a.ok
    | .destroy => ipcPosixSemDestroy s a.who a.ok

/-! ### The units of a semaphore -/

/-- How often `sem_post` has been called for `o`. -/
def posts (o : ℕ) (h : List (Event ι)) : ℕ :=
  h.countP fun
    | .posted _ p => p == o
    | _ => false

/-- How often `sem_wait` has come back for `o`. -/
def waits (o : ℕ) (h : List (Event ι)) : ℕ :=
  h.countP fun
    | .waited _ p => p == o
    | _ => false

/-- The processes that have taken or given a unit. -/
def movers (h : List (Event ι)) : List ι :=
  h.filterMap fun
    | .posted i _ | .waited i _ => some i
    | _ => none

/-- What `POSIX_SEM` names after an event. -/
def nameAfter (name : Option ℕ) : Event ι → Option ℕ
  | .created o => some o
  | .unlinked _ => none
  | .opened _ _ | .posted _ _ | .waited _ _ | .read _ _ _ => name

/-- What it names after the events, where a semaphore may be left from before. -/
def named (left : Option ℕ) (h : List (Event ι)) : Option ℕ := h.foldl nameAfter (left.map fun _ => 0)

/-- What the events before allow: a semaphore is created where there is no name, and is a new one; a process
opens one semaphore, the one that has the name; a unit is taken where one is left, only by those who acquire,
and given only by those who release; and a process takes a unit from, gives one to and reads the value of
nothing but the semaphore it has opened, and reads what is left. -/
def Legal (role : ι → Role) (left : Option ℕ) (pre : List (Event ι)) : Event ι → Prop
  | .created o => named left pre = none ∧ .created o ∉ pre ∧ waits o pre = 0 ∧ posts o pre = 0 ∧
      initial left o = 0
  | .unlinked o => named left pre = some o
  | .opened i o => named left pre = some o ∧ ∀ p, .opened i p ∉ pre
  | .posted i o => role i = .release ∧ .opened i o ∈ pre
  | .waited i o => role i = .acquire ∧ .opened i o ∈ pre ∧ waits o pre < initial left o + posts o pre
  | .read i o v => .opened i o ∈ pre ∧ v + waits o pre = initial left o + posts o pre

omit [DecidableEq ι] in
theorem posts_concat (o : ℕ) (h : List (Event ι)) (e : Event ι) : posts o (h ++ [e]) = posts o h + posts o [e] :=
  List.countP_append

omit [DecidableEq ι] in
theorem waits_concat (o : ℕ) (h : List (Event ι)) (e : Event ι) : waits o (h ++ [e]) = waits o h + waits o [e] :=
  List.countP_append

omit [DecidableEq ι] in
theorem named_concat (left : Option ℕ) (h : List (Event ι)) (e : Event ι) :
    named left (h ++ [e]) = nameAfter (named left h) e := by
  rw [named, List.foldl_append]
  rfl

omit [DecidableEq ι] in
theorem movers_concat (h : List (Event ι)) (e : Event ι) : movers (h ++ [e]) = movers h ++ movers [e] :=
  List.filterMap_append

/-- The semaphore a process works on. -/
def Pc.object : Pc → Option ℕ
  | .wait o | .post o | .print o | .getvalue o => some o
  | _ => none

/-- The process has not taken or given a unit yet. -/
def Pc.early : Pc → Bool
  | .start | .wait _ | .post _ => true
  | _ => false

def Role.line : Role → Line
  | .release => .released
  | _ => .acquired

/-- What a process has printed, by its place. At its end it has taken or given a unit and printed the value
it has read of the semaphore it had opened, if that is what its program does. -/
def Told (role : ι → Role) (s : State ι) (i : ι) : Prop :=
  match s.pc i with
  | .start => eventsOf i s.stdout = []
  | .wait _ => eventsOf i s.stdout = [] ∧ role i = .acquire
  | .post _ => eventsOf i s.stdout = [] ∧ role i = .release
  | .print _ => eventsOf i s.stdout = [] ∧ i ∈ movers s.history
  | .getvalue _ => eventsOf i s.stdout = [(role i).line] ∧ i ∈ movers s.history
  | .report v => eventsOf i s.stdout = [(role i).line] ∧ i ∈ movers s.history ∧
      ∃ o, .opened i o ∈ s.history ∧ .read i o v ∈ s.history
  | .done => role i = .create ∨ role i = .destroy ∨ i ∈ movers s.history ∧
      ∃ o v, eventsOf i s.stdout = [(role i).line, .value v] ∧ .opened i o ∈ s.history ∧
        .read i o v ∈ s.history
  | .failed _ => True

structure Inv (role : ι → Role) (left : Option ℕ) (s : State ι) : Prop where
  units : ∀ o, s.value o + waits o s.history = initial left o + posts o s.history
  legal : Each (Legal role left) s.history
  fresh : ∀ o, s.next ≤ o → posts o s.history = 0 ∧ initial left o = 0 ∧ .created o ∉ s.history
  name : ∀ o ∈ s.name, o < s.next
  named : s.name = named left s.history
  object : ∀ i, ∀ o ∈ (s.pc i).object, o < s.next ∧ .opened i o ∈ s.history
  unopened : ∀ i, s.pc i = .start → ∀ o, .opened i o ∉ s.history
  once : (movers s.history).Nodup
  behind : ∀ i ∈ movers s.history, (s.pc i).early = false
  told : ∀ i, Told role s i

variable {role : ι → Role} {left : Option ℕ} {s t : State ι} {i j : ι} {o : ℕ} {ok : Bool}

theorem goto_self (s : State ι) (i : ι) (pc : Pc) : (s.goto i pc).pc i = pc := Function.update_self ..

theorem goto_of_ne (s : State ι) (pc : Pc) (h : j ≠ i) : (s.goto i pc).pc j = s.pc j :=
  Function.update_of_ne h ..

/-- The semaphores, and what has happened to them, are those of another state, whose processes but `i` stand
where they stood and have printed what they had. -/
structure Same (i : ι) (s t : State ι) : Prop where
  name : t.name = s.name
  value : t.value = s.value
  next : t.next = s.next
  pc : ∀ j, j ≠ i → t.pc j = s.pc j
  stdout : ∀ j, j ≠ i → eventsOf j t.stdout = eventsOf j s.stdout

theorem same_goto (s : State ι) (i : ι) (pc : Pc) : Same i s (s.goto i pc) :=
  ⟨rfl, rfl, rfl, fun _ hj => goto_of_ne s pc hj, fun _ _ => rfl⟩

/-- What another process has printed stays right while the history grows. -/
theorem Told.of_same (ht : Told role s j) (hpc : t.pc j = s.pc j)
    (hstdout : eventsOf j t.stdout = eventsOf j s.stdout) (hhistory : ∀ e ∈ s.history, e ∈ t.history)
    (hmovers : ∀ k ∈ movers s.history, k ∈ movers t.history) : Told role t j := by
  unfold Told at ht ⊢
  rw [hpc, hstdout]
  cases hj : s.pc j with
  | start | wait | post =>
    rw [hj] at ht
    exact ht
  | print | getvalue =>
    rw [hj] at ht
    exact ⟨ht.1, hmovers j ht.2⟩
  | report v =>
    rw [hj] at ht
    obtain ⟨hout, hmoved, o, hopened, hread⟩ := ht
    exact ⟨hout, hmovers j hmoved, o, hhistory _ hopened, hhistory _ hread⟩
  | done =>
    rw [hj] at ht
    rcases ht with hcreate | hdestroy | ⟨hmoved, o, v, hout, hopened, hread⟩
    · exact .inl hcreate
    · exact .inr (.inl hdestroy)
    · exact .inr (.inr ⟨hmovers j hmoved, o, v, hout, hhistory _ hopened, hhistory _ hread⟩)
  | failed => trivial

/-- A step that leaves the semaphores and the history alone. -/
theorem Inv.quiet (hi : Inv role left s) (hs : Same i s t) (hhistory : t.history = s.history)
    (hobject : ∀ o ∈ (t.pc i).object, o ∈ (s.pc i).object)
    (hlate : (s.pc i).early = true ∨ (t.pc i).early = false) (hstart : t.pc i ≠ .start)
    (htold : Told role t i) : Inv role left t := by
  refine ⟨?_, ?_, ?_, ?_, ?_, fun j o ho => ?_, fun j hj => ?_, ?_, fun j hj => ?_, fun j => ?_⟩
  · rw [hhistory, hs.value]
    exact hi.units
  · rw [hhistory]
    exact hi.legal
  · rw [hhistory, hs.next]
    exact hi.fresh
  · rw [hs.name, hs.next]
    exact hi.name
  · rw [hs.name, hhistory]
    exact hi.named
  · rw [hs.next, hhistory]
    by_cases hji : j = i
    · subst hji
      exact hi.object j o (hobject o ho)
    · rw [hs.pc j hji] at ho
      exact hi.object j o ho
  · rw [hhistory]
    by_cases hji : j = i
    · subst hji
      exact absurd hj hstart
    · rw [hs.pc j hji] at hj
      exact hi.unopened j hj
  · rw [hhistory]
    exact hi.once
  · rw [hhistory] at hj
    by_cases hji : j = i
    · subst hji
      rcases hlate with hearly | hlate
      · rw [hi.behind j hj] at hearly
        cases hearly
      · exact hlate
    · rw [hs.pc j hji]
      exact hi.behind j hj
  · by_cases hji : j = i
    · subst hji
      exact htold
    · apply (hi.told j).of_same (hs.pc j hji) (hs.stdout j hji)
      · exact fun e he => hhistory ▸ he
      · exact fun k hk => hhistory ▸ hk

/-- A step in which something happens to a semaphore. -/
theorem Inv.act (hi : Inv role left s) (e : Event ι) (hhistory : t.history = s.history ++ [e])
    (hpc : ∀ j, j ≠ i → t.pc j = s.pc j) (hstdout : t.stdout = s.stdout)
    (hunits : ∀ o, t.value o + waits o [e] = s.value o + posts o [e])
    (hlegal : Legal role left s.history e) (hnext : s.next ≤ t.next)
    (hfresh : ∀ o, t.next ≤ o → posts o [e] = 0 ∧ e ≠ .created o) (hname : ∀ o ∈ t.name, o < t.next)
    (hnamed : t.name = nameAfter s.name e)
    (hobject : ∀ o ∈ (t.pc i).object, o < t.next ∧ .opened i o ∈ t.history) (hstart : t.pc i ≠ .start)
    (hothers : ∀ j, j ≠ i → ∀ o, e ≠ .opened j o)
    (hmovers : movers [e] = [] ∨ movers [e] = [i] ∧ (s.pc i).early = true)
    (hlate : (t.pc i).early = false ∨ movers [e] = [] ∧ (s.pc i).early = true)
    (htold : Told role t i) : Inv role left t := by
  refine ⟨fun o => ?_, ?_, fun o ho => ?_, hname, ?_, fun j o ho => ?_, fun j hj o ho => ?_, ?_,
    fun j hj => ?_, fun j => ?_⟩
  · have hu := hi.units o
    have hn := hunits o
    rw [hhistory, waits_concat, posts_concat]
    omega
  · rw [hhistory]
    exact hi.legal.concat hlegal
  · obtain ⟨hposts, hinitial, hcreated⟩ := hi.fresh o (by omega)
    obtain ⟨hnone, hnew⟩ := hfresh o ho
    rw [hhistory, posts_concat, List.mem_append, List.mem_singleton]
    exact ⟨by omega, hinitial, fun h => h.elim hcreated fun h => hnew h.symm⟩
  · rw [hnamed, hhistory, named_concat, hi.named]
  · by_cases hji : j = i
    · subst hji
      exact hobject o ho
    · rw [hpc j hji] at ho
      obtain ⟨hlt, hopened⟩ := hi.object j o ho
      rw [hhistory]
      exact ⟨by omega, List.mem_append_left _ hopened⟩
  · by_cases hji : j = i
    · subst hji
      exact hstart hj
    · rw [hpc j hji] at hj
      rw [hhistory, List.mem_append, List.mem_singleton] at ho
      rcases ho with ho | ho
      · exact hi.unopened j hj o ho
      · exact hothers j hji o ho.symm
  · rw [hhistory, movers_concat]
    rcases hmovers with hnone | ⟨hone, hearly⟩
    · rw [hnone, List.append_nil]
      exact hi.once
    · rw [hone, ← List.concat_eq_append]
      apply List.Nodup.concat _ hi.once
      intro hin
      rw [hi.behind i hin] at hearly
      cases hearly
  · by_cases hji : j = i
    · subst hji
      rcases hlate with hlate | ⟨hnone, hearly⟩
      · exact hlate
      · rw [hhistory, movers_concat, hnone, List.append_nil] at hj
        rw [hi.behind j hj] at hearly
        cases hearly
    · rw [hpc j hji]
      apply hi.behind j
      rw [hhistory, movers_concat] at hj
      rcases List.mem_append.mp hj with hj | hj
      · exact hj
      · rcases hmovers with hnone | ⟨hone, -⟩
        · rw [hnone] at hj
          cases hj
        · rw [hone] at hj
          exact absurd (List.mem_singleton.mp hj) hji
  · by_cases hji : j = i
    · subst hji
      exact htold
    · apply (hi.told j).of_same (hpc j hji) (by rw [hstdout])
      · exact fun e he => hhistory ▸ List.mem_append_left _ he
      · intro k hk
        rw [hhistory, movers_concat]
        exact List.mem_append_left _ hk

/-- A `printf`. -/
theorem Inv.print (hi : Inv role left s) {pc : Pc} {line : Line}
    (hobject : ∀ o ∈ pc.object, o ∈ (s.pc i).object) (hlate : pc.early = false)
    (htold : Told role { s.goto i pc with stdout := s.stdout ++ [(i, line)] } i) :
    Inv role left { s.goto i pc with stdout := s.stdout ++ [(i, line)] } := by
  have hpc : (s.goto i pc).pc i = pc := goto_self s i pc
  refine hi.quiet ⟨rfl, rfl, rfl, fun _ hj => goto_of_ne s pc hj, fun j hj => ?_⟩ rfl ?_ (.inr ?_) ?_ htold
  · show eventsOf j (s.stdout ++ [(i, line)]) = eventsOf j s.stdout
    rw [eventsOf_concat, if_neg (Ne.symm hj), List.append_nil]
  · show ∀ o ∈ ((s.goto i pc).pc i).object, o ∈ (s.pc i).object
    rw [hpc]
    exact hobject
  · show ((s.goto i pc).pc i).early = false
    rw [hpc]
    exact hlate
  · show (s.goto i pc).pc i ≠ .start
    rw [hpc]
    rintro rfl
    cases hlate

/-- An error ends a process. -/
theorem Inv.fail (hi : Inv role left s) (i : ι) (msg : String) : Inv role left (s.goto i (.failed msg)) := by
  have hpc : (s.goto i (.failed msg)).pc i = .failed msg := goto_self s i _
  refine hi.quiet (same_goto s i _) rfl ?_ (.inr ?_) ?_ ?_
  · rw [hpc]
    exact fun o ho => absurd ho (Option.not_mem_none o)
  · rw [hpc]
    rfl
  · rw [hpc]
    exact Pc.noConfusion
  · unfold Told
    rw [hpc]
    trivial

/-- The semaphore that has the name is opened, or the process ends. -/
theorem Inv.semOpen (hi : Inv role left s) (hpc : s.pc i = .start) {pc : ℕ → Pc}
    (hobject : ∀ o, (pc o).object = some o)
    (htold : ∀ t : State ι, ∀ o, t.pc i = pc o → eventsOf i t.stdout = [] → Told role t i) :
    Inv role left (semOpen s i ok pc) := by
  have hout := hi.told i
  unfold Told at hout
  rw [hpc] at hout
  unfold NamedSemaphore.semOpen
  split
  · rename_i o ho
    split_ifs
    · have hto : (s.goto i (pc o)).pc i = pc o := goto_self s i _
      have hearly : (s.pc i).early = true := by rw [hpc]; rfl
      refine hi.act (i := i) (.opened i o) rfl (fun _ hj => goto_of_ne s _ hj) rfl (fun _ => rfl)
        ⟨hi.named ▸ ho, hi.unopened i hpc⟩ le_rfl (fun _ _ => ⟨rfl, nofun⟩) hi.name rfl ?_ ?_
        (fun j hj p h => hj (Event.opened.inj h).1.symm) (.inl rfl) (.inr ⟨rfl, hearly⟩) ?_
      · dsimp only
        rw [hto, hobject]
        intro p hp
        obtain rfl : o = p := Option.some.inj hp
        exact ⟨hi.name o ho, List.mem_append_right _ List.mem_cons_self⟩
      · dsimp only
        rw [hto]
        intro hstart
        have hnone := hobject o
        rw [hstart] at hnone
        cases hnone
      · exact htold _ o hto hout
    · exact hi.fail i _
  · exact hi.fail i _

theorem Inv.report_step (hi : Inv role left s)
    (h : report (role i).line s i ok = some t) : Inv role left t := by
  have htold := hi.told i
  unfold Told at htold
  unfold report at h
  cases hpc : s.pc i with
  | print o =>
    simp only [hpc, Option.some.injEq] at h
    subst h
    rw [hpc] at htold
    refine hi.print (by rw [hpc]; exact fun p hp => hp) rfl ?_
    unfold Told
    dsimp only
    rw [goto_self, eventsOf_concat, if_pos rfl, htold.1]
    exact ⟨rfl, htold.2⟩
  | getvalue o =>
    simp only [hpc] at h
    rw [hpc] at htold
    have hopened := (hi.object i o (by rw [hpc]; rfl)).2
    split_ifs at h <;> cases h
    · have hto : (s.goto i (.report (s.value o))).pc i = .report (s.value o) := goto_self s i _
      refine hi.act (i := i) (.read i o (s.value o)) rfl (fun _ hj => goto_of_ne s _ hj) rfl (fun p => rfl)
        ⟨hopened, hi.units o⟩ le_rfl (fun _ _ => ⟨rfl, nofun⟩) hi.name rfl ?_ ?_ nofun (.inl rfl) (.inl ?_) ?_
      · dsimp only
        rw [hto]
        exact fun p hp => absurd hp (Option.not_mem_none p)
      · dsimp only
        rw [hto]
        exact Pc.noConfusion
      · dsimp only
        rw [hto]
        rfl
      · unfold Told
        dsimp only
        rw [hto]
        refine ⟨htold.1, ?_, o, List.mem_append_left _ hopened, List.mem_append_right _ List.mem_cons_self⟩
        rw [movers_concat]
        exact List.mem_append_left _ htold.2
    · exact hi.fail i _
  | report v =>
    simp only [hpc, Option.some.injEq] at h
    subst h
    rw [hpc] at htold
    obtain ⟨hout, hmoved, o, hopened, hread⟩ := htold
    refine hi.print (fun p hp => absurd hp (Option.not_mem_none p)) rfl ?_
    unfold Told
    dsimp only
    rw [goto_self, eventsOf_concat, if_pos rfl, hout]
    exact .inr (.inr ⟨hmoved, o, v, rfl, hopened, hread⟩)
  | start | wait | post | done | failed => simp [hpc] at h

theorem Inv.create_step (hi : Inv role left s) (hrole : role i = .create)
    (h : ipcPosixSemCreate s i ok = some t) : Inv role left t := by
  unfold ipcPosixSemCreate at h
  cases hpc : s.pc i with
  | start =>
    simp only [hpc] at h
    split_ifs at h with hnew <;> cases h
    · obtain ⟨hposts, hinitial, hcreated⟩ := hi.fresh s.next le_rfl
      have hzero := hi.units s.next
      refine hi.act (i := i) (.created s.next) rfl (fun _ hj => goto_of_ne s _ hj) rfl (fun o => ?_)
        ⟨hi.named ▸ hnew.2, hcreated, by omega, hposts, hinitial⟩ (Nat.le_succ _) (fun o ho => ⟨rfl, ?_⟩) ?_ rfl
        ?_ ?_ nofun (.inl rfl) (.inl ?_) ?_
      · show Function.update s.value s.next 0 o + 0 = s.value o + 0
        by_cases ho : o = s.next
        · rw [ho, Function.update_self]
          omega
        · rw [Function.update_of_ne ho]
      · have ho : s.next + 1 ≤ o := ho
        intro h
        have heq := Event.created.inj h
        omega
      · intro o ho
        obtain rfl : s.next = o := Option.some.inj ho
        exact Nat.lt_succ_self _
      · dsimp only
        rw [goto_self]
        exact fun p hp => absurd hp (Option.not_mem_none p)
      · dsimp only
        rw [goto_self]
        exact Pc.noConfusion
      · dsimp only
        rw [goto_self]
        rfl
      · unfold Told
        dsimp only
        rw [goto_self]
        exact .inl hrole
    · refine hi.quiet (same_goto s i _) rfl ?_ (.inl (by rw [hpc]; rfl)) ?_ ?_
      · rw [goto_self]
        exact fun p hp => absurd hp (Option.not_mem_none p)
      · rw [goto_self]
        exact Pc.noConfusion
      · unfold Told
        rw [goto_self]
        exact .inl hrole
  | wait | post | print | getvalue | report | done | failed => simp [hpc] at h

theorem Inv.destroy_step (hi : Inv role left s) (hrole : role i = .destroy)
    (h : ipcPosixSemDestroy s i ok = some t) : Inv role left t := by
  unfold ipcPosixSemDestroy at h
  cases hpc : s.pc i with
  | start =>
    simp only [hpc] at h
    split at h
    · rename_i o ho
      split_ifs at h <;> cases h
      · refine hi.act (i := i) (.unlinked o) rfl (fun _ hj => goto_of_ne s _ hj) rfl (fun p => rfl)
          (hi.named.symm.trans ho) le_rfl (fun _ _ => ⟨rfl, nofun⟩) (fun p hp => absurd hp (Option.not_mem_none p)) rfl ?_ ?_
          nofun (.inl rfl) (.inl ?_) ?_
        · dsimp only
          rw [goto_self]
          exact fun p hp => absurd hp (Option.not_mem_none p)
        · dsimp only
          rw [goto_self]
          exact Pc.noConfusion
        · dsimp only
          rw [goto_self]
          rfl
        · unfold Told
          dsimp only
          rw [goto_self]
          exact .inr (.inl hrole)
      · exact hi.fail i _
    · cases h
      exact hi.fail i _
  | wait | post | print | getvalue | report | done | failed => simp [hpc] at h

/-- A process that has just taken or given its unit. -/
theorem told_print (hpc : t.pc i = .print o) (hstdout : eventsOf i t.stdout = [])
    (hmoved : i ∈ movers t.history) : Told role t i := by
  unfold Told
  rw [hpc]
  exact ⟨hstdout, hmoved⟩

theorem Inv.acquire_step (hi : Inv role left s) (hrole : role i = .acquire)
    (h : ipcPosixSemAcquire s i ok = some t) : Inv role left t := by
  have hline : (role i).line = .acquired := by rw [hrole]; rfl
  unfold ipcPosixSemAcquire at h
  cases hpc : s.pc i with
  | start =>
    simp only [hpc, Option.some.injEq] at h
    subst h
    refine hi.semOpen hpc (fun _ => rfl) fun t o ht hout => ?_
    unfold Told
    rw [ht]
    exact ⟨hout, hrole⟩
  | wait o =>
    simp only [hpc] at h
    have hout := hi.told i
    unfold Told at hout
    rw [hpc] at hout
    obtain ⟨hlt, hopened⟩ := hi.object i o (by rw [hpc]; rfl)
    split_ifs at h with hok hpos <;> cases h
    · exact hi.fail i _
    · have hu := hi.units o
      refine hi.act (i := i) (.waited i o) rfl (fun _ hj => goto_of_ne s _ hj) rfl (fun p => ?_)
        ⟨hrole, hopened, by omega⟩ le_rfl (fun _ _ => ⟨rfl, nofun⟩) hi.name rfl ?_ ?_ nofun
        (.inr ⟨rfl, by rw [hpc]; rfl⟩) (.inl ?_) ?_
      · show Function.update s.value o (s.value o - 1) p + waits p [.waited i o] = s.value p + 0
        by_cases hp : p = o
        · subst hp
          have hone : waits p [.waited i p] = 1 := by simp [waits]
          rw [Function.update_self, hone]
          omega
        · have hnone : waits p [.waited i o] = 0 := by simp [waits, Ne.symm hp]
          rw [Function.update_of_ne hp, hnone]
      · dsimp only
        rw [goto_self]
        intro p hp
        obtain rfl : o = p := Option.some.inj hp
        exact ⟨hlt, List.mem_append_left _ hopened⟩
      · dsimp only
        rw [goto_self]
        exact Pc.noConfusion
      · dsimp only
        rw [goto_self]
        rfl
      · refine told_print (goto_self s i _) hout.1 ?_
        rw [movers_concat]
        exact List.mem_append_right _ List.mem_cons_self
  | print | getvalue | report =>
    simp only [hpc] at h
    exact hi.report_step (hline ▸ h)
  | post | done | failed => simp [hpc, report] at h

theorem Inv.release_step (hi : Inv role left s) (hrole : role i = .release)
    (h : ipcPosixSemRelease s i ok = some t) : Inv role left t := by
  have hline : (role i).line = .released := by rw [hrole]; rfl
  unfold ipcPosixSemRelease at h
  cases hpc : s.pc i with
  | start =>
    simp only [hpc, Option.some.injEq] at h
    subst h
    refine hi.semOpen hpc (fun _ => rfl) fun t o ht hout => ?_
    unfold Told
    rw [ht]
    exact ⟨hout, hrole⟩
  | post o =>
    simp only [hpc] at h
    have hout := hi.told i
    unfold Told at hout
    rw [hpc] at hout
    obtain ⟨hlt, hopened⟩ := hi.object i o (by rw [hpc]; rfl)
    split_ifs at h <;> cases h
    · exact hi.fail i _
    · refine hi.act (i := i) (.posted i o) rfl (fun _ hj => goto_of_ne s _ hj) rfl (fun p => ?_)
        ⟨hrole, hopened⟩ le_rfl (fun p hp => ⟨?_, nofun⟩) hi.name rfl ?_ ?_ nofun
        (.inr ⟨rfl, by rw [hpc]; rfl⟩) (.inl ?_) ?_
      · show Function.update s.value o (s.value o + 1) p + 0 = s.value p + posts p [.posted i o]
        by_cases hp : p = o
        · subst hp
          have hone : posts p [.posted i p] = 1 := by simp [posts]
          rw [Function.update_self, hone]
        · have hnone : posts p [.posted i o] = 0 := by simp [posts, Ne.symm hp]
          rw [Function.update_of_ne hp, hnone]
      · have hp : s.next ≤ p := hp
        have hne : o ≠ p := by omega
        simp [posts, hne]
      · dsimp only
        rw [goto_self]
        intro p hp
        obtain rfl : o = p := Option.some.inj hp
        exact ⟨hlt, List.mem_append_left _ hopened⟩
      · dsimp only
        rw [goto_self]
        exact Pc.noConfusion
      · dsimp only
        rw [goto_self]
        rfl
      · refine told_print (goto_self s i _) hout.1 ?_
        rw [movers_concat]
        exact List.mem_append_right _ List.mem_cons_self
  | print | getvalue | report =>
    simp only [hpc] at h
    exact hi.report_step (hline ▸ h)
  | wait | done | failed => simp [hpc, report] at h

theorem Inv.step (hi : Inv role left s) {a : Action ι} (h : (system role left).step s a = some t) :
    Inv role left t := by
  simp only [system] at h
  split at h
  · rename_i hrole
    exact hi.create_step hrole h
  · rename_i hrole
    exact hi.acquire_step hrole h
  · rename_i hrole
    exact hi.release_step hrole h
  · rename_i hrole
    exact hi.destroy_step hrole h

theorem inv_reachable (h : (system role left).Reachable s) : Inv role left s := by
  refine h.invariant (I := Inv role left) (fun s hs => ?_) fun s a t hi ht => hi.step ht
  have hs : s = _ := hs
  rw [hs]
  refine ⟨fun _ => rfl, Each.nil, fun o ho => ⟨rfl, ?_, List.not_mem_nil⟩, fun o ho => ?_, rfl, fun i o ho => ?_,
    fun _ _ _ => List.not_mem_nil, List.nodup_nil, ?_, fun i => rfl⟩
  · have ho : 1 ≤ o := ho
    exact if_neg (by omega)
  · obtain ⟨v, -, rfl⟩ := Option.map_eq_some_iff.mp ho
    exact Nat.lt_succ_self 0
  · exact absurd ho (Option.not_mem_none o)
  · exact fun i hi => absurd hi List.not_mem_nil

/-- In every run of any number of these programs, whatever fails: a semaphore has the units it had at first and
those given to it, less those taken; a process opens the one semaphore that has the name at that moment, takes a
unit only from that one, only when one is left and not twice, or gives it at most one; and what it prints at
its end is the value that this semaphore had when it asked. -/
theorem units_conserved (h : (system role left).Reachable s) :
    (∀ o, s.value o + waits o s.history = initial left o + posts o s.history) ∧
      Each (Legal role left) s.history ∧ (movers s.history).Nodup ∧ ∀ i, Told role s i := by
  have hi := inv_reachable h
  exact ⟨hi.units, hi.legal, hi.once, hi.told⟩

/-- A semaphore is created, given a unit, unlinked and created again: the process that opened the first one
takes the unit of that one. -/
theorem units_conserved_stale :
    let role : Fin 5 → Role := ![.create, .release, .acquire, .destroy, .create]
    ∃ as s t, (system role none).run s as = some t ∧ t.name = some 2 ∧ t.value 1 = 0 ∧
      ∀ o, t.value o + waits o t.history = posts o t.history := by
  intro role
  let as : List (Action (Fin 5)) := [⟨0, true⟩, ⟨1, true⟩, ⟨1, true⟩, ⟨2, true⟩, ⟨3, true⟩, ⟨4, true⟩, ⟨2, true⟩]
  let s : State (Fin 5) := ⟨none, initial none, 1, fun _ => .start, [], []⟩
  have hs : (system role none).init s := rfl
  have hall : ∀ t, (system role none).run s as = some t →
      ∀ o, t.value o + waits o t.history = posts o t.history := by
    intro t ht o
    have hunits := (units_conserved (System.reachable_of_run hs as ht)).1 o
    have hzero : initial none o = 0 := by simp [initial]
    omega
  exact ⟨as, s, _, rfl, rfl, rfl, hall _ rfl⟩

/-! ### The processes that block -/

def Pc.work : Pc → ℕ
  | .start => 5
  | .wait _ | .post _ => 4
  | .print _ => 3
  | .getvalue _ => 2
  | .report _ => 1
  | .done | .failed _ => 0

def State.work [Fintype ι] (s : State ι) : ℕ := ∑ i, (s.pc i).work

section Work

variable [Fintype ι]

theorem work_lt (pc : Pc) (hpc : t.pc = Function.update s.pc i pc) (h : pc.work < (s.pc i).work) :
    t.work < s.work := by
  have hsum := sum_update_add Pc.work s.pc i pc
  unfold State.work
  rw [hpc]
  omega

theorem report_work {line : Line} (h : report line s i ok = some t) : t.work < s.work := by
  unfold report at h
  cases hpc : s.pc i with
  | print o =>
    simp only [hpc, Option.some.injEq] at h
    subst h
    exact work_lt (.getvalue o) rfl (by rw [hpc]; exact Nat.lt_succ_self 2)
  | getvalue o =>
    simp only [hpc] at h
    split_ifs at h <;> cases h
    · exact work_lt (.report _) rfl (by rw [hpc]; exact Nat.lt_succ_self 1)
    · exact work_lt (.failed _) rfl (by rw [hpc]; exact Nat.zero_lt_succ 1)
  | report v =>
    simp only [hpc, Option.some.injEq] at h
    subst h
    exact work_lt .done rfl (by rw [hpc]; exact Nat.zero_lt_one)
  | start | wait | post | done | failed => simp [hpc] at h

theorem semOpen_work {pc : ℕ → Pc} (hpc : s.pc i = .start) (h : ∀ o, (pc o).work = 4) :
    (semOpen s i ok pc).work < s.work := by
  have hstart : (s.pc i).work = 5 := by rw [hpc]; rfl
  have hfailed : (Pc.failed "sem_open()").work < (s.pc i).work := by
    rw [hstart]
    exact Nat.zero_lt_succ 4
  unfold semOpen
  split
  · rename_i o _
    split_ifs
    · exact work_lt (pc o) rfl (by rw [hstart, h]; exact Nat.lt_succ_self 4)
    · exact work_lt _ rfl hfailed
  · exact work_lt _ rfl hfailed

theorem work_step {a : Action ι} (h : (system role left).step s a = some t) : t.work < s.work := by
  simp only [system] at h
  split at h
  · unfold ipcPosixSemCreate at h
    cases hpc : s.pc a.who with
    | start =>
      simp only [hpc] at h
      split_ifs at h <;> cases h <;> exact work_lt .done rfl (by rw [hpc]; exact Nat.zero_lt_succ 4)
    | wait | post | print | getvalue | report | done | failed => simp [hpc] at h
  · unfold ipcPosixSemAcquire at h
    cases hpc : s.pc a.who with
    | start =>
      simp only [hpc, Option.some.injEq] at h
      subst h
      exact semOpen_work hpc fun _ => rfl
    | wait o =>
      simp only [hpc] at h
      split_ifs at h <;> cases h
      · exact work_lt (.failed _) rfl (by rw [hpc]; exact Nat.zero_lt_succ 3)
      · exact work_lt (.print o) rfl (by rw [hpc]; exact Nat.lt_succ_self 3)
    | print | getvalue | report | post | done | failed =>
      simp only [hpc] at h
      exact report_work h
  · unfold ipcPosixSemRelease at h
    cases hpc : s.pc a.who with
    | start =>
      simp only [hpc, Option.some.injEq] at h
      subst h
      exact semOpen_work hpc fun _ => rfl
    | post o =>
      simp only [hpc] at h
      split_ifs at h <;> cases h
      · exact work_lt (.failed _) rfl (by rw [hpc]; exact Nat.zero_lt_succ 3)
      · exact work_lt (.print o) rfl (by rw [hpc]; exact Nat.lt_succ_self 3)
    | print | getvalue | report | wait | done | failed =>
      simp only [hpc] at h
      exact report_work h
  · unfold ipcPosixSemDestroy at h
    cases hpc : s.pc a.who with
    | start =>
      simp only [hpc] at h
      split at h
      · split_ifs at h <;> cases h
        · exact work_lt .done rfl (by rw [hpc]; exact Nat.zero_lt_succ 4)
        · exact work_lt (.failed _) rfl (by rw [hpc]; exact Nat.zero_lt_succ 4)
      · cases h
        exact work_lt (.failed _) rfl (by rw [hpc]; exact Nat.zero_lt_succ 4)
    | wait | post | print | getvalue | report | done | failed => simp [hpc] at h

end Work

/-- The process has ended. -/
def Pc.ended : Pc → Bool
  | .done | .failed _ => true
  | _ => false

/-- Only programs that acquire or release take or give units. -/
theorem role_of_mem (hi : Inv role left s) (h : i ∈ movers s.history) :
    role i = .acquire ∨ role i = .release := by
  obtain ⟨e, he, hmover⟩ := List.mem_filterMap.mp h
  obtain ⟨pre, post, hsplit⟩ := List.append_of_mem he
  have hlegal := hi.legal pre e post hsplit
  cases e with
  | posted j o =>
    obtain rfl : j = i := Option.some.inj hmover
    exact .inr hlegal.1
  | waited j o =>
    obtain rfl : j = i := Option.some.inj hmover
    exact .inl hlegal.1
  | created | unlinked | opened | read => cases hmover

/-- A process whose next call cannot work has ended, or waits for a semaphore without a unit. -/
theorem blocked_step (hi : Inv role left s) (h : (system role left).step s ⟨i, true⟩ = none) :
    (s.pc i).ended = true ∨ ∃ o, s.pc i = .wait o ∧ s.value o = 0 := by
  have htold := hi.told i
  unfold Told at htold
  simp only [system] at h
  cases hpc : s.pc i with
  | done | failed => exact .inl rfl
  | start =>
    cases hrole : role i <;> simp only [hrole] at h
    · unfold ipcPosixSemCreate at h
      simp only [hpc] at h
      split_ifs at h
    · simp [ipcPosixSemAcquire, hpc] at h
    · simp [ipcPosixSemRelease, hpc] at h
    · unfold ipcPosixSemDestroy at h
      simp only [hpc] at h
      split at h <;> simp at h
  | wait o =>
    rw [hpc] at htold
    simp only [htold.2, ipcPosixSemAcquire, hpc] at h
    right
    refine ⟨o, rfl, ?_⟩
    by_contra hpos
    simp [Nat.pos_of_ne_zero hpos] at h
  | post o =>
    rw [hpc] at htold
    simp [htold.2, ipcPosixSemRelease, hpc] at h
  | print | getvalue | report =>
    rw [hpc] at htold
    rcases role_of_mem hi (by first | exact htold.2 | exact htold.2.1) with hrole | hrole
    · simp [hrole, ipcPosixSemAcquire, report, hpc] at h
    · simp [hrole, ipcPosixSemRelease, report, hpc] at h

/-- A run has at most five calls for each process; and in every state a process whose next call cannot work
has ended, or waits for the semaphore it has opened, from which everything that it was given has been taken. -/
theorem blocked_without_units [Fintype ι] {as : List (Action ι)} (hs : (system role left).init s)
    (h : (system role left).run s as = some t) :
    as.length ≤ 5 * Fintype.card ι ∧
      ∀ i, (system role left).step t ⟨i, true⟩ = none → (t.pc i).ended = true ∨
        ∃ o, t.pc i = .wait o ∧ .opened i o ∈ t.history ∧ t.value o = 0 ∧
          waits o t.history = initial left o + posts o t.history := by
  have hlength := System.length_add_le_of_run (I := fun _ => True) (fun _ _ _ _ _ => trivial)
    (fun _ _ _ _ ht => work_step ht) trivial h
  have hwork : s.work = 5 * Fintype.card ι := by
    have hs : s = _ := hs
    rw [hs]
    simp [State.work, Pc.work, mul_comm]
  refine ⟨by omega, fun i hblocked => ?_⟩
  have hi : Inv role left t := inv_reachable (System.reachable_of_run hs as h)
  rcases blocked_step hi hblocked with hended | ⟨o, hpc, hzero⟩
  · exact .inl hended
  · have hunits := hi.units o
    have hopened := (hi.object i o (by rw [hpc]; rfl)).2
    exact .inr ⟨o, hpc, hopened, hzero, by omega⟩

/-- A process that waits for the semaphore another one has created. -/
theorem blocked_without_units_two :
    let role : Fin 2 → Role := ![.create, .acquire]
    ∃ as s t, (system role none).run s as = some t ∧ t.pc 1 = .wait 1 ∧
      ∀ i, (t.pc i).ended = true ∨ ∃ o, t.pc i = .wait o ∧ .opened i o ∈ t.history ∧ t.value o = 0 ∧
        waits o t.history = initial none o + posts o t.history := by
  intro role
  let as : List (Action (Fin 2)) := [⟨0, true⟩, ⟨1, true⟩]
  let s : State (Fin 2) := ⟨none, initial none, 1, fun _ => .start, [], []⟩
  have hs : (system role none).init s := rfl
  have hall : ∀ t, (system role none).run s as = some t →
      ∀ i, (system role none).step t ⟨i, true⟩ = none → (t.pc i).ended = true ∨
        ∃ o, t.pc i = .wait o ∧ .opened i o ∈ t.history ∧ t.value o = 0 ∧
          waits o t.history = initial none o + posts o t.history :=
    fun t ht => (blocked_without_units hs ht).2
  refine ⟨as, s, _, rfl, rfl, fun i => hall _ rfl i ?_⟩
  match i with
  | 0 => rfl
  | 1 => rfl

end LinuxApi.NamedSemaphore
