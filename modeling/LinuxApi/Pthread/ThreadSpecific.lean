import LinuxApi.Kernel.Heap
import LinuxApi.Pthread.ThreadSafe
import LinuxApi.Transition.Indexed

/-! `thread_func_safe_with_tsd` of `pthread_safe`, with any number of threads. The key is created through
`pthread_once`, each thread allocates its own buffer and stores it under the key, and the destructor of the key
frees it when the thread ends. -/

namespace LinuxApi.ThreadSpecific

open ThreadSafe

/-- `once` -/
inductive Once (ι : Type*) where
  | initial
  | running (i : ι)
  | done
  deriving DecidableEq

/-- Where a thread is; `create` is inside `create_key`, and `destroy` is the end of the thread, where the
destructor runs. -/
inductive Pc where
  | once | create | getspecific | malloc
  | setspecific (tsdBuf : Option ℕ)
  | format (tsdBuf : Option ℕ)
  | print (tsdBuf : ℕ)
  | destroy | exited
  deriving DecidableEq

/-- `message` is the variable that holds the key and `keys` is the number of keys created, `value` what a
thread has stored under a key, and `dead` says that the process has ended in `errExitEN` or by a `NULL`
pointer. -/
structure State (ι : Type*) where
  once : Once ι
  message : ℕ
  keys : ℕ
  value : ι → ℕ → Option ℕ
  heap : Heap
  contents : ℕ → Buffer bufferLen
  pc : ι → Pc
  stdout : List (ι × List UInt8)
  dead : Bool

/-- A step of a thread; `ok` is the result of `pthread_key_create`, `malloc` or `pthread_setspecific`. -/
structure Action (ι : Type*) where
  thread : ι
  ok : Bool
  deriving DecidableEq

variable {ι : Type*} [DecidableEq ι]

namespace State

def goto (s : State ι) (i : ι) (pc : Pc) : State ι := { s with pc := Function.update s.pc i pc }

/-- `pthread_once(&once, create_key)`, which waits while another thread is inside `create_key`. -/
def pthreadOnce (s : State ι) (i : ι) : Option (State ι) :=
  match s.once with
  | .initial => some { s.goto i .create with once := .running i }
  | .running _ => none
  | .done => some (s.goto i .getspecific)

/-- `create_key` -/
def createKey (s : State ι) (i : ι) (ok : Bool) : State ι :=
  if ok then { s.goto i .getspecific with message := s.keys, keys := s.keys + 1, once := .done }
  else { s with dead := true }

/-- `pthread_getspecific(message)` and the test of its result. -/
def getspecific (s : State ι) (i : ι) : State ι :=
  match s.value i s.message with
  | none => s.goto i .malloc
  | some b => s.goto i (.format (some b))

/-- `malloc(BUFFER_LEN)` -/
def malloc (s : State ι) (i : ι) (ok : Bool) : State ι :=
  { s.goto i (.setspecific (s.heap.malloc ok).1) with heap := (s.heap.malloc ok).2 }

/-- `pthread_setspecific(message, tsd_buf)`, which fails without a key. -/
def setspecific (s : State ι) (i : ι) (tsdBuf : Option ℕ) (ok : Bool) : State ι :=
  if ok ∧ s.message < s.keys then
    { s.goto i (.format tsdBuf) with
      value := Function.update s.value i (Function.update (s.value i) s.message tsdBuf) }
  else { s with dead := true }

/-- `snprintf(tsd_buf, 256, ..)` -/
def format (s : State ι) (i : ι) (str : List UInt8) : Option ℕ → State ι
  | none => { s with dead := true }
  | some b => { s.goto i (.print b) with
      contents := Function.update s.contents b (ThreadSafe.format (s.contents b) str) }

/-- `printf`, and the return of the thread function. -/
def print (s : State ι) (i : ι) (tid : UInt32) (b : ℕ) : State ι :=
  { s.goto i .destroy with stdout := s.stdout ++ [(i, line tid (cText (s.contents b).bytes))] }

/-- The value under the key is reset, and `destructor` frees it. -/
def destroy (s : State ι) (i : ι) : State ι :=
  { s.goto i .exited with
    value := Function.update s.value i (Function.update (s.value i) s.message none)
    heap := s.heap.free (s.value i s.message) }

end State

/-- The next call of a thread. -/
def step (tid : ι → UInt32) (arg : ι → List UInt8) (s : State ι) (a : Action ι) : Option (State ι) :=
  if s.dead then none
  else
    match s.pc a.thread with
    | .once => s.pthreadOnce a.thread
    | .create => some (s.createKey a.thread a.ok)
    | .getspecific => some (s.getspecific a.thread)
    | .malloc => some (s.malloc a.thread a.ok)
    | .setspecific tsdBuf => some (s.setspecific a.thread tsdBuf a.ok)
    | .format tsdBuf => some (s.format a.thread (arg a.thread) tsdBuf)
    | .print b => some (s.print a.thread (tid a.thread) b)
    | .destroy => some (s.destroy a.thread)
    | .exited => none

/-- `message` is a static variable, so it is zero at first. -/
def system (tid : ι → UInt32) (arg : ι → List UInt8) : System (State ι) (Action ι) where
  init s := s = ⟨.initial, 0, 0, fun _ _ => none, .empty, s.contents, fun _ => .once, [], false⟩
  step := step tid arg

/-! ### What holds while the threads run -/

/-- The block a thread holds: the one it is about to store, or the one it has stored. -/
def held (s : State ι) (i : ι) : Option ℕ :=
  match s.pc i with
  | .setspecific tsdBuf => tsdBuf
  | _ => s.value i 0

/-- The key is created by one thread, before which no thread gets past `pthread_once`. -/
def Created (s : State ι) : Prop :=
  match s.once with
  | .initial => s.keys = 0 ∧ ∀ i, s.pc i = .once
  | .running i => s.keys = 0 ∧ s.pc i = .create ∧ ∀ j, j ≠ i → s.pc j = .once
  | .done => s.keys = 1 ∧ ∀ i, s.pc i ≠ .create

/-- What a thread has stored, and what is in its buffer when it prints it. -/
def Local (arg : ι → List UInt8) (s : State ι) (i : ι) : Prop :=
  (∀ k, k ≠ 0 → s.value i k = none) ∧
    match s.pc i with
    | .format tsdBuf => s.value i 0 = tsdBuf
    | .print b => s.value i 0 = some b ∧ cText (s.contents b).bytes = ThreadSafe.message (arg i)
    | .destroy => True
    | _ => s.value i 0 = none

/-- The thread is behind its `printf`. -/
def Pc.printed : Pc → Bool
  | .destroy | .exited => true
  | _ => false

structure Inv (tid : ι → UInt32) (arg : ι → List UInt8) (s : State ι) : Prop where
  message : s.message = 0
  created : Created s
  owned : s.heap.OwnedBy (held s)
  thread : ∀ i, Local arg s i
  printed : ∀ i, i ∈ s.stdout.map Prod.fst ↔ (s.pc i).printed = true
  once : (s.stdout.map Prod.fst).Nodup
  own : ∀ e ∈ s.stdout, e.2 = line (tid e.1) (ThreadSafe.message (arg e.1))

variable {tid : ι → UInt32} {arg : ι → List UInt8} {s t : State ι} {i : ι}

/-- A step of one thread leaves the others where they are. -/
structure Moves (i : ι) (s t : State ι) : Prop where
  message : t.message = s.message
  pc : ∀ j, j ≠ i → t.pc j = s.pc j
  value : ∀ j, j ≠ i → t.value j = s.value j

theorem Moves.held (hm : Moves i s t) : held t = Function.update (held s) i (held t i) := by
  funext j
  by_cases hj : j = i
  · rw [hj, Function.update_self]
  · rw [Function.update_of_ne hj, ThreadSpecific.held, ThreadSpecific.held, hm.pc j hj, hm.value j hj]

/-- The steps that neither write to a buffer nor print. -/
theorem Inv.move (hi : Inv tid arg s) (hm : Moves i s t) (hcontents : t.contents = s.contents)
    (hstdout : t.stdout = s.stdout) (hcreated : Created t)
    (howned : t.heap.OwnedBy (Function.update (held s) i (held t i))) (hlocal : Local arg t i)
    (hprinted : (t.pc i).printed = (s.pc i).printed) : Inv tid arg t := by
  refine ⟨hm.message.trans hi.message, hcreated, hm.held ▸ howned, fun j => ?_, fun j => ?_, ?_, ?_⟩
  · by_cases hj : j = i
    · rw [hj]
      exact hlocal
    · unfold Local
      rw [hm.pc j hj, hm.value j hj, hcontents]
      exact hi.thread j
  · rw [hstdout, hi.printed j]
    by_cases hj : j = i
    · rw [hj, hprinted]
    · rw [hm.pc j hj]
  · rw [hstdout]
    exact hi.once
  · rw [hstdout]
    exact hi.own

omit [DecidableEq ι] in
/-- A process that has ended keeps everything. -/
theorem Inv.dead (hi : Inv tid arg s) : Inv tid arg { s with dead := true } :=
  ⟨hi.message, hi.created, hi.owned, hi.thread, hi.printed, hi.once, hi.own⟩

@[simp] theorem goto_self (s : State ι) (i : ι) (pc : Pc) : (s.goto i pc).pc i = pc :=
  Function.update_self ..

theorem goto_of_ne (s : State ι) (pc : Pc) {j : ι} (h : j ≠ i) : (s.goto i pc).pc j = s.pc j :=
  Function.update_of_ne h ..

/-- Only the place of the thread changes. -/
theorem moves_goto (s : State ι) (i : ι) (pc : Pc) : Moves i s (s.goto i pc) :=
  ⟨rfl, fun _ hj => goto_of_ne s pc hj, fun _ _ => rfl⟩

/-- Behind the creation of the key it stays created. -/
theorem created_goto (hc : Created s) (hdone : s.once = .done) (i : ι) (pc : Pc) (hpc : pc ≠ .create) :
    Created (s.goto i pc) := by
  have hdone' : (s.goto i pc).once = .done := hdone
  unfold Created at hc ⊢
  rw [hdone] at hc
  rw [hdone']
  refine ⟨hc.1, fun j => ?_⟩
  by_cases hj : j = i
  · rw [hj, goto_self]
    exact hpc
  · rw [goto_of_ne s pc hj]
    exact hc.2 j

/-- Only behind the creation of the key is a thread past `pthread_once`. -/
theorem Inv.done (hi : Inv tid arg s) (h : s.pc i ≠ .once) (hcreate : s.pc i ≠ .create) :
    s.once = .done := by
  have hc := hi.created
  unfold Created at hc
  cases ho : s.once with
  | initial =>
    rw [ho] at hc
    exact absurd (hc.2 i) h
  | running j =>
    rw [ho] at hc
    by_cases hij : i = j
    · rw [hij] at hcreate
      exact absurd hc.2.1 hcreate
    · exact absurd (hc.2.2 i hij) h
  | done => rfl

theorem Inv.once_step (hi : Inv tid arg s) (hpc : s.pc i = .once) (h : s.pthreadOnce i = some t) :
    Inv tid arg t := by
  have hc := hi.created
  have hlocal := hi.thread i
  have hheld : held s i = s.value i 0 := by rw [held, hpc]
  unfold Created at hc
  unfold Local at hlocal
  rw [hpc] at hlocal
  -- neither place holds a block
  have hnew : ∀ pc, (pc = .create ∨ pc = .getspecific) →
      Local arg (s.goto i pc) i ∧ held (s.goto i pc) i = held s i := by
    rintro pc (rfl | rfl)
    all_goals
      unfold Local
      rw [held, goto_self, hheld]
      exact ⟨hlocal, rfl⟩
  have howned : ∀ pc, (pc = .create ∨ pc = .getspecific) →
      s.heap.OwnedBy (Function.update (held s) i (held (s.goto i pc) i)) := by
    intro pc hp
    rw [(hnew pc hp).2, Function.update_eq_self]
    exact hi.owned
  unfold State.pthreadOnce at h
  cases ho : s.once with
  | initial =>
    simp only [ho, Option.some.injEq] at h hc
    subst h
    have hm := moves_goto s i .create
    refine hi.move ⟨hm.message, hm.pc, hm.value⟩ rfl rfl ?_ (howned _ (.inl rfl)) (hnew _ (.inl rfl)).1 ?_
    · exact ⟨hc.1, goto_self .., fun j hj => (goto_of_ne s .create hj).trans (hc.2 j)⟩
    · show ((s.goto i .create).pc i).printed = _
      rw [goto_self, hpc]
      rfl
  | running j => simp [ho] at h
  | done =>
    simp only [ho, Option.some.injEq] at h
    subst h
    refine hi.move (moves_goto s i .getspecific) rfl rfl ?_ (howned _ (.inr rfl)) (hnew _ (.inr rfl)).1 ?_
    · exact created_goto hi.created ho i _ Pc.noConfusion
    · rw [goto_self, hpc]
      rfl

theorem Inv.create_step (hi : Inv tid arg s) (hpc : s.pc i = .create) (ok : Bool) :
    Inv tid arg (s.createKey i ok) := by
  unfold State.createKey
  split_ifs
  · have hc := hi.created
    have hlocal := hi.thread i
    unfold Created at hc
    unfold Local at hlocal
    rw [hpc] at hlocal
    cases ho : s.once with
    | initial =>
      simp only [ho] at hc
      simp [hc.2 i] at hpc
    | done =>
      simp only [ho] at hc
      exact absurd hpc (hc.2 i)
    | running j =>
      simp only [ho] at hc
      obtain ⟨hkeys, -, hothers⟩ := hc
      have hij : i = j := by
        by_contra hne
        rw [hothers i hne] at hpc
        cases hpc
      have hm := moves_goto s i .getspecific
      refine hi.move ⟨?_, hm.pc, hm.value⟩ rfl rfl ?_ ?_ ?_ ?_
      · exact hkeys.trans hi.message.symm
      · refine ⟨congrArg (· + 1) hkeys, fun k => ?_⟩
        show (s.goto i .getspecific).pc k ≠ .create
        by_cases hk : k = i
        · rw [hk, goto_self]
          exact Pc.noConfusion
        · rw [goto_of_ne s _ hk, hothers k (hij ▸ hk)]
          exact Pc.noConfusion
      · have hheld : held { s.goto i .getspecific with
            message := s.keys, keys := s.keys + 1, once := .done } i = held s i := by
          show (match (s.goto i .getspecific).pc i with
            | .setspecific tsdBuf => tsdBuf
            | _ => s.value i 0) = held s i
          rw [goto_self, held, hpc]
        rw [hheld, Function.update_eq_self]
        exact hi.owned
      · show (∀ k, k ≠ 0 → s.value i k = none) ∧ match (s.goto i .getspecific).pc i with
          | .format tsdBuf => s.value i 0 = tsdBuf
          | .print b => s.value i 0 = some b ∧ cText (s.contents b).bytes = ThreadSafe.message (arg i)
          | .destroy => True
          | _ => s.value i 0 = none
        rw [goto_self]
        exact hlocal
      · show ((s.goto i .getspecific).pc i).printed = _
        rw [goto_self, hpc]
        rfl
  · exact hi.dead

theorem Inv.getspecific_step (hi : Inv tid arg s) (hpc : s.pc i = .getspecific) :
    Inv tid arg (s.getspecific i) := by
  have hdone := hi.done (i := i) (by simp [hpc]) (by simp [hpc])
  have hlocal := hi.thread i
  unfold Local at hlocal
  rw [hpc] at hlocal
  unfold State.getspecific
  rw [hi.message, hlocal.2]
  refine hi.move (moves_goto s i .malloc) rfl rfl (created_goto hi.created hdone i _ Pc.noConfusion) ?_ ?_ ?_
  · have hheld : held (s.goto i .malloc) i = held s i := by
      rw [held, held, goto_self, hpc]
      rfl
    rw [hheld, Function.update_eq_self]
    exact hi.owned
  · unfold Local
    rw [goto_self]
    exact hlocal
  · rw [goto_self, hpc]
    rfl

theorem Inv.malloc_step (hi : Inv tid arg s) (hpc : s.pc i = .malloc) (ok : Bool) :
    Inv tid arg (s.malloc i ok) := by
  have hdone := hi.done (i := i) (by simp [hpc]) (by simp [hpc])
  have hlocal := hi.thread i
  unfold Local at hlocal
  rw [hpc] at hlocal
  set pc : Pc := .setspecific (s.heap.malloc ok).1 with hp
  have hm := moves_goto s i pc
  have hcreated := created_goto hi.created hdone i pc Pc.noConfusion
  refine hi.move ⟨hm.message, hm.pc, hm.value⟩ rfl rfl hcreated ?_ ?_ ?_
  · have hheld : held (s.malloc i ok) i = (s.heap.malloc ok).1 := by
      rw [held, show (s.malloc i ok).pc i = pc from goto_self s i pc]
    rw [hheld]
    exact hi.owned.malloc (by rw [held, hpc]; exact hlocal.2) ok
  · unfold Local
    rw [show (s.malloc i ok).pc i = pc from goto_self s i pc]
    exact hlocal
  · rw [show (s.malloc i ok).pc i = pc from goto_self s i pc, hpc]
    rfl

theorem Inv.setspecific_step (hi : Inv tid arg s) {tsdBuf : Option ℕ} (hpc : s.pc i = .setspecific tsdBuf)
    (ok : Bool) : Inv tid arg (s.setspecific i tsdBuf ok) := by
  have hdone := hi.done (i := i) (by simp [hpc]) (by simp [hpc])
  have hlocal := hi.thread i
  unfold Local at hlocal
  rw [hpc] at hlocal
  unfold State.setspecific
  split_ifs
  · set t : State ι := { s.goto i (.format tsdBuf) with
      value := Function.update s.value i (Function.update (s.value i) s.message tsdBuf) } with ht
    have htpc : t.pc i = .format tsdBuf := goto_self s i _
    have hvalue : t.value i = Function.update (s.value i) 0 tsdBuf := by
      show Function.update s.value i _ i = _
      rw [Function.update_self, hi.message]
    have hm := moves_goto s i (.format tsdBuf)
    have hcreated := created_goto hi.created hdone i (.format tsdBuf) Pc.noConfusion
    refine hi.move ⟨hm.message, hm.pc, fun j hj => Function.update_of_ne hj ..⟩ rfl rfl hcreated ?_ ?_ ?_
    · have hheld : held t i = held s i := by
        rw [held, htpc, hvalue, held, hpc]
        exact Function.update_self ..
      rw [hheld, Function.update_eq_self]
      exact hi.owned
    · unfold Local
      rw [htpc, hvalue]
      refine ⟨fun k hk => ?_, Function.update_self ..⟩
      rw [Function.update_of_ne hk]
      exact hlocal.1 k hk
    · rw [htpc, hpc]
      rfl
  · exact hi.dead

/-- A thread that ends frees its own buffer. -/
theorem Inv.destroy_step (hi : Inv tid arg s) (hpc : s.pc i = .destroy) : Inv tid arg (s.destroy i) := by
  have hdone := hi.done (i := i) (by simp [hpc]) (by simp [hpc])
  have hlocal := hi.thread i
  set t : State ι := s.destroy i with ht
  have htpc : t.pc i = .exited := goto_self s i _
  have hvalue : t.value i = Function.update (s.value i) 0 none := by
    show Function.update s.value i _ i = _
    rw [Function.update_self, hi.message]
  have hm := moves_goto s i .exited
  have hcreated := created_goto hi.created hdone i .exited Pc.noConfusion
  refine hi.move ⟨hm.message, hm.pc, fun j hj => Function.update_of_ne hj ..⟩ rfl rfl hcreated ?_ ?_ ?_
  · have hheld : held t i = none := by
      rw [held, htpc, hvalue]
      exact Function.update_self ..
    have hold : s.value i s.message = held s i := by rw [held, hpc, hi.message]
    rw [hheld]
    show (s.heap.free (s.value i s.message)).OwnedBy _
    rw [hold]
    exact hi.owned.free i
  · unfold Local
    rw [htpc, hvalue]
    refine ⟨fun k hk => ?_, Function.update_self ..⟩
    rw [Function.update_of_ne hk]
    exact hlocal.1 k hk
  · rw [htpc, hpc]
    rfl

/-- The buffer of the thread is not that of another one. -/
theorem Inv.format_step (hi : Inv tid arg s) {tsdBuf : Option ℕ} (hpc : s.pc i = .format tsdBuf) :
    Inv tid arg (s.format i (arg i) tsdBuf) := by
  have hdone := hi.done (i := i) (by simp [hpc]) (by simp [hpc])
  have hlocal := hi.thread i
  unfold Local at hlocal
  rw [hpc] at hlocal
  cases tsdBuf with
  | none => exact hi.dead
  | some b =>
    set t : State ι := s.format i (arg i) (some b) with ht
    have htpc : t.pc i = .print b := goto_self s i _
    have hother : ∀ j, j ≠ i → t.pc j = s.pc j := fun j hj => goto_of_ne s _ hj
    have hheld : held s i = some b := by rw [held, hpc]; exact hlocal.2
    have howned : held t = held s := by
      funext j
      by_cases hj : j = i
      · rw [hj, hheld, held, htpc]
        exact hlocal.2
      · rw [held, held, hother j hj]
        rfl
    have hcreated := created_goto hi.created hdone i (.print b) Pc.noConfusion
    refine ⟨hi.message, hcreated, howned ▸ hi.owned, fun j => ?_, fun j => ?_, hi.once, hi.own⟩
    · unfold Local
      by_cases hj : j = i
      · rw [hj, htpc]
        refine ⟨hlocal.1, hlocal.2, ?_⟩
        show cText (Function.update s.contents b _ b).bytes = _
        rw [Function.update_self, cText_format]
      · rw [hother j hj]
        have hlocalj := hi.thread j
        unfold Local at hlocalj
        refine ⟨hlocalj.1, ?_⟩
        cases hpcj : s.pc j with
        | print d =>
          rw [hpcj] at hlocalj
          have hdb : d ≠ b := by
            rintro rfl
            exact hj (hi.owned.alone j i d (by rw [held, hpcj]; exact hlocalj.2.1) hheld)
          refine ⟨hlocalj.2.1, ?_⟩
          show cText (Function.update s.contents b _ d).bytes = _
          rw [Function.update_of_ne hdb]
          exact hlocalj.2.2
        | _ =>
          rw [hpcj] at hlocalj
          exact hlocalj.2
    · show j ∈ s.stdout.map Prod.fst ↔ _
      rw [hi.printed j]
      by_cases hj : j = i
      · rw [hj, htpc, hpc]
        rfl
      · rw [hother j hj]

theorem Inv.print_step (hi : Inv tid arg s) {b : ℕ} (hpc : s.pc i = .print b) :
    Inv tid arg (s.print i (tid i) b) := by
  have hdone := hi.done (i := i) (by simp [hpc]) (by simp [hpc])
  have hlocal := hi.thread i
  unfold Local at hlocal
  rw [hpc] at hlocal
  set t : State ι := s.print i (tid i) b with ht
  have htpc : t.pc i = .destroy := goto_self s i _
  have hother : ∀ j, j ≠ i → t.pc j = s.pc j := fun j hj => goto_of_ne s _ hj
  have hstdout : t.stdout = s.stdout ++ [(i, line (tid i) (ThreadSafe.message (arg i)))] := by
    show s.stdout ++ [(i, line (tid i) (cText (s.contents b).bytes))] = _
    rw [hlocal.2.2]
  have howned : held t = held s := by
    funext j
    by_cases hj : j = i
    · rw [hj, held, htpc, held, hpc]
      rfl
    · rw [held, held, hother j hj]
      rfl
  have hfresh : i ∉ s.stdout.map Prod.fst := by
    rw [hi.printed i, hpc]
    exact Bool.noConfusion
  have hcreated := created_goto hi.created hdone i .destroy Pc.noConfusion
  refine ⟨hi.message, hcreated, howned ▸ hi.owned, fun j => ?_, fun j => ?_, ?_, fun e he => ?_⟩
  · unfold Local
    by_cases hj : j = i
    · rw [hj, htpc]
      exact ⟨hlocal.1, trivial⟩
    · rw [hother j hj]
      exact hi.thread j
  · rw [hstdout, List.map_append, List.map_singleton, List.mem_append, List.mem_singleton, hi.printed j]
    by_cases hj : j = i
    · rw [hj, htpc]
      simp [Pc.printed]
    · rw [hother j hj]
      simp [hj]
  · rw [hstdout, List.map_append, List.map_singleton, ← List.concat_eq_append]
    exact hi.once.concat hfresh
  · rw [hstdout] at he
    rcases List.mem_append.mp he with he | he
    · exact hi.own e he
    · rw [List.mem_singleton.mp he]

theorem Inv.step (hi : Inv tid arg s) {a : Action ι} (h : (system tid arg).step s a = some t) :
    Inv tid arg t := by
  simp only [system, ThreadSpecific.step] at h
  split_ifs at h
  split at h
  case h_1 hpc => exact hi.once_step hpc h
  case h_2 hpc => cases h; exact hi.create_step hpc a.ok
  case h_3 hpc => cases h; exact hi.getspecific_step hpc
  case h_4 hpc => cases h; exact hi.malloc_step hpc a.ok
  case h_5 hpc => cases h; exact hi.setspecific_step hpc a.ok
  case h_6 hpc => cases h; exact hi.format_step hpc
  case h_7 hpc => cases h; exact hi.print_step hpc
  case h_8 hpc => cases h; exact hi.destroy_step hpc
  case h_9 => cases h

theorem inv_reachable (h : (system tid arg).Reachable s) : Inv tid arg s := by
  refine h.invariant (I := Inv tid arg) (fun s hs => ?_) fun s a t hi ht => hi.step ht
  have hs : s = _ := hs
  rw [hs]
  refine ⟨rfl, ⟨rfl, fun _ => rfl⟩, Heap.ownedBy_empty, fun i => ⟨fun _ _ => rfl, rfl⟩, fun i => ?_,
    List.nodup_nil, fun e he => absurd he List.not_mem_nil⟩
  simp [Pc.printed]

/-- In every interleaving of any number of threads, whatever the calls return: at most one key is created;
what is printed are the threads' own messages, at most one for each thread; nothing is freed that is not
allocated; and the blocks on the heap are those that running threads hold, one each, so that none is left
when all the threads have ended. -/
theorem buffers_are_own (h : (system tid arg).Reachable s) :
    s.keys ≤ 1 ∧ (∀ e ∈ s.stdout, e.2 = line (tid e.1) (ThreadSafe.message (arg e.1))) ∧
      (s.stdout.map Prod.fst).Nodup ∧ s.heap.faults = 0 ∧
      (∀ b ∈ s.heap.live, ∃ i, s.pc i ≠ .exited ∧ held s i = some b ∧ ∀ j, held s j = some b → j = i) ∧
      ((∀ i, s.pc i = .exited) → s.heap.live = ∅ ∧ ∀ i, i ∈ s.stdout.map Prod.fst) := by
  have hi := inv_reachable h
  have hexited : ∀ i, s.pc i = .exited → held s i = none := by
    intro i hpc
    have hlocal := hi.thread i
    unfold Local at hlocal
    rw [hpc] at hlocal
    rw [held, hpc]
    exact hlocal.2
  refine ⟨?_, hi.own, hi.once, hi.owned.sound, fun b hb => ?_, fun hall => ⟨?_, fun i => ?_⟩⟩
  · have hc := hi.created
    unfold Created at hc
    cases ho : s.once <;> simp only [ho] at hc <;> omega
  · obtain ⟨i, hheld⟩ := (hi.owned.live b).mp hb
    refine ⟨i, fun hpc => ?_, hheld, fun j hj => hi.owned.alone j i b hj hheld⟩
    rw [hexited i hpc] at hheld
    cases hheld
  · exact hi.owned.live_eq_empty fun i => hexited i (hall i)
  · rw [hi.printed i, hall i]
    rfl

/-! ### The end of the threads -/

/-- The calls a thread has left. -/
def Pc.work : Pc → ℕ
  | .once => 8
  | .create => 7
  | .getspecific => 6
  | .malloc => 5
  | .setspecific _ => 4
  | .format _ => 3
  | .print _ => 2
  | .destroy => 1
  | .exited => 0

def State.work [Fintype ι] (s : State ι) : ℕ := (∑ i, (s.pc i).work) + if s.dead then 0 else 1

section Work

variable [Fintype ι]

/-- The thread has less to do, or the process ends. -/
theorem work_lt (pc : Pc) (hd : s.dead = false) (hwork : pc.work < (s.pc i).work)
    (ht : t.pc = Function.update s.pc i pc) : t.work < s.work := by
  have hsum := sum_update_add Pc.work s.pc i pc
  have hone : (if t.dead then 0 else 1) ≤ 1 := by split_ifs <;> omega
  unfold State.work
  simp only [ht, hd, Bool.false_eq_true, if_false]
  omega

omit [DecidableEq ι] in
theorem work_dead (hd : s.dead = false) : State.work { s with dead := true } < s.work := by
  unfold State.work
  rw [hd]
  exact Nat.lt_succ_self _

theorem work_step {a : Action ι} (h : (system tid arg).step s a = some t) : t.work < s.work := by
  simp only [system, ThreadSpecific.step] at h
  split_ifs at h with hd
  have hd := Bool.not_eq_true _ ▸ hd
  split at h
  case h_1 hpc =>
    unfold State.pthreadOnce at h
    split at h <;> cases h
    · exact work_lt .create hd (by rw [hpc]; decide) rfl
    · exact work_lt .getspecific hd (by rw [hpc]; decide) rfl
  case h_2 hpc =>
    cases h
    unfold State.createKey
    split_ifs
    · exact work_lt .getspecific hd (by rw [hpc]; decide) rfl
    · exact work_dead hd
  case h_3 hpc =>
    cases h
    unfold State.getspecific
    split
    · exact work_lt .malloc hd (by rw [hpc]; decide) rfl
    · rename_i b _
      exact work_lt (.format (some b)) hd (by rw [hpc]; exact Nat.lt_of_sub_eq_succ rfl) rfl
  case h_4 hpc =>
    cases h
    exact work_lt (.setspecific _) hd (by rw [hpc]; exact Nat.lt_of_sub_eq_succ rfl) rfl
  case h_5 tsdBuf hpc =>
    cases h
    unfold State.setspecific
    split_ifs
    · exact work_lt (.format tsdBuf) hd (by rw [hpc]; exact Nat.lt_of_sub_eq_succ rfl) rfl
    · exact work_dead hd
  case h_6 tsdBuf hpc =>
    cases h
    cases tsdBuf with
    | none => exact work_dead hd
    | some b => exact work_lt (.print b) hd (by rw [hpc]; exact Nat.lt_of_sub_eq_succ rfl) rfl
  case h_7 b hpc =>
    cases h
    exact work_lt .destroy hd (by rw [hpc]; exact Nat.lt_of_sub_eq_succ rfl) rfl
  case h_8 hpc =>
    cases h
    exact work_lt .exited hd (by rw [hpc]; decide) rfl
  case h_9 => cases h

end Work

/-- A thread waits in `pthread_once` only for one that is inside `create_key`. -/
theorem stuck_exited (hi : Inv tid arg s) (hs : (system tid arg).Stuck s) (hd : s.dead = false) (i : ι) :
    s.pc i = .exited := by
  have hstep : ∀ i, (system tid arg).step s ⟨i, true⟩ = none := fun i => hs ⟨i, true⟩
  simp only [system, ThreadSpecific.step, hd, Bool.false_eq_true, if_false] at hstep
  cases hpc : s.pc i with
  | exited => rfl
  | once =>
    have hnone := hstep i
    simp only [hpc, State.pthreadOnce] at hnone
    cases ho : s.once with
    | initial => simp [ho] at hnone
    | done => simp [ho] at hnone
    | running j =>
      have hc := hi.created
      simp only [Created, ho] at hc
      have hj := hstep j
      simp [hc.2.1] at hj
  | _ =>
    have hnone := hstep i
    simp [hpc] at hnone

/-- No thread waits for ever: a run has at most eight calls for each thread and one more, and where it stops all
the threads have ended or the process has. -/
theorem threads_end [Fintype ι] {as : List (Action ι)} (hs : (system tid arg).init s)
    (h : (system tid arg).run s as = some t) :
    as.length ≤ 8 * Fintype.card ι + 1 ∧
      ((system tid arg).Stuck t → t.dead = true ∨ ∀ i, t.pc i = .exited) := by
  have hlength := System.length_add_le_of_run (I := fun _ => True) (fun _ _ _ _ _ => trivial)
    (fun _ _ _ _ ht => work_step ht) trivial h
  have hwork : s.work = 8 * Fintype.card ι + 1 := by
    have hs : s = _ := hs
    rw [hs]
    simp [State.work, Pc.work, mul_comm]
  refine ⟨by omega, fun hstuck => ?_⟩
  cases hd : t.dead with
  | true => exact .inl rfl
  | false => exact .inr (stuck_exited (inv_reachable (System.reachable_of_run hs as h)) hstuck hd)

/-- Two threads, the second of which waits for the first to create the key. -/
theorem buffers_are_own_two : ∃ s : State Bool,
    (system (fun i => if i then 1 else 2) fun i => if i then ascii "a" else ascii "b").Reachable s ∧
    s.stdout.length = 2 ∧ s.heap.live = ∅ ∧ s.keys ≤ 1 := by
  let tid : Bool → UInt32 := fun i => if i then 1 else 2
  let arg : Bool → List UInt8 := fun i => if i then ascii "a" else ascii "b"
  let start : State Bool := ⟨.initial, 0, 0, fun _ _ => none, .empty, fun _ => .zero _, fun _ => .once, [], false⟩
  have h := System.reachable_of_isSome (S := system tid arg) (s := start) rfl
    [⟨true, true⟩, ⟨true, true⟩, ⟨false, true⟩, ⟨true, true⟩, ⟨false, true⟩, ⟨true, true⟩, ⟨false, true⟩,
      ⟨true, true⟩, ⟨false, true⟩, ⟨true, true⟩, ⟨false, true⟩, ⟨false, true⟩, ⟨true, true⟩, ⟨false, true⟩,
      ⟨true, true⟩] rfl
  obtain ⟨hkeys, -, -, -, -, hend⟩ := buffers_are_own h
  exact ⟨_, h, rfl, (hend fun i => by cases i <;> rfl).1, hkeys⟩

/-- The process ends when the key cannot be created, while the other thread has not begun. -/
theorem threads_end_failed : ∃ (as : List (Action Bool)) (s t : State Bool),
    (system (fun _ => 1) fun _ => ascii "a").run s as = some t ∧ as.length ≤ 17 ∧
      (t.dead = true ∨ ∀ i, t.pc i = .exited) := by
  let start : State Bool := ⟨.initial, 0, 0, fun _ _ => none, .empty, fun _ => .zero _, fun _ => .once, [], false⟩
  let as : List (Action Bool) := [⟨true, true⟩, ⟨true, false⟩]
  have hs : (system (fun _ => 1) fun _ => ascii "a").init start := rfl
  have hall : ∀ t, (system (fun _ => 1) fun _ => ascii "a").run start as = some t →
      (system (fun _ => 1) fun _ => ascii "a").Stuck t →
        as.length ≤ 17 ∧ (t.dead = true ∨ ∀ i, t.pc i = .exited) :=
    fun t ht hstuck => ⟨(threads_end hs ht).1, (threads_end hs ht).2 hstuck⟩
  exact ⟨as, start, _, rfl, hall _ rfl fun _ => rfl⟩

end LinuxApi.ThreadSpecific
