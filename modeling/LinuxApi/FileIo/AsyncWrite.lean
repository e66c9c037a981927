import LinuxApi.Transition.System
import Mathlib.Data.Int.Notation

/-! `fileio_aio_write` and `thread_func` in `fileio_aio.c`. The control block is on the stack of
`fileio_aio_write`. The completion of the request lets `aio_suspend` return and starts the thread,
and either of the two goes first. `aio_buf` is never set, so that a file that looks at the bytes
completes the request with -1, and only one that discards them with a count. -/

namespace LinuxApi.AsyncWrite

/-- What the calls give: whether `open`, `aio_write` and `aio_suspend` succeed, and the result of
the request. -/
structure Calls where
  openFile : Bool
  aioWrite : Bool
  aioSuspend : Bool
  ret : ℤ

/-- Where `fileio_aio_write` is. -/
inductive MainPc where
  | openFile | aioWrite | aioSuspend | returned
  deriving DecidableEq

/-- The request as `aio_error` sees it. -/
inductive Request where
  | unused | inProgress | completed
  deriving DecidableEq

/-- What `thread_func` reaches through `my_aiocb`. -/
inductive Access where
  | aioError | aioReturn | aioBuf
  deriving DecidableEq

/-- Where `thread_func` is, named after its next access. -/
inductive ThreadPc where
  | unborn | aioError | aioReturn | aioBuf | ended
  deriving DecidableEq

/-- `exited` is the message of an `errexit`, and `accesses` has every access of `thread_func`
with whether `fileio_aio_write` had returned. -/
structure State where
  main : MainPc
  request : Request
  thread : ThreadPc
  exited : Option String
  accesses : List (Access × Bool)
  deriving DecidableEq

/-- A step of `fileio_aio_write`, the completion of the request, and a step of `thread_func`. -/
inductive Action where
  | main | complete | thread

def State.errexit (s : State) (msg : String) : State := { s with exited := some msg }

/-- `errexit` after a call that failed. -/
def State.check (s : State) (ok : Bool) (msg : String) (t : State) : State :=
  if ok then t else s.errexit msg

def mainStep (calls : Calls) (s : State) : Option State :=
  match s.main with
  | .openFile => some (s.check calls.openFile "open" { s with main := .aioWrite })
  | .aioWrite => some (s.check calls.aioWrite "aio_write"
      { s with main := .aioSuspend, request := .inProgress })
  | .aioSuspend =>
    -- it waits for the completion unless it fails
    if calls.aioSuspend ∧ s.request ≠ .completed then none
    else some (s.check calls.aioSuspend "aio_suspend" { s with main := .returned })
  | .returned => none

/-- The thread goes on after an access. -/
def State.access (s : State) (a : Access) (thread : ThreadPc) : State :=
  { s with thread, accesses := s.accesses ++ [(a, decide (s.main = .returned))] }

/-- The `printf` behind the last access has the null pointer for its `%s`. -/
def threadStep (calls : Calls) (s : State) : Option State :=
  match s.thread with
  | .aioError => some (s.access .aioError (if s.request = .inProgress then .ended else .aioReturn))
  | .aioReturn =>
    let t := s.access .aioReturn .aioBuf
    some (t.check (calls.ret ≠ -1) "aio_return" t)
  | .aioBuf => some (s.access .aioBuf .ended)
  | .unborn | .ended => none

/-- The completion starts the thread. -/
def completeStep (s : State) : Option State :=
  if s.request = .inProgress then some { s with request := .completed, thread := .aioError }
  else none

/-- Nothing has been called. -/
def State.start : State := ⟨.openFile, .unused, .unborn, none, []⟩

/-- An `errexit` ends both threads. -/
def system (calls : Calls) : System State Action where
  init s := s = .start
  step s a :=
    if s.exited = none then
      match a with
      | .main => mainStep calls s
      | .complete => completeStep s
      | .thread => threadStep calls s
    else none

/-- Every access of `thread_func` so far came before the return of `fileio_aio_write`. -/
def InTime (s : State) : Prop := ∀ a, (a, true) ∉ s.accesses

/-- The calls that `fileio_aio_write` has still to make succeed, so that it returns. -/
def Calls.succeedFrom (calls : Calls) : MainPc → Bool
  | .openFile => calls.openFile && calls.aioWrite && calls.aioSuspend
  | .aioWrite => calls.aioWrite && calls.aioSuspend
  | .aioSuspend => calls.aioSuspend
  | .returned => true

/-! ### The steps -/

variable {calls : Calls} {s t : State}

theorem State.check_cases (s t : State) (ok : Bool) (msg : String) :
    (ok = true ∧ s.check ok msg t = t) ∨
      (ok = false ∧ s.check ok msg t = s.errexit msg) := by
  cases ok with
  | false => exact .inr ⟨rfl, rfl⟩
  | true => exact .inl ⟨rfl, rfl⟩

/-- What a step of `fileio_aio_write` does: a call fails and the process ends, or the call succeeds. -/
theorem mainStep_cases (h : mainStep calls s = some t) :
    (calls.succeedFrom s.main = false ∧ ∃ msg, t = s.errexit msg) ∨
    (s.main = .openFile ∧ calls.openFile = true ∧ t = { s with main := .aioWrite }) ∨
    (s.main = .aioWrite ∧ calls.aioWrite = true ∧
      t = { s with main := .aioSuspend, request := .inProgress }) ∨
    (s.main = .aioSuspend ∧ calls.aioSuspend = true ∧ s.request = .completed ∧
      t = { s with main := .returned }) := by
  unfold mainStep at h
  cases hpc : s.main with
  | openFile =>
    simp only [hpc, Option.some.injEq] at h
    rcases s.check_cases { s with main := .aioWrite } calls.openFile "open" with ⟨hok, ht⟩ | ⟨hok, ht⟩
    · exact .inr (.inl ⟨rfl, hok, h.symm.trans ht⟩)
    · exact .inl ⟨by simp [Calls.succeedFrom, hok], _, h.symm.trans ht⟩
  | aioWrite =>
    simp only [hpc, Option.some.injEq] at h
    rcases s.check_cases { s with main := .aioSuspend, request := .inProgress } calls.aioWrite
      "aio_write" with ⟨hok, ht⟩ | ⟨hok, ht⟩
    · exact .inr (.inr (.inl ⟨rfl, hok, h.symm.trans ht⟩))
    · exact .inl ⟨by simp [Calls.succeedFrom, hok], _, h.symm.trans ht⟩
  | aioSuspend =>
    simp only [hpc, Option.ite_none_left_eq_some, Option.some.injEq] at h
    obtain ⟨hwaits, h⟩ := h
    rcases s.check_cases { s with main := .returned } calls.aioSuspend "aio_suspend" with
      ⟨hok, ht⟩ | ⟨hok, ht⟩
    · have hcompleted : s.request = .completed := by
        by_contra hne
        exact hwaits ⟨hok, hne⟩
      exact .inr (.inr (.inr ⟨rfl, hok, hcompleted, h.symm.trans ht⟩))
    · exact .inl ⟨hok, _, h.symm.trans ht⟩
  | returned => simp only [hpc] at h; cases h

/-- Every step of the thread is an access. -/
theorem threadStep_spec (h : threadStep calls s = some t) :
    t.main = s.main ∧ t.request = s.request ∧ t.thread ≠ .unborn ∧ s.thread ≠ .ended ∧
      ∃ a, t.accesses = s.accesses ++ [(a, decide (s.main = .returned))] := by
  unfold threadStep at h
  cases hpc : s.thread with
  | aioError =>
    simp only [hpc, Option.some.injEq] at h
    subst h
    refine ⟨rfl, rfl, ?_, nofun, _, rfl⟩
    show (if s.request = .inProgress then ThreadPc.ended else .aioReturn) ≠ .unborn
    split_ifs <;> nofun
  | aioReturn =>
    simp only [hpc, Option.some.injEq] at h
    rcases (s.access .aioReturn .aioBuf).check_cases (s.access .aioReturn .aioBuf)
      (decide (calls.ret ≠ -1)) "aio_return" with ⟨-, ht⟩ | ⟨-, ht⟩
    all_goals
      rw [ht] at h
      subst h
      exact ⟨rfl, rfl, nofun, nofun, _, rfl⟩
  | aioBuf =>
    simp only [hpc, Option.some.injEq] at h
    subst h
    exact ⟨rfl, rfl, nofun, nofun, _, rfl⟩
  | unborn | ended => simp only [hpc] at h; cases h

theorem threadStep_isSome (hunborn : s.thread ≠ .unborn) (hended : s.thread ≠ .ended) :
    ∃ t, threadStep calls s = some t := by
  rw [← Option.isSome_iff_exists]
  unfold threadStep
  cases hpc : s.thread with
  | unborn => exact absurd hpc hunborn
  | ended => exact absurd hpc hended
  | aioError | aioReturn | aioBuf => rfl

/-! ### The thread and the request -/

/-- The request is made before `aio_suspend`, and the thread exists from its completion on. -/
structure Inv (s : State) : Prop where
  made : s.request = .unused ↔ s.main = .openFile ∨ s.main = .aioWrite
  started : s.thread = .unborn ↔ s.request ≠ .completed
  returned : s.main = .returned → s.request = .completed

theorem inv_start : Inv .start := by
  constructor <;> simp [State.start]

theorem inv_step {a : Action} (hi : Inv s) (h : (system calls).step s a = some t) : Inv t := by
  obtain ⟨-, h⟩ := Option.ite_none_right_eq_some.mp h
  obtain ⟨hmade, hstarted, hreturned⟩ := hi
  cases a with
  | main =>
    rcases mainStep_cases h with ⟨-, msg, rfl⟩ | ⟨hpc, -, rfl⟩ | ⟨hpc, -, rfl⟩ | ⟨hpc, -, hc, rfl⟩
    · exact ⟨hmade, hstarted, hreturned⟩
    · exact ⟨iff_of_true (hmade.mpr (.inl hpc)) (.inr rfl), hstarted, nofun⟩
    · have hunused := hmade.mpr (.inr hpc)
      have hunborn := hstarted.mpr (by rw [hunused]; nofun)
      exact ⟨iff_of_false nofun (by simp), iff_of_true hunborn nofun, nofun⟩
    · exact ⟨iff_of_false (by simp [hc]) (by simp), hstarted, fun _ => hc⟩
  | complete =>
    obtain ⟨hprogress, h⟩ := Option.ite_none_right_eq_some.mp h
    cases h
    rw [hprogress] at hmade
    refine ⟨iff_of_false nofun fun hpc => ?_, by simp, fun _ => rfl⟩
    exact Request.noConfusion (hmade.mpr hpc)
  | thread =>
    obtain ⟨hmain, hrequest, hborn, hended, -⟩ := threadStep_spec h
    have hunborn : s.thread ≠ .unborn := by
      intro hs
      rw [threadStep, hs] at h
      cases h
    refine ⟨?_, iff_of_false hborn fun hne => ?_, ?_⟩
    · rw [hmain, hrequest]
      exact hmade
    · rw [hrequest] at hne
      exact hunborn (hstarted.mpr hne)
    · rw [hmain, hrequest]
      exact hreturned

theorem inv_reachable (h : (system calls).Reachable s) : Inv s := by
  refine h.invariant (I := Inv) ?_ fun _ _ _ => inv_step
  intro s hs
  rw [show s = State.start from hs]
  exact inv_start

theorem inTime_start : InTime .start := nofun

/-! ### When the thread is in time -/

/-- Nothing is accessed any more, or not after a return. -/
def Harmless (calls : Calls) (s : State) : Prop :=
  s.exited ≠ none ∨ s.thread = .ended ∨ calls.succeedFrom s.main = false

theorem Harmless.step {a : Action} (hs : Harmless calls s) (hi : Inv s) (ht : InTime s)
    (h : (system calls).step s a = some t) : Harmless calls t ∧ InTime t := by
  obtain ⟨hexited, h⟩ := Option.ite_none_right_eq_some.mp h
  cases a with
  | main =>
    rcases mainStep_cases h with ⟨-, msg, rfl⟩ | ⟨hpc, hok, rfl⟩ | ⟨hpc, hok, rfl⟩ | ⟨hpc, hok, -, rfl⟩
    · exact ⟨.inl nofun, ht⟩
    · refine ⟨hs.imp_right (Or.imp_right fun hf => ?_), ht⟩
      simpa [hpc, hok, Calls.succeedFrom] using hf
    · refine ⟨hs.imp_right (Or.imp_right fun hf => ?_), ht⟩
      simpa [hpc, hok, Calls.succeedFrom] using hf
    · refine ⟨hs.imp_right (Or.imp_right fun hf => ?_), ht⟩
      simp [hpc, hok, Calls.succeedFrom] at hf
  | complete =>
    obtain ⟨hprogress, h⟩ := Option.ite_none_right_eq_some.mp h
    cases h
    have hunborn : s.thread = .unborn := hi.started.mpr (by rw [hprogress]; nofun)
    rcases hs with hs | hs | hs
    · exact absurd hexited hs
    · exact ThreadPc.noConfusion (hunborn.symm.trans hs)
    · exact ⟨.inr (.inr hs), ht⟩
  | thread =>
    obtain ⟨hmain, -, -, hended, a, haccesses⟩ := threadStep_spec h
    have hfails := (hs.resolve_left (not_not_intro hexited)).resolve_left hended
    have hreturned : s.main ≠ .returned := by
      intro hr
      rw [hr] at hfails
      cases hfails
    refine ⟨.inr (.inr (hmain ▸ hfails)), fun b hb => ?_⟩
    rw [haccesses, decide_eq_false hreturned] at hb
    rcases List.mem_append.mp hb with hb | hb
    · exact ht b hb
    · cases List.mem_singleton.mp hb

theorem Harmless.run {as : List Action} (hs : Harmless calls s) (hi : Inv s) (ht : InTime s)
    (h : (system calls).run s as = some t) : InTime t := by
  have hall : Inv t ∧ Harmless calls t ∧ InTime t :=
    System.run_invariant (I := fun s => Inv s ∧ Harmless calls s ∧ InTime s)
      (fun _ _ _ hs hst => ⟨inv_step hs.1 hst, hs.2.1.step hs.1 hs.2.2 hst⟩) ⟨hi, hs, ht⟩ h
  exact hall.2.2

/-- Some order of the steps to come has an access after the return. -/
def MayBeLate (calls : Calls) (s : State) : Prop :=
  ∃ as t, (system calls).run s as = some t ∧ ¬InTime t

theorem MayBeLate.of_step {a : Action} (h : (system calls).step s a = some t)
    (ht : MayBeLate calls t) : MayBeLate calls s := by
  obtain ⟨as, u, hu, hlate⟩ := ht
  refine ⟨a :: as, u, ?_, hlate⟩
  rw [System.run_cons, h, Option.bind_some, hu]

theorem system_step (hexited : s.exited = none) (a : Action) :
    (system calls).step s a = match a with
      | .main => mainStep calls s
      | .complete => completeStep s
      | .thread => threadStep calls s :=
  if_pos hexited

/-- A thread that has not ended can always make its next access. -/
theorem mayBeLate_returned (hi : Inv s) (hexited : s.exited = none) (hended : s.thread ≠ .ended)
    (hpc : s.main = .returned) : MayBeLate calls s := by
  have hunborn : s.thread ≠ .unborn := fun hu => hi.started.mp hu (hi.returned hpc)
  obtain ⟨t, ht⟩ : ∃ t, threadStep calls s = some t := threadStep_isSome hunborn hended
  refine ⟨[.thread], t, ?_, fun hin => ?_⟩
  · rw [System.run_cons, system_step hexited .thread, ht]
    rfl
  · obtain ⟨-, -, -, -, a, haccesses⟩ := threadStep_spec ht
    refine hin a ?_
    rw [haccesses, decide_eq_true hpc]
    exact List.mem_append_right _ (List.mem_singleton.mpr rfl)

theorem mayBeLate_completed (hi : Inv s) (hexited : s.exited = none) (hended : s.thread ≠ .ended)
    (hpc : s.main = .aioSuspend) (hok : calls.aioSuspend = true) (hc : s.request = .completed) :
    MayBeLate calls s := by
  have hst : (system calls).step s .main = some { s with main := .returned } := by
    rw [system_step hexited .main]
    simp [mainStep, hpc, hok, hc, State.check]
  exact .of_step hst (mayBeLate_returned (inv_step hi hst) hexited hended rfl)

theorem mayBeLate_aioSuspend (hi : Inv s) (hexited : s.exited = none) (hended : s.thread ≠ .ended)
    (hpc : s.main = .aioSuspend) (hok : calls.aioSuspend = true) : MayBeLate calls s := by
  cases hrequest : s.request with
  | unused => simpa [hpc] using hi.made.mp hrequest
  | completed => exact mayBeLate_completed hi hexited hended hpc hok hrequest
  | inProgress =>
    have hst : (system calls).step s .complete =
        some { s with request := .completed, thread := .aioError } := by
      rw [system_step hexited .complete]
      exact if_pos hrequest
    exact .of_step hst (mayBeLate_completed (inv_step hi hst) hexited nofun hpc hok rfl)

theorem mayBeLate_aioWrite (hi : Inv s) (hexited : s.exited = none) (hended : s.thread ≠ .ended)
    (hpc : s.main = .aioWrite) (hok : calls.succeedFrom .aioWrite = true) : MayBeLate calls s := by
  obtain ⟨hwrite, hsuspend⟩ := (Bool.and_eq_true _ _).mp hok
  have hst : (system calls).step s .main =
      some { s with main := .aioSuspend, request := .inProgress } := by
    rw [system_step hexited .main]
    simp [mainStep, hpc, hwrite, State.check]
  exact .of_step hst (mayBeLate_aioSuspend (inv_step hi hst) hexited hended rfl hsuspend)

theorem mayBeLate_openFile (hi : Inv s) (hexited : s.exited = none) (hended : s.thread ≠ .ended)
    (hpc : s.main = .openFile) (hok : calls.succeedFrom .openFile = true) : MayBeLate calls s := by
  simp only [Calls.succeedFrom, Bool.and_eq_true] at hok
  obtain ⟨⟨hopen, hwrite⟩, hsuspend⟩ := hok
  have hst : (system calls).step s .main = some { s with main := .aioWrite } := by
    rw [system_step hexited .main]
    simp [mainStep, hpc, hopen, State.check]
  have hok : calls.succeedFrom .aioWrite = true := by simp [Calls.succeedFrom, hwrite, hsuspend]
  exact .of_step hst (mayBeLate_aioWrite (inv_step hi hst) hexited hended rfl hok)

/-- Wherever the two threads are, a thread that is still to come can be late. -/
theorem mayBeLate (hi : Inv s) (hs : ¬Harmless calls s) : MayBeLate calls s := by
  simp only [Harmless, not_or, not_not, Bool.not_eq_false] at hs
  obtain ⟨hexited, hended, hok⟩ := hs
  cases hpc : s.main with
  | openFile => exact mayBeLate_openFile hi hexited hended hpc (hpc ▸ hok)
  | aioWrite => exact mayBeLate_aioWrite hi hexited hended hpc (hpc ▸ hok)
  | aioSuspend =>
    rw [hpc] at hok
    exact mayBeLate_aioSuspend hi hexited hended hpc hok
  | returned => exact mayBeLate_returned hi hexited hended hpc

/-- Whatever follows is in time exactly when the state is harmless. -/
theorem all_in_time_iff (hi : Inv s) (ht : InTime s) :
    (∀ as t, (system calls).run s as = some t → InTime t) ↔ Harmless calls s := by
  constructor
  · intro hall
    by_contra hs
    obtain ⟨as, t, hrun, hlate⟩ := mayBeLate hi hs
    exact hlate (hall as t hrun)
  · intro hs as t hrun
    exact hs.run hi ht hrun

theorem harmless_start_iff : Harmless calls .start ↔
    calls.openFile = false ∨ calls.aioWrite = false ∨ calls.aioSuspend = false := by
  simp only [Harmless, State.start, Calls.succeedFrom, Bool.and_eq_false_iff, ne_eq,
    not_true_eq_false, false_or, reduceCtorEq, or_assoc]

theorem reachable_inTime_iff : (∀ s, (system calls).Reachable s → InTime s) ↔
    ∀ as s, (system calls).run .start as = some s → InTime s := by
  constructor
  · intro h as s hrun
    exact h s (System.reachable_of_run (S := system calls) rfl as hrun)
  · intro h s hs
    obtain ⟨s₀, as, hinit, hrun⟩ := hs.exists_run
    rw [show s₀ = State.start from hinit] at hrun
    exact h as s hrun

/-- The thread is in time in every order exactly when `open`, `aio_write` or `aio_suspend` fails, so
that `fileio_aio_write` does not return; and from any moment on exactly when the process or the
thread has ended or one of the calls still to be made fails. -/
theorem in_time_iff (calls : Calls) :
    ((∀ s, (system calls).Reachable s → InTime s) ↔
      calls.openFile = false ∨ calls.aioWrite = false ∨ calls.aioSuspend = false) ∧
    ∀ s, (system calls).Reachable s → InTime s →
      ((∀ as t, (system calls).run s as = some t → InTime t) ↔ Harmless calls s) := by
  refine ⟨?_, fun s hs ht => all_in_time_iff (inv_reachable hs) ht⟩
  rw [reachable_inTime_iff, all_in_time_iff inv_start inTime_start, harmless_start_iff]

/-- `aio_suspend` is interrupted, and `thread_func` comes when the process has ended. -/
theorem in_time_iff_interrupted : ∀ s, (system ⟨true, true, false, -1⟩).Reachable s → InTime s :=
  (in_time_iff ⟨true, true, false, -1⟩).1.mpr (.inr (.inr rfl))

/-- `aio_suspend` returns first, and `thread_func` asks for the state of a request that is gone. -/
theorem not_in_time_suspend_first : ∃ s, (system ⟨true, true, true, -1⟩).Reachable s ∧ ¬InTime s := by
  have hrun : (system ⟨true, true, true, -1⟩).Reachable _ :=
    System.reachable_of_isSome (S := system ⟨true, true, true, -1⟩) (s := .start) rfl
      [.main, .main, .complete, .main, .thread] (by decide)
  exact ⟨_, hrun, fun h => h .aioError (by decide)⟩

end LinuxApi.AsyncWrite
