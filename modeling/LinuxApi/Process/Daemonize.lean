import LinuxApi.Transition.System
import LinuxApi.Transition.History

/-! The main loop of `process_daemonize.c`: sleep, reopen the log file when a
SIGHUP has been noted, log a line every five seconds. `hup_signal_handler` may run
between any two steps, also inside `log_close` and `log_open`. -/

namespace LinuxApi.Daemonize

/-- `SLEEP_TIME` -/
def sleepTime : ℕ := 5

/-- The two calls of `log_open`. -/
inductive Caller where
  | start | loop
  deriving DecidableEq

/-- The next step of `process_daemonize` and of the functions it calls. -/
inductive Pc where
  | becomeDaemon
  | openCall (c : Caller) | openFile (c : Caller) | openWrite (c : Caller)
  | sleep | sleeping | test
  | closeTest | closeWrite | closeFile
  | clear | tick | message | exited
  deriving DecidableEq

/-- `fd` names the `open` whose file the descriptor refers to, counted from 1; the
static variable starts as descriptor 0, and `none` is -1. -/
structure State where
  pc : Pc
  hupSignaled : Bool
  fd : Option ℕ
  opens : ℕ
  unslept : ℕ
  count : ℕ
  deriving DecidableEq

/-- The handler runs, `sleep` returns with `r` seconds left, or the program takes its
next step, whose system call may fail. -/
inductive Action where
  | hup
  | wake (r : ℕ)
  | main (ok : Bool)
  deriving DecidableEq

/-- What follows the return of `log_open`; its result is not tested. -/
def afterOpen (s : State) : Caller → State
  | .start => { s with unslept := sleepTime, pc := .sleep }
  | .loop => { s with pc := .clear }

/-- One step of the program itself. -/
def mainStep (s : State) (ok : Bool) : Option State :=
  match s.pc, ok with
  | .becomeDaemon, true => some { s with pc := .openCall .start }
  | .becomeDaemon, false => some { s with pc := .exited }
  | .openCall c, true => some { s with pc := .openFile c }
  | .openFile c, true =>
    some { s with fd := some (s.opens + 1), opens := s.opens + 1, pc := .openWrite c }
  | .openFile _, false => some { s with fd := none, pc := .exited }
  | .openWrite c, _ => some (afterOpen s c)
  | .sleep, true => some { s with pc := .sleeping }
  | .test, true => some { s with pc := if s.hupSignaled then .closeTest else .tick }
  | .closeTest, true => some { s with pc := if s.fd = none then .openCall .loop else .closeWrite }
  | .closeWrite, true => some { s with pc := .closeFile }
  | .closeWrite, false => some { s with pc := .openCall .loop }
  | .closeFile, true => some { s with pc := .openCall .loop }
  | .clear, true => some { s with hupSignaled := false, pc := .tick }
  | .tick, true =>
    if s.unslept = 0 then some { s with count := s.count + 1, pc := .message }
    else some { s with pc := .sleep }
  | .message, _ => some { s with unslept := sleepTime, pc := .sleep }
  | _, _ => none

/-- The daemon from the installed handler on. -/
def system : System State Action where
  init s := s = ⟨.becomeDaemon, false, some 0, 0, 0, 0⟩
  step s
    | .hup => if s.pc = .exited then none else some { s with hupSignaled := true }
    | .wake r =>
      if s.pc = .sleeping ∧ r ≤ s.unslept then some { s with unslept := r, pc := .test } else none
    | .main ok => mainStep s ok

/-! ### Deliveries and reopenings -/

/-- What an observer of the signal and of the log sees. -/
inductive Event where
  | hup
  | openBegin | opened (g : ℕ) | openEnd
  | message (fd : Option ℕ) (count : ℕ)
  deriving DecidableEq

/-- The events of one step. -/
def emit (s : State) : Action → List Event
  | .hup => [.hup]
  | .wake _ => []
  | .main ok =>
    match s.pc, ok with
    | .openCall _, _ => [.openBegin]
    | .openFile _, true => [.opened (s.opens + 1)]
    | .openWrite _, _ => [.openEnd]
    | .message, _ => [.message s.fd s.count]
    | _, _ => []

/-- The daemon with its history. -/
abbrev recorded : System (State × List Event) Action := system.recorded emit

/-- The loop is about to call `sleep` with `hup_signaled == 0`. -/
def State.Resting (s : State) : Prop := s.pc = .sleep ∧ s.hupSignaled = false

/-- The events that serve a SIGHUP: a `log_open` begins, opens the file the descriptor
now refers to, and returns. -/
def serving (fd : Option ℕ) : List (Event → Prop) :=
  [(· = .openBegin), (fun e => fd.map .opened = some e), (· = .openEnd)]

/-- Every SIGHUP so far was followed by a complete `log_open` that began after it and
opened the log file in use. -/
def Served (s : State) (h : List Event) : Prop := Followed (· = .hup) (serving s.fd) h

/-- A SIGHUP noted here is forgotten: the loop's `log_open` has begun and the flag is
not yet cleared. -/
def Pc.inWindow : Pc → Bool
  | .openFile .loop | .openWrite .loop | .clear => true
  | _ => false

/-- No handler runs inside the window. -/
def calm (s : State) (a : Action) : Bool := !(a == .hup && s.pc.inWindow)

/-- How far the SIGHUPs noted so far have been served. -/
def Progress (s : State) (h : List Event) : Prop :=
  match s.pc with
  | .becomeDaemon | .openCall .start | .openFile .start | .openWrite .start =>
    s.hupSignaled = false → ∀ e ∈ h, e ≠ .hup
  | .sleep | .sleeping | .test | .tick | .message => s.hupSignaled = false → Served s h
  | .openFile .loop => Followed (· = .hup) ((serving s.fd).take 1) h
  | .openWrite .loop => Followed (· = .hup) ((serving s.fd).take 2) h
  | .clear => Served s h
  | .closeTest | .closeWrite | .closeFile | .openCall .loop | .exited => True

/-- A SIGHUP outside the window leaves the flag set until the next `log_open`. -/
theorem progress_hup {s : State} (h : List Event) (hw : s.pc.inWindow = false) :
    Progress { s with hupSignaled := true } (h ++ [.hup]) := by
  unfold Progress
  cases hpc : s.pc with
  | openFile c => cases c <;> simp [hpc, Pc.inWindow] at hw ⊢
  | openWrite c => cases c <;> simp [hpc, Pc.inWindow] at hw ⊢
  | openCall c => cases c <;> simp
  | clear => simp [hpc, Pc.inWindow] at hw
  | _ => simp

/-- With no SIGHUP so far there is nothing to serve. -/
theorem noHup_concat {h : List Event} {e : Event} (hn : ∀ e ∈ h, e ≠ .hup) (he : e ≠ .hup) :
    ∀ x ∈ h ++ [e], x ≠ .hup := by
  intro x hx
  rcases List.mem_append.mp hx with hx | hx
  · exact hn x hx
  · exact List.mem_singleton.mp hx ▸ he

/-- The steps of `log_open`, and what is seen of them. -/
theorem logOpen_cases {s t : State} {ok : Bool} {c : Caller} (hst : mainStep s ok = some t)
    (hpc : s.pc = .openCall c ∨ s.pc = .openFile c ∨ s.pc = .openWrite c) :
    (s.pc = .openCall c ∧ t = { s with pc := .openFile c } ∧ emit s (.main ok) = [.openBegin]) ∨
      (s.pc = .openFile c ∧
        t = { s with fd := some (s.opens + 1), opens := s.opens + 1, pc := .openWrite c } ∧
        emit s (.main ok) = [.opened (s.opens + 1)]) ∨
      (s.pc = .openFile c ∧ t.pc = .exited) ∨
      (s.pc = .openWrite c ∧ t = afterOpen s c ∧ emit s (.main ok) = [.openEnd]) := by
  rcases hpc with hpc | hpc | hpc
  · cases ok <;> simp only [mainStep, hpc, reduceCtorEq, Option.some.injEq] at hst
    exact .inl ⟨hpc, hst.symm, by simp only [emit, hpc]⟩
  · cases ok <;> simp only [mainStep, hpc, Option.some.injEq] at hst <;> subst hst
    · exact .inr (.inr (.inl ⟨hpc, rfl⟩))
    · exact .inr (.inl ⟨hpc, rfl, by simp only [emit, hpc]⟩)
  · simp only [mainStep, hpc, Option.some.injEq] at hst
    exact .inr (.inr (.inr ⟨hpc, hst.symm, by simp only [emit, hpc]⟩))

/-- The first `log_open`: a SIGHUP noted before or during it keeps the flag. -/
theorem progress_start {s t : State} {h : List Event} {ok : Bool} (hp : Progress s h)
    (hst : mainStep s ok = some t)
    (hpc : s.pc = .openCall .start ∨ s.pc = .openFile .start ∨ s.pc = .openWrite .start) :
    Progress t (h ++ emit s (.main ok)) := by
  have hn : s.hupSignaled = false → ∀ e ∈ h, e ≠ .hup := by
    rcases hpc with hpc | hpc | hpc <;> simpa only [Progress, hpc] using hp
  rcases logOpen_cases hst hpc with ⟨-, rfl, he⟩ | ⟨-, rfl, he⟩ | ⟨-, ht⟩ | ⟨-, rfl, he⟩
  · rw [he]
    exact fun hf => noHup_concat (hn hf) nofun
  · rw [he]
    exact fun hf => noHup_concat (hn hf) nofun
  · simp only [Progress, ht]
  · rw [he]
    exact fun hf => .of_none (noHup_concat (hn hf) nofun)

/-- The loop's `log_open`: beginning, opening and returning serve every SIGHUP so far. -/
theorem progress_loop {s t : State} {h : List Event} {ok : Bool} (hp : Progress s h)
    (hst : mainStep s ok = some t)
    (hpc : s.pc = .openCall .loop ∨ s.pc = .openFile .loop ∨ s.pc = .openWrite .loop) :
    Progress t (h ++ emit s (.main ok)) := by
  rcases logOpen_cases hst hpc with ⟨-, rfl, he⟩ | ⟨hfile, rfl, he⟩ | ⟨-, ht⟩ | ⟨hwrite, rfl, he⟩
  · rw [he]
    exact Followed.nil.advance nofun rfl
  · rw [he]
    simp only [Progress, hfile] at hp
    exact Followed.advance hp nofun rfl
  · simp only [Progress, ht]
  · rw [he]
    simp only [Progress, hwrite] at hp
    exact Followed.advance hp nofun rfl

theorem progress_main {s t : State} {h : List Event} {ok : Bool} (hp : Progress s h)
    (hst : mainStep s ok = some t) : Progress t (h ++ emit s (.main ok)) := by
  cases hpc : s.pc with
  | openCall c | openFile c | openWrite c =>
    cases c
    · exact progress_start hp hst (by simp [hpc])
    · exact progress_loop hp hst (by simp [hpc])
  | becomeDaemon | sleep =>
    cases ok <;> simp only [mainStep, hpc, reduceCtorEq, Option.some.injEq] at hst <;> subst hst <;>
      simp_all [Progress, emit, Served]
  | test =>
    cases ok <;> simp only [mainStep, hpc, reduceCtorEq, Option.some.injEq] at hst
    subst hst
    simp only [Progress, hpc] at hp
    by_cases hf : s.hupSignaled = true
    · simp [Progress, hf]
    · simpa [Progress, emit, hpc, hf, Served] using hp
  | closeTest =>
    cases ok <;> simp only [mainStep, hpc, reduceCtorEq, Option.some.injEq] at hst
    subst hst
    by_cases hf : s.fd = none <;> simp [Progress, hf]
  | closeWrite | closeFile =>
    cases ok <;> simp only [mainStep, hpc, reduceCtorEq, Option.some.injEq] at hst <;> subst hst <;>
      simp [Progress]
  | clear =>
    cases ok <;> simp only [mainStep, hpc, reduceCtorEq, Option.some.injEq] at hst
    subst hst
    simpa [Progress, emit, hpc, Served] using hp
  | tick =>
    cases ok <;> simp only [mainStep, hpc, reduceCtorEq] at hst
    simp only [Progress, hpc] at hp
    split_ifs at hst <;> simp only [Option.some.injEq] at hst <;> subst hst <;>
      simpa [Progress, emit, hpc, Served] using hp
  | message =>
    simp only [mainStep, hpc, Option.some.injEq] at hst
    subst hst
    simp only [Progress, hpc] at hp
    simp only [Progress, emit, hpc]
    exact fun hf => (hp hf).keep nofun
  | sleeping | exited => cases ok <;> simp [mainStep, hpc] at hst

theorem progress_reachable {s : State} {h : List Event}
    (hr : ((system.under calm).recorded emit).Reachable (s, h)) : Progress s h := by
  refine hr.invariant (I := fun x => Progress x.1 x.2) ?_ ?_
  · rintro ⟨s, h⟩ ⟨hs, hh⟩
    obtain rfl : h = [] := hh
    obtain rfl : s = _ := hs
    exact fun _ e he => absurd he List.not_mem_nil
  · rintro ⟨s, h⟩ a ⟨t, h'⟩ hp hst
    obtain ⟨hst, rfl⟩ := System.recorded_step_eq_some.mp hst
    obtain ⟨hc, hst⟩ := System.under_step_eq_some.mp hst
    cases a with
    | hup =>
      simp only [system, Option.ite_none_left_eq_some, Option.some.injEq] at hst
      obtain ⟨-, rfl⟩ := hst
      exact progress_hup h (by simpa [calm] using hc)
    | wake r =>
      simp only [system, Option.ite_none_right_eq_some, Option.some.injEq] at hst
      obtain ⟨⟨hpc, -⟩, rfl⟩ := hst
      simpa [Progress, emit, hpc, Served] using hp
    | main ok => exact progress_main hp hst

/-! ### The window -/

/-- Left to itself the program comes to rest without beginning another `log_open`. -/
def RestsQuietly (s : State) : Prop :=
  ∀ h, ∃ n t h', recorded.run (s, h) (.replicate n (.main true)) = some (t, h ++ h') ∧
    t.Resting ∧ ∀ e ∈ h', e ≠ .openBegin

theorem RestsQuietly.of_resting {s : State} (hs : s.Resting) : RestsQuietly s :=
  fun h => ⟨0, s, [], by simp, hs, by simp⟩

theorem RestsQuietly.of_step {s t : State} (ht : RestsQuietly t) (hst : mainStep s true = some t)
    (he : ∀ e ∈ emit s (.main true), e ≠ .openBegin) : RestsQuietly s := by
  intro h
  obtain ⟨n, u, h', hrun, hu, hh⟩ := ht (h ++ emit s (.main true))
  have hstep : recorded.step (s, h) (.main true) = some (t, h ++ emit s (.main true)) :=
    System.recorded_step_eq_some.mpr ⟨hst, rfl⟩
  refine ⟨n + 1, u, emit s (.main true) ++ h', ?_, hu, ?_⟩
  · rw [List.replicate_succ, System.run_cons, hstep, Option.bind_some, hrun, List.append_assoc]
  · intro e hm
    exact (List.mem_append.mp hm).elim (he e) (hh e)

theorem restsQuietly_tick {s : State} (hpc : s.pc = .tick) (hf : s.hupSignaled = false) :
    RestsQuietly s := by
  by_cases hu : s.unslept = 0
  · refine .of_step (.of_step (.of_resting ?_) rfl ?_) (by simp only [mainStep, hpc, hu, if_true]; rfl) ?_
    · exact ⟨rfl, hf⟩
    · simp [emit]
    · simp [emit, hpc]
  · refine .of_step (.of_resting ?_) (by simp only [mainStep, hpc, hu, if_false]; rfl) ?_
    · exact ⟨rfl, hf⟩
    · simp [emit, hpc]

/-- From the window the loop clears the flag and goes to sleep. -/
theorem restsQuietly_of_inWindow {s : State} (hw : s.pc.inWindow = true) : RestsQuietly s := by
  have hclear : ∀ s : State, s.pc = .clear → RestsQuietly s := fun s hpc =>
    .of_step (restsQuietly_tick rfl rfl) (by simp only [mainStep, hpc]; rfl) (by simp [emit, hpc])
  have hwrite : ∀ s : State, s.pc = .openWrite .loop → RestsQuietly s := fun s hpc =>
    .of_step (hclear _ rfl) (by simp only [mainStep, hpc, afterOpen]; rfl) (by simp [emit, hpc])
  cases hpc : s.pc with
  | openFile c =>
    cases c with
    | start => simp [hpc, Pc.inWindow] at hw
    | loop => exact .of_step (hwrite _ rfl) (by simp only [mainStep, hpc]; rfl) (by simp [emit, hpc])
  | openWrite c =>
    cases c with
    | start => simp [hpc, Pc.inWindow] at hw
    | loop => exact hwrite s hpc
  | clear => exact hclear s hpc
  | _ => simp [hpc, Pc.inWindow] at hw

/-- A SIGHUP delivered inside the window can stay unserved: with nothing else
happening the loop goes to sleep having forgotten it. -/
theorem forgotten_in_window {s : State} {h : List Event} (hw : s.pc.inWindow = true) :
    ∃ n t h', recorded.run (s, h) (.hup :: .replicate n (.main true)) = some (t, h') ∧
      t.Resting ∧ ¬ Served t h' := by
  have hne : s.pc ≠ .exited := by rintro he; simp [he, Pc.inWindow] at hw
  obtain ⟨n, t, h', hrun, ht, hh⟩ :=
    restsQuietly_of_inWindow (s := { s with hupSignaled := true }) hw (h ++ [.hup])
  have hstep : recorded.step (s, h) .hup = some ({ s with hupSignaled := true }, h ++ [.hup]) :=
    System.recorded_step_eq_some.mpr ⟨by simp [system, hne], rfl⟩
  refine ⟨n, t, h ++ [.hup] ++ h', ?_, ht, ?_⟩
  · rw [System.run_cons, hstep, Option.bind_some, hrun]
  · rw [List.append_assoc]
    exact Followed.not_of_absent rfl hh

/-- In every run without a handler inside the window, a loop about to sleep with a
clear flag has served every SIGHUP; and a handler inside the window can always be
followed by a sleep that has not. -/
theorem sighup_served_outside_window (s : State) (h : List Event) :
    (((system.under calm).recorded emit).Reachable (s, h) → s.Resting → Served s h) ∧
      (recorded.Reachable (s, h) → s.pc.inWindow = true →
        ∃ n t h', recorded.run (s, h) (.hup :: .replicate n (.main true)) = some (t, h') ∧
          t.Resting ∧ ¬ Served t h') := by
  refine ⟨fun hr hrest => ?_, fun _ hw => forgotten_in_window hw⟩
  have hp := progress_reachable hr
  obtain ⟨hpc, hf⟩ := hrest
  rw [Progress, hpc] at hp
  exact hp hf

/-- The daemon's first state. -/
def start : State × List Event := (⟨.becomeDaemon, false, some 0, 0, 0, 0⟩, [])

/-- One SIGHUP while asleep, served by the reopening it causes. -/
def servedRun : List Action :=
  .replicate 5 (.main true) ++ [.hup, .wake 3] ++ .replicate 9 (.main true)

theorem sighup_served_once :
    ∃ s h, ((system.under calm).recorded emit).Reachable (s, h) ∧ .hup ∈ h ∧ s.Resting ∧ Served s h := by
  have hr : ((system.under calm).recorded emit).Reachable (⟨.sleep, false, some 2, 2, 3, 0⟩,
      [.openBegin, .opened 1, .openEnd, .hup, .openBegin, .opened 2, .openEnd]) :=
    System.reachable_of_run (s := start) ⟨rfl, rfl⟩ servedRun rfl
  exact ⟨_, _, hr, by decide, ⟨rfl, rfl⟩, (sighup_served_outside_window _ _).1 hr ⟨rfl, rfl⟩⟩

/-- A second SIGHUP between the return of `log_open` and `hup_signaled = 0`. -/
def forgottenRun : List Action :=
  .replicate 5 (.main true) ++ [.hup, .wake 3] ++ .replicate 7 (.main true) ++ [.hup] ++
    .replicate 2 (.main true)

theorem sighup_forgotten :
    ¬ ∀ s h, recorded.Reachable (s, h) → s.Resting → Served s h := by
  intro hall
  have hr : recorded.Reachable (⟨.sleep, false, some 2, 2, 3, 0⟩,
      [.openBegin, .opened 1, .openEnd, .hup, .openBegin, .opened 2, .openEnd, .hup]) :=
    System.reachable_of_run (s := start) ⟨rfl, rfl⟩ forgottenRun rfl
  obtain ⟨e, he, -⟩ := (hall _ _ hr ⟨rfl, rfl⟩
    [.openBegin, .opened 1, .openEnd, .hup, .openBegin, .opened 2, .openEnd] .hup [] rfl rfl).exists_mem
  exact absurd he List.not_mem_nil

end LinuxApi.Daemonize
