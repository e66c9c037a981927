import LinuxApi.Transition.System
import LinuxApi.Kernel.Children

/-! `process_wait_by_signal.c`: fork `N` children, then wait in `sigsuspend` for
SIGCHLD and reap in the handler until none is left. SIGCHLD does not queue: one
pending bit stands for any number of terminations, and it is blocked except inside
`sigsuspend`, before `sigprocmask` and after the mask is restored. The source has 5
in place of `N`. -/

namespace LinuxApi.WaitBySignal

/-- Where `process_wait_by_signal` is, the handler being installed. -/
inductive MainPc where
  | block | fork (i : ℕ) | test | suspend | suspended | unblock | returned | exited
  deriving DecidableEq

/-- Where `sigchld_signal_handler` is; `decrement` follows a `waitpid` that returned
a child, `leave` one that returned 0 or -1. -/
inductive HandlerPc where
  | count | wait | decrement (pid : ℕ) | leave (childpid : ℤ)
  deriving DecidableEq

structure State where
  main : MainPc
  handler : Option HandlerPc
  pending : Bool
  sigCnt : ℕ
  childCnt : ℤ
  children : Children

/-- A step of the program, whose `fork` may fail; the start of the handler; a step of
the handler, whose `waitpid` may return any zombie; a child's termination; and a
SIGCHLD for another reason. -/
inductive Action where
  | main (ok : Bool)
  | deliver
  | handler (pid : Option ℕ)
  | terminate (pid : ℕ)
  | extra
  deriving DecidableEq

/-- SIGCHLD is not blocked. -/
def MainPc.open : MainPc → Bool
  | .block | .suspended | .returned => true
  | _ => false

/-- The program outside the handler. -/
def mainStep (N : ℕ) (s : State) (ok : Bool) : Option State :=
  match s.main with
  | .block => some { s with main := .fork 0 }
  | .fork i =>
    if i < N then
      if ok then some { s with children := s.children.fork, main := .fork (i + 1) }
      else some { s with main := .exited }
    else some { s with main := .test }
  | .test => some { s with main := if 0 < s.childCnt then .suspend else .unblock }
  | .suspend => some { s with main := .suspended }
  | .unblock => some { s with main := .returned }
  | .suspended | .returned | .exited => none

/-- The return of the handler ends a `sigsuspend` and restores its mask. -/
def afterHandler : MainPc → MainPc
  | .suspended => .test
  | pc => pc

/-- The handler. `waitpid(-1, NULL, WNOHANG)` returns 0 while children run and fails
with `ECHILD` when there are none, in neither case with a message. -/
def handlerStep (s : State) (pid : Option ℕ) : Option State :=
  match s.handler with
  | some .count => some { s with sigCnt := s.sigCnt + 1, handler := some .wait }
  | some .wait =>
    match pid with
    | some pid =>
      if h : pid ∈ s.children.zombies then
        some { s with children := s.children.reap pid h, handler := some (.decrement pid) }
      else none
    | none =>
      if s.children.zombies = [] then
        some { s with handler := some (.leave (if s.children.running = [] then -1 else 0)) }
      else none
  | some (.decrement _) => some { s with childCnt := s.childCnt - 1, handler := some .wait }
  | some (.leave _) => some { s with handler := none, main := afterHandler s.main }
  | none => none

/-- The handler is installed and nothing forked. -/
def start (N : ℕ) : State := ⟨.block, none, false, 0, N, .none⟩

def system (N : ℕ) : System State Action where
  init s := s = start N
  step s
    | .main ok => if s.handler = none then mainStep N s ok else none
    | .deliver =>
      if s.pending ∧ s.handler = none ∧ s.main.open then
        some { s with pending := false, handler := some .count }
      else none
    | .handler pid => handlerStep s pid
    | .terminate pid =>
      if h : pid ∈ s.children.running then
        some { s with children := s.children.terminate pid h, pending := true }
      else none
    | .extra => some { s with pending := true }

/-! ### The invariant -/

/-- Between the return of `waitpid` and `child_cnt--`. -/
def State.owed (s : State) : ℤ :=
  match s.handler with
  | some (.decrement _) => 1
  | _ => 0

/-- The handler will call `waitpid` again. -/
def State.Draining (s : State) : Prop :=
  match s.handler with
  | some .count | some .wait | some (.decrement _) => True
  | _ => False

/-- The parent sleeps in `sigsuspend` beside a zombie and nothing will wake it. -/
def State.Stuck (s : State) : Prop :=
  s.main = .suspended ∧ s.handler = none ∧ s.pending = false ∧ s.children.zombies ≠ []

/-- The `while` loop has ended. -/
def State.Ended (s : State) : Prop := s.main = .unblock ∨ s.main = .returned

/-- How many children the program has forked. -/
def Forked (N : ℕ) (forked : ℕ) : MainPc → Prop
  | .block => forked = 0
  | .fork i => forked = i ∧ i ≤ N
  | .exited => forked ≤ N
  | _ => forked = N

structure Inv (N : ℕ) (s : State) : Prop where
  counted : s.childCnt + s.children.reaped.length = N + s.owed
  forked : Forked N s.children.forked s.main
  interrupted : s.handler ≠ none → s.main.open = true
  covered : s.children.zombies ≠ [] → s.pending = true ∨ s.Draining
  ended : s.Ended → s.childCnt ≤ 0

theorem inv_start (N : ℕ) : Inv N (start N) where
  counted := by simp [start, Children.none, State.owed]
  forked := rfl
  interrupted := nofun
  covered := by simp [start, Children.none]
  ended := by simp [start, State.Ended]

/-- A step outside the handler that leaves the children and the count alone. -/
theorem Inv.goto {N : ℕ} {s : State} (h : Inv N s) (hh : s.handler = none) {pc : MainPc}
    (hf : Forked N s.children.forked pc) (he : s.childCnt ≤ 0 ∨ pc ≠ .unblock ∧ pc ≠ .returned) :
    Inv N { s with main := pc } where
  counted := h.counted
  forked := hf
  interrupted hn := absurd hh hn
  covered := h.covered
  ended := by
    rintro (hpc | hpc)
    · exact he.resolve_right fun hn => hn.1 hpc
    · exact he.resolve_right fun hn => hn.2 hpc

theorem inv_main {N : ℕ} {s t : State} {ok : Bool} (h : Inv N s) (hh : s.handler = none)
    (hst : mainStep N s ok = some t) : Inv N t := by
  have hf := h.forked
  cases hpc : s.main with
  | block =>
    simp only [mainStep, hpc, Option.some.injEq] at hst
    simp only [Forked, hpc] at hf
    subst hst
    exact h.goto hh ⟨hf, N.zero_le⟩ (by simp)
  | fork i =>
    simp only [mainStep, hpc] at hst
    simp only [Forked, hpc] at hf
    split_ifs at hst with hi hok <;> simp only [Option.some.injEq] at hst <;> subst hst
    · exact
        { counted := h.counted
          forked := ⟨by simp [Children.fork, hf.1], hi⟩
          interrupted := fun hn => absurd hh hn
          covered := h.covered
          ended := by simp [State.Ended] }
    · exact h.goto hh (show s.children.forked ≤ N by omega) (by simp)
    · exact h.goto hh (show s.children.forked = N by omega) (by simp)
  | test =>
    simp only [mainStep, hpc, Option.some.injEq] at hst
    simp only [Forked, hpc] at hf
    subst hst
    by_cases hc : 0 < s.childCnt
    · rw [if_pos hc]
      exact h.goto hh hf (by simp)
    · rw [if_neg hc]
      exact h.goto hh hf (.inl (by omega))
  | suspend =>
    simp only [mainStep, hpc, Option.some.injEq] at hst
    simp only [Forked, hpc] at hf
    subst hst
    exact h.goto hh hf (by simp)
  | unblock =>
    simp only [mainStep, hpc, Option.some.injEq] at hst
    simp only [Forked, hpc] at hf
    subst hst
    exact h.goto hh hf (.inl (h.ended (.inl hpc)))
  | suspended | returned | exited => simp [mainStep, hpc] at hst

/-- The handler starts where SIGCHLD is not blocked, and takes the pending bit with it. -/
theorem inv_deliver {N : ℕ} {s : State} (h : Inv N s) (hh : s.handler = none)
    (ho : s.main.open = true) : Inv N { s with pending := false, handler := some .count } where
  counted := by simpa [State.owed, hh] using h.counted
  forked := h.forked
  interrupted _ := ho
  covered _ := .inr trivial
  ended := h.ended

theorem forked_afterHandler {N n : ℕ} {pc : MainPc} (h : Forked N n pc) :
    Forked N n (afterHandler pc) := by
  cases pc <;> exact h

/-- `waitpid` returns a zombie and the handler owes a `child_cnt--`. -/
theorem inv_reap {N : ℕ} {s : State} (h : Inv N s) (hh : s.handler = some .wait) (pid : ℕ)
    (hz : pid ∈ s.children.zombies) :
    Inv N { s with children := s.children.reap pid hz, handler := some (.decrement pid) } where
  counted := by
    have hc := h.counted
    simp only [State.owed, hh] at hc
    simp only [State.owed, Children.reap, List.length_cons]
    omega
  forked := h.forked
  interrupted _ := h.interrupted (by simp [hh])
  covered _ := .inr trivial
  ended := h.ended

/-- The handler leaves with no zombie behind it; one that appears later sets the bit. -/
theorem inv_leave {N : ℕ} {s : State} (h : Inv N s) (hh : s.handler = some .wait)
    (hz : s.children.zombies = []) (r : ℤ) : Inv N { s with handler := some (.leave r) } where
  counted := by simpa [State.owed, hh] using h.counted
  forked := h.forked
  interrupted _ := h.interrupted (by simp [hh])
  covered hn := absurd hz hn
  ended := h.ended

theorem inv_handler {N : ℕ} {s t : State} {pid : Option ℕ} (h : Inv N s)
    (hst : handlerStep s pid = some t) : Inv N t := by
  cases hh : s.handler with
  | none => simp [handlerStep, hh] at hst
  | some pc =>
    have ho := h.interrupted (by simp [hh])
    have hc := h.counted
    cases pc with
    | count =>
      simp only [State.owed, hh] at hc
      simp only [handlerStep, hh, Option.some.injEq] at hst
      subst hst
      exact ⟨hc, h.forked, fun _ => ho, fun _ => .inr trivial, h.ended⟩
    | wait =>
      cases pid with
      | some pid =>
        simp only [handlerStep, hh, Option.dite_none_right_eq_some, Option.some.injEq] at hst
        obtain ⟨hz, rfl⟩ := hst
        exact inv_reap h hh pid hz
      | none =>
        simp only [handlerStep, hh, Option.ite_none_right_eq_some, Option.some.injEq] at hst
        obtain ⟨hz, rfl⟩ := hst
        exact inv_leave h hh hz _
    | decrement pid =>
      simp only [State.owed, hh] at hc
      simp only [handlerStep, hh, Option.some.injEq] at hst
      subst hst
      refine ⟨?_, h.forked, fun _ => ho, fun _ => .inr trivial, fun he => ?_⟩
      · show s.childCnt - 1 + s.children.reaped.length = N + 0
        omega
      · have := h.ended he
        show s.childCnt - 1 ≤ 0
        omega
    | leave r =>
      simp only [State.owed, hh] at hc
      simp only [handlerStep, hh, Option.some.injEq] at hst
      subst hst
      refine ⟨hc, forked_afterHandler h.forked, nofun, fun hz => ?_, fun he => h.ended ?_⟩
      · exact .inl ((h.covered hz).resolve_right (by simp [State.Draining, hh]))
      · cases hm : s.main <;> simp [State.Ended, afterHandler, hm] at he ⊢

theorem inv_terminate {N : ℕ} {s : State} (h : Inv N s) (pid : ℕ) (hr : pid ∈ s.children.running) :
    Inv N { s with children := s.children.terminate pid hr, pending := true } :=
  ⟨h.counted, h.forked, h.interrupted, fun _ => .inl rfl, h.ended⟩

theorem inv_step {N : ℕ} {s t : State} {a : Action} (h : Inv N s)
    (hst : (system N).step s a = some t) : Inv N t := by
  cases a with
  | main ok =>
    simp only [system, Option.ite_none_right_eq_some] at hst
    exact inv_main h hst.1 hst.2
  | deliver =>
    simp only [system, Option.ite_none_right_eq_some, Option.some.injEq] at hst
    obtain ⟨⟨-, hh, ho⟩, rfl⟩ := hst
    exact inv_deliver h hh ho
  | handler pid => exact inv_handler h hst
  | terminate pid =>
    simp only [system, Option.dite_none_right_eq_some, Option.some.injEq] at hst
    obtain ⟨hr, rfl⟩ := hst
    exact inv_terminate h pid hr
  | extra =>
    simp only [system, Option.some.injEq] at hst
    subst hst
    exact ⟨h.counted, h.forked, h.interrupted, fun _ => .inl rfl, h.ended⟩

theorem inv_reachable {N : ℕ} {s : State} (h : (system N).Reachable s) : Inv N s :=
  h.invariant (by rintro s rfl; exact inv_start N) fun _ _ _ hi hst => inv_step hi hst

/-! ### Completeness of the reaping -/

theorem Inv.forked_le {N : ℕ} {s : State} (h : Inv N s) : s.children.forked ≤ N := by
  have hf := h.forked
  cases hpc : s.main <;> simp only [Forked, hpc] at hf <;> omega

theorem Inv.childCnt_eq {N : ℕ} {s : State} (h : Inv N s) :
    s.childCnt = N - s.children.reaped.length + s.owed := by
  have hc := h.counted
  omega

theorem State.owed_nonneg (s : State) : 0 ≤ s.owed := by
  unfold State.owed
  split <;> decide

theorem Inv.childCnt_nonneg {N : ℕ} {s : State} (h : Inv N s) : 0 ≤ s.childCnt := by
  have hc := h.childCnt_eq
  have hl := s.children.length_eq
  have hf := h.forked_le
  have ho := s.owed_nonneg
  omega

theorem Inv.not_stuck {N : ℕ} {s : State} (h : Inv N s) : ¬ s.Stuck := by
  rintro ⟨-, hh, hp, hz⟩
  rcases h.covered hz with hp' | hd
  · rw [hp] at hp'
    contradiction
  · simp [State.Draining, hh] at hd

theorem Inv.all_reaped {N : ℕ} {s : State} (h : Inv N s) (he : s.Ended) :
    s.children.reaped.Perm (List.range N) := by
  have hc := h.childCnt_eq
  have hz := h.ended he
  have ho := s.owed_nonneg
  have hf : s.children.forked = N := by
    have hf := h.forked
    rcases he with he | he <;> simpa only [Forked, he] using hf
  have hp := s.children.reaped_perm (by omega)
  rwa [hf] at hp

/-- Whatever the order of terminations and however SIGCHLDs merge: the count is `N`
less the reaped children, one more while a `child_cnt--` is owed; the parent never
sleeps beside a zombie without a SIGCHLD; and the loop ends with all `N` reaped once. -/
theorem reaping_complete {N : ℕ} {s : State} (h : (system N).Reachable s) :
    s.childCnt = N - s.children.reaped.length + s.owed ∧ 0 ≤ s.childCnt ∧ ¬ s.Stuck ∧
      (s.Ended → s.children.reaped.Perm (List.range N)) :=
  have hi := inv_reachable h
  ⟨hi.childCnt_eq, hi.childCnt_nonneg, hi.not_stuck, hi.all_reaped⟩

/-- Two children end before the one SIGCHLD is delivered, and its handler reaps both. -/
def bothReaped : List Action :=
  .replicate 6 (.main true) ++ [.terminate 0, .terminate 1, .deliver, .handler none, .handler (some 0),
    .handler none, .handler (some 1)]

theorem reaping_complete_two : ∃ s, (system 2).run (start 2) bothReaped = some s ∧ s.sigCnt = 1 ∧
    s.children.reaped.length = 2 ∧ s.childCnt = (2 : ℕ) - s.children.reaped.length + s.owed ∧ ¬ s.Stuck := by
  have hend : ((system 2).run (start 2) bothReaped).map (fun s => (s.sigCnt, s.children.reaped.length)) =
      some (1, 2) := by decide
  obtain ⟨s, hs, hend⟩ := Option.map_eq_some_iff.mp hend
  obtain ⟨hcnt, hlength⟩ := Prod.mk.inj hend
  obtain ⟨hchild, -, hstuck, -⟩ := reaping_complete (System.reachable_of_run (s := start 2) rfl bothReaped hs)
  exact ⟨s, hs, hcnt, hlength, hchild, hstuck⟩

/-- The parent has reaped its only child and not yet counted it. -/
def oneOwed : State :=
  ⟨.suspended, some (.decrement 0), false, 1, 1, ⟨1, [], [], [0], .refl _⟩⟩

theorem childCnt_behind :
    ¬ ∀ (N : ℕ) (s : State), (system N).Reachable s → s.childCnt = N - s.children.reaped.length := by
  intro hall
  have h := hall 1 oneOwed (System.reachable_of_run (s := start 1) rfl
    (.replicate 5 (.main true) ++ [.terminate 0, .deliver, .handler none, .handler (some 0)]) rfl)
  simp [oneOwed] at h

end LinuxApi.WaitBySignal
