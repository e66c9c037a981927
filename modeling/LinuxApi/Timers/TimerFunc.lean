import LinuxApi.Transition.System
import LinuxApi.Transition.History

/-! The loop of `timer_func`. `on_timer` sets `setalarm` and may run between any two steps; the loop tests
it, clears it and counts. A run of `on_timer` between the test and the assignment is cleared away with
the one that the test has found. -/

namespace LinuxApi.TimerFunc

/-- The next step of `timer_func`, up to the end of its loop. -/
inductive Pc where
  | sigaction | setitimer
  | test | print | clear | increment | message | stopTimer
  | getitimer | remain | sleep
  | ended | exited
  deriving DecidableEq

/-- `missed` records that the last run of `on_timer` came between a test that found `setalarm == 1` and
the assignment behind it. -/
structure State where
  pc : Pc
  setalarm : Bool
  loop : ℕ
  missed : Bool
  deriving DecidableEq

/-- `on_timer` runs, or the program takes its next step, whose system call may fail. -/
inductive Action where
  | onTimer
  | main (ok : Bool)
  deriving DecidableEq

/-- `setalarm` has been found set and is not yet cleared. -/
def Pc.inWindow : Pc → Bool
  | .print | .clear => true
  | _ => false

/-- The handler is installed. -/
def Pc.handles : Pc → Bool
  | .sigaction | .exited => false
  | _ => true

/-- One step of the program; the failures of `getitimer` and of the last `setitimer` are only
printed. -/
def mainStep (s : State) (ok : Bool) : Option State :=
  match s.pc, ok with
  | .sigaction, true => some { s with pc := .setitimer }
  | .setitimer, true => some { s with pc := .test }
  | .sigaction, false | .setitimer, false => some { s with pc := .exited }
  | .test, true => some { s with pc := if s.setalarm then .print else .getitimer }
  | .print, true => some { s with pc := .clear }
  | .clear, true => some { s with setalarm := false, pc := .increment }
  | .increment, true =>
    some { s with loop := s.loop + 1, pc := if s.loop + 1 < 5 then .message else .stopTimer }
  | .message, true => some { s with pc := .getitimer }
  | .stopTimer, _ => some { s with pc := .ended }
  | .getitimer, _ => some { s with pc := .remain }
  | .remain, true => some { s with pc := .sleep }
  | .sleep, true => some { s with pc := .test }
  | _, _ => none

def system : System State Action where
  init s := s = ⟨.sigaction, false, 0, false⟩
  step s
    | .onTimer =>
      if s.pc.handles then some { s with setalarm := true, missed := s.pc.inWindow } else none
    | .main ok => mainStep s ok

/-! ### Runs of the handler and increments -/

inductive Event where
  | onTimer | found | increment
  deriving DecidableEq

/-- The events of one step; `found` is a test that finds `setalarm == 1`. -/
def emit (s : State) : Action → List Event
  | .onTimer => [.onTimer]
  | .main _ =>
    match s.pc with
    | .test => if s.setalarm then [.found] else []
    | .increment => [.increment]
    | _ => []

abbrev recorded : System (State × List Event) Action := system.recorded emit

/-- The loop is about to call `getitimer` or `sleep`. -/
def Pc.resting : Pc → Bool
  | .getitimer | .sleep => true
  | _ => false

/-- The loop is over. -/
def Pc.over : Pc → Bool
  | .stopTimer | .ended => true
  | _ => false

/-- Every run of `on_timer` was followed by an increment whose handling began after it. -/
def Served (h : List Event) : Prop := Followed (· = .onTimer) [(· = .found), (· = .increment)] h

/-- Nothing is lost when the loop rests, and the loop is over exactly when `loop` is 5. -/
def Right (p : State × List Event) : Prop :=
  (p.1.pc.resting = true → p.1.setalarm = false → Served p.2) ∧ (p.1.pc.over = true ↔ p.1.loop = 5)

/-- When the loop goes on to `getitimer` the last run of `on_timer` was not one in the window. -/
def noneMissed (p : State × List Event) : Action → Bool
  | .onTimer => true
  | .main _ => p.1.pc = .message → p.1.missed = false

/-- A set `setalarm` is being handled, and not yet counted. -/
def Pc.handling : Pc → Bool
  | .print | .clear | .increment => true
  | _ => false

/-- No handling is under way or has just ended. -/
def Pc.quiet : Pc → Bool
  | .sigaction | .setitimer | .test | .getitimer | .remain | .sleep | .exited => true
  | _ => false

/-- While nothing is missed, a cleared `setalarm` means that all runs have been found, and counted unless
that is still to come. -/
structure Inv (s : State) (h : List Event) : Prop where
  served : s.pc.handling = false → s.setalarm = false → s.missed = false → Served h
  found : s.pc.handling = true → (s.pc = .increment → s.setalarm = false) → s.missed = false →
    Followed (· = .onTimer) [(· = .found)] h
  absent : s.missed = true → Unanswered (· = .onTimer) (· = .found) h
  set : s.pc.inWindow = true → s.setalarm = true
  cleared : s.pc.inWindow = false → s.missed = true → s.setalarm = false
  quiet : s.pc.quiet = true → s.missed = false
  count : s.pc.over = true ∧ s.loop = 5 ∨ s.pc.over = false ∧ s.loop < 5

variable {s t : State} {h : List Event}

theorem inWindow_of_not_handling {pc : Pc} (h : pc.handling = false) : pc.inWindow = false := by
  cases pc <;> first | rfl | cases h

theorem quiet_of_resting {pc : Pc} (h : pc.resting = true) : pc.quiet = true ∧ pc.handling = false := by
  cases pc <;> first | exact ⟨rfl, rfl⟩ | cases h

theorem Inv.right (hi : Inv s h) : Right (s, h) := by
  refine ⟨fun hpc hset => ?_, ?_⟩
  · obtain ⟨hquiet, hhandling⟩ := quiet_of_resting hpc
    exact hi.served hhandling hset (hi.quiet hquiet)
  · rcases hi.count with ⟨ho, hl⟩ | ⟨ho, hl⟩
    · exact iff_of_true ho hl
    · exact iff_of_false (by simp [ho]) (Nat.ne_of_lt hl)

theorem Inv.lt (hi : Inv s h) (hpc : s.pc.over = false) : s.loop < 5 := by
  rcases hi.count with ⟨ho, -⟩ | ⟨-, hl⟩
  · exact Bool.noConfusion (hpc.symm.trans ho)
  · exact hl

/-- A step outside a handling. -/
theorem Inv.goto (hi : Inv s h) {pc : Pc} (hs : s.pc.handling = false) (hpc : pc.handling = false)
    (hquiet : pc.quiet = true → s.missed = false) (hover : pc.over = s.pc.over) :
    Inv { s with pc } h where
  served _ := hi.served hs
  found hh := Bool.noConfusion (hpc.symm.trans hh)
  absent := hi.absent
  set hw := Bool.noConfusion ((inWindow_of_not_handling hpc).symm.trans hw)
  cleared _ := hi.cleared (inWindow_of_not_handling hs)
  quiet := hquiet
  count := by rw [hover]; exact hi.count

theorem Inv.onTimer (hi : Inv s h) :
    Inv { s with setalarm := true, missed := s.pc.inWindow } (h ++ [.onTimer]) where
  served _ hset := Bool.noConfusion hset
  found hh hset hm := by
    have hinc : s.pc = .increment := by
      cases hpc : s.pc <;> simp [hpc, Pc.handling, Pc.inWindow] at hh hm ⊢
    exact Bool.noConfusion (hset hinc)
  absent _ := Unanswered.of_concat rfl
  set _ := rfl
  cleared hw hm := Bool.noConfusion (hw.symm.trans hm)
  quiet hq := by cases hpc : s.pc <;> simp [hpc, Pc.quiet, Pc.inWindow] at hq ⊢
  count := hi.count

/-- The test finds `setalarm` set. -/
theorem Inv.find (hi : Inv s h) (hpc : s.pc = .test) (hset : s.setalarm = true) :
    Inv { s with pc := .print } (h ++ [.found]) where
  served hh := Bool.noConfusion hh
  found _ _ _ := Followed.nil.advance (by simp) rfl
  absent hm := Bool.noConfusion ((hi.quiet (by rw [hpc]; rfl)).symm.trans hm)
  set _ := hset
  cleared hw := Bool.noConfusion hw
  quiet hq := Bool.noConfusion hq
  count := .inr ⟨rfl, hi.lt (by rw [hpc]; rfl)⟩

theorem Inv.printed (hi : Inv s h) (hpc : s.pc = .print) : Inv { s with pc := .clear } h where
  served hh := Bool.noConfusion hh
  found _ _ := hi.found (by rw [hpc]; rfl) (by simp [hpc])
  absent := hi.absent
  set _ := hi.set (by rw [hpc]; rfl)
  cleared hw := Bool.noConfusion hw
  quiet hq := Bool.noConfusion hq
  count := .inr ⟨rfl, hi.lt (by rw [hpc]; rfl)⟩

theorem Inv.clear (hi : Inv s h) (hpc : s.pc = .clear) :
    Inv { s with setalarm := false, pc := .increment } h where
  served hh := Bool.noConfusion hh
  found _ _ := hi.found (by rw [hpc]; rfl) (by simp [hpc])
  absent := hi.absent
  set hw := Bool.noConfusion hw
  cleared _ _ := rfl
  quiet hq := Bool.noConfusion hq
  count := .inr ⟨rfl, hi.lt (by rw [hpc]; rfl)⟩

/-- The increment ends the handling, and the fifth one the loop. -/
theorem Inv.increment (hi : Inv s h) (hpc : s.pc = .increment) :
    Inv { s with loop := s.loop + 1, pc := if s.loop + 1 < 5 then .message else .stopTimer }
      (h ++ [.increment]) := by
  have hlt := hi.lt (by rw [hpc]; rfl)
  have hserved (hset : s.setalarm = false) (hm : s.missed = false) : Served (h ++ [.increment]) :=
    (hi.found (by rw [hpc]; rfl) (fun _ => hset) hm).advance (by simp) rfl
  have habsent (hm : s.missed = true) : Unanswered (· = .onTimer) (· = .found) (h ++ [.increment]) :=
    (hi.absent hm).keep (by simp)
  have hcleared := hi.cleared (by rw [hpc]; rfl)
  split_ifs with hl
  · exact ⟨fun _ => hserved, Bool.noConfusion, habsent, Bool.noConfusion, fun _ => hcleared,
      Bool.noConfusion, .inr ⟨rfl, hl⟩⟩
  · refine ⟨fun _ => hserved, Bool.noConfusion, habsent, Bool.noConfusion, fun _ => hcleared,
      Bool.noConfusion, .inl ⟨rfl, ?_⟩⟩
    show s.loop + 1 = 5
    omega

/-- At `getitimer` something is lost exactly if the last run was missed. -/
theorem right_message_iff (hi : Inv s h) (hpc : s.pc = .message) :
    Right ({ s with pc := .getitimer }, h) ↔ s.missed = false := by
  constructor
  · intro hr
    by_contra hm
    have hm : s.missed = true := Bool.not_eq_false _ ▸ hm
    exact (hi.absent hm).not_followed (hr.1 rfl (hi.cleared (by rw [hpc]; rfl) hm))
  · intro hm
    exact (hi.goto (by rw [hpc]; rfl) rfl (fun _ => hm) (by rw [hpc]; rfl)).right

/-- A step of the program other than the one from `message`. -/
theorem inv_main {ok : Bool} (hi : Inv s h) (hpc : s.pc ≠ .message) (ht : mainStep s ok = some t) :
    Inv t (h ++ emit s (.main ok)) := by
  cases hs : s.pc with
  | sigaction | setitimer =>
    rw [emit, hs, List.append_nil]
    cases ok <;> simp only [mainStep, hs, Option.some.injEq] at ht <;> subst ht
    all_goals exact hi.goto (by rw [hs]; rfl) rfl (fun _ => hi.quiet (by rw [hs]; rfl)) (by rw [hs]; rfl)
  | test =>
    cases ok <;> simp only [mainStep, hs, Option.some.injEq, reduceCtorEq] at ht
    subst ht
    cases hset : s.setalarm with
    | true =>
      simp only [emit, hs, hset, if_true]
      exact hset ▸ hi.find hs hset
    | false =>
      simp only [emit, hs, hset, Bool.false_eq_true, if_false, List.append_nil]
      exact hset ▸ hi.goto (by rw [hs]; rfl) rfl (fun _ => hi.quiet (by rw [hs]; rfl)) (by rw [hs]; rfl)
  | print =>
    rw [emit, hs, List.append_nil]
    cases ok <;> simp only [mainStep, hs, Option.some.injEq, reduceCtorEq] at ht
    exact ht ▸ hi.printed hs
  | clear =>
    rw [emit, hs, List.append_nil]
    cases ok <;> simp only [mainStep, hs, Option.some.injEq, reduceCtorEq] at ht
    exact ht ▸ hi.clear hs
  | increment =>
    rw [emit, hs]
    cases ok <;> simp only [mainStep, hs, Option.some.injEq, reduceCtorEq] at ht
    exact ht ▸ hi.increment hs
  | message => exact absurd hs hpc
  | stopTimer =>
    rw [emit, hs, List.append_nil]
    simp only [mainStep, hs, Option.some.injEq] at ht
    exact ht ▸ hi.goto (by rw [hs]; rfl) rfl Bool.noConfusion (by rw [hs]; rfl)
  | getitimer =>
    rw [emit, hs, List.append_nil]
    simp only [mainStep, hs, Option.some.injEq] at ht
    exact ht ▸ hi.goto (by rw [hs]; rfl) rfl (fun _ => hi.quiet (by rw [hs]; rfl)) (by rw [hs]; rfl)
  | remain | sleep =>
    rw [emit, hs, List.append_nil]
    cases ok <;> simp only [mainStep, hs, Option.some.injEq, reduceCtorEq] at ht
    exact ht ▸ hi.goto (by rw [hs]; rfl) rfl (fun _ => hi.quiet (by rw [hs]; rfl)) (by rw [hs]; rfl)
  | ended | exited => simp [mainStep, hs] at ht

theorem right_step {p q : State × List Event} {a : Action} (hi : Inv p.1 p.2)
    (h : recorded.step p a = some q) :
    (Right q ↔ noneMissed p a = true) ∧ (Right q → Inv q.1 q.2) := by
  obtain ⟨hst, hq⟩ := System.recorded_step_eq_some.mp h
  cases a with
  | onTimer =>
    obtain ⟨-, ht⟩ := Option.ite_none_right_eq_some.mp hst
    have hinv : Inv q.1 q.2 := by
      rw [hq, ← Option.some.inj ht]
      exact hi.onTimer
    exact ⟨iff_of_true hinv.right rfl, fun _ => hinv⟩
  | main ok =>
    by_cases hpc : p.1.pc = .message
    · have hmove : q = ({ p.1 with pc := .getitimer }, p.2) := by
        cases ok <;> simp only [system, mainStep, hpc, Option.some.injEq, reduceCtorEq] at hst
        exact Prod.ext hst.symm (by rw [hq, emit, hpc, List.append_nil])
      have hiff := hmove ▸ right_message_iff hi hpc
      refine ⟨hiff.trans (by simp [noneMissed, hpc]), fun hr => ?_⟩
      rw [hmove]
      exact hi.goto (by rw [hpc]; rfl) rfl (fun _ => hiff.mp hr) (by rw [hpc]; rfl)
    · have hinv : Inv q.1 q.2 := hq ▸ inv_main hi hpc hst
      exact ⟨iff_of_true hinv.right (by simp [noneMissed, hpc]), fun _ => hinv⟩

/-- In a run no timer expiry is lost, and the loop is over exactly when `loop` is 5, exactly if at each
return to `getitimer` the last run of `on_timer` was not one between a test and its assignment. -/
theorem expiries_served_iff {p q : State × List Event} {as : List Action} (hp : recorded.init p)
    (h : recorded.run p as = some q) :
    recorded.Throughout Right p as ↔ recorded.Along noneMissed p as := by
  refine System.throughout_iff_along (I := fun p => Inv p.1 p.2) (fun _ hi => hi.right) ?_ ?_ h
  · intro p a q hi hst
    exact right_step hi hst
  · obtain ⟨hs, hh⟩ := hp
    rw [hs, hh]
    refine ⟨fun _ _ _ => Followed.of_none ?_, Bool.noConfusion, Bool.noConfusion, Bool.noConfusion,
      fun _ => Bool.noConfusion, fun _ => rfl, .inr ⟨rfl, by decide⟩⟩
    exact fun e he => absurd he List.not_mem_nil

/-- One expiry during `sleep` and one inside the window, which is made good by a third one. -/
theorem expiries_served_iff_third : ∃ as q,
    as = [.replicate 5 (.main true), [.onTimer], .replicate 2 (.main true), [.onTimer],
      .replicate 2 (.main true), [.onTimer], .replicate 2 (.main true)].flatten ∧
    recorded.run (⟨.sigaction, false, 0, false⟩, []) as = some q ∧ q.1.pc = .getitimer ∧
    q.1.loop = 1 ∧ (recorded.Throughout Right (⟨.sigaction, false, 0, false⟩, []) as ↔
      recorded.Along noneMissed (⟨.sigaction, false, 0, false⟩, []) as) :=
  ⟨_, _, rfl, rfl, rfl, rfl, expiries_served_iff ⟨rfl, rfl⟩ rfl⟩

/-- An expiry between the `printf` and the assignment is lost. -/
theorem not_right_in_window : ¬∀ p, recorded.Reachable p → Right p := by
  intro h
  have hrun := System.reachable_of_run (S := recorded) (s := (⟨.sigaction, false, 0, false⟩, []))
    ⟨rfl, rfl⟩ ([.replicate 5 (.main true), [.onTimer], .replicate 2 (.main true), [.onTimer],
      .replicate 4 (.main true)].flatten) rfl
  have hlast : Unanswered (· = Event.onTimer) (· = Event.found)
      [Event.onTimer, .found, .onTimer, .increment] :=
    ⟨[.onTimer, .found], .onTimer, [.increment], rfl, rfl, by decide⟩
  exact hlast.not_followed ((h _ hrun).1 rfl rfl)

end LinuxApi.TimerFunc
