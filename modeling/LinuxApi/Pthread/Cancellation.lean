import LinuxApi.Kernel.Heap
import LinuxApi.Transition.System
import Mathlib.Data.Finset.Option

/-! `pthread_cancellation` with `thread_func_cleanup`, and with `thread_func`, which it has commented out. The
thread allocates a block in every round, and a request to cancel it, which may come at any time, is acted on
in `sleep` or `printf`, where the block is allocated. -/

namespace LinuxApi.Cancellation

/-- The number of rounds. -/
def rounds : ℕ := 10

/-- A call of `printf`, by the line it is to print. -/
inductive Line where
  | count (i : ℕ)
  | cleanup
  | canceled
  deriving DecidableEq

def Line.text : Line → String
  | .count i => s!"count = {i}\n"
  | .cleanup => "cleanup function\n"
  | .canceled => "Thread was canceled\n"

/-- Where the thread is. `printing` is inside its `printf`, `unwind` runs the cleanup handlers of a cancelled thread,
`handlerPrint` is inside `cleanup_func` behind its `free`, and the last two follow the end. -/
inductive Pc where
  | test | malloc | push | sleep | print | printing | pop | free | increment
  | unwind | handlerPrint
  | canceled | returned
  deriving DecidableEq

/-- Where `pthread_cancellation` is. -/
inductive MainPc where
  | sleep | join | test | done
  deriving DecidableEq

/-- What `pthread_join` stores in `retval`. -/
inductive Result where
  | null | canceled
  deriving DecidableEq

/-- `handlers` are the arguments of the installed cleanup handlers, innermost first, `requested` is a request that the
thread has not acted on, and `printfs` has the calls of `printf` as they begin. How much of a line is written when the
thread is cancelled inside its `printf` is left open. -/
structure State where
  pc : Pc
  i : ℕ
  arr : Option ℕ
  handlers : List (Option ℕ)
  heap : Heap
  requested : Bool
  main : MainPc
  retval : Option Result
  printfs : List Line

/-- A step of the thread with the result of its `malloc`, the thread acting on a request, and a step of
`pthread_cancellation`. -/
inductive Action where
  | thread (ok : Bool)
  | cancel
  | main
  deriving DecidableEq

/-- The thread function, with the cleanup handler or without; a `sleep` does not come to its end when a
request is there. -/
def threadStep (cleanup : Bool) (s : State) (ok : Bool) : Option State :=
  match s.pc with
  | .test => some { s with pc := if s.i < rounds then .malloc else .returned }
  | .malloc => some { s with
      arr := (s.heap.malloc ok).1
      heap := (s.heap.malloc ok).2
      pc := if cleanup then .push else .sleep }
  | .push => some { s with handlers := s.arr :: s.handlers, pc := .sleep }
  | .sleep => if s.requested then none else some { s with pc := .print }
  | .print => some { s with printfs := s.printfs ++ [.count s.i], pc := .printing }
  | .printing => some { s with pc := if cleanup then .pop else .free }
  | .pop => some { s with handlers := s.handlers.tail, pc := .free }
  | .free => some { s with heap := s.heap.free s.arr, pc := .increment }
  | .increment => some { s with i := s.i + 1, pc := .test }
  | .unwind =>
    match s.handlers with
    | [] => some { s with pc := .canceled }
    | arg :: rest => some { s with heap := s.heap.free arg, handlers := rest, pc := .handlerPrint }
  | .handlerPrint => some { s with printfs := s.printfs ++ [.cleanup], pc := .unwind }
  | .canceled | .returned => none

/-- The cancellation points are `sleep` and `printf`. -/
def cancelStep (s : State) : Option State :=
  if s.requested ∧ (s.pc = .sleep ∨ s.pc = .printing) then
    some { s with requested := false, pc := .unwind }
  else none

/-- The thread has not ended. -/
def Pc.running : Pc → Bool
  | .canceled | .returned => false
  | _ => true

/-- `pthread_cancellation` behind `pthread_create`; its `sleep` may take any time. -/
def mainStep (s : State) : Option State :=
  match s.main with
  | .sleep => some { s with requested := s.pc.running, main := .join }
  | .join =>
    match s.pc with
    | .canceled => some { s with retval := some .canceled, main := .test }
    | .returned => some { s with retval := some .null, main := .test }
    | _ => none
  | .test => some { s with
      printfs := if s.retval = some .canceled then s.printfs ++ [.canceled] else s.printfs
      main := .done }
  | .done => none

/-- With what `arr` and `retval` hold at first. -/
def system (cleanup : Bool) : System State Action where
  init s := s = ⟨.test, 0, s.arr, [], .empty, false, .sleep, s.retval, []⟩
  step s
    | .thread ok => threadStep cleanup s ok
    | .cancel => cancelStep s
    | .main => mainStep s

/-- `thread_func` -/
def threadFunc : System State Action := system false

/-- The block of the round. A cancelled thread holds on to it unless a cleanup handler has freed it. -/
def held (cleanup : Bool) (s : State) : Option ℕ :=
  match s.pc with
  | .push | .sleep | .print | .printing | .pop | .free => s.arr
  | .unwind => if cleanup && s.handlers.isEmpty then none else s.arr
  | .canceled => if cleanup then none else s.arr
  | _ => none

/-- The calls about the first rounds. -/
def counts (n : ℕ) : List Line := (List.range n).map .count

/-- How many rounds have called `printf`. -/
def Begun (s : State) (n : ℕ) : Prop :=
  match s.pc with
  | .printing | .pop | .free | .increment => n = s.i + 1
  | .unwind | .handlerPrint | .canceled => n = s.i ∨ n = s.i + 1
  | _ => n = s.i

/-- Whether `cleanup_func` has called it. -/
def cleaned (cleanup : Bool) (s : State) : List Line :=
  match s.pc with
  | .unwind => if cleanup && s.handlers.isEmpty then [.cleanup] else []
  | .canceled => if cleanup then [.cleanup] else []
  | _ => []

/-- The calls of the thread. -/
def Printed (cleanup : Bool) (s : State) (out : List Line) : Prop :=
  ∃ n, Begun s n ∧ out = counts n ++ cleaned cleanup s

/-- The handlers installed where the thread is. -/
def Installed (cleanup : Bool) (s : State) : Prop :=
  match s.pc with
  | .sleep | .print | .printing => s.handlers = if cleanup then [s.arr] else []
  | .pop => s.handlers = [s.arr]
  | .unwind => s.handlers = [] ∨ cleanup = true ∧ s.handlers = [s.arr]
  | _ => s.handlers = []

/-- How far the loop is. -/
def InRound (s : State) : Prop :=
  match s.pc with
  | .test => s.i ≤ rounds
  | .returned => s.i = rounds
  | _ => s.i < rounds

/-- The value that the end of the thread gives. -/
def Pc.result : Pc → Option Result
  | .canceled => some .canceled
  | .returned => some .null
  | _ => none

/-- `pthread_join` waits for the end, and what is printed at last depends on it. -/
def Joined (cleanup : Bool) (s : State) : Prop :=
  match s.main with
  | .sleep | .join => Printed cleanup s s.printfs
  | .test => Printed cleanup s s.printfs ∧ s.pc.running = false ∧ s.retval = s.pc.result
  | .done => s.pc.running = false ∧ s.retval = s.pc.result ∧ ∃ out, Printed cleanup s out ∧
      s.printfs = out ++ if s.pc = .canceled then [.canceled] else []

structure Inv (cleanup : Bool) (s : State) : Prop where
  owned : s.heap.OwnedBy fun _ : Unit => held cleanup s
  installed : Installed cleanup s
  round : InRound s
  joined : Joined cleanup s
  only : cleanup = false → s.pc ≠ .push ∧ s.pc ≠ .pop ∧ s.pc ≠ .handlerPrint

variable {cleanup : Bool} {s t : State}

theorem counts_succ (n : ℕ) : counts (n + 1) = counts n ++ [.count n] := by
  rw [counts, counts, List.range_succ, List.map_append, List.map_singleton]

theorem update_unit {α : Type*} (f : Unit → α) (a : α) : Function.update f () a = fun _ => a := by
  funext u
  exact Function.update_self ..

/-- While the thread runs nobody else prints. -/
theorem Inv.waiting (hi : Inv cleanup s) (hr : s.pc.running = true) :
    (s.main = .sleep ∨ s.main = .join) ∧ Printed cleanup s s.printfs := by
  have hj := hi.joined
  unfold Joined at hj
  cases hm : s.main with
  | sleep =>
    rw [hm] at hj
    exact ⟨.inl rfl, hj⟩
  | join =>
    rw [hm] at hj
    exact ⟨.inr rfl, hj⟩
  | test =>
    simp only [hm] at hj
    rw [hj.2.1] at hr
    cases hr
  | done =>
    simp only [hm] at hj
    rw [hj.1] at hr
    cases hr

theorem joined_of_waiting (hm : t.main = .sleep ∨ t.main = .join) (hp : Printed cleanup t t.printfs) :
    Joined cleanup t := by
  unfold Joined
  rcases hm with hm | hm <;> rw [hm] <;> exact hp

/-- The two calls that change the heap. -/
theorem owned_malloc (hi : Inv cleanup s) (hn : held cleanup s = none) (ok : Bool) :
    (s.heap.malloc ok).2.OwnedBy fun _ : Unit => (s.heap.malloc ok).1 := by
  have h := hi.owned.malloc (i := ()) hn ok
  rwa [update_unit] at h

theorem owned_free (hi : Inv cleanup s) :
    (s.heap.free (held cleanup s)).OwnedBy fun _ : Unit => none := by
  have h := hi.owned.free ()
  rwa [update_unit] at h

theorem running_of_threadStep {ok : Bool} (h : threadStep cleanup s ok = some t) : s.pc.running = true := by
  unfold threadStep at h
  cases hpc : s.pc with
  | canceled | returned => simp [hpc] at h
  | _ => rfl

theorem Inv.thread_step (hi : Inv cleanup s) {ok : Bool} (h : threadStep cleanup s ok = some t) :
    Inv cleanup t := by
  obtain ⟨hm, n, hn, hout⟩ := hi.waiting (running_of_threadStep h)
  have howned := hi.owned
  have hfree := owned_free hi
  have hinstalled := hi.installed
  have hround := hi.round
  have honly := hi.only
  unfold threadStep at h
  unfold held at howned hfree
  unfold Installed at hinstalled
  unfold InRound at hround
  unfold Begun at hn
  unfold cleaned at hout
  cases hpc : s.pc with
  | test =>
    simp only [hpc, Option.some.injEq] at h howned hinstalled hround hn hout
    subst h
    by_cases hlt : s.i < rounds
    · simp only [if_pos hlt]
      exact ⟨howned, hinstalled, hlt, joined_of_waiting hm ⟨n, hn, hout⟩, by simp⟩
    · simp only [if_neg hlt]
      exact ⟨howned, hinstalled, Nat.le_antisymm hround (Nat.le_of_not_lt hlt),
        joined_of_waiting hm ⟨n, hn, hout⟩, by simp⟩
  | malloc =>
    simp only [hpc, Option.some.injEq] at h hinstalled hround hn hout
    subst h
    have hnew := owned_malloc hi (by rw [held, hpc]) ok
    cases cleanup with
    | true => exact ⟨hnew, hinstalled, hround, joined_of_waiting hm ⟨n, hn, hout⟩, by simp⟩
    | false => exact ⟨hnew, hinstalled, hround, joined_of_waiting hm ⟨n, hn, hout⟩, by simp⟩
  | push =>
    simp only [hpc, Option.some.injEq] at h howned hinstalled hround hn hout
    subst h
    cases cleanup with
    | true =>
      refine ⟨howned, ?_, hround, joined_of_waiting hm ⟨n, hn, hout⟩, by simp⟩
      show s.arr :: s.handlers = [s.arr]
      rw [hinstalled]
    | false => exact absurd hpc (honly rfl).1
  | sleep =>
    simp only [hpc] at h howned hinstalled hround hn hout
    split_ifs at h
    cases h
    exact ⟨howned, hinstalled, hround, joined_of_waiting hm ⟨n, hn, hout⟩, by simp⟩
  | print =>
    simp only [hpc, Option.some.injEq] at h howned hinstalled hround hn hout
    subst h
    refine ⟨howned, hinstalled, hround, joined_of_waiting hm ⟨s.i + 1, rfl, ?_⟩, by simp⟩
    show s.printfs ++ [.count s.i] = counts (s.i + 1) ++ []
    rw [hout, hn, counts_succ, List.append_nil, List.append_nil]
  | printing =>
    simp only [hpc, Option.some.injEq] at h howned hinstalled hround hn hout
    subst h
    cases cleanup with
    | true => exact ⟨howned, hinstalled, hround, joined_of_waiting hm ⟨n, hn, hout⟩, by simp⟩
    | false => exact ⟨howned, hinstalled, hround, joined_of_waiting hm ⟨n, hn, hout⟩, by simp⟩
  | pop =>
    simp only [hpc, Option.some.injEq] at h howned hinstalled hround hn hout
    subst h
    refine ⟨howned, ?_, hround, joined_of_waiting hm ⟨n, hn, hout⟩, by simp⟩
    show s.handlers.tail = []
    rw [hinstalled]
    rfl
  | free =>
    simp only [hpc, Option.some.injEq] at h hfree hinstalled hround hn hout
    subst h
    exact ⟨hfree, hinstalled, hround, joined_of_waiting hm ⟨n, hn, hout⟩, by simp⟩
  | increment =>
    simp only [hpc, Option.some.injEq] at h howned hinstalled hround hn hout
    subst h
    exact ⟨howned, hinstalled, hround, joined_of_waiting hm ⟨n, hn, hout⟩, by simp⟩
  | unwind =>
    simp only [hpc] at h howned hfree hinstalled hround hn hout
    cases hh : s.handlers with
    | nil =>
      simp only [hh, Option.some.injEq] at h
      subst h
      simp only [hh, List.isEmpty_nil, Bool.and_true] at howned hout
      exact ⟨howned, rfl, hround, joined_of_waiting hm ⟨n, hn, hout⟩, by simp⟩
    | cons arg rest =>
      simp only [hh, Option.some.injEq] at h
      subst h
      rw [hh] at hinstalled
      obtain ⟨rfl, hlist⟩ := hinstalled.resolve_left (List.cons_ne_nil _ _)
      obtain ⟨rfl, rfl⟩ := List.cons.inj hlist
      simp only [hh, List.isEmpty_cons, Bool.and_false, Bool.false_eq_true, if_false] at hfree hout
      exact ⟨hfree, rfl, hround, joined_of_waiting hm ⟨n, hn, hout⟩, by simp⟩
  | handlerPrint =>
    simp only [hpc, Option.some.injEq] at h howned hinstalled hround hn hout
    subst h
    cases cleanup with
    | true =>
      have hempty : s.handlers.isEmpty = true := by rw [hinstalled]; rfl
      refine ⟨?_, .inl hinstalled, hround, joined_of_waiting hm ⟨n, hn, ?_⟩, by simp⟩
      · simp only [held, hempty, Bool.and_true, if_true]
        exact howned
      · simp only [cleaned, hempty, Bool.and_true, if_true]
        rw [hout, List.append_nil]
    | false => exact absurd hpc (honly rfl).2.2
  | canceled | returned => simp [hpc] at h

/-- A request is acted on while the handler is installed. -/
theorem Inv.cancel_step (hi : Inv cleanup s) (h : cancelStep s = some t) : Inv cleanup t := by
  obtain ⟨⟨-, hpoint⟩, h⟩ := Option.ite_none_right_eq_some.mp h
  cases h
  have hr : s.pc.running = true := by rcases hpoint with hpc | hpc <;> rw [hpc] <;> rfl
  obtain ⟨hm, n, hn, hout⟩ := hi.waiting hr
  have howned := hi.owned
  have hinstalled : s.handlers = if cleanup then [s.arr] else [] := by
    have h := hi.installed
    unfold Installed at h
    rcases hpoint with hpc | hpc <;> rw [hpc] at h <;> exact h
  have hround : s.i < rounds := by
    have h := hi.round
    unfold InRound at h
    rcases hpoint with hpc | hpc <;> rw [hpc] at h <;> exact h
  have hempty : (cleanup && s.handlers.isEmpty) = false := by
    rw [hinstalled]
    cases cleanup <;> rfl
  have hheld : held cleanup s = s.arr := by rcases hpoint with hpc | hpc <;> rw [held, hpc]
  have hcleaned : cleaned cleanup s = [] := by rcases hpoint with hpc | hpc <;> rw [cleaned, hpc]
  have hbegun : n = s.i ∨ n = s.i + 1 := by
    unfold Begun at hn
    rcases hpoint with hpc | hpc <;> rw [hpc] at hn
    · exact .inl hn
    · exact .inr hn
  refine ⟨?_, ?_, hround, joined_of_waiting hm ⟨n, hbegun, ?_⟩, by simp⟩
  · simp only [held, hempty, Bool.false_eq_true, if_false]
    rwa [hheld] at howned
  · show s.handlers = [] ∨ cleanup = true ∧ s.handlers = [s.arr]
    rw [hinstalled]
    cases cleanup with
    | true => exact .inr ⟨rfl, rfl⟩
    | false => exact .inl rfl
  · simp only [cleaned, hempty, Bool.false_eq_true, if_false]
    rw [hout, hcleaned]

theorem Inv.main_step (hi : Inv cleanup s) (h : mainStep s = some t) : Inv cleanup t := by
  have hj := hi.joined
  unfold mainStep at h
  unfold Joined at hj
  cases hm : s.main with
  | sleep =>
    simp only [hm, Option.some.injEq] at h hj
    subst h
    exact ⟨hi.owned, hi.installed, hi.round, hj, hi.only⟩
  | join =>
    simp only [hm] at h hj
    have hended : ∀ r, s.pc.running = false → some r = s.pc.result →
        Inv cleanup { s with retval := some r, main := .test } :=
      fun r hr hresult => ⟨hi.owned, hi.installed, hi.round, ⟨hj, hr, hresult⟩, hi.only⟩
    split at h
    · rename_i hpc
      cases h
      exact hended .canceled (by rw [hpc]; rfl) (by rw [hpc]; rfl)
    · rename_i hpc
      cases h
      exact hended .null (by rw [hpc]; rfl) (by rw [hpc]; rfl)
    · cases h
  | test =>
    simp only [hm, Option.some.injEq] at h hj
    obtain ⟨hout, hr, hretval⟩ := hj
    subst h
    refine ⟨hi.owned, hi.installed, hi.round, ⟨hr, hretval, s.printfs, hout, ?_⟩, hi.only⟩
    show (if s.retval = some .canceled then s.printfs ++ [.canceled] else s.printfs) =
      s.printfs ++ if s.pc = .canceled then [.canceled] else []
    rw [hretval]
    cases hpc : s.pc with
    | canceled => rfl
    | returned => exact (List.append_nil _).symm
    | _ => simp [hpc, Pc.running] at hr
  | done => simp [hm] at h

theorem Inv.step (hi : Inv cleanup s) {a : Action} (h : (system cleanup).step s a = some t) :
    Inv cleanup t := by
  cases a with
  | thread ok => exact hi.thread_step h
  | cancel => exact hi.cancel_step h
  | main => exact hi.main_step h

theorem inv_reachable (h : (system cleanup).Reachable s) : Inv cleanup s := by
  refine h.invariant (I := Inv cleanup) (fun s hs => ?_) fun s a t hi ht => hi.step ht
  have hs : s = _ := hs
  rw [hs]
  exact ⟨Heap.ownedBy_empty, rfl, Nat.zero_le _, ⟨0, rfl, rfl⟩, by simp⟩

/-! ### The end -/

/-- The steps of the thread that are left. -/
def State.threadWork (s : State) : ℕ :=
  match s.pc with
  | .test => 9 * (rounds - s.i) + 4
  | .malloc => 9 * (rounds - s.i) + 3
  | .push => 9 * (rounds - s.i) + 2
  | .sleep => 9 * (rounds - s.i) + 1
  | .print => 9 * (rounds - s.i)
  | .printing => 9 * (rounds - s.i) - 1
  | .pop => 9 * (rounds - s.i) - 2
  | .free => 9 * (rounds - s.i) - 3
  | .increment => 9 * (rounds - s.i) - 4
  | .unwind => 2 * s.handlers.length + 1
  | .handlerPrint => 2 * s.handlers.length + 2
  | .canceled | .returned => 0

def MainPc.work : MainPc → ℕ
  | .sleep => 3
  | .join => 2
  | .test => 1
  | .done => 0

def State.work (s : State) : ℕ := s.threadWork + s.main.work

theorem Inv.lt_rounds (hi : Inv cleanup s) (hr : s.pc.running = true) (ht : s.pc ≠ .test) :
    s.i < rounds := by
  have h := hi.round
  unfold InRound at h
  cases hpc : s.pc with
  | test => exact absurd hpc ht
  | returned => simp [hpc, Pc.running] at hr
  | _ =>
    rw [hpc] at h
    exact h

theorem work_step (hi : Inv cleanup s) {a : Action} (h : (system cleanup).step s a = some t) :
    t.work < s.work := by
  cases a with
  | thread ok =>
    have h : threadStep cleanup s ok = some t := h
    have hlt := hi.lt_rounds
    unfold threadStep at h
    unfold State.work State.threadWork
    cases hpc : s.pc with
    | test =>
      simp only [hpc, Option.some.injEq] at h
      subst h
      by_cases hlt : s.i < rounds <;> simp only [hlt, if_true, if_false] <;> omega
    | malloc | printing =>
      have hlt := hlt (by rw [hpc]; rfl) (by rw [hpc]; simp)
      simp only [hpc, Option.some.injEq] at h
      subst h
      cases cleanup <;> simp only [Bool.false_eq_true, if_true, if_false] <;> omega
    | push | print | pop | free | increment =>
      have hlt := hlt (by rw [hpc]; rfl) (by rw [hpc]; simp)
      simp only [hpc, Option.some.injEq] at h
      subst h
      simp only
      omega
    | sleep =>
      simp only [hpc] at h
      split_ifs at h
      cases h
      simp only
      omega
    | unwind =>
      simp only [hpc] at h
      split at h
      · cases h
        simp only
        omega
      · rename_i hh
        cases h
        simp only [hh, List.length_cons]
        omega
    | handlerPrint =>
      simp only [hpc, Option.some.injEq] at h
      subst h
      simp only
      omega
    | canceled | returned => simp [hpc] at h
  | cancel =>
    obtain ⟨⟨-, hpoint⟩, h⟩ := Option.ite_none_right_eq_some.mp h
    cases h
    have hlt : s.i < rounds := by
      apply hi.lt_rounds <;> rcases hpoint with hpc | hpc <;> rw [hpc] <;> simp [Pc.running]
    have hhandlers : s.handlers.length ≤ 1 := by
      have hinst := hi.installed
      unfold Installed at hinst
      rcases hpoint with hpc | hpc <;> rw [hpc] at hinst <;> simp only at hinst <;> rw [hinst] <;>
        cases cleanup <;> simp
    unfold State.work State.threadWork
    rcases hpoint with hpc | hpc <;> simp only [hpc] <;> omega
  | main =>
    have h : mainStep s = some t := h
    unfold mainStep at h
    cases hm : s.main with
    | sleep =>
      simp only [hm, Option.some.injEq] at h
      subst h
      simp [State.work, State.threadWork, hm, MainPc.work]
    | join =>
      simp only [hm] at h
      split at h
      · cases h
        simp [State.work, State.threadWork, hm, MainPc.work]
      · cases h
        simp [State.work, State.threadWork, hm, MainPc.work]
      · cases h
    | test =>
      simp only [hm, Option.some.injEq] at h
      subst h
      simp [State.work, State.threadWork, hm, MainPc.work]
    | done => simp [hm] at h

/-- What is left when `pthread_cancellation` is done. -/
structure Outcome (cleanup : Bool) (s : State) : Prop where
  retval : s.retval = some .canceled ∨ s.retval = some .null
  canceled : s.retval = some .canceled → s.i < rounds ∧ ∃ n, (n = s.i ∨ n = s.i + 1) ∧
    s.printfs = counts n ++ (if cleanup then [.cleanup] else []) ++ [.canceled]
  returned : s.retval = some .null → s.printfs = counts rounds ∧ s.heap.live = ∅

theorem Inv.outcome (hi : Inv cleanup s) (hm : s.main = .done) : Outcome cleanup s := by
  have hj := hi.joined
  have hround := hi.round
  unfold Joined at hj
  unfold InRound at hround
  simp only [hm] at hj
  obtain ⟨hr, hretval, out, ⟨n, hn, hout⟩, hprintfs⟩ := hj
  unfold Begun at hn
  cases hpc : s.pc with
  | canceled =>
    rw [hpc] at hretval hround hn
    rw [cleaned, hpc] at hout
    rw [hpc, hout, if_pos rfl] at hprintfs
    refine ⟨.inl hretval, fun _ => ⟨hround, n, hn, hprintfs⟩, fun h => ?_⟩
    rw [hretval] at h
    cases h
  | returned =>
    rw [hpc] at hretval hround hn
    rw [cleaned, hpc] at hout
    have hn : n = s.i := hn
    have hround : s.i = rounds := hround
    refine ⟨.inr hretval, fun h => ?_, fun _ => ⟨?_, hi.owned.live_eq_empty fun _ => by rw [held, hpc]⟩⟩
    · rw [hretval] at h
      cases h
    · rw [hprintfs, hout, hn, hround, hpc]
      rfl
  | _ => simp [hpc, Pc.running] at hr

end LinuxApi.Cancellation
