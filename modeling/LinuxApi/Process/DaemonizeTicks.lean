import LinuxApi.Process.Daemonize
import Mathlib.Data.Int.Init

/-! The time that `process_daemonize` sleeps. However often a SIGHUP cuts a `sleep` short, what is left
of the five seconds is carried over in `unslept`. At the head of the loop `count` is the quotient by five
of the time slept, and `unslept` what the remainder leaves of five. -/

namespace LinuxApi.Daemonize

/-- A `sleep` has lasted for `d` seconds, or `log_message` is called with a count. -/
inductive Tick where
  | slept (d : ℕ)
  | message (count : ℕ)
  deriving DecidableEq

/-- The time slept is what was requested without what was returned. -/
def ticks (s : State) : Action → List Tick
  | .hup => []
  | .wake r => [.slept (s.unslept - r)]
  | .main _ => if s.pc = .message then [.message s.count] else []

/-- The total time slept. -/
def slept : List Tick → ℕ
  | [] => 0
  | .slept d :: h => d + slept h
  | .message _ :: h => slept h

/-- The counts of the messages. -/
def messages : List Tick → List ℕ
  | [] => []
  | .slept _ :: h => messages h
  | .message k :: h => k :: messages h

/-- The loop has been entered and not left. -/
def Pc.looping : Pc → Bool
  | .becomeDaemon | .openCall .start | .openFile .start | .openWrite .start | .exited => false
  | _ => true

/-- The first `sleep` is still to come. -/
def Pc.starting : Pc → Bool
  | .becomeDaemon | .openCall .start | .openFile .start | .openWrite .start => true
  | _ => false

/-- How many messages there have been: between its increment and the call `count` is ahead of them. -/
def State.sent (s : State) : ℕ := if s.pc = .message then s.count - 1 else s.count

/-- Every message has come after five seconds for each so far. -/
def Paced (h : List Tick) : Prop := ∀ pre k post, h = pre ++ .message k :: post → slept pre = 5 * k

/-- The messages and the time slept, as the variables have them. -/
structure Accounts (s : State) (h : List Tick) : Prop where
  start : s.pc.starting = true → s.count = 0 ∧ slept h = 0
  balance : s.pc.looping = true → 5 * s.sent + 5 = slept h + s.unslept ∧ s.unslept ≤ 5
  due : s.pc = .message → 0 < s.count ∧ s.unslept = 0
  rest : s.pc = .sleep → 0 < s.unslept
  numbered : messages h = List.range' 1 s.sent
  paced : Paced h

variable {s t : State} {h : List Tick} {ok : Bool}

/-! ### Histories -/

theorem slept_append (h later : List Tick) : slept (h ++ later) = slept h + slept later := by
  induction h with
  | nil => exact (Nat.zero_add _).symm
  | cons e h ih =>
    cases e with
    | slept d => rw [List.cons_append, slept, slept, ih, Nat.add_assoc]
    | message k => rw [List.cons_append, slept, slept, ih]

theorem messages_append (h later : List Tick) :
    messages (h ++ later) = messages h ++ messages later := by
  induction h with
  | nil => rfl
  | cons e h ih =>
    cases e with
    | slept d => rw [List.cons_append, messages, messages, ih]
    | message k => rw [List.cons_append, messages, messages, ih, List.cons_append]

theorem Paced.slept (hp : Paced h) (d : ℕ) : Paced (h ++ [.slept d]) := by
  intro pre k post heq
  rcases eq_append_concat heq with ⟨-, he⟩ | ⟨mid, -, rfl⟩
  · cases he
  · exact hp pre k mid rfl

theorem Paced.message (hp : Paced h) {k : ℕ} (hk : Daemonize.slept h = 5 * k) :
    Paced (h ++ [.message k]) := by
  intro pre k' post heq
  rcases eq_append_concat heq with ⟨rfl, he⟩ | ⟨mid, -, rfl⟩
  · obtain rfl : k' = k := Tick.message.inj he
    obtain ⟨rfl, -⟩ := List.append_inj' heq rfl
    exact hk
  · exact hp pre k' mid rfl

/-! ### One step -/

/-- What a step of the program can do to `count` and `unslept`, and where it goes. -/
theorem mainStep_cases (hst : mainStep s ok = some t) :
    (s.pc = .tick ∧ s.unslept = 0 ∧ t = { s with count := s.count + 1, pc := .message }) ∨
      (s.pc = .tick ∧ s.unslept ≠ 0 ∧ t = { s with pc := .sleep }) ∨
      (s.pc = .message ∧ t = { s with unslept := sleepTime, pc := .sleep }) ∨
      (s.pc = .openWrite .start ∧ t = { s with unslept := sleepTime, pc := .sleep }) ∨
      (s.pc ≠ .message ∧ t.pc ≠ .message ∧ t.pc ≠ .sleep ∧ t.count = s.count ∧ t.unslept = s.unslept ∧
        (t.pc.looping = true → s.pc.looping = true) ∧
        (t.pc.starting = true → s.pc.starting = true)) := by
  cases hpc : s.pc with
  | tick =>
    cases ok <;> simp only [mainStep, hpc, reduceCtorEq] at hst
    split_ifs at hst with hu <;> obtain rfl := Option.some.inj hst
    · exact .inl ⟨rfl, hu, rfl⟩
    · exact .inr (.inl ⟨rfl, hu, rfl⟩)
  | message =>
    simp only [mainStep, hpc, Option.some.injEq] at hst
    exact .inr (.inr (.inl ⟨rfl, hst.symm⟩))
  | openCall c | openFile c =>
    cases c <;> cases ok <;> simp only [mainStep, hpc, reduceCtorEq, Option.some.injEq] at hst <;>
      subst hst <;> simp [Pc.looping, Pc.starting]
  | openWrite c =>
    simp only [mainStep, hpc, Option.some.injEq] at hst
    cases c with
    | start => exact .inr (.inr (.inr (.inl ⟨rfl, hst.symm⟩)))
    | loop => subst hst; simp [afterOpen, Pc.looping, Pc.starting]
  | test | closeTest =>
    cases ok <;> simp only [mainStep, hpc, reduceCtorEq, Option.some.injEq] at hst
    subst hst
    simp only
    split_ifs <;> simp [Pc.looping, Pc.starting]
  | sleeping | exited => cases ok <;> simp [mainStep, hpc] at hst
  | becomeDaemon | sleep | closeWrite | closeFile | clear =>
    cases ok <;> simp only [mainStep, hpc, reduceCtorEq, Option.some.injEq] at hst <;> subst hst <;>
      simp [Pc.looping, Pc.starting]

/-- A step that leaves `count` and `unslept`, and logs nothing, keeps the accounts. -/
theorem Accounts.quiet (ha : Accounts s h) (hs : s.pc ≠ .message) (ht : t.pc ≠ .message)
    (hsleep : t.pc ≠ .sleep) (hc : t.count = s.count) (hu : t.unslept = s.unslept)
    (hloop : t.pc.looping = true → s.pc.looping = true)
    (hstart : t.pc.starting = true → s.pc.starting = true) : Accounts t h := by
  have hsent : t.sent = s.sent := by rw [State.sent, State.sent, if_neg hs, if_neg ht, hc]
  constructor
  case start => exact fun hp => hc ▸ ha.start (hstart hp)
  case balance => exact fun hp => by rw [hsent, hu]; exact ha.balance (hloop hp)
  case due => exact fun hp => absurd hp ht
  case rest => exact fun hp => absurd hp hsleep
  case numbered => rw [hsent]; exact ha.numbered
  case paced => exact ha.paced

theorem Pc.not_starting {pc : Pc} (h : pc.looping = true) : pc.starting = false := by
  cases pc with
  | openCall c | openFile c | openWrite c => cases c <;> first | rfl | cases h
  | _ => first | rfl | cases h

/-- Except for a message that is due, what there is to show of a state in the loop. -/
theorem Accounts.of_loop (hloop : t.pc.looping = true) (hpc : t.pc ≠ .message)
    (hbal : 5 * t.count + 5 = slept h + t.unslept) (hle : t.unslept ≤ 5)
    (hrest : t.pc = .sleep → 0 < t.unslept) (hnum : messages h = List.range' 1 t.count)
    (hp : Paced h) : Accounts t h := by
  have hsent : t.sent = t.count := if_neg hpc
  constructor
  case start =>
    intro hstart
    rw [Pc.not_starting hloop] at hstart
    cases hstart
  case balance => exact fun _ => by rw [hsent]; exact ⟨hbal, hle⟩
  case due => exact fun hm => absurd hm hpc
  case rest => exact hrest
  case numbered => rw [hsent]; exact hnum
  case paced => exact hp

theorem Accounts.balance_of_ne (ha : Accounts s h) (hloop : s.pc.looping = true)
    (hpc : s.pc ≠ .message) : 5 * s.count + 5 = slept h + s.unslept ∧ s.unslept ≤ 5 := by
  have hsent : s.sent = s.count := if_neg hpc
  exact hsent ▸ ha.balance hloop

theorem Accounts.numbered_of_ne (ha : Accounts s h) (hpc : s.pc ≠ .message) :
    messages h = List.range' 1 s.count := by
  have hsent : s.sent = s.count := if_neg hpc
  exact hsent ▸ ha.numbered

/-- The five seconds are over: `count` runs ahead of the messages. -/
theorem Accounts.tick (ha : Accounts s h) (hpc : s.pc = .tick) (hu : s.unslept = 0) :
    Accounts { s with count := s.count + 1, pc := .message } h := by
  have hne : s.pc ≠ .message := by rw [hpc]; exact Pc.noConfusion
  constructor
  case start => exact fun hp => Bool.noConfusion hp
  case balance => exact fun _ => ha.balance_of_ne (by rw [hpc]; rfl) hne
  case due => exact fun _ => ⟨Nat.succ_pos _, hu⟩
  case rest => exact fun hp => Pc.noConfusion hp
  case numbered => exact ha.numbered_of_ne hne
  case paced => exact ha.paced

/-- They are not over: what is left is slept next. -/
theorem Accounts.again (ha : Accounts s h) (hpc : s.pc = .tick) (hu : s.unslept ≠ 0) :
    Accounts { s with pc := .sleep } h := by
  have hne : s.pc ≠ .message := by rw [hpc]; exact Pc.noConfusion
  obtain ⟨hbal, hle⟩ := ha.balance_of_ne (by rw [hpc]; rfl) hne
  exact .of_loop rfl Pc.noConfusion hbal hle (fun _ => Nat.pos_of_ne_zero hu) (ha.numbered_of_ne hne)
    ha.paced

/-- The message makes up for the increment, and five new seconds are requested. -/
theorem Accounts.message (ha : Accounts s h) (hpc : s.pc = .message) :
    Accounts { s with unslept := sleepTime, pc := .sleep } (h ++ [.message s.count]) := by
  obtain ⟨hpos, hu⟩ := ha.due hpc
  obtain ⟨hbal, -⟩ := ha.balance (by rw [hpc]; rfl)
  have hsent : s.sent = s.count - 1 := if_pos hpc
  rw [hsent, hu] at hbal
  have hslept : slept (h ++ [.message s.count]) = slept h := by rw [slept_append]; rfl
  have hnum : messages (h ++ [.message s.count]) = List.range' 1 s.count := by
    rw [messages_append, ha.numbered, hsent]
    show List.range' 1 (s.count - 1) ++ [s.count] = List.range' 1 s.count
    obtain ⟨n, hn⟩ := Nat.exists_eq_add_of_lt hpos
    rw [Nat.zero_add] at hn
    rw [hn, Nat.add_sub_cancel, List.range'_concat, Nat.one_mul, Nat.add_comm 1]
  refine .of_loop rfl Pc.noConfusion ?_ (Nat.le_refl 5) (fun _ => Nat.succ_pos 4) hnum
    (ha.paced.message (by omega))
  rw [hslept]
  show 5 * s.count + 5 = slept h + 5
  omega

/-- The loop is entered with nothing slept. -/
theorem Accounts.enter (ha : Accounts s h) (hpc : s.pc = .openWrite .start) :
    Accounts { s with unslept := sleepTime, pc := .sleep } h := by
  obtain ⟨hc, hz⟩ := ha.start (by rw [hpc]; rfl)
  have hne : s.pc ≠ .message := by rw [hpc]; exact Pc.noConfusion
  refine .of_loop rfl Pc.noConfusion ?_ (Nat.le_refl 5) (fun _ => Nat.succ_pos 4)
    (ha.numbered_of_ne hne) ha.paced
  show 5 * s.count + 5 = slept h + 5
  rw [hc, hz]

/-- `sleep` returns what it did not sleep. -/
theorem Accounts.wake (ha : Accounts s h) (hpc : s.pc = .sleeping) {r : ℕ} (hr : r ≤ s.unslept) :
    Accounts { s with unslept := r, pc := .test } (h ++ [.slept (s.unslept - r)]) := by
  have hne : s.pc ≠ .message := by rw [hpc]; exact Pc.noConfusion
  obtain ⟨hbal, hle⟩ := ha.balance_of_ne (by rw [hpc]; rfl) hne
  have hslept : slept (h ++ [.slept (s.unslept - r)]) = slept h + (s.unslept - r) := by
    rw [slept_append]
    rfl
  have hnum : messages (h ++ [.slept (s.unslept - r)]) = List.range' 1 s.count := by
    rw [messages_append, ha.numbered_of_ne hne]
    exact List.append_nil _
  refine .of_loop rfl Pc.noConfusion ?_ (Nat.le_trans hr hle) (fun hp => Pc.noConfusion hp) hnum
    (ha.paced.slept _)
  rw [hslept]
  show 5 * s.count + 5 = slept h + (s.unslept - r) + r
  omega

theorem Accounts.main (ha : Accounts s h) (hst : mainStep s ok = some t) :
    Accounts t (h ++ ticks s (.main ok)) := by
  have hquiet : s.pc ≠ .message → ticks s (.main ok) = [] := fun hpc => if_neg hpc
  rcases mainStep_cases hst with ⟨hpc, hu, rfl⟩ | ⟨hpc, hu, rfl⟩ | ⟨hpc, rfl⟩ | ⟨hpc, rfl⟩ |
    ⟨hs, ht, hsleep, hc, hu, hloop, hstart⟩
  · rw [hquiet (by rw [hpc]; exact Pc.noConfusion), List.append_nil]
    exact ha.tick hpc hu
  · rw [hquiet (by rw [hpc]; exact Pc.noConfusion), List.append_nil]
    exact ha.again hpc hu
  · rw [show ticks s (.main ok) = [.message s.count] from if_pos hpc]
    exact ha.message hpc
  · rw [hquiet (by rw [hpc]; exact Pc.noConfusion), List.append_nil]
    exact ha.enter hpc
  · rw [hquiet hs, List.append_nil]
    exact ha.quiet hs ht hsleep hc hu hloop hstart

theorem accounts_reachable (hr : (system.recorded ticks).Reachable (s, h)) : Accounts s h := by
  refine hr.invariant (I := fun x => Accounts x.1 x.2) ?_ ?_
  · rintro ⟨s, h⟩ ⟨hs, hh⟩
    obtain rfl : h = [] := hh
    obtain rfl : s = _ := hs
    constructor
    case start => exact fun _ => ⟨rfl, rfl⟩
    case balance => exact fun hp => Bool.noConfusion hp
    case due => exact fun hp => Pc.noConfusion hp
    case rest => exact fun hp => Pc.noConfusion hp
    case numbered => rfl
    case paced => exact fun pre k post heq => absurd heq (by simp)
  · rintro ⟨s, h⟩ a ⟨t, h'⟩ ha hst
    obtain ⟨hst, rfl⟩ := System.recorded_step_eq_some.mp hst
    cases a with
    | hup =>
      simp only [system, Option.ite_none_left_eq_some, Option.some.injEq] at hst
      obtain ⟨-, rfl⟩ := hst
      rw [ticks, List.append_nil]
      exact ⟨ha.start, ha.balance, ha.due, ha.rest, ha.numbered, ha.paced⟩
    | wake r =>
      simp only [system, Option.ite_none_right_eq_some, Option.some.injEq] at hst
      obtain ⟨⟨hpc, hr⟩, rfl⟩ := hst
      exact ha.wake hpc hr
    | main ok => exact ha.main hst

/-! ### Every sequence of results -/

/-- What the rest of an iteration makes of `count` and of what `sleep` has returned. -/
def settled (count unslept : ℕ) : ℕ × ℕ :=
  if unslept = 0 then (count + 1, sleepTime) else (count, unslept)

/-- Left to itself the program comes back to the head of the loop. -/
def Settles (s : State) : Prop :=
  ∃ n t, system.run s (.replicate n (.main true)) = some t ∧ t.pc = .sleep ∧
    (t.count, t.unslept) = settled s.count s.unslept

theorem Settles.of_step (ht : Settles t) (hst : mainStep s true = some t) (hc : t.count = s.count)
    (hu : t.unslept = s.unslept) : Settles s := by
  obtain ⟨n, u, hrun, hpc, hset⟩ := ht
  have hstep : system.step s (.main true) = some t := hst
  refine ⟨n + 1, u, ?_, hpc, by rw [hset, hc, hu]⟩
  rw [List.replicate_succ, System.run_cons, hstep, Option.bind_some, hrun]

theorem settles_tick (hpc : s.pc = .tick) : Settles s := by
  by_cases hu : s.unslept = 0
  · exact ⟨2, { s with count := s.count + 1, unslept := sleepTime, pc := .sleep },
      by simp [system, mainStep, hpc, hu], rfl, by simp [settled, hu]⟩
  · exact ⟨1, { s with pc := .sleep }, by simp [system, mainStep, hpc, hu], rfl, by simp [settled, hu]⟩

/-- Whether or not there is a log to reopen, and whatever is open. -/
theorem settles_test (hpc : s.pc = .test) : Settles s := by
  have hclear : ∀ s : State, s.pc = .clear → Settles s := fun s hpc =>
    .of_step (t := { s with hupSignaled := false, pc := .tick }) (settles_tick rfl)
      (by simp only [mainStep, hpc]) rfl rfl
  have hwrite : ∀ s : State, s.pc = .openWrite .loop → Settles s := fun s hpc =>
    .of_step (t := { s with pc := .clear }) (hclear _ rfl) (by simp only [mainStep, hpc, afterOpen])
      rfl rfl
  have hfile : ∀ s : State, s.pc = .openFile .loop → Settles s := fun s hpc =>
    .of_step (t := { s with fd := some (s.opens + 1), opens := s.opens + 1, pc := .openWrite .loop })
      (hwrite _ rfl) (by simp only [mainStep, hpc]) rfl rfl
  have hcall : ∀ s : State, s.pc = .openCall .loop → Settles s := fun s hpc =>
    .of_step (t := { s with pc := .openFile .loop }) (hfile _ rfl) (by simp only [mainStep, hpc]) rfl rfl
  have hclosed : ∀ s : State, s.pc = .closeFile → Settles s := fun s hpc =>
    .of_step (t := { s with pc := .openCall .loop }) (hcall _ rfl) (by simp only [mainStep, hpc]) rfl rfl
  have hclose : ∀ s : State, s.pc = .closeWrite → Settles s := fun s hpc =>
    .of_step (t := { s with pc := .closeFile }) (hclosed _ rfl) (by simp only [mainStep, hpc]) rfl rfl
  have hhup : ∀ s : State, s.pc = .closeTest → Settles s := by
    intro s hpc
    by_cases hf : s.fd = none
    · exact .of_step (t := { s with pc := .openCall .loop }) (hcall _ rfl)
        (by simp only [mainStep, hpc, if_pos hf]) rfl rfl
    · exact .of_step (t := { s with pc := .closeWrite }) (hclose _ rfl)
        (by simp only [mainStep, hpc, if_neg hf]) rfl rfl
  by_cases hh : s.hupSignaled = true
  · exact .of_step (t := { s with pc := .closeTest }) (hhup _ rfl)
      (by simp only [mainStep, hpc, if_pos hh]) rfl rfl
  · exact .of_step (t := { s with pc := .tick }) (settles_tick rfl)
      (by simp only [mainStep, hpc, if_neg hh]) rfl rfl

/-- What the calls of `sleep` returned. -/
def results : List Action → List ℕ
  | [] => []
  | .wake r :: as => r :: results as
  | .hup :: as | .main _ :: as => results as

/-- No call returns more than was requested. -/
def Admissible : ℕ → List ℕ → Prop
  | _, [] => True
  | unslept, r :: rs => r ≤ unslept ∧ Admissible (settled 0 r).2 rs

theorem results_append (as bs : List Action) : results (as ++ bs) = results as ++ results bs := by
  induction as with
  | nil => rfl
  | cons a as ih => cases a <;> simp only [List.cons_append, results, ih]

theorem results_replicate (n : ℕ) : results (.replicate n (.main true)) = [] := by
  induction n with
  | zero => rfl
  | succ n ih => rw [List.replicate_succ, results, ih]

theorem settled_snd (count unslept : ℕ) : (settled count unslept).2 = (settled 0 unslept).2 := by
  unfold settled
  split_ifs <;> rfl

/-- One iteration, with any result. -/
theorem iteration (hpc : s.pc = .sleep) {r : ℕ} (hr : r ≤ s.unslept) :
    ∃ as t, system.run s as = some t ∧ results as = [r] ∧ t.pc = .sleep ∧
      (t.count, t.unslept) = settled s.count r := by
  obtain ⟨n, t, hrun, hsleep, hset⟩ := settles_test (s := { s with unslept := r, pc := .test }) rfl
  refine ⟨.main true :: .wake r :: .replicate n (.main true), t, ?_, ?_, hsleep, hset⟩
  · have hmain : system.step s (.main true) = some { s with pc := .sleeping } := by
      simp [system, mainStep, hpc]
    have hwake : system.step { s with pc := .sleeping } (.wake r) =
        some { s with unslept := r, pc := .test } := if_pos ⟨rfl, hr⟩
    rw [System.run_cons, hmain, Option.bind_some, System.run_cons, hwake, Option.bind_some, hrun]
  · rw [results, results, results_replicate]

/-- Any number of interruptions, each with any result, can happen one after the other. -/
theorem results_possible (rs : List ℕ) (hpc : s.pc = .sleep) (hrs : Admissible s.unslept rs) :
    ∃ as t, system.run s as = some t ∧ results as = rs ∧ t.pc = .sleep := by
  induction rs generalizing s with
  | nil => exact ⟨[], s, rfl, rfl, hpc⟩
  | cons r rs ih =>
    obtain ⟨hr, hrs⟩ := hrs
    obtain ⟨as, t, hrun, has, hsleep, hset⟩ := iteration hpc hr
    have hu : t.unslept = (settled 0 r).2 := by rw [← settled_snd s.count, ← hset]
    obtain ⟨bs, u, hrest, hbs, hend⟩ := ih hsleep (hu ▸ hrs)
    refine ⟨as ++ bs, u, ?_, ?_, hend⟩
    · rw [System.run_append, hrun, Option.bind_some, hrest]
    · rw [results_append, has, hbs, List.singleton_append]

/-! ### The time slept -/

/-- From five seconds to the next `count` is one ahead of the sleeps that are over. -/
theorem Accounts.count_le (ha : Accounts s h) (hloop : s.pc.looping = true) : 5 * s.count ≤ slept h := by
  obtain ⟨hbal, hle⟩ := ha.balance hloop
  by_cases hpc : s.pc = .message
  · obtain ⟨hpos, hu⟩ := ha.due hpc
    rw [State.sent, if_pos hpc] at hbal
    omega
  · obtain ⟨hbal, -⟩ := ha.balance_of_ne hloop hpc
    omega

/-- An `int` holds the count for as many seconds. -/
theorem count_lt (hr : (system.recorded ticks).Reachable (s, h)) (hloop : s.pc.looping = true)
    (hlt : slept h < 5 * 2147483648) : s.count < 2147483648 := by
  have := (accounts_reachable hr).count_le hloop
  omega

/-- Two messages without one between them. -/
theorem Accounts.consecutive (ha : Accounts s h) {pre mid post : List Tick} {k k' : ℕ}
    (heq : h = pre ++ .message k :: (mid ++ .message k' :: post)) (hmid : messages mid = []) :
    k' = k + 1 ∧ slept mid = 5 := by
  have hk : slept pre = 5 * k := ha.paced pre k _ heq
  have hk' : slept (pre ++ .message k :: mid) = 5 * k' := ha.paced _ k' post (by simp [heq])
  have hnum := ha.numbered
  rw [heq, messages_append, messages, messages_append, hmid, List.nil_append, messages] at hnum
  obtain ⟨j, -, -, hj⟩ := List.range'_eq_append_iff.mp hnum.symm
  obtain ⟨hkj, -, hrest⟩ := List.range'_eq_cons_iff.mp hj.symm
  obtain ⟨hkk, -, -⟩ := List.range'_eq_cons_iff.mp hrest.symm
  rw [slept_append, slept, hk] at hk'
  omega

/-- However a SIGHUP cuts the sleeps short: at the head of the loop `count` and `unslept` account for the
time slept, the messages are numbered from 1 on, the one numbered `k` comes after `5 * k` seconds, and
five seconds lie between it and the next. -/
theorem ticks_exact (hr : (system.recorded ticks).Reachable (s, h)) :
    (s.pc = .sleep →
      5 * (s.count : ℤ) + (5 - s.unslept) = slept h ∧ messages h = List.range' 1 s.count) ∧
      (∃ n, messages h = List.range' 1 n) ∧
      (∀ pre k post, h = pre ++ .message k :: post → slept pre = 5 * k) ∧
      ∀ pre k mid k' post, h = pre ++ .message k :: (mid ++ .message k' :: post) → messages mid = [] →
        k' = k + 1 ∧ slept mid = 5 := by
  have ha := accounts_reachable hr
  refine ⟨fun hpc => ?_, ⟨_, ha.numbered⟩, ha.paced, fun pre k mid k' post heq hmid =>
    ha.consecutive heq hmid⟩
  have hne : s.pc ≠ .message := by rw [hpc]; exact Pc.noConfusion
  obtain ⟨hbal, hle⟩ := ha.balance_of_ne (by rw [hpc]; rfl) hne
  exact ⟨by omega, ha.numbered_of_ne hne⟩

/-- A SIGHUP after two of the five seconds, the other three, and a message. -/
def tickRun : List Action :=
  .replicate 5 (.main true) ++ [.hup, .wake 3] ++ .replicate 9 (.main true) ++ [.main true, .wake 0] ++
    .replicate 3 (.main true)

theorem ticks_exact_interrupted :
    5 * (1 : ℤ) + (5 - 5) = slept [.slept 2, .slept 3, .message 1] ∧
      messages [.slept 2, .slept 3, .message 1] = List.range' 1 1 := by
  have hr : (system.recorded ticks).Reachable (⟨.sleep, false, some 2, 2, 5, 1⟩,
      [.slept 2, .slept 3, .message 1]) :=
    System.reachable_of_run (s := (start.1, [])) ⟨rfl, rfl⟩ tickRun rfl
  exact (ticks_exact hr).1 rfl

end LinuxApi.Daemonize
