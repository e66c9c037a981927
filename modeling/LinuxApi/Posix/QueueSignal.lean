import LinuxApi.Transition.System
import LinuxApi.Kernel.MessageQueue

/-! `ipc_posix_mq_read_by_signal` in `ipc_posix_mq.c`: register for NOTIFY_SIG, then
for ever sleep in `sigsuspend`, register again and read the queue until it is empty.
NOTIFY_SIG is blocked except inside `sigsuspend` and raised only by the registration;
its handler does nothing. Any number of senders send at any time. -/

namespace LinuxApi.QueueSignal

/-- `struct mq_message` -/
structure MqMessage where
  number : Int32
  name : Vector UInt8 100
  deriving DecidableEq

/-- Where `ipc_posix_mq_read_by_signal` is, from its first `mq_notify` on. -/
inductive Pc where
  | firstNotify | suspend | suspended | notify | receive | exited (msg : String)
  deriving DecidableEq

/-- `pending` is the pending bit of NOTIFY_SIG, and `printed` the messages read.
`fired` and `woken` count the notifications and the returns of `sigsuspend`. -/
structure State where
  pc : Pc
  queue : MessageQueue MqMessage
  pending : Bool
  printed : List (Message MqMessage)
  fired : ℕ
  woken : ℕ

/-- A step of the reader; the delivery of NOTIFY_SIG, which ends `sigsuspend`; and a
message from some sender. -/
inductive Action where
  | reader
  | deliver
  | send (m : Message MqMessage)

def readerStep (s : State) : Option State :=
  match s.pc with
  | .firstNotify =>
    match s.queue.notify with
    | some queue => some { s with queue, pc := .suspend }
    | none => some { s with pc := .exited "mq_notify()" }
  | .suspend => some { s with pc := .suspended }
  | .notify =>
    match s.queue.notify with
    | some queue => some { s with queue, pc := .receive }
    | none => some { s with pc := .exited "mq_notify()" }
  | .receive =>
    match s.queue.receive with
    | some (m, queue) => some { s with queue, printed := s.printed ++ [m] }
    | none => some { s with pc := .suspend }
  | .suspended | .exited _ => none

/-- The reader before its first `mq_notify`, on a queue no other process is registered
for. -/
def start (q : MessageQueue MqMessage) : State :=
  ⟨.firstNotify, { q with registered := false }, false, [], 0, 0⟩

/-- The reader and its senders from the first `mq_notify` on. -/
def system (q : MessageQueue MqMessage) : System State Action where
  init s := s = start q
  step s
    | .reader => readerStep s
    | .deliver =>
      if s.pc = .suspended ∧ s.pending then
        some { s with pc := .notify, pending := false, woken := s.woken + 1 }
      else none
    | .send m =>
      if s.pc = .firstNotify then none
      else (s.queue.send m).map fun r =>
        { s with queue := r.1, pending := s.pending || r.2, fired := s.fired + r.2.toNat }

/-- The reader sleeps beside a message and nothing will wake it. -/
def State.Stuck (s : State) : Prop :=
  s.pc = .suspended ∧ s.pending = false ∧ s.queue.messages ≠ []

/-! ### The token -/

/-- How many of the three hold the right to the next notification: the registration,
the pending signal, and a reader about to register again. -/
def State.tokens (s : State) : ℕ :=
  s.queue.registered.toNat + s.pending.toNat + (decide (s.pc = .notify)).toNat

structure Inv (s : State) : Prop where
  first : s.pc = .firstNotify → s.tokens = 0
  token : s.pc ≠ .firstNotify → s.tokens = 1
  alive : ∀ msg, s.pc ≠ .exited msg
  counted : s.fired = s.woken + s.pending.toNat

theorem inv_start (q : MessageQueue MqMessage) : Inv (start q) :=
  ⟨fun _ => rfl, fun h => absurd rfl h, nofun, rfl⟩

/-- A registration, of a reader that has the right to it. -/
theorem inv_notify {s : State} {queue : MessageQueue MqMessage} {pc : Pc} (h : Inv s)
    (hs : s.pc = .firstNotify ∨ s.pc = .notify) (hq : s.queue.notify = some queue)
    (hpc : pc = .suspend ∨ pc = .receive) : Inv { s with queue, pc } := by
  obtain ⟨hold, hnew, -⟩ := MessageQueue.notify_eq_some hq
  have hpend : s.pending = false := by
    rcases hs with hs | hs
    · have := h.first hs
      simp_all [State.tokens]
    · have := h.token (by simp [hs])
      simp_all [State.tokens]
  refine ⟨?_, fun _ => ?_, ?_, h.counted⟩
  · rcases hpc with rfl | rfl <;> exact nofun
  · rcases hpc with rfl | rfl <;> simp [State.tokens, hnew, hpend]
  · rcases hpc with rfl | rfl <;> exact nofun

/-- A reader about to register is not registered. -/
theorem Inv.notify_ne_none {s : State} (h : Inv s) (hs : s.pc = .firstNotify ∨ s.pc = .notify) :
    s.queue.notify ≠ none := by
  rw [Ne, MessageQueue.notify_eq_none]
  intro hr
  rcases hs with hs | hs
  · have := h.first hs
    simp [State.tokens, hr] at this
  · have := h.token (by simp [hs])
    simp [State.tokens, hr, hs] at this

/-- A step that keeps the tokens in number. -/
theorem Inv.of_tokens {s t : State} (h : Inv s) (hs : s.pc ≠ .firstNotify) (ht : t.tokens = s.tokens)
    (hpc : t.pc ≠ .firstNotify) (ha : ∀ msg, t.pc ≠ .exited msg)
    (hc : t.fired = t.woken + t.pending.toNat) : Inv t :=
  ⟨fun hf => absurd hf hpc, fun _ => ht.trans (h.token hs), ha, hc⟩

/-- The reader registers, finds another process registered, goes to sleep, takes a
message, or finds the queue empty. -/
theorem readerStep_cases {s t : State} (hst : readerStep s = some t) :
    (∃ queue pc, (s.pc = .firstNotify ∧ pc = .suspend ∨ s.pc = .notify ∧ pc = .receive) ∧
        s.queue.notify = some queue ∧ t = { s with queue, pc }) ∨
      ((s.pc = .firstNotify ∨ s.pc = .notify) ∧ s.queue.notify = none) ∨
      (s.pc = .suspend ∧ t = { s with pc := .suspended }) ∨
      (∃ m queue, s.pc = .receive ∧ s.queue.receive = some (m, queue) ∧
        t = { s with queue, printed := s.printed ++ [m] }) ∨
      (s.pc = .receive ∧ s.queue.messages = [] ∧ t = { s with pc := .suspend }) := by
  cases hpc : s.pc with
  | firstNotify =>
    simp only [readerStep, hpc] at hst
    cases hq : s.queue.notify with
    | none => exact .inr (.inl ⟨.inl rfl, rfl⟩)
    | some queue =>
      simp only [hq, Option.some.injEq] at hst
      exact .inl ⟨queue, .suspend, .inl ⟨rfl, rfl⟩, rfl, hst.symm⟩
  | suspend =>
    simp only [readerStep, hpc, Option.some.injEq] at hst
    exact .inr (.inr (.inl ⟨rfl, hst.symm⟩))
  | notify =>
    simp only [readerStep, hpc] at hst
    cases hq : s.queue.notify with
    | none => exact .inr (.inl ⟨.inr rfl, rfl⟩)
    | some queue =>
      simp only [hq, Option.some.injEq] at hst
      exact .inl ⟨queue, .receive, .inr ⟨rfl, rfl⟩, rfl, hst.symm⟩
  | receive =>
    simp only [readerStep, hpc] at hst
    cases hq : s.queue.receive with
    | none =>
      simp only [hq, Option.some.injEq] at hst
      exact .inr (.inr (.inr (.inr ⟨rfl, MessageQueue.receive_eq_none.mp hq, hst.symm⟩)))
    | some r =>
      simp only [hq, Option.some.injEq] at hst
      exact .inr (.inr (.inr (.inl ⟨r.1, r.2, rfl, rfl, hst.symm⟩)))
  | suspended | exited msg => simp [readerStep, hpc] at hst

theorem inv_reader {s t : State} (h : Inv s) (hst : readerStep s = some t) : Inv t := by
  rcases readerStep_cases hst with ⟨queue, pc, hpc, hq, rfl⟩ | ⟨hpc, hq⟩ | ⟨hpc, rfl⟩ |
    ⟨m, queue, hpc, hq, rfl⟩ | ⟨hpc, -, rfl⟩
  · exact inv_notify h (hpc.imp And.left And.left) hq (hpc.imp And.right And.right)
  · exact absurd hq (h.notify_ne_none hpc)
  · exact h.of_tokens (by simp [hpc]) (by simp [State.tokens, hpc]) nofun nofun h.counted
  · have hreg := (MessageQueue.receive_eq_some hq).2
    exact h.of_tokens (by simp [hpc]) (by simp [State.tokens, hreg]) (by simp [hpc]) (by simp [hpc])
      h.counted
  · exact h.of_tokens (by simp [hpc]) (by simp [State.tokens, hpc]) nofun nofun h.counted

/-- The signal becomes the reader's duty to register again. -/
theorem inv_deliver {s : State} (h : Inv s) (hpc : s.pc = .suspended) (hp : s.pending = true) :
    Inv { s with pc := .notify, pending := false, woken := s.woken + 1 } := by
  refine h.of_tokens (by simp [hpc]) ?_ nofun nofun ?_
  · simp [State.tokens, hpc, hp]
  · have := h.counted
    simp_all

/-- A notification takes the registration, so the signal is not pending already. -/
theorem Inv.pending_of_fired {s : State} (h : Inv s) (hpc : s.pc ≠ .firstNotify)
    {m : Message MqMessage} {queue : MessageQueue MqMessage} (hq : s.queue.send m = some (queue, true)) :
    s.pending = false := by
  have hr := (MessageQueue.send_eq_some hq).2.2
  have ht := h.token hpc
  rw [State.tokens] at ht
  simp only [Bool.toNat_true] at hr
  exact Bool.toNat_eq_zero.mp (by omega)

theorem inv_send {s : State} (h : Inv s) (hpc : s.pc ≠ .firstNotify) {m : Message MqMessage}
    {r : MessageQueue MqMessage × Bool} (hq : s.queue.send m = some r) :
    Inv { s with queue := r.1, pending := s.pending || r.2, fired := s.fired + r.2.toNat } := by
  obtain ⟨queue, fired⟩ := r
  have hr := (MessageQueue.send_eq_some hq).2.2
  cases fired with
  | false =>
    refine h.of_tokens hpc ?_ hpc h.alive (by simpa using h.counted)
    simp_all [State.tokens]
  | true =>
    have hp := h.pending_of_fired hpc hq
    have hc := h.counted
    refine h.of_tokens hpc ?_ hpc h.alive ?_
    · simp_all [State.tokens]
    · simp_all

theorem inv_step {q : MessageQueue MqMessage} {s t : State} {a : Action} (h : Inv s)
    (hst : (system q).step s a = some t) : Inv t := by
  cases a with
  | reader => exact inv_reader h hst
  | deliver =>
    simp only [system, Option.ite_none_right_eq_some, Option.some.injEq] at hst
    obtain ⟨⟨hpc, hp⟩, rfl⟩ := hst
    exact inv_deliver h hpc hp
  | send m =>
    simp only [system, Option.ite_none_left_eq_some, Option.map_eq_some_iff] at hst
    obtain ⟨hpc, r, hq, rfl⟩ := hst
    exact inv_send h hpc hq

theorem inv_reachable {q : MessageQueue MqMessage} {s : State} (h : (system q).Reachable s) : Inv s :=
  h.invariant (by rintro s rfl; exact inv_start q) fun _ _ _ hi hst => inv_step hi hst

/-- From the first `mq_notify` on exactly one of the registration, the pending signal
and the reader between `sigsuspend` and `mq_notify` holds the token; so the reader
never leaves through an error, a notification finds no signal pending, and each one
but the pending has woken the reader. -/
theorem notification_token {q : MessageQueue MqMessage} {s : State} (h : (system q).Reachable s)
    (hpc : s.pc ≠ .firstNotify) :
    s.tokens = 1 ∧ (s.pc = .notify → s.queue.notify ≠ none) ∧ (∀ msg, s.pc ≠ .exited msg) ∧
      (∀ m queue, s.queue.send m = some (queue, true) → s.pending = false) ∧
        s.fired = s.woken + s.pending.toNat :=
  have hi := inv_reachable h
  ⟨hi.token hpc, fun hn => hi.notify_ne_none (.inr hn), hi.alive,
    fun _ _ hq => hi.pending_of_fired hpc hq, hi.counted⟩

/-- The queue of the token's witness: empty, with room for one. -/
def roomForOne : MessageQueue MqMessage := ⟨1, [], false, Nat.zero_le 1, .nil⟩

/-- A message of some sender. -/
def hello : Message MqMessage := ⟨0, 100, Vector.replicate 100 0⟩

/-- It arrives while the reader sleeps and leaves the signal pending. -/
def woken : State :=
  ⟨.suspended, ⟨1, [hello], false, Nat.le_refl 1, List.pairwise_singleton _ _⟩, true, [], 1, 0⟩

theorem notification_token_woken :
    woken.tokens = 1 ∧ (woken.pc = .notify → woken.queue.notify ≠ none) ∧
      (∀ msg, woken.pc ≠ .exited msg) ∧
        (∀ m queue, woken.queue.send m = some (queue, true) → woken.pending = false) ∧
          woken.fired = woken.woken + woken.pending.toNat :=
  notification_token (q := roomForOne)
    (System.reachable_of_run (s := start roomForOne) rfl [.reader, .reader, .send hello] rfl) nofun

/-! ### Sleeping beside a message -/

/-- The reader has been, or is being, told about the messages in the queue. -/
def State.Covered (s : State) : Prop :=
  s.queue.messages = [] ∨ s.pending = true ∨ s.pc = .notify ∨ s.pc = .receive

/-- A message arrives: at an empty queue it finds the token, otherwise the earlier ones
are covered. -/
theorem covered_send {s : State} (hi : Inv s) (h : s.Covered) (hpc : s.pc ≠ .firstNotify)
    {m : Message MqMessage} {r : MessageQueue MqMessage × Bool} (hq : s.queue.send m = some r) :
    State.Covered
      { s with queue := r.1, pending := s.pending || r.2, fired := s.fired + r.2.toNat } := by
  rcases h with hm | hp | hn | hr
  · have hf := (MessageQueue.send_eq_some hq).2.1
    have ht := hi.token hpc
    simp only [State.tokens] at ht
    by_cases hreg : s.queue.registered = true
    · exact .inr (.inl (by simp [hf, hreg, hm]))
    · by_cases hp : s.pending = true
      · exact .inr (.inl (by simp [hp]))
      · exact .inr (.inr (.inl (by simpa [hreg, hp] using ht)))
  · exact .inr (.inl (by simp [hp]))
  · exact .inr (.inr (.inl hn))
  · exact .inr (.inr (.inr hr))

theorem covered_reader {s t : State} (hi : Inv s) (h : s.Covered) (hst : readerStep s = some t) :
    t.Covered := by
  rcases readerStep_cases hst with ⟨queue, pc, hpc, hq, rfl⟩ | ⟨hpc, hq⟩ | ⟨hpc, rfl⟩ |
    ⟨m, queue, hpc, hq, rfl⟩ | ⟨-, hm, rfl⟩
  · rcases hpc with ⟨hpc, rfl⟩ | ⟨-, rfl⟩
    · simpa [State.Covered, hpc, (MessageQueue.notify_eq_some hq).2.2] using h
    · exact .inr (.inr (.inr rfl))
  · exact absurd hq (hi.notify_ne_none hpc)
  · simpa [State.Covered, hpc] using h
  · exact .inr (.inr (.inr hpc))
  · exact .inl hm

theorem covered_step {q : MessageQueue MqMessage} {s t : State} {a : Action} (hi : Inv s)
    (h : s.Covered) (hst : (system q).step s a = some t) : t.Covered := by
  cases a with
  | reader => exact covered_reader hi h hst
  | deliver =>
    simp only [system, Option.ite_none_right_eq_some, Option.some.injEq] at hst
    obtain ⟨-, rfl⟩ := hst
    exact .inr (.inr (.inl rfl))
  | send m =>
    simp only [system, Option.ite_none_left_eq_some, Option.map_eq_some_iff] at hst
    obtain ⟨hpc, r, hq, rfl⟩ := hst
    exact covered_send hi h hpc hq

theorem covered_reachable {q : MessageQueue MqMessage} (hq : q.messages = []) {s : State}
    (h : (system q).Reachable s) : s.Covered := by
  refine (h.invariant (I := fun s => Inv s ∧ s.Covered) ?_ ?_).2
  · rintro s rfl
    exact ⟨inv_start q, .inl hq⟩
  · rintro s a t ⟨hi, hc⟩ hst
    exact ⟨inv_step hi hst, covered_step hi hc hst⟩

theorem State.Covered.not_stuck {s : State} (h : s.Covered) : ¬ s.Stuck := by
  rintro ⟨hpc, hp, hm⟩
  rcases h with hm' | hp' | hn | hr
  · exact hm hm'
  · simp [hp] at hp'
  · simp [hpc] at hn
  · simp [hpc] at hr

/-- The reader after its first `mq_notify` and `sigsuspend`, before anything arrives. -/
def asleep (q : MessageQueue MqMessage) : State :=
  ⟨.suspended, { q with registered := true }, false, [], 0, 0⟩

theorem asleep_reachable (q : MessageQueue MqMessage) : (system q).Reachable (asleep q) :=
  System.reachable_of_run (s := start q) rfl [.reader, .reader] rfl

/-- The reader never sleeps beside a message exactly when its first `mq_notify` finds
the queue empty: what waits there already raises no notification. -/
theorem never_stuck_iff_empty (q : MessageQueue MqMessage) :
    (∀ s, (system q).Reachable s → ¬ s.Stuck) ↔ q.messages = [] := by
  constructor
  · intro h
    by_contra hm
    exact h _ (asleep_reachable q) ⟨rfl, rfl, hm⟩
  · exact fun hm s hs => (covered_reachable hm hs).not_stuck

/-- One message waits from the start. -/
def helloWaiting : MessageQueue MqMessage :=
  ⟨10, [hello], false, by decide, List.pairwise_singleton _ _⟩

theorem stuck_beside_hello : ¬ ∀ q s, (system q).Reachable s → ¬ s.Stuck :=
  fun h => h helloWaiting _ (asleep_reachable helloWaiting) ⟨rfl, rfl, List.cons_ne_nil _ _⟩

end LinuxApi.QueueSignal
