import LinuxApi.Posix.QueueSignal
import LinuxApi.Transition.Indexed

/-! `ipc_posix_mq_read_by_thread` in `ipc_posix_mq.c`: every notification starts a thread
that runs `thread_func`: register again, then read the queue until it is empty. Any
number of these threads run at once beside any number of senders. -/

namespace LinuxApi.QueueThread

open QueueSignal (MqMessage)

/-- A message with its place in the order of the sends, to tell equal ones apart. -/
abbrev Numbered : Type := ℕ × MqMessage

/-- Where `ipc_posix_mq_read_by_thread` is, from its `mq_notify` on. -/
inductive MainPc where
  | notify | pause | exited (msg : String)
  deriving DecidableEq

/-- Where a run of `thread_func` is. -/
inductive ThreadPc where
  | getattr | notify | receive | done
  deriving DecidableEq

/-- `threads` are all threads started so far, and `received` the messages with the
thread that read each. -/
structure State where
  main : MainPc
  queue : MessageQueue Numbered
  sent : ℕ
  threads : List ThreadPc
  received : List (ℕ × Message Numbered)

/-- A step of the main thread, a step of a notification thread, and a message from some
sender. -/
inductive Action where
  | main
  | thread (k : ℕ)
  | send (m : Message MqMessage)

def mainStep (s : State) : Option State :=
  match s.main with
  | .notify =>
    match s.queue.notify with
    | some queue => some { s with queue, main := .pause }
    | none => some { s with main := .exited "mq_notify()" }
  | .pause | .exited _ => none

/-- A step of `thread_func` in thread `k`. An error ends the process. -/
def threadStep (s : State) (k : ℕ) : Option State :=
  match s.threads[k]? with
  | some .getattr => some { s with threads := s.threads.set k .notify }
  | some .notify =>
    match s.queue.notify with
    | some queue => some { s with queue, threads := s.threads.set k .receive }
    | none => some { s with main := .exited "mq_notify()" }
  | some .receive =>
    match s.queue.receive with
    | some (m, queue) => some { s with queue, received := s.received ++ [(k, m)] }
    | none => some { s with threads := s.threads.set k .done }
  | some .done | none => none

/-- The threads after a send, which starts one when the notification fires. -/
def startThread (fired : Bool) (threads : List ThreadPc) : List ThreadPc :=
  if fired then threads ++ [.getattr] else threads

/-- Before the first `mq_notify`, which finds an empty queue nobody is registered for. -/
def start (maxmsg : ℕ) : State := ⟨.notify, ⟨maxmsg, [], false, maxmsg.zero_le, .nil⟩, 0, [], []⟩

/-- The process and its senders from the first `mq_notify` on. -/
def system (maxmsg : ℕ) : System State Action where
  init s := s = start maxmsg
  step s
    | .main => mainStep s
    | .thread k => if s.main = .pause then threadStep s k else none
    | .send m =>
      if s.main = .notify then none
      else (s.queue.send ⟨m.priority, s.sent, m.body⟩).map fun r =>
        { s with queue := r.1, sent := s.sent + 1, threads := startThread r.2 s.threads }

/-! ### The invariant -/

/-- Started and not yet registered again. -/
def ThreadPc.starting : ThreadPc → Bool
  | .getattr | .notify => true
  | .receive | .done => false

/-- The holders of the right to the next notification. -/
def State.tokens (s : State) : ℕ := s.queue.registered.toNat + s.threads.countP ThreadPc.starting

/-- The numbers of some messages. -/
def numbers (l : List (Message Numbered)) : List ℕ := l.map fun m => m.body.1

structure Inv (s : State) : Prop where
  first : s.main = .notify → s.tokens = 0
  token : s.main ≠ .notify → s.tokens = 1
  alive : ∀ msg, s.main ≠ .exited msg
  covered : s.queue.messages ≠ [] → ∃ pc ∈ s.threads, pc ≠ .done
  once : (numbers s.queue.messages ++ numbers (s.received.map Prod.snd)).Perm (List.range s.sent)

theorem inv_start (maxmsg : ℕ) : Inv (start maxmsg) :=
  ⟨fun _ => rfl, fun h => absurd rfl h, nofun, fun h => absurd rfl h, .nil⟩

/-- A thread that has not registered again is the only holder. -/
theorem Inv.notify_ne_none {s : State} (h : Inv s) (hm : s.main ≠ .notify) {k : ℕ} {pc : ThreadPc}
    (hk : s.threads[k]? = some pc) (hs : pc.starting = true) : s.queue.notify ≠ none := by
  rw [Ne, MessageQueue.notify_eq_none]
  intro hr
  have ht := h.token hm
  have hpos : 0 < s.threads.countP ThreadPc.starting :=
    List.countP_pos_iff.mpr ⟨pc, List.mem_of_getElem? hk, hs⟩
  rw [State.tokens, hr, Bool.toNat_true] at ht
  omega

theorem inv_main {s t : State} (h : Inv s) (hst : mainStep s = some t) : Inv t := by
  cases hm : s.main with
  | notify =>
    have ht := h.first hm
    rw [State.tokens, Nat.add_eq_zero_iff, Bool.toNat_eq_zero] at ht
    simp only [mainStep, hm] at hst
    cases hq : s.queue.notify with
    | none =>
      rw [MessageQueue.notify_eq_none, ht.1] at hq
      contradiction
    | some queue =>
      simp only [hq, Option.some.injEq] at hst
      subst hst
      obtain ⟨-, hnew, hmsg⟩ := MessageQueue.notify_eq_some hq
      refine ⟨nofun, fun _ => ?_, nofun, ?_, ?_⟩
      · rw [State.tokens, hnew, ht.2, Bool.toNat_true]
      · rw [hmsg]
        exact h.covered
      · rw [hmsg]
        exact h.once
  | pause | exited msg => simp [mainStep, hm] at hst

/-- A step of a thread that gives up its token only to the registration, and goes on. -/
theorem Inv.thread {s : State} (h : Inv s) (hm : s.main = .pause) {k : ℕ} {pc q : ThreadPc}
    (hk : s.threads[k]? = some pc) {queue : MessageQueue Numbered}
    (hq : queue.messages = s.queue.messages)
    (ht : queue.registered.toNat + q.starting.toNat = s.queue.registered.toNat + pc.starting.toNat)
    (hd : queue.messages ≠ [] → q ≠ .done) :
    Inv { s with queue, threads := s.threads.set k q } where
  first hf := by simp [hm] at hf
  token hn := by
    have hold := h.token hn
    have hset := countP_set_add (p := ThreadPc.starting) hk q
    rw [State.tokens] at hold
    show queue.registered.toNat + (s.threads.set k q).countP ThreadPc.starting = 1
    omega
  alive := h.alive
  covered hne :=
    have hlt : k < s.threads.length := (List.getElem?_eq_some_iff.mp hk).choose
    ⟨q, List.mem_set hlt q, hd hne⟩
  once := by
    rw [hq]
    exact h.once

/-- A thread takes the first message of the queue. -/
theorem inv_receive {s : State} (h : Inv s) {k : ℕ} (hk : s.threads[k]? = some .receive)
    {r : Message Numbered × MessageQueue Numbered} (hq : s.queue.receive = some r) :
    Inv { s with queue := r.2, received := s.received ++ [(k, r.1)] } := by
  obtain ⟨m, queue⟩ := r
  obtain ⟨hmsg, hreg⟩ := MessageQueue.receive_eq_some hq
  refine ⟨fun hf => ?_, fun hn => ?_, h.alive, fun _ => ⟨_, List.mem_of_getElem? hk, nofun⟩, ?_⟩
  · rw [State.tokens, hreg]
    exact h.first hf
  · rw [State.tokens, hreg]
    exact h.token hn
  · refine List.Perm.trans ?_ h.once
    simp only [hmsg, numbers, List.map_append, List.map_cons, List.map_nil, ← List.append_assoc]
    exact List.perm_append_singleton _ _

theorem inv_threadStep {s t : State} {k : ℕ} (h : Inv s) (hm : s.main = .pause)
    (hst : threadStep s k = some t) : Inv t := by
  cases hk : s.threads[k]? with
  | none => simp [threadStep, hk] at hst
  | some pc =>
    cases pc with
    | getattr =>
      simp only [threadStep, hk, Option.some.injEq] at hst
      subst hst
      exact h.thread hm hk rfl rfl nofun
    | notify =>
      simp only [threadStep, hk] at hst
      cases hq : s.queue.notify with
      | none => exact absurd hq (h.notify_ne_none (by simp [hm]) hk rfl)
      | some queue =>
        simp only [hq, Option.some.injEq] at hst
        subst hst
        obtain ⟨hold, hnew, hmsg⟩ := MessageQueue.notify_eq_some hq
        exact h.thread hm hk hmsg (by rw [hold, hnew]; rfl) nofun
    | receive =>
      simp only [threadStep, hk] at hst
      cases hq : s.queue.receive with
      | none =>
        simp only [hq, Option.some.injEq] at hst
        subst hst
        exact h.thread hm hk rfl rfl fun hne => absurd (MessageQueue.receive_eq_none.mp hq) hne
      | some r =>
        simp only [hq, Option.some.injEq] at hst
        subst hst
        exact inv_receive h hk hq
    | done => simp [threadStep, hk] at hst

/-- A message arrives: at an empty queue it starts a thread or finds one starting. -/
theorem inv_send {s : State} (h : Inv s) (hm : s.main ≠ .notify) {m : Message MqMessage}
    {r : MessageQueue Numbered × Bool}
    (hq : s.queue.send ⟨m.priority, s.sent, m.body⟩ = some r) :
    Inv { s with queue := r.1, sent := s.sent + 1, threads := startThread r.2 s.threads } := by
  obtain ⟨queue, fired⟩ := r
  obtain ⟨hmsg, hf, hr⟩ := MessageQueue.send_eq_some hq
  have ht := h.token hm
  rw [State.tokens] at ht
  refine ⟨fun hf => absurd hf hm, fun _ => ?_, h.alive, fun _ => ?_, ?_⟩
  · show queue.registered.toNat + (startThread fired s.threads).countP ThreadPc.starting = 1
    cases fired with
    | false => simpa [startThread, hr] using ht
    | true =>
      simp only [startThread, if_true, List.countP_append, List.countP_singleton, ThreadPc.starting]
      simp only [Bool.toNat_true] at hr
      omega
  · cases fired with
    | true => exact ⟨.getattr, by simp [startThread], nofun⟩
    | false =>
      by_cases he : s.queue.messages = []
      · have hreg : s.queue.registered = false := by simpa [he] using hf
        rw [hreg, Bool.toNat_false, Nat.zero_add] at ht
        obtain ⟨pc, hpc, hs⟩ := List.countP_pos_iff.mp (ht ▸ Nat.one_pos)
        exact ⟨pc, hpc, by rintro rfl; simp [ThreadPc.starting] at hs⟩
      · exact h.covered he
  · rw [List.range_succ]
    have hnum := hmsg.map fun m => m.body.1
    refine ((hnum.append_right _).trans ?_).trans (List.perm_append_singleton _ _).symm
    exact h.once.cons _

theorem inv_step {maxmsg : ℕ} {s t : State} {a : Action} (h : Inv s)
    (hst : (system maxmsg).step s a = some t) : Inv t := by
  cases a with
  | main => exact inv_main h hst
  | thread k =>
    simp only [system, Option.ite_none_right_eq_some] at hst
    exact inv_threadStep h hst.1 hst.2
  | send m =>
    simp only [system, Option.ite_none_left_eq_some, Option.map_eq_some_iff] at hst
    obtain ⟨hm, r, hq, rfl⟩ := hst
    exact inv_send h hm hq

theorem inv_reachable {maxmsg : ℕ} {s : State} (h : (system maxmsg).Reachable s) : Inv s :=
  h.invariant (by rintro s rfl; exact inv_start maxmsg) fun _ _ _ hi hst => inv_step hi hst

/-- However threads and senders interleave: the registration and the threads that have
yet to register are one at most, so no `mq_notify` fails; beside a nonempty queue some
thread has not seen `EAGAIN`; and every message is in the queue or received, once. -/
theorem no_message_stranded {maxmsg : ℕ} {s : State} (h : (system maxmsg).Reachable s) :
    (s.tokens ≤ 1 ∧ (∀ k : ℕ, s.threads[k]? = some ThreadPc.notify → s.queue.notify ≠ none) ∧
        ∀ msg, s.main ≠ .exited msg) ∧
      (s.queue.messages ≠ [] → ∃ pc ∈ s.threads, pc ≠ .done) ∧
        (numbers (s.received.map Prod.snd)).Nodup ∧
          (numbers s.queue.messages ++ numbers (s.received.map Prod.snd)).Perm (List.range s.sent) := by
  have hi := inv_reachable h
  have hnodup := hi.once.nodup_iff.mpr List.nodup_range
  refine ⟨⟨?_, fun k hk => ?_, hi.alive⟩, hi.covered, hnodup.of_append_right, hi.once⟩
  · by_cases hm : s.main = .notify
    · have := hi.first hm
      omega
    · have := hi.token hm
      omega
  · by_cases hm : s.main = .notify
    · have ht := hi.first hm
      rw [State.tokens, Nat.add_eq_zero_iff, Bool.toNat_eq_zero] at ht
      simp [MessageQueue.notify_eq_none, ht.1]
    · exact hi.notify_ne_none hm hk rfl

/-- The second message starts a second thread beside the first, and both drain the queue. -/
def drain : List Action :=
  [.main, .send QueueSignal.hello, .thread 0, .thread 0, .thread 0, .send QueueSignal.hello,
    .send QueueSignal.hello, .thread 1, .thread 1, .thread 0, .thread 1, .thread 0]

/-- The first thread is done, the second one is about to find the queue empty. -/
def drained : State :=
  ⟨.pause, ⟨10, [], true, Nat.zero_le 10, .nil⟩, 3, [.done, .receive],
    [(0, ⟨0, 0, QueueSignal.hello.body⟩), (0, ⟨0, 1, QueueSignal.hello.body⟩), (1, ⟨0, 2, QueueSignal.hello.body⟩)]⟩

theorem no_message_stranded_two :
    (drained.tokens ≤ 1 ∧
        (∀ k : ℕ, drained.threads[k]? = some ThreadPc.notify → drained.queue.notify ≠ none) ∧
          ∀ msg, drained.main ≠ .exited msg) ∧
      (drained.queue.messages ≠ [] → ∃ pc ∈ drained.threads, pc ≠ .done) ∧
        (numbers (drained.received.map Prod.snd)).Nodup ∧
          (numbers drained.queue.messages ++ numbers (drained.received.map Prod.snd)).Perm
            (List.range drained.sent) :=
  no_message_stranded (System.reachable_of_run (s := start 10) rfl drain rfl)

end LinuxApi.QueueThread
