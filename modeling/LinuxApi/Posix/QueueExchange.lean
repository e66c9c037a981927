import LinuxApi.Kernel.MessageQueue
import LinuxApi.Transition.History
import LinuxApi.Transition.Indexed
import LinuxApi.Transition.System
import Mathlib.Data.Fin.VecNotation

/-! `ipc_posix_mq_create`, `ipc_posix_mq_write`, `ipc_posix_mq_read` and `ipc_posix_mq_destroy` in
`ipc_posix_mq.c`, any number of each at the same time. A queue has a name until it is unlinked; who opened it
before goes on with it, and a later one of the same name is another. The history holds what each process does. -/

namespace LinuxApi.QueueExchange

inductive Role where
  | create | write | read | destroy
  deriving DecidableEq

/-- `struct mq_message` -/
structure MqMessage where
  number : ℤ
  name : String
  deriving DecidableEq

/-- `MQ_SIZE` -/
def mqSize : ℕ := 10

/-- `sizeof(struct mq_message)` -/
def msgsize : ℕ := 104

/-- What `ipc_posix_mq_write` sends. -/
def written : List (Message MqMessage) :=
  [⟨1, 100, "Myunghoon Ahn"⟩, ⟨0, 101, "Soohyun Ahn"⟩, ⟨2, 102, "Ahhyun Kim"⟩]

/-- What is printed, one `printf` each. -/
inductive Line where
  | messages (n : ℕ)
  | received (bytes priority : ℕ)
  | number (n : ℤ)
  | name (s : String)
  deriving DecidableEq

def Line.text : Line → String
  | .messages n => "Number of message on queue = " ++ toString n ++ "\n"
  | .received bytes priority =>
    "read bytes = " ++ toString bytes ++ ", priority = " ++ toString priority ++ "\n"
  | .number n => "number = " ++ toString n ++ "\n"
  | .name s => "name = " ++ s ++ "\n"

/-- What `ipc_posix_mq_read` prints about a message. -/
def linesOf (m : Message MqMessage) : List Line :=
  [.received msgsize m.priority, .number m.body.number, .name m.body.name]

/-- Where a process is; it has opened the queue `o`, and `rest` is what it has still to send or to print. -/
inductive Pc where
  | start
  | send (o : ℕ) (rest : List (Message MqMessage))
  | getattr (o : ℕ)
  | print (o n : ℕ)
  | receive (o : ℕ)
  | printMessage (rest : List Line)
  | done
  | failed (msg : String)
  deriving DecidableEq

inductive Event where
  | created (o : ℕ)
  | unlinked (o : ℕ)
  | sent (o : ℕ) (m : Message MqMessage)
  | received (o : ℕ) (m : Message MqMessage)
  | counted (o n : ℕ)
  | printed (line : Line)
  deriving DecidableEq

/-- `name` is the queue that `POSIX_MQ` names, and `next` one that has not existed yet. -/
structure State (ι : Type*) where
  name : Option ℕ
  queue : ℕ → MessageQueue MqMessage
  next : ℕ
  pc : ι → Pc
  history : List (ι × Event)

/-- The next call of a process, which fails unless `ok`. -/
structure Action (ι : Type*) where
  who : ι
  ok : Bool

variable {ι : Type*} [DecidableEq ι]

def State.goto (s : State ι) (i : ι) (pc : Pc) : State ι := { s with pc := Function.update s.pc i pc }

/-- A step with an event. -/
def State.act (s : State ι) (i : ι) (pc : Pc) (e : Event) : State ι :=
  { s.goto i pc with history := s.history ++ [(i, e)] }

def State.setQueue (s : State ι) (o : ℕ) (q : MessageQueue MqMessage) : State ι :=
  { s with queue := Function.update s.queue o q }

/-- `O_EXCL`: there must be no queue with that name. -/
def ipcPosixMqCreate (s : State ι) (i : ι) (ok : Bool) : Option (State ι) :=
  match s.pc i with
  | .start =>
    if ok ∧ s.name = none then
      some { (s.setQueue s.next (.new mqSize)).act i .done (.created s.next) with
        name := some s.next, next := s.next + 1 }
    else some (s.goto i (.failed "mq_open()"))
  | _ => none

/-- `mq_open` of a queue that should exist. -/
def mqOpen (s : State ι) (i : ι) (ok : Bool) (pc : ℕ → Pc) : State ι :=
  match s.name with
  | some o => if ok then s.goto i (pc o) else s.goto i (.failed "mq_open()")
  | none => s.goto i (.failed "mq_open()")

/-- `mq_getattr` -/
def mqGetattr (s : State ι) (i : ι) (ok : Bool) (o : ℕ) : State ι :=
  if ok then s.act i (.print o (s.queue o).messages.length) (.counted o (s.queue o).messages.length)
  else s.goto i (.failed "mq_getattr()")

/-- `mq_send` blocks while the queue is full. -/
def ipcPosixMqWrite (s : State ι) (i : ι) (ok : Bool) : Option (State ι) :=
  match s.pc i with
  | .start => some (mqOpen s i ok fun o => .send o written)
  | .send o (m :: rest) =>
    if ok then ((s.queue o).send m).map fun r => (s.setQueue o r.1).act i (.send o rest) (.sent o m)
    else some (s.goto i (.failed "mq_send()"))
  | .send o [] => some (mqGetattr s i ok o)
  | .print _ n => some (s.act i .done (.printed (.messages n)))
  | _ => none

/-- `mq_receive` blocks while the queue is empty. -/
def ipcPosixMqRead (s : State ι) (i : ι) (ok : Bool) : Option (State ι) :=
  match s.pc i with
  | .start => some (mqOpen s i ok .getattr)
  | .getattr o => some (mqGetattr s i ok o)
  | .print o n => some (s.act i (.receive o) (.printed (.messages n)))
  | .receive o =>
    if ok then
      (s.queue o).receive.map fun r => (s.setQueue o r.2).act i (.printMessage (linesOf r.1)) (.received o r.1)
    else some (s.goto i (.failed "mq_receive()"))
  | .printMessage (line :: rest) => some (s.act i (.printMessage rest) (.printed line))
  | .printMessage [] => some (s.goto i .done)
  | _ => none

def ipcPosixMqDestroy (s : State ι) (i : ι) (ok : Bool) : Option (State ι) :=
  match s.pc i with
  | .start =>
    match s.name with
    | some o =>
      if ok then some { s.act i .done (.unlinked o) with name := none }
      else some (s.goto i (.failed "mq_unlink()"))
    | none => some (s.goto i (.failed "mq_unlink()"))
  | _ => none

/-- `role i` is the program that `i` runs. At first there is no queue. -/
def system (role : ι → Role) : System (State ι) (Action ι) where
  init s := s = ⟨none, fun _ => .new mqSize, 0, fun _ => .start, []⟩
  step s a :=
    match role a.who with
    | .create => ipcPosixMqCreate s a.who a.ok
    | .write => ipcPosixMqWrite s a.who a.ok
    | .read => ipcPosixMqRead s a.who a.ok
    | .destroy => ipcPosixMqDestroy s a.who a.ok

/-! ### What goes through a queue -/

/-- The messages sent to `o`, in their order. -/
def sent (o : ℕ) (h : List (ι × Event)) : List (Message MqMessage) :=
  h.filterMap fun
    | (_, .sent p m) => if p = o then some m else none
    | _ => none

/-- The messages received from `o`, in their order. -/
def received (o : ℕ) (h : List (ι × Event)) : List (Message MqMessage) :=
  h.filterMap fun
    | (_, .received p m) => if p = o then some m else none
    | _ => none

/-- The events of a process that has sent or received, at its end. -/
def complete (role : Role) (o n : ℕ) (m : Message MqMessage) : List Event :=
  match role with
  | .write => written.map (.sent o) ++ [.counted o n, .printed (.messages n)]
  | .read => [.counted o n, .printed (.messages n), .received o m] ++ (linesOf m).map .printed
  | _ => []

/-- A message has been sent more often than received. -/
def Waits (o : ℕ) (pre : List (ι × Event)) (m : Message MqMessage) : Prop :=
  (received o pre).count m < (sent o pre).count m

/-- What the events before allow: a new queue has not been used, a message is sent where there is room, one is
received that waits and no other that waits has a higher priority, and what is counted is what waits. -/
def Legal (pre : List (ι × Event)) : ι × Event → Prop
  | (_, .created o) => sent o pre = [] ∧ received o pre = []
  | (_, .unlinked _) => True
  | (_, .sent o _) => (sent o pre).length < (received o pre).length + mqSize
  | (_, .received o m) => Waits o pre m ∧ ∀ n, Waits o pre n → n.priority ≤ m.priority
  | (_, .counted o n) => n + (received o pre).length = (sent o pre).length
  | (_, .printed _) => True

/-- The queue a process works on. -/
def Pc.object : Pc → Option ℕ
  | .send o _ | .getattr o | .print o _ | .receive o => some o
  | _ => none

/-- The events of a process, by its place. -/
def Own (role : Role) (own : List Event) : Pc → Prop
  | .start => own = []
  | .send o rest => role = .write ∧ ∃ done, done ++ rest = written ∧ own = done.map (.sent o)
  | .getattr _ => role = .read ∧ own = []
  | .print o n => role = .write ∧ own = written.map (.sent o) ++ [.counted o n] ∨
      role = .read ∧ own = [.counted o n]
  | .receive o => role = .read ∧ ∃ n, own = [.counted o n, .printed (.messages n)]
  | .printMessage rest => role = .read ∧ ∃ o n m done, done ++ rest = linesOf m ∧
      own = [.counted o n, .printed (.messages n), .received o m] ++ done.map .printed
  | .done => role = .create ∨ role = .destroy ∨ ∃ o n m, own = complete role o n m
  | .failed _ => True

structure Inv (role : ι → Role) (s : State ι) : Prop where
  perm : ∀ o, (sent o s.history).Perm (received o s.history ++ (s.queue o).messages)
  fifo : ∀ o p, MessageQueue.ofPriority p (sent o s.history) =
    MessageQueue.ofPriority p (received o s.history) ++ MessageQueue.ofPriority p (s.queue o).messages
  maxmsg : ∀ o, (s.queue o).maxmsg = mqSize
  fresh : ∀ o, s.next ≤ o → sent o s.history = []
  name : ∀ o ∈ s.name, o < s.next
  opened : ∀ i, ∀ o ∈ (s.pc i).object, o < s.next
  legal : Each Legal s.history
  own : ∀ i, Own (role i) (eventsOf i s.history) (s.pc i)

variable {role : ι → Role} {s t : State ι} {i j : ι} {o : ℕ} {ok : Bool}

omit [DecidableEq ι] in
theorem sent_concat (o : ℕ) (h : List (ι × Event)) (x : ι × Event) : sent o (h ++ [x]) = sent o h ++ sent o [x] :=
  List.filterMap_append

omit [DecidableEq ι] in
theorem received_concat (o : ℕ) (h : List (ι × Event)) (x : ι × Event) :
    received o (h ++ [x]) = received o h ++ received o [x] :=
  List.filterMap_append

theorem goto_self (s : State ι) (i : ι) (pc : Pc) : (s.goto i pc).pc i = pc := Function.update_self ..

theorem goto_of_ne (s : State ι) (pc : Pc) (h : j ≠ i) : (s.goto i pc).pc j = s.pc j :=
  Function.update_of_ne h ..

omit [DecidableEq ι] in
theorem setQueue_self (s : State ι) (o : ℕ) (q : MessageQueue MqMessage) : (s.setQueue o q).queue o = q :=
  Function.update_self ..

omit [DecidableEq ι] in
theorem setQueue_of_ne (s : State ι) (q : MessageQueue MqMessage) {p : ℕ} (h : p ≠ o) :
    (s.setQueue o q).queue p = s.queue p :=
  Function.update_of_ne h ..

/-- What waits in a queue has been sent and not been received. -/
theorem Inv.waits_iff (hi : Inv role s) (o : ℕ) (m : Message MqMessage) :
    Waits o s.history m ↔ m ∈ (s.queue o).messages := by
  have hcount := (hi.perm o).count_eq m
  rw [List.count_append] at hcount
  unfold Waits
  rw [hcount, ← List.count_pos_iff]
  omega

theorem Inv.length_eq (hi : Inv role s) (o : ℕ) :
    (sent o s.history).length = (received o s.history).length + (s.queue o).messages.length := by
  rw [(hi.perm o).length_eq, List.length_append]

/-- A step without an event. -/
theorem Inv.goto (hi : Inv role s) {pc : Pc} (hown : Own (role i) (eventsOf i s.history) pc)
    (hopened : ∀ o ∈ pc.object, o < s.next) : Inv role (s.goto i pc) := by
  refine ⟨hi.perm, hi.fifo, hi.maxmsg, hi.fresh, hi.name, fun j o ho => ?_, hi.legal, fun j => ?_⟩
  · by_cases hj : j = i
    · subst hj
      rw [goto_self] at ho
      exact hopened o ho
    · rw [goto_of_ne s pc hj] at ho
      exact hi.opened j o ho
  · by_cases hj : j = i
    · subst hj
      rw [goto_self]
      exact hown
    · rw [goto_of_ne s pc hj]
      exact hi.own j

/-- A step with an event that is about no message. -/
theorem Inv.tell (hi : Inv role s) {pc : Pc} {e : Event} (hsent : ∀ o, sent o [(i, e)] = [])
    (hreceived : ∀ o, received o [(i, e)] = []) (hlegal : Legal s.history (i, e))
    (hown : Own (role i) (eventsOf i s.history ++ [e]) pc) (hopened : ∀ o ∈ pc.object, o < s.next) :
    Inv role (s.act i pc e) := by
  have hs : ∀ o, sent o (s.history ++ [(i, e)]) = sent o s.history := by
    intro o
    rw [sent_concat, hsent, List.append_nil]
  have hr : ∀ o, received o (s.history ++ [(i, e)]) = received o s.history := by
    intro o
    rw [received_concat, hreceived, List.append_nil]
  refine ⟨fun o => ?_, fun o p => ?_, hi.maxmsg, fun o ho => ?_, hi.name, fun j o ho => ?_, hi.legal.concat hlegal,
    fun j => ?_⟩
  · show (sent o (s.history ++ [(i, e)])).Perm (received o (s.history ++ [(i, e)]) ++ (s.queue o).messages)
    rw [hs, hr]
    exact hi.perm o
  · show MessageQueue.ofPriority p (sent o (s.history ++ [(i, e)])) =
      MessageQueue.ofPriority p (received o (s.history ++ [(i, e)])) ++ MessageQueue.ofPriority p (s.queue o).messages
    rw [hs, hr]
    exact hi.fifo o p
  · show sent o (s.history ++ [(i, e)]) = []
    rw [hs]
    exact hi.fresh o ho
  · have ho : o ∈ ((s.goto i pc).pc j).object := ho
    by_cases hj : j = i
    · subst hj
      rw [goto_self] at ho
      exact hopened o ho
    · rw [goto_of_ne s pc hj] at ho
      exact hi.opened j o ho
  · show Own (role j) (eventsOf j (s.history ++ [(i, e)])) ((s.goto i pc).pc j)
    rw [eventsOf_concat]
    by_cases hj : j = i
    · subst hj
      rw [if_pos rfl, goto_self]
      exact hown
    · rw [if_neg (Ne.symm hj), List.append_nil, goto_of_ne s pc hj]
      exact hi.own j

/-- A step with an event, after which what waits in a queue is what the events say. -/
theorem Inv.act (hi : Inv role s) {q : MessageQueue MqMessage} {pc : Pc} {e : Event} (ho : o < s.next)
    (hperm : (sent o (s.history ++ [(i, e)])).Perm (received o (s.history ++ [(i, e)]) ++ q.messages))
    (hfifo : ∀ p, MessageQueue.ofPriority p (sent o (s.history ++ [(i, e)])) =
      MessageQueue.ofPriority p (received o (s.history ++ [(i, e)])) ++ MessageQueue.ofPriority p q.messages)
    (hmaxmsg : q.maxmsg = mqSize) (hother : ∀ p, p ≠ o → sent p [(i, e)] = [] ∧ received p [(i, e)] = [])
    (hlegal : Legal s.history (i, e)) (hown : Own (role i) (eventsOf i s.history ++ [e]) pc)
    (hopened : ∀ o ∈ pc.object, o < s.next) : Inv role ((s.setQueue o q).act i pc e) := by
  refine ⟨fun p => ?_, fun p n => ?_, fun p => ?_, fun p hp => ?_, hi.name, fun j p hp => ?_, hi.legal.concat hlegal,
    fun j => ?_⟩
  · by_cases hpo : p = o
    · subst hpo
      show (sent p (s.history ++ [(i, e)])).Perm (_ ++ ((s.setQueue p q).queue p).messages)
      rw [setQueue_self]
      exact hperm
    · show (sent p (s.history ++ [(i, e)])).Perm
        (received p (s.history ++ [(i, e)]) ++ ((s.setQueue o q).queue p).messages)
      rw [setQueue_of_ne s q hpo, sent_concat, received_concat, (hother p hpo).1, (hother p hpo).2, List.append_nil,
        List.append_nil]
      exact hi.perm p
  · by_cases hpo : p = o
    · subst hpo
      show _ = _ ++ MessageQueue.ofPriority n ((s.setQueue p q).queue p).messages
      rw [setQueue_self]
      exact hfifo n
    · show MessageQueue.ofPriority n (sent p (s.history ++ [(i, e)])) =
        MessageQueue.ofPriority n (received p (s.history ++ [(i, e)])) ++
          MessageQueue.ofPriority n ((s.setQueue o q).queue p).messages
      rw [setQueue_of_ne s q hpo, sent_concat, received_concat, (hother p hpo).1, (hother p hpo).2, List.append_nil,
        List.append_nil]
      exact hi.fifo p n
  · by_cases hpo : p = o
    · subst hpo
      show ((s.setQueue p q).queue p).maxmsg = mqSize
      rw [setQueue_self]
      exact hmaxmsg
    · show ((s.setQueue o q).queue p).maxmsg = mqSize
      rw [setQueue_of_ne s q hpo]
      exact hi.maxmsg p
  · have hp : s.next ≤ p := hp
    show sent p (s.history ++ [(i, e)]) = []
    rw [sent_concat, (hother p (by omega)).1, List.append_nil]
    exact hi.fresh p hp
  · by_cases hj : j = i
    · subst hj
      apply hopened
      have hpc : ((s.setQueue o q).goto j pc).pc j = pc := goto_self _ j pc
      rw [← hpc]
      exact hp
    · apply hi.opened j
      have hpc : ((s.setQueue o q).goto i pc).pc j = s.pc j := goto_of_ne _ pc hj
      rw [← hpc]
      exact hp
  · show Own (role j) (eventsOf j (s.history ++ [(i, e)])) (((s.setQueue o q).goto i pc).pc j)
    rw [eventsOf_concat]
    by_cases hj : j = i
    · subst hj
      rw [if_pos rfl, goto_self]
      exact hown
    · rw [if_neg (Ne.symm hj), List.append_nil, goto_of_ne _ pc hj]
      exact hi.own j

/-! ### Every call -/

/-- An error ends a process. -/
theorem Inv.fail (hi : Inv role s) (i : ι) (msg : String) : Inv role (s.goto i (.failed msg)) :=
  hi.goto trivial fun o ho => absurd ho (Option.not_mem_none o)

theorem Inv.open_step (hi : Inv role s) {pc : ℕ → Pc} (hown : ∀ o, Own (role i) (eventsOf i s.history) (pc o))
    (hobject : ∀ o, (pc o).object = some o) : Inv role (mqOpen s i ok pc) := by
  unfold mqOpen
  split
  · rename_i o hname
    split_ifs
    · apply hi.goto (hown o)
      intro p hp
      rw [hobject o] at hp
      obtain rfl : o = p := Option.some.inj hp
      exact hi.name o hname
    · exact hi.fail i _
  · exact hi.fail i _

theorem Inv.getattr_step (hi : Inv role s) (ho : o < s.next)
    (hown : ∀ n, Own (role i) (eventsOf i s.history ++ [.counted o n]) (.print o n)) :
    Inv role (mqGetattr s i ok o) := by
  unfold mqGetattr
  split_ifs
  · refine hi.tell (fun _ => rfl) (fun _ => rfl) ?_ (hown _) fun p hp => ?_
    · have hlength := hi.length_eq o
      show _ + _ = _
      omega
    · obtain rfl : o = p := Option.some.inj hp
      exact ho
  · exact hi.fail i _

/-- There is a new queue. -/
theorem Inv.new (hi : Inv role s) : Inv role { s.setQueue s.next (.new mqSize) with
    name := some s.next, next := s.next + 1 } := by
  have hempty := hi.fresh s.next le_rfl
  have hperm := hi.perm s.next
  rw [hempty, List.nil_perm, List.append_eq_nil_iff] at hperm
  refine ⟨fun o => ?_, fun o p => ?_, fun o => ?_, fun o ho => ?_, fun o ho => ?_, fun j o ho => ?_, hi.legal,
    hi.own⟩
  · show (sent o s.history).Perm (received o s.history ++ ((s.setQueue s.next (.new mqSize)).queue o).messages)
    by_cases hon : o = s.next
    · subst hon
      rw [setQueue_self, hempty, hperm.1]
      exact .nil
    · rw [setQueue_of_ne s _ hon]
      exact hi.perm o
  · show MessageQueue.ofPriority p (sent o s.history) = MessageQueue.ofPriority p (received o s.history) ++
      MessageQueue.ofPriority p ((s.setQueue s.next (.new mqSize)).queue o).messages
    by_cases hon : o = s.next
    · subst hon
      rw [setQueue_self, hempty, hperm.1]
      rfl
    · rw [setQueue_of_ne s _ hon]
      exact hi.fifo o p
  · show ((s.setQueue s.next (.new mqSize)).queue o).maxmsg = mqSize
    by_cases hon : o = s.next
    · subst hon
      rw [setQueue_self]
      rfl
    · rw [setQueue_of_ne s _ hon]
      exact hi.maxmsg o
  · have ho : s.next + 1 ≤ o := ho
    exact hi.fresh o (by omega)
  · obtain rfl : s.next = o := Option.some.inj ho
    exact Nat.lt_succ_self _
  · have hlt := hi.opened j o ho
    show o < s.next + 1
    omega

theorem Inv.create_step (hi : Inv role s) (hrole : role i = .create) (h : ipcPosixMqCreate s i ok = some t) :
    Inv role t := by
  unfold ipcPosixMqCreate at h
  cases hpc : s.pc i with
  | start =>
    simp only [hpc] at h
    split_ifs at h <;> cases h
    · have hempty := hi.fresh s.next le_rfl
      have hperm := hi.perm s.next
      rw [hempty, List.nil_perm, List.append_eq_nil_iff] at hperm
      have hnew : Inv role (State.act { s.setQueue s.next (.new mqSize) with
          name := some s.next, next := s.next + 1 } i .done (.created s.next)) :=
        hi.new.tell (fun _ => rfl) (fun _ => rfl) ⟨hempty, hperm.1⟩ (.inl hrole)
          fun o ho => absurd ho (Option.not_mem_none o)
      exact hnew
    · exact hi.fail i _
  | send | getattr | print | receive | printMessage | done | failed => simp [hpc] at h

theorem Inv.noName (hi : Inv role s) : Inv role { s with name := none } :=
  ⟨hi.perm, hi.fifo, hi.maxmsg, hi.fresh, fun o ho => absurd ho (Option.not_mem_none o), hi.opened, hi.legal, hi.own⟩

theorem Inv.destroy_step (hi : Inv role s) (hrole : role i = .destroy) (h : ipcPosixMqDestroy s i ok = some t) :
    Inv role t := by
  unfold ipcPosixMqDestroy at h
  cases hpc : s.pc i with
  | start =>
    simp only [hpc] at h
    split at h
    · split_ifs at h <;> cases h
      · exact hi.noName.tell (fun _ => rfl) (fun _ => rfl) trivial (.inr (.inl hrole))
          fun o ho => absurd ho (Option.not_mem_none o)
      · exact hi.fail i _
    · cases h
      exact hi.fail i _
  | send | getattr | print | receive | printMessage | done | failed => simp [hpc] at h

/-- A message goes into a queue. -/
theorem Inv.send_step (hi : Inv role s) {m : Message MqMessage} {rest : List (Message MqMessage)}
    (hpc : s.pc i = .send o (m :: rest)) {q : MessageQueue MqMessage} {fired : Bool}
    (h : (s.queue o).send m = some (q, fired)) :
    Inv role ((s.setQueue o q).act i (.send o rest) (.sent o m)) := by
  obtain ⟨hmessages, hmaxmsg, hlt⟩ := MessageQueue.send_messages h
  have hsent : sent o [(i, .sent o m)] = [m] := by simp [sent]
  have hreceived : received o [(i, .sent o m)] = [] := rfl
  have hopened := hi.opened i
  have hown := hi.own i
  rw [hpc] at hopened hown
  obtain ⟨hrole, done, hdone, hown⟩ := hown
  refine hi.act (hopened o rfl) ?_ (fun p => ?_) (hmaxmsg.trans (hi.maxmsg o)) (fun p hp => ?_) ?_ ?_ hopened
  · rw [sent_concat, received_concat, hsent, hreceived, hmessages, List.append_nil]
    have hafter := (hi.perm o).append_right [m]
    have hplaced := (List.perm_append_singleton m _).trans (MessageQueue.place_perm m (s.queue o).messages).symm
    rw [List.append_assoc] at hafter
    exact hafter.trans (hplaced.append_left _)
  · rw [sent_concat, received_concat, hsent, hreceived, hmessages, List.append_nil, MessageQueue.ofPriority_append,
      hi.fifo o p, MessageQueue.ofPriority_place p m (s.queue o).ordered, List.append_assoc]
  · exact ⟨by simp [sent, Ne.symm hp], rfl⟩
  · have hlength := hi.length_eq o
    have hmax := hi.maxmsg o
    show _ < _ + _
    omega
  · refine ⟨hrole, done ++ [m], ?_, ?_⟩
    · rw [List.append_assoc]
      exact hdone
    · rw [hown, List.map_append]
      rfl

/-- The first message of a queue is received. -/
theorem Inv.receive_step (hi : Inv role s) (hpc : s.pc i = .receive o) {m : Message MqMessage}
    {q : MessageQueue MqMessage} (h : (s.queue o).receive = some (m, q)) :
    Inv role ((s.setQueue o q).act i (.printMessage (linesOf m)) (.received o m)) := by
  obtain ⟨hmessages, -⟩ := MessageQueue.receive_eq_some h
  have hsent : sent o [(i, .received o m)] = [] := rfl
  have hreceived : received o [(i, .received o m)] = [m] := by simp [received]
  have hopened := hi.opened i
  have hown := hi.own i
  rw [hpc] at hopened hown
  obtain ⟨hrole, n, hown⟩ := hown
  refine hi.act (hopened o rfl) ?_ (fun p => ?_) ((MessageQueue.receive_maxmsg h).trans (hi.maxmsg o))
    (fun p hp => ?_) ⟨?_, fun x hx => ?_⟩ ?_ fun p hp => absurd hp (Option.not_mem_none p)
  · have hperm := hi.perm o
    rw [sent_concat, received_concat, hsent, hreceived, List.append_nil, List.append_assoc]
    rw [hmessages] at hperm
    exact hperm
  · have hfifo := hi.fifo o p
    rw [sent_concat, received_concat, hsent, hreceived, List.append_nil, MessageQueue.ofPriority_append,
      List.append_assoc, ← MessageQueue.ofPriority_append]
    rw [hmessages] at hfifo
    exact hfifo
  · exact ⟨rfl, by simp [received, Ne.symm hp]⟩
  · rw [hi.waits_iff, hmessages]
    exact List.mem_cons_self
  · rw [hi.waits_iff] at hx
    exact MessageQueue.receive_priority h hx
  · refine ⟨hrole, o, n, m, [], rfl, ?_⟩
    rw [hown]
    rfl

theorem Inv.write_step (hi : Inv role s) (hrole : role i = .write) (h : ipcPosixMqWrite s i ok = some t) :
    Inv role t := by
  have hown := hi.own i
  have hopened := hi.opened i
  unfold ipcPosixMqWrite at h
  cases hpc : s.pc i with
  | start =>
    simp only [hpc, Option.some.injEq] at h
    subst h
    rw [hpc] at hown
    refine hi.open_step (fun o => ⟨hrole, [], rfl, ?_⟩) fun o => rfl
    exact hown
  | send o rest =>
    rw [hpc] at hown hopened
    cases rest with
    | nil =>
      simp only [hpc, Option.some.injEq] at h
      subst h
      obtain ⟨-, done, hdone, hown⟩ := hown
      rw [List.append_nil] at hdone
      refine hi.getattr_step (hopened o rfl) fun n => .inl ⟨hrole, ?_⟩
      rw [hown, hdone]
    | cons m rest =>
      simp only [hpc] at h
      split_ifs at h
      · obtain ⟨⟨q, fired⟩, hsend, rfl⟩ := Option.map_eq_some_iff.mp h
        exact hi.send_step hpc hsend
      · cases h
        exact hi.fail i _
  | print o n =>
    simp only [hpc, Option.some.injEq] at h
    subst h
    rw [hpc] at hown
    obtain ⟨-, hown⟩ | ⟨hread, -⟩ := hown
    · refine hi.tell (fun _ => rfl) (fun _ => rfl) trivial (.inr (.inr ⟨o, n, ⟨0, 0, ""⟩, ?_⟩))
        fun o ho => absurd ho (Option.not_mem_none o)
      rw [hown, hrole, List.append_assoc]
      rfl
    · rw [hrole] at hread
      cases hread
  | getattr | receive | printMessage | done | failed => simp [hpc] at h

theorem Inv.read_step (hi : Inv role s) (hrole : role i = .read) (h : ipcPosixMqRead s i ok = some t) :
    Inv role t := by
  have hown := hi.own i
  have hopened := hi.opened i
  unfold ipcPosixMqRead at h
  cases hpc : s.pc i with
  | start =>
    simp only [hpc, Option.some.injEq] at h
    subst h
    rw [hpc] at hown
    exact hi.open_step (fun o => ⟨hrole, hown⟩) fun o => rfl
  | getattr o =>
    simp only [hpc, Option.some.injEq] at h
    subst h
    rw [hpc] at hown hopened
    obtain ⟨-, hown⟩ := hown
    refine hi.getattr_step (hopened o rfl) fun n => .inr ⟨hrole, ?_⟩
    rw [hown]
    rfl
  | print o n =>
    simp only [hpc, Option.some.injEq] at h
    subst h
    rw [hpc] at hown hopened
    obtain ⟨hwrite, -⟩ | ⟨-, hown⟩ := hown
    · rw [hrole] at hwrite
      cases hwrite
    · refine hi.tell (fun _ => rfl) (fun _ => rfl) trivial ⟨hrole, n, ?_⟩ hopened
      rw [hown]
      rfl
  | receive o =>
    simp only [hpc] at h
    split_ifs at h
    · obtain ⟨⟨m, q⟩, hreceive, rfl⟩ := Option.map_eq_some_iff.mp h
      exact hi.receive_step hpc hreceive
    · cases h
      exact hi.fail i _
  | printMessage rest =>
    rw [hpc] at hown
    obtain ⟨-, o, n, m, done, hdone, hown⟩ := hown
    cases rest with
    | nil =>
      simp only [hpc, Option.some.injEq] at h
      subst h
      rw [List.append_nil] at hdone
      refine hi.goto (.inr (.inr ⟨o, n, m, ?_⟩)) fun o ho => absurd ho (Option.not_mem_none o)
      rw [hown, hdone, hrole]
      rfl
    | cons line rest =>
      simp only [hpc, Option.some.injEq] at h
      subst h
      refine hi.tell (fun _ => rfl) (fun _ => rfl) trivial ⟨hrole, o, n, m, done ++ [line], ?_, ?_⟩
        fun o ho => absurd ho (Option.not_mem_none o)
      · rw [List.append_assoc]
        exact hdone
      · rw [hown, List.append_assoc, List.map_append]
        rfl
  | send | done | failed => simp [hpc] at h

theorem Inv.step (hi : Inv role s) {a : Action ι} (h : (system role).step s a = some t) : Inv role t := by
  simp only [system] at h
  split at h
  · rename_i hrole
    exact hi.create_step hrole h
  · rename_i hrole
    exact hi.write_step hrole h
  · rename_i hrole
    exact hi.read_step hrole h
  · rename_i hrole
    exact hi.destroy_step hrole h

theorem inv_reachable (h : (system role).Reachable s) : Inv role s := by
  refine h.invariant (I := Inv role) (fun s hs => ?_) fun s a t hi ht => hi.step ht
  have hs : s = _ := hs
  rw [hs]
  refine ⟨fun o => .nil, fun o p => rfl, fun o => rfl, fun o _ => rfl, ?_, ?_, Each.nil, fun i => rfl⟩
  · exact fun o ho => absurd ho (Option.not_mem_none o)
  · exact fun i o ho => absurd ho (Option.not_mem_none o)

/-- In every run of any number of these programs, whatever fails: the messages of one priority are received from a
queue in the order in which they were sent to it, each of them once, and those not yet received wait in it, at most
ten of them; a message is received only when no other that waits has a higher priority; and what a process prints at
its end is the message it has received, and the number of messages that waited when it asked. -/
theorem exchanged_in_order (h : (system role).Reachable s) :
    (∀ o, (sent o s.history).Perm (received o s.history ++ (s.queue o).messages) ∧
      (s.queue o).messages.length ≤ mqSize ∧ ∀ p, MessageQueue.ofPriority p (sent o s.history) =
        MessageQueue.ofPriority p (received o s.history) ++ MessageQueue.ofPriority p (s.queue o).messages) ∧
      Each Legal s.history ∧ ∀ i, Own (role i) (eventsOf i s.history) (s.pc i) := by
  have hi := inv_reachable h
  refine ⟨fun o => ⟨hi.perm o, ?_, hi.fifo o⟩, hi.legal, hi.own⟩
  have hbounded := (s.queue o).bounded
  rw [hi.maxmsg o] at hbounded
  exact hbounded

/-- A writer and two readers: the third message is received first, then the first one. -/
theorem exchanged_in_order_two :
    let role : Fin 4 → Role := ![.create, .write, .read, .read]
    ∃ as s t, (system role).run s as = some t ∧ received 0 t.history = [⟨2, 102, "Ahhyun Kim"⟩,
      ⟨1, 100, "Myunghoon Ahn"⟩] ∧
      (sent 0 t.history).Perm (received 0 t.history ++ (t.queue 0).messages) := by
  intro role
  let as : List (Action (Fin 4)) := [⟨0, true⟩, ⟨1, true⟩, ⟨1, true⟩, ⟨1, true⟩, ⟨1, true⟩, ⟨2, true⟩, ⟨2, true⟩,
    ⟨2, true⟩, ⟨3, true⟩, ⟨3, true⟩, ⟨3, true⟩, ⟨2, true⟩, ⟨3, true⟩]
  let s : State (Fin 4) := ⟨none, fun _ => .new mqSize, 0, fun _ => .start, []⟩
  have hs : (system role).init s := rfl
  have hend : ((system role).run s as).map (fun t => received 0 t.history) =
      some [⟨2, 102, "Ahhyun Kim"⟩, ⟨1, 100, "Myunghoon Ahn"⟩] := by decide +kernel
  obtain ⟨t, ht, hend⟩ := Option.map_eq_some_iff.mp hend
  exact ⟨as, s, t, ht, hend, ((exchanged_in_order (System.reachable_of_run hs as ht)).1 0).1⟩

/-! ### The processes that block -/

/-- How many calls a process has still to make. -/
def Pc.work (role : Role) : Pc → ℕ
  | .start => 8
  | .send _ rest => rest.length + 2
  | .getattr _ => 7
  | .print _ _ => if role = .write then 1 else 6
  | .receive _ => 5
  | .printMessage rest => rest.length + 1
  | .done | .failed _ => 0

def State.work [Fintype ι] (role : ι → Role) (s : State ι) : ℕ := ∑ i, (s.pc i).work (role i)

/-- The process has ended. -/
def Pc.ended : Pc → Bool
  | .done | .failed _ => true
  | _ => false

theorem mqOpen_pc (s : State ι) (i : ι) (ok : Bool) (pc : ℕ → Pc) : ∃ q, (mqOpen s i ok pc).pc = Function.update s.pc i q ∧
    ((∃ o, q = pc o) ∨ q = .failed "mq_open()") := by
  unfold mqOpen
  split
  · split_ifs
    · exact ⟨_, rfl, .inl ⟨_, rfl⟩⟩
    · exact ⟨_, rfl, .inr rfl⟩
  · exact ⟨_, rfl, .inr rfl⟩

theorem mqGetattr_pc (s : State ι) (i : ι) (ok : Bool) (o : ℕ) : ∃ q, (mqGetattr s i ok o).pc = Function.update s.pc i q ∧
    ((∃ n, q = .print o n) ∨ q = .failed "mq_getattr()") := by
  unfold mqGetattr
  split_ifs
  · exact ⟨_, rfl, .inl ⟨_, rfl⟩⟩
  · exact ⟨_, rfl, .inr rfl⟩

theorem write_pc (h : ipcPosixMqWrite s i ok = some t) :
    ∃ q, t.pc = Function.update s.pc i q ∧ q.work .write < (s.pc i).work .write := by
  unfold ipcPosixMqWrite at h
  cases hpc : s.pc i with
  | start =>
    simp only [hpc, Option.some.injEq] at h
    subst h
    obtain ⟨q, hq, ⟨o, rfl⟩ | rfl⟩ := mqOpen_pc s i ok fun o => .send o written
    · exact ⟨_, hq, show 5 < 8 by decide⟩
    · exact ⟨_, hq, Nat.succ_pos 7⟩
  | send o rest =>
    cases rest with
    | nil =>
      simp only [hpc, Option.some.injEq] at h
      subst h
      obtain ⟨q, hq, ⟨n, rfl⟩ | rfl⟩ := mqGetattr_pc s i ok o
      · exact ⟨_, hq, Nat.lt_succ_self 1⟩
      · exact ⟨_, hq, Nat.succ_pos 1⟩
    | cons m rest =>
      simp only [hpc] at h
      split_ifs at h
      · obtain ⟨r, -, rfl⟩ := Option.map_eq_some_iff.mp h
        exact ⟨_, rfl, Nat.lt_succ_self _⟩
      · cases h
        exact ⟨_, rfl, Nat.succ_pos _⟩
  | print o n =>
    simp only [hpc, Option.some.injEq] at h
    subst h
    exact ⟨_, rfl, Nat.succ_pos 0⟩
  | getattr | receive | printMessage | done | failed => simp [hpc] at h

theorem read_pc (h : ipcPosixMqRead s i ok = some t) :
    ∃ q, t.pc = Function.update s.pc i q ∧ q.work .read < (s.pc i).work .read := by
  unfold ipcPosixMqRead at h
  cases hpc : s.pc i with
  | start =>
    simp only [hpc, Option.some.injEq] at h
    subst h
    obtain ⟨q, hq, ⟨o, rfl⟩ | rfl⟩ := mqOpen_pc s i ok .getattr
    · exact ⟨_, hq, Nat.lt_succ_self 7⟩
    · exact ⟨_, hq, Nat.succ_pos 7⟩
  | getattr o =>
    simp only [hpc, Option.some.injEq] at h
    subst h
    obtain ⟨q, hq, ⟨n, rfl⟩ | rfl⟩ := mqGetattr_pc s i ok o
    · exact ⟨_, hq, Nat.lt_succ_self 6⟩
    · exact ⟨_, hq, Nat.succ_pos 6⟩
  | print o n =>
    simp only [hpc, Option.some.injEq] at h
    subst h
    exact ⟨_, rfl, Nat.lt_succ_self 5⟩
  | receive o =>
    simp only [hpc] at h
    split_ifs at h
    · obtain ⟨r, -, rfl⟩ := Option.map_eq_some_iff.mp h
      exact ⟨_, rfl, Nat.lt_succ_self 4⟩
    · cases h
      exact ⟨_, rfl, Nat.succ_pos 4⟩
  | printMessage rest =>
    cases rest with
    | nil =>
      simp only [hpc, Option.some.injEq] at h
      subst h
      exact ⟨_, rfl, Nat.succ_pos 0⟩
    | cons line rest =>
      simp only [hpc, Option.some.injEq] at h
      subst h
      exact ⟨_, rfl, Nat.lt_succ_self _⟩
  | send | done | failed => simp [hpc] at h

/-- A step takes one process further. -/
theorem step_pc {a : Action ι} (h : (system role).step s a = some t) :
    ∃ q, t.pc = Function.update s.pc a.who q ∧ q.work (role a.who) < (s.pc a.who).work (role a.who) := by
  simp only [system] at h
  split at h
  · unfold ipcPosixMqCreate at h
    cases hpc : s.pc a.who with
    | start =>
      simp only [hpc] at h
      split_ifs at h <;> cases h <;> exact ⟨_, rfl, Nat.succ_pos 7⟩
    | send | getattr | print | receive | printMessage | done | failed => simp [hpc] at h
  · rename_i hrole
    rw [hrole]
    exact write_pc h
  · rename_i hrole
    rw [hrole]
    exact read_pc h
  · unfold ipcPosixMqDestroy at h
    cases hpc : s.pc a.who with
    | start =>
      simp only [hpc] at h
      split at h
      · split_ifs at h <;> cases h <;> exact ⟨_, rfl, Nat.succ_pos 7⟩
      · cases h
        exact ⟨_, rfl, Nat.succ_pos 7⟩
    | send | getattr | print | receive | printMessage | done | failed => simp [hpc] at h

theorem work_step [Fintype ι] {a : Action ι} (h : (system role).step s a = some t) :
    t.work role < s.work role := by
  obtain ⟨q, hq, hlt⟩ := step_pc h
  unfold State.work
  rw [hq]
  apply Finset.sum_lt_sum
  · intro j _
    by_cases hj : j = a.who
    · subst hj
      rw [Function.update_self]
      exact hlt.le
    · rw [Function.update_of_ne hj]
  · refine ⟨a.who, Finset.mem_univ _, ?_⟩
    rw [Function.update_self]
    exact hlt

/-- A process whose next call cannot return has ended, waits for a message or waits for room. -/
theorem Inv.blocked (hi : Inv role s) (h : (system role).step s ⟨i, true⟩ = none) :
    (s.pc i).ended = true ∨ (∃ o, s.pc i = .receive o ∧ (s.queue o).messages = []) ∨
      ∃ o m rest, s.pc i = .send o (m :: rest) ∧ (s.queue o).messages.length = mqSize := by
  have hown := hi.own i
  simp only [system] at h
  cases hpc : s.pc i with
  | done | failed => exact .inl rfl
  | start =>
    cases hrole : role i <;> simp only [hrole] at h
    · unfold ipcPosixMqCreate at h
      simp only [hpc] at h
      split_ifs at h
    · simp [ipcPosixMqWrite, hpc] at h
    · simp [ipcPosixMqRead, hpc] at h
    · unfold ipcPosixMqDestroy at h
      simp only [hpc] at h
      split at h <;> simp at h
  | send o rest =>
    rw [hpc] at hown
    cases rest with
    | nil => simp [hown.1, ipcPosixMqWrite, hpc] at h
    | cons m rest =>
      simp only [hown.1, ipcPosixMqWrite, hpc, if_true, Option.map_eq_none_iff] at h
      refine .inr (.inr ⟨o, m, rest, rfl, ?_⟩)
      rw [MessageQueue.send_eq_none.mp h]
      exact hi.maxmsg o
  | getattr o =>
    rw [hpc] at hown
    simp [hown.1, ipcPosixMqRead, hpc] at h
  | print o n =>
    rw [hpc] at hown
    rcases hown with ⟨hrole, -⟩ | ⟨hrole, -⟩
    · simp [hrole, ipcPosixMqWrite, hpc] at h
    · simp [hrole, ipcPosixMqRead, hpc] at h
  | receive o =>
    rw [hpc] at hown
    simp only [hown.1, ipcPosixMqRead, hpc, if_true, Option.map_eq_none_iff] at h
    exact .inr (.inl ⟨o, rfl, MessageQueue.receive_eq_none.mp h⟩)
  | printMessage rest =>
    rw [hpc] at hown
    cases rest <;> simp [hown.1, ipcPosixMqRead, hpc] at h

/-- A run has at most eight calls for each process; and where no call can return, a process has ended, or waits for a
message from a queue from which everything sent to it has been received, or waits for room in one that holds ten. -/
theorem blocked_without_messages [Fintype ι] {as : List (Action ι)} (hs : (system role).init s)
    (h : (system role).run s as = some t) :
    as.length ≤ 8 * Fintype.card ι ∧
      ((∀ i, (system role).step t ⟨i, true⟩ = none) → ∀ i, (t.pc i).ended = true ∨
        (∃ o, t.pc i = .receive o ∧ (sent o t.history).Perm (received o t.history)) ∨
        ∃ o m rest, t.pc i = .send o (m :: rest) ∧
          (sent o t.history).length = (received o t.history).length + mqSize) := by
  have hlength := System.length_add_le_of_run (I := fun _ => True) (fun _ _ _ _ _ => trivial)
    (fun _ _ _ _ ht => work_step ht) trivial h
  have hs : s = _ := hs
  have hwork : s.work role = 8 * Fintype.card ι := by
    rw [hs]
    simp [State.work, Pc.work, mul_comm]
  refine ⟨by omega, fun hstuck i => ?_⟩
  have hi : Inv role t := inv_reachable (System.reachable_of_run hs as h)
  rcases hi.blocked (hstuck i) with hended | ⟨o, hpc, hempty⟩ | ⟨o, m, rest, hpc, hfull⟩
  · exact .inl hended
  · have hperm := hi.perm o
    rw [hempty, List.append_nil] at hperm
    exact .inr (.inl ⟨o, hpc, hperm⟩)
  · have hlength := hi.length_eq o
    exact .inr (.inr ⟨o, m, rest, hpc, by omega⟩)

/-- A reader that finds the queue created and empty. -/
theorem blocked_without_messages_two :
    let role : Fin 2 → Role := ![.create, .read]
    ∃ as s t, (system role).run s as = some t ∧ t.pc 1 = .receive 0 ∧ ∀ i, (t.pc i).ended = true ∨
      (∃ o, t.pc i = .receive o ∧ (sent o t.history).Perm (received o t.history)) ∨
      ∃ o m rest, t.pc i = .send o (m :: rest) ∧
        (sent o t.history).length = (received o t.history).length + mqSize := by
  intro role
  let as : List (Action (Fin 2)) := [⟨0, true⟩, ⟨1, true⟩, ⟨1, true⟩, ⟨1, true⟩]
  let s : State (Fin 2) := ⟨none, fun _ => .new mqSize, 0, fun _ => .start, []⟩
  have hs : (system role).init s := rfl
  have hend : ((system role).run s as).map (fun t => (t.pc 0, t.pc 1, (t.queue 0).messages)) =
      some (.done, .receive 0, []) := by decide +kernel
  obtain ⟨t, ht, hend⟩ := Option.map_eq_some_iff.mp hend
  rw [Prod.mk.injEq, Prod.mk.injEq] at hend
  obtain ⟨hpc0, hpc1, hempty⟩ := hend
  refine ⟨as, s, t, ht, hpc1, (blocked_without_messages hs ht).2 fun i => ?_⟩
  match i with
  | 0 => simp [system, role, ipcPosixMqCreate, hpc0]
  | 1 => simp [system, role, ipcPosixMqRead, hpc1, MessageQueue.receive, hempty]

end LinuxApi.QueueExchange
