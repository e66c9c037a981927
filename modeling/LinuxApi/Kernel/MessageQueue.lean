import Mathlib.Data.List.Sort
import Mathlib.Tactic.Common

/-! POSIX message queues. A message waits behind all of its own or a higher priority;
`mq_receive` takes the first one. One process may be registered for a notification,
which fires once: when a message arrives at an empty queue. -/

namespace LinuxApi

/-- A message with its priority; 0 is the lowest. -/
structure Message (β : Type*) where
  priority : ℕ
  body : β
  deriving DecidableEq

/-- A queue, whether a registration for its next notification is in place, and
`mq_maxmsg`. -/
structure MessageQueue (β : Type*) where
  maxmsg : ℕ
  messages : List (Message β)
  registered : Bool
  bounded : messages.length ≤ maxmsg
  ordered : messages.Pairwise fun m n => n.priority ≤ m.priority

namespace MessageQueue

variable {β : Type*}

/-- Where `mq_send` puts a message. -/
def place (m : Message β) (l : List (Message β)) : List (Message β) :=
  l.orderedInsert (fun m n => n.priority < m.priority) m

theorem place_perm (m : Message β) (l : List (Message β)) : (place m l).Perm (m :: l) :=
  List.perm_orderedInsert _ m l

theorem place_ordered (m : Message β) {l : List (Message β)}
    (h : l.Pairwise fun m n => n.priority ≤ m.priority) :
    (place m l).Pairwise fun m n => n.priority ≤ m.priority := by
  induction l with
  | nil => exact List.pairwise_singleton _ m
  | cons n l ih =>
    obtain ⟨hn, hl⟩ := List.pairwise_cons.mp h
    rw [place, List.orderedInsert_cons]
    split_ifs with hlt
    · refine List.pairwise_cons.mpr ⟨fun x hx => ?_, h⟩
      rcases List.mem_cons.mp hx with rfl | hx
      · exact hlt.le
      · exact (hn x hx).trans hlt.le
    · refine List.pairwise_cons.mpr ⟨fun x hx => ?_, ih hl⟩
      rcases List.mem_cons.mp ((place_perm m l).mem_iff.mp hx) with rfl | hx
      · exact not_lt.mp hlt
      · exact hn x hx

/-- `mq_send`: the queue with the message, and whether the notification fires. `none`
means that the queue is full and the sender blocks. -/
def send (q : MessageQueue β) (m : Message β) : Option (MessageQueue β × Bool) :=
  if h : q.messages.length < q.maxmsg then
    some
      ({ maxmsg := q.maxmsg
         messages := place m q.messages
         registered := q.registered && !q.messages.isEmpty
         bounded := by
          rw [(place_perm m q.messages).length_eq]
          exact h
         ordered := place_ordered m q.ordered },
        q.registered && q.messages.isEmpty)
  else none

/-- A nonblocking `mq_receive`; `none` is `EAGAIN`. -/
def receive (q : MessageQueue β) : Option (Message β × MessageQueue β) :=
  q.messages.head?.map fun m =>
    (m,
      { q with
        messages := q.messages.tail
        bounded := by
          rw [List.length_tail]
          exact (Nat.sub_le _ _).trans q.bounded
        ordered := q.ordered.tail })

/-- `mq_notify` with a notification; `none` is `EBUSY`. -/
def notify (q : MessageQueue β) : Option (MessageQueue β) :=
  if q.registered then none else some { q with registered := true }

/-- A send puts in its message, and fires exactly when it ends a registration. -/
theorem send_eq_some {q r : MessageQueue β} {m : Message β} {fired : Bool}
    (h : q.send m = some (r, fired)) :
    r.messages.Perm (m :: q.messages) ∧ fired = (q.registered && q.messages.isEmpty) ∧
      q.registered.toNat = r.registered.toNat + fired.toNat := by
  simp only [send, Option.dite_none_right_eq_some, Option.some.injEq, Prod.mk.injEq] at h
  obtain ⟨-, rfl, rfl⟩ := h
  refine ⟨place_perm m q.messages, rfl, ?_⟩
  cases q.registered <;> cases q.messages.isEmpty <;> rfl

theorem receive_eq_some {q r : MessageQueue β} {m : Message β} (h : q.receive = some (m, r)) :
    q.messages = m :: r.messages ∧ r.registered = q.registered := by
  obtain ⟨n, hn, he⟩ := Option.map_eq_some_iff.mp h
  rw [Prod.mk.injEq] at he
  obtain ⟨rfl, rfl⟩ := he
  exact ⟨List.eq_cons_of_mem_head? hn, rfl⟩

theorem receive_eq_none {q : MessageQueue β} : q.receive = none ↔ q.messages = [] := by
  simp [receive]

theorem notify_eq_some {q r : MessageQueue β} (h : q.notify = some r) :
    q.registered = false ∧ r.registered = true ∧ r.messages = q.messages := by
  simp only [notify, Option.ite_none_left_eq_some, Option.some.injEq] at h
  obtain ⟨hr, rfl⟩ := h
  exact ⟨Bool.eq_false_iff.mpr hr, rfl, rfl⟩

theorem notify_eq_none {q : MessageQueue β} : q.notify = none ↔ q.registered = true := by
  simp [notify]

/-! ### The messages of one priority -/

def ofPriority (p : ℕ) (l : List (Message β)) : List (Message β) := l.filter fun m => m.priority == p

theorem ofPriority_append (p : ℕ) (k l : List (Message β)) :
    ofPriority p (k ++ l) = ofPriority p k ++ ofPriority p l :=
  List.filter_append k l

/-- A message waits behind all others of its priority. -/
theorem ofPriority_place (p : ℕ) (m : Message β) {l : List (Message β)}
    (h : l.Pairwise fun m n => n.priority ≤ m.priority) :
    ofPriority p (place m l) = ofPriority p l ++ ofPriority p [m] := by
  induction l with
  | nil => rfl
  | cons n l ih =>
    obtain ⟨hn, hl⟩ := List.pairwise_cons.mp h
    rw [place, List.orderedInsert_cons]
    split_ifs with hlt
    · -- nothing behind `n` has the priority of `m`
      by_cases hp : m.priority = p
      · have hnone : ofPriority p (n :: l) = [] := by
          apply List.filter_eq_nil_iff.mpr
          intro x hx hxp
          have hxp := eq_of_beq hxp
          rcases List.mem_cons.mp hx with rfl | hx
          · omega
          · have hle := hn x hx
            omega
        rw [hnone]
        show ofPriority p ([m] ++ (n :: l)) = _
        rw [ofPriority_append, hnone, List.append_nil]
        rfl
      · have hnone : ofPriority p [m] = [] := by simp [ofPriority, hp]
        show ofPriority p ([m] ++ (n :: l)) = _
        rw [ofPriority_append, hnone, List.append_nil]
        rfl
    · show ofPriority p ([n] ++ place m l) = ofPriority p ([n] ++ l) ++ _
      rw [ofPriority_append, ofPriority_append, ih hl, List.append_assoc]

theorem send_messages {q r : MessageQueue β} {m : Message β} {fired : Bool} (h : q.send m = some (r, fired)) :
    r.messages = place m q.messages ∧ r.maxmsg = q.maxmsg ∧ q.messages.length < q.maxmsg := by
  simp only [send, Option.dite_none_right_eq_some, Option.some.injEq, Prod.mk.injEq] at h
  obtain ⟨hlt, rfl, -⟩ := h
  exact ⟨rfl, rfl, hlt⟩

theorem send_eq_none {q : MessageQueue β} {m : Message β} : q.send m = none ↔ q.messages.length = q.maxmsg := by
  have hle := q.bounded
  unfold send
  split_ifs with hlt
  · simp only [false_iff]
    omega
  · simp only [true_iff]
    omega

/-- `receive` leaves the rest of the queue. -/
theorem receive_maxmsg {q r : MessageQueue β} {m : Message β} (h : q.receive = some (m, r)) :
    r.maxmsg = q.maxmsg := by
  obtain ⟨n, -, he⟩ := Option.map_eq_some_iff.mp h
  rw [Prod.mk.injEq] at he
  rw [← he.2]

/-- No message that waits has a higher priority than the one that is received. -/
theorem receive_priority {q r : MessageQueue β} {m n : Message β} (h : q.receive = some (m, r))
    (hn : n ∈ q.messages) : n.priority ≤ m.priority := by
  have hq := (receive_eq_some h).1
  have hordered := q.ordered
  rw [hq] at hordered hn
  rcases List.mem_cons.mp hn with rfl | hn
  · exact le_rfl
  · exact (List.pairwise_cons.mp hordered).1 n hn

/-- A queue as `mq_open` creates it. -/
def new (maxmsg : ℕ) : MessageQueue β := ⟨maxmsg, [], false, Nat.zero_le _, .nil⟩

end MessageQueue

end LinuxApi
