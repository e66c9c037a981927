import LinuxApi.Kernel.SignalQueue
import LinuxApi.Transition.History
import LinuxApi.Transition.Indexed
import LinuxApi.Transition.System
import Mathlib.Data.List.Nodup

/-! `signal_suspend_sync` and the program `signal_sender`. The receiver blocks every signal and takes them
one by one in `sigwaitinfo`; any number of senders queue one signal each, with its number as the value. The
history holds the signals that reach the receiver while they are blocked, and those it takes. Stop signals that
are not blocked stop the receiver until a SIGCONT. -/

namespace LinuxApi.SuspendSync

open SignalQueue

/-- A call of `signal_sender`: its second argument, and who calls. -/
structure Sender where
  sig : ℤ
  pid : ℕ
  uid : ℕ

structure Siginfo where
  signo : ℤ
  code : ℤ
  value : ℤ
  pid : ℕ
  uid : ℕ
  deriving DecidableEq

/-- `SI_QUEUE` -/
def siQueue : ℤ := -1

/-- What `sigqueue` hands over. -/
def Sender.info (p : Sender) : Siginfo := ⟨p.sig, siQueue, p.sig, p.pid, p.uid⟩

/-- What `signal_suspend_sync` prints of a signal. -/
def Siginfo.text (strsignal : ℤ → String) (si : Siginfo) : String :=
  "[signal_handler]signal = " ++ toString si.signo ++ "(" ++ strsignal si.signo ++ ")\n" ++
  "caught signal: " ++ toString si.signo ++ "\n" ++
  " signal code = " ++ toString si.code ++ ", " ++
  (if si.code = 0 then "SI_USER " else if si.code = siQueue then "SI_QUEUE " else "other ") ++
  "signal value = " ++ toString si.value ++ " " ++
  "sender pid = " ++ toString si.pid ++ ", sender uid = " ++ toString si.uid ++ "\n"

/-- SIGQUIT and SIGTERM. -/
def quits (n : ℤ) : Bool := n == 3 || n == 15

def sigkill : ℤ := 9

/-- SIGKILL, and the two real-time signals that the C library does not let a program block. -/
def fatal (n : ℤ) : Bool := n == sigkill || n == 32 || n == 33

/-- The default action is not the end of the process: SIGCHLD, SIGCONT, the stop signals, SIGURG and
SIGWINCH. -/
def harmless (n : ℤ) : Bool := n == 17 || n == sigcont || stops n || n == 23 || n == 28

/-- Where the receiver is. It has taken the signal of `i` at `print i`; a stop has interrupted `sigwaitinfo` at
`interrupted`, and `failed` follows `errExit("sigwaitinfo()")`. -/
inductive ReceiverPc (ι : Type*) where
  | block | sleep | wait | interrupted
  | print (i : ι)
  | exited | failed | killed
  deriving DecidableEq

/-- The receiver has ended. -/
def ReceiverPc.over {ι : Type*} : ReceiverPc ι → Bool
  | .exited | .failed | .killed => true
  | _ => false

/-- Whether the receiver is stopped, or has still to act on a SIGSTOP. -/
inductive Halt where
  | running | stopping | stopped
  deriving DecidableEq

inductive SenderPc where
  | sigqueue | print | done
  deriving DecidableEq

/-- A signal reaches the receiver, or is taken. -/
inductive Event (ι : Type*) where
  | sent (i : ι)
  | taken (i : ι)
  deriving DecidableEq

/-- `doomed` is a deadly signal that waits for a stopped receiver. `stderr` and `said` are what the senders print:
that `sigqueue` failed, and that the signal has been sent. -/
structure State (ι : Type*) where
  receiver : ReceiverPc ι
  halt : Halt
  doomed : Bool
  pending : List ι
  sender : ι → SenderPc
  stderr : List ι
  said : List ι
  history : List (Event ι)
  stdout : List String

variable {ι : Type*}

/-- The senders whose signals have reached the receiver, and those whose signals it has taken. -/
def sent (h : List (Event ι)) : List ι :=
  h.filterMap fun
    | .sent i => some i
    | .taken _ => none

def taken (h : List (Event ι)) : List ι :=
  h.filterMap fun
    | .sent _ => none
    | .taken i => some i

/-- A step of the receiver, `sigwaitinfo` with a signal of the number `n`, its failure, the receiver acting on a
SIGSTOP, and a step of a sender, whose `sigqueue` works or not. The last one says whether the process group of the
receiver is orphaned. -/
inductive Action (ι : Type*) where
  | receiver
  | receive (n : ℤ)
  | fails
  | stop
  | sender (i : ι) (ok orphaned : Bool)

/-- What a deadly signal does: a stopped process notices only SIGKILL. -/
def State.die (s : State ι) (n : ℤ) : State ι :=
  if s.halt = .stopped ∧ n ≠ sigkill then { s with doomed := true } else { s with receiver := .killed }

/-- What SIGCONT does, blocked or not. -/
def State.resume (s : State ι) : State ι :=
  { s with halt := .running, receiver := if s.doomed then .killed else s.receiver }

section Step

variable (p : ι → Sender)

/-- The number of the signal of a sender. -/
def number (i : ι) : ℤ := (p i).sig

/-- A blocked signal. -/
def State.queue (s : State ι) (i : ι) : State ι :=
  { s with pending := send (number p) s.pending i, history := s.history ++ [.sent i] }

/-- A signal is generated. Before `sigprocmask` its default action follows, where the stop signals but SIGSTOP
have none in an orphaned process group; a process that has ended does not notice it. -/
def State.deliver (s : State ι) (i : ι) (orphaned : Bool) : State ι :=
  match s.receiver with
  | .exited | .failed | .killed => s
  | .block =>
    if number p i = sigcont then s.resume
    else if stops (number p i) then
      if orphaned ∧ number p i ≠ sigstop then s else { s with halt := .stopped }
    else if harmless (number p i) then s
    else s.die (number p i)
  | .sleep | .wait | .interrupted | .print _ =>
    if fatal (number p i) then s.die (number p i)
    else if number p i = sigcont then (s.queue p i).resume
    else if number p i = sigstop then
      { s.queue p i with halt := if s.halt = .stopped then .stopped else .stopping }
    else s.queue p i

/-- The receiver stops, and a `sigwaitinfo` does not go on behind that. -/
def stopStep (s : State ι) : Option (State ι) :=
  if s.halt = .stopping then
    match s.receiver with
    | .exited | .failed | .killed => none
    | .wait => some { s with halt := .stopped, receiver := .interrupted }
    | .block | .sleep | .interrupted | .print _ => some { s with halt := .stopped }
  else none

/-- `signal_suspend_sync` -/
def receiverStep (strsignal : ℤ → String) (s : State ι) : Option (State ι) :=
  if s.halt = .stopped then none
  else match s.receiver with
    | .block => some { s with receiver := .sleep }
    | .sleep => some { s with receiver := .wait }
    | .interrupted => some { s with receiver := .failed }
    | .print i => some { s with receiver := .wait, stdout := s.stdout ++ [(p i).info.text strsignal] }
    | .wait | .exited | .failed | .killed => none

/-- `sigwaitinfo`, and the test of what it returns. -/
def sigwaitinfo (s : State ι) (n : ℤ) : Option (State ι) :=
  if s.halt = .stopped then none
  else match s.receiver with
    | .wait =>
      (take (number p) s.pending n).map fun e =>
        { s with
          pending := e.2
          history := s.history ++ [.taken e.1]
          receiver := if quits (number p e.1) then .exited else .print e.1 }
    | _ => none

def sigwaitinfoFails (s : State ι) : Option (State ι) :=
  if s.halt = .stopped then none
  else match s.receiver with
    | .wait => some { s with receiver := .failed }
    | _ => none

variable [DecidableEq ι]

def State.goto (s : State ι) (i : ι) (pc : SenderPc) : State ι :=
  { s with sender := Function.update s.sender i pc }

/-- `signal_sender` and its `main`. Number 0 only asks whether the process is there. -/
def senderStep (s : State ι) (i : ι) (ok orphaned : Bool) : Option (State ι) :=
  match s.sender i with
  | .sigqueue =>
    if !ok || number p i < 0 || 64 < number p i then
      some { s.goto i .print with stderr := s.stderr ++ [i] }
    else if number p i = 0 then some (s.goto i .print)
    else some ((s.goto i .print).deliver p i orphaned)
  | .print => some { s.goto i .done with said := s.said ++ [i] }
  | .done => none

def system (strsignal : ℤ → String) : System (State ι) (Action ι) where
  init s := s = ⟨.block, .running, false, [], fun _ => .sigqueue, [], [], [], []⟩
  step s
    | .receiver => receiverStep p strsignal s
    | .receive n => sigwaitinfo p s n
    | .fails => sigwaitinfoFails s
    | .stop => stopStep s
    | .sender i ok orphaned => senderStep p s i ok orphaned

end Step

/-! ### The signals that are kept -/

/-- SIGCONT and the stop signals, which discard each other. -/
def jobControl (n : ℤ) : Bool := n == sigcont || stops n

theorem discards_eq_false {n m : ℤ} (h : jobControl m = false) : discards n m = false := by
  unfold jobControl at h
  rw [Bool.or_eq_false_iff] at h
  unfold discards
  rw [h.1, h.2, Bool.and_false, Bool.and_false, Bool.or_false]

section Kept

variable (p : ι → Sender)

def Sends (n : ℤ) : Event ι → Prop
  | .sent i => number p i = n
  | .taken _ => False

def Takes (n : ℤ) : Event ι → Prop
  | .sent _ => False
  | .taken i => number p i = n

/-- What waits and what has been taken, against what was sent: real-time signals are all there, in their
order; of the others none twice, and none waits unseen; and a real-time signal was taken only when
everything lower had been. -/
structure Kept (h : List (Event ι)) (q : List ι) : Prop where
  realtime : ∀ n, realtime n = true →
    ofSig (number p) n (sent h) = ofSig (number p) n (taken h) ++ ofSig (number p) n q
  sublist : ∀ n, (ofSig (number p) n (taken h) ++ ofSig (number p) n q).Sublist
    (ofSig (number p) n (sent h))
  seen : ∀ n, jobControl n = false → ofSig (number p) n q = [] → Followed (Sends p n) [Takes p n] h
  rank : ∀ pre i post, h = pre ++ .taken i :: post → SignalQueue.realtime (number p i) = true →
    ∀ m < number p i, jobControl m = false → Followed (Sends p m) [Takes p m] pre

end Kept

variable {p : ι → Sender} {h : List (Event ι)} {q r : List ι} {i : ι} {n : ℤ}

theorem sent_concat (h : List (Event ι)) (e : Event ι) : sent (h ++ [e]) = sent h ++ sent [e] :=
  List.filterMap_append

theorem taken_concat (h : List (Event ι)) (e : Event ι) : taken (h ++ [e]) = taken h ++ taken [e] :=
  List.filterMap_append

theorem sent_sent (h : List (Event ι)) (i : ι) : sent (h ++ [.sent i]) = sent h ++ [i] :=
  sent_concat h (.sent i)

theorem taken_sent (h : List (Event ι)) (i : ι) : taken (h ++ [.sent i]) = taken h :=
  (taken_concat h (.sent i)).trans (List.append_nil _)

theorem sent_taken (h : List (Event ι)) (i : ι) : sent (h ++ [.taken i]) = sent h :=
  (sent_concat h (.taken i)).trans (List.append_nil _)

theorem taken_taken (h : List (Event ι)) (i : ι) : taken (h ++ [.taken i]) = taken h ++ [i] :=
  taken_concat h (.taken i)

theorem kept_nil (p : ι → Sender) : Kept p [] [] := by
  refine ⟨fun _ _ => rfl, fun _ => .refl _, fun _ _ _ => ?_, fun pre i post h => ?_⟩
  · exact Followed.of_none fun e he => absurd he List.not_mem_nil
  · simp at h

theorem Kept.send (hk : Kept p h q) (i : ι) :
    Kept p (h ++ [.sent i]) (SignalQueue.send (number p) q i) := by
  refine ⟨fun n hn => ?_, fun n => ?_, fun n hn hq => ?_, fun pre j post he => ?_⟩
  · rw [sent_sent, taken_sent, ofSig_append, hk.realtime n hn, ofSig_send_realtime hn, List.append_assoc]
  · rw [sent_sent, taken_sent, ofSig_append]
    have hsend := ofSig_sublist (number p) (send_sublist (number p) q i) n
    rw [ofSig_append] at hsend
    have hall := (List.Sublist.refl (ofSig (number p) n (taken h))).append hsend
    rw [← List.append_assoc] at hall
    exact hall.trans ((hk.sublist n).append (.refl _))
  · by_cases hi : number p i = n
    · subst hi
      refine absurd hq (ofSig_send_self (discards_eq_false hn) ?_)
      intro hstop
      rw [hstop] at hn
      exact absurd hn (by decide)
    · rw [ofSig_send_of_ne hi (discards_eq_false hn)] at hq
      exact (hk.seen n hn hq).keep hi
  · rcases eq_append_concat he with ⟨-, hlast⟩ | ⟨mid, -, he⟩
    · cases hlast
    · exact hk.rank pre j mid he

theorem Kept.take (hk : Kept p h q) (ht : SignalQueue.take (number p) q n = some (i, r)) :
    Kept p (h ++ [.taken i]) r := by
  obtain ⟨rfl, hself, hothers, hlower⟩ := take_eq_some ht
  have hmoved : ∀ m, ofSig (number p) m (taken (h ++ [.taken i])) ++ ofSig (number p) m r =
      ofSig (number p) m (taken h) ++ ofSig (number p) m q := by
    intro m
    rw [taken_taken, ofSig_append, ofSig_singleton, List.append_assoc]
    by_cases hm : number p i = m
    · rw [if_pos hm, ← hm, hself]
      rfl
    · rw [if_neg hm, List.nil_append, hothers m (Ne.symm hm)]
  refine ⟨fun m hm => ?_, fun m => ?_, fun m hm hr => ?_, fun pre j post he hj m hm hjob => ?_⟩
  · rw [hmoved, sent_taken]
    exact hk.realtime m hm
  · rw [hmoved, sent_taken]
    exact hk.sublist m
  · by_cases him : number p i = m
    · exact Followed.nil.advance (fun hs => hs) him
    · rw [hothers m (Ne.symm him)] at hr
      exact (hk.seen m hm hr).keep fun hs => hs
  · rcases eq_append_concat he with ⟨rfl, hlast⟩ | ⟨mid, -, he⟩
    · cases hlast
      have hpre : h = pre := (List.append_inj' he rfl).1
      subst hpre
      exact hk.seen m hjob (hlower hj m hm)
    · exact hk.rank pre j mid he hj m hm hjob

/-! ### What is printed -/

section Told

variable (p : ι → Sender) (strsignal : ℤ → String)

/-- The reports of some senders' signals. -/
def reports (l : List ι) : List String := l.map fun i => (p i).info.text strsignal

/-- Everything that has been taken has been reported, but the last signal while it is being handled, and
SIGQUIT or SIGTERM, which end the loop. -/
def Told (s : State ι) : Prop :=
  ∃ l last, taken s.history = l ++ last ∧ s.stdout = reports p strsignal l ∧
    (∀ i ∈ l, quits (number p i) = false) ∧
    match s.receiver with
    | .block => taken s.history = []
    | .sleep | .wait | .interrupted | .failed => last = []
    | .print i => last = [i] ∧ quits (number p i) = false
    | .exited => ∃ i, last = [i] ∧ quits (number p i) = true
    | .killed => last.length ≤ 1

/-- Each sender sends at most once, and says so whether it did or not. -/
structure Once (s : State ι) : Prop where
  nodup : (sent s.history).Nodup
  behind : ∀ i ∈ sent s.history, s.sender i ≠ .sigqueue
  failed : ∀ i ∈ s.stderr, s.sender i ≠ .sigqueue ∧ i ∉ sent s.history
  said : ∀ i, i ∈ s.said ↔ s.sender i = .done

structure Inv (s : State ι) : Prop where
  kept : Kept p s.history s.pending
  told : Told p strsignal s
  once : Once s
  early : s.receiver = .block → s.history = [] ∧ s.pending = []

end Told

variable {strsignal : ℤ → String} {s t : State ι}

theorem Once.of_eq (ho : Once s) (hhistory : sent t.history = sent s.history) (hstderr : t.stderr = s.stderr)
    (hsender : t.sender = s.sender) (hsaid : t.said = s.said) : Once t := by
  refine ⟨hhistory ▸ ho.nodup, ?_, ?_, ?_⟩
  · rw [hhistory, hsender]
    exact ho.behind
  · rw [hhistory, hsender, hstderr]
    exact ho.failed
  · rw [hsender, hsaid]
    exact ho.said

theorem Inv.receiver_step (hi : Inv p strsignal s) (h : receiverStep p strsignal s = some t) :
    Inv p strsignal t := by
  obtain ⟨l, last, htaken, hstdout, hquits, hlast⟩ := hi.told
  obtain ⟨-, h⟩ := Option.ite_none_left_eq_some.mp h
  cases hr : s.receiver with
  | block =>
    simp only [hr, Option.some.injEq] at h hlast
    subst h
    refine ⟨hi.kept, ⟨l, last, htaken, hstdout, hquits, ?_⟩, hi.once.of_eq rfl rfl rfl rfl, nofun⟩
    rw [htaken] at hlast
    exact (List.append_eq_nil_iff.mp hlast).2
  | sleep | interrupted =>
    simp only [hr, Option.some.injEq] at h hlast
    subst h
    exact ⟨hi.kept, ⟨l, last, htaken, hstdout, hquits, hlast⟩, hi.once.of_eq rfl rfl rfl rfl, nofun⟩
  | print i =>
    simp only [hr, Option.some.injEq] at h hlast
    obtain ⟨rfl, hquit⟩ := hlast
    subst h
    refine ⟨hi.kept, ⟨l ++ [i], [], ?_, ?_, fun j hj => ?_, rfl⟩, hi.once.of_eq rfl rfl rfl rfl, nofun⟩
    · rw [List.append_nil]
      exact htaken
    · rw [reports, List.map_append, ← reports, ← hstdout]
      rfl
    · rcases List.mem_append.mp hj with hj | hj
      · exact hquits j hj
      · rw [List.mem_singleton.mp hj]
        exact hquit
  | wait | exited | failed | killed => simp [hr] at h

theorem Inv.wait_step (hi : Inv p strsignal s) (h : sigwaitinfo p s n = some t) : Inv p strsignal t := by
  obtain ⟨l, last, htaken, hstdout, hquits, hlast⟩ := hi.told
  obtain ⟨-, h⟩ := Option.ite_none_left_eq_some.mp h
  cases hr : s.receiver with
  | wait =>
    simp only [hr, Option.map_eq_some_iff] at h hlast
    obtain ⟨⟨i, r⟩, ht, rfl⟩ := h
    subst hlast
    rw [List.append_nil] at htaken
    refine ⟨hi.kept.take ht, ⟨l, [i], ?_, hstdout, hquits, ?_⟩, hi.once.of_eq (sent_taken ..) rfl rfl rfl, ?_⟩
    · rw [← htaken]
      exact taken_taken s.history i
    · dsimp only
      split_ifs with hquit
      · exact ⟨i, rfl, hquit⟩
      · exact ⟨rfl, Bool.not_eq_true _ ▸ hquit⟩
    · dsimp only
      split_ifs <;> exact nofun
  | block | sleep | interrupted | print | exited | failed | killed => simp [hr] at h

theorem Inv.fails_step (hi : Inv p strsignal s) (h : sigwaitinfoFails s = some t) : Inv p strsignal t := by
  obtain ⟨l, last, htaken, hstdout, hquits, hlast⟩ := hi.told
  obtain ⟨-, h⟩ := Option.ite_none_left_eq_some.mp h
  cases hr : s.receiver with
  | wait =>
    simp only [hr, Option.some.injEq] at h hlast
    subst h
    exact ⟨hi.kept, ⟨l, last, htaken, hstdout, hquits, hlast⟩, hi.once.of_eq rfl rfl rfl rfl, nofun⟩
  | block | sleep | interrupted | print | exited | failed | killed => simp [hr] at h

/-- Whether the receiver is stopped plays no part. -/
theorem Inv.of_halt (hi : Inv p strsignal s) (halt : Halt) (doomed : Bool) :
    Inv p strsignal { s with halt, doomed } :=
  ⟨hi.kept, hi.told, hi.once.of_eq rfl rfl rfl rfl, hi.early⟩

theorem Inv.stop_step (hi : Inv p strsignal s) (h : stopStep s = some t) : Inv p strsignal t := by
  obtain ⟨l, last, htaken, hstdout, hquits, hlast⟩ := hi.told
  obtain ⟨-, h⟩ := Option.ite_none_right_eq_some.mp h
  cases hr : s.receiver with
  | wait =>
    simp only [hr, Option.some.injEq] at h hlast
    subst h
    exact ⟨hi.kept, ⟨l, last, htaken, hstdout, hquits, hlast⟩, hi.once.of_eq rfl rfl rfl rfl, nofun⟩
  | block | sleep | interrupted | print =>
    simp only [hr, Option.some.injEq] at h
    subst h
    have hhalt := hi.of_halt .stopped s.doomed
    rw [hr] at hhalt
    exact hhalt
  | exited | failed | killed => simp [hr] at h

/-- A killed receiver has taken at most one signal that it has not reported. -/
theorem Inv.kill (hi : Inv p strsignal s) (hpc : s.receiver.over = false) :
    Inv p strsignal { s with receiver := .killed } := by
  obtain ⟨l, last, htaken, hstdout, hquits, hlast⟩ := hi.told
  refine ⟨hi.kept, ⟨l, last, htaken, hstdout, hquits, ?_⟩, hi.once.of_eq rfl rfl rfl rfl, nofun⟩
  cases hr : s.receiver with
  | block =>
    simp only [hr] at hlast
    rw [htaken] at hlast
    rw [(List.append_eq_nil_iff.mp hlast).2]
    exact Nat.zero_le 1
  | sleep | wait | interrupted =>
    simp only [hr] at hlast
    rw [hlast]
    exact Nat.zero_le 1
  | print i =>
    simp only [hr] at hlast
    rw [hlast.1]
    exact Nat.le_refl 1
  | exited | failed | killed => simp [hr, ReceiverPc.over] at hpc

theorem Inv.die (hi : Inv p strsignal s) (hpc : s.receiver.over = false) (n : ℤ) :
    Inv p strsignal (s.die n) := by
  unfold State.die
  split_ifs
  · exact hi.of_halt s.halt true
  · exact hi.kill hpc

theorem Inv.resume (hi : Inv p strsignal s) (hpc : s.receiver.over = false) : Inv p strsignal s.resume := by
  unfold State.resume
  have hhalt := hi.of_halt .running s.doomed
  split_ifs
  · exact hhalt.kill hpc
  · exact hhalt

theorem sent_queue (s : State ι) (i : ι) : sent (s.queue p i).history = sent s.history ++ [i] := sent_sent s.history i

/-- The signal of a sender that has not sent one before. -/
theorem Inv.queue (hi : Inv p strsignal s) (hnew : i ∉ sent s.history) (hpc : s.sender i ≠ .sigqueue)
    (herr : i ∉ s.stderr) (hr : s.receiver ≠ .block) :
    Inv p strsignal (s.queue p i) := by
  obtain ⟨l, last, htaken, hstdout, hquits, hlast⟩ := hi.told
  refine ⟨hi.kept.send i, ⟨l, last, ?_, hstdout, hquits, ?_⟩, ⟨?_, ?_, ?_, hi.once.said⟩,
    fun h => absurd h hr⟩
  · exact (taken_sent s.history i).trans htaken
  · rw [show (s.queue p i).receiver = s.receiver from rfl]
    cases hs : s.receiver with
    | block => exact absurd hs hr
    | _ =>
      rw [hs] at hlast
      exact hlast
  · rw [sent_queue, ← List.concat_eq_append]
    exact hi.once.nodup.concat hnew
  · intro j hj
    rw [sent_queue] at hj
    rcases List.mem_append.mp hj with hj | hj
    · exact hi.once.behind j hj
    · rw [List.mem_singleton.mp hj]
      exact hpc
  · intro j hj
    refine ⟨(hi.once.failed j hj).1, fun hin => ?_⟩
    rw [sent_queue] at hin
    rcases List.mem_append.mp hin with hin | hin
    · exact (hi.once.failed j hj).2 hin
    · exact herr (List.mem_singleton.mp hin ▸ hj)

theorem Inv.deliver (hi : Inv p strsignal s) (hnew : i ∉ sent s.history) (hpc : s.sender i ≠ .sigqueue)
    (herr : i ∉ s.stderr) (orphaned : Bool) : Inv p strsignal (s.deliver p i orphaned) := by
  unfold State.deliver
  cases hr : s.receiver with
  | exited | failed | killed => exact hi
  | block =>
    have hover : s.receiver.over = false := by rw [hr]; rfl
    dsimp only
    split_ifs
    · exact hi.resume hover
    · exact hi
    · exact hr ▸ hi.of_halt .stopped s.doomed
    · exact hi
    · exact hi.die hover _
  | sleep | wait | interrupted | print =>
    have hover : s.receiver.over = false := by rw [hr]; rfl
    have hqueue := hi.queue hnew hpc herr (by rw [hr]; exact nofun)
    dsimp only
    split_ifs
    · exact hi.die hover _
    · exact hqueue.resume hover
    · exact hqueue.of_halt .stopped s.doomed
    · exact hqueue.of_halt .stopping s.doomed
    · exact hqueue

/-- Only the place of the sender changes. -/
theorem Inv.of_once (hi : Inv p strsignal s) (ho : Once t) (hreceiver : t.receiver = s.receiver)
    (hpending : t.pending = s.pending) (hhistory : t.history = s.history) (hstdout : t.stdout = s.stdout) :
    Inv p strsignal t := by
  obtain ⟨l, last, htaken, hout, hquits, hlast⟩ := hi.told
  refine ⟨?_, ⟨l, last, ?_, hstdout.trans hout, hquits, ?_⟩, ho, ?_⟩
  · rw [hhistory, hpending]
    exact hi.kept
  · rw [hhistory]
    exact htaken
  · rw [hreceiver, hhistory]
    exact hlast
  · rw [hreceiver, hhistory, hpending]
    exact hi.early

section Senders

variable [DecidableEq ι]

theorem Once.goto_print (ho : Once s) (hpc : s.sender i = .sigqueue) : Once (s.goto i .print) := by
  have hne : ∀ j, s.sender j ≠ .sigqueue → (s.goto i .print).sender j ≠ .sigqueue := by
    intro j hj
    show Function.update s.sender i .print j ≠ .sigqueue
    rwa [Function.update_of_ne]
    rintro rfl
    exact hj hpc
  refine ⟨ho.nodup, fun j hj => hne j (ho.behind j hj),
    fun j hj => ⟨hne j (ho.failed j hj).1, (ho.failed j hj).2⟩, fun j => ?_⟩
  show j ∈ s.said ↔ Function.update s.sender i .print j = .done
  rw [ho.said j]
  by_cases hji : j = i
  · rw [hji, Function.update_self, hpc]
    exact iff_of_false nofun nofun
  · rw [Function.update_of_ne hji]

theorem Once.fail (ho : Once s) (hpc : s.sender i = .sigqueue) :
    Once { s.goto i .print with stderr := s.stderr ++ [i] } := by
  have hgoto := ho.goto_print hpc
  refine ⟨hgoto.nodup, hgoto.behind, fun j hj => ?_, hgoto.said⟩
  rcases List.mem_append.mp hj with hj | hj
  · exact hgoto.failed j hj
  · rw [List.mem_singleton.mp hj]
    refine ⟨?_, fun hin => ho.behind i hin hpc⟩
    show Function.update s.sender i .print i ≠ .sigqueue
    rw [Function.update_self]
    exact nofun

theorem Once.say (ho : Once s) (i : ι) :
    Once { s.goto i .done with said := s.said ++ [i] } := by
  have hne : ∀ j, s.sender j ≠ .sigqueue → Function.update s.sender i .done j ≠ .sigqueue := by
    intro j hj
    by_cases hji : j = i
    · rw [hji, Function.update_self]
      exact nofun
    · rwa [Function.update_of_ne hji]
  refine ⟨ho.nodup, fun j hj => hne j (ho.behind j hj),
    fun j hj => ⟨hne j (ho.failed j hj).1, (ho.failed j hj).2⟩, fun j => ?_⟩
  show j ∈ s.said ++ [i] ↔ Function.update s.sender i .done j = .done
  rw [List.mem_append, List.mem_singleton, ho.said j]
  by_cases hji : j = i
  · rw [hji, Function.update_self]
    exact iff_of_true (.inr rfl) rfl
  · rw [Function.update_of_ne hji]
    exact or_iff_left hji

theorem Inv.sender_step (hi : Inv p strsignal s) {ok orphaned : Bool} (h : senderStep p s i ok orphaned = some t) :
    Inv p strsignal t := by
  unfold senderStep at h
  cases hpc : s.sender i with
  | sigqueue =>
    simp only [hpc] at h
    split_ifs at h <;> cases h
    · exact hi.of_once (hi.once.fail hpc) rfl rfl rfl rfl
    · exact hi.of_once (hi.once.goto_print hpc) rfl rfl rfl rfl
    · have hgoto : Inv p strsignal (s.goto i .print) := hi.of_once (hi.once.goto_print hpc) rfl rfl rfl rfl
      apply hgoto.deliver
      · exact fun hin => hi.once.behind i hin hpc
      · show Function.update s.sender i .print i ≠ .sigqueue
        rw [Function.update_self]
        exact nofun
      · exact fun hin => (hi.once.failed i hin).1 hpc
  | print =>
    simp only [hpc, Option.some.injEq] at h
    subst h
    exact hi.of_once (hi.once.say i) rfl rfl rfl rfl
  | done => simp [hpc] at h

theorem Inv.step (hi : Inv p strsignal s) {a : Action ι} (h : (system p strsignal).step s a = some t) :
    Inv p strsignal t := by
  cases a with
  | receiver => exact hi.receiver_step h
  | receive n => exact hi.wait_step h
  | fails => exact hi.fails_step h
  | stop => exact hi.stop_step h
  | sender i ok orphaned => exact hi.sender_step h

theorem inv_reachable (h : (system p strsignal).Reachable s) : Inv p strsignal s := by
  refine h.invariant (I := Inv p strsignal) (fun s hs => ?_) fun s a t hi ht => hi.step ht
  have hs : s = _ := hs
  rw [hs]
  refine ⟨kept_nil p, ⟨[], [], rfl, rfl, fun i hi => absurd hi List.not_mem_nil, rfl⟩,
    ⟨List.nodup_nil, ?_, ?_, ?_⟩, fun _ => ⟨rfl, rfl⟩⟩
  · exact fun i hi => absurd hi List.not_mem_nil
  · exact fun i hi => absurd hi List.not_mem_nil
  · exact fun i => iff_of_false List.not_mem_nil nofun

/-- In every run with any senders, whatever fails: of each real-time signal everything that was sent is taken
in the order of sending, or waits; of the others nothing is taken twice, and nothing waits unseen; a real-time
signal is taken only when all lower ones have been; all that is taken is reported, up to SIGQUIT or
SIGTERM; and a sender reports success even when `sigqueue` failed. -/
theorem realtime_signals_kept (h : (system p strsignal).Reachable s) :
    Kept p s.history s.pending ∧ Told p strsignal s ∧ (sent s.history).Nodup ∧
      ∀ i, s.sender i = .done → i ∈ s.said ∧ (i ∈ s.stderr → i ∉ sent s.history) := by
  have hi := inv_reachable h
  refine ⟨hi.kept, hi.told, hi.once.nodup, fun i hdone => ⟨(hi.once.said i).mpr hdone, fun hin => ?_⟩⟩
  exact (hi.once.failed i hin).2

/-- Numbers 35, 34 and 35 again are sent, then SIGINT twice: it comes first and once, then the real-time
signals by number and age. -/
theorem realtime_signals_kept_five :
    let p : Fin 5 → Sender := fun i => ⟨if i = 1 then 34 else if i < 3 then 35 else 2, 0, 0⟩
    ∃ as s t, (system p fun _ => "").run s as = some t ∧ taken t.history = [3, 1, 0, 2] ∧
      Kept p t.history t.pending := by
  intro p
  let as : List (Action (Fin 5)) := [.receiver, .receiver, .sender 0 true false, .sender 1 true false,
    .sender 2 true false, .sender 3 true false, .sender 4 true false, .receive 2, .receiver, .receive 34, .receiver,
    .receive 35, .receiver, .receive 35, .receiver]
  let s : State (Fin 5) := ⟨.block, .running, false, [], fun _ => .sigqueue, [], [], [], []⟩
  have hs : (system p fun _ => "").init s := rfl
  have hall : ∀ t, (system p fun _ => "").run s as = some t → Kept p t.history t.pending :=
    fun t ht => (realtime_signals_kept (System.reachable_of_run hs as ht)).1
  have htaken : ((system p fun _ => "").run s as).map (fun t => taken t.history) = some [3, 1, 0, 2] := by
    decide +kernel
  obtain ⟨t, ht, htaken⟩ := Option.map_eq_some_iff.mp htaken
  exact ⟨as, s, t, ht, htaken, hall t ht⟩

/-! ### The end of a run -/

/-- The steps a sender has left, with the two that its signal gives the receiver. -/
def SenderPc.work : SenderPc → ℕ
  | .sigqueue => 4
  | .print => 1
  | .done => 0

def ReceiverPc.work : ReceiverPc ι → ℕ
  | .block => 3
  | .sleep | .print _ => 2
  | .wait | .interrupted => 1
  | .exited | .failed | .killed => 0

def Halt.work : Halt → ℕ
  | .stopping => 1
  | .running | .stopped => 0

def State.work [Fintype ι] (s : State ι) : ℕ :=
  (∑ i, (s.sender i).work) + 2 * s.pending.length + s.receiver.work + s.halt.work

omit [DecidableEq ι] in
theorem die_work (s : State ι) (n : ℤ) : (s.die n).sender = s.sender ∧ (s.die n).pending = s.pending ∧
    (s.die n).receiver.work + (s.die n).halt.work ≤ s.receiver.work + s.halt.work := by
  unfold State.die
  split_ifs
  · exact ⟨rfl, rfl, le_rfl⟩
  · exact ⟨rfl, rfl, Nat.add_le_add_right (Nat.zero_le _) _⟩

omit [DecidableEq ι] in
theorem resume_work (s : State ι) : s.resume.sender = s.sender ∧ s.resume.pending = s.pending ∧
    s.resume.receiver.work + s.resume.halt.work ≤ s.receiver.work := by
  unfold State.resume
  split_ifs
  · exact ⟨rfl, rfl, Nat.zero_le _⟩
  · exact ⟨rfl, rfl, le_rfl⟩

omit [DecidableEq ι] in
/-- A signal adds at most itself to those that wait, and SIGSTOP only the stop. -/
theorem deliver_work (s : State ι) (i : ι) (orphaned : Bool) :
    (s.deliver p i orphaned).sender = s.sender ∧
      2 * (s.deliver p i orphaned).pending.length + (s.deliver p i orphaned).receiver.work +
        (s.deliver p i orphaned).halt.work ≤ 2 * s.pending.length + s.receiver.work + s.halt.work + 2 := by
  have hlength := (send_sublist (number p) s.pending i).length_le
  rw [List.length_append, List.length_singleton] at hlength
  have hqueue : (s.queue p i).pending = send (number p) s.pending i := rfl
  obtain ⟨hdieSender, hdiePending, hdie⟩ := die_work s (number p i)
  obtain ⟨hresumeSender, hresumePending, hresume⟩ := resume_work s
  obtain ⟨hlaterSender, hlaterPending, hlater⟩ := resume_work (s.queue p i)
  unfold State.deliver
  cases hr : s.receiver with
  | exited | failed | killed =>
    dsimp only
    rw [hr]
    exact ⟨rfl, Nat.le_add_right _ 2⟩
  | block =>
    dsimp only
    split_ifs
    · exact ⟨hresumeSender, by rw [hresumePending]; rw [hr] at hresume; omega⟩
    · exact ⟨rfl, by rw [hr]; omega⟩
    · exact ⟨rfl, by simp only [Halt.work]; omega⟩
    · exact ⟨rfl, by rw [hr]; omega⟩
    · exact ⟨hdieSender, by rw [hdiePending]; rw [hr] at hdie; omega⟩
  | sleep | wait | interrupted | print =>
    have hsame : (s.queue p i).receiver = s.receiver := rfl
    have hhalt : (s.queue p i).halt = s.halt := rfl
    rw [hsame, hr] at hlater
    rw [hr] at hdie
    dsimp only
    split_ifs with hfatal hcont hstop hstopped
    · exact ⟨hdieSender, by rw [hdiePending]; omega⟩
    · exact ⟨hlaterSender, by rw [hlaterPending, hqueue]; omega⟩
    · refine ⟨rfl, ?_⟩
      simp only [hsame, hqueue, hr, Halt.work]
      omega
    · -- SIGSTOP itself does not wait, which pays for the step that acts on it
      have hkeep := length_send_sigstop (number p) s.pending hstop
      refine ⟨rfl, ?_⟩
      simp only [hsame, hqueue, hr, Halt.work]
      omega
    · refine ⟨rfl, ?_⟩
      rw [hqueue, hsame, hhalt, hr]
      omega

theorem sender_work_lt [Fintype ι] {ok orphaned : Bool} (h : senderStep p s i ok orphaned = some t) :
    t.work < s.work := by
  unfold senderStep at h
  cases hpc : s.sender i with
  | sigqueue =>
    simp only [hpc] at h
    have hsum := sum_update_add SenderPc.work s.sender i .print
    have hsigqueue : SenderPc.sigqueue.work = 4 := rfl
    have hprint : SenderPc.print.work = 1 := rfl
    rw [hpc] at hsum
    split_ifs at h <;> cases h
    · show (∑ j, (Function.update s.sender i .print j).work) + 2 * s.pending.length + s.receiver.work +
        s.halt.work < s.work
      unfold State.work
      omega
    · show (∑ j, (Function.update s.sender i .print j).work) + 2 * s.pending.length + s.receiver.work +
        s.halt.work < s.work
      unfold State.work
      omega
    · obtain ⟨hsender, hle⟩ := deliver_work (p := p) (s.goto i .print) i orphaned
      have hle : _ ≤ 2 * s.pending.length + s.receiver.work + s.halt.work + 2 := hle
      have hsender : _ = Function.update s.sender i .print := hsender
      unfold State.work
      rw [hsender]
      omega
  | print =>
    simp only [hpc, Option.some.injEq] at h
    subst h
    have hsum := sum_update_add SenderPc.work s.sender i .done
    have hprint : SenderPc.print.work = 1 := rfl
    have hdone : SenderPc.done.work = 0 := rfl
    rw [hpc] at hsum
    show (∑ j, (Function.update s.sender i .done j).work) + 2 * s.pending.length + s.receiver.work +
      s.halt.work < s.work
    unfold State.work
    omega
  | done => simp [hpc] at h

theorem work_step [Fintype ι] {a : Action ι} (h : (system p strsignal).step s a = some t) :
    t.work < s.work := by
  cases a with
  | sender i ok orphaned => exact sender_work_lt h
  | receiver =>
    obtain ⟨-, h⟩ := Option.ite_none_left_eq_some.mp h
    cases hr : s.receiver with
    | block | sleep | interrupted | print =>
      simp only [hr, Option.some.injEq] at h
      subst h
      simp only [State.work, hr, ReceiverPc.work]
      omega
    | wait | exited | failed | killed => simp [hr] at h
  | receive n =>
    obtain ⟨-, h⟩ := Option.ite_none_left_eq_some.mp h
    cases hr : s.receiver with
    | wait =>
      simp only [hr, Option.map_eq_some_iff] at h
      obtain ⟨e, he, rfl⟩ := h
      have hlength := length_take he
      simp only [State.work, hr]
      split_ifs <;> simp only [ReceiverPc.work] <;> omega
    | block | sleep | interrupted | print | exited | failed | killed => simp [hr] at h
  | fails =>
    obtain ⟨-, h⟩ := Option.ite_none_left_eq_some.mp h
    cases hr : s.receiver with
    | wait =>
      simp only [hr, Option.some.injEq] at h
      subst h
      simp only [State.work, hr, ReceiverPc.work]
      omega
    | block | sleep | interrupted | print | exited | failed | killed => simp [hr] at h
  | stop =>
    obtain ⟨hhalt, h⟩ := Option.ite_none_right_eq_some.mp h
    cases hr : s.receiver with
    | block | sleep | wait | interrupted | print =>
      simp only [hr, Option.some.injEq] at h
      subst h
      simp only [State.work, hhalt, hr, ReceiverPc.work, Halt.work]
      omega
    | exited | failed | killed => simp [hr] at h

/-! ### Who stops the receiver -/

/-- The receiver is stopped by a signal of some sender. -/
def Halted (p : ι → Sender) (s : State ι) : Prop := s.halt ≠ .running → ∃ i, stops (number p i) = true

omit [DecidableEq ι] in
theorem Halted.deliver (hh : Halted p s) (i : ι) (orphaned : Bool) : Halted p (s.deliver p i orphaned) := by
  have hrunning : ∀ {t : State ι}, Halted p t.resume := fun hne => absurd rfl hne
  have hdie : ∀ n, Halted p (s.die n) := by
    intro n
    unfold State.die
    split_ifs <;> exact hh
  unfold State.deliver
  cases hr : s.receiver with
  | exited | failed | killed => exact hh
  | block =>
    dsimp only
    split_ifs with hcont hstops
    · exact hrunning
    · exact hh
    · exact fun _ => ⟨i, hstops⟩
    · exact hh
    · exact hdie _
  | sleep | wait | interrupted | print =>
    dsimp only
    split_ifs with hfatal hcont hstop hstopped
    · exact hdie _
    · exact hrunning
    · exact fun _ => ⟨i, by rw [hstop]; rfl⟩
    · exact fun _ => ⟨i, by rw [hstop]; rfl⟩
    · exact hh

theorem Halted.step (hh : Halted p s) {a : Action ι} (h : (system p strsignal).step s a = some t) :
    Halted p t := by
  cases a with
  | receiver =>
    obtain ⟨-, h⟩ := Option.ite_none_left_eq_some.mp h
    split at h <;> cases h <;> exact hh
  | receive n =>
    obtain ⟨-, h⟩ := Option.ite_none_left_eq_some.mp h
    split at h
    · obtain ⟨e, -, rfl⟩ := Option.map_eq_some_iff.mp h
      exact hh
    · cases h
  | fails =>
    obtain ⟨-, h⟩ := Option.ite_none_left_eq_some.mp h
    split at h <;> cases h
    exact hh
  | stop =>
    obtain ⟨hhalt, h⟩ := Option.ite_none_right_eq_some.mp h
    have hne : s.halt ≠ .running := by
      rw [hhalt]
      exact nofun
    exact fun _ => hh hne
  | sender i ok orphaned =>
    have h : senderStep p s i ok orphaned = some t := h
    unfold senderStep at h
    split at h
    · split_ifs at h <;> cases h
      · exact hh
      · exact hh
      · have hgoto : Halted p (s.goto i .print) := hh
        exact hgoto.deliver i orphaned
    · cases h
      exact hh
    · cases h

theorem halted_reachable (h : (system p strsignal).Reachable s) : Halted p s := by
  refine h.invariant (I := Halted p) (fun s hs => ?_) fun s a t hh ht => hh.step ht
  have hs : s = _ := hs
  rw [hs]
  exact fun hne => absurd rfl hne

/-- With finitely many senders every run ends. Where nothing can happen but that `sigwaitinfo` fails, all
senders are done, and the receiver has ended, is stopped by the signal of a sender, or waits with nothing left: then
it has taken and reported all the real-time signals, each number in the order of sending. -/
theorem every_signal_taken [Fintype ι] {as : List (Action ι)} (hs : (system p strsignal).init s)
    (h : (system p strsignal).run s as = some t) :
    as.length ≤ 4 * Fintype.card ι + 3 ∧
      ((∀ a, a ≠ .fails → (system p strsignal).step t a = none) →
        (∀ i, t.sender i = .done) ∧ (t.receiver.over = true ∨
          t.halt = .stopped ∧ (∃ i, stops (number p i) = true) ∨
          t.receiver = .wait ∧ t.pending = [] ∧ t.stdout = reports p strsignal (taken t.history) ∧
            ∀ n, realtime n = true → ofSig (number p) n (taken t.history) =
              ofSig (number p) n (sent t.history))) := by
  have hlength := System.length_add_le_of_run (I := fun _ => True) (fun _ _ _ _ _ => trivial)
    (fun _ _ _ _ ht => work_step ht) trivial h
  have hwork : s.work = 4 * Fintype.card ι + 3 := by
    have hs : s = _ := hs
    rw [hs]
    simp [State.work, SenderPc.work, ReceiverPc.work, Halt.work, mul_comm]
  have hreach := System.reachable_of_run hs as h
  refine ⟨by omega, fun hstuck => ⟨fun i => ?_, ?_⟩⟩
  · have hnone : senderStep p t i true true = none := hstuck (.sender i true true) nofun
    unfold senderStep at hnone
    cases hpc : t.sender i with
    | done => rfl
    | sigqueue =>
      simp only [hpc] at hnone
      split_ifs at hnone
    | print => simp [hpc] at hnone
  · have hi : Inv p strsignal t := inv_reachable hreach
    have hnone : receiverStep p strsignal t = none := hstuck .receiver nofun
    have hstop : stopStep t = none := hstuck .stop nofun
    cases hhalt : t.halt with
    | stopped =>
      have hne : t.halt ≠ .running := by
        rw [hhalt]
        exact nofun
      exact .inr (.inl ⟨rfl, halted_reachable hreach hne⟩)
    | stopping =>
      unfold stopStep at hstop
      rw [if_pos hhalt] at hstop
      cases hr : t.receiver with
      | exited | failed | killed => exact .inl rfl
      | block | sleep | wait | interrupted | print => simp [hr] at hstop
    | running =>
      have hnot : t.halt ≠ .stopped := by
        rw [hhalt]
        exact nofun
      obtain ⟨l, last, htaken, hstdout, -, hlast⟩ := hi.told
      unfold receiverStep at hnone
      rw [if_neg hnot] at hnone
      cases hr : t.receiver with
      | exited | failed | killed => exact .inl rfl
      | block | sleep | interrupted | print => simp [hr] at hnone
      | wait =>
        have hpending : t.pending = [] := by
          by_contra hne
          obtain ⟨n, hn⟩ := exists_take (number p) hne
          have hreceive : sigwaitinfo p t n = none := hstuck (.receive n) nofun
          simp only [sigwaitinfo, if_neg hnot, hr, Option.map_eq_none_iff] at hreceive
          rw [hreceive] at hn
          cases hn
        simp only [hr] at hlast
        subst hlast
        rw [List.append_nil] at htaken
        refine .inr (.inr ⟨rfl, hpending, htaken ▸ hstdout, fun n hn => ?_⟩)
        have hrealtime := hi.kept.realtime n hn
        rw [hpending] at hrealtime
        rw [hrealtime]
        exact (List.append_nil _).symm

/-- A sender of number 34 comes to its end before the receiver waits. -/
theorem every_signal_taken_one :
    let p : Fin 1 → Sender := fun _ => ⟨34, 100, 0⟩
    ∃ as s t, (system p fun _ => "").run s as = some t ∧ sent t.history = [0] ∧
      ofSig (number p) 34 (taken t.history) = ofSig (number p) 34 (sent t.history) := by
  intro p
  let as : List (Action (Fin 1)) :=
    [.receiver, .sender 0 true false, .sender 0 true false, .receiver, .receive 34, .receiver]
  let s : State (Fin 1) := ⟨.block, .running, false, [], fun _ => .sigqueue, [], [], [], []⟩
  have hs : (system p fun _ => "").init s := rfl
  have hall : ∀ t, (system p fun _ => "").run s as = some t → t.receiver = .wait → t.halt = .running →
      t.pending = [] → (∀ i, t.sender i = .done) →
        ofSig (number p) 34 (taken t.history) = ofSig (number p) 34 (sent t.history) := by
    intro t ht hr hhalt hq hdone
    have hstuck : ∀ a, a ≠ .fails → (system p fun _ => "").step t a = none := by
      intro a ha
      cases a with
      | receiver => simp [system, receiverStep, hr]
      | receive n => simp [system, sigwaitinfo, hr, hq, take]
      | fails => exact absurd rfl ha
      | stop => simp [system, stopStep, hhalt]
      | sender i ok orphaned => simp [system, senderStep, hdone]
    rcases ((every_signal_taken hs ht).2 hstuck).2 with hover | ⟨hstopped, -⟩ | ⟨-, -, -, hall⟩
    · rw [hr] at hover
      cases hover
    · rw [hhalt] at hstopped
      cases hstopped
    · exact hall 34 rfl
  exact ⟨as, s, _, rfl, rfl, hall _ rfl rfl rfl rfl (by decide)⟩

end Senders

end LinuxApi.SuspendSync
