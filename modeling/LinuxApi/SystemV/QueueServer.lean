import LinuxApi.Transition.System
import Mathlib.Data.Fintype.Basic
import Mathlib.Logic.Function.Basic
import Mathlib.Tactic.Common

/-! `ipc_systemv_msg_server` and `ipc_systemv_msg_client` on one key and one `ID_PATH`, as
far as the queue's identifier goes: any number of both, every call a step. At most one
queue exists under the key, and identifiers are not used again. A server removes the
queue it finds, creates its own, publishes the identifier in the file and receives. -/

namespace LinuxApi.QueueServer

/-- Where a server is in `ipc_systemv_msg_server`; `remove` holds the result of
`msgget(key, 0)`, and `msqid` is the queue it has created. -/
inductive ServerPc where
  | ftok | create | lookup
  | remove (found : Option ℕ)
  | openFile (msqid : ℕ) | write (msqid : ℕ) | close (msqid : ℕ)
  | receive (msqid : ℕ)
  | exited
  deriving DecidableEq

/-- Where a client is in `ipc_systemv_msg_client`; `read` knows whether `open` succeeded. -/
inductive ClientPc where
  | openFile
  | read (opened : Bool)
  | close (msqid : ℕ) | send1 (msqid : ℕ) | send2 (msqid : ℕ)
  | done | exited
  deriving DecidableEq

/-- The queue under the key, the next identifier the kernel gives out, the file at
`ID_PATH` with the identifier in it, and all processes. `removed` are the removals so
far, with the server that made each. -/
structure State (S C : Type*) where
  queue : Option ℕ
  next : ℕ
  file : Option (Option ℕ)
  removed : List (S × ℕ)
  servers : S → ServerPc
  clients : C → ClientPc

/-- A process makes its next call, or a server is killed. -/
inductive Action (S C : Type*) where
  | server (i : S)
  | client (c : C)
  | kill (i : S)
  deriving DecidableEq

variable {S C : Type*}

namespace State

variable [DecidableEq S] [DecidableEq C]

def gotoServer (s : State S C) (i : S) (pc : ServerPc) : State S C :=
  { s with servers := Function.update s.servers i pc }

def gotoClient (s : State S C) (c : C) (pc : ClientPc) : State S C :=
  { s with clients := Function.update s.clients c pc }

/-- `msgget(key, IPC_CREAT | IPC_EXCL | perms)` -/
def create (s : State S C) (i : S) : State S C :=
  if s.queue = none then
    { s with queue := some s.next, next := s.next + 1 }.gotoServer i (.openFile s.next)
  else s.gotoServer i .lookup

/-- `msgctl(found, IPC_RMID, NULL)` -/
def remove (s : State S C) (i : S) : Option ℕ → State S C
  | some q =>
    if s.queue = some q then
      { s with queue := none, removed := s.removed ++ [(i, q)] }.gotoServer i .create
    else s.gotoServer i .exited
  | none => s.gotoServer i .exited

end State

open State

section Model

variable [DecidableEq S] [DecidableEq C]

/-- The next call of server `i`; `msgrcv` fails once the queue is gone. -/
def serverStep (s : State S C) (i : S) : Option (State S C) :=
  match s.servers i with
  | .ftok => some (s.gotoServer i .create)
  | .create => some (s.create i)
  | .lookup => some (s.gotoServer i (.remove s.queue))
  | .remove found => some (s.remove i found)
  | .openFile q => some ({ s with file := some none }.gotoServer i (.write q))
  | .write q => some ({ s with file := some (some q) }.gotoServer i (.close q))
  | .close q => some (s.gotoServer i (.receive q))
  | .receive q => some (if s.queue = some q then s else s.gotoServer i .exited)
  | .exited => none

/-- The identifier a `read` of `sizeof(int)` bytes gets. -/
def State.readId (s : State S C) (opened : Bool) : Option ℕ := if opened then s.file.join else none

/-- The next call of client `c`. -/
def clientStep (s : State S C) (c : C) : Option (State S C) :=
  match s.clients c with
  | .openFile => some (s.gotoClient c (.read s.file.isSome))
  | .read opened =>
    some (s.gotoClient c (match s.readId opened with | some q => .close q | none => .exited))
  | .close q => some (s.gotoClient c (.send1 q))
  | .send1 q => some (s.gotoClient c (if s.queue = some q then .send2 q else .exited))
  | .send2 q => some (s.gotoClient c (if s.queue = some q then .done else .exited))
  | .done | .exited => none

/-- A server ends where it is; its queue stays. -/
def killStep (s : State S C) (i : S) : Option (State S C) :=
  if s.servers i = .exited then none else some (s.gotoServer i .exited)

variable (S C) in
/-- The servers `S` and the clients `C`. -/
def system : System (State S C) (Action S C) where
  init s := s = ⟨none, 0, none, [], fun _ => .ftok, fun _ => .openFile⟩
  step s
    | .server i => serverStep s i
    | .client c => clientStep s c
    | .kill i => killStep s i

end Model

/-- The queue a server has created. -/
def ServerPc.created : ServerPc → Option ℕ
  | .openFile q | .write q | .close q | .receive q => some q
  | _ => none

/-- The identifier a client has read and not yet used up. -/
def ClientPc.holds : ClientPc → Option ℕ
  | .close q | .send1 q | .send2 q => some q
  | _ => none

/-! ### Queues disappear by removals only -/

/-- Every identifier that was ever given out names the queue or was removed, and the ones
the processes and the file hold were given out. -/
structure Issued (s : State S C) : Prop where
  kept : ∀ q, q < s.next → s.queue = some q ∨ ∃ j, (j, q) ∈ s.removed
  queue : ∀ q, s.queue = some q → q < s.next
  removed : ∀ j q, (j, q) ∈ s.removed → q < s.next
  file : ∀ q, s.file = some (some q) → q < s.next
  server : ∀ i q, (s.servers i).created = some q → q < s.next ∧ (i, q) ∉ s.removed
  client : ∀ c q, (s.clients c).holds = some q → q < s.next

variable {s t : State S C}

/-- The file is emptied, or gets an identifier that was given out. -/
theorem Issued.set_file (hi : Issued s) {f : Option ℕ} (h : ∀ q, f = some q → q < s.next) :
    Issued { s with file := some f } where
  kept := hi.kept
  queue := hi.queue
  removed := hi.removed
  file q hq := h q (Option.some.inj hq)
  server := hi.server
  client := hi.client

section Servers

variable [DecidableEq S]

/-- A server goes on with the queue it has. -/
theorem Issued.goto_server (hi : Issued s) {i : S} {pc : ServerPc}
    (h : ∀ q, pc.created = some q → (s.servers i).created = some q) : Issued (s.gotoServer i pc) where
  kept := hi.kept
  queue := hi.queue
  removed := hi.removed
  file := hi.file
  server j q hq := by
    simp only [State.gotoServer] at hq
    by_cases hj : j = i
    · subst hj
      rw [Function.update_self] at hq
      exact hi.server j q (h q hq)
    · rw [Function.update_of_ne hj] at hq
      exact hi.server j q hq
  client := hi.client

theorem Issued.creates (hi : Issued s) {i : S} (hq : s.queue = none) :
    Issued ({ s with queue := some s.next, next := s.next + 1 }.gotoServer i (.openFile s.next)) where
  kept q hlt := by
    rcases Nat.lt_succ_iff_lt_or_eq.mp hlt with hlt | rfl
    · exact .inr ((hi.kept q hlt).resolve_left (by rw [hq]; nofun))
    · exact .inl rfl
  queue q h := Option.some.inj h ▸ Nat.lt_succ_self _
  removed j q h := (hi.removed j q h).trans (Nat.lt_succ_self _)
  file q h := (hi.file q h).trans (Nat.lt_succ_self _)
  server j q h := by
    simp only [State.gotoServer] at h
    by_cases hj : j = i
    · subst hj
      rw [Function.update_self] at h
      obtain rfl : s.next = q := Option.some.inj h
      exact ⟨Nat.lt_succ_self _, fun hr => Nat.lt_irrefl _ (hi.removed j _ hr)⟩
    · rw [Function.update_of_ne hj] at h
      obtain ⟨hlt, hr⟩ := hi.server j q h
      exact ⟨hlt.trans (Nat.lt_succ_self _), hr⟩
  client c q h := (hi.client c q h).trans (Nat.lt_succ_self _)

/-- The server that removes a queue has none of its own. -/
theorem Issued.removes (hi : Issued s) {i : S} {q : ℕ} (hq : s.queue = some q)
    (hpc : (s.servers i).created = none) :
    Issued ({ s with queue := none, removed := s.removed ++ [(i, q)] }.gotoServer i .create) where
  kept p hp := by
    rcases hi.kept p hp with h | ⟨j, hj⟩
    · obtain rfl : q = p := Option.some.inj (hq.symm.trans h)
      exact .inr ⟨i, List.mem_append_right _ List.mem_cons_self⟩
    · exact .inr ⟨j, List.mem_append_left _ hj⟩
  queue := nofun
  removed j p h := by
    rcases List.mem_append.mp h with h | h
    · exact hi.removed j p h
    · obtain ⟨-, rfl⟩ := Prod.mk.inj (List.mem_singleton.mp h)
      exact hi.queue _ hq
  file := hi.file
  server j p h := by
    simp only [State.gotoServer] at h ⊢
    by_cases hj : j = i
    · subst hj
      rw [Function.update_self] at h
      cases h
    · rw [Function.update_of_ne hj] at h
      obtain ⟨hlt, hr⟩ := hi.server j p h
      refine ⟨hlt, fun hm => ?_⟩
      rcases List.mem_append.mp hm with hm | hm
      · exact hr hm
      · exact hj (Prod.mk.inj (List.mem_singleton.mp hm)).1
  client := hi.client

theorem Issued.server_step (hi : Issued s) {i : S} (h : serverStep s i = some t) : Issued t := by
  unfold serverStep at h
  cases hpc : s.servers i with
  | ftok | lookup =>
    simp only [hpc, Option.some.injEq] at h
    exact h ▸ hi.goto_server nofun
  | create =>
    simp only [hpc, Option.some.injEq, State.create] at h
    split_ifs at h with hq
    · exact h ▸ hi.creates hq
    · exact h ▸ hi.goto_server nofun
  | remove found =>
    simp only [hpc, Option.some.injEq] at h
    subst h
    cases found with
    | none => exact hi.goto_server nofun
    | some q =>
      rw [State.remove]
      split_ifs with hq
      · exact hi.removes hq (by rw [hpc]; rfl)
      · exact hi.goto_server nofun
  | openFile q =>
    simp only [hpc, Option.some.injEq] at h
    exact h ▸ (hi.set_file (f := none) nofun).goto_server fun p hp =>
      (congrArg ServerPc.created hpc).trans hp
  | write q =>
    simp only [hpc, Option.some.injEq] at h
    have hlt := (hi.server i q (by rw [hpc]; rfl)).1
    exact h ▸ (hi.set_file fun p hp => Option.some.inj hp ▸ hlt).goto_server
      fun p hp => (congrArg ServerPc.created hpc).trans hp
  | close q =>
    simp only [hpc, Option.some.injEq] at h
    exact h ▸ hi.goto_server fun p hp => (congrArg ServerPc.created hpc).trans hp
  | receive q =>
    simp only [hpc, Option.some.injEq] at h
    split_ifs at h with hq
    · exact h ▸ hi
    · exact h ▸ hi.goto_server nofun
  | exited => simp only [hpc] at h; cases h

theorem Issued.kill_step (hi : Issued s) {i : S} (h : killStep s i = some t) : Issued t := by
  unfold killStep at h
  split_ifs at h
  exact Option.some.inj h ▸ hi.goto_server nofun

end Servers

section Clients

variable [DecidableEq C]

/-- What holds of all identifiers, and of the one a client goes on with, holds of all afterwards. -/
theorem holds_gotoClient {P : ℕ → Prop} {c : C} {pc : ClientPc}
    (hold : ∀ d q, (s.clients d).holds = some q → P q) (h : ∀ q, pc.holds = some q → P q) (d : C) (q : ℕ)
    (hq : ((s.gotoClient c pc).clients d).holds = some q) : P q := by
  simp only [State.gotoClient] at hq
  by_cases hd : d = c
  · subst hd
    rw [Function.update_self] at hq
    exact h q hq
  · rw [Function.update_of_ne hd] at hq
    exact hold d q hq

/-- A client goes on with the identifier it has or the one in the file. -/
theorem clientStep_spec {c : C} (h : clientStep s c = some t) :
    ∃ pc, t = s.gotoClient c pc ∧
      ∀ q, pc.holds = some q → (s.clients c).holds = some q ∨ s.file = some (some q) := by
  unfold clientStep at h
  cases hpc : s.clients c with
  | openFile =>
    simp only [hpc, Option.some.injEq] at h
    exact ⟨_, h.symm, fun q hq => by cases hq⟩
  | read opened =>
    simp only [hpc, Option.some.injEq] at h
    refine ⟨_, h.symm, fun q hq => .inr ?_⟩
    cases hid : s.readId opened with
    | none => rw [hid] at hq; cases hq
    | some p =>
      rw [hid] at hq
      obtain rfl : p = q := Option.some.inj hq
      simp only [State.readId, Option.ite_none_right_eq_some, Option.join_eq_some_iff] at hid
      exact hid.2
  | close q =>
    simp only [hpc, Option.some.injEq] at h
    exact ⟨_, h.symm, fun p hp => .inl hp⟩
  | send1 q =>
    simp only [hpc, Option.some.injEq] at h
    refine ⟨_, h.symm, fun p hp => .inl ?_⟩
    split_ifs at hp
    · exact hp
    · cases hp
  | send2 q =>
    simp only [hpc, Option.some.injEq] at h
    refine ⟨_, h.symm, fun p hp => ?_⟩
    split_ifs at hp <;> cases hp
  | done | exited => simp only [hpc] at h; cases h

theorem Issued.client_step (hi : Issued s) {c : C} (h : clientStep s c = some t) : Issued t := by
  obtain ⟨pc, rfl, hpc⟩ := clientStep_spec h
  refine ⟨hi.kept, hi.queue, hi.removed, hi.file, hi.server, holds_gotoClient hi.client fun q hq => ?_⟩
  rcases hpc q hq with hold | hfile
  · exact hi.client c q hold
  · exact hi.file q hfile

end Clients

variable [DecidableEq S] [DecidableEq C]

theorem Issued.step (hi : Issued s) {a : Action S C} (h : (system S C).step s a = some t) :
    Issued t := by
  cases a with
  | server i => exact hi.server_step h
  | client c => exact hi.client_step h
  | kill i => exact hi.kill_step h

theorem issued_reachable (h : (system S C).Reachable s) : Issued s := by
  refine h.invariant ?_ fun _ _ _ hi hst => hi.step hst
  intro s hs
  obtain rfl : s = _ := hs
  exact ⟨nofun, nofun, nofun, nofun, nofun, nofun⟩

end LinuxApi.QueueServer
