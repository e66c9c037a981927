import LinuxApi.Kernel.Signals
import LinuxApi.Transition.History
import LinuxApi.Transition.System

/-! `process_sync_by_signal`. The parent blocks SYNC_SIG before it forks and waits for it in `sigsuspend`
with an empty mask; the child does its job and sends it. Both write to one unbuffered standard output, where a
`printf` of a whole line makes two writes, and SYNC_SIG may come from other processes too. -/

namespace LinuxApi.SyncBySignal

/-- `SYNC_SIG`, which is `SIGUSR1`. -/
def syncSig : ℕ := 10

/-- The lines that the processes print. -/
inductive Line where
  | childJob | waitChild | signaled | parentJob
  deriving DecidableEq

/-- One `write`: a line, or the newline behind it. -/
inductive Piece where
  | text (line : Line)
  | newline (line : Line)
  deriving DecidableEq

def Piece.line : Piece → Line
  | .text line | .newline line => line

def Piece.chars : Piece → String
  | .text .childJob => "Do something child's job for 2 seconds"
  | .text .waitChild => "Wait child finishing his job..."
  | .text .signaled => "SYNC_SIG signaled."
  | .text .parentJob => "Do something parent's job.."
  | .newline _ => "\n"

/-- The writes of a `printf`, which is compiled to `puts`. -/
def Line.puts (line : Line) : List Piece := [.text line, .newline line]

/-- Something is written, or another process sends SYNC_SIG. -/
inductive Event where
  | print (piece : Piece)
  | outside
  deriving DecidableEq

/-- Where the parent is. Inside `sigsuspend` the kernel keeps the mask to return to; `failed` follows
`errExit("fork()")` and `killed` the default action of the signal. -/
inductive ParentPc where
  | block | action | fork | print | printNewline | suspend
  | suspended (saved : Finset ℕ)
  | job | jobNewline | restore | exit | exited | failed | killed
  deriving DecidableEq

inductive ChildPc where
  | unborn | job | jobNewline | sleep | kill | exit | exited
  deriving DecidableEq

/-- Where `signal_handler` is. -/
inductive HandlerPc where
  | print | newline | leave
  deriving DecidableEq

/-- `signals` are those of the parent. -/
structure State where
  signals : Signals HandlerPc
  parent : ParentPc
  child : ChildPc
  originmask : Finset ℕ
  history : List Event

/-- What has been written. -/
def State.stdout (s : State) : List Piece :=
  s.history.filterMap fun
    | .print piece => some piece
    | .outside => none

def State.print (s : State) (piece : Piece) : State := { s with history := s.history ++ [.print piece] }

/-- A step of the parent, its failing `fork`, a step of its innermost handler, a step of the child, SYNC_SIG
from another process, and its delivery. -/
inductive Action where
  | parent | forkFails | handler | child | outside | deliver
  deriving DecidableEq

/-- The parent has not ended. -/
def ParentPc.alive : ParentPc → Bool
  | .exited | .failed | .killed => false
  | _ => true

/-- `process_sync_by_signal` in the parent, which goes on only while no handler runs. The second
`sigprocmask` does not return before a signal that it unblocks is delivered. -/
def parentStep (s : State) : Option State :=
  if s.signals.frames.isEmpty then
    match s.parent with
    | .block => some { s with
        signals := s.signals.block {syncSig}, originmask := s.signals.mask, parent := .action }
    | .action => some { s with parent := .fork }
    | .fork => some { s with parent := .print, child := .job }
    | .print => some { s.print (.text .waitChild) with parent := .printNewline }
    | .printNewline => some { s.print (.newline .waitChild) with parent := .suspend }
    | .suspend => some { s with
        signals := s.signals.setMask ∅, parent := .suspended s.signals.mask }
    | .job => some { s.print (.text .parentJob) with parent := .jobNewline }
    | .jobNewline => some { s.print (.newline .parentJob) with parent := .restore }
    | .restore => some { s with signals := s.signals.setMask s.originmask, parent := .exit }
    | .exit => if s.signals.pending ⊆ s.signals.mask then some { s with parent := .exited } else none
    | .suspended _ | .exited | .failed | .killed => none
  else none

def forkFails (s : State) : Option State :=
  if s.parent = .fork then some { s with parent := .failed } else none

/-- The return of the outermost handler ends `sigsuspend`. -/
def ParentPc.resumed : ParentPc → List (Frame HandlerPc) → ParentPc
  | .suspended _, [] => .job
  | pc, _ => pc

/-- `signal_handler` -/
def handlerStep (s : State) : Option State :=
  match s.signals.frames with
  | [] => none
  | f :: frames =>
    match f.pc with
    | .print => some { s.print (.text .signaled) with signals := s.signals.setPc .newline }
    | .newline => some { s.print (.newline .signaled) with signals := s.signals.setPc .leave }
    | .leave => some { s with signals := s.signals.leave, parent := s.parent.resumed frames }

/-- SYNC_SIG reaches the parent, if it is still there. -/
def State.send (s : State) : State :=
  if s.parent.alive then { s with signals := s.signals.send syncSig } else s

/-- The child; `kill(getppid(), SYNC_SIG)` is one step. -/
def childStep (s : State) : Option State :=
  match s.child with
  | .job => some { s.print (.text .childJob) with child := .jobNewline }
  | .jobNewline => some { s.print (.newline .childJob) with child := .sleep }
  | .sleep => some { s with child := .kill }
  | .kill => some { s.send with child := .exit }
  | .exit => some { s with child := .exited }
  | .unborn | .exited => none

/-- The handler is not yet installed. -/
def ParentPc.early : ParentPc → Bool
  | .block | .action => true
  | _ => false

/-- The mask the outermost handler returns to. -/
def State.resume (s : State) : Finset ℕ :=
  match s.parent with
  | .suspended saved => saved
  | _ => s.signals.mask

/-- Without the handler SYNC_SIG ends the process. -/
def deliverStep (s : State) : Option State :=
  if s.parent.alive then
    (s.signals.deliver .print s.resume syncSig).map fun signals =>
      if s.parent.early then { s with parent := .killed } else { s with signals }
  else none

/-- `entry` is the mask at the start; `originmask` is not initialised. -/
def system (entry : Finset ℕ) : System State Action where
  init s := s.signals = ⟨entry, ∅, []⟩ ∧ s.parent = .block ∧ s.child = .unborn ∧ s.history = []
  step s
    | .parent => parentStep s
    | .forkFails => forkFails s
    | .handler => handlerStep s
    | .child => childStep s
    | .outside => some { s.send with history := s.history ++ [.outside] }
    | .deliver => deliverStep s

/-! ### The mask -/

/-- The mask while no handler runs. -/
def ParentPc.outer (entry : Finset ℕ) : ParentPc → Finset ℕ
  | .suspended _ => ∅
  | .block | .exit | .exited | .killed => entry
  | _ => entry ∪ {syncSig}

/-- The mask the outermost handler restores. -/
def ParentPc.resume (entry : Finset ℕ) : ParentPc → Finset ℕ
  | .suspended _ => entry ∪ {syncSig}
  | pc => pc.outer entry

/-- Inside `sigsuspend`, or behind the final restore of the mask. -/
def ParentPc.handlerMayRun : ParentPc → Bool
  | .suspended _ | .exit => true
  | _ => false

/-- The mask has been saved. -/
def ParentPc.hasOrigin : ParentPc → Bool
  | .block | .killed => false
  | _ => true

structure Masked (entry : Finset ℕ) (s : State) : Prop where
  nested : Signals.Nested (s.parent.outer entry) (s.parent.resume entry) s.signals.frames s.signals.mask
  quiet : s.parent.handlerMayRun = false → s.signals.frames = []
  origin : s.parent.hasOrigin = true → s.originmask = entry
  saved : ∀ saved, s.parent = .suspended saved → saved = entry ∪ {syncSig}
  few : s.signals.pending ⊆ {syncSig}

variable {entry : Finset ℕ} {s t : State}

theorem Masked.mask_eq (hm : Masked entry s) (hf : s.signals.frames = []) :
    s.signals.mask = s.parent.outer entry :=
  hm.nested.mask_eq hf

/-- The steps of the parent that leave the signals alone. -/
theorem Masked.move (hm : Masked entry s) (hsignals : t.signals = s.signals)
    (horigin : t.originmask = s.originmask) (hf : s.signals.frames = [])
    (houter : t.parent.outer entry = s.parent.outer entry) (hsaved : ∀ saved, t.parent ≠ .suspended saved)
    (hsome : s.parent.hasOrigin = true) : Masked entry t := by
  refine ⟨?_, fun _ => hsignals ▸ hf, fun _ => horigin.trans (hm.origin hsome),
    fun saved hs => absurd hs (hsaved saved), hsignals ▸ hm.few⟩
  rw [hsignals, hf, hm.mask_eq hf, ← houter]
  exact .quiet

theorem Masked.parent_step (hm : Masked entry s) (h : parentStep s = some t) : Masked entry t := by
  obtain ⟨hf, h⟩ := Option.ite_none_right_eq_some.mp h
  have hf := List.isEmpty_iff.mp hf
  have hmask := hm.mask_eq hf
  cases hpc : s.parent with
  | block =>
    simp only [hpc, Option.some.injEq] at h
    subst h
    rw [hpc] at hmask
    refine ⟨?_, fun _ => hf, fun _ => hmask, fun _ => ParentPc.noConfusion, hm.few⟩
    show Signals.Nested _ _ s.signals.frames (s.signals.mask ∪ {syncSig})
    rw [hf, hmask]
    exact .quiet
  | action | fork | print | printNewline | job | jobNewline =>
    simp only [hpc, Option.some.injEq] at h
    subst h
    exact hm.move rfl rfl hf (by rw [hpc]; rfl) (fun _ => ParentPc.noConfusion) (by rw [hpc]; rfl)
  | suspend =>
    simp only [hpc, Option.some.injEq] at h
    subst h
    rw [hpc] at hmask
    refine ⟨?_, fun _ => hf, fun _ => hm.origin (by rw [hpc]; rfl), fun saved hs => ?_, hm.few⟩
    · show Signals.Nested _ _ s.signals.frames ∅
      rw [hf]
      exact .quiet
    · exact (ParentPc.suspended.inj hs).symm.trans hmask
  | restore =>
    simp only [hpc, Option.some.injEq] at h
    subst h
    have horigin := hm.origin (by rw [hpc]; rfl)
    refine ⟨?_, fun _ => hf, fun _ => horigin, fun _ => ParentPc.noConfusion, hm.few⟩
    show Signals.Nested _ _ s.signals.frames s.originmask
    rw [hf, horigin]
    exact .quiet
  | exit =>
    simp only [hpc, Option.ite_none_right_eq_some, Option.some.injEq] at h
    obtain ⟨-, rfl⟩ := h
    exact hm.move rfl rfl hf (by rw [hpc]; rfl) (fun _ => ParentPc.noConfusion) (by rw [hpc]; rfl)
  | suspended | exited | failed | killed => simp [hpc] at h

/-- A handler runs only inside `sigsuspend` or at the end. -/
theorem Masked.mayRun (hm : Masked entry s) {f : Frame HandlerPc} {frames : List (Frame HandlerPc)}
    (hf : s.signals.frames = f :: frames) : s.parent.handlerMayRun = true := by
  by_contra hr
  rw [hm.quiet (Bool.not_eq_true _ ▸ hr)] at hf
  cases hf

/-- The handler comes back to `sigsuspend`'s caller with SYNC_SIG blocked, or to the end. -/
theorem Masked.leave (hm : Masked entry s) {f : Frame HandlerPc} {frames : List (Frame HandlerPc)}
    (hf : s.signals.frames = f :: frames) :
    Masked entry { s with signals := s.signals.leave, parent := s.parent.resumed frames } := by
  have hpending : s.signals.leave.pending = s.signals.pending := by rw [Signals.leave, hf]
  have hmay := hm.mayRun hf
  have hnested := hm.nested
  cases hp : s.parent with
  | suspended saved =>
    have horigin := hm.origin (by rw [hp]; rfl)
    rw [hp] at hnested
    cases frames with
    | nil =>
      obtain ⟨-, hleave⟩ := hnested.leave_outermost hf
      refine ⟨?_, fun _ => ?_, fun _ => horigin, fun _ => ParentPc.noConfusion, hpending ▸ hm.few⟩
      · rw [hleave]
        exact .quiet
      · rw [hleave]
    | cons g frames =>
      refine ⟨hnested.leave ?_, ?_, fun _ => horigin, fun x hx => ?_, hpending ▸ hm.few⟩
      · rw [hf]
        simp
      · exact Bool.noConfusion
      · exact hm.saved x (hp.trans hx)
  | exit =>
    have horigin := hm.origin (by rw [hp]; rfl)
    rw [hp] at hnested
    exact ⟨hnested.leave fun _ => rfl, Bool.noConfusion, fun _ => horigin,
      fun _ => ParentPc.noConfusion, hpending ▸ hm.few⟩
  | _ => simp [hp, ParentPc.handlerMayRun] at hmay

theorem Masked.handler_step (hm : Masked entry s) (h : handlerStep s = some t) : Masked entry t := by
  unfold handlerStep at h
  cases hf : s.signals.frames with
  | nil => simp [hf] at h
  | cons f frames =>
    have hmay := hm.mayRun hf
    cases hfpc : f.pc with
    | print | newline =>
      simp only [hf, hfpc, Option.some.injEq] at h
      subst h
      refine ⟨hm.nested.setPc _, fun hr => ?_, hm.origin, hm.saved, hm.few⟩
      exact Bool.noConfusion (hmay.symm.trans hr)
    | leave =>
      simp only [hf, hfpc, Option.some.injEq] at h
      subst h
      exact hm.leave hf

theorem Masked.send (hm : Masked entry s) : Masked entry s.send := by
  unfold State.send
  split_ifs
  · refine ⟨hm.nested, hm.quiet, hm.origin, hm.saved, ?_⟩
    exact Finset.insert_subset (Finset.mem_singleton_self _) hm.few
  · exact hm

theorem Masked.of_eq (hm : Masked entry s) (hsignals : t.signals = s.signals)
    (hparent : t.parent = s.parent) (horigin : t.originmask = s.originmask) : Masked entry t := by
  obtain ⟨signals, parent, child, originmask, history⟩ := t
  obtain rfl : signals = s.signals := hsignals
  obtain rfl : parent = s.parent := hparent
  obtain rfl : originmask = s.originmask := horigin
  exact ⟨hm.nested, hm.quiet, hm.origin, hm.saved, hm.few⟩

theorem Masked.child_step (hm : Masked entry s) (h : childStep s = some t) : Masked entry t := by
  unfold childStep at h
  cases hc : s.child with
  | kill =>
    simp only [hc, Option.some.injEq] at h
    subst h
    exact hm.send.of_eq rfl rfl rfl
  | job | jobNewline | sleep | exit =>
    simp only [hc, Option.some.injEq] at h
    subst h
    exact hm.of_eq rfl rfl rfl
  | unborn | exited => simp [hc] at h

/-- The delivery of SYNC_SIG while the handler is installed. -/
theorem Masked.deliver_step (hm : Masked entry s) (h : deliverStep s = some t) : Masked entry t := by
  obtain ⟨halive, h⟩ := Option.ite_none_right_eq_some.mp h
  obtain ⟨signals, hd, rfl⟩ := Option.map_eq_some_iff.mp h
  obtain ⟨hsig, hmask, hpending, -⟩ := Signals.deliver_spec hd
  have hresume : s.signals.frames = [] → s.resume = s.parent.resume entry := by
    intro hf
    cases hpc : s.parent with
    | suspended saved =>
      rw [State.resume, hpc, hm.saved saved hpc]
      rfl
    | _ =>
      rw [State.resume, hpc, hm.mask_eq hf, hpc]
      rfl
  have hmay : s.parent.early = false → s.parent.handlerMayRun = true := by
    intro hearly
    by_contra hr
    have hr := Bool.not_eq_true _ ▸ hr
    rw [hm.mask_eq (hm.quiet hr)] at hmask
    cases hpc : s.parent with
    | suspended | exit => simp [hpc, ParentPc.handlerMayRun] at hr
    | block | action => simp [hpc, ParentPc.early] at hearly
    | exited | failed | killed => simp [hpc, ParentPc.alive] at halive
    | fork | print | printNewline | suspend | job | jobNewline | restore => simp [hpc, ParentPc.outer] at hmask
  split_ifs with hearly
  · cases hpc : s.parent with
    | block =>
      have hf := hm.quiet (by rw [hpc]; rfl)
      have hout := hm.mask_eq hf
      rw [hpc] at hout
      refine ⟨?_, fun _ => hf, Bool.noConfusion, fun _ => ParentPc.noConfusion, hm.few⟩
      show Signals.Nested _ _ s.signals.frames s.signals.mask
      rw [hf, hout]
      exact .quiet
    | action =>
      have hout := hm.mask_eq (hm.quiet (by rw [hpc]; rfl))
      rw [hpc] at hout
      simp [hout, ParentPc.outer] at hmask
    | _ => simp [hpc, ParentPc.early] at hearly
  · have hearly := Bool.not_eq_true _ ▸ hearly
    refine ⟨hm.nested.deliver hresume hd, fun hr => ?_, hm.origin, hm.saved, ?_⟩
    · exact Bool.noConfusion ((hmay hearly).symm.trans hr)
    · show signals.pending ⊆ _
      rw [hpending]
      exact (Finset.erase_subset _ _).trans hm.few

theorem Masked.step (hm : Masked entry s) {a : Action} (h : (system entry).step s a = some t) :
    Masked entry t := by
  cases a with
  | parent => exact hm.parent_step h
  | forkFails =>
    obtain ⟨hpc, h⟩ := Option.ite_none_right_eq_some.mp h
    cases h
    exact hm.move rfl rfl (hm.quiet (by rw [hpc]; rfl)) (by rw [hpc]; rfl)
      (fun _ => ParentPc.noConfusion) (by rw [hpc]; rfl)
  | handler => exact hm.handler_step h
  | child => exact hm.child_step h
  | outside =>
    cases h
    exact hm.send.of_eq rfl rfl rfl
  | deliver => exact hm.deliver_step h

/-! ### The order of the jobs -/

/-- Something has sent SYNC_SIG: the child behind its job, or another process. -/
def Cause (history : List Event) : Prop := .print (.newline .childJob) ∈ history ∨ .outside ∈ history

/-- The parent is behind its `sigsuspend`. -/
def ParentPc.woken : ParentPc → Bool
  | .job | .jobNewline | .restore | .exit | .exited => true
  | _ => false

/-- The child has done its job. -/
def ChildPc.worked : ChildPc → Bool
  | .unborn | .job | .jobNewline => false
  | _ => true

/-- Where SYNC_SIG is on its way through the parent, it has been sent, and where it has gone through, the
handler has run. -/
structure Ordered (s : State) : Prop where
  pending : s.signals.pending ≠ ∅ → Cause s.history
  running : s.signals.frames ≠ [] → Cause s.history
  printed : ∀ f ∈ s.signals.frames, f.pc = .leave → .print (.newline .signaled) ∈ s.history
  worked : s.child.worked = true → .print (.newline .childJob) ∈ s.history
  woken : s.parent.woken = true → .print (.newline .signaled) ∈ s.history
  signaled : ∀ pre post, s.history = pre ++ .print (.text .signaled) :: post → Cause pre
  job : ∀ pre post, s.history = pre ++ .print (.text .parentJob) :: post → .print (.newline .signaled) ∈ pre

theorem Cause.append {h : List Event} (hc : Cause h) (later : List Event) : Cause (h ++ later) :=
  hc.imp (List.mem_append_left _) (List.mem_append_left _)

/-- A longer history keeps what a shorter one has; the new event is checked by itself. -/
theorem Ordered.of_concat (ho : Ordered s) {e : Event} (hhistory : t.history = s.history ++ [e])
    (hpending : t.signals.pending ≠ ∅ → s.signals.pending ≠ ∅ ∨ Cause t.history)
    (hframes : ∀ f ∈ t.signals.frames, ∃ g ∈ s.signals.frames,
      f.pc = .leave → g.pc = .leave ∨ e = .print (.newline .signaled))
    (hworked : t.child.worked = true → s.child.worked = true ∨ e = .print (.newline .childJob))
    (hsignaled : e = .print (.text .signaled) → s.signals.frames ≠ [])
    (hwoken : t.parent.woken = true → s.parent.woken = true)
    (hjob : e = .print (.text .parentJob) → s.parent.woken = true) : Ordered t := by
  have hkeep : ∀ x ∈ s.history, x ∈ t.history := fun x hx => hhistory ▸ List.mem_append_left _ hx
  have hcause : Cause s.history → Cause t.history := fun hc => hhistory ▸ hc.append [e]
  have hnew : e ∈ t.history := hhistory ▸ List.mem_append_right _ (List.mem_singleton_self e)
  have hlast : ∀ {pre post : List Event} {x : Event}, s.history ++ [e] = pre ++ x :: post →
      (s.history = pre ∧ x = e) ∨ ∃ mid, s.history = pre ++ x :: mid := by
    intro pre post x hsplit
    rcases eq_append_concat hsplit with ⟨rfl, he⟩ | ⟨mid, -, hs⟩
    · exact .inl ⟨List.append_inj_left' hsplit rfl, he⟩
    · exact .inr ⟨mid, hs⟩
  refine ⟨fun hp => ?_, fun hf => ?_, fun f hf hpc => ?_, fun hw => ?_, fun hw => ?_,
    fun pre post hsplit => ?_, fun pre post hsplit => ?_⟩
  · exact (hpending hp).elim (fun hp => hcause (ho.pending hp)) id
  · obtain ⟨f, hf⟩ := List.exists_mem_of_ne_nil _ hf
    obtain ⟨g, hg, -⟩ := hframes f hf
    exact hcause (ho.running (List.ne_nil_of_mem hg))
  · obtain ⟨g, hg, hgpc⟩ := hframes f hf
    rcases hgpc hpc with hgpc | rfl
    · exact hkeep _ (ho.printed g hg hgpc)
    · exact hnew
  · rcases hworked hw with hw | rfl
    · exact hkeep _ (ho.worked hw)
    · exact hnew
  · exact hkeep _ (ho.woken (hwoken hw))
  · rw [hhistory] at hsplit
    rcases hlast hsplit with ⟨rfl, he⟩ | ⟨mid, hs⟩
    · exact ho.running (hsignaled he.symm)
    · exact ho.signaled pre mid hs
  · rw [hhistory] at hsplit
    rcases hlast hsplit with ⟨rfl, he⟩ | ⟨mid, hs⟩
    · exact ho.woken (hjob he.symm)
    · exact ho.job pre mid hs

/-- Nothing is printed. -/
theorem Ordered.of_eq (ho : Ordered s) (hhistory : t.history = s.history)
    (hpending : t.signals.pending ≠ ∅ → Cause s.history) (hframes : t.signals.frames ≠ [] → Cause s.history)
    (hprinted : ∀ f ∈ t.signals.frames, f.pc = .leave → .print (.newline .signaled) ∈ s.history)
    (hworked : t.child.worked = true → .print (.newline .childJob) ∈ s.history)
    (hwoken : t.parent.woken = true → .print (.newline .signaled) ∈ s.history) : Ordered t := by
  obtain ⟨signals, parent, child, originmask, history⟩ := t
  obtain rfl : history = s.history := hhistory
  exact ⟨hpending, hframes, hprinted, hworked, hwoken, ho.signaled, ho.job⟩

/-- The parent moves on between two calls. -/
theorem Ordered.move (ho : Ordered s) (hhistory : t.history = s.history)
    (hpending : t.signals.pending = s.signals.pending) (hframes : t.signals.frames = s.signals.frames)
    (hchild : t.child.worked = true → s.child.worked = true)
    (hwoken : t.parent.woken = true → s.parent.woken = true) : Ordered t :=
  ho.of_eq hhistory (hpending ▸ ho.pending) (hframes ▸ ho.running) (hframes ▸ ho.printed)
    (fun h => ho.worked (hchild h)) fun h => ho.woken (hwoken h)

theorem Ordered.parent_step (ho : Ordered s) (h : parentStep s = some t) : Ordered t := by
  obtain ⟨hf, h⟩ := Option.ite_none_right_eq_some.mp h
  have hf := List.isEmpty_iff.mp hf
  cases hpc : s.parent with
  | block | action | suspend =>
    simp only [hpc, Option.some.injEq] at h
    subst h
    exact ho.move rfl rfl rfl id Bool.noConfusion
  | fork =>
    simp only [hpc, Option.some.injEq] at h
    subst h
    exact ho.move rfl rfl rfl Bool.noConfusion Bool.noConfusion
  | restore =>
    simp only [hpc, Option.some.injEq] at h
    subst h
    exact ho.move rfl rfl rfl id fun _ => by rw [hpc]; rfl
  | exit =>
    simp only [hpc, Option.ite_none_right_eq_some, Option.some.injEq] at h
    obtain ⟨-, rfl⟩ := h
    exact ho.move rfl rfl rfl id fun _ => by rw [hpc]; rfl
  | print | printNewline =>
    simp only [hpc, Option.some.injEq] at h
    subst h
    exact ho.of_concat rfl .inl (fun f hf => ⟨f, hf, .inl⟩) .inl (fun he => by cases he) Bool.noConfusion
      fun he => by cases he
  | job | jobNewline =>
    simp only [hpc, Option.some.injEq] at h
    subst h
    exact ho.of_concat rfl .inl (fun f hf => ⟨f, hf, .inl⟩) .inl (fun he => by cases he)
      (fun _ => by rw [hpc]; rfl) fun _ => by rw [hpc]; rfl
  | suspended | exited | failed | killed => simp [hpc] at h

/-- The innermost handler has written something. -/
theorem Ordered.handler_print (ho : Ordered s) {f : Frame HandlerPc} {frames : List (Frame HandlerPc)}
    (hf : s.signals.frames = f :: frames) (piece : Piece) {pc : HandlerPc}
    (hpiece : pc = .leave → piece = .newline .signaled) (hjob : piece ≠ .text .parentJob) :
    Ordered { s.print piece with signals := s.signals.setPc pc } := by
  have hset := Signals.setPc_eq hf pc
  refine ho.of_concat (e := .print piece) rfl (fun hp => .inl ?_) (fun g hg => ?_) .inl (fun _ => ?_) id fun he => ?_
  · rw [hset] at hp
    exact hp
  · rw [hset, List.mem_cons] at hg
    rcases hg with rfl | hg
    · exact ⟨f, by rw [hf]; exact List.mem_cons_self, fun hpc => .inr (congrArg Event.print (hpiece hpc))⟩
    · exact ⟨g, by rw [hf]; exact List.mem_cons_of_mem _ hg, .inl⟩
  · rw [hf]
    exact List.cons_ne_nil _ _
  · exact absurd (Event.print.inj he) hjob

theorem Ordered.handler_step (ho : Ordered s) (h : handlerStep s = some t) : Ordered t := by
  unfold handlerStep at h
  cases hf : s.signals.frames with
  | nil => simp [hf] at h
  | cons f frames =>
    cases hfpc : f.pc with
    | print =>
      simp only [hf, hfpc, Option.some.injEq] at h
      subst h
      exact ho.handler_print hf _ nofun nofun
    | newline =>
      simp only [hf, hfpc, Option.some.injEq] at h
      subst h
      exact ho.handler_print hf _ (fun _ => rfl) nofun
    | leave =>
      simp only [hf, hfpc, Option.some.injEq] at h
      subst h
      have hsig := ho.printed f (by rw [hf]; exact List.mem_cons_self) hfpc
      have hleave : s.signals.leave = ⟨f.saved, s.signals.pending, frames⟩ := Signals.leave_eq hf
      refine ho.of_eq rfl ?_ (fun _ => ho.running (by rw [hf]; simp)) (fun _ _ _ => hsig) ho.worked
        fun _ => hsig
      show s.signals.leave.pending ≠ ∅ → _
      rw [hleave]
      exact ho.pending

/-- What a signal sent leaves alone. -/
theorem send_frame (s : State) : s.send.signals.frames = s.signals.frames ∧ s.send.parent = s.parent ∧
    s.send.child = s.child ∧ s.send.history = s.history := by
  unfold State.send
  split_ifs <;> exact ⟨rfl, rfl, rfl, rfl⟩

/-- Whoever sends SYNC_SIG is a cause. -/
theorem Ordered.send (ho : Ordered s) (hc : Cause s.history) : Ordered s.send := by
  unfold State.send
  split_ifs
  · exact ho.of_eq rfl (fun _ => hc) ho.running ho.printed ho.worked ho.woken
  · exact ho

theorem Ordered.child_step (ho : Ordered s) (h : childStep s = some t) : Ordered t := by
  unfold childStep at h
  cases hc : s.child with
  | job =>
    simp only [hc, Option.some.injEq] at h
    subst h
    exact ho.of_concat rfl .inl (fun f hf => ⟨f, hf, .inl⟩) Bool.noConfusion (fun he => by cases he) id
      fun he => by cases he
  | jobNewline =>
    simp only [hc, Option.some.injEq] at h
    subst h
    exact ho.of_concat rfl .inl (fun f hf => ⟨f, hf, .inl⟩) (fun _ => .inr rfl) (fun he => by cases he) id
      fun he => by cases he
  | sleep | exit =>
    simp only [hc, Option.some.injEq] at h
    subst h
    exact ho.move rfl rfl rfl (fun _ => by rw [hc]; rfl) id
  | kill =>
    simp only [hc, Option.some.injEq] at h
    subst h
    have hworked := ho.worked (by rw [hc]; rfl)
    have hchild : s.send.child = .kill := (send_frame s).2.2.1.trans hc
    exact (ho.send (.inl hworked)).move rfl rfl rfl (fun _ => by rw [hchild]; rfl) id
  | unborn | exited => simp [hc] at h

theorem Ordered.deliver_step (ho : Ordered s) (h : deliverStep s = some t) : Ordered t := by
  obtain ⟨-, h⟩ := Option.ite_none_right_eq_some.mp h
  obtain ⟨signals, hd, rfl⟩ := Option.map_eq_some_iff.mp h
  obtain ⟨hsig, -, hpending, saved, hframes⟩ := Signals.deliver_spec hd
  have hcause := ho.pending (Finset.ne_empty_of_mem hsig)
  split_ifs
  · exact ho.move rfl rfl rfl id Bool.noConfusion
  · refine ho.of_eq rfl (fun _ => hcause) (fun _ => hcause) (fun f hf hpc => ?_) ho.worked ho.woken
    have hf : f ∈ signals.frames := hf
    rw [hframes, List.mem_cons] at hf
    rcases hf with rfl | hf
    · cases hpc
    · exact ho.printed f hf hpc

theorem Ordered.step (ho : Ordered s) {a : Action} (h : (system entry).step s a = some t) : Ordered t := by
  cases a with
  | parent => exact ho.parent_step h
  | forkFails =>
    obtain ⟨-, h⟩ := Option.ite_none_right_eq_some.mp h
    cases h
    exact ho.move rfl rfl rfl id Bool.noConfusion
  | handler => exact ho.handler_step h
  | child => exact ho.child_step h
  | outside =>
    cases h
    obtain ⟨hframes, hparent, hchild, hhistory⟩ := send_frame s
    refine ho.of_concat (e := .outside) rfl (fun _ => .inr (.inr ?_)) (fun f hf => ⟨f, hframes ▸ hf, .inl⟩)
      (fun hw => .inl (hchild ▸ hw)) (fun he => by cases he) (fun hw => hparent ▸ hw) fun he => by cases he
    exact List.mem_append_right _ (List.mem_singleton_self _)
  | deliver => exact ho.deliver_step h

theorem masked_init (h : (system entry).init s) : Masked entry s := by
  obtain ⟨hsignals, hparent, -, -⟩ := h
  refine ⟨?_, fun _ => by rw [hsignals], ?_, fun saved hs => ?_, ?_⟩
  · rw [hsignals, hparent]
    exact .quiet
  · rw [hparent]
    exact Bool.noConfusion
  · rw [hparent] at hs
    cases hs
  · rw [hsignals]
    exact Finset.empty_subset _

theorem ordered_init (h : (system entry).init s) : Ordered s := by
  obtain ⟨hsignals, hparent, hchild, hhistory⟩ := h
  refine ⟨?_, ?_, ?_, ?_, ?_, ?_, ?_⟩ <;>
    simp [hsignals, hparent, hchild, hhistory, ChildPc.worked, ParentPc.woken]

theorem masked_ordered (h : (system entry).Reachable s) : Masked entry s ∧ Ordered s :=
  h.invariant (I := fun s => Masked entry s ∧ Ordered s) (fun _ hs => ⟨masked_init hs, ordered_init hs⟩)
    fun _ _ _ hi ht => ⟨hi.1.step ht, hi.2.step ht⟩

/-- In every interleaving, with SYNC_SIG sent by other processes at any time: the parent does its job only
after the handler has run for a SYNC_SIG, which the child has sent behind its own job unless another process
has sent it; the handler interrupts the parent nowhere but in `sigsuspend` and behind the last
`sigprocmask`; and the parent ends with the mask it was started with. -/
theorem parent_works_after_child (h : (system entry).Reachable s) :
    (∀ pre post, s.history = pre ++ .print (.text .parentJob) :: post → .print (.newline .signaled) ∈ pre) ∧
      (∀ pre post, s.history = pre ++ .print (.text .signaled) :: post → Cause pre) ∧
      (s.signals.frames ≠ [] → s.parent.handlerMayRun = true) ∧
      (s.parent = .exited → s.signals.mask = entry) := by
  obtain ⟨hm, ho⟩ := masked_ordered h
  refine ⟨ho.job, ho.signaled, fun hf => ?_, fun hpc => ?_⟩
  · obtain ⟨f, frames, hf⟩ := List.exists_cons_of_ne_nil hf
    exact hm.mayRun hf
  · rw [hm.mask_eq (hm.quiet (by rw [hpc]; rfl)), hpc]
    rfl

/-- The child is done before the parent waits; a second SYNC_SIG comes while the handler runs. -/
theorem parent_works_after_child_early : ∃ s, (system {2}).Reachable s ∧
    s.stdout = Line.childJob.puts ++ Line.waitChild.puts ++ Line.signaled.puts ++ Line.parentJob.puts ++
      Line.signaled.puts ∧ s.signals.mask = {2} := by
  let start : State := ⟨⟨{2}, ∅, []⟩, .block, .unborn, ∅, []⟩
  have h := System.reachable_of_isSome (S := system {2}) (s := start) ⟨rfl, rfl, rfl, rfl⟩
    [.parent, .parent, .parent, .child, .child, .child, .child, .parent, .parent, .parent, .deliver, .handler,
      .outside, .handler, .handler, .parent, .parent, .parent, .deliver, .handler, .handler, .handler, .parent] rfl
  exact ⟨_, h, rfl, (parent_works_after_child h).2.2.2 rfl⟩

end LinuxApi.SyncBySignal
