import LinuxApi.Process.SyncBySignal

/-! `process_sync_by_signal` when no other process sends SYNC_SIG. The signal waits while it is blocked, so
it is not lost when the child is done before the parent waits, and the two processes always come to their
end. -/

namespace LinuxApi.SyncBySignal

/-- `fork` works and no other process interferes. -/
def undisturbed (_ : State) (a : Action) : Bool := a ≠ .forkFails && a ≠ .outside

/-- The child has sent SYNC_SIG. -/
def ChildPc.killed : ChildPc → Bool
  | .exit | .exited => true
  | _ => false

/-- What stands in standard output of the first `child` writes of the child and the first `parent` writes of the parent,
in any order, and of nothing else. -/
structure Mixed (child parent : ℕ) (out : List Piece) : Prop where
  child : out.filter (fun x => x.line = .childJob) = Line.childJob.puts.take child
  parent : out.filter (fun x => x.line = .waitChild) = Line.waitChild.puts.take parent
  only : ∀ x ∈ out, x.line = .childJob ∨ x.line = .waitChild

/-- The writes behind the `fork`. -/
def ChildPc.written : ChildPc → ℕ
  | .unborn | .job => 0
  | .jobNewline => 1
  | .sleep | .kill | .exit | .exited => 2

/-- What is written before SYNC_SIG is handled. -/
def Written (s : State) (parent : ℕ) : Prop := ∃ out, Mixed s.child.written parent out ∧ s.history = out.map .print

/-- SYNC_SIG is pending from when the child sends it. -/
def Waiting (s : State) : Prop :=
  s.child ≠ .unborn ∧ s.signals.pending = if s.child.killed then {syncSig} else ∅

/-- SYNC_SIG has come and is handled, and this was written behind the first two lines. -/
def Woken (s : State) (later : List Piece) : Prop :=
  s.child.killed = true ∧ s.signals.pending = ∅ ∧ ∃ out, Mixed 2 2 out ∧ s.history = (out ++ later).map .print

/-- What the handler has written. -/
def HandlerPc.written : HandlerPc → List Piece
  | .print => []
  | .newline => [.text .signaled]
  | .leave => Line.signaled.puts

/-- Where the two processes are while nobody interferes. -/
def Alone (s : State) : Prop :=
  match s.parent with
  | .block | .action | .fork => s.child = .unborn ∧ s.signals.pending = ∅ ∧ s.history = []
  | .print => Waiting s ∧ Written s 0
  | .printNewline => Waiting s ∧ Written s 1
  | .suspend => Waiting s ∧ Written s 2
  | .suspended _ =>
    match s.signals.frames with
    | [] => Waiting s ∧ Written s 2
    | [f] => Woken s f.pc.written
    | _ => False
  | .job => Woken s Line.signaled.puts
  | .jobNewline => s.signals.frames = [] ∧ Woken s (Line.signaled.puts ++ [.text .parentJob])
  | .restore | .exit | .exited => s.signals.frames = [] ∧ Woken s (Line.signaled.puts ++ Line.parentJob.puts)
  | .failed | .killed => False

/-- The steps the handler has left. -/
def HandlerPc.work : HandlerPc → ℕ
  | .print => 3
  | .newline => 2
  | .leave => 1

/-- The steps the parent has left. -/
def State.parentWork (s : State) : ℕ :=
  match s.parent with
  | .block => 14
  | .action => 13
  | .fork => 12
  | .print => 11
  | .printNewline => 10
  | .suspend => 9
  | .suspended _ =>
    match s.signals.frames with
    | [] => 8
    | f :: _ => 4 + f.pc.work
  | .job => 4
  | .jobNewline => 3
  | .restore => 2
  | .exit => 1
  | _ => 0

def ChildPc.work : ChildPc → ℕ
  | .unborn | .job => 5
  | .jobNewline => 4
  | .sleep => 3
  | .kill => 2
  | .exit => 1
  | .exited => 0

def State.work (s : State) : ℕ := s.parentWork + s.child.work

variable {entry : Finset ℕ} {s t : State}

/-! ### What is written -/

theorem mixed_nil : Mixed 0 0 [] := ⟨rfl, rfl, fun _ hx => absurd hx List.not_mem_nil⟩

theorem Mixed.child_step {c k : ℕ} {out : List Piece} {x : Piece} (h : Mixed c k out) (hx : x.line = .childJob)
    (hnext : Line.childJob.puts.take c ++ [x] = Line.childJob.puts.take (c + 1)) : Mixed (c + 1) k (out ++ [x]) := by
  refine ⟨?_, ?_, fun y hy => ?_⟩
  · rw [List.filter_append, h.child, ← hnext]
    simp [hx]
  · rw [List.filter_append, h.parent]
    simp [hx]
  · rcases List.mem_append.mp hy with hy | hy
    · exact h.only y hy
    · rw [List.mem_singleton.mp hy]
      exact .inl hx

theorem Mixed.parent_step {c k : ℕ} {out : List Piece} {x : Piece} (h : Mixed c k out) (hx : x.line = .waitChild)
    (hnext : Line.waitChild.puts.take k ++ [x] = Line.waitChild.puts.take (k + 1)) : Mixed c (k + 1) (out ++ [x]) := by
  refine ⟨?_, ?_, fun y hy => ?_⟩
  · rw [List.filter_append, h.child]
    simp [hx]
  · rw [List.filter_append, h.parent, ← hnext]
    simp [hx]
  · rcases List.mem_append.mp hy with hy | hy
    · exact h.only y hy
    · rw [List.mem_singleton.mp hy]
      exact .inr hx

theorem Written.parent_step {k : ℕ} (h : Written s k) {x : Piece} (hx : x.line = .waitChild)
    (hnext : Line.waitChild.puts.take k ++ [x] = Line.waitChild.puts.take (k + 1)) {parent : ParentPc} :
    Written { s.print x with parent } (k + 1) := by
  obtain ⟨out, hout, hhistory⟩ := h
  refine ⟨out ++ [x], hout.parent_step hx hnext, ?_⟩
  rw [List.map_append, ← hhistory]
  rfl

theorem Woken.print {later : List Piece} (h : Woken s later) (x : Piece) (parent : ParentPc) :
    Woken { s.print x with parent } (later ++ [x]) := by
  obtain ⟨hk, hp, out, hout, hhistory⟩ := h
  refine ⟨hk, hp, out, hout, ?_⟩
  rw [← List.append_assoc, List.map_append, ← hhistory]
  rfl

/-! ### Every step -/

theorem Alone.parent_step (ha : Alone s) (h : parentStep s = some t) : Alone t ∧ t.work < s.work := by
  obtain ⟨hf, h⟩ := Option.ite_none_right_eq_some.mp h
  have hf := List.isEmpty_iff.mp hf
  unfold Alone at ha
  cases hpc : s.parent with
  | block | action =>
    simp only [hpc, Option.some.injEq] at h ha
    subst h
    exact ⟨ha, by simp [State.work, State.parentWork, hpc]⟩
  | fork =>
    simp only [hpc, Option.some.injEq] at h ha
    subst h
    refine ⟨⟨⟨ChildPc.noConfusion, ha.2.1⟩, [], mixed_nil, ha.2.2⟩, ?_⟩
    simp [State.work, State.parentWork, hpc, ha.1, ChildPc.work]
  | print | printNewline =>
    simp only [hpc, Option.some.injEq] at h ha
    subst h
    exact ⟨⟨ha.1, ha.2.parent_step rfl rfl⟩, by simp [State.work, State.parentWork, hpc, State.print]⟩
  | suspend =>
    simp only [hpc, Option.some.injEq] at h ha
    subst h
    constructor
    · unfold Alone
      simp only [Signals.setMask, hf]
      exact ha
    · simp [State.work, State.parentWork, hpc, Signals.setMask, hf]
  | job =>
    simp only [hpc, Option.some.injEq] at h ha
    subst h
    exact ⟨⟨hf, ha.print _ _⟩, by simp [State.work, State.parentWork, hpc, State.print]⟩
  | jobNewline =>
    simp only [hpc, Option.some.injEq] at h ha
    subst h
    exact ⟨⟨hf, ha.2.print _ _⟩, by simp [State.work, State.parentWork, hpc, State.print]⟩
  | restore =>
    simp only [hpc, Option.some.injEq] at h ha
    subst h
    exact ⟨ha, by simp [State.work, State.parentWork, hpc]⟩
  | exit =>
    simp only [hpc, Option.ite_none_right_eq_some, Option.some.injEq] at h ha
    obtain ⟨-, rfl⟩ := h
    exact ⟨ha, by simp [State.work, State.parentWork, hpc]⟩
  | suspended | exited | failed | killed => simp [hpc] at h

/-- A handler is running, so the parent is in `sigsuspend`. -/
theorem Alone.running (ha : Alone s) (hm : Masked entry s) {f : Frame HandlerPc}
    {frames : List (Frame HandlerPc)} (hf : s.signals.frames = f :: frames) :
    (∃ saved, s.parent = .suspended saved) ∧ frames = [] ∧ Woken s f.pc.written := by
  have hmay := hm.mayRun hf
  unfold Alone at ha
  cases hpc : s.parent with
  | suspended saved =>
    simp only [hpc, hf] at ha
    cases frames with
    | nil => exact ⟨⟨saved, rfl⟩, rfl, ha⟩
    | cons => exact ha.elim
  | exit => simp [hpc, hf] at ha
  | _ => simp [hpc, ParentPc.handlerMayRun] at hmay

/-- The handler writes. -/
theorem Alone.handler_print (ha : Alone s) (hm : Masked entry s) {f : Frame HandlerPc}
    {frames : List (Frame HandlerPc)} (hf : s.signals.frames = f :: frames) (x : Piece) {pc : HandlerPc}
    (hwritten : f.pc.written ++ [x] = pc.written) (hwork : pc.work < f.pc.work) :
    Alone { s.print x with signals := s.signals.setPc pc } ∧
      ({ s.print x with signals := s.signals.setPc pc } : State).work < s.work := by
  obtain ⟨⟨saved, hpc⟩, rfl, hw⟩ := ha.running hm hf
  obtain ⟨hk, hp, out, hout, hh⟩ := hw.print x s.parent
  have hset := Signals.setPc_eq hf pc
  constructor
  · unfold Alone
    simp only [State.print, hpc, hset]
    exact ⟨hk, hp, out, hout, hwritten ▸ hh⟩
  · simp only [State.work, State.parentWork, State.print, hpc, hset, hf]
    omega

theorem Alone.handler_step (ha : Alone s) (hm : Masked entry s) (h : handlerStep s = some t) :
    Alone t ∧ t.work < s.work := by
  unfold handlerStep at h
  cases hf : s.signals.frames with
  | nil => simp [hf] at h
  | cons f frames =>
    cases hfpc : f.pc with
    | print | newline =>
      simp only [hf, hfpc, Option.some.injEq] at h
      subst h
      exact ha.handler_print hm hf _ (by rw [hfpc]; rfl) (by rw [hfpc]; exact Nat.lt_succ_self _)
    | leave =>
      simp only [hf, hfpc, Option.some.injEq] at h
      subst h
      obtain ⟨⟨saved, hpc⟩, rfl, hk, hp, out, hout, hh⟩ := ha.running hm hf
      rw [hfpc] at hh
      have hleave := Signals.leave_eq hf
      constructor
      · unfold Alone
        simp only [hpc, ParentPc.resumed]
        exact ⟨hk, by rw [hleave]; exact hp, out, hout, hh⟩
      · simp [State.work, State.parentWork, hpc, hf, hfpc, ParentPc.resumed, HandlerPc.work]

/-- The steps of the child while SYNC_SIG is not yet on its way. -/
theorem Waiting.child_step (hw : Waiting s) {k : ℕ} (hl : Written s k) (halive : s.parent.alive = true)
    (h : childStep s = some t) :
    Waiting t ∧ Written t k ∧ t.child.work < s.child.work ∧ t.parent = s.parent ∧
      t.signals.frames = s.signals.frames := by
  obtain ⟨hborn, hpending⟩ := hw
  obtain ⟨out, hout, hhistory⟩ := hl
  have hprint : ∀ x, s.history ++ [.print x] = (out ++ [x]).map .print := by
    intro x
    rw [List.map_append, ← hhistory]
    rfl
  unfold childStep at h
  cases hc : s.child with
  | job | jobNewline =>
    simp only [hc, Option.some.injEq] at h
    subst h
    rw [hc] at hout hpending
    exact ⟨⟨ChildPc.noConfusion, hpending⟩, ⟨_, hout.child_step rfl rfl, hprint _⟩, by simp [ChildPc.work], rfl, rfl⟩
  | sleep =>
    simp only [hc, Option.some.injEq] at h
    subst h
    rw [hc] at hout hpending
    exact ⟨⟨ChildPc.noConfusion, hpending⟩, ⟨out, hout, hhistory⟩, by simp [ChildPc.work], rfl, rfl⟩
  | kill =>
    simp only [hc, Option.some.injEq] at h
    subst h
    rw [hc] at hout hpending
    rw [State.send, if_pos halive]
    refine ⟨⟨ChildPc.noConfusion, ?_⟩, ⟨out, hout, hhistory⟩, by simp [ChildPc.work], rfl, rfl⟩
    show insert syncSig s.signals.pending = {syncSig}
    rw [hpending]
    rfl
  | exit =>
    simp only [hc, Option.some.injEq] at h
    subst h
    rw [hc] at hout hpending
    exact ⟨⟨ChildPc.noConfusion, hpending⟩, ⟨out, hout, hhistory⟩, by simp [ChildPc.work], rfl, rfl⟩
  | unborn => exact absurd hc hborn
  | exited => simp [hc] at h

/-- Behind its `kill` the child only exits. -/
theorem child_exits (hk : s.child.killed = true) (h : childStep s = some t) :
    t = { s with child := .exited } ∧ s.child = .exit := by
  unfold childStep at h
  cases hc : s.child with
  | exit =>
    simp only [hc, Option.some.injEq] at h
    exact ⟨h.symm, rfl⟩
  | exited => simp [hc] at h
  | unborn | job | jobNewline | sleep | kill => simp [hc, ChildPc.killed] at hk

theorem Woken.child_step {later : List Piece} (hw : Woken s later) (h : childStep s = some t) :
    Woken t later ∧ t.child.work < s.child.work ∧ t.parent = s.parent ∧ t.signals = s.signals := by
  obtain ⟨rfl, hc⟩ := child_exits hw.1 h
  exact ⟨⟨rfl, hw.2⟩, by simp [hc, ChildPc.work], rfl, rfl⟩

theorem Alone.child_step (ha : Alone s) (h : childStep s = some t) : Alone t ∧ t.work < s.work := by
  unfold Alone at ha
  have hwork : t.child.work < s.child.work → t.parent = s.parent →
      t.signals.frames = s.signals.frames → t.work < s.work := by
    intro hc hp hf
    unfold State.work State.parentWork
    rw [hp, hf]
    omega
  cases hpc : s.parent with
  | block | action | fork =>
    simp only [hpc] at ha
    simp [childStep, ha.1] at h
  | print | printNewline | suspend =>
    simp only [hpc] at ha
    obtain ⟨hw, hl, hc, hp, hf⟩ := ha.1.child_step ha.2 (by rw [hpc]; rfl) h
    refine ⟨?_, hwork hc hp hf⟩
    unfold Alone
    rw [hp, hpc]
    exact ⟨hw, hl⟩
  | suspended saved =>
    simp only [hpc] at ha
    cases hframes : s.signals.frames with
    | nil =>
      simp only [hframes] at ha
      obtain ⟨hw, hl, hc, hp, hf⟩ := ha.1.child_step ha.2 (by rw [hpc]; rfl) h
      refine ⟨?_, hwork hc hp hf⟩
      unfold Alone
      rw [hp, hpc, hf, hframes]
      exact ⟨hw, hl⟩
    | cons f frames =>
      cases frames with
      | nil =>
        simp only [hframes] at ha
        obtain ⟨hw, hc, hp, hf⟩ := ha.child_step h
        refine ⟨?_, hwork hc hp (congrArg Signals.frames hf)⟩
        unfold Alone
        rw [hp, hpc, hf, hframes]
        exact hw
      | cons => simp [hframes] at ha
  | job =>
    simp only [hpc] at ha
    obtain ⟨hw, hc, hp, hf⟩ := ha.child_step h
    refine ⟨?_, hwork hc hp (congrArg Signals.frames hf)⟩
    unfold Alone
    rw [hp, hpc]
    exact hw
  | jobNewline | restore | exit | exited =>
    simp only [hpc] at ha
    obtain ⟨hw, hc, hp, hf⟩ := ha.2.child_step h
    refine ⟨?_, hwork hc hp (congrArg Signals.frames hf)⟩
    unfold Alone
    rw [hp, hpc, hf]
    exact ⟨ha.1, hw⟩
  | failed | killed => simp [hpc] at ha

/-- SYNC_SIG is delivered in `sigsuspend` and nowhere else. -/
theorem Alone.deliver_step (ha : Alone s) (hm : Masked entry s) (h : deliverStep s = some t) :
    Alone t ∧ t.work < s.work := by
  obtain ⟨-, h⟩ := Option.ite_none_right_eq_some.mp h
  obtain ⟨signals, hd, rfl⟩ := Option.map_eq_some_iff.mp h
  obtain ⟨hsig, hmask, hpending, saved, hframes⟩ := Signals.deliver_spec hd
  have hsome : s.signals.pending ≠ ∅ := Finset.ne_empty_of_mem hsig
  unfold Alone at ha
  cases hpc : s.parent with
  | block | action | fork =>
    simp only [hpc] at ha
    exact absurd ha.2.1 hsome
  | print | printNewline | suspend =>
    have hout := hm.mask_eq (hm.quiet (by rw [hpc]; rfl))
    simp [hout, hpc, ParentPc.outer] at hmask
  | suspended saved =>
    simp only [hpc] at ha
    cases hf : s.signals.frames with
    | nil =>
      simp only [hf] at ha
      obtain ⟨⟨-, hwait⟩, hl⟩ := ha
      have hkilled : s.child.killed = true := by
        by_contra hk
        rw [if_neg hk] at hwait
        exact hsome hwait
      have hworked : s.child.written = 2 := by
        cases hc : s.child <;> simp [hc, ChildPc.killed] at hkilled <;> rfl
      obtain ⟨out, hout, hhistory⟩ := hl
      rw [hworked] at hout
      rw [hf] at hframes
      rw [if_pos hkilled] at hwait
      simp only [ParentPc.early, Bool.false_eq_true, if_false]
      constructor
      · unfold Alone
        simp only [hframes]
        refine ⟨hkilled, ?_, out, hout, ?_⟩
        · show signals.pending = ∅
          rw [hpending, hwait]
          rfl
        · rw [hhistory, HandlerPc.written, List.append_nil]
      · simp [State.work, State.parentWork, hpc, hf, hframes, HandlerPc.work]
    | cons f frames =>
      cases frames with
      | nil =>
        simp only [hf] at ha
        exact absurd ha.2.1 hsome
      | cons => simp [hf] at ha
  | job =>
    simp only [hpc] at ha
    exact absurd ha.2.1 hsome
  | jobNewline | restore | exit | exited =>
    simp only [hpc] at ha
    exact absurd ha.2.2.1 hsome
  | failed | killed => simp [hpc] at ha

theorem alone_init (h : (system entry).init s) : Alone s := by
  obtain ⟨hsignals, hparent, hchild, hhistory⟩ := h
  unfold Alone
  rw [hparent]
  exact ⟨hchild, by rw [hsignals], hhistory⟩

/-- What every step keeps while nobody interferes, and lowers. -/
theorem alone_step (hi : Masked entry s ∧ Alone s) {a : Action}
    (h : ((system entry).under undisturbed).step s a = some t) :
    (Masked entry t ∧ Alone t) ∧ t.work < s.work := by
  obtain ⟨ha, h⟩ := System.under_step_eq_some.mp h
  have hmasked := hi.1.step h
  suffices hs : Alone t ∧ t.work < s.work from ⟨⟨hmasked, hs.1⟩, hs.2⟩
  cases a with
  | parent => exact hi.2.parent_step h
  | handler => exact hi.2.handler_step hi.1 h
  | child => exact hi.2.child_step h
  | deliver => exact hi.2.deliver_step hi.1 h
  | forkFails | outside => cases ha

/-- The parent waits in `sigsuspend` only for a child that goes on. -/
theorem stuck_ends (hm : Masked entry s) (ha : Alone s)
    (hs : ((system entry).under undisturbed).Stuck s) : s.parent = .exited ∧ s.child = .exited := by
  have hnone : ∀ a, undisturbed s a = true → (system entry).step s a = none := by
    intro a hu
    have h := hs a
    simpa [System.under, hu] using h
  have hparent := hnone .parent rfl
  have hhandler := hnone .handler rfl
  have hchild := hnone .child rfl
  have hdeliver := hnone .deliver rfl
  simp only [system] at hparent hhandler hchild hdeliver
  have hframes : s.signals.frames = [] := by
    cases hf : s.signals.frames with
    | nil => rfl
    | cons f frames => cases hfpc : f.pc <;> simp [handlerStep, hf, hfpc] at hhandler
  have hchild : s.child = .unborn ∨ s.child = .exited := by
    cases hc : s.child <;> simp [childStep, hc] at hchild ⊢
  unfold Alone at ha
  simp only [parentStep, hframes, List.isEmpty_nil, if_true] at hparent
  cases hpc : s.parent with
  | block | action | fork | print | printNewline | suspend | job | jobNewline | restore => simp [hpc] at hparent
  | suspended saved =>
    simp only [hpc, hframes] at ha
    obtain ⟨⟨hborn, hwait⟩, -⟩ := ha
    have hc : s.child = .exited := hchild.resolve_left hborn
    have hmask : s.signals.mask = ∅ := by
      rw [hm.mask_eq hframes, hpc]
      rfl
    rw [hc] at hwait
    have hready : syncSig ∈ s.signals.pending ∧ syncSig ∉ s.signals.mask := by
      rw [hwait, hmask]
      decide
    simp [deliverStep, hpc, ParentPc.alive, Signals.deliver, hready] at hdeliver
  | exit =>
    simp only [hpc] at ha hparent
    simp [ha.2.2.1] at hparent
  | exited =>
    simp only [hpc] at ha
    refine ⟨rfl, hchild.resolve_left fun hc => ?_⟩
    have hk := ha.2.1
    rw [hc] at hk
    cases hk
  | failed | killed => simp [hpc] at ha

/-- When no other process sends SYNC_SIG, no wake-up is lost: every run is finite, can be continued until both
processes have ended, and ends nowhere else; then the lines of the child and of the waiting parent, which may mix, stand
before those of the handler and of the parent's job, and SYNC_SIG is not pending. -/
theorem no_wakeup_lost {as : List Action} (hs : (system entry).init s)
    (h : ((system entry).under undisturbed).run s as = some t) :
    as.length ≤ 19 ∧
      (∃ bs u, ((system entry).under undisturbed).run t bs = some u ∧
        ((system entry).under undisturbed).Stuck u) ∧
      (((system entry).under undisturbed).Stuck t →
        (t.parent = .exited ∧ t.child = .exited ∧ t.signals = ⟨entry, ∅, []⟩) ∧
        ∃ out, Mixed 2 2 out ∧ t.stdout = out ++ (Line.signaled.puts ++ Line.parentJob.puts)) := by
  have hinit : Masked entry s ∧ Alone s := ⟨masked_init hs, alone_init hs⟩
  have hlength := System.length_add_le_of_run (μ := State.work) (fun _ _ _ hi ht => (alone_step hi ht).1)
    (fun _ _ _ hi ht => (alone_step hi ht).2) hinit h
  have ht := System.run_invariant (fun _ _ _ hi ht => (alone_step hi ht).1) hinit h
  have hwork : s.work = 19 := by
    obtain ⟨-, hparent, hchild, -⟩ := hs
    simp [State.work, State.parentWork, hparent, hchild, ChildPc.work]
  refine ⟨by omega, ?_, fun hstuck => ?_⟩
  · exact System.exists_run_stuck (μ := State.work) (fun _ _ _ hi ht => (alone_step hi ht).1)
      (fun _ _ _ hi ht => (alone_step hi ht).2) ht
  · obtain ⟨hm, ha⟩ := ht
    obtain ⟨hpc, hc⟩ := stuck_ends hm ha hstuck
    unfold Alone at ha
    simp only [hpc] at ha
    obtain ⟨hframes, -, hpending, out, hout, hh⟩ := ha
    have hmask : t.signals.mask = entry := by
      rw [hm.mask_eq hframes, hpc]
      rfl
    refine ⟨⟨hpc, hc, ?_⟩, out, hout, ?_⟩
    · rw [← hmask, ← hpending, ← hframes]
    · rw [State.stdout, hh, List.filterMap_map]
      exact List.filterMap_some

/-- From the start some run leads to the end. -/
theorem no_wakeup_lost_once : ∃ as s t, ((system ∅).under undisturbed).run s as = some t ∧
    t.parent = .exited ∧ t.child = .exited ∧ as.length ≤ 19 := by
  let s : State := ⟨⟨∅, ∅, []⟩, .block, .unborn, ∅, []⟩
  have hs : (system ∅).init s := ⟨rfl, rfl, rfl, rfl⟩
  obtain ⟨as, t, ht, hstuck⟩ := (no_wakeup_lost hs (System.run_nil s)).2.1
  obtain ⟨hlength, -, hend⟩ := no_wakeup_lost hs ht
  exact ⟨as, s, t, ht, (hend hstuck).1.1, (hend hstuck).1.2.1, hlength⟩

end LinuxApi.SyncBySignal
