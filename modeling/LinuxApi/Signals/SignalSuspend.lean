import LinuxApi.Kernel.Signals
import LinuxApi.Transition.System

/-! `signal_suspend` in `signal_suspend.c`, from its first `sigprocmask` to its return: SIGINT and
SIGQUIT are blocked outside `sigsuspend`, and the loop goes on until the handler has seen a
SIGQUIT. Both signals are sent at any time once their handlers are installed. -/

namespace LinuxApi.SignalSuspend

/-- `SIGINT` -/
def sigint : ℕ := 2

/-- `SIGQUIT` -/
def sigquitNumber : ℕ := 3

def blockmask : Finset ℕ := {sigint, sigquitNumber}

/-- Where `signal_suspend` is; inside `sigsuspend` the kernel keeps the mask to return to. -/
inductive Pc where
  | block | actionInt | actionQuit | test | print | sleep | increment | suspend
  | suspended (saved : Finset ℕ)
  | restore | restored | returned
  deriving DecidableEq

/-- Where `signal_suspend_handler` is. -/
inductive HandlerPc where
  | print | compare | leave
  deriving DecidableEq

/-- `iterations` counts the loop tests passed, and `quits` holds one entry for every SIGQUIT sent:
the iteration it was sent in, if any. -/
structure State where
  signals : Signals HandlerPc
  pc : Pc
  originmask : Finset ℕ
  sigquit : Bool
  loop : ℕ
  iterations : ℕ
  quits : List (Option ℕ)

/-- A step of `signal_suspend`, a step of the innermost handler, a signal sent and one delivered. -/
inductive Action where
  | main
  | handler
  | send (sig : ℕ)
  | deliver (sig : ℕ)

/-- Both handlers are installed. -/
def Pc.installed : Pc → Bool
  | .block | .actionInt | .actionQuit => false
  | _ => true

/-- Between a loop test that passed and the return of its `sigsuspend`. -/
def Pc.inIteration : Pc → Bool
  | .print | .sleep | .increment | .suspend | .suspended _ => true
  | _ => false

/-- Inside `sigsuspend`, or after the final restore of the mask. -/
def Pc.handlerMayRun : Pc → Bool
  | .suspended _ | .restored | .returned => true
  | _ => false

/-- The loop has ended. -/
def Pc.ended : Pc → Bool
  | .restore | .restored | .returned => true
  | _ => false

/-- `signal_suspend` itself, which goes on only while no handler runs. -/
def mainStep (s : State) : Option State :=
  if s.signals.frames.isEmpty then
    match s.pc with
    | .block => some { s with
        signals := s.signals.block blockmask, originmask := s.signals.mask, pc := .actionInt }
    | .actionInt => some { s with pc := .actionQuit }
    | .actionQuit => some { s with pc := .test }
    | .test =>
      if s.sigquit then some { s with pc := .restore }
      else some { s with pc := .print, iterations := s.iterations + 1 }
    | .print => some { s with pc := .sleep }
    | .sleep => some { s with pc := .increment }
    | .increment => some { s with loop := s.loop + 1, pc := .suspend }
    | .suspend => some { s with
        signals := s.signals.setMask s.originmask, pc := .suspended s.signals.mask }
    | .restore => some { s with signals := s.signals.setMask s.originmask, pc := .restored }
    | .restored => some { s with pc := .returned }
    | .suspended _ | .returned => none
  else none

/-- The mask the outermost handler returns to. -/
def State.resume (s : State) : Finset ℕ :=
  match s.pc with
  | .suspended saved => saved
  | _ => s.signals.mask

/-- The return of the outermost handler ends `sigsuspend`, when nothing is left to deliver. -/
def leaveStep (s : State) : Option State :=
  match s.pc with
  | .suspended _ =>
    if s.signals.frames.length = 1 then
      if s.signals.pending ⊆ s.signals.mask then
        some { s with signals := s.signals.leave, pc := .test }
      else none
    else some { s with signals := s.signals.leave }
  | _ => some { s with signals := s.signals.leave }

/-- `signal_suspend_handler`, the innermost one. -/
def handlerStep (s : State) : Option State :=
  match s.signals.frames with
  | [] => none
  | f :: _ =>
    match f.pc with
    | .print => some { s with signals := s.signals.setPc .compare }
    | .compare => some { s with
        signals := s.signals.setPc .leave, sigquit := s.sigquit || f.sig = sigquitNumber }
    | .leave => leaveStep s

/-- A SIGINT or SIGQUIT from anywhere. -/
def sendStep (s : State) (sig : ℕ) : Option State :=
  if sig ∈ blockmask ∧ s.pc.installed then
    some { s with
      signals := s.signals.send sig
      quits := if sig = sigquitNumber then
        s.quits ++ [if s.pc.inIteration then some s.iterations else none] else s.quits }
  else none

/-- `entry` is the mask at entry; `originmask` is not initialised. -/
def system (entry : Finset ℕ) : System State Action where
  init s := s.signals = ⟨entry, ∅, []⟩ ∧ s.pc = .block ∧ s.sigquit = false ∧ s.loop = 0 ∧
    s.iterations = 0 ∧ s.quits = []
  step s
    | .main => mainStep s
    | .handler => handlerStep s
    | .send sig => sendStep s sig
    | .deliver sig => (s.signals.deliver .print s.resume sig).map fun signals => { s with signals }

/-! ### The mask -/

/-- The mask while no handler runs. -/
def Pc.outer (entry : Finset ℕ) : Pc → Finset ℕ
  | .block | .suspended _ | .restored | .returned => entry
  | _ => entry ∪ blockmask

/-- The mask the outermost handler restores. -/
def Pc.resume (entry : Finset ℕ) : Pc → Finset ℕ
  | .suspended _ => entry ∪ blockmask
  | pc => pc.outer entry

structure Masked (entry : Finset ℕ) (s : State) : Prop where
  nested : Signals.Nested (s.pc.outer entry) (s.pc.resume entry) s.signals.frames s.signals.mask
  quiet : s.pc.handlerMayRun = false → s.signals.frames = []
  origin : s.pc ≠ .block → s.originmask = entry
  saved : ∀ saved, s.pc = .suspended saved → saved = entry ∪ blockmask
  few : s.signals.pending ⊆ blockmask
  early : s.pc.installed = false → s.signals.pending = ∅

variable {entry : Finset ℕ} {s t : State}

theorem Masked.mask_eq (hm : Masked entry s) (hf : s.signals.frames = []) :
    s.signals.mask = s.pc.outer entry :=
  hm.nested.mask_eq hf

/-- The steps of `signal_suspend` that only move on, between two places with the same mask. -/
theorem Masked.move (hm : Masked entry s) {pc : Pc} {t : State} (ht : t.signals = s.signals)
    (horigin : t.originmask = s.originmask) (hpc : t.pc = pc) (hf : s.signals.frames = [])
    (houter : pc.outer entry = s.pc.outer entry) (hsaved : ∀ saved, pc ≠ .suspended saved)
    (hblock : s.pc ≠ .block) (hearly : pc.installed = false → s.pc.installed = false) :
    Masked entry t := by
  subst hpc
  refine ⟨?_, fun _ => ht ▸ hf, fun _ => horigin.trans (hm.origin hblock),
    fun saved hs => absurd hs (hsaved saved), ht ▸ hm.few, fun he => ht ▸ hm.early (hearly he)⟩
  rw [ht, hf, hm.mask_eq hf, ← houter]
  exact .quiet

theorem Masked.main_step (hm : Masked entry s) (h : mainStep s = some t) : Masked entry t := by
  obtain ⟨hf, h⟩ := Option.ite_none_right_eq_some.mp h
  have hf := List.isEmpty_iff.mp hf
  have hmask := hm.mask_eq hf
  cases hpc : s.pc with
  | block =>
    simp only [hpc, Option.some.injEq] at h
    subst h
    rw [hpc] at hmask
    refine ⟨?_, fun _ => hf, fun _ => hmask, nofun, hm.few, fun _ => hm.early (by rw [hpc]; rfl)⟩
    show Signals.Nested _ _ s.signals.frames (s.signals.mask ∪ blockmask)
    rw [hf, hmask]
    exact .quiet
  | actionInt =>
    simp only [hpc, Option.some.injEq] at h
    subst h
    exact hm.move rfl rfl rfl hf (by rw [hpc]; rfl) nofun (by rw [hpc]; nofun) fun _ => by rw [hpc]; rfl
  | actionQuit =>
    simp only [hpc, Option.some.injEq] at h
    subst h
    exact hm.move rfl rfl rfl hf (by rw [hpc]; rfl) nofun (by rw [hpc]; nofun) nofun
  | test =>
    simp only [hpc] at h
    split_ifs at h
    all_goals
      cases h
      exact hm.move rfl rfl rfl hf (by rw [hpc]; rfl) nofun (by rw [hpc]; nofun) nofun
  | print | sleep | increment | restored =>
    simp only [hpc, Option.some.injEq] at h
    subst h
    exact hm.move rfl rfl rfl hf (by rw [hpc]; rfl) nofun (by rw [hpc]; nofun) nofun
  | suspend =>
    simp only [hpc, Option.some.injEq] at h
    subst h
    rw [hpc] at hmask
    have horigin := hm.origin (by rw [hpc]; nofun)
    refine ⟨?_, fun _ => hf, fun _ => horigin, fun saved hs => ?_, hm.few, nofun⟩
    · show Signals.Nested _ _ s.signals.frames s.originmask
      rw [hf, horigin]
      exact .quiet
    · exact (Pc.suspended.inj hs).symm.trans hmask
  | restore =>
    simp only [hpc, Option.some.injEq] at h
    subst h
    have horigin := hm.origin (by rw [hpc]; nofun)
    refine ⟨?_, fun _ => hf, fun _ => horigin, nofun, hm.few, nofun⟩
    show Signals.Nested _ _ s.signals.frames s.originmask
    rw [hf, horigin]
    exact .quiet
  | suspended | returned => simp only [hpc] at h; cases h

/-- A handler runs only inside `sigsuspend` or after the loop. -/
theorem Masked.mayRun (hm : Masked entry s) {f : Frame HandlerPc} {frames : List (Frame HandlerPc)}
    (hf : s.signals.frames = f :: frames) : s.pc.handlerMayRun = true := by
  by_contra hr
  rw [hm.quiet (Bool.not_eq_true _ ▸ hr)] at hf
  cases hf

theorem Masked.setPc (hm : Masked entry s) (pc : HandlerPc) (sigquit : Bool) :
    Masked entry { s with signals := s.signals.setPc pc, sigquit } := by
  refine ⟨hm.nested.setPc pc, fun hr => ?_, hm.origin, hm.saved, hm.few, hm.early⟩
  show s.signals.frames.modifyHead _ = []
  rw [hm.quiet hr]
  rfl

/-- The last handler inside `sigsuspend` leaves the signals blocked. -/
theorem Masked.leave_suspended (hm : Masked entry s) {saved : Finset ℕ} {f : Frame HandlerPc}
    (hpc : s.pc = .suspended saved) (hf : s.signals.frames = [f]) :
    s.signals.mask = insert f.sig entry ∧
      Masked entry { s with signals := s.signals.leave, pc := .test } := by
  have hnested := hm.nested
  have horigin := hm.origin (by rw [hpc]; nofun)
  rw [hpc] at hnested
  obtain ⟨hmask, hleave⟩ := hnested.leave_outermost hf
  refine ⟨hmask, ?_⟩
  rw [hleave]
  exact ⟨.quiet, fun _ => rfl, fun _ => horigin, nofun, hm.few, nofun⟩

theorem Masked.leave (hm : Masked entry s) (hf : s.signals.frames ≠ [])
    (hr : s.signals.frames.length = 1 → ∀ saved, s.pc ≠ .suspended saved) :
    Masked entry { s with signals := s.signals.leave } := by
  obtain ⟨f, frames, hf⟩ := List.exists_cons_of_ne_nil hf
  have hpending : s.signals.leave.pending = s.signals.pending := by rw [Signals.leave, hf]
  have hresume : s.signals.frames.length = 1 → s.pc.resume entry = s.pc.outer entry := by
    intro hone
    cases hpc : s.pc with
    | suspended saved => exact absurd hpc (hr hone saved)
    | _ => rfl
  refine ⟨hm.nested.leave hresume, fun hq => ?_, hm.origin, hm.saved, ?_, fun he => ?_⟩
  · exact Bool.noConfusion ((hm.mayRun hf).symm.trans hq)
  · exact hpending ▸ hm.few
  · exact hpending ▸ hm.early he

/-- The return of a handler ends `sigsuspend` or leaves `signal_suspend` where it is. -/
theorem leaveStep_cases (h : leaveStep s = some t) :
    (∃ saved f, s.pc = .suspended saved ∧ s.signals.frames = [f] ∧
      s.signals.pending ⊆ s.signals.mask ∧
      t = { s with signals := s.signals.leave, pc := .test }) ∨
    (s.signals.frames.length = 1 → ∀ saved, s.pc ≠ .suspended saved) ∧
      t = { s with signals := s.signals.leave } := by
  unfold leaveStep at h
  split at h
  case h_1 saved hpc =>
    split_ifs at h with hone hall
    · obtain ⟨f, hf⟩ := List.length_eq_one_iff.mp hone
      exact .inl ⟨saved, f, hpc, hf, hall, (Option.some.inj h).symm⟩
    · exact .inr ⟨fun h => absurd h hone, (Option.some.inj h).symm⟩
  case h_2 hpc => exact .inr ⟨fun _ => hpc, (Option.some.inj h).symm⟩

theorem Masked.leave_step (hm : Masked entry s) (hf : s.signals.frames ≠ [])
    (h : leaveStep s = some t) : Masked entry t := by
  rcases leaveStep_cases h with ⟨saved, f, hpc, hone, -, rfl⟩ | ⟨hr, rfl⟩
  · exact (hm.leave_suspended hpc hone).2
  · exact hm.leave hf hr

theorem Masked.handler_step (hm : Masked entry s) (h : handlerStep s = some t) :
    Masked entry t := by
  unfold handlerStep at h
  cases hf : s.signals.frames with
  | nil => simp only [hf] at h; cases h
  | cons f frames =>
    cases hfpc : f.pc with
    | print =>
      simp only [hf, hfpc, Option.some.injEq] at h
      subst h
      exact hm.setPc .compare s.sigquit
    | compare =>
      simp only [hf, hfpc, Option.some.injEq] at h
      subst h
      exact hm.setPc .leave (s.sigquit || f.sig = sigquitNumber)
    | leave =>
      simp only [hf, hfpc] at h
      exact hm.leave_step (by rw [hf]; nofun) h

theorem Masked.send_step (hm : Masked entry s) {sig : ℕ} (h : sendStep s sig = some t) :
    Masked entry t := by
  obtain ⟨⟨hsig, hpc⟩, h⟩ := Option.ite_none_right_eq_some.mp h
  cases h
  refine ⟨hm.nested, hm.quiet, hm.origin, hm.saved, ?_, fun he => ?_⟩
  · exact Finset.insert_subset hsig hm.few
  · exact absurd (hpc.symm.trans he) nofun

/-- Nothing is delivered outside `sigsuspend` and before the end: both signals are blocked. -/
theorem Masked.deliver_step (hm : Masked entry s) {sig : ℕ} {signals : Signals HandlerPc}
    (h : s.signals.deliver .print s.resume sig = some signals) : Masked entry { s with signals } := by
  obtain ⟨hsig, hmask, hpending, -⟩ := Signals.deliver_spec h
  have hresume : s.signals.frames = [] → s.resume = s.pc.resume entry := by
    intro hf
    cases hpc : s.pc with
    | suspended saved => rw [State.resume, hpc, hm.saved saved hpc]; rfl
    | _ =>
      rw [State.resume, hpc, hm.mask_eq hf, hpc]
      rfl
  have hmay : s.pc.handlerMayRun = true := by
    by_contra hr
    have hr := Bool.not_eq_true _ ▸ hr
    rw [hm.mask_eq (hm.quiet hr)] at hmask
    have hblock := hm.few hsig
    cases hpc : s.pc with
    | block | actionInt | actionQuit =>
      rw [hm.early (by rw [hpc]; rfl)] at hsig
      exact absurd hsig (Finset.notMem_empty sig)
    | suspended | restored | returned => rw [hpc] at hr; cases hr
    | _ =>
      rw [hpc] at hmask
      exact hmask (Finset.mem_union_right entry hblock)
  refine ⟨hm.nested.deliver hresume h, fun hr => ?_, hm.origin, hm.saved, ?_, fun he => ?_⟩
  · exact absurd (hmay.symm.trans hr) nofun
  · show signals.pending ⊆ blockmask
    rw [hpending]
    exact (Finset.erase_subset _ _).trans hm.few
  · rw [hm.early he] at hsig
    exact absurd hsig (Finset.notMem_empty sig)

/-! ### The flag -/

/-- A SIGQUIT that was sent is pending, being handled, or in the flag; one sent in an iteration
is in the flag at the next test. -/
structure Counted (s : State) : Prop where
  set : ∀ f ∈ s.signals.frames, f.sig = sigquitNumber → f.pc = .leave → s.sigquit = true
  sent : s.quits ≠ [] ↔ s.sigquit = true ∨ sigquitNumber ∈ s.signals.pending ∨
    ∃ f ∈ s.signals.frames, f.sig = sigquitNumber
  test : s.pc = .test → (∃ n, some n ∈ s.quits) → s.sigquit = true
  last : ∀ n, some n ∈ s.quits → s.iterations = n
  ended : s.pc.ended = true → s.sigquit = true
  early : s.pc.installed = false → s.quits = []

/-- The steps of `signal_suspend` that keep the signals, the flag and the counts. -/
theorem Counted.move (hc : Counted s) {t : State} (hpending : t.signals.pending = s.signals.pending)
    (hframes : t.signals.frames = s.signals.frames) (hflag : t.sigquit = s.sigquit)
    (hquits : t.quits = s.quits) (hiter : t.iterations = s.iterations)
    (htest : t.pc = .test → s.quits = []) (hended : t.pc.ended = true → s.sigquit = true)
    (hearly : t.pc.installed = false → s.quits = []) : Counted t := by
  refine ⟨?_, ?_, fun hpc => ?_, ?_, fun he => hflag.trans (hended he),
    fun he => hquits.trans (hearly he)⟩
  · rw [hframes, hflag]
    exact hc.set
  · rw [hquits, hflag, hpending, hframes]
    exact hc.sent
  · rw [hquits, htest hpc]
    rintro ⟨n, hn⟩
    exact absurd hn List.not_mem_nil
  · rw [hquits, hiter]
    exact hc.last

theorem Counted.main_step (hc : Counted s) (h : mainStep s = some t) : Counted t := by
  obtain ⟨-, h⟩ := Option.ite_none_right_eq_some.mp h
  cases hpc : s.pc with
  | block | actionInt =>
    simp only [hpc, Option.some.injEq] at h
    subst h
    exact hc.move rfl rfl rfl rfl rfl nofun nofun fun _ => hc.early (by rw [hpc]; rfl)
  | actionQuit =>
    simp only [hpc, Option.some.injEq] at h
    subst h
    exact hc.move rfl rfl rfl rfl rfl (fun _ => hc.early (by rw [hpc]; rfl)) nofun nofun
  | test =>
    simp only [hpc] at h
    split_ifs at h with hflag
    · cases h
      exact hc.move rfl rfl rfl rfl rfl nofun (fun _ => hflag) nofun
    · cases h
      refine ⟨hc.set, hc.sent, nofun, fun n hn => ?_, nofun, nofun⟩
      exact absurd (hc.test hpc ⟨n, hn⟩) hflag
  | print | sleep | increment | suspend =>
    simp only [hpc, Option.some.injEq] at h
    subst h
    exact hc.move rfl rfl rfl rfl rfl nofun nofun nofun
  | restore | restored =>
    simp only [hpc, Option.some.injEq] at h
    subst h
    exact hc.move rfl rfl rfl rfl rfl nofun (fun _ => hc.ended (by rw [hpc]; rfl)) nofun
  | suspended | returned => simp only [hpc] at h; cases h

/-- The return of a handler: a SIGQUIT it has handled is in the flag. -/
theorem Counted.sent_leave (hc : Counted s) {f : Frame HandlerPc} {frames : List (Frame HandlerPc)}
    (hf : s.signals.frames = f :: frames) (hleave : f.pc = .leave) :
    s.quits ≠ [] ↔ s.sigquit = true ∨ sigquitNumber ∈ s.signals.pending ∨
      ∃ g ∈ frames, g.sig = sigquitNumber := by
  rw [hc.sent, hf]
  constructor
  · rintro (hflag | hpending | ⟨g, hg, hsig⟩)
    · exact .inl hflag
    · exact .inr (.inl hpending)
    · rcases List.mem_cons.mp hg with rfl | hg
      · exact .inl (hc.set g (hf ▸ List.mem_cons_self) hsig hleave)
      · exact .inr (.inr ⟨g, hg, hsig⟩)
  · rintro (hflag | hpending | ⟨g, hg, hsig⟩)
    · exact .inl hflag
    · exact .inr (.inl hpending)
    · exact .inr (.inr ⟨g, List.mem_cons_of_mem f hg, hsig⟩)

theorem Counted.leave_step (hc : Counted s) (hm : Masked entry s) (hquit : sigquitNumber ∉ entry)
    {f : Frame HandlerPc} {frames : List (Frame HandlerPc)} (hf : s.signals.frames = f :: frames)
    (hfpc : f.pc = .leave) (h : leaveStep s = some t) : Counted t := by
  have hsent := hc.sent_leave hf hfpc
  have hset : ∀ g ∈ frames, g.sig = sigquitNumber → g.pc = .leave → s.sigquit = true :=
    fun g hg => hc.set g (hf ▸ List.mem_cons_of_mem f hg)
  rcases leaveStep_cases h with ⟨saved, g, hpc, hone, hall, rfl⟩ | ⟨-, rfl⟩
  · obtain ⟨rfl, rfl⟩ : f = g ∧ frames = [] := List.cons.inj (hf.symm.trans hone)
    rw [Signals.leave_eq hf]
    refine ⟨hset, hsent, fun _ hex => ?_, hc.last, nofun, nofun⟩
    obtain ⟨n, hn⟩ := hex
    rcases hsent.mp (List.ne_nil_of_mem hn) with hflag | hpending | ⟨g, hg, -⟩
    · exact hflag
    · -- a SIGQUIT left pending is blocked, and only its own handler blocks it here
      have hmask := hall hpending
      rw [(hm.leave_suspended hpc hone).1, Finset.mem_insert] at hmask
      have hsig := hmask.resolve_right hquit
      exact hc.set f (hf ▸ List.mem_cons_self) hsig.symm hfpc
    · exact absurd hg List.not_mem_nil
  · rw [Signals.leave_eq hf]
    exact ⟨hset, hsent, hc.test, hc.last, hc.ended, hc.early⟩

theorem Counted.handler_step (hc : Counted s) (hm : Masked entry s) (hquit : sigquitNumber ∉ entry)
    (h : handlerStep s = some t) : Counted t := by
  unfold handlerStep at h
  cases hf : s.signals.frames with
  | nil => simp only [hf] at h; cases h
  | cons f frames =>
    have hset : ∀ g ∈ frames, g.sig = sigquitNumber → g.pc = .leave → s.sigquit = true :=
      fun g hg => hc.set g (hf ▸ List.mem_cons_of_mem f hg)
    have hsent := hc.sent
    rw [hf, List.exists_mem_cons_iff] at hsent
    cases hfpc : f.pc with
    | print =>
      simp only [hf, hfpc, Option.some.injEq] at h
      subst h
      rw [Signals.setPc_eq hf]
      refine ⟨List.forall_mem_cons.mpr ⟨nofun, hset⟩, ?_, hc.test, hc.last, hc.ended, hc.early⟩
      rw [List.exists_mem_cons_iff]
      exact hsent
    | compare =>
      simp only [hf, hfpc, Option.some.injEq] at h
      subst h
      rw [Signals.setPc_eq hf]
      refine ⟨List.forall_mem_cons.mpr ⟨fun hsig _ => ?_, fun g hg hsig hpc => ?_⟩, ?_,
        fun hpc hex => ?_, hc.last, fun he => ?_, hc.early⟩
      · exact Bool.or_eq_true_iff.mpr (.inr (decide_eq_true hsig))
      · exact Bool.or_eq_true_iff.mpr (.inl (hset g hg hsig hpc))
      · rw [List.exists_mem_cons_iff]
        show s.quits ≠ [] ↔ (s.sigquit || decide (f.sig = sigquitNumber)) = true ∨ _
        rw [hsent, Bool.or_eq_true, decide_eq_true_eq]
        constructor
        · rintro (hflag | hpending | hex)
          · exact .inl (.inl hflag)
          · exact .inr (.inl hpending)
          · exact .inr (.inr hex)
        · rintro ((hflag | hsig) | hpending | hex)
          · exact .inl hflag
          · exact .inr (.inr (.inl hsig))
          · exact .inr (.inl hpending)
          · exact .inr (.inr hex)
      · exact Bool.or_eq_true_iff.mpr (.inl (hc.test hpc hex))
      · exact Bool.or_eq_true_iff.mpr (.inl (hc.ended he))
    | leave =>
      simp only [hf, hfpc] at h
      exact hc.leave_step hm hquit hf hfpc h

theorem Counted.send_step (hc : Counted s) {sig : ℕ} (h : sendStep s sig = some t) :
    Counted t := by
  obtain ⟨⟨-, hinstalled⟩, h⟩ := Option.ite_none_right_eq_some.mp h
  cases h
  by_cases hsig : sig = sigquitNumber
  · rw [if_pos hsig]
    refine ⟨hc.set, ?_, fun hpc hex => ?_, fun n hn => ?_, hc.ended, fun he => ?_⟩
    · refine iff_of_true (List.append_ne_nil_of_right_ne_nil _ (List.cons_ne_nil _ _)) (.inr (.inl ?_))
      exact hsig ▸ Finset.mem_insert_self sig _
    · -- at the test the new SIGQUIT belongs to no iteration
      obtain ⟨n, hn⟩ := hex
      have hin : ¬s.pc.inIteration = true := by
        rw [show s.pc = .test from hpc]
        nofun
      rcases List.mem_append.mp hn with hn | hn
      · exact hc.test hpc ⟨n, hn⟩
      · rw [if_neg hin] at hn
        cases List.mem_singleton.mp hn
    · rcases List.mem_append.mp hn with hn | hn
      · exact hc.last n hn
      · have hn := List.mem_singleton.mp hn
        split_ifs at hn
        exact (Option.some.inj hn).symm
    · exact absurd (hinstalled.symm.trans he) nofun
  · rw [if_neg hsig]
    refine ⟨hc.set, ?_, hc.test, hc.last, hc.ended, hc.early⟩
    show s.quits ≠ [] ↔ _ ∨ sigquitNumber ∈ insert sig s.signals.pending ∨ _
    rw [hc.sent, Finset.mem_insert, or_iff_right (Ne.symm hsig)]
    exact Iff.rfl

theorem Counted.deliver_step (hc : Counted s) {sig : ℕ} {signals : Signals HandlerPc}
    (h : s.signals.deliver .print s.resume sig = some signals) : Counted { s with signals } := by
  obtain ⟨hsig, -, hpending, saved, hframes⟩ := Signals.deliver_spec h
  refine ⟨?_, ?_, hc.test, hc.last, hc.ended, hc.early⟩
  · show ∀ f ∈ signals.frames, _
    rw [hframes]
    exact List.forall_mem_cons.mpr ⟨nofun, hc.set⟩
  · show s.quits ≠ [] ↔ s.sigquit = true ∨ sigquitNumber ∈ signals.pending ∨
      ∃ f ∈ signals.frames, f.sig = sigquitNumber
    rw [hc.sent, hpending, hframes, List.exists_mem_cons_iff, Finset.mem_erase]
    by_cases heq : sig = sigquitNumber
    · exact iff_of_true (.inr (.inl (heq ▸ hsig))) (.inr (.inr (.inl heq)))
    · rw [and_iff_right (Ne.symm heq), or_iff_right heq]

/-! ### All runs -/

theorem inv_step (hquit : sigquitNumber ∉ entry) {a : Action} (hm : Masked entry s) (hc : Counted s)
    (h : (system entry).step s a = some t) : Masked entry t ∧ Counted t := by
  cases a with
  | main => exact ⟨hm.main_step h, hc.main_step h⟩
  | handler => exact ⟨hm.handler_step h, hc.handler_step hm hquit h⟩
  | send sig => exact ⟨hm.send_step h, hc.send_step h⟩
  | deliver sig =>
    obtain ⟨signals, hs, rfl⟩ := Option.map_eq_some_iff.mp h
    exact ⟨hm.deliver_step hs, hc.deliver_step hs⟩

theorem inv_init (h : (system entry).init s) : Masked entry s ∧ Counted s := by
  obtain ⟨signals, pc, originmask, sigquit, loop, iterations, quits⟩ := s
  obtain ⟨rfl, rfl, rfl, -, -, rfl⟩ := h
  refine ⟨⟨.quiet, fun _ => rfl, fun h => absurd rfl h, nofun, Finset.empty_subset _, fun _ => rfl⟩,
    nofun, ?_, nofun, nofun, nofun, fun _ => rfl⟩
  refine iff_of_false (fun h => h rfl) ?_
  rintro (h | h | ⟨f, hf, -⟩)
  · cases h
  · exact Finset.notMem_empty _ h
  · exact List.not_mem_nil hf

theorem inv_reachable (hquit : sigquitNumber ∉ entry) (h : (system entry).Reachable s) :
    Masked entry s ∧ Counted s := by
  refine h.invariant (I := fun s => Masked entry s ∧ Counted s) ?_ ?_
  · intro s hs
    exact inv_init hs
  · rintro s a t ⟨hm, hc⟩ ht
    exact inv_step hquit hm hc ht

/-- With SIGQUIT unblocked at entry: the handler runs only inside `sigsuspend` or after the
final restore; an iteration in which a SIGQUIT is sent is the last, and the loop ends at the next
test; it ends for nothing else; and the mask at the return is the one at entry. -/
theorem suspend_loop (hquit : sigquitNumber ∉ entry) (h : (system entry).Reachable s) :
    (s.signals.frames ≠ [] → s.pc.handlerMayRun = true) ∧
    (∀ n, some n ∈ s.quits → s.iterations = n ∧ (s.pc = .test → s.sigquit = true)) ∧
    (s.pc.ended = true → s.quits ≠ []) ∧
    (s.pc = .returned → s.signals.frames = [] → s.signals.mask = entry) := by
  obtain ⟨hm, hc⟩ := inv_reachable hquit h
  refine ⟨fun hf => ?_, fun n hn => ⟨hc.last n hn, fun hpc => hc.test hpc ⟨n, hn⟩⟩, fun he => ?_,
    fun hpc hf => ?_⟩
  · obtain ⟨f, frames, hf⟩ := List.exists_cons_of_ne_nil hf
    exact hm.mayRun hf
  · exact hc.sent.mpr (.inl (hc.ended he))
  · rw [hm.mask_eq hf, hpc]
    rfl

/-- A SIGINT ends the first `sigsuspend`, and a SIGQUIT in the second iteration ends the loop. -/
theorem suspend_loop_two : ∃ s, (system {15}).Reachable s ∧ s.pc = .returned ∧
    s.quits = [some 2] ∧ s.iterations = 2 ∧ s.signals.mask = {15} := by
  have hrun : (system {15}).Reachable _ :=
    System.reachable_of_isSome (S := system {15})
      (s := ⟨⟨{15}, ∅, []⟩, .block, ∅, false, 0, 0, []⟩) ⟨rfl, rfl, rfl, rfl, rfl, rfl⟩
      ([.replicate 5 .main, [.send 2], .replicate 3 .main, [.deliver 2], .replicate 3 .handler,
        .replicate 2 .main, [.send 3], .replicate 3 .main, [.deliver 3], .replicate 3 .handler,
        .replicate 3 .main].flatten) (by decide)
  obtain ⟨-, hlast, -, hmask⟩ := suspend_loop (by decide) hrun
  exact ⟨_, hrun, rfl, rfl, (hlast 2 (by decide)).1, hmask rfl rfl⟩

end LinuxApi.SignalSuspend
