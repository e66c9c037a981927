import LinuxApi.Kernel.Signals
import LinuxApi.Transition.System

/-! `signal_basic` in `signal_basic.c`: one handler for SIGINT and SIGQUIT, whose calls may interrupt each
other. Both signals are sent at any time, and delivered at any later moment at which they are not blocked. -/

namespace LinuxApi.SignalBasic

/-- `SIGINT` -/
def sigint : ℕ := 2

/-- `SIGQUIT` -/
def sigquit : ℕ := 3

/-- `SIG_DFL`, `SIG_IGN`, or `signal_handler`. -/
inductive Disposition where
  | dfl | ign | handler
  deriving DecidableEq

/-- Where `signal_basic` is. -/
inductive Pc where
  | signalInt | signalQuit | block | sleep | restore | pause
  deriving DecidableEq

/-- Where `signal_handler` is. -/
inductive HandlerPc where
  | describe | count
  | caught (cnt : ℕ)
  | dfl | ign | quit | quitDfl | raise | leave
  deriving DecidableEq

/-- A call of `printf`, by the line it is to print. -/
inductive Line where
  | strsignal (sig : ℕ)
  | caughtInt (cnt : ℕ)
  | caughtQuit
  deriving DecidableEq

def Line.text : Line → String
  | .strsignal sig => (if sig = sigint then "Interrupt" else "Quit") ++ "\n"
  | .caughtInt cnt => "caught signal is SIGINT: " ++ toString cnt ++ "\n"
  | .caughtQuit => "caught signal is SIGQUIT\n"

/-- `onInt` and `onQuit` are what a signal does, `printfs` has the calls of `printf` as they begin, `sent` counts the
SIGINTs, and `killed` is the signal that has ended the process. How much of a line is written when a handler
interrupts its `printf` is left open. -/
structure State where
  signals : Signals HandlerPc
  onInt : Disposition
  onQuit : Disposition
  pc : Pc
  prevmask : Finset ℕ
  cnt : ℕ
  printfs : List Line
  sent : ℕ
  killed : Option ℕ

/-- A step of `signal_basic`, a step of the innermost handler, a signal sent and one delivered. -/
inductive Action where
  | main
  | handler
  | send (sig : ℕ)
  | deliver (sig : ℕ)

def State.disposition (s : State) (sig : ℕ) : Disposition := if sig = sigint then s.onInt else s.onQuit

/-- `signal_basic` itself, which goes on only while no handler runs. -/
def mainStep (s : State) : Option State :=
  if s.signals.frames.isEmpty then
    match s.pc with
    | .signalInt => some { s with onInt := .handler, pc := .signalQuit }
    | .signalQuit => some { s with onQuit := .handler, pc := .block }
    | .block => some { s with signals := s.signals.block {sigint}, prevmask := s.signals.mask, pc := .sleep }
    | .sleep => some { s with pc := .restore }
    | .restore => some { s with signals := s.signals.setMask s.prevmask, pc := .pause }
    | .pause => none
  else none

/-- `signal_handler`, the innermost one. -/
def handlerStep (s : State) : Option State :=
  match s.signals.frames with
  | [] => none
  | f :: _ =>
    match f.pc with
    | .describe => some { s with
        signals := s.signals.setPc (if f.sig = sigint then .count else if f.sig = sigquit then .quit else .leave),
        printfs := s.printfs ++ [.strsignal f.sig] }
    | .count => some { s with signals := s.signals.setPc (.caught (s.cnt + 1)), cnt := s.cnt + 1 }
    | .caught cnt => some { s with signals := s.signals.setPc .dfl, printfs := s.printfs ++ [.caughtInt cnt] }
    | .dfl => some { s with
        signals := s.signals.setPc .ign, onInt := if s.cnt = 3 then .dfl else s.onInt }
    | .ign =>
      if s.cnt = 3 then
        some { s with signals := (s.signals.setPc .leave).drop sigint, onInt := .ign }
      else some { s with signals := s.signals.setPc .leave }
    | .quit => some { s with signals := s.signals.setPc .quitDfl, printfs := s.printfs ++ [.caughtQuit] }
    | .quitDfl => some { s with signals := s.signals.setPc .raise, onQuit := .dfl }
    | .raise => some { s with signals := (s.signals.setPc .leave).send sigquit }
    | .leave => some { s with signals := s.signals.leave }

/-- A SIGINT or SIGQUIT from anywhere. A signal that is ignored waits only while it is blocked. -/
def sendStep (s : State) (sig : ℕ) : Option State :=
  if sig = sigint ∨ sig = sigquit then
    some { s with
      signals := if s.disposition sig = .ign ∧ sig ∉ s.signals.mask then s.signals else s.signals.send sig
      sent := if sig = sigint then s.sent + 1 else s.sent }
  else none

def deliverStep (s : State) (sig : ℕ) : Option State :=
  if sig ∈ s.signals.pending ∧ sig ∉ s.signals.mask then
    match s.disposition sig with
    | .dfl => some { s with killed := some sig }
    | .ign => some { s with signals := s.signals.drop sig }
    | .handler => (s.signals.deliver .describe s.signals.mask sig).map fun signals => { s with signals }
  else none

/-- A process that inherits the mask `entry` and ignores the signals in `ignored` from its start. -/
def system (entry ignored : Finset ℕ) : System State Action where
  init s := s = ⟨⟨entry, ∅, []⟩, if sigint ∈ ignored then .ign else .dfl, if sigquit ∈ ignored then .ign else .dfl,
    .signalInt, ∅, 0, [], 0, none⟩
  step s a :=
    if s.killed.isSome then none
    else match a with
      | .main => mainStep s
      | .handler => handlerStep s
      | .send sig => sendStep s sig
      | .deliver sig => deliverStep s sig

/-! ### The mask -/

/-- The mask while no handler runs. -/
def Pc.outer (entry : Finset ℕ) : Pc → Finset ℕ
  | .sleep | .restore => entry ∪ {sigint}
  | _ => entry

structure Masked (entry : Finset ℕ) (s : State) : Prop where
  nested : Signals.Nested (s.pc.outer entry) (s.pc.outer entry) s.signals.frames s.signals.mask
  single : s.signals.Single
  prevmask : s.pc = .sleep ∨ s.pc = .restore → s.prevmask = entry
  few : ∀ f ∈ s.signals.frames, f.sig = sigint ∨ f.sig = sigquit

variable {entry ignored : Finset ℕ} {s t : State} {sig : ℕ}

theorem Masked.setPc (hm : Masked entry s) (pc : HandlerPc) (hframes : t.signals.frames = (s.signals.setPc pc).frames)
    (hmask : t.signals.mask = (s.signals.setPc pc).mask) (hpc : t.pc = s.pc) (hprev : t.prevmask = s.prevmask) :
    Masked entry t := by
  refine ⟨?_, ?_, ?_, ?_⟩
  · rw [hpc, hframes, hmask]
    exact hm.nested.setPc pc
  · have hsingle := hm.single.setPc pc
    unfold Signals.Single at hsingle ⊢
    rw [hframes]
    exact hsingle
  · rw [hpc, hprev]
    exact hm.prevmask
  · rw [hframes]
    intro g hg
    cases hf : s.signals.frames with
    | nil =>
      rw [Signals.setPc, hf] at hg
      exact absurd hg List.not_mem_nil
    | cons f frames =>
      rw [Signals.setPc_eq hf] at hg
      have hfew := hm.few
      rw [hf] at hfew
      rcases List.mem_cons.mp hg with rfl | hg
      · exact hfew f List.mem_cons_self
      · exact hfew g (List.mem_cons_of_mem f hg)

theorem Masked.leave (hm : Masked entry s) : Masked entry { s with signals := s.signals.leave } := by
  refine ⟨hm.nested.leave fun _ => rfl, hm.single.leave, hm.prevmask, fun g hg => ?_⟩
  apply hm.few
  cases hf : s.signals.frames with
  | nil =>
    dsimp only at hg
    rw [Signals.leave, hf] at hg
    simp only [hf] at hg
    exact hg
  | cons f frames =>
    dsimp only at hg
    rw [Signals.leave_eq hf] at hg
    exact List.mem_cons_of_mem f hg

theorem Masked.deliver (hm : Masked entry s) (hsig : sig = sigint ∨ sig = sigquit) {signals : Signals HandlerPc}
    (h : s.signals.deliver .describe s.signals.mask sig = some signals) : Masked entry { s with signals } := by
  obtain ⟨-, -, -, saved, hframes⟩ := Signals.deliver_spec h
  refine ⟨hm.nested.deliver (fun hf => hm.nested.mask_eq hf) h, hm.single.deliver hm.nested h, hm.prevmask, ?_⟩
  dsimp only
  rw [hframes]
  intro g hg
  rcases List.mem_cons.mp hg with rfl | hg
  · exact hsig
  · exact hm.few g hg

/-- While no handler runs the mask is that of `signal_basic`. -/
theorem masked_of_quiet (hframes : t.signals.frames = []) (hmask : t.signals.mask = t.pc.outer entry)
    (hprev : t.pc = .sleep ∨ t.pc = .restore → t.prevmask = entry) :
    Masked entry t := by
  refine ⟨?_, ?_, hprev, ?_⟩
  · rw [hframes, hmask]
    exact .quiet
  · unfold Signals.Single
    rw [hframes]
    exact List.nodup_nil
  · rw [hframes]
    exact fun f hf => absurd hf List.not_mem_nil

/-! ### SIGINT -/

/-- The handler of SIGINT is installed. -/
def Pc.installedInt (pc : Pc) : Bool := pc ≠ .signalInt

/-- The numbers in the lines about SIGINT. -/
def numbers (printfs : List Line) : List ℕ :=
  printfs.filterMap fun
    | .caughtInt cnt => some cnt
    | _ => none

/-- What SIGINT does and how many lines there are about it, by where its handler is. -/
def Counting (installed : Bool) (d : Disposition) (cnt lines : ℕ) : Option HandlerPc → Prop
  | none | some .leave =>
    if installed then lines = cnt ∧ (d = .handler ∧ cnt ≤ 2 ∨ d = .ign ∧ cnt = 3)
    else lines = 0 ∧ cnt = 0 ∧ d ≠ .handler
  | some .describe | some .count => installed = true ∧ lines = cnt ∧ d = .handler ∧ cnt ≤ 2
  | some (.caught n) => installed = true ∧ lines + 1 = cnt ∧ n = cnt ∧ d = .handler ∧ cnt ≤ 3
  | some .dfl => installed = true ∧ lines = cnt ∧ d = .handler ∧ cnt ≤ 3
  | some .ign => installed = true ∧ lines = cnt ∧ (d = .handler ∧ cnt ≤ 2 ∨ d = .dfl ∧ cnt = 3)
  | some .quit | some .quitDfl | some .raise => False

theorem Counting.le {installed : Bool} {d : Disposition} {cnt lines : ℕ} {pc : Option HandlerPc}
    (h : Counting installed d cnt lines pc) : lines ≤ 3 := by
  unfold Counting at h
  split at h
  · split_ifs at h
    · obtain ⟨hlines, ⟨-, hle⟩ | ⟨-, hle⟩⟩ := h <;> omega
    · omega
  · split_ifs at h
    · obtain ⟨hlines, ⟨-, hle⟩ | ⟨-, hle⟩⟩ := h <;> omega
    · omega
  · omega
  · omega
  · omega
  · omega
  · obtain ⟨-, hlines, ⟨-, hle⟩ | ⟨-, hle⟩⟩ := h <;> omega
  all_goals exact absurd h id

/-- A SIGINT whose line is still to come. -/
def owed : Option HandlerPc → ℕ
  | some .describe | some .count | some (.caught _) => 1
  | _ => 0

structure IntInv (s : State) : Prop where
  inOrder : numbers s.printfs = List.range' 1 (numbers s.printfs).length
  counting : Counting s.pc.installedInt s.onInt s.cnt (numbers s.printfs).length
    (s.signals.handling sigint)
  sent : (numbers s.printfs).length + owed (s.signals.handling sigint) +
    (if sigint ∈ s.signals.pending then 1 else 0) ≤ s.sent

theorem numbers_concat (printfs : List Line) (line : Line) :
    numbers (printfs ++ [line]) = numbers printfs ++ numbers [line] :=
  List.filterMap_append

/-- A step without a line about SIGINT. -/
theorem IntInv.quiet (hi : IntInv s) (hnumbers : numbers t.printfs = numbers s.printfs)
    (hcounting : Counting t.pc.installedInt t.onInt t.cnt (numbers s.printfs).length (t.signals.handling sigint))
    (howed : owed (t.signals.handling sigint) ≤ owed (s.signals.handling sigint))
    (hpending : sigint ∈ t.signals.pending → sigint ∈ s.signals.pending) (hsent : s.sent ≤ t.sent) :
    IntInv t := by
  refine ⟨?_, ?_, ?_⟩
  · rw [hnumbers]
    exact hi.inOrder
  · rw [hnumbers]
    exact hcounting
  · have h := hi.sent
    rw [hnumbers]
    split_ifs with hp
    · rw [if_pos (hpending hp)] at h
      omega
    · omega

/-- A step that is about SIGQUIT only. -/
theorem IntInv.other (hi : IntInv s) (hnumbers : numbers t.printfs = numbers s.printfs)
    (hinstalled : t.pc.installedInt = s.pc.installedInt) (hon : t.onInt = s.onInt) (hcnt : t.cnt = s.cnt)
    (hhandling : t.signals.handling sigint = s.signals.handling sigint)
    (hpending : sigint ∈ t.signals.pending → sigint ∈ s.signals.pending) (hsent : s.sent ≤ t.sent) :
    IntInv t := by
  apply hi.quiet hnumbers _ _ hpending hsent
  · rw [hinstalled, hon, hcnt, hhandling]
    exact hi.counting
  · rw [hhandling]

/-- The line about SIGINT. -/
theorem IntInv.caught (hi : IntInv s) {n : ℕ} (hpc : s.signals.handling sigint = some (.caught n))
    (hprintfs : t.printfs = s.printfs ++ [.caughtInt n]) (hon : t.onInt = s.onInt) (hcnt : t.cnt = s.cnt)
    (hhandling : t.signals.handling sigint = some .dfl) (hinstalled : t.pc = s.pc)
    (hpending : t.signals.pending = s.signals.pending) (hsent : t.sent = s.sent) : IntInv t := by
  have hcounting := hi.counting
  have h := hi.sent
  have hn := hi.inOrder
  rw [hpc] at hcounting h
  obtain ⟨hins, hlines, hcn, hd, hle⟩ := hcounting
  have howed : owed (some (.caught n)) = 1 := rfl
  have hlength : (numbers t.printfs).length = (numbers s.printfs).length + 1 := by
    rw [hprintfs, numbers_concat, List.length_append]
    rfl
  refine ⟨?_, ?_, ?_⟩
  · have hlast : numbers [.caughtInt n] = [1 + (numbers s.printfs).length] := by
      show [n] = _
      rw [hcn, ← hlines, Nat.add_comm]
    rw [hlength, List.range'_1_concat, hprintfs, numbers_concat, ← hn, hlast]
  · rw [hlength, hinstalled, hon, hcnt, hhandling]
    exact ⟨hins, hlines, hd, hle⟩
  · rw [hlength, hhandling, hpending, hsent]
    show _ + 0 + _ ≤ _
    omega

/-! ### SIGQUIT -/

/-- The handler of SIGQUIT is installed. -/
def Pc.installedQuit : Pc → Bool
  | .signalInt | .signalQuit => false
  | _ => true

/-- What SIGQUIT does and how often it is caught, by where its handler is. -/
def Quitting (installed : Bool) (d : Disposition) (lines : ℕ) : Option HandlerPc → Prop
  | none =>
    if installed then d = .handler ∧ lines = 0 ∨ d = .dfl ∧ lines = 1
    else d ≠ .handler ∧ lines = 0
  | some .describe | some .quit => installed = true ∧ d = .handler ∧ lines = 0
  | some .quitDfl => installed = true ∧ d = .handler ∧ lines = 1
  | some .raise | some .leave => installed = true ∧ d = .dfl ∧ lines = 1
  | _ => False

/-- The handler of SIGQUIT has raised it again. -/
def raised : Option HandlerPc → Bool
  | none | some .leave => true
  | _ => false

structure QuitInv (entry : Finset ℕ) (s : State) : Prop where
  quitting : Quitting s.pc.installedQuit s.onQuit (s.printfs.count .caughtQuit) (s.signals.handling sigquit)
  waits : s.printfs.count .caughtQuit = 1 → raised (s.signals.handling sigquit) = true →
    sigquit ∈ s.signals.pending
  unblocked : s.signals.handling sigquit ≠ none ∨ s.printfs.count .caughtQuit = 1 → sigquit ∉ entry

/-- A step that is about SIGINT only. -/
theorem QuitInv.other (hq : QuitInv entry s) (hcount : t.printfs.count .caughtQuit = s.printfs.count .caughtQuit)
    (hinstalled : t.pc.installedQuit = s.pc.installedQuit) (hon : t.onQuit = s.onQuit)
    (hhandling : t.signals.handling sigquit = s.signals.handling sigquit)
    (hpending : sigquit ∈ s.signals.pending → sigquit ∈ t.signals.pending) : QuitInv entry t := by
  refine ⟨?_, ?_, ?_⟩
  · rw [hinstalled, hon, hcount, hhandling]
    exact hq.quitting
  · rw [hcount, hhandling]
    exact fun hone hr => hpending (hq.waits hone hr)
  · rw [hhandling, hcount]
    exact hq.unblocked

/-- The handler of SIGQUIT goes on. -/
theorem QuitInv.move (hq : QuitInv entry s) (hs : s.signals.handling sigquit ≠ none)
    (hquitting : Quitting t.pc.installedQuit t.onQuit (t.printfs.count .caughtQuit) (t.signals.handling sigquit))
    (hwaits : t.printfs.count .caughtQuit = 1 → raised (t.signals.handling sigquit) = true →
      sigquit ∈ t.signals.pending) : QuitInv entry t :=
  ⟨hquitting, hwaits, fun _ => hq.unblocked (.inl hs)⟩

/-! ### Every step -/

structure Inv (entry : Finset ℕ) (s : State) : Prop where
  masked : Masked entry s
  int : IntInv s
  quit : QuitInv entry s
  killed : ∀ sig, s.killed = some sig → sig = sigint ∧ s.pc.installedInt = false ∨
    sig = sigquit ∧ (s.pc.installedQuit = false ∨ s.printfs.count .caughtQuit = 1)

theorem Inv.main_step (hi : Inv entry s) (hk : s.killed = none) (h : mainStep s = some t) : Inv entry t := by
  obtain ⟨hf, h⟩ := Option.ite_none_right_eq_some.mp h
  have hf := List.isEmpty_iff.mp hf
  have hmask := hi.masked.nested.mask_eq hf
  have hint := Signals.handling_eq_none hf sigint
  have hquit := Signals.handling_eq_none hf sigquit
  have hcounting := hi.int.counting
  have hquitting := hi.quit.quitting
  rw [hint] at hcounting
  rw [hquit] at hquitting
  cases hpc : s.pc with
  | signalInt =>
    simp only [hpc, Option.some.injEq] at h
    subst h
    rw [hpc] at hcounting hmask
    have hzero : (numbers s.printfs).length = 0 ∧ s.cnt = 0 ∧ s.onInt ≠ .handler := hcounting
    refine ⟨masked_of_quiet hf hmask (by simp), ?_, ?_, fun sig hs => by simp [hk] at hs⟩
    · refine hi.int.quiet rfl ?_ le_rfl (fun hp => hp) le_rfl
      dsimp only
      rw [hint]
      exact ⟨by omega, .inl ⟨rfl, by omega⟩⟩
    · exact hi.quit.other rfl (by rw [hpc]; rfl) rfl rfl fun hp => hp
  | signalQuit =>
    simp only [hpc, Option.some.injEq] at h
    subst h
    rw [hpc] at hquitting hmask
    have hzero : s.onQuit ≠ .handler ∧ s.printfs.count .caughtQuit = 0 := hquitting
    refine ⟨masked_of_quiet hf hmask (by simp), ?_, ?_, fun sig hs => by simp [hk] at hs⟩
    · exact hi.int.other rfl (by rw [hpc]; rfl) rfl rfl rfl (fun hp => hp) le_rfl
    · refine ⟨?_, fun hone => ?_, fun hone => ?_⟩
      · dsimp only
        rw [hquit]
        exact .inl ⟨rfl, hzero.2⟩
      · dsimp only at hone
        omega
      · dsimp only at hone
        rw [hquit] at hone
        rcases hone with hne | hone
        · exact absurd rfl hne
        · omega
  | block =>
    simp only [hpc, Option.some.injEq] at h
    subst h
    rw [hpc] at hmask
    refine ⟨masked_of_quiet hf ?_ fun _ => hmask, ?_, ?_, fun sig hs => by simp [hk] at hs⟩
    · show s.signals.mask ∪ {sigint} = entry ∪ {sigint}
      rw [hmask]
      rfl
    · exact hi.int.other rfl (by rw [hpc]; rfl) rfl rfl rfl (fun hp => hp) le_rfl
    · exact hi.quit.other rfl (by rw [hpc]; rfl) rfl rfl fun hp => hp
  | sleep =>
    simp only [hpc, Option.some.injEq] at h
    subst h
    rw [hpc] at hmask
    refine ⟨masked_of_quiet hf hmask fun _ => hi.masked.prevmask (.inl hpc), ?_, ?_,
      fun sig hs => by simp [hk] at hs⟩
    · exact hi.int.other rfl (by rw [hpc]; rfl) rfl rfl rfl (fun hp => hp) le_rfl
    · exact hi.quit.other rfl (by rw [hpc]; rfl) rfl rfl fun hp => hp
  | restore =>
    simp only [hpc, Option.some.injEq] at h
    subst h
    refine ⟨masked_of_quiet hf (hi.masked.prevmask (.inr hpc)) (by simp), ?_, ?_, fun sig hs => by simp [hk] at hs⟩
    · exact hi.int.other rfl (by rw [hpc]; rfl) rfl rfl rfl (fun hp => hp) le_rfl
    · exact hi.quit.other rfl (by rw [hpc]; rfl) rfl rfl fun hp => hp
  | pause => simp only [hpc] at h; cases h

theorem sigint_ne : sigint ≠ sigquit := by decide

/-- A step of the handler of SIGINT. -/
theorem Inv.int_step (hi : Inv entry s) (hk : s.killed = none) {f : Frame HandlerPc} {frames : List (Frame HandlerPc)}
    (hf : s.signals.frames = f :: frames) (hsig : f.sig = sigint) (h : handlerStep s = some t) : Inv entry t := by
  have hat : s.signals.handling sigint = some f.pc := by
    rw [← hsig]
    exact Signals.handling_head hf
  have hself : ∀ pc, (s.signals.setPc pc).handling sigint = some pc := by
    intro pc
    rw [Signals.handling_setPc hf, if_pos hsig]
  have hother : ∀ pc, (s.signals.setPc pc).handling sigquit = s.signals.handling sigquit := by
    intro pc
    rw [Signals.handling_setPc hf, hsig, if_neg sigint_ne]
  have hcounting := hi.int.counting
  rw [hat] at hcounting
  unfold handlerStep at h
  cases hpc : f.pc with
  | describe =>
    simp only [hf, hpc, hsig, if_true, Option.some.injEq] at h
    subst h
    rw [hpc] at hcounting hat
    refine ⟨hi.masked.setPc _ rfl rfl rfl rfl, ?_, ?_, fun sig hs => by simp [hk] at hs⟩
    · refine hi.int.quiet ?_ ?_ ?_ (fun hp => hp) le_rfl
      · rw [numbers_concat]
        exact List.append_nil _
      · dsimp only
        rw [hself]
        exact hcounting
      · rw [hat]
        dsimp only
        rw [hself]
        rfl
    · exact hi.quit.other (by simp) rfl rfl (hother _) fun hp => hp
  | count =>
    simp only [hf, hpc, Option.some.injEq] at h
    subst h
    rw [hpc] at hcounting hat
    obtain ⟨hins, hlines, hd, hle⟩ := hcounting
    refine ⟨hi.masked.setPc _ rfl rfl rfl rfl, ?_, ?_, fun sig hs => by simp [hk] at hs⟩
    · refine hi.int.quiet rfl ?_ ?_ (fun hp => hp) le_rfl
      · dsimp only
        rw [hself]
        exact ⟨hins, by omega, rfl, hd, by omega⟩
      · rw [hat]
        dsimp only
        rw [hself]
        rfl
    · exact hi.quit.other rfl rfl rfl (hother _) fun hp => hp
  | caught n =>
    simp only [hf, hpc, Option.some.injEq] at h
    subst h
    rw [hpc] at hat
    refine ⟨hi.masked.setPc _ rfl rfl rfl rfl, ?_, ?_, fun sig hs => by simp [hk] at hs⟩
    · exact hi.int.caught hat rfl rfl rfl (hself _) rfl rfl rfl
    · exact hi.quit.other (by simp) rfl rfl (hother _) fun hp => hp
  | dfl =>
    simp only [hf, hpc, Option.some.injEq] at h
    subst h
    rw [hpc] at hcounting hat
    obtain ⟨hins, hlines, hd, hle⟩ := hcounting
    refine ⟨hi.masked.setPc _ rfl rfl rfl rfl, ?_, ?_, fun sig hs => by simp [hk] at hs⟩
    · refine hi.int.quiet rfl ?_ ?_ (fun hp => hp) le_rfl
      · dsimp only
        rw [hself]
        refine ⟨hins, hlines, ?_⟩
        by_cases hthree : s.cnt = 3
        · exact .inr ⟨if_pos hthree, hthree⟩
        · rw [if_neg hthree]
          exact .inl ⟨hd, by omega⟩
      · dsimp only
        rw [hself]
        exact Nat.zero_le _
    · exact hi.quit.other rfl rfl rfl (hother _) fun hp => hp
  | ign =>
    simp only [hf, hpc] at h
    rw [hpc] at hcounting hat
    obtain ⟨hins, hlines, hcases⟩ := hcounting
    split_ifs at h with hthree <;> cases h
    · refine ⟨hi.masked.setPc .leave rfl rfl rfl rfl, ?_, ?_, fun sig hs => by simp [hk] at hs⟩
      · refine hi.int.quiet rfl ?_ ?_ (fun hp => Finset.mem_of_mem_erase hp) le_rfl
        · show Counting _ _ _ _ ((s.signals.setPc .leave).handling sigint)
          rw [hself]
          unfold Counting
          rw [if_pos hins]
          exact ⟨hlines, .inr ⟨rfl, hthree⟩⟩
        · show owed ((s.signals.setPc .leave).handling sigint) ≤ _
          rw [hself]
          exact Nat.zero_le _
      · exact hi.quit.other rfl rfl rfl (hother _) fun hp => Finset.mem_erase.mpr ⟨sigint_ne.symm, hp⟩
    · refine ⟨hi.masked.setPc _ rfl rfl rfl rfl, ?_, ?_, fun sig hs => by simp [hk] at hs⟩
      · refine hi.int.quiet rfl ?_ ?_ (fun hp => hp) le_rfl
        · dsimp only
          rw [hself]
          unfold Counting
          rw [if_pos hins]
          refine ⟨hlines, .inl ?_⟩
          rcases hcases with hcase | ⟨-, hcase⟩
          · exact hcase
          · exact absurd hcase hthree
        · dsimp only
          rw [hself]
          exact Nat.zero_le _
      · exact hi.quit.other rfl rfl rfl (hother _) fun hp => hp
  | leave =>
    simp only [hf, hpc, Option.some.injEq] at h
    subst h
    rw [hpc] at hcounting hat
    have hnone : s.signals.leave.handling sigint = none := by
      rw [Signals.handling_leave hf hi.masked.single, if_pos hsig]
    have hquit : s.signals.leave.handling sigquit = s.signals.handling sigquit := by
      rw [Signals.handling_leave hf hi.masked.single, hsig, if_neg sigint_ne]
    have hpending : s.signals.leave.pending = s.signals.pending := by rw [Signals.leave_eq hf]
    refine ⟨hi.masked.leave, ?_, ?_, fun sig hs => by simp [hk] at hs⟩
    · refine hi.int.quiet rfl ?_ ?_ (fun hp => hpending ▸ hp) le_rfl
      · dsimp only
        rw [hnone]
        exact hcounting
      · dsimp only
        rw [hnone]
        exact Nat.zero_le _
    · exact hi.quit.other rfl rfl rfl hquit fun hp => hpending ▸ hp
  | quit | quitDfl | raise =>
    rw [hpc] at hcounting
    exact absurd hcounting id

/-- A step of the handler of SIGQUIT. -/
theorem Inv.quit_step (hi : Inv entry s) (hk : s.killed = none) {f : Frame HandlerPc} {frames : List (Frame HandlerPc)}
    (hf : s.signals.frames = f :: frames) (hsig : f.sig = sigquit) (h : handlerStep s = some t) : Inv entry t := by
  have hat : s.signals.handling sigquit = some f.pc := by
    rw [← hsig]
    exact Signals.handling_head hf
  have hruns : s.signals.handling sigquit ≠ none := by
    rw [hat]
    exact Option.some_ne_none _
  have hself : ∀ pc, (s.signals.setPc pc).handling sigquit = some pc := by
    intro pc
    rw [Signals.handling_setPc hf, if_pos hsig]
  have hother : ∀ pc, (s.signals.setPc pc).handling sigint = s.signals.handling sigint := by
    intro pc
    rw [Signals.handling_setPc hf, hsig, if_neg sigint_ne.symm]
  have hquitting := hi.quit.quitting
  rw [hat] at hquitting
  unfold handlerStep at h
  cases hpc : f.pc with
  | describe =>
    simp only [hf, hpc, hsig, if_neg sigint_ne.symm, if_true, Option.some.injEq] at h
    subst h
    rw [hpc] at hquitting
    refine ⟨hi.masked.setPc _ rfl rfl rfl rfl, ?_, ?_, fun sig hs => by simp [hk] at hs⟩
    · refine hi.int.other ?_ rfl rfl rfl (hother _) (fun hp => hp) le_rfl
      rw [numbers_concat]
      exact List.append_nil _
    · refine hi.quit.move hruns ?_ ?_
      · have hcount : (s.printfs ++ [Line.strsignal sigquit]).count .caughtQuit =
            s.printfs.count .caughtQuit := by
          simp
        dsimp only
        rw [hself, hcount]
        exact hquitting
      · dsimp only
        rw [hself]
        exact fun _ hr => Bool.noConfusion hr
  | quit =>
    simp only [hf, hpc, Option.some.injEq] at h
    subst h
    rw [hpc] at hquitting
    obtain ⟨hins, hd, hzero⟩ := hquitting
    refine ⟨hi.masked.setPc _ rfl rfl rfl rfl, ?_, ?_, fun sig hs => by simp [hk] at hs⟩
    · refine hi.int.other ?_ rfl rfl rfl (hother _) (fun hp => hp) le_rfl
      rw [numbers_concat]
      exact List.append_nil _
    · refine hi.quit.move hruns ?_ ?_
      · dsimp only
        rw [hself]
        exact ⟨hins, hd, by simp [hzero]⟩
      · dsimp only
        rw [hself]
        exact fun _ hr => Bool.noConfusion hr
  | quitDfl =>
    simp only [hf, hpc, Option.some.injEq] at h
    subst h
    rw [hpc] at hquitting
    obtain ⟨hins, -, hone⟩ := hquitting
    refine ⟨hi.masked.setPc _ rfl rfl rfl rfl, ?_, ?_, fun sig hs => by simp [hk] at hs⟩
    · exact hi.int.other rfl rfl rfl rfl (hother _) (fun hp => hp) le_rfl
    · refine hi.quit.move hruns ?_ ?_
      · dsimp only
        rw [hself]
        exact ⟨hins, rfl, hone⟩
      · dsimp only
        rw [hself]
        exact fun _ hr => Bool.noConfusion hr
  | raise =>
    simp only [hf, hpc, Option.some.injEq] at h
    subst h
    rw [hpc] at hquitting
    refine ⟨hi.masked.setPc .leave rfl rfl rfl rfl, ?_, ?_, fun sig hs => by simp [hk] at hs⟩
    · refine hi.int.other rfl rfl rfl rfl (hother _) (fun hp => ?_) le_rfl
      exact (Finset.mem_insert.mp hp).resolve_left sigint_ne
    · refine hi.quit.move hruns ?_ fun _ _ => Finset.mem_insert_self _ _
      show Quitting _ _ _ ((s.signals.setPc .leave).handling sigquit)
      rw [hself]
      exact hquitting
  | leave =>
    simp only [hf, hpc, Option.some.injEq] at h
    subst h
    rw [hpc] at hquitting hat
    obtain ⟨hins, hd, hone⟩ := hquitting
    have hnone : s.signals.leave.handling sigquit = none := by
      rw [Signals.handling_leave hf hi.masked.single, if_pos hsig]
    have hint : s.signals.leave.handling sigint = s.signals.handling sigint := by
      rw [Signals.handling_leave hf hi.masked.single, hsig, if_neg sigint_ne.symm]
    have hpending : s.signals.leave.pending = s.signals.pending := by rw [Signals.leave_eq hf]
    refine ⟨hi.masked.leave, ?_, ?_, fun sig hs => by simp [hk] at hs⟩
    · exact hi.int.other rfl rfl rfl rfl hint (fun hp => hpending ▸ hp) le_rfl
    · refine hi.quit.move hruns ?_ fun hone _ => ?_
      · dsimp only
        rw [hnone]
        unfold Quitting
        rw [if_pos hins]
        exact .inr ⟨hd, hone⟩
      · dsimp only
        rw [hpending]
        exact hi.quit.waits hone (by rw [hat]; rfl)
  | count | caught | dfl | ign =>
    rw [hpc] at hquitting
    exact absurd hquitting id

theorem Inv.handler_step (hi : Inv entry s) (hk : s.killed = none) (h : handlerStep s = some t) : Inv entry t := by
  cases hf : s.signals.frames with
  | nil =>
    unfold handlerStep at h
    simp only [hf] at h
    cases h
  | cons f frames =>
    rcases hi.masked.few f (by rw [hf]; exact List.mem_cons_self) with hsig | hsig
    · exact hi.int_step hk hf hsig h
    · exact hi.quit_step hk hf hsig h

theorem Inv.send_step (hi : Inv entry s) (hk : s.killed = none) (h : sendStep s sig = some t) : Inv entry t := by
  obtain ⟨hsig, h⟩ := Option.ite_none_right_eq_some.mp h
  cases h
  -- the signal may be dropped, so it is kept apart from the rest of the state
  generalize hsignals : (if s.disposition sig = .ign ∧ sig ∉ s.signals.mask then s.signals
    else s.signals.send sig) = signals
  have hframes : signals.frames = s.signals.frames := by
    rw [← hsignals]
    split_ifs <;> rfl
  have hmask : signals.mask = s.signals.mask := by
    rw [← hsignals]
    split_ifs <;> rfl
  have hpending : ∀ n, n ∈ signals.pending → n = sig ∨ n ∈ s.signals.pending := by
    intro n hn
    rw [← hsignals] at hn
    split_ifs at hn
    · exact .inr hn
    · exact Finset.mem_insert.mp hn
  have hkeep : ∀ n, n ∈ s.signals.pending → n ∈ signals.pending := by
    intro n hn
    rw [← hsignals]
    split_ifs
    · exact hn
    · exact Finset.mem_insert_of_mem hn
  have hhandling : ∀ n, signals.handling n = s.signals.handling n := by
    intro n
    unfold Signals.handling
    rw [hframes]
  refine ⟨⟨?_, ?_, hi.masked.prevmask, ?_⟩, ?_, ?_, fun sig hs => by simp [hk] at hs⟩
  · rw [hframes, hmask]
    exact hi.masked.nested
  · unfold Signals.Single
    rw [hframes]
    exact hi.masked.single
  · rw [hframes]
    exact hi.masked.few
  · rcases hsig with rfl | rfl
    · refine ⟨hi.int.inOrder, ?_, ?_⟩
      · dsimp only
        rw [hhandling]
        exact hi.int.counting
      · have hle := hi.int.sent
        dsimp only
        rw [hhandling, if_pos rfl]
        split_ifs at hle ⊢ <;> omega
    · refine hi.int.other rfl rfl rfl rfl (hhandling _) (fun hp => ?_) ?_
      · exact (hpending _ hp).resolve_left sigint_ne
      · dsimp only
        rw [if_neg sigint_ne.symm]
  · exact hi.quit.other rfl rfl rfl (hhandling _) (hkeep _)

/-- A signal that is not blocked has no handler that runs. -/
theorem Masked.handling_eq_none (hm : Masked entry s) (h : sig ∉ s.signals.mask) :
    s.signals.handling sig = none := by
  by_contra hruns
  obtain ⟨pc, hpc⟩ := Option.ne_none_iff_exists'.mp hruns
  obtain ⟨f, hf, rfl⟩ := Signals.mem_of_handling hpc
  exact h (hm.nested.sig_mem hf)

/-- A signal ends the process. -/
theorem Inv.kill (hi : Inv entry s) (h : sig = sigint ∧ s.pc.installedInt = false ∨
    sig = sigquit ∧ (s.pc.installedQuit = false ∨ s.printfs.count .caughtQuit = 1)) :
    Inv entry { s with killed := some sig } := by
  refine ⟨⟨hi.masked.nested, hi.masked.single, hi.masked.prevmask, hi.masked.few⟩,
    ⟨hi.int.inOrder, hi.int.counting, hi.int.sent⟩,
    ⟨hi.quit.quitting, hi.quit.waits, hi.quit.unblocked⟩, fun n hn => ?_⟩
  obtain rfl : sig = n := Option.some.inj hn
  exact h

theorem Disposition.eq_or (d : Disposition) : d = .dfl ∨ d = .ign ∨ d = .handler := by
  cases d <;> simp

theorem Inv.deliver_int (hi : Inv entry s) (hk : s.killed = none) (h : deliverStep s sigint = some t) :
    Inv entry t := by
  obtain ⟨⟨hpending, hmask⟩, h⟩ := Option.ite_none_right_eq_some.mp h
  have hnone := hi.masked.handling_eq_none hmask
  have hcounting := hi.int.counting
  rw [hnone] at hcounting
  have hdisposition : s.disposition sigint = s.onInt := if_pos rfl
  rcases s.onInt.eq_or with hd | hd | hd
  · simp only [hdisposition.trans hd, Option.some.injEq] at h
    subst h
    apply hi.kill
    refine .inl ⟨rfl, ?_⟩
    by_contra hins
    rw [Bool.not_eq_false] at hins
    unfold Counting at hcounting
    rw [if_pos hins, hd] at hcounting
    rcases hcounting.2 with ⟨hd, -⟩ | ⟨hd, -⟩ <;> cases hd
  · simp only [hdisposition.trans hd, Option.some.injEq] at h
    subst h
    refine ⟨⟨hi.masked.nested, hi.masked.single, hi.masked.prevmask, hi.masked.few⟩, ?_, ?_,
      fun n hn => by simp [hk] at hn⟩
    · exact hi.int.other rfl rfl rfl rfl rfl (fun hp => Finset.mem_of_mem_erase hp) le_rfl
    · exact hi.quit.other rfl rfl rfl rfl fun hp => Finset.mem_erase.mpr ⟨sigint_ne.symm, hp⟩
  · simp only [hdisposition.trans hd] at h
    obtain ⟨signals, hsignals, rfl⟩ := Option.map_eq_some_iff.mp h
    obtain ⟨-, -, herase, -⟩ := Signals.deliver_spec hsignals
    have hself : signals.handling sigint = some .describe := by
      rw [Signals.handling_deliver hsignals, if_pos rfl]
    have hother : signals.handling sigquit = s.signals.handling sigquit := by
      rw [Signals.handling_deliver hsignals, if_neg sigint_ne]
    refine ⟨hi.masked.deliver (.inl rfl) hsignals, ⟨hi.int.inOrder, ?_, ?_⟩, ?_, fun n hn => by simp [hk] at hn⟩
    · dsimp only
      rw [hself]
      unfold Counting at hcounting ⊢
      split_ifs at hcounting with hins
      · obtain ⟨hlines, hcase | ⟨hign, -⟩⟩ := hcounting
        · exact ⟨hins, hlines, hcase⟩
        · rw [hd] at hign
          cases hign
      · exact absurd hd hcounting.2.2
    · have hle := hi.int.sent
      rw [if_pos hpending, hnone] at hle
      dsimp only
      rw [hself, herase, if_neg (Finset.notMem_erase sigint _)]
      exact hle
    · refine hi.quit.other rfl rfl rfl hother fun hp => ?_
      dsimp only
      rw [herase]
      exact Finset.mem_erase.mpr ⟨sigint_ne.symm, hp⟩

theorem Inv.deliver_quit (hi : Inv entry s) (hk : s.killed = none) (h : deliverStep s sigquit = some t) :
    Inv entry t := by
  obtain ⟨⟨hpending, hmask⟩, h⟩ := Option.ite_none_right_eq_some.mp h
  have hnone := hi.masked.handling_eq_none hmask
  have hquitting := hi.quit.quitting
  rw [hnone] at hquitting
  have hdisposition : s.disposition sigquit = s.onQuit := if_neg sigint_ne.symm
  rcases s.onQuit.eq_or with hd | hd | hd
  · simp only [hdisposition.trans hd, Option.some.injEq] at h
    subst h
    apply hi.kill
    refine .inr ⟨rfl, ?_⟩
    unfold Quitting at hquitting
    split_ifs at hquitting with hins
    · rcases hquitting with ⟨hhandler, -⟩ | ⟨-, hone⟩
      · rw [hd] at hhandler
        cases hhandler
      · exact .inr hone
    · exact .inl (Bool.not_eq_true _ ▸ hins)
  · have hins : ¬ s.pc.installedQuit = true := by
      intro hins
      unfold Quitting at hquitting
      rw [if_pos hins, hd] at hquitting
      rcases hquitting with ⟨hd, -⟩ | ⟨hd, -⟩ <;> cases hd
    unfold Quitting at hquitting
    rw [if_neg hins] at hquitting
    simp only [hdisposition.trans hd, Option.some.injEq] at h
    subst h
    refine ⟨⟨hi.masked.nested, hi.masked.single, hi.masked.prevmask, hi.masked.few⟩, ?_, ⟨hi.quit.quitting, ?_,
      hi.quit.unblocked⟩, fun n hn => by simp [hk] at hn⟩
    · exact hi.int.other rfl rfl rfl rfl rfl (fun hp => Finset.mem_of_mem_erase hp) le_rfl
    · intro hone
      dsimp only at hone
      omega
  · have hzero : s.pc.installedQuit = true ∧ s.printfs.count .caughtQuit = 0 := by
      unfold Quitting at hquitting
      split_ifs at hquitting with hins
      · rcases hquitting with ⟨-, hzero⟩ | ⟨hdfl, -⟩
        · exact ⟨hins, hzero⟩
        · rw [hd] at hdfl
          cases hdfl
      · exact absurd hd hquitting.1
    simp only [hdisposition.trans hd] at h
    obtain ⟨signals, hsignals, rfl⟩ := Option.map_eq_some_iff.mp h
    obtain ⟨-, -, herase, -⟩ := Signals.deliver_spec hsignals
    have hself : signals.handling sigquit = some .describe := by
      rw [Signals.handling_deliver hsignals, if_pos rfl]
    have hother : signals.handling sigint = s.signals.handling sigint := by
      rw [Signals.handling_deliver hsignals, if_neg sigint_ne.symm]
    refine ⟨hi.masked.deliver (.inr rfl) hsignals, ?_, ⟨?_, ?_, ?_⟩, fun n hn => by simp [hk] at hn⟩
    · refine hi.int.other rfl rfl rfl rfl hother (fun hp => ?_) le_rfl
      dsimp only at hp
      rw [herase] at hp
      exact Finset.mem_of_mem_erase hp
    · dsimp only
      rw [hself]
      exact ⟨hzero.1, hd, hzero.2⟩
    · intro hone
      dsimp only at hone
      omega
    · intro _ hentry
      -- a handler interrupts at a mask in which everything from outside is blocked
      have houter : entry ⊆ s.pc.outer entry := by
        cases s.pc <;> first | exact Finset.Subset.refl _ | exact Finset.subset_union_left
      exact hmask (hi.masked.nested.outer_subset (houter hentry))

/-- Only the two signals wait. -/
def Few (s : State) : Prop := ∀ n ∈ s.signals.pending, n = sigint ∨ n = sigquit

theorem Few.mono (hw : Few s) (h : ∀ n ∈ t.signals.pending, n = sigint ∨ n = sigquit ∨ n ∈ s.signals.pending) :
    Few t := by
  intro n hn
  rcases h n hn with rfl | rfl | hn
  · exact .inl rfl
  · exact .inr rfl
  · exact hw n hn

theorem few_step {a : Action} (hw : Few s) (h : (system entry ignored).step s a = some t) : Few t := by
  obtain ⟨-, h⟩ := Option.ite_none_left_eq_some.mp h
  apply hw.mono
  intro n hn
  cases a with
  | main =>
    obtain ⟨-, h⟩ := Option.ite_none_right_eq_some.mp h
    cases hpc : s.pc <;> simp only [hpc] at h <;> cases h <;> exact .inr (.inr hn)
  | handler =>
    unfold handlerStep at h
    cases hf : s.signals.frames with
    | nil =>
      simp only [hf] at h
      cases h
    | cons f frames =>
      cases hpc : f.pc with
      | describe | count | caught | dfl | quit | quitDfl =>
        simp only [hf, hpc, Option.some.injEq] at h
        subst h
        exact .inr (.inr hn)
      | ign =>
        simp only [hf, hpc] at h
        split_ifs at h <;> cases h
        · exact .inr (.inr (Finset.mem_of_mem_erase hn))
        · exact .inr (.inr hn)
      | raise =>
        simp only [hf, hpc, Option.some.injEq] at h
        subst h
        rcases Finset.mem_insert.mp hn with rfl | hn
        · exact .inr (.inl rfl)
        · exact .inr (.inr hn)
      | leave =>
        simp only [hf, hpc, Option.some.injEq] at h
        subst h
        dsimp only at hn
        rw [Signals.leave_eq hf] at hn
        exact .inr (.inr hn)
  | send sig =>
    obtain ⟨hsig, h⟩ := Option.ite_none_right_eq_some.mp h
    cases h
    dsimp only at hn
    split_ifs at hn
    · exact .inr (.inr hn)
    · rcases Finset.mem_insert.mp hn with rfl | hn
      · rcases hsig with rfl | rfl
        · exact .inl rfl
        · exact .inr (.inl rfl)
      · exact .inr (.inr hn)
  | deliver sig =>
    obtain ⟨-, h⟩ := Option.ite_none_right_eq_some.mp h
    split at h
    · cases h
      exact .inr (.inr hn)
    · cases h
      exact .inr (.inr (Finset.mem_of_mem_erase hn))
    · obtain ⟨signals, hsignals, rfl⟩ := Option.map_eq_some_iff.mp h
      obtain ⟨-, -, herase, -⟩ := Signals.deliver_spec hsignals
      dsimp only at hn
      rw [herase] at hn
      exact .inr (.inr (Finset.mem_of_mem_erase hn))

theorem Inv.step {a : Action} (hi : Inv entry s) (hw : Few s) (h : (system entry ignored).step s a = some t) :
    Inv entry t := by
  obtain ⟨hk, h⟩ := Option.ite_none_left_eq_some.mp h
  have hk : s.killed = none := Option.not_isSome_iff_eq_none.mp hk
  cases a with
  | main => exact hi.main_step hk h
  | handler => exact hi.handler_step hk h
  | send sig => exact hi.send_step hk h
  | deliver sig =>
    have hpending := (Option.ite_none_right_eq_some.mp h).1.1
    rcases hw sig hpending with rfl | rfl
    · exact hi.deliver_int hk h
    · exact hi.deliver_quit hk h

theorem inv_reachable (h : (system entry ignored).Reachable s) : Inv entry s := by
  have hboth : Inv entry s ∧ Few s := by
    refine h.invariant (I := fun s => Inv entry s ∧ Few s) (fun s hs => ?_)
      fun s a t hi ht => ⟨hi.1.step hi.2 ht, few_step hi.2 ht⟩
    have hs : s = _ := hs
    rw [hs]
    have hdisposition : ∀ sig, (if sig ∈ ignored then Disposition.ign else .dfl) ≠ .handler := by
      intro sig
      split_ifs <;> nofun
    refine ⟨⟨?_, ⟨rfl, ?_, Nat.zero_le _⟩, ⟨?_, ?_, ?_⟩, fun n hn => absurd hn nofun⟩, ?_⟩
    · exact masked_of_quiet rfl rfl fun hpc => by rcases hpc with hpc | hpc <;> cases hpc
    · exact ⟨rfl, rfl, hdisposition sigint⟩
    · exact ⟨hdisposition sigquit, rfl⟩
    · exact fun hone => absurd hone (by simp)
    · rintro (hne | hone)
      · exact absurd rfl hne
      · exact absurd hone (by simp)
    · exact fun n hn => absurd hn (Finset.notMem_empty n)
  exact hboth.1

/-- In every run, whatever is inherited and whenever the signals come: there are at most three calls of `printf` about
SIGINT, numbered from 1 and not more than SIGINTs have been sent; behind the third one SIGINT is ignored, and from
the first step on it never ends the process. -/
theorem sigint_counted (h : (system entry ignored).Reachable s) :
    (∃ k ≤ 3, numbers s.printfs = List.range' 1 k ∧ k ≤ s.sent ∧
      (k = 3 → s.signals.handling sigint = none → s.onInt = .ign)) ∧
      (s.killed = some sigint → s.pc = .signalInt) := by
  have hi := inv_reachable h
  have hcounting := hi.int.counting
  have hsent := hi.int.sent
  refine ⟨⟨_, ?_, hi.int.inOrder, by omega, fun hk hnone => ?_⟩, fun hkilled => ?_⟩
  · exact hcounting.le
  · rw [hnone] at hcounting
    unfold Counting at hcounting
    split_ifs at hcounting
    · rcases hcounting.2 with ⟨-, hle⟩ | ⟨hign, -⟩
      · omega
      · exact hign
    · omega
  · rcases hi.killed sigint hkilled with ⟨-, hins⟩ | ⟨hsig, -⟩
    · simpa [Pc.installedInt] using hins
    · exact absurd hsig sigint_ne

/-- Four SIGINTs, one of them during the sleep and each other one when the process waits: three calls. -/
theorem sigint_counted_four : ∃ as s t, (system ∅ ∅).run s as = some t ∧ t.sent = 4 ∧
    (∃ k ≤ 3, numbers t.printfs = List.range' 1 k ∧ k ≤ t.sent ∧
      (k = 3 → t.signals.handling sigint = none → t.onInt = .ign)) ∧ t.killed = none := by
  let handle : List Action := [.send sigint, .deliver sigint, .handler, .handler, .handler, .handler, .handler,
    .handler]
  let as : List Action := [.main, .main, .main, .main, .main] ++ handle ++ handle ++ handle ++ [.send sigint]
  let s : State := ⟨⟨∅, ∅, []⟩, .dfl, .dfl, .signalInt, ∅, 0, [], 0, none⟩
  have hs : (system ∅ ∅).init s := rfl
  have hend : ((system ∅ ∅).run s as).map (fun t => (t.sent, t.killed)) = some (4, none) := by decide +kernel
  obtain ⟨t, ht, hend⟩ := Option.map_eq_some_iff.mp hend
  obtain ⟨hsent, hkilled⟩ := Prod.mk.inj hend
  exact ⟨as, s, t, ht, hsent, (sigint_counted (System.reachable_of_run hs as ht)).1, hkilled⟩

/-- SIGQUIT is blocked by its own handler only. -/
theorem Inv.sigquit_not_mem (hi : Inv entry s) (hentry : sigquit ∉ entry)
    (hnone : s.signals.handling sigquit = none) : sigquit ∉ s.signals.mask := by
  intro hmem
  have houter := hi.masked.nested.mem_outer hmem (Signals.sig_ne_of_handling_eq_none hnone)
  have hother : sigquit ∉ entry ∪ {sigint} := by
    simp [hentry, sigint_ne.symm]
  cases hpc : s.pc with
  | sleep | restore =>
    rw [hpc] at houter
    exact hother houter
  | signalInt | signalQuit | block | pause =>
    rw [hpc] at houter
    exact hentry houter

/-- In every run SIGQUIT is caught at most once. When its handler has returned, into `signal_basic` or into the
handler of a SIGINT, SIGQUIT waits, is not blocked and has its default action again, so that the next thing it does
is to end the process; and it ends a process in which its handler is installed only behind the call of `printf`
about it. -/
theorem sigquit_ends (h : (system entry ignored).Reachable s) :
    s.printfs.count .caughtQuit ≤ 1 ∧
      (s.printfs.count .caughtQuit = 1 → s.signals.handling sigquit = none →
        s.onQuit = .dfl ∧ sigquit ∈ s.signals.pending ∧ sigquit ∉ s.signals.mask) ∧
      (s.killed = some sigquit → s.pc.installedQuit = true → s.printfs.count .caughtQuit = 1) := by
  have hi := inv_reachable h
  have hquitting := hi.quit.quitting
  refine ⟨?_, fun hone hnone => ?_, fun hkilled hins => ?_⟩
  · unfold Quitting at hquitting
    split at hquitting
    · split_ifs at hquitting
      · rcases hquitting with ⟨-, hle⟩ | ⟨-, hle⟩ <;> omega
      · omega
    all_goals first | omega | exact absurd hquitting id
  · rw [hnone] at hquitting
    refine ⟨?_, hi.quit.waits hone (by rw [hnone]; rfl), hi.sigquit_not_mem (hi.quit.unblocked (.inr hone)) hnone⟩
    unfold Quitting at hquitting
    split_ifs at hquitting
    · rcases hquitting with ⟨-, hzero⟩ | ⟨hdfl, -⟩
      · omega
      · exact hdfl
    · omega
  · rcases hi.killed sigquit hkilled with ⟨hsig, -⟩ | ⟨-, hearly | hone⟩
    · exact absurd hsig.symm sigint_ne
    · rw [hins] at hearly
      cases hearly
    · exact hone

/-- A SIGQUIT that interrupts the handler of a SIGINT: its own handler has returned into that one. -/
theorem sigquit_ends_nested : ∃ as s t, (system ∅ ∅).run s as = some t ∧ t.signals.frames.length = 1 ∧
    t.onQuit = .dfl ∧ sigquit ∈ t.signals.pending ∧ sigquit ∉ t.signals.mask := by
  let as : List Action := [.main, .main, .send sigint, .deliver sigint, .handler, .send sigquit, .deliver sigquit,
    .handler, .handler, .handler, .handler, .handler]
  let s : State := ⟨⟨∅, ∅, []⟩, .dfl, .dfl, .signalInt, ∅, 0, [], 0, none⟩
  have hs : (system ∅ ∅).init s := rfl
  have hend : ((system ∅ ∅).run s as).map (fun t => (t.signals.frames.length, t.printfs.count .caughtQuit,
      t.signals.handling sigquit)) = some (1, 1, none) := by decide +kernel
  obtain ⟨t, ht, hend⟩ := Option.map_eq_some_iff.mp hend
  rw [Prod.mk.injEq, Prod.mk.injEq] at hend
  obtain ⟨hlength, hone, hnone⟩ := hend
  exact ⟨as, s, t, ht, hlength, (sigquit_ends (System.reachable_of_run hs as ht)).2.1 hone hnone⟩

end LinuxApi.SignalBasic
