import LinuxApi.Kernel.Signals
import LinuxApi.Transition.System
import Mathlib.Data.List.Range

/-! `signal_longjmp` in `signal_handler.c`: a handler for SIGINT that lists the blocked signals and jumps back
into the function, once there is a place to jump to. SIGINTs come at any time. -/

namespace LinuxApi.SignalLongjmp

/-- `SIGINT` -/
def sigint : ℕ := 2

def nsig : ℕ := 65

/-- A call of `printf`, by the line it is to print; `signal` is a line of `print_sigset`, `caught` the signal of the
handler. -/
inductive Line where
  | start | handler | jumped
  | signal (sig : ℕ)
  | empty
  | caught (sig : ℕ)
  | notSet
  deriving DecidableEq

/-- The texts, with that of `strsignal`. -/
def Line.text (strsignal : ℕ → String) : Line → String
  | .start => "signal mask at start: \n"
  | .handler => "signal mask at handler: \n"
  | .jumped => "After jump from handler, signal mask is: \n"
  | .signal sig => toString sig ++ "(" ++ strsignal sig ++ ")\n"
  | .empty => "Empty signal set\n"
  | .caught sig => "signal is " ++ toString sig ++ "(" ++ strsignal sig ++ ").\n"
  | .notSet => "env buffer not yet set.\n"

/-- The variables of `print_sigset`. -/
structure Listing where
  sigset : Finset ℕ
  sig : ℕ
  cnt : ℕ
  deriving DecidableEq

/-- One turn of its loop, or what comes behind it. -/
def printSigset (l : Listing) : List Line × Option Listing :=
  if l.sig < nsig then
    if l.sig ∈ l.sigset then ([.signal l.sig], some { l with sig := l.sig + 1, cnt := l.cnt + 1 })
    else ([], some { l with sig := l.sig + 1 })
  else (if l.cnt = 0 then [.empty] else [], none)

/-- Where `signal_longjmp` is; `startMask` and `jumpedMask` are the beginning of `print_sigmask`. -/
inductive Pc where
  | startHeader | startMask
  | start (l : Listing)
  | sigaction | sigsetjmp | canjump
  | jumpedHeader | jumpedMask
  | jumped (l : Listing)
  | pause
  deriving DecidableEq

/-- Where `signal_handler_func` is. -/
inductive HandlerPc where
  | header | mask
  | list (l : Listing)
  | report | test | notSet | leave
  deriving DecidableEq

inductive Status where
  | running | killed | crashed
  deriving DecidableEq

/-- `senv` holds the mask that `sigsetjmp` has saved, if it has been called, and `printfs` the calls of `printf` as
they begin. How much of a line is written when the handler jumps out of its `printf` is left open. -/
structure State where
  signals : Signals HandlerPc
  pc : Pc
  canjump : Bool
  senv : Option (Finset ℕ)
  printfs : List Line
  status : Status

/-- A step of `signal_longjmp`, a step of the handler, a SIGINT sent and one delivered. -/
inductive Action where
  | main | handler | send | deliver

def State.print (s : State) (lines : List Line) (pc : Pc) : State :=
  { s with pc, printfs := s.printfs ++ lines }

def State.handlerPrint (s : State) (lines : List Line) (pc : HandlerPc) : State :=
  { s with signals := s.signals.setPc pc, printfs := s.printfs ++ lines }

/-- `signal_longjmp` itself, which goes on only while no handler runs. -/
def mainStep (s : State) : Option State :=
  if s.signals.frames.isEmpty then
    match s.pc with
    | .startHeader => some (s.print [.start] .startMask)
    | .startMask => some (s.print [] (.start ⟨s.signals.mask, 1, 0⟩))
    | .start l => some (s.print (printSigset l).1 ((printSigset l).2.elim .sigaction .start))
    | .sigaction => some { s with pc := .sigsetjmp }
    | .sigsetjmp => some { s with senv := some s.signals.mask, pc := .canjump }
    | .canjump => some { s with canjump := true, pc := .pause }
    | .jumpedHeader => some (s.print [.jumped] .jumpedMask)
    | .jumpedMask => some (s.print [] (.jumped ⟨s.signals.mask, 1, 0⟩))
    | .jumped l => some (s.print (printSigset l).1 ((printSigset l).2.elim .pause .jumped))
    | .pause => none
  else none

/-- `siglongjmp`, which leaves the handler behind. Without `sigsetjmp` before there is nowhere to go. -/
def siglongjmp (s : State) : State :=
  match s.senv with
  | some mask => { s with signals := ⟨mask, s.signals.pending, []⟩, pc := .jumpedHeader }
  | none => { s with status := .crashed }

/-- `signal_handler_func` -/
def handlerStep (s : State) : Option State :=
  match s.signals.frames with
  | [] => none
  | f :: _ =>
    match f.pc with
    | .header => some (s.handlerPrint [.handler] .mask)
    | .mask => some (s.handlerPrint [] (.list ⟨s.signals.mask, 1, 0⟩))
    | .list l => some (s.handlerPrint (printSigset l).1 ((printSigset l).2.elim .report .list))
    | .report => some (s.handlerPrint [.caught f.sig] .test)
    | .test => if s.canjump then some (siglongjmp s) else some (s.handlerPrint [] .notSet)
    | .notSet => some (s.handlerPrint [.notSet] .leave)
    | .leave => some { s with signals := s.signals.leave }

/-- The handler is installed. -/
def Pc.installed : Pc → Bool
  | .startHeader | .startMask | .start _ | .sigaction => false
  | _ => true

def deliverStep (ignored : Bool) (s : State) : Option State :=
  if sigint ∈ s.signals.pending ∧ sigint ∉ s.signals.mask then
    if s.pc.installed then
      (s.signals.deliver .header s.signals.mask sigint).map fun signals => { s with signals }
    else if ignored then some { s with signals := s.signals.drop sigint }
    else some { s with status := .killed }
  else none

/-- A process that inherits the mask `entry`, and whether it ignores SIGINT. -/
def system (entry : Finset ℕ) (ignored : Bool) : System State Action where
  init s := s = ⟨⟨entry, ∅, []⟩, .startHeader, false, none, [], .running⟩
  step s a :=
    if s.status = .running then
      match a with
      | .main => mainStep s
      | .handler => handlerStep s
      | .send => some { s with signals := s.signals.send sigint }
      | .deliver => deliverStep ignored s
    else none

/-! ### The calls of `print_sigset` -/

/-- The lines of a set up to a signal. -/
def signalsBefore (sigset : Finset ℕ) (sig : ℕ) : List Line :=
  ((List.range' 1 (sig - 1)).filter (· ∈ sigset)).map .signal

/-- All lines of a set. -/
def listing (sigset : Finset ℕ) : List Line :=
  if signalsBefore sigset nsig = [] then [.empty] else signalsBefore sigset nsig

structure Listing.Valid (l : Listing) : Prop where
  pos : 1 ≤ l.sig
  le : l.sig ≤ nsig
  cnt : l.cnt = (signalsBefore l.sigset l.sig).length

def Listing.printed (l : Listing) : List Line := signalsBefore l.sigset l.sig

theorem valid_start (sigset : Finset ℕ) : (Listing.mk sigset 1 0).Valid := ⟨le_rfl, Nat.le_of_ble_eq_true rfl, rfl⟩

theorem signalsBefore_succ (sigset : Finset ℕ) {sig : ℕ} (h : 1 ≤ sig) :
    signalsBefore sigset (sig + 1) = signalsBefore sigset sig ++ if sig ∈ sigset then [.signal sig] else [] := by
  obtain ⟨n, rfl⟩ := Nat.exists_eq_add_of_le' h
  unfold signalsBefore
  rw [Nat.add_sub_cancel, Nat.add_sub_cancel, List.range'_1_concat, List.filter_append, List.map_append,
    Nat.add_comm 1 n]
  congr 1
  by_cases hmem : n + 1 ∈ sigset
  · simp [hmem]
  · simp [hmem]

/-- Each turn has the call that is still missing. -/
theorem printSigset_some {l k : Listing} {lines : List Line} (hv : l.Valid) (h : printSigset l = (lines, some k)) :
    k.Valid ∧ k.sigset = l.sigset ∧ k.printed = l.printed ++ lines := by
  unfold printSigset at h
  have hsucc := signalsBefore_succ l.sigset hv.pos
  split_ifs at h with hlt hmem
  · cases h
    rw [if_pos hmem] at hsucc
    refine ⟨⟨Nat.le_succ_of_le hv.pos, hlt, ?_⟩, rfl, hsucc⟩
    dsimp only
    rw [hsucc, List.length_append, hv.cnt]
    rfl
  · cases h
    rw [if_neg hmem, List.append_nil] at hsucc
    refine ⟨⟨Nat.le_succ_of_le hv.pos, hlt, ?_⟩, rfl, ?_⟩
    · dsimp only
      rw [hsucc, hv.cnt]
    · rw [List.append_nil]
      exact hsucc
  all_goals cases h

theorem printSigset_none {l : Listing} {lines : List Line} (hv : l.Valid) (h : printSigset l = (lines, none)) :
    listing l.sigset = l.printed ++ lines := by
  unfold printSigset at h
  split_ifs at h with hlt hmem hzero
  all_goals cases h
  · have hsig : l.sig = nsig := le_antisymm hv.le (Nat.le_of_not_lt hlt)
    have hnil : signalsBefore l.sigset l.sig = [] := List.length_eq_zero_iff.mp (hv.cnt.symm.trans hzero)
    unfold listing Listing.printed
    rw [← hsig, if_pos hnil, hnil]
    rfl
  · have hsig : l.sig = nsig := le_antisymm hv.le (Nat.le_of_not_lt hlt)
    have hne : signalsBefore l.sigset l.sig ≠ [] := by
      intro hnil
      apply hzero
      rw [hv.cnt, hnil]
      rfl
    unfold listing Listing.printed
    rw [← hsig, if_neg hne, List.append_nil]

/-- The calls so far begin all there are to come. -/
theorem printed_isPrefix {l : Listing} (hv : l.Valid) : l.printed <+: listing l.sigset := by
  have hrange : List.range' 1 (l.sig - 1) <+: List.range' 1 (nsig - 1) := by
    have hle := hv.le
    have hsplit : nsig - 1 = (l.sig - 1) + (nsig - l.sig) := by
      have hpos := hv.pos
      omega
    rw [hsplit, ← List.range'_append_1]
    exact List.prefix_append _ _
  have hbefore : signalsBefore l.sigset l.sig <+: signalsBefore l.sigset nsig :=
    (hrange.filter _).map _
  unfold listing Listing.printed
  split_ifs with hnil
  · rw [hnil, List.prefix_nil] at hbefore
    rw [hbefore]
    exact List.nil_prefix
  · exact hbefore

/-! ### The calls of a run -/

def startText (entry : Finset ℕ) : List Line := .start :: listing entry

def jumpedText (entry : Finset ℕ) : List Line := .jumped :: listing entry

/-- The calls of the handler before it jumps. -/
def handlerText (entry : Finset ℕ) : List Line := .handler :: listing (insert sigint entry) ++ [.caught sigint]

/-- Behind the start there are some runs of the handler that do not jump, and then those that jump, each with the calls
of `printf` behind the jump until the next one. -/
def output (entry : Finset ℕ) (calls : ℕ) (jumps : List (List Line)) : List Line :=
  startText entry ++ (List.replicate calls (handlerText entry ++ [.notSet])).flatten ++
    (jumps.map fun p => handlerText entry ++ p).flatten

theorem output_call (entry : Finset ℕ) (n : ℕ) :
    output entry n [] ++ (handlerText entry ++ [.notSet]) = output entry (n + 1) [] := by
  unfold output
  rw [List.replicate_succ', List.flatten_concat]
  simp

theorem output_jump (entry : Finset ℕ) (n : ℕ) (js : List (List Line)) :
    output entry n js ++ handlerText entry = output entry n (js ++ [[]]) := by
  unfold output
  rw [List.map_append, List.flatten_append]
  simp

/-- The calls behind the last jump. -/
theorem output_grow (entry : Finset ℕ) (n : ℕ) (js : List (List Line)) (p lines : List Line) :
    output entry n (js ++ [p]) ++ lines = output entry n (js ++ [p ++ lines]) := by
  unfold output
  rw [List.map_append, List.flatten_append, List.map_append, List.flatten_append]
  simp

/-- Behind each jump the blocked signals are those from the start. -/
def Jumps (entry : Finset ℕ) (js : List (List Line)) : Prop := ∀ p ∈ js, p <+: jumpedText entry

theorem Jumps.concat {entry : Finset ℕ} {js : List (List Line)} (h : Jumps entry js) {p : List Line}
    (hp : p <+: jumpedText entry) : Jumps entry (js ++ [p]) := by
  intro q hq
  rcases List.mem_append.mp hq with hq | hq
  · exact h q hq
  · exact List.mem_singleton.mp hq ▸ hp

/-- A listing of the set `entry`. -/
structure Lists (entry : Finset ℕ) (l : Listing) : Prop where
  valid : l.Valid
  sigset : l.sigset = entry

theorem Lists.isPrefix {entry : Finset ℕ} {l : Listing} (h : Lists entry l) : l.printed <+: listing entry := by
  have hp := printed_isPrefix h.valid
  rw [h.sigset] at hp
  exact hp

theorem Lists.some {entry : Finset ℕ} {l k : Listing} {lines : List Line} (h : Lists entry l)
    (hl : printSigset l = (lines, some k)) : Lists entry k ∧ k.printed = l.printed ++ lines := by
  obtain ⟨hvalid, hsigset, hprinted⟩ := printSigset_some h.valid hl
  exact ⟨⟨hvalid, hsigset.trans h.sigset⟩, hprinted⟩

theorem Lists.none {entry : Finset ℕ} {l : Listing} {lines : List Line} (h : Lists entry l)
    (hl : printSigset l = (lines, none)) : listing entry = l.printed ++ lines := by
  rw [← h.sigset]
  exact printSigset_none h.valid hl

/-- The calls outside the last run of the handler, by the place of `signal_longjmp`. -/
def Told (entry : Finset ℕ) (out : List Line) : Pc → Prop
  | .startHeader => out = []
  | .startMask => out = [.start]
  | .start l => out = .start :: l.printed ∧ Lists entry l
  | .sigaction => out = startText entry
  | .sigsetjmp | .canjump => ∃ n, out = output entry n []
  | .jumpedHeader => ∃ n js, Jumps entry js ∧ out = output entry n (js ++ [[]])
  | .jumpedMask => ∃ n js, Jumps entry js ∧ out = output entry n (js ++ [[.jumped]])
  | .jumped l => ∃ n js, Jumps entry js ∧ out = output entry n (js ++ [.jumped :: l.printed]) ∧ Lists entry l
  | .pause => ∃ n js, Jumps entry js ∧ out = output entry n js

/-- The calls of a run of the handler. -/
def HandlerTold (entry : Finset ℕ) (out : List Line) : HandlerPc → Prop
  | .header => out = []
  | .mask => out = [.handler]
  | .list l => out = .handler :: l.printed ∧ Lists (insert sigint entry) l
  | .report => out = .handler :: listing (insert sigint entry)
  | .test | .notSet => out = handlerText entry
  | .leave => out = handlerText entry ++ [.notSet]

/-- `senv` and `canjump` have been set. -/
def Pc.jumpable : Pc → Bool
  | .jumpedHeader | .jumpedMask | .jumped _ | .pause => true
  | _ => false

/-- The handler does not jump any more in this call. -/
def HandlerPc.returns : HandlerPc → Bool
  | .notSet | .leave => true
  | _ => false

/-- Either no handler runs, or one, whose calls are `tail`. -/
def Interrupted (entry : Finset ℕ) (s : State) (tail : List Line) : Prop :=
  s.signals.frames = [] ∧ s.signals.mask = entry ∧ tail = [] ∨
    ∃ pc, s.signals.frames = [⟨sigint, pc, entry⟩] ∧ s.signals.mask = insert sigint entry ∧
      s.pc.installed = true ∧ HandlerTold entry tail pc ∧ (pc.returns = true → s.pc.jumpable = false)

structure Inv (entry : Finset ℕ) (s : State) : Prop where
  told : ∃ out tail, s.printfs = out ++ tail ∧ Told entry out s.pc ∧ Interrupted entry s tail
  canjump : s.canjump = s.pc.jumpable
  senv : s.pc = .canjump ∨ s.pc.jumpable = true → s.senv = some entry
  status : s.status ≠ .crashed

variable {entry : Finset ℕ} {ignored : Bool} {s t : State}

/-- What holds while no handler runs. -/
theorem Inv.quiet (hi : Inv entry s) (hf : s.signals.frames = []) :
    Told entry s.printfs s.pc ∧ s.signals.mask = entry := by
  obtain ⟨out, tail, hprintfs, htold, ⟨-, hmask, htail⟩ | ⟨pc, hframes, -⟩⟩ := hi.told
  · rw [hprintfs, htail, List.append_nil]
    exact ⟨htold, hmask⟩
  · rw [hf] at hframes
    cases hframes

/-- A step of `signal_longjmp` that leaves the signals alone. -/
theorem Inv.main (hi : Inv entry s) (hf : s.signals.frames = []) (hsignals : t.signals = s.signals)
    (htold : Told entry t.printfs t.pc) (hcanjump : t.canjump = t.pc.jumpable)
    (hsenv : t.pc = .canjump ∨ t.pc.jumpable = true → t.senv = some entry) (hstatus : t.status = s.status) :
    Inv entry t := by
  refine ⟨⟨t.printfs, [], (List.append_nil _).symm, htold, .inl ⟨?_, ?_, rfl⟩⟩, hcanjump, hsenv, ?_⟩
  · rw [hsignals]
    exact hf
  · rw [hsignals]
    exact (hi.quiet hf).2
  · rw [hstatus]
    exact hi.status

theorem Inv.main_step (hi : Inv entry s) (h : mainStep s = some t) : Inv entry t := by
  obtain ⟨hf, h⟩ := Option.ite_none_right_eq_some.mp h
  have hf := List.isEmpty_iff.mp hf
  obtain ⟨htold, hmask⟩ := hi.quiet hf
  have hcanjump := hi.canjump
  cases hpc : s.pc with
  | startHeader =>
    simp only [hpc, Option.some.injEq] at h
    subst h
    rw [hpc] at htold hcanjump
    have hout : s.printfs = [] := htold
    refine hi.main hf rfl ?_ hcanjump nofun rfl
    show s.printfs ++ [.start] = [.start]
    rw [hout]
    rfl
  | startMask =>
    simp only [hpc, Option.some.injEq] at h
    subst h
    rw [hpc] at htold hcanjump
    have hout : s.printfs = [.start] := htold
    refine hi.main hf rfl ⟨?_, valid_start _, hmask⟩ hcanjump nofun rfl
    show s.printfs ++ [] = _
    rw [hout]
    rfl
  | start l =>
    simp only [hpc, Option.some.injEq] at h
    subst h
    rw [hpc] at htold hcanjump
    obtain ⟨hout, hl⟩ := htold
    generalize hp : printSigset l = p
    obtain ⟨lines, next⟩ := p
    cases next with
    | some k =>
      obtain ⟨hk, hprinted⟩ := hl.some hp
      refine hi.main hf rfl ⟨?_, hk⟩ hcanjump nofun rfl
      show s.printfs ++ lines = .start :: k.printed
      rw [hout, hprinted]
      rfl
    | none =>
      refine hi.main hf rfl ?_ hcanjump nofun rfl
      show s.printfs ++ lines = .start :: listing entry
      rw [hout, hl.none hp]
      rfl
  | sigaction =>
    simp only [hpc, Option.some.injEq] at h
    subst h
    rw [hpc] at htold hcanjump
    have hout : s.printfs = startText entry := htold
    refine hi.main hf rfl ⟨0, ?_⟩ hcanjump nofun rfl
    dsimp only
    rw [hout]
    simp [output]
  | sigsetjmp =>
    simp only [hpc, Option.some.injEq] at h
    subst h
    rw [hpc] at htold hcanjump
    refine hi.main hf rfl htold hcanjump (fun _ => ?_) rfl
    dsimp only
    rw [hmask]
  | canjump =>
    simp only [hpc, Option.some.injEq] at h
    subst h
    rw [hpc] at htold
    obtain ⟨n, hout⟩ := htold
    refine hi.main hf rfl ⟨n, [], ?_, hout⟩ rfl (fun _ => hi.senv (.inl hpc)) rfl
    exact fun p hp => absurd hp List.not_mem_nil
  | jumpedHeader =>
    simp only [hpc, Option.some.injEq] at h
    subst h
    have hsenv := hi.senv (.inr (by rw [hpc]; rfl))
    rw [hpc] at htold hcanjump
    obtain ⟨n, js, hjs, hout⟩ := htold
    refine hi.main hf rfl ⟨n, js, hjs, ?_⟩ hcanjump (fun _ => hsenv) rfl
    show s.printfs ++ [.jumped] = _
    rw [hout, output_grow]
    rfl
  | jumpedMask =>
    simp only [hpc, Option.some.injEq] at h
    subst h
    have hsenv := hi.senv (.inr (by rw [hpc]; rfl))
    rw [hpc] at htold hcanjump
    obtain ⟨n, js, hjs, hout⟩ := htold
    refine hi.main hf rfl ⟨n, js, hjs, ?_, valid_start _, hmask⟩ hcanjump (fun _ => hsenv) rfl
    show s.printfs ++ [] = _
    rw [hout, List.append_nil]
    rfl
  | jumped l =>
    simp only [hpc, Option.some.injEq] at h
    subst h
    have hsenv := hi.senv (.inr (by rw [hpc]; rfl))
    rw [hpc] at htold hcanjump
    obtain ⟨n, js, hjs, hout, hl⟩ := htold
    generalize hp : printSigset l = p
    obtain ⟨lines, next⟩ := p
    cases next with
    | some k =>
      obtain ⟨hk, hprinted⟩ := hl.some hp
      refine hi.main hf rfl ⟨n, js, hjs, ?_, hk⟩ hcanjump (fun _ => hsenv) rfl
      show s.printfs ++ lines = _
      rw [hout, output_grow, hprinted]
      rfl
    | none =>
      refine hi.main hf rfl ⟨n, js ++ [jumpedText entry], hjs.concat (List.prefix_refl _), ?_⟩ hcanjump
        (fun _ => hsenv) rfl
      show s.printfs ++ lines = _
      rw [hout, output_grow, jumpedText, hl.none hp]
      rfl
  | pause => simp only [hpc] at h; cases h

/-- The handler goes on. -/
theorem Inv.handle (hi : Inv entry s) {out tail lines : List Line} {pc next : HandlerPc} (hprintfs : s.printfs = out ++ tail)
    (htold : Told entry out s.pc) (hframes : s.signals.frames = [⟨sigint, pc, entry⟩])
    (hmask : s.signals.mask = insert sigint entry) (hinstalled : s.pc.installed = true)
    (hnext : HandlerTold entry (tail ++ lines) next) (hreturns : next.returns = true → s.pc.jumpable = false) :
    Inv entry (s.handlerPrint lines next) := by
  refine ⟨⟨out, tail ++ lines, ?_, htold, .inr ⟨next, ?_, ?_, hinstalled, hnext, hreturns⟩⟩, hi.canjump, hi.senv,
    hi.status⟩
  · show s.printfs ++ lines = _
    rw [hprintfs, List.append_assoc]
  · show (s.signals.setPc next).frames = _
    rw [Signals.setPc_eq hframes]
  · show (s.signals.setPc next).mask = _
    rw [Signals.setPc_eq hframes]
    exact hmask

/-- Once `canjump` is set, the calls so far are complete up to the last jump. -/
theorem Told.jumps {out : List Line} {pc : Pc} (h : Told entry out pc) (hpc : pc.jumpable = true) :
    ∃ n js, Jumps entry js ∧ out = output entry n js := by
  cases pc with
  | jumpedHeader =>
    obtain ⟨n, js, hjs, hout⟩ := h
    exact ⟨n, _, hjs.concat List.nil_prefix, hout⟩
  | jumpedMask =>
    obtain ⟨n, js, hjs, hout⟩ := h
    exact ⟨n, _, hjs.concat ⟨listing entry, rfl⟩, hout⟩
  | jumped l =>
    obtain ⟨n, js, hjs, hout, hl⟩ := h
    refine ⟨n, _, hjs.concat ?_, hout⟩
    obtain ⟨rest, hrest⟩ := hl.isPrefix
    exact ⟨rest, congrArg (Line.jumped :: ·) hrest⟩
  | pause => exact h
  | startHeader | startMask | start | sigaction | sigsetjmp | canjump => cases hpc

/-- Before, no run of the handler has jumped. -/
theorem Told.calls {out : List Line} {pc : Pc} (h : Told entry out pc) (hinstalled : pc.installed = true)
    (hpc : pc.jumpable = false) : ∃ n, out = output entry n [] ∧ (pc = .sigsetjmp ∨ pc = .canjump) := by
  cases pc with
  | sigsetjmp =>
    obtain ⟨n, hout⟩ := h
    exact ⟨n, hout, .inl rfl⟩
  | canjump =>
    obtain ⟨n, hout⟩ := h
    exact ⟨n, hout, .inr rfl⟩
  | startHeader | startMask | start | sigaction => cases hinstalled
  | jumpedHeader | jumpedMask | jumped | pause => cases hpc

theorem Inv.handler_step (hi : Inv entry s) (h : handlerStep s = some t) : Inv entry t := by
  obtain ⟨out, tail, hprintfs, htold, ⟨hf, -⟩ | ⟨pc, hframes, hmask, hinstalled, htail, hreturns⟩⟩ := hi.told
  · unfold handlerStep at h
    simp only [hf] at h
    cases h
  unfold handlerStep at h
  cases pc with
  | header =>
    simp only [hframes, Option.some.injEq] at h
    subst h
    have htail : tail = [] := htail
    refine hi.handle hprintfs htold hframes hmask hinstalled ?_ nofun
    rw [htail]
    rfl
  | mask =>
    simp only [hframes, Option.some.injEq] at h
    subst h
    have htail : tail = [.handler] := htail
    refine hi.handle hprintfs htold hframes hmask hinstalled ⟨?_, valid_start _, hmask⟩ nofun
    rw [htail]
    rfl
  | list l =>
    simp only [hframes, Option.some.injEq] at h
    subst h
    obtain ⟨htail, hl⟩ := htail
    generalize hp : printSigset l = p
    obtain ⟨lines, next⟩ := p
    cases next with
    | some k =>
      obtain ⟨hk, hprinted⟩ := hl.some hp
      refine hi.handle hprintfs htold hframes hmask hinstalled ⟨?_, hk⟩ nofun
      rw [htail, hprinted]
      rfl
    | none =>
      refine hi.handle hprintfs htold hframes hmask hinstalled ?_ nofun
      show tail ++ lines = _
      rw [htail, hl.none hp]
      rfl
  | report =>
    simp only [hframes, Option.some.injEq] at h
    subst h
    have htail : tail = .handler :: listing (insert sigint entry) := htail
    refine hi.handle hprintfs htold hframes hmask hinstalled ?_ nofun
    rw [htail]
    rfl
  | test =>
    simp only [hframes] at h
    have htail : tail = handlerText entry := htail
    split_ifs at h with hjump <;> cases h
    · rw [hi.canjump] at hjump
      obtain ⟨n, js, hjs, hout⟩ := htold.jumps hjump
      have hsenv := hi.senv (.inr hjump)
      unfold siglongjmp
      rw [hsenv]
      refine ⟨⟨s.printfs, [], (List.append_nil _).symm, ⟨n, js, hjs, ?_⟩, .inl ⟨rfl, rfl, rfl⟩⟩, ?_, fun _ => rfl,
        hi.status⟩
      · rw [hprintfs, hout, htail, output_jump]
      · exact hi.canjump.trans hjump
    · rw [hi.canjump, Bool.not_eq_true] at hjump
      refine hi.handle hprintfs htold hframes hmask hinstalled ?_ fun _ => hjump
      rw [List.append_nil]
      exact htail
  | notSet =>
    simp only [hframes, Option.some.injEq] at h
    subst h
    have htail : tail = handlerText entry := htail
    refine hi.handle hprintfs htold hframes hmask hinstalled ?_ hreturns
    rw [htail]
    rfl
  | leave =>
    simp only [hframes, Option.some.injEq] at h
    subst h
    have htail : tail = handlerText entry ++ [.notSet] := htail
    obtain ⟨n, hout, hpc⟩ := htold.calls hinstalled (hreturns rfl)
    refine ⟨⟨s.printfs, [], (List.append_nil _).symm, ?_, .inl ⟨?_, ?_, rfl⟩⟩, hi.canjump, hi.senv, hi.status⟩
    · have hnext : s.printfs = output entry (n + 1) [] := by rw [hprintfs, hout, htail, output_call]
      rcases hpc with hpc | hpc
      · exact hpc ▸ ⟨n + 1, hnext⟩
      · exact hpc ▸ ⟨n + 1, hnext⟩
    · rw [Signals.leave_eq hframes]
    · rw [Signals.leave_eq hframes]

theorem Inv.deliver_step (hi : Inv entry s) (h : deliverStep ignored s = some t) : Inv entry t := by
  obtain ⟨⟨-, hblocked⟩, h⟩ := Option.ite_none_right_eq_some.mp h
  obtain ⟨out, tail, hprintfs, htold, ⟨hf, hmask, htail⟩ | ⟨pc, -, hmask, -⟩⟩ := hi.told
  · rw [htail, List.append_nil] at hprintfs
    split_ifs at h with hinstalled hignored
    · obtain ⟨signals, hsignals, rfl⟩ := Option.map_eq_some_iff.mp h
      obtain ⟨-, hsignals⟩ := Option.ite_none_right_eq_some.mp hsignals
      cases hsignals
      refine ⟨⟨out, [], ?_, htold, .inr ⟨.header, ?_, ?_, hinstalled, rfl, nofun⟩⟩, hi.canjump, hi.senv, hi.status⟩
      · rw [List.append_nil]
        exact hprintfs
      · simp [hf, hmask]
      · dsimp only
        rw [hmask]
    · cases h
      exact ⟨⟨out, [], by rw [List.append_nil]; exact hprintfs, htold, .inl ⟨hf, hmask, rfl⟩⟩, hi.canjump, hi.senv,
        hi.status⟩
    · cases h
      exact ⟨⟨out, [], by rw [List.append_nil]; exact hprintfs, htold, .inl ⟨hf, hmask, rfl⟩⟩, hi.canjump, hi.senv,
        nofun⟩
  · rw [hmask] at hblocked
    exact absurd (Finset.mem_insert_self _ _) hblocked

theorem Inv.step (hi : Inv entry s) {a : Action} (h : (system entry ignored).step s a = some t) : Inv entry t := by
  obtain ⟨-, h⟩ := Option.ite_none_right_eq_some.mp h
  cases a with
  | main => exact hi.main_step h
  | handler => exact hi.handler_step h
  | send =>
    cases h
    exact ⟨hi.told, hi.canjump, hi.senv, hi.status⟩
  | deliver => exact hi.deliver_step h

theorem inv_reachable (h : (system entry ignored).Reachable s) : Inv entry s := by
  refine h.invariant (I := Inv entry) (fun s hs => ?_) fun s a t hi ht => hi.step ht
  have hs : s = _ := hs
  rw [hs]
  refine ⟨⟨[], [], rfl, rfl, .inl ⟨rfl, rfl, rfl⟩⟩, rfl, fun hpc => ?_, nofun⟩
  rcases hpc with hpc | hpc <;> cases hpc

/-- The handler calls nothing more where it jumps. -/
theorem HandlerTold.isPrefix_of_not_returns {out : List Line} {pc : HandlerPc} (h : HandlerTold entry out pc)
    (hpc : pc.returns = false) : out <+: handlerText entry := by
  cases pc with
  | header =>
    have hout : out = [] := h
    rw [hout]
    exact List.nil_prefix
  | mask =>
    have hout : out = [.handler] := h
    rw [hout]
    exact ⟨_, rfl⟩
  | list l =>
    obtain ⟨hout, hl⟩ := h
    obtain ⟨rest, hrest⟩ := hl.isPrefix
    refine ⟨rest ++ [.caught sigint], ?_⟩
    rw [hout, handlerText, ← hrest]
    simp
  | report =>
    have hout : out = _ := h
    refine ⟨[.caught sigint], ?_⟩
    rw [hout, handlerText]
  | test =>
    have hout : out = handlerText entry := h
    rw [hout]
  | notSet | leave => cases hpc

theorem HandlerTold.isPrefix {out : List Line} {pc : HandlerPc} (h : HandlerTold entry out pc) :
    out <+: handlerText entry ++ [.notSet] := by
  cases hpc : pc.returns with
  | false => exact (h.isPrefix_of_not_returns hpc).trans (List.prefix_append _ _)
  | true =>
    cases pc with
    | notSet =>
      have hout : out = handlerText entry := h
      rw [hout]
      exact List.prefix_append _ _
    | leave =>
      have hout : out = handlerText entry ++ [.notSet] := h
      rw [hout]
    | header | mask | list | report | test => cases hpc

/-- The calls until the handler is installed. -/
theorem Told.isPrefix {out : List Line} {pc : Pc} (h : Told entry out pc) (hpc : pc.installed = false) :
    out <+: startText entry := by
  cases pc with
  | startHeader =>
    have hout : out = [] := h
    rw [hout]
    exact List.nil_prefix
  | startMask =>
    have hout : out = [.start] := h
    rw [hout]
    exact ⟨_, rfl⟩
  | start l =>
    obtain ⟨hout, hl⟩ := h
    obtain ⟨rest, hrest⟩ := hl.isPrefix
    rw [hout]
    exact ⟨rest, congrArg (Line.start :: ·) hrest⟩
  | sigaction =>
    have hout : out = startText entry := h
    rw [hout]
  | sigsetjmp | canjump | jumpedHeader | jumpedMask | jumped | pause => cases hpc

/-- In every run, whatever mask is inherited and whenever SIGINTs come: the handler never jumps before there is a
place to jump to; in `signal_longjmp` the mask is always the inherited one, also behind any number of jumps out of
the handler; and the calls of `printf` begin a list of runs of the handler, each with SIGINT blocked, first those that
do not jump, then those that do, each of them with the calls for the inherited mask behind it as far as the next one
lets it. -/
theorem jumps_restore_mask (h : (system entry ignored).Reachable s) :
    s.status ≠ .crashed ∧ (s.signals.frames = [] → s.signals.mask = entry) ∧
      ∃ n js, (∀ p ∈ js, p <+: jumpedText entry) ∧ s.printfs <+: output entry n js := by
  have hi := inv_reachable h
  refine ⟨hi.status, fun hf => (hi.quiet hf).2, ?_⟩
  obtain ⟨out, tail, hprintfs, htold, hcase⟩ := hi.told
  rcases hcase with ⟨-, -, htail⟩ | ⟨pc, -, -, hinstalled, htail, hreturns⟩
  · rw [htail, List.append_nil] at hprintfs
    rw [hprintfs]
    cases hins : s.pc.installed with
    | false =>
      refine ⟨0, [], fun p hp => absurd hp List.not_mem_nil, (htold.isPrefix hins).trans ?_⟩
      simp [output]
    | true =>
      cases hjump : s.pc.jumpable with
      | false =>
        obtain ⟨n, hout, -⟩ := htold.calls hins hjump
        exact ⟨n, [], fun p hp => absurd hp List.not_mem_nil, hout ▸ List.prefix_refl _⟩
      | true =>
        obtain ⟨n, js, hjs, hout⟩ := htold.jumps hjump
        exact ⟨n, js, hjs, hout ▸ List.prefix_refl _⟩
  · rw [hprintfs]
    cases hjump : s.pc.jumpable with
    | false =>
      obtain ⟨n, hout, -⟩ := htold.calls hinstalled hjump
      refine ⟨n + 1, [], fun p hp => absurd hp List.not_mem_nil, ?_⟩
      rw [hout, ← output_call]
      exact List.prefix_append_right_inj _ |>.mpr htail.isPrefix
    | true =>
      obtain ⟨n, js, hjs, hout⟩ := htold.jumps hjump
      refine ⟨n, js ++ [[]], hjs.concat List.nil_prefix, ?_⟩
      have hpc : pc.returns = false := by
        by_contra hr
        rw [hreturns (Bool.not_eq_false _ ▸ hr)] at hjump
        cases hjump
      rw [hout, ← output_jump]
      exact List.prefix_append_right_inj _ |>.mpr (htail.isPrefix_of_not_returns hpc)

/-- A SIGINT while `signal_longjmp` waits: its handler lists all signals and jumps. -/
theorem jumps_restore_mask_once : ∃ as s t, (system ∅ false).run s as = some t ∧ t.pc = .jumpedHeader ∧
    t.signals.mask = ∅ := by
  let as : List Action := List.replicate 70 .main ++ [.send, .deliver] ++ List.replicate 69 .handler
  let s : State := ⟨⟨∅, ∅, []⟩, .startHeader, false, none, [], .running⟩
  have hs : (system ∅ false).init s := rfl
  have hend : ((system ∅ false).run s as).map (fun t => (t.pc, t.signals.frames.length)) =
      some (.jumpedHeader, 0) := by decide +kernel
  obtain ⟨t, ht, hend⟩ := Option.map_eq_some_iff.mp hend
  obtain ⟨hpc, hlength⟩ := Prod.mk.inj hend
  have hmask := (jumps_restore_mask (System.reachable_of_run hs as ht)).2.1
  exact ⟨as, s, t, ht, hpc, hmask (List.length_eq_zero_iff.mp hlength)⟩

end LinuxApi.SignalLongjmp
