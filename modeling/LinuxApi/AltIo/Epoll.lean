import LinuxApi.Kernel.Fifo
import LinuxApi.Transition.Indexed
import LinuxApi.Transition.System

/-! `alt_io_epoll` in `alt_io_sample.c` from `numopendfds = 2` on, for any number of watched FIFOs:
level-triggered `epoll_wait`, one `read` for every event with `EPOLLIN`, and `close` for a hang-up
without it. `epoll_wait` polls the ready descriptors one after the other while it fills `evlist`,
and the writers go on at every point. -/

namespace LinuxApi.Epoll

/-- `MAX_BUF` -/
def maxBuf : ℕ := 1000

/-- `MAX_EVENTS` -/
def maxEvents : ℕ := 5

/-- A watched FIFO, how often the loop has closed its descriptor, and every byte written to it
and read from it so far. -/
structure Watched where
  fifo : Fifo
  closes : ℕ
  written : List UInt8
  read : List UInt8

/-- The loop has not closed the descriptor. -/
def Watched.isOpen (w : Watched) : Bool := w.closes = 0

/-- The same after a `close` of its descriptor. -/
def Watched.close (w : Watched) : Watched := { w with closes := w.closes + 1 }

@[simp] theorem Watched.close_isOpen (w : Watched) : w.close.isOpen = false :=
  decide_eq_false (Nat.succ_ne_zero _)

/-- A `struct epoll_event`; `fd` is its `data.fd`. -/
structure Event (ι : Type*) where
  fd : ι
  epollin : Bool
  epollhup : Bool
  epollerr : Bool

/-- Where the loop is: at its test, in `epoll_wait`, before an event of `evlist`, between a `close`
and the `numopendfds--` behind it, past the loop, or in `errExit`. -/
inductive Pc (ι : Type*) where
  | test
  | wait (evlist : List (Event ι))
  | handle (evlist : List (Event ι))
  | closed (evlist : List (Event ι))
  | done
  | exited

structure State (ι : Type*) where
  fifos : ι → Watched
  numopendfds : ℤ
  pc : Pc ι

/-- A step of the loop, whose `read` has the result `r`; a descriptor polled by `epoll_wait`; a
signal that interrupts it, and another error of it; a write, and the write side opened or closed
once. -/
inductive Action (ι : Type*) where
  | main (r : ReadResult)
  | report (i : ι)
  | interrupt
  | fail
  | write (i : ι) (bytes : List UInt8)
  | openWriter (i : ι)
  | closeWriter (i : ι)

variable {ι : Type*} [DecidableEq ι]

/-- Replace what is known of one FIFO. -/
def State.set (s : State ι) (i : ι) (w : Watched) : State ι :=
  { s with fifos := Function.update s.fifos i w }

@[simp] theorem State.set_fifos_self (s : State ι) (i : ι) (w : Watched) :
    (s.set i w).fifos i = w := by
  simp [State.set]

theorem State.set_fifos_of_ne (s : State ι) {i j : ι} (h : j ≠ i) (w : Watched) :
    (s.set i w).fifos j = s.fifos j := by
  simp [State.set, h]

/-- The kernel's answer for a descriptor; the read end of a FIFO never reports `EPOLLERR`. -/
def State.poll (s : State ι) (i : ι) : Event ι where
  fd := i
  epollin := (s.fifos i).fifo.hasData
  epollhup := (s.fifos i).fifo.hungUp
  epollerr := false

/-- `read(evlist[j].data.fd, buf, MAX_BUF)`, not failing. -/
def State.readFd (s : State ι) (i : ι) (r : ReadResult) : Option (State ι) :=
  if r = .error then none
  else ((s.fifos i).fifo.read maxBuf r).map fun p =>
    s.set i { s.fifos i with fifo := p.2, read := (s.fifos i).read ++ p.1 }

/-- `close(evlist[j].data.fd)`; a descriptor that is not open fails. -/
def State.closeFd (s : State ι) (i : ι) (evlist : List (Event ι)) : State ι :=
  { s.set i (s.fifos i).close with
    pc := if (s.fifos i).isOpen then .closed evlist else .exited }

def mainStep (s : State ι) (r : ReadResult) : Option (State ι) :=
  match s.pc with
  | .test => some { s with pc := if s.numopendfds > 0 then .wait [] else .done }
  | .wait [] => none
  | .wait (e :: evlist) => some { s with pc := .handle (e :: evlist) }
  | .handle [] => some { s with pc := .test }
  | .handle (e :: evlist) =>
    if e.epollin then (s.readFd e.fd r).map fun t => { t with pc := .handle evlist }
    else if e.epollhup || e.epollerr then some (s.closeFd e.fd evlist)
    else some { s with pc := .handle evlist }
  | .closed evlist => some { s with numopendfds := s.numopendfds - 1, pc := .handle evlist }
  | .done | .exited => none

/-- `epoll_wait` takes one more ready descriptor of its interest list into `evlist`. -/
def reportStep (s : State ι) (i : ι) : Option (State ι) :=
  match s.pc with
  | .wait evlist =>
    if evlist.length < maxEvents ∧ i ∉ evlist.map Event.fd ∧ (s.fifos i).isOpen ∧
        (s.fifos i).fifo.ready then
      some { s with pc := .wait (evlist ++ [s.poll i]) }
    else none
  | _ => none

/-- `epoll_wait` returns -1, which it does only without an event. -/
def waitFails (s : State ι) (pc : Pc ι) : Option (State ι) :=
  match s.pc with
  | .wait [] => some { s with pc }
  | _ => none

/-- Before the loop every descriptor is open and nothing has been read; the write side is opened
again only while somebody has it open. -/
def system (ι : Type*) [Fintype ι] [DecidableEq ι] : System (State ι) (Action ι) where
  init s := (∀ i, (s.fifos i).closes = 0 ∧ (s.fifos i).written = (s.fifos i).fifo.data ∧
    (s.fifos i).read = []) ∧ s.numopendfds = Fintype.card ι ∧ s.pc = .test
  step s
    | .main r => mainStep s r
    | .report i => reportStep s i
    | .interrupt => waitFails s .test
    | .fail => waitFails s .exited
    | .write i bytes => ((s.fifos i).fifo.write bytes).map fun fifo =>
      s.set i { s.fifos i with fifo, written := (s.fifos i).written ++ bytes }
    | .openWriter i =>
      if 0 < (s.fifos i).fifo.writers then
        some (s.set i { s.fifos i with fifo := (s.fifos i).fifo.openWriter })
      else none
    | .closeWriter i => (s.fifos i).fifo.closeWriter.map fun fifo =>
      s.set i { s.fifos i with fifo }

/-! ### What the loop keeps -/

/-- The events that are collected or not yet handled. -/
def Pc.evlist : Pc ι → List (Event ι)
  | .wait evlist | .handle evlist | .closed evlist => evlist
  | .test | .done | .exited => []

/-- How far `numopendfds` is behind the closed descriptors. -/
def Pc.behind : Pc ι → ℕ
  | .closed _ => 1
  | .test | .wait _ | .handle _ | .done | .exited => 0

/-- The bytes of a FIFO are read or still in it, and a closed one has none left and no writer. -/
structure Watched.Sound (w : Watched) : Prop where
  flow : w.written = w.read ++ w.fifo.data
  closed : w.isOpen = false → w.fifo.writers = 0 ∧ w.fifo.data = []
  once : w.closes ≤ 1

/-- What an event says holds until it is handled. -/
structure Event.Valid (e : Event ι) (w : Watched) : Prop where
  isOpen : w.isOpen = true
  data : e.epollin = true → w.fifo.data ≠ []
  hangup : e.epollin = false → e.epollhup = true ∧ w.fifo.writers = 0 ∧ w.fifo.data = []

structure Inv [Fintype ι] (s : State ι) : Prop where
  sound : ∀ i, (s.fifos i).Sound
  count : s.numopendfds = countWhere Watched.isOpen s.fifos + s.pc.behind
  valid : ∀ e ∈ s.pc.evlist, e.Valid (s.fifos e.fd)
  nodup : (s.pc.evlist.map Event.fd).Nodup
  waits : ∀ evlist, s.pc = .wait evlist → 0 < s.numopendfds
  done : s.pc = .done → s.numopendfds ≤ 0
  exited : s.pc = .exited → 0 < s.numopendfds

variable {s t : State ι}

/-- What holds of every FIFO is kept when the replaced one has it. -/
theorem State.forall_set {P : Watched → Prop} (h : ∀ i, P (s.fifos i)) {i : ι} {w : Watched}
    (hw : P w) (j : ι) : P ((s.set i w).fifos j) := by
  by_cases hj : j = i
  · subst hj
    rw [State.set_fifos_self]
    exact hw
  · rw [State.set_fifos_of_ne s hj]
    exact h j

variable [Fintype ι]

omit [DecidableEq ι] in
/-- The count is that of any other place between two closes. -/
theorem Inv.count_at (hi : Inv s) {pc : Pc ι} (hbehind : s.pc.behind = pc.behind) :
    s.numopendfds = countWhere Watched.isOpen s.fifos + pc.behind := by
  rw [← hbehind]
  exact hi.count

theorem State.count_close {i : ι} {w : Watched} (h : (s.fifos i).isOpen = true)
    (hw : w.isOpen = false) :
    countWhere Watched.isOpen (s.set i w).fifos + 1 = countWhere Watched.isOpen s.fifos := by
  have hu := countWhere_update (p := Watched.isOpen) (f := s.fifos) i w
  rwa [h, hw, Bool.toNat_true, Bool.toNat_false] at hu

/-- The writers change one FIFO: they add data, and none comes back after the last. -/
theorem Inv.change (hi : Inv s) {i : ι} {w : Watched} (hw : w.Sound)
    (hcloses : w.isOpen = (s.fifos i).isOpen)
    (hdata : (s.fifos i).fifo.data ≠ [] → w.fifo.data ≠ [])
    (hwriter : (s.fifos i).fifo.writers = 0 → w.fifo = (s.fifos i).fifo) : Inv (s.set i w) where
  sound := State.forall_set hi.sound hw
  count := by
    rw [State.set, countWhere_update_of_eq hcloses]
    exact hi.count
  valid := by
    intro e he
    have hv := hi.valid e he
    by_cases hei : e.fd = i
    · subst hei
      rw [State.set_fifos_self]
      refine ⟨hcloses.trans hv.isOpen, fun hin => hdata (hv.data hin), fun hin => ?_⟩
      rw [hwriter (hv.hangup hin).2.1]
      exact hv.hangup hin
    · rw [State.set_fifos_of_ne s hei]
      exact hv
  nodup := hi.nodup
  waits := hi.waits
  done := hi.done
  exited := hi.exited

/-- The loop passes an event: those behind it are about other descriptors. -/
theorem Inv.handles (hi : Inv s) {e : Event ι} {evlist : List (Event ι)} {w : Watched} {pc : Pc ι}
    (hs : s.pc = .handle (e :: evlist)) (hw : w.Sound)
    (hpc : pc = .handle evlist ∨ pc = .closed evlist)
    (hcount : s.numopendfds = countWhere Watched.isOpen (s.set e.fd w).fifos + pc.behind) :
    Inv { s.set e.fd w with pc } := by
  have hvalid := hi.valid
  have hnodup := hi.nodup
  rw [hs] at hvalid hnodup
  rw [Pc.evlist, List.map_cons, List.nodup_cons] at hnodup
  have hevlist : pc.evlist = evlist := by
    rcases hpc with rfl | rfl <;> rfl
  have hvalid' : ∀ e' ∈ evlist, e'.Valid ((s.set e.fd w).fifos e'.fd) := by
    intro e' he'
    have hne : e'.fd ≠ e.fd := by
      intro h
      exact hnodup.1 (h ▸ List.mem_map_of_mem he')
    rw [State.set_fifos_of_ne s hne]
    exact hvalid e' (List.mem_cons_of_mem e he')
  refine ⟨State.forall_set hi.sound hw, hcount, hevlist.symm ▸ hvalid', hevlist.symm ▸ hnodup.2,
    ?_, ?_, ?_⟩
  all_goals rcases hpc with rfl | rfl <;> nofun

theorem Inv.reads (hi : Inv s) {e : Event ι} {evlist : List (Event ι)} {r : ReadResult}
    (hpc : s.pc = .handle (e :: evlist)) (h : s.readFd e.fd r = some t) :
    Inv { t with pc := .handle evlist } := by
  unfold State.readFd at h
  split_ifs at h
  obtain ⟨⟨chunk, f⟩, hread, rfl⟩ := Option.map_eq_some_iff.mp h
  obtain ⟨hflow, hwriters⟩ := Fifo.read_append hread
  have he := hi.valid e (by rw [hpc]; exact List.mem_cons_self)
  refine hi.handles hpc ⟨?_, fun hc => ?_, (hi.sound e.fd).once⟩ (.inl rfl) ?_
  · show (s.fifos e.fd).written = (s.fifos e.fd).read ++ chunk ++ f.data
    rw [List.append_assoc, hflow]
    exact (hi.sound e.fd).flow
  · exact Bool.noConfusion (he.isOpen.symm.trans hc)
  · rw [hi.count, hpc, State.set, countWhere_update_of_eq]
    · rfl
    · rfl

/-- A descriptor is closed only while it is open, and after its last byte. -/
theorem Inv.closes (hi : Inv s) {e : Event ι} {evlist : List (Event ι)}
    (hpc : s.pc = .handle (e :: evlist)) (hin : e.epollin = false) :
    Inv (s.closeFd e.fd evlist) := by
  have he := hi.valid e (by rw [hpc]; exact List.mem_cons_self)
  rw [State.closeFd, if_pos he.isOpen]
  refine hi.handles hpc ⟨(hi.sound e.fd).flow, fun _ => (he.hangup hin).2, ?_⟩ (.inr rfl) ?_
  · have hopen : (s.fifos e.fd).closes = 0 := of_decide_eq_true he.isOpen
    show (s.fifos e.fd).closes + 1 ≤ 1
    omega
  · rw [hi.count, hpc, ← State.count_close he.isOpen (Watched.close_isOpen (s.fifos e.fd))]
    simp only [Pc.behind, Nat.cast_add, Nat.cast_one, Nat.cast_zero, add_zero]

omit [DecidableEq ι] in
/-- `numopendfds--` makes up for the `close` in front of it. -/
theorem Inv.counts (hi : Inv s) {evlist : List (Event ι)} (hpc : s.pc = .closed evlist) :
    Inv { s with numopendfds := s.numopendfds - 1, pc := .handle evlist } := by
  have hvalid := hi.valid
  have hnodup := hi.nodup
  have hcount := hi.count
  rw [hpc] at hvalid hnodup hcount
  refine ⟨hi.sound, ?_, hvalid, hnodup, nofun, nofun, nofun⟩
  simp only [Pc.behind] at hcount ⊢
  omega

theorem Inv.main_step (hi : Inv s) {r : ReadResult} (h : mainStep s r = some t) : Inv t := by
  unfold mainStep at h
  have hvalid := hi.valid
  have hnodup := hi.nodup
  cases hpc : s.pc with
  | test =>
    simp only [hpc, Option.some.injEq] at h
    subst h
    have hbehind : s.pc.behind = 0 := by rw [hpc, Pc.behind]
    by_cases hn : s.numopendfds > 0
    · rw [if_pos hn]
      exact ⟨hi.sound, hi.count_at hbehind, nofun, List.nodup_nil, fun _ _ => hn, nofun, nofun⟩
    · rw [if_neg hn]
      exact ⟨hi.sound, hi.count_at hbehind, nofun, List.nodup_nil, nofun, fun _ => not_lt.mp hn, nofun⟩
  | wait evlist =>
    rw [hpc] at hvalid hnodup
    cases evlist with
    | nil => simp only [hpc] at h; cases h
    | cons e evlist =>
      simp only [hpc, Option.some.injEq] at h
      subst h
      exact ⟨hi.sound, hi.count_at (by rw [hpc]; rfl), hvalid, hnodup, nofun, nofun, nofun⟩
  | handle evlist =>
    cases evlist with
    | nil =>
      simp only [hpc, Option.some.injEq] at h
      subst h
      exact ⟨hi.sound, hi.count_at (by rw [hpc]; rfl), nofun, List.nodup_nil, nofun, nofun, nofun⟩
    | cons e evlist =>
      simp only [hpc] at h
      cases hin : e.epollin with
      | true =>
        rw [if_pos hin] at h
        obtain ⟨u, hu, rfl⟩ := Option.map_eq_some_iff.mp h
        exact hi.reads hpc hu
      | false =>
        have he := hi.valid e (by rw [hpc]; exact List.mem_cons_self)
        rw [if_neg (Bool.not_eq_true _ ▸ hin), (he.hangup hin).1, Bool.true_or, if_pos rfl,
          Option.some.injEq] at h
        exact h ▸ hi.closes hpc hin
  | closed evlist =>
    simp only [hpc, Option.some.injEq] at h
    subst h
    exact hi.counts hpc
  | done | exited => simp only [hpc] at h; cases h

/-- A polled descriptor is open and ready, and its flags are those of its FIFO. -/
theorem Inv.report_step (hi : Inv s) {i : ι} (h : reportStep s i = some t) : Inv t := by
  unfold reportStep at h
  cases hpc : s.pc with
  | wait evlist =>
    simp only [hpc, Option.ite_none_right_eq_some, Option.some.injEq] at h
    obtain ⟨⟨-, hnew, hopen, hready⟩, rfl⟩ := h
    have hvalid := hi.valid
    have hnodup := hi.nodup
    rw [hpc] at hvalid hnodup
    refine ⟨hi.sound, hi.count_at (by rw [hpc]; rfl), fun e he => ?_, ?_,
      fun _ _ => hi.waits evlist hpc, nofun, nofun⟩
    · rcases List.mem_append.mp he with he | he
      · exact hvalid e he
      · obtain rfl := List.mem_singleton.mp he
        refine ⟨hopen, fun hin => of_decide_eq_true hin, fun hin => ?_⟩
        have hin : (s.fifos i).fifo.hasData = false := hin
        have hhup : (s.fifos i).fifo.hungUp = true := by
          rwa [Fifo.ready, hin, Bool.false_or] at hready
        exact ⟨hhup, of_decide_eq_true hhup, not_not.mp (of_decide_eq_false hin)⟩
    · show ((evlist ++ [s.poll i]).map Event.fd).Nodup
      rw [List.map_append, List.map_singleton]
      exact List.nodup_append_comm.mp (List.nodup_cons.mpr ⟨hnew, hnodup⟩)
  | test | handle | closed | done | exited => simp only [hpc] at h; cases h

omit [DecidableEq ι] in
theorem Inv.wait_fails (hi : Inv s) {pc : Pc ι} (h : waitFails s pc = some t)
    (hpc : pc = .test ∨ pc = .exited) : Inv t := by
  unfold waitFails at h
  cases hs : s.pc with
  | wait evlist =>
    cases evlist with
    | nil =>
      simp only [hs, Option.some.injEq] at h
      subst h
      have hn := hi.waits [] hs
      have hbehind : s.pc.behind = 0 := by rw [hs, Pc.behind]
      rcases hpc with rfl | rfl
      · exact ⟨hi.sound, hi.count_at hbehind, nofun, List.nodup_nil, nofun, nofun, nofun⟩
      · exact ⟨hi.sound, hi.count_at hbehind, nofun, List.nodup_nil, nofun, nofun, fun _ => hn⟩
    | cons e evlist => simp only [hs] at h; cases h
  | test | handle | closed | done | exited => simp only [hs] at h; cases h

theorem inv_step {a : Action ι} (hi : Inv s) (h : (system ι).step s a = some t) : Inv t := by
  cases a with
  | main r => exact hi.main_step h
  | report i => exact hi.report_step h
  | interrupt => exact hi.wait_fails h (.inl rfl)
  | fail => exact hi.wait_fails h (.inr rfl)
  | write i bytes =>
    obtain ⟨f, hf, rfl⟩ := Option.map_eq_some_iff.mp h
    obtain ⟨hw, rfl⟩ := Fifo.write_eq_some.mp hf
    have hs := hi.sound i
    refine hi.change ⟨?_, fun hc => ?_, hs.once⟩ rfl (fun hd => ?_) fun hz => ?_
    · show _ ++ bytes = _ ++ (_ ++ bytes)
      rw [hs.flow, List.append_assoc]
    · exact absurd (hs.closed hc).1 hw.ne'
    · exact List.append_ne_nil_of_left_ne_nil hd bytes
    · exact absurd hz hw.ne'
  | openWriter i =>
    obtain ⟨hw, h⟩ := Option.ite_none_right_eq_some.mp h
    cases h
    have hs := hi.sound i
    refine hi.change ⟨hs.flow, fun hc => ?_, hs.once⟩ rfl (fun hd => hd) fun hz => ?_
    · exact absurd (hs.closed hc).1 hw.ne'
    · exact absurd hz hw.ne'
  | closeWriter i =>
    obtain ⟨f, hf, rfl⟩ := Option.map_eq_some_iff.mp h
    obtain ⟨hw, rfl⟩ := Fifo.closeWriter_eq_some.mp hf
    have hs := hi.sound i
    refine hi.change ⟨hs.flow, fun hc => ?_, hs.once⟩ rfl (fun hd => hd) fun hz => ?_
    · exact absurd (hs.closed hc).1 hw.ne'
    · exact absurd hz hw.ne'

theorem inv_init (h : (system ι).init s) : Inv s := by
  obtain ⟨hfifos, hn, hpc⟩ := h
  refine ⟨fun i => ?_, ?_, ?_, ?_, ?_, ?_, ?_⟩
  · obtain ⟨hclose, hwritten, hread⟩ := hfifos i
    refine ⟨?_, fun hc => absurd hclose (of_decide_eq_false hc), by omega⟩
    rw [hread, List.nil_append, hwritten]
  · have hopen : ∀ i, (s.fifos i).isOpen = true := fun i => decide_eq_true (hfifos i).1
    rw [hn, hpc, countWhere, Finset.filter_true_of_mem fun i _ => hopen i, Finset.card_univ,
      Pc.behind, Nat.cast_zero, add_zero]
  all_goals rw [hpc]
  · intro e he
    cases he
  · exact List.nodup_nil
  · intro evlist hwait
    cases hwait
  · intro hdone
    cases hdone
  · intro hexited
    cases hexited

theorem inv_reachable (h : (system ι).Reachable s) : Inv s :=
  h.invariant (fun _ => inv_init) fun _ _ _ => inv_step

/-! ### What holds in every run -/

omit [DecidableEq ι] in
theorem Inv.all_closed_iff (hi : Inv s) :
    s.numopendfds = s.pc.behind ↔ ∀ i, (s.fifos i).isOpen = false := by
  rw [hi.count]
  constructor
  · intro h i
    have hz : countWhere Watched.isOpen s.fifos = 0 := by omega
    rw [countWhere, Finset.card_eq_zero, Finset.filter_eq_empty_iff] at hz
    exact Bool.not_eq_true _ ▸ hz (Finset.mem_univ i)
  · intro h
    rw [countWhere_eq_zero h, Nat.cast_zero, zero_add]

omit [DecidableEq ι] in
/-- The loop has ended, so that every descriptor is closed. -/
theorem Inv.done_closed (hi : Inv s) (hpc : s.pc = .done) : ∀ i, (s.fifos i).isOpen = false := by
  apply hi.all_closed_iff.mp
  have hcount := hi.count
  have hle := hi.done hpc
  rw [hpc, Pc.behind] at hcount ⊢
  omega

omit [Fintype ι] in
theorem mainStep_test (hpc : s.pc = .test) (hn : s.numopendfds ≤ 0) (r : ReadResult) :
    mainStep s r = some { s with pc := .done } := by
  simp only [mainStep, hpc, gt_iff_lt, if_neg (not_lt.mpr hn)]

omit [Fintype ι] in
theorem mainStep_handle_nil (hpc : s.pc = .handle []) (r : ReadResult) :
    mainStep s r = some { s with pc := .test } := by
  simp only [mainStep, hpc]

omit [Fintype ι] in
theorem mainStep_closed {evlist : List (Event ι)} (hpc : s.pc = .closed evlist) (r : ReadResult) :
    mainStep s r = some { s with numopendfds := s.numopendfds - 1, pc := .handle evlist } := by
  simp only [mainStep, hpc]

/-- The loop ends by itself after a few more steps. -/
def Ends (s : State ι) : Prop :=
  ∃ n ≤ 3, ∃ t, (system ι).run s (.replicate n (.main .eof)) = some t ∧ t.pc = .done

theorem Inv.ends_test (hi : Inv s) (h : ∀ i, (s.fifos i).isOpen = false) (hpc : s.pc = .test) :
    (system ι).run s [.main .eof] = some { s with pc := .done } := by
  have hn := hi.all_closed_iff.mpr h
  rw [hpc, Pc.behind] at hn
  show (mainStep s .eof).bind _ = _
  rw [mainStep_test hpc (by omega)]
  rfl

theorem Inv.ends_handle (hi : Inv s) (h : ∀ i, (s.fifos i).isOpen = false)
    (hpc : s.pc = .handle []) :
    (system ι).run s [.main .eof, .main .eof] = some { s with pc := .done } := by
  have hstep := mainStep_handle_nil hpc .eof
  show (mainStep s .eof).bind _ = _
  rw [hstep, Option.bind_some]
  exact (hi.main_step hstep).ends_test h rfl

/-- Once everything is closed, nothing is left in `evlist` and the loop ends at its next test. -/
theorem Inv.ends (hi : Inv s) (h : ∀ i, (s.fifos i).isOpen = false) : Ends s := by
  have hn := hi.all_closed_iff.mpr h
  -- a descriptor that waits in `evlist` would still be open
  have hnil : s.pc.evlist = [] := by
    apply List.eq_nil_iff_forall_not_mem.mpr
    intro e he
    exact Bool.noConfusion ((hi.valid e he).isOpen.symm.trans (h e.fd))
  cases hpc : s.pc with
  | test => exact ⟨1, by omega, _, hi.ends_test h hpc, rfl⟩
  | wait evlist =>
    have hpos := hi.waits evlist hpc
    rw [hpc, Pc.behind] at hn
    omega
  | handle evlist =>
    rw [hpc, Pc.evlist] at hnil
    subst hnil
    exact ⟨2, by omega, _, hi.ends_handle h hpc, rfl⟩
  | closed evlist =>
    rw [hpc, Pc.evlist] at hnil
    subst hnil
    have hstep := mainStep_closed hpc .eof
    refine ⟨3, by omega, { s with numopendfds := s.numopendfds - 1, pc := .done }, ?_, rfl⟩
    show (mainStep s .eof).bind _ = _
    rw [hstep, Option.bind_some]
    exact (hi.main_step hstep).ends_handle h rfl
  | done => exact ⟨0, by omega, s, rfl, hpc⟩
  | exited =>
    have hpos := hi.exited hpc
    rw [hpc, Pc.behind] at hn
    omega

/-- The loop counts the descriptors it has not closed, a closed one until its `numopendfds--`; it
closes each at most once and after every byte written to its FIFO has been read, and ends exactly
when all are closed. -/
theorem loop_accounting (h : (system ι).Reachable s) :
    s.numopendfds = countWhere Watched.isOpen s.fifos + s.pc.behind ∧
    (∀ i, (s.fifos i).closes ≤ 1 ∧
      ((s.fifos i).isOpen = false → (s.fifos i).read = (s.fifos i).written)) ∧
    (s.pc = .done → ∀ i, (s.fifos i).isOpen = false) ∧
    ((∀ i, (s.fifos i).isOpen = false) → Ends s) := by
  have hi := inv_reachable h
  refine ⟨hi.count, fun i => ⟨(hi.sound i).once, fun hc => ?_⟩, hi.done_closed, hi.ends⟩
  rw [(hi.sound i).flow, ((hi.sound i).closed hc).2, List.append_nil]

/-- Two FIFOs, of which the loop has opened the descriptors. -/
def two : State (Fin 2) := ⟨fun _ => ⟨⟨[], 1⟩, 0, [], []⟩, 2, .test⟩

/-- One FIFO gets a byte, both are hung up, and the loop reads, closes twice and ends. -/
theorem loop_accounting_two : ∃ s, (system (Fin 2)).Reachable s ∧ s.pc = .done ∧
    ∀ i, (s.fifos i).isOpen = false := by
  have hrun : (system (Fin 2)).Reachable _ :=
    System.reachable_of_isSome (S := system (Fin 2)) (s := two) ⟨fun _ => ⟨rfl, rfl, rfl⟩, rfl, rfl⟩
      [.main .eof, .write 0 [65], .report 0, .main .eof, .main (.data 1), .main .eof, .main .eof,
        .closeWriter 0, .closeWriter 1, .report 1, .report 0, .main .eof, .main .eof, .main .eof,
        .main .eof, .main .eof, .main .eof, .main .eof] (by decide)
  exact ⟨_, hrun, rfl, (loop_accounting hrun).2.2.1 rfl⟩

/-- The first descriptor has been closed, and `numopendfds--` comes only now. -/
theorem numopendfds_behind : ∃ s, (system (Fin 2)).Reachable s ∧
    s.numopendfds ≠ countWhere Watched.isOpen s.fifos := by
  have hrun : (system (Fin 2)).Reachable _ :=
    System.reachable_of_isSome (S := system (Fin 2)) (s := two) ⟨fun _ => ⟨rfl, rfl, rfl⟩, rfl, rfl⟩
      [.main .eof, .closeWriter 0, .report 0, .main .eof, .main .eof] (by decide)
  exact ⟨_, hrun, by decide⟩

end LinuxApi.Epoll
