import LinuxApi.SystemV.SharedMemoryTeardown

/-! The shared-memory transfer with both processes started at once. The reader looks for
the objects whenever it gets to it; if they are not there it never takes a turn, and then
the writer waits for ever. The writer removes the objects only after the reader's last
call, whatever the order of the steps. -/

namespace LinuxApi.SharedMemory

open State

/-- Both processes, and whether the reader's `semget` and `shmget` have found the objects. -/
structure Pair where
  state : State
  semFound : Bool
  shmFound : Bool

/-- The steps of a reader that does not wait for the writer. Without the set its `semop`
fails, and without the segment it dies at the load of `shmp->cnt`. -/
def Pair.readerStep (p : Pair) : Option Pair :=
  match p.state.rpc with
  | .semget => some { p with state := gotoR .shmget p.state, semFound := p.state.set.isSome }
  | .shmget => some { p with state := gotoR .shmat p.state, shmFound := p.state.linked }
  | .acquire =>
    if p.semFound then (SharedMemory.readerStep p.state).map fun s => { p with state := s }
    else some { p with state := gotoR .exited p.state }
  | .test =>
    if p.shmFound then (SharedMemory.readerStep p.state).map fun s => { p with state := s }
    else some { p with state := gotoR .exited p.state }
  | _ => (SharedMemory.readerStep p.state).map fun s => { p with state := s }

/-- One writer and one reader on `input`, with no set and no segment left by anyone; the
writer's `read` does not fail. What a pair that was killed has left behind is no initial
state: a reader may take a turn on an old set before the writer sets it up anew. -/
def pairSystem (input : List UInt8) : System Pair Action where
  init p := (system false input).init p.state ∧ p.state.set = none ∧ p.state.linked = false ∧
    p.semFound = false ∧ p.shmFound = false
  step p
    | .reader => p.readerStep
    | a => ((system false input).step p.state a).map fun s => { p with state := s }

/-- The reader has not yet taken its first turn. -/
def ReaderPc.waits : ReaderPc → Bool
  | .semget | .shmget | .shmat | .acquire => true
  | _ => false

/-- A reader at `pc` stands for one at `rpc`: outside its turn it does not matter how far
its start has come, and a reader that died stands where it was. -/
def ReaderPc.StandsFor (pc rpc : ReaderPc) : Prop :=
  pc = rpc ∨ pc.waits = true ∧ rpc.waits = true ∨
    rpc = .exited ∧ (pc.waits = true ∨ pc = .test)

/-- The pair is a transfer whose reader waited for the writer. -/
structure PairInv (input : List UInt8) (p : Pair) : Prop where
  stands : ∃ pc, ReaderPc.StandsFor pc p.state.rpc ∧ Inv input { p.state with rpc := pc } ∧
    Closing { p.state with rpc := pc }
  fresh : p.state.wpc.created = false → p.state.semval readSem = 0
  none_yet : p.state.wpc = .semget → p.state.set = none
  found : p.semFound = true → p.state.wpc ≠ .semget

variable {input : List UInt8} {s t : State} {p q : Pair}

/-! ### What the writer does not see -/

/-- The writer's steps do not depend on where the reader is. -/
theorem writerStep_rpc (h : writerStep s = some t) (pc : ReaderPc) :
    writerStep { s with rpc := pc } = some { t with rpc := pc } := by
  unfold writerStep at h ⊢
  cases hpc : s.wpc with
  | acquire | release | finalAcquire =>
    simp only [hpc] at h ⊢
    rcases State.semop_cases h with ⟨hS, rfl⟩ | ⟨S, T, hS, hT, rfl⟩
    · simp only [State.semop, hS, State.gotoW]
    · simp only [State.semop, hS, hT, Option.map_some, State.gotoW]
  | setWrite | setRead =>
    simp only [hpc, Option.some.injEq] at h ⊢
    rcases State.setval_cases h with ⟨hS, rfl⟩ | ⟨S, hS, rfl⟩ <;> simp only [State.setval, State.gotoW, hS]
  | test =>
    simp only [hpc, Option.some.injEq] at h ⊢
    exact h ▸ rfl
  | rmSem =>
    simp only [hpc, Option.some.injEq] at h ⊢
    split_ifs at h ⊢ <;> exact h ▸ rfl
  | semget | shmget | shmat | store n | advance | detach | rmShm =>
    simp only [hpc, Option.some.injEq] at h ⊢
    exact h ▸ rfl
  | read | done | exited => simp [hpc] at h

theorem writerRead_rpc {r : ReadResult} (h : writerRead false s r = some t) (pc : ReaderPc) :
    writerRead false { s with rpc := pc } r = some { t with rpc := pc } := by
  simp only [writerRead, Option.ite_none_right_eq_some, Bool.false_eq_true, if_false] at h ⊢
  obtain ⟨hpc, h⟩ := h
  refine ⟨hpc, ?_⟩
  split_ifs at h ⊢
  obtain ⟨c, hread, rfl⟩ := Option.map_eq_some_iff.mp h
  exact Option.map_eq_some_iff.mpr ⟨c, hread, rfl⟩

/-- What the writer's steps leave alone; the count changes at its store only. -/
theorem writerStep_frame (h : writerStep s = some t) :
    t.rpc = s.rpc ∧ t.writes = s.writes ∧ t.rbytes = s.rbytes ∧
      (t.shm.cnt = s.shm.cnt ∨ s.wpc = .store t.shm.cnt) := by
  unfold writerStep at h
  cases hpc : s.wpc with
  | acquire | release | finalAcquire =>
    simp only [hpc] at h
    rcases State.semop_cases h with ⟨-, rfl⟩ | ⟨S, T, -, -, rfl⟩
    · exact ⟨rfl, rfl, rfl, .inl rfl⟩
    · exact ⟨rfl, rfl, rfl, .inl rfl⟩
  | setWrite | setRead =>
    simp only [hpc, Option.some.injEq] at h
    rcases State.setval_cases h with ⟨-, rfl⟩ | ⟨S, -, rfl⟩ <;> exact ⟨rfl, rfl, rfl, .inl rfl⟩
  | rmSem =>
    simp only [hpc, Option.some.injEq] at h
    split_ifs at h <;> exact h ▸ ⟨rfl, rfl, rfl, .inl rfl⟩
  | store n =>
    simp only [hpc, Option.some.injEq] at h
    exact h ▸ ⟨rfl, rfl, rfl, .inr rfl⟩
  | semget | shmget | shmat | test | advance | detach | rmShm =>
    simp only [hpc, Option.some.injEq] at h
    exact h ▸ ⟨rfl, rfl, rfl, .inl rfl⟩
  | read | done | exited => simp [hpc] at h

/-- What the reader's steps leave alone. -/
theorem readerStep_frame (h : SharedMemory.readerStep s = some t) :
    t.wpc = s.wpc ∧ t.reads = s.reads ∧ t.wbytes = s.wbytes ∧ t.shm = s.shm := by
  unfold SharedMemory.readerStep at h
  cases hpc : s.rpc with
  | semget =>
    simp only [hpc, Option.ite_none_right_eq_some, Option.some.injEq] at h
    exact h.2 ▸ ⟨rfl, rfl, rfl, rfl⟩
  | acquire | release | finalRelease =>
    simp only [hpc] at h
    rcases State.semop_cases h with ⟨-, rfl⟩ | ⟨S, T, -, -, rfl⟩
    · exact ⟨rfl, rfl, rfl, rfl⟩
    · exact ⟨rfl, rfl, rfl, rfl⟩
  | shmget | shmat | test | write | advance | detach =>
    simp only [hpc, Option.some.injEq] at h
    exact h ▸ ⟨rfl, rfl, rfl, rfl⟩
  | done | exited => simp [hpc] at h

/-- Nothing is claimed of `READ_SEM` once the writer has executed its `shmget`. -/
theorem fresh_of_created (h : s.wpc.created = true) :
    (s.wpc.created = false → s.semval readSem = 0) ∧ s.wpc ≠ .semget := by
  constructor
  · intro hf
    rw [h] at hf
    cases hf
  · intro hs
    rw [hs] at h
    cases h

/-- Before its `shmget` the writer leaves `READ_SEM` at zero in a set it has created. -/
theorem writerStep_fresh (h : writerStep s = some t) (hs : s.wpc = .semget → s.set = none)
    (hf : s.wpc.created = false → s.semval readSem = 0) :
    (t.wpc.created = false → t.semval readSem = 0) ∧ t.wpc ≠ .semget := by
  unfold writerStep at h
  cases hpc : s.wpc with
  | semget =>
    simp only [hpc, Option.some.injEq, hs hpc] at h
    exact h ▸ ⟨fun _ => rfl, WriterPc.noConfusion⟩
  | setWrite =>
    have hz := hf (by rw [hpc]; rfl)
    simp only [hpc, Option.some.injEq] at h
    rcases State.setval_cases h with ⟨-, rfl⟩ | ⟨S, hS, rfl⟩
    · exact fresh_of_created rfl
    · refine ⟨fun _ => ?_, WriterPc.noConfusion⟩
      simpa [State.semval, State.gotoW, hS, writeSem, readSem] using hz
  | setRead =>
    simp only [hpc, Option.some.injEq] at h
    rcases State.setval_cases h with ⟨-, rfl⟩ | ⟨S, -, rfl⟩
    · exact fresh_of_created rfl
    · exact ⟨fun _ => by simp [State.semval, State.gotoW], WriterPc.noConfusion⟩
  | acquire | release | finalAcquire =>
    simp only [hpc] at h
    rcases State.semop_cases h with ⟨-, rfl⟩ | ⟨S, T, -, -, rfl⟩
    · exact fresh_of_created rfl
    · exact fresh_of_created rfl
  | test =>
    simp only [hpc, Option.some.injEq] at h
    subst h
    split_ifs <;> exact fresh_of_created rfl
  | rmSem =>
    simp only [hpc, Option.some.injEq] at h
    split_ifs at h <;> exact h ▸ fresh_of_created rfl
  | shmget | shmat | store n | advance | detach | rmShm =>
    simp only [hpc, Option.some.injEq] at h
    exact h ▸ fresh_of_created rfl
  | read | done | exited => simp [hpc] at h

/-- The reader of a pair starts without waiting, dies, or takes the steps of one that
waited. -/
theorem Pair.readerStep_cases (h : p.readerStep = some q) :
    p.state.rpc = .semget ∧ q.state = gotoR .shmget p.state ∨ q.state = gotoR .exited p.state ∨
      SharedMemory.readerStep p.state = some q.state := by
  unfold Pair.readerStep at h
  cases hpc : p.state.rpc with
  | semget =>
    simp only [hpc, Option.some.injEq] at h
    exact .inl ⟨rfl, h ▸ rfl⟩
  | shmget =>
    simp only [hpc, Option.some.injEq] at h
    refine .inr (.inr ?_)
    simp only [SharedMemory.readerStep, hpc, ← h]
  | acquire | test =>
    simp only [hpc] at h
    split_ifs at h
    · obtain ⟨s, hs, rfl⟩ := Option.map_eq_some_iff.mp h
      exact .inr (.inr hs)
    · exact .inr (.inl (Option.some.inj h ▸ rfl))
  | shmat | write | release | advance | detach | finalRelease | done | exited =>
    simp only [hpc] at h
    obtain ⟨s, hs, rfl⟩ := Option.map_eq_some_iff.mp h
    exact .inr (.inr hs)

/-! ### The reader in its place -/

theorem ReaderPc.StandsFor.waits {pc rpc : ReaderPc} (h : pc.StandsFor rpc)
    (hr : rpc.waits = true) : pc.waits = true := by
  rcases h with rfl | ⟨h, -⟩ | ⟨rfl, -⟩
  · exact hr
  · exact h
  · cases hr

theorem ReaderPc.StandsFor.eq {pc rpc : ReaderPc} (h : pc.StandsFor rpc) (hr : rpc.waits = false)
    (hx : rpc ≠ .exited) : pc = rpc := by
  rcases h with rfl | ⟨-, h⟩ | ⟨h, -⟩
  · rfl
  · rw [hr] at h
    cases h
  · exact absurd h hx

theorem ReaderPc.idle_of_waits {pc : ReaderPc} (h : pc.waits = true) : pc.idle = true := by
  cases pc <;> first | rfl | cases h

/-- Whoever has taken a turn is itself. -/
theorem PairInv.of_turn (hi : PairInv input p) (hr : p.state.rpc.waits = false)
    (hx : p.state.rpc ≠ .exited) : Inv input p.state ∧ Closing p.state := by
  obtain ⟨pc, hs, hinv, hc⟩ := hi.stands
  obtain rfl := hs.eq hr hx
  exact ⟨hinv, hc⟩

/-- The count of bytes the reader keeps plays no part. -/
theorem Inv.set_rbytes (hi : Inv input s) (b : ℤ) : Inv input { s with rbytes := b } where
  conserve := hi.conserve
  behind := hi.behind
  early := hi.early
  exists_set := hi.exists_set
  alive := hi.alive
  opened := hi.opened
  turn := hi.turn
  emptied := hi.emptied
  stored := hi.stored
  filled := hi.filled
  nonzero := hi.nonzero
  left := hi.left

theorem Closing.set_rbytes (hc : Closing s) (b : ℤ) : Closing { s with rbytes := b } :=
  ⟨hc.opening, hc.going, hc.ended, hc.left, hc.closing⟩

/-- The reader's start, which the writer does not see. -/
theorem PairInv.reader_waits (hi : PairInv input p) {rpc : ReaderPc} {b : ℤ} {semFound shmFound : Bool}
    (hr : p.state.rpc.waits = true) (hrpc : rpc.waits = true ∨ rpc = .exited)
    (hf : semFound = true → p.state.wpc ≠ .semget) :
    PairInv input ⟨{ p.state with rpc := rpc, rbytes := b }, semFound, shmFound⟩ := by
  obtain ⟨pc, hs, hinv, hc⟩ := hi.stands
  have hw := hs.waits hr
  refine ⟨⟨pc, ?_, hinv.set_rbytes b, hc.set_rbytes b⟩, hi.fresh, hi.none_yet, hf⟩
  rcases hrpc with h | h
  · exact .inr (.inl ⟨hw, h⟩)
  · exact .inr (.inr ⟨h, .inl hw⟩)

/-- Past its first turn the reader runs as one that waited. -/
theorem PairInv.reader_turns (hi : PairInv input p) (hr : p.state.rpc.waits = false)
    (hx : p.state.rpc ≠ .exited) (h : SharedMemory.readerStep p.state = some t) :
    PairInv input { p with state := t } := by
  obtain ⟨hinv, hc⟩ := hi.of_turn hr hx
  have hcr := hinv.created_of_ne (fun h => by rw [h] at hr; cases hr)
  have hwpc := (readerStep_frame h).1
  refine ⟨⟨t.rpc, .inl rfl, hinv.reader_step h, hc.reader_step hinv h⟩, fun h => ?_, fun h => ?_, ?_⟩
  · exact absurd ((congrArg WriterPc.created hwpc).symm.trans h) (by rw [hcr]; decide)
  · rw [← hwpc, show t.wpc = _ from h] at hcr
    cases hcr
  · rw [hwpc]
    exact hi.found

/-- A reader that found the set takes a turn only after the writer has opened the transfer. -/
theorem PairInv.reader_acquires (hi : PairInv input p) (hpc : p.state.rpc = .acquire)
    (h : SharedMemory.readerStep p.state = some t) : PairInv input { p with state := t } := by
  obtain ⟨pc, hs, hinv, hc⟩ := hi.stands
  have hw := hs.waits (by rw [hpc]; rfl)
  simp only [SharedMemory.readerStep, hpc] at h
  rcases State.semop_cases h with ⟨-, rfl⟩ | ⟨S, T, hS, hT, rfl⟩
  · exact ⟨⟨pc, .inr (.inr ⟨rfl, .inl hw⟩), hinv, hc⟩, hi.fresh, hi.none_yet, hi.found⟩
  · have hcr : p.state.wpc.created = true := by
      by_contra hcr
      have hz := hi.fresh (Bool.eq_false_iff.mpr hcr)
      have hone := (SemSet.semop_acquire hT).1
      simp only [State.semval, hS, Option.elim_some] at hz
      omega
    refine ⟨⟨.test, .inl rfl, hinv.reader_takes hS hT hcr,
      hc.reader_takes hinv hS hT hcr (ReaderPc.idle_of_waits hw)⟩, fun h => ?_, fun h => ?_, hi.found⟩
    · exact absurd (hcr.symm.trans h) (by decide)
    · rw [show p.state.wpc = _ from h] at hcr
      cases hcr

theorem PairInv.reader_step (hi : PairInv input p) (h : p.readerStep = some q) : PairInv input q := by
  unfold Pair.readerStep at h
  cases hpc : p.state.rpc with
  | semget =>
    simp only [hpc, Option.some.injEq] at h
    refine h ▸ hi.reader_waits (by rw [hpc]; rfl) (.inl rfl) fun hset hw => ?_
    rw [hi.none_yet hw] at hset
    cases hset
  | shmget =>
    simp only [hpc, Option.some.injEq] at h
    exact h ▸ hi.reader_waits (by rw [hpc]; rfl) (.inl rfl) hi.found
  | shmat =>
    simp only [hpc, SharedMemory.readerStep, Option.map_some, Option.some.injEq] at h
    exact h ▸ hi.reader_waits (by rw [hpc]; rfl) (.inl rfl) hi.found
  | acquire =>
    simp only [hpc] at h
    split_ifs at h
    · obtain ⟨s, hs, rfl⟩ := Option.map_eq_some_iff.mp h
      exact hi.reader_acquires hpc hs
    · exact Option.some.inj h ▸ hi.reader_waits (by rw [hpc]; rfl) (.inr rfl) hi.found
  | test =>
    have hr : p.state.rpc.waits = false := by rw [hpc]; rfl
    have hx : p.state.rpc ≠ .exited := by rw [hpc]; nofun
    simp only [hpc] at h
    split_ifs at h
    · obtain ⟨s, hs, rfl⟩ := Option.map_eq_some_iff.mp h
      exact hi.reader_turns hr hx hs
    · -- the load of `shmp->cnt` kills the reader where it is
      obtain ⟨hinv, hc⟩ := hi.of_turn hr hx
      have hsame : { p.state with rpc := .test } = p.state := by rw [← hpc]
      refine Option.some.inj h ▸ ⟨⟨.test, .inr (.inr ⟨rfl, .inr rfl⟩), ?_, ?_⟩, hi.fresh, hi.none_yet,
        hi.found⟩
      · exact hsame ▸ hinv
      · exact hsame ▸ hc
  | write | release | advance | detach | finalRelease =>
    simp only [hpc] at h
    obtain ⟨s, hs, rfl⟩ := Option.map_eq_some_iff.mp h
    exact hi.reader_turns (by rw [hpc]; rfl) (by rw [hpc]; nofun) hs
  | done | exited => simp [hpc, SharedMemory.readerStep] at h

theorem PairInv.writer_step (hi : PairInv input p) (h : writerStep p.state = some t) :
    PairInv input { p with state := t } := by
  obtain ⟨pc, hs, hinv, hc⟩ := hi.stands
  have hstep := writerStep_rpc h pc
  obtain ⟨hf, hn⟩ := writerStep_fresh h hi.none_yet hi.fresh
  exact ⟨⟨pc, (writerStep_frame h).1.symm ▸ hs, hinv.writer_step hstep, hc.writer_step hinv hstep⟩, hf,
    fun h => absurd h hn, fun _ => hn⟩

theorem PairInv.read_step (hi : PairInv input p) {r : ReadResult}
    (h : writerRead false p.state r = some t) : PairInv input { p with state := t } := by
  obtain ⟨pc, hs, hinv, hc⟩ := hi.stands
  have hstep := writerRead_rpc h pc
  have hsame := h
  simp only [writerRead, Option.ite_none_right_eq_some, Bool.false_eq_true, if_false] at hsame
  obtain ⟨hpc, hsame⟩ := hsame
  split_ifs at hsame
  obtain ⟨c, -, rfl⟩ := Option.map_eq_some_iff.mp hsame
  exact ⟨⟨pc, hs, hinv.read_step hstep, hc.read_step hstep⟩, Bool.noConfusion, WriterPc.noConfusion,
    fun _ => WriterPc.noConfusion⟩

theorem pairInv_init (h : (pairSystem input).init p) : PairInv input p := by
  obtain ⟨hinit, hset, -, hf, -⟩ := h
  have hrpc := hinit.2.2.2.2
  refine ⟨⟨.semget, .inl hrpc.symm, ?_, ?_⟩, fun _ => ?_, fun _ => hset, fun h => ?_⟩
  · exact hrpc ▸ inv_init hinit
  · exact hrpc ▸ closing_init hinit
  · rw [State.semval, hset]
    rfl
  · rw [hf] at h
    cases h

theorem pairInv_reachable (h : (pairSystem input).Reachable p) : PairInv input p := by
  refine h.invariant (fun _ => pairInv_init) ?_
  intro p a q hi hst
  cases a with
  | writer =>
    obtain ⟨t, ht, rfl⟩ := Option.map_eq_some_iff.mp hst
    exact hi.writer_step ht
  | read r =>
    obtain ⟨t, ht, rfl⟩ := Option.map_eq_some_iff.mp hst
    exact hi.read_step ht
  | reader => exact hi.reader_step hst

/-- The reader's next call is a `semop`. -/
def ReaderPc.semops : ReaderPc → Bool
  | .acquire | .release | .finalRelease => true
  | _ => false

/-- The set exists from its creation until the writer closes the transfer. -/
theorem Inv.set_of_open (hi : Inv input s) (hw : s.wpc ≠ .semget) (hc : s.wpc.closing = false) :
    s.set.isSome := by
  apply hi.exists_set
  cases hpc : s.wpc <;> rw [hpc] at hw hc <;> first | rfl | exact absurd rfl hw | cases hc

/-- The writer comes to its `semctl(IPC_RMID)`, and so to its `shmctl(IPC_RMID)`, only when
the reader has done its `shmdt` and its last `semop`; a `semop` of the reader on a set it
has found never finds the set removed. -/
theorem removal_after_reader (h : (pairSystem input).Reachable p) :
    (p.state.wpc.closing = true → p.state.rpc = .done) ∧
    (p.semFound = true → p.state.rpc.semops = true → p.state.set.isSome) := by
  have hi := pairInv_reachable h
  obtain ⟨pc, hs, hinv, hc⟩ := hi.stands
  have hdone : p.state.wpc.closing = true → p.state.rpc = .done := by
    intro hw
    have hpc : pc = .done := hc.closing hw
    subst hpc
    rcases hs with hs | ⟨hs, -⟩ | ⟨-, hs | hs⟩
    · exact hs.symm
    · cases hs
    · cases hs
    · cases hs
  refine ⟨hdone, fun hf hr => hinv.set_of_open (hi.found hf) (Bool.eq_false_iff.mpr fun hw => ?_)⟩
  rw [hdone hw] at hr
  cases hr

/-- Two bytes in one chunk, from both starts to the removal of the segment. -/
theorem removal_after_reader_two_bytes :
    ∃ p, (pairSystem [104, 105]).Reachable p ∧ p.state.wpc = .done ∧ p.state.rpc = .done := by
  have hr := System.reachable_of_run (S := pairSystem [104, 105])
    (s := ⟨⟨none, ⟨0, .zero _⟩, false, [104, 105], [], [], .semget, .semget, 0, 0⟩, false, false⟩)
    ⟨⟨rfl, rfl, rfl, rfl, rfl⟩, rfl, rfl, rfl, rfl⟩
    ([.replicate 4 .writer, .replicate 3 .reader, .replicate 2 .writer, [.read (.data 2)],
      .replicate 4 .writer, .replicate 5 .reader, [.writer, .read .eof], .replicate 3 .writer,
      .replicate 4 .reader, .replicate 4 .writer].flatten) rfl
  exact ⟨_, hr, rfl, (removal_after_reader hr).1 rfl⟩

end LinuxApi.SharedMemory
