import LinuxApi.SystemV.SharedMemoryPair

/-! The byte counters of the shared-memory transfer. Only the writer stores into
`shmp->cnt`, so its own counter is exact. The reader loads it in the increment of its
loop, after it has given the turn back; its counter is exact as long as the writer's next
store does not come in between. -/

namespace LinuxApi.SharedMemory

open State

/-- The writer is in its loop or past it, with no chunk to add to `bytes`. -/
def WriterPc.counted : WriterPc → Bool
  | .acquire | .read | .finalAcquire | .rmSem | .detach | .rmShm | .done => true
  | _ => false

/-- The writer holds a chunk that it has stored and not added. -/
def WriterPc.adding : WriterPc → Bool
  | .release | .test | .advance => true
  | _ => false

/-- The writer has not begun its loop. -/
def WriterPc.before : WriterPc → Bool
  | .semget | .setWrite | .setRead | .shmget | .shmat => true
  | _ => false

/-- The reader has not begun its loop. -/
def ReaderPc.before : ReaderPc → Bool
  | .semget | .shmget | .shmat => true
  | _ => false

/-- The reader is in its loop or past it, with no chunk to add to `bytes`. -/
def ReaderPc.counted : ReaderPc → Bool
  | .acquire | .test | .write | .detach | .finalRelease | .done => true
  | _ => false

/-- The reader has written a chunk and not added it. -/
def ReaderPc.adding : ReaderPc → Bool
  | .release | .advance => true
  | _ => false

/-- The writer's counter against what it has read. -/
structure WriterCount (s : State) : Prop where
  before : s.wpc.before = true → s.reads = []
  counted : s.wpc.counted = true → s.wbytes = s.reads.flatten.length
  stored : ∀ n, s.wpc = .store n → s.wbytes + n = s.reads.flatten.length ∧ n ≤ bufSize
  adding : s.wpc.adding = true → s.wbytes + s.shm.cnt = s.reads.flatten.length
  fits : s.reads ≠ [] → (∀ n, s.wpc ≠ .store n) → s.shm.cnt ≤ bufSize

/-- The reader's counter against what it has written. -/
structure ReaderCount (s : State) : Prop where
  before : s.rpc.before = true → s.writes = []
  counted : s.rpc.counted = true → s.rbytes = s.writes.flatten.length
  adding : s.rpc.adding = true → s.rbytes + s.shm.cnt = s.writes.flatten.length

variable {input : List UInt8} {s t : State} {p q : Pair}

/-- A step of the writer that leaves the counter and the count. -/
theorem WriterCount.goto (hi : WriterCount s) {pc : WriterPc} {set : Option SemSet} {linked : Bool}
    (hb : pc.before = true → s.wpc.before = true)
    (hc : pc.counted = true → s.wpc.counted = true ∨ s.wpc.adding = true ∧ s.shm.cnt = 0)
    (ha : pc.adding = true → s.wpc.adding = true) (hs : ∀ n, pc ≠ .store n) (hw : ∀ n, s.wpc ≠ .store n) :
    WriterCount { s with set, linked, wpc := pc } where
  before h := hi.before (hb h)
  counted h := by
    rcases hc h with h | ⟨h, hz⟩
    · exact hi.counted h
    · have hadd := hi.adding h
      rw [hz, Int.add_zero] at hadd
      exact hadd
  stored n h := absurd h (hs n)
  adding h := hi.adding (ha h)
  fits h _ := hi.fits h hw

theorem WriterCount.fails (hi : WriterCount s) (hw : ∀ n, s.wpc ≠ .store n) :
    WriterCount (gotoW .exited s) :=
  hi.goto nofun nofun nofun nofun hw

theorem WriterCount.writer_step (hi : WriterCount s) (h : writerStep s = some t) : WriterCount t := by
  unfold writerStep at h
  cases hpc : s.wpc with
  | semget | shmget =>
    simp only [hpc, Option.some.injEq] at h
    exact h ▸ hi.goto (fun _ => by rw [hpc]; rfl) nofun nofun nofun (by rw [hpc]; nofun)
  | setWrite | setRead =>
    simp only [hpc, Option.some.injEq] at h
    rcases State.setval_cases h with ⟨-, rfl⟩ | ⟨S, -, rfl⟩
    · exact hi.fails (by rw [hpc]; nofun)
    · exact hi.goto (fun _ => by rw [hpc]; rfl) nofun nofun nofun (by rw [hpc]; nofun)
  | shmat =>
    have hr := hi.before (by rw [hpc]; rfl)
    simp only [hpc, Option.some.injEq] at h
    exact h ▸ ⟨nofun, fun _ => by rw [hr]; rfl, nofun, nofun, fun h => absurd hr h⟩
  | acquire | finalAcquire =>
    simp only [hpc] at h
    rcases State.semop_cases h with ⟨-, rfl⟩ | ⟨S, T, -, -, rfl⟩
    · exact hi.fails (by rw [hpc]; nofun)
    · exact hi.goto nofun (fun _ => .inl (by rw [hpc]; rfl)) nofun nofun (by rw [hpc]; nofun)
  | store n =>
    obtain ⟨hadd, hn⟩ := hi.stored n hpc
    simp only [hpc, Option.some.injEq] at h
    exact h ▸ ⟨nofun, nofun, nofun, fun _ => hadd, fun _ _ => hn⟩
  | release =>
    simp only [hpc] at h
    rcases State.semop_cases h with ⟨-, rfl⟩ | ⟨S, T, -, -, rfl⟩
    · exact hi.fails (by rw [hpc]; nofun)
    · exact hi.goto nofun nofun (fun _ => by rw [hpc]; rfl) nofun (by rw [hpc]; nofun)
  | test =>
    simp only [hpc, Option.some.injEq] at h
    subst h
    split_ifs with hz
    · exact hi.goto nofun (fun _ => .inr ⟨by rw [hpc]; rfl, hz⟩) nofun nofun (by rw [hpc]; nofun)
    · exact hi.goto nofun nofun (fun _ => by rw [hpc]; rfl) nofun (by rw [hpc]; nofun)
  | advance =>
    have hadd := hi.adding (by rw [hpc]; rfl)
    simp only [hpc, Option.some.injEq] at h
    exact h ▸ ⟨nofun, fun _ => hadd, nofun, nofun, fun h _ => hi.fits h (by rw [hpc]; nofun)⟩
  | rmSem =>
    simp only [hpc, Option.some.injEq] at h
    split_ifs at h <;> subst h
    · exact hi.goto nofun (fun _ => .inl (by rw [hpc]; rfl)) nofun nofun (by rw [hpc]; nofun)
    · exact hi.fails (by rw [hpc]; nofun)
  | detach | rmShm =>
    simp only [hpc, Option.some.injEq] at h
    exact h ▸ hi.goto nofun (fun _ => .inl (by rw [hpc]; rfl)) nofun nofun (by rw [hpc]; nofun)
  | read | done | exited => simp [hpc] at h

/-- A chunk enters the list of reads and waits to be added. -/
theorem WriterCount.read_step (hi : WriterCount s) {r : ReadResult}
    (h : writerRead false s r = some t) : WriterCount t := by
  simp only [writerRead, Option.ite_none_right_eq_some, Bool.false_eq_true, if_false] at h
  obtain ⟨hpc, h⟩ := h
  split_ifs at h
  obtain ⟨⟨chunk, rest⟩, hread, rfl⟩ := Option.map_eq_some_iff.mp h
  have hb := hi.counted (by rw [hpc]; rfl)
  have hlen := readStream_length_le hread
  refine ⟨Bool.noConfusion, Bool.noConfusion, fun n hn => ?_, Bool.noConfusion,
    fun _ h => absurd rfl (h _)⟩
  obtain rfl : (chunk.length : ℤ) = n := WriterPc.store.inj hn
  refine ⟨?_, by omega⟩
  dsimp only
  rw [hb]
  split_ifs with hc
  · rw [hc, List.length_nil, Int.natCast_zero, Int.add_zero]
  · rw [List.flatten_append, List.flatten_singleton, List.length_append, Int.natCast_add]

theorem WriterCount.reader_step (hi : WriterCount s) (h : SharedMemory.readerStep s = some t) :
    WriterCount t := by
  obtain ⟨hw, hr, hb, hm⟩ := readerStep_frame h
  refine ⟨?_, ?_, ?_, ?_, ?_⟩
  · rw [hw, hr]; exact hi.before
  · rw [hw, hr, hb]; exact hi.counted
  · rw [hw, hr, hb]; exact hi.stored
  · rw [hw, hr, hb, hm]; exact hi.adding
  · rw [hw, hr, hm]; exact hi.fits

/-- A step of the reader that leaves the counter and what was written. -/
theorem ReaderCount.goto (hi : ReaderCount s) {pc : ReaderPc} {set : Option SemSet}
    (hb : pc.before = true → s.rpc.before = true) (hc : pc.counted = true → s.rpc.counted = true)
    (ha : pc.adding = true → s.rpc.adding = true) : ReaderCount { s with set, rpc := pc } :=
  ⟨fun h => hi.before (hb h), fun h => hi.counted (hc h), fun h => hi.adding (ha h)⟩

/-- The reader writes as many bytes as the count in the segment says. -/
theorem Inv.data_length (hi : Inv input s) (hw : WriterCount s) (hpc : s.rpc = .write) :
    0 ≤ s.shm.cnt ∧ (s.shm.data.length : ℤ) = s.shm.cnt := by
  obtain ⟨-, -, hu, hcr⟩ := hi.reader_alone (by rw [hpc]; rfl)
  obtain ⟨hpos, hrw⟩ := (hi.filled (WriterPc.setting_of_created hcr)
    (.inr (.inr (.inr hpc)))).resolve_left fun h => hi.nonzero hpc h.1
  have hfits := hw.fits (by rw [hrw]; simp) fun n hn => by rw [hn] at hu; cases hu
  refine ⟨by omega, ?_⟩
  rw [ShmMsg.data, Buffer.load, List.length_take, s.shm.buf.length_eq]
  omega

theorem ReaderCount.reader_step (hi : ReaderCount s) (hinv : s.rpc = .write → Inv input s)
    (hw : WriterCount s) (h : SharedMemory.readerStep s = some t) : ReaderCount t := by
  unfold SharedMemory.readerStep at h
  cases hpc : s.rpc with
  | semget =>
    simp only [hpc, Option.ite_none_right_eq_some, Option.some.injEq] at h
    exact h.2 ▸ hi.goto (fun _ => by rw [hpc]; rfl) nofun nofun
  | shmget =>
    simp only [hpc, Option.some.injEq] at h
    exact h ▸ hi.goto (fun _ => by rw [hpc]; rfl) nofun nofun
  | shmat =>
    have hn := hi.before (by rw [hpc]; rfl)
    simp only [hpc, Option.some.injEq] at h
    exact h ▸ ⟨nofun, fun _ => by rw [hn]; rfl, nofun⟩
  | acquire | finalRelease =>
    simp only [hpc] at h
    rcases State.semop_cases h with ⟨-, rfl⟩ | ⟨S, T, -, -, rfl⟩
    · exact hi.goto nofun nofun nofun
    · exact hi.goto nofun (fun _ => by rw [hpc]; rfl) nofun
  | release =>
    simp only [hpc] at h
    rcases State.semop_cases h with ⟨-, rfl⟩ | ⟨S, T, -, -, rfl⟩
    · exact hi.goto nofun nofun nofun
    · exact hi.goto nofun nofun fun _ => by rw [hpc]; rfl
  | test =>
    simp only [hpc, Option.some.injEq] at h
    subst h
    split_ifs <;> exact hi.goto nofun (fun _ => by rw [hpc]; rfl) nofun
  | write =>
    obtain ⟨hpos, hlen⟩ := (hinv hpc).data_length hw hpc
    have hb := hi.counted (by rw [hpc]; rfl)
    simp only [hpc, Option.some.injEq] at h
    subst h
    refine ⟨nofun, nofun, fun _ => ?_⟩
    dsimp only
    rw [if_pos hpos, List.flatten_append, List.flatten_singleton, List.length_append, hb,
      Int.natCast_add, hlen]
  | advance =>
    have hadd := hi.adding (by rw [hpc]; rfl)
    simp only [hpc, Option.some.injEq] at h
    exact h ▸ ⟨nofun, fun _ => hadd, nofun⟩
  | detach =>
    simp only [hpc, Option.some.injEq] at h
    exact h ▸ hi.goto nofun (fun _ => by rw [hpc]; rfl) nofun
  | done | exited => simp [hpc] at h

/-- A step of the writer that does not change the count under a reader about to add it. -/
theorem ReaderCount.of_writer (hi : ReaderCount s)
    (h : t.rpc = s.rpc ∧ t.writes = s.writes ∧ t.rbytes = s.rbytes)
    (hcnt : s.rpc.adding = true → t.shm.cnt = s.shm.cnt) : ReaderCount t := by
  obtain ⟨hr, hw, hb⟩ := h
  refine ⟨?_, ?_, fun ha => ?_⟩
  · rw [hr, hw]; exact hi.before
  · rw [hr, hw, hb]; exact hi.counted
  · rw [hr] at ha
    rw [hw, hb, hcnt ha]
    exact hi.adding ha

/-! ### Runs in which the load comes first -/

/-- The writer does not store another count between the reader's release of `WRITE_SEM` and
the load in its increment. -/
def cntKept (p : Pair) : Action → Bool
  | .writer =>
    match p.state.wpc with
    | .store n => p.state.rpc ≠ .advance ∨ n = p.state.shm.cnt
    | _ => true
  | _ => true

/-- The writer's counter and the reader's are those of a pair that runs in that way. -/
structure Counted (input : List UInt8) (p : Pair) : Prop where
  pair : PairInv input p
  writer : WriterCount p.state
  reader : ReaderCount p.state

theorem writerCount_init (h : (system false input).init s) : WriterCount s := by
  obtain ⟨-, hr, -, hw, -⟩ := h
  refine ⟨fun _ => hr, ?_, ?_, ?_, fun h => absurd hr h⟩
  all_goals rw [hw]; nofun

theorem readerCount_init (h : (system false input).init s) : ReaderCount s := by
  obtain ⟨-, -, hw, -, hr⟩ := h
  refine ⟨fun _ => hw, ?_, ?_⟩
  all_goals rw [hr]; nofun

/-- While the reader has a chunk to add, a store of the writer can only come after the
reader's release. -/
theorem PairInv.advance_of_store (hi : PairInv input p) {n : ℤ} (hw : p.state.wpc = .store n)
    (ha : p.state.rpc.adding = true) : p.state.rpc = .advance := by
  cases hpc : p.state.rpc with
  | advance => rfl
  | release =>
    obtain ⟨hinv, -⟩ := hi.of_turn (by rw [hpc]; rfl) (by rw [hpc]; nofun)
    have hu := (hinv.reader_alone (by rw [hpc]; rfl)).2.2.1
    rw [hw] at hu
    cases hu
  | semget | shmget | shmat | acquire | test | write | detach | finalRelease | done | exited =>
    rw [hpc] at ha
    cases ha

theorem Counted.writer_step (hi : Counted input p) (hk : cntKept p .writer = true)
    (h : writerStep p.state = some t) : Counted input { p with state := t } := by
  obtain ⟨hr, hw, hb, hcnt⟩ := writerStep_frame h
  refine ⟨hi.pair.writer_step h, hi.writer.writer_step h, hi.reader.of_writer ⟨hr, hw, hb⟩ fun ha => ?_⟩
  rcases hcnt with hcnt | hs
  · exact hcnt
  · have hadv := hi.pair.advance_of_store hs ha
    simp only [cntKept, hs, hadv, ne_eq, not_true_eq_false, false_or, decide_eq_true_eq] at hk
    exact hk

theorem Counted.read_step (hi : Counted input p) {r : ReadResult}
    (h : writerRead false p.state r = some t) : Counted input { p with state := t } := by
  refine ⟨hi.pair.read_step h, hi.writer.read_step h, ?_⟩
  simp only [writerRead, Option.ite_none_right_eq_some, Bool.false_eq_true, if_false] at h
  obtain ⟨-, h⟩ := h
  split_ifs at h
  obtain ⟨c, -, rfl⟩ := Option.map_eq_some_iff.mp h
  exact hi.reader.of_writer ⟨rfl, rfl, rfl⟩ fun _ => rfl

theorem WriterCount.gotoR (hi : WriterCount s) (pc : ReaderPc) : WriterCount (gotoR pc s) :=
  ⟨hi.before, hi.counted, hi.stored, hi.adding, hi.fits⟩

theorem Counted.reader_step (hi : Counted input p) (h : p.readerStep = some q) : Counted input q := by
  have hq := hi.pair.reader_step h
  rcases Pair.readerStep_cases h with ⟨hpc, he⟩ | he | hs
  · refine ⟨hq, he ▸ hi.writer.gotoR _, he ▸ hi.reader.goto (fun _ => ?_) nofun nofun⟩
    rw [hpc]
    rfl
  · exact ⟨hq, he ▸ hi.writer.gotoR _, he ▸ hi.reader.goto nofun nofun nofun⟩
  · have hinv : p.state.rpc = .write → Inv input p.state := fun hpc =>
      (hi.pair.of_turn (by rw [hpc]; rfl) (by rw [hpc]; nofun)).1
    exact ⟨hq, hi.writer.reader_step hs, hi.reader.reader_step hinv hi.writer hs⟩

theorem counted_reachable (h : ((pairSystem input).under cntKept).Reachable p) : Counted input p := by
  refine h.invariant ?_ ?_
  · intro p hp
    exact ⟨pairInv_init hp, writerCount_init hp.1, readerCount_init hp.1⟩
  · intro p a q hi hst
    obtain ⟨hk, hst⟩ := System.under_step_eq_some.mp hst
    cases a with
    | writer =>
      obtain ⟨t, ht, rfl⟩ := Option.map_eq_some_iff.mp hst
      exact hi.writer_step hk ht
    | read r =>
      obtain ⟨t, ht, rfl⟩ := Option.map_eq_some_iff.mp hst
      exact hi.read_step ht
    | reader => exact hi.reader_step hst

/-- The writer has left its loop. -/
def WriterPc.left : WriterPc → Bool
  | .finalAcquire | .rmSem | .detach | .rmShm | .done => true
  | _ => false

theorem WriterPc.counted_of_left {pc : WriterPc} (h : pc.left = true) : pc.counted = true := by
  cases pc <;> first | rfl | cases h

/-- In every run in which no store of another count comes between the reader's release and
its load, both counters end with the number of bytes transferred. -/
theorem counters_exact (h : ((pairSystem input).under cntKept).Reachable p)
    (hw : p.state.wpc.left = true) (hr : p.state.rpc.Left) :
    p.state.wbytes = p.state.writes.flatten.length ∧
      p.state.rbytes = p.state.writes.flatten.length := by
  have hi := counted_reachable h
  have hcounted : p.state.rpc.counted = true := by
    cases hpc : p.state.rpc <;> rw [hpc] at hr <;> first | rfl | exact hr.elim
  have hturn : p.state.rpc.waits = false ∧ p.state.rpc ≠ .exited := by
    constructor
    · cases hpc : p.state.rpc <;> rw [hpc] at hr <;> first | rfl | exact hr.elim
    · rintro hx
      rw [hx] at hr
      exact hr
  have hsame := ((hi.pair.of_turn hturn.1 hturn.2).1.left hr).1
  rw [← hsame]
  exact ⟨hi.writer.counted (WriterPc.counted_of_left hw), hsame ▸ hi.reader.counted hcounted⟩

/-- Two bytes in one chunk, which the reader adds before the writer stores its end mark. -/
theorem counters_exact_two_bytes :
    ∃ p, ((pairSystem [104, 105]).under cntKept).Reachable p ∧ p.state.wbytes = 2 ∧
      p.state.rbytes = 2 := by
  have hr := System.reachable_of_run (S := (pairSystem [104, 105]).under cntKept)
    (s := ⟨⟨none, ⟨0, .zero _⟩, false, [104, 105], [], [], .semget, .semget, 0, 0⟩, false, false⟩)
    ⟨⟨rfl, rfl, rfl, rfl, rfl⟩, rfl, rfl, rfl, rfl⟩
    ([.replicate 4 .writer, .replicate 3 .reader, .replicate 2 .writer, [.read (.data 2)],
      .replicate 4 .writer, .replicate 5 .reader, [.writer, .read .eof], .replicate 3 .writer,
      .replicate 4 .reader].flatten) rfl
  exact ⟨_, hr, counters_exact hr rfl trivial⟩

/-- One byte, with the writer's end mark stored before the reader's load: the reader's counter
ends at zero. -/
theorem reader_counter_misses_chunk :
    ∃ p, (pairSystem [104]).Reachable p ∧ p.state.wpc.left = true ∧ p.state.rpc.Left ∧
      p.state.writes.flatten = [104] ∧ p.state.wbytes = 1 ∧ p.state.rbytes = 0 := by
  have hr := System.reachable_of_run (S := pairSystem [104])
    (s := ⟨⟨none, ⟨0, .zero _⟩, false, [104], [], [], .semget, .semget, 0, 0⟩, false, false⟩)
    ⟨⟨rfl, rfl, rfl, rfl, rfl⟩, rfl, rfl, rfl, rfl⟩
    ([.replicate 4 .writer, .replicate 3 .reader, .replicate 2 .writer, [.read (.data 1)],
      .replicate 4 .writer, .replicate 4 .reader, [.writer, .read .eof], .replicate 3 .writer,
      .replicate 3 .reader].flatten) rfl
  exact ⟨_, hr, rfl, trivial, rfl, rfl, rfl⟩

end LinuxApi.SharedMemory
