import LinuxApi.SystemV.SharedMemory

/-! The shared-memory transfer is exact. One unit of turn moves through
`WRITE_SEM`, the writer, `READ_SEM` and the reader; where it lies decides whether
the segment is being filled, holds a chunk, is being written out or is empty. The
invariant is kept by every step of both processes as long as the writer's `read`
does not fail. -/

namespace LinuxApi.SharedMemory

/-! ### The turn -/

/-- The writer stores into the segment. -/
def WriterPc.Storing : WriterPc → Prop
  | .read | .store _ => True
  | _ => False

/-- The reader is between its acquire of `READ_SEM` and its next release of `WRITE_SEM`. -/
def ReaderPc.Holding : ReaderPc → Prop
  | .test | .write | .release | .detach | .finalRelease => True
  | _ => False

/-- The reader has left its loop. -/
def ReaderPc.Left : ReaderPc → Prop
  | .detach | .finalRelease | .done => True
  | _ => False

/-- Units of the turn the writer holds. -/
def WriterPc.units : WriterPc → ℕ
  | .read | .store _ | .release | .rmSem | .detach | .rmShm | .done => 1
  | _ => 0

/-- Units of the turn the reader holds. -/
def ReaderPc.units : ReaderPc → ℕ
  | .test | .write | .release | .detach | .finalRelease => 1
  | _ => 0

/-- The writer is still setting the semaphores. -/
def WriterPc.setting : WriterPc → Bool
  | .semget | .setWrite | .setRead => true
  | _ => false

/-- The writer goes on to use the set. -/
def WriterPc.needsSet : WriterPc → Bool
  | .semget | .detach | .rmShm | .done => false
  | _ => true

theorem ReaderPc.units_of_holding {pc : ReaderPc} (h : pc.Holding) : pc.units = 1 := by
  cases pc <;> first | rfl | exact h.elim

theorem WriterPc.setting_of_created {pc : WriterPc} (h : pc.created = true) : pc.setting = false := by
  cases pc <;> first | rfl | cases h

theorem WriterPc.setting_of_units {pc : WriterPc} (h : pc.units = 1) : pc.setting = false := by
  cases pc <;> first | rfl | cases h

namespace State

/-- The value of one semaphore; a removed set has none. -/
def semval (s : State) (num : ℕ) : ℕ := s.set.elim 0 (·.semval num)

/-- A stored count of `n` stands for the one chunk read but not yet written, or for
the end of the input. -/
def InFlight (s : State) (n : ℤ) : Prop :=
  (n = 0 ∧ s.reads = s.writes ∧ s.stdin = []) ∨
    (0 < n ∧ s.reads = s.writes ++ [s.shm.buf.load n.toNat])

end State

/-- One unit of turn lies in one of the semaphores or with one of the processes, and
where it lies decides what the segment holds. -/
structure Inv (input : List UInt8) (s : State) : Prop where
  conserve : s.reads.flatten ++ s.stdin = input
  behind : s.writes <+: s.reads
  early : s.wpc.created = false → s.reads = s.writes ∧ s.rpc = .semget
  exists_set : s.wpc.needsSet = true → s.set.isSome
  alive : s.wpc ≠ .exited
  opened : s.wpc = .setRead → s.semval writeSem = 1
  turn : s.wpc.setting = false →
    s.semval writeSem + s.semval readSem + s.wpc.units + s.rpc.units = 1
  emptied : s.wpc.setting = false → s.semval writeSem = 1 ∨ s.wpc = .read ∨ s.rpc = .release →
    s.reads = s.writes
  stored : ∀ n, s.wpc = .store n → s.InFlight n
  filled : s.wpc.setting = false →
    s.wpc = .release ∨ s.semval readSem = 1 ∨ s.rpc = .test ∨ s.rpc = .write →
    s.InFlight s.shm.cnt
  nonzero : s.rpc = .write → s.shm.cnt ≠ 0
  left : s.rpc.Left → s.reads = s.writes ∧ s.stdin = []

variable {input : List UInt8} {s t : State}

/-- A `semop` on an existing set does not fail. -/
theorem semop_of_isSome {num : ℕ} {op : ℤ} {next fail : State → State}
    (h : s.semop num op next fail = some t) (hs : s.set.isSome) :
    ∃ S T : SemSet, s.set = some S ∧ S.semop num op = some T ∧ t = next { s with set := some T } := by
  rcases State.semop_cases h with ⟨hn, -⟩ | h
  · rw [hn] at hs
    cases hs
  · exact h

/-- While the writer holds the turn, both semaphores are zero and the reader waits. -/
theorem Inv.writer_alone (hi : Inv input s) (hw : s.wpc.units = 1) :
    s.semval writeSem = 0 ∧ s.semval readSem = 0 ∧ s.rpc.units = 0 := by
  have ht := hi.turn (WriterPc.setting_of_units hw)
  omega

/-- A step of the writer that touches neither the semaphores nor the data. -/
theorem Inv.writer_local (hi : Inv input s) {pc : WriterPc} (b : ℤ) (l : Bool)
    (hs : s.wpc.setting = false) (hc : pc.created = true) (hu : pc.units = s.wpc.units)
    (hn : pc.needsSet = true → s.wpc.needsSet = true) (hx : pc ≠ .exited)
    (hr : pc ≠ .read) (hst : ∀ n, pc ≠ .store n) (hrel : pc ≠ .release) :
    Inv input { s with wpc := pc, wbytes := b, linked := l } where
  conserve := hi.conserve
  behind := hi.behind
  early h := absurd (hc.symm.trans h) (by decide)
  exists_set h := hi.exists_set (hn h)
  alive := hx
  opened h := by simp only at h; subst h; cases hc
  turn _ := by simpa only [State.semval, hu] using hi.turn hs
  emptied _ h := hi.emptied hs (h.imp_right fun h => h.resolve_left hr |> .inr)
  stored n h := absurd h (hst n)
  filled _ h := hi.filled hs (.inr (h.resolve_left hrel))
  nonzero := hi.nonzero
  left := hi.left

/-- The writer takes the turn from `WRITE_SEM`: nothing is in flight. -/
theorem Inv.writer_takes (hi : Inv input s) {S T : SemSet} {pc : WriterPc} (hS : s.set = some S)
    (hT : S.semop writeSem (-1) = some T) (hs : s.wpc.setting = false)
    (hpc : pc = .read ∨ pc = .rmSem) :
    Inv input { s with set := some T, wpc := pc } := by
  obtain ⟨hw, hr, -⟩ := SemSet.semop_acquire hT
  have hr := hr readSem (by decide)
  have ht := hi.turn hs
  have he : s.reads = s.writes := by
    refine hi.emptied hs (.inl ?_)
    simp only [State.semval, hS, Option.elim_some] at *; omega
  have hz : T.semval readSem = 0 ∧ s.rpc.units = 0 ∧ T.semval writeSem = 0 := by
    simp only [State.semval, hS, Option.elim_some] at *; omega
  have hpu : pc.units = 1 := by rcases hpc with rfl | rfl <;> rfl
  refine ⟨hi.conserve, hi.behind, ?_, fun _ => rfl, ?_, ?_, fun _ => ?_, fun _ _ => he, ?_, ?_,
    hi.nonzero, hi.left⟩
  · rcases hpc with rfl | rfl <;> nofun
  · rcases hpc with rfl | rfl <;> nofun
  · rcases hpc with rfl | rfl <;> nofun
  · simp [State.semval, hz, hpu]
  · rcases hpc with rfl | rfl <;> nofun
  · rintro - (h | h | h | h)
    · rcases hpc with rfl | rfl <;> cases h
    · simp [State.semval, hz.1] at h
    · have := hz.2.1; simp only at h; rw [h] at this; cases this
    · have := hz.2.1; simp only at h; rw [h] at this; cases this

/-- `semget` and the `SETVAL` of `WRITE_SEM`: still before the first turn. -/
theorem Inv.writer_sets (hi : Inv input s) {S : SemSet} {pc : WriterPc}
    (hs : s.wpc.created = false) (hpc : pc = .setWrite ∨ pc = .setRead ∧ S.semval writeSem = 1) :
    Inv input { s with set := some S, wpc := pc } where
  conserve := hi.conserve
  behind := hi.behind
  early _ := hi.early hs
  exists_set _ := rfl
  alive := by rcases hpc with rfl | ⟨rfl, -⟩ <;> nofun
  opened h := by
    rcases hpc with rfl | ⟨-, hS⟩
    · cases h
    · exact hS
  turn h := by rcases hpc with rfl | ⟨rfl, -⟩ <;> cases h
  emptied h := by rcases hpc with rfl | ⟨rfl, -⟩ <;> cases h
  stored n h := by rcases hpc with rfl | ⟨rfl, -⟩ <;> cases h
  filled h := by rcases hpc with rfl | ⟨rfl, -⟩ <;> cases h
  nonzero := hi.nonzero
  left := hi.left

/-- With the `SETVAL` of `READ_SEM` the one unit lies in `WRITE_SEM`. -/
theorem Inv.writer_opens (hi : Inv input s) {S : SemSet} (hS : s.set = some S)
    (hpc : s.wpc = .setRead) :
    Inv input { s with set := some (S.setval readSem 0), wpc := .shmget } := by
  obtain ⟨he, hr⟩ := hi.early (by rw [hpc]; rfl)
  have hw : S.semval writeSem = 1 := by simpa [State.semval, hS] using hi.opened hpc
  refine ⟨hi.conserve, hi.behind, fun _ => ⟨he, hr⟩, fun _ => rfl, nofun, nofun, fun _ => ?_,
    fun _ _ => he, nofun, ?_, hi.nonzero, hi.left⟩
  · simp only [State.semval, Option.elim_some, SemSet.setval_semval_self,
      SemSet.setval_semval_of_ne S 0 (show writeSem ≠ readSem by decide), hw, hr]
    rfl
  · rintro - (h | h | h | h)
    · cases h
    · simp [State.semval] at h
    · simp only [hr] at h; cases h
    · simp only [hr] at h; cases h

/-- `read` puts the next chunk of the input, or nothing at its end, into the segment. -/
theorem Inv.writer_reads (hi : Inv input s) {r : ReadResult} {chunk rest : List UInt8}
    (hpc : s.wpc = .read) (hr : r ≠ .error)
    (h : readStream bufSize s.stdin r = some (chunk, rest)) :
    Inv input { s with
      shm.buf := s.shm.buf.store chunk
      stdin := rest
      reads := if chunk = [] then s.reads else s.reads ++ [chunk]
      wpc := .store chunk.length } := by
  obtain ⟨hw0, hr0, hu⟩ := hi.writer_alone (by rw [hpc]; rfl)
  have he := hi.emptied (by rw [hpc]; rfl) (.inr (.inl hpc))
  have happ := readStream_append h
  have hturn := hi.turn (by rw [hpc]; rfl)
  refine ⟨?_, ?_, nofun, fun _ => hi.exists_set (by rw [hpc]; rfl), nofun, nofun, fun _ => ?_, ?_, ?_, ?_,
    hi.nonzero, ?_⟩
  · simp only
    rw [← hi.conserve, ← happ]
    split_ifs with hc
    · rw [hc, List.nil_append]
    · simp
  · simp only
    split_ifs
    · exact hi.behind
    · exact hi.behind.trans (List.prefix_append _ _)
  · rw [hpc] at hturn; exact hturn
  · rintro - (h | h | h)
    · rw [State.semval] at hw0; simp [State.semval, hw0] at h
    · cases h
    · simp only at h; rw [h] at hu; cases hu
  · rintro n hn
    obtain rfl : (chunk.length : ℤ) = n := WriterPc.store.inj hn
    simp only [State.InFlight, Int.toNat_natCast, Buffer.load_store _ (readStream_length_le h)]
    by_cases hc : chunk = []
    · have := readStream_eq_nil h hr hc
      rw [this, hc, List.nil_append] at happ
      exact .inl ⟨by simp [hc], by simp [hc, he], happ⟩
    · exact .inr ⟨by have := List.length_pos_of_ne_nil hc; omega, by simp [hc, he]⟩
  · rintro - (h | h | h | h)
    · cases h
    · rw [State.semval] at hr0; simp [State.semval, hr0] at h
    · simp only at h; rw [h] at hu; cases hu
    · simp only at h; rw [h] at hu; cases hu
  · intro hl
    obtain ⟨hrw, hnil⟩ := hi.left hl
    rw [hnil] at happ
    obtain ⟨rfl, rfl⟩ := List.append_eq_nil_iff.mp happ
    exact ⟨by simpa using hrw, rfl⟩

/-- The store into `shmp->cnt` publishes what the `read` left in the buffer. -/
theorem Inv.writer_stores (hi : Inv input s) {n : ℤ} (hpc : s.wpc = .store n) :
    Inv input { s with shm.cnt := n, wpc := .release } := by
  obtain ⟨hw0, hr0, hu⟩ := hi.writer_alone (by rw [hpc]; rfl)
  have hst := hi.stored n hpc
  have hturn := hi.turn (by rw [hpc]; rfl)
  refine ⟨hi.conserve, hi.behind, nofun, fun _ => hi.exists_set (by rw [hpc]; rfl), nofun, nofun,
    fun _ => by rw [hpc] at hturn; exact hturn, ?_, nofun, fun _ _ => hst, ?_, hi.left⟩
  · rintro - (h | h | h)
    · rw [State.semval] at hw0; simp [State.semval, hw0] at h
    · cases h
    · simp only at h; rw [h] at hu; cases hu
  · intro h; simp only at h; rw [h] at hu; cases hu

/-- The writer passes the turn to `READ_SEM`. -/
theorem Inv.writer_gives (hi : Inv input s) {S T : SemSet} (hS : s.set = some S)
    (hT : S.semop readSem 1 = some T) (hpc : s.wpc = .release) :
    Inv input { s with set := some T, wpc := .test } := by
  obtain ⟨hw0, hr0, hu⟩ := hi.writer_alone (by rw [hpc]; rfl)
  obtain ⟨hr, hw, -⟩ := SemSet.semop_release hT
  have hw := hw writeSem (by decide)
  have hfl := hi.filled (by rw [hpc]; rfl) (.inl hpc)
  simp only [State.semval, hS, Option.elim_some] at hw0 hr0
  refine ⟨hi.conserve, hi.behind, nofun, fun _ => rfl, nofun, nofun, fun _ => ?_, ?_, nofun,
    fun _ _ => hfl, hi.nonzero, hi.left⟩
  · simp [State.semval, hw, hr, hw0, hr0, hu, WriterPc.units]
  · rintro - (h | h | h)
    · simp [State.semval, hw, hw0] at h
    · cases h
    · simp only at h; rw [h] at hu; cases hu

/-- Removing the set while holding the turn strands nobody who holds a unit. -/
theorem Inv.writer_removes (hi : Inv input s) (hpc : s.wpc = .rmSem) :
    Inv input { s with set := none, wpc := .detach } := by
  obtain ⟨hw0, hr0, hu⟩ := hi.writer_alone (by rw [hpc]; rfl)
  refine ⟨hi.conserve, hi.behind, nofun, nofun, nofun, nofun, fun _ => ?_, ?_, nofun, ?_,
    hi.nonzero, hi.left⟩
  · simp [State.semval, hu, WriterPc.units]
  · rintro - (h | h | h)
    · simp [State.semval] at h
    · cases h
    · simp only at h; rw [h] at hu; cases hu
  · rintro - (h | h | h | h)
    · cases h
    · simp [State.semval] at h
    · simp only at h; rw [h] at hu; cases hu
    · simp only at h; rw [h] at hu; cases hu

theorem Inv.writer_step (hi : Inv input s) (h : writerStep s = some t) : Inv input t := by
  unfold writerStep at h
  cases hpc : s.wpc with
  | semget =>
    simp only [hpc, Option.some.injEq] at h
    exact h ▸ hi.writer_sets (by rw [hpc]; rfl) (.inl rfl)
  | setWrite =>
    obtain ⟨S, hS⟩ := Option.isSome_iff_exists.mp (hi.exists_set (by rw [hpc]; rfl))
    simp only [hpc, State.setval, hS, Option.some.injEq] at h
    exact h ▸ hi.writer_sets (by rw [hpc]; rfl) (.inr ⟨rfl, S.setval_semval_self _ _⟩)
  | setRead =>
    obtain ⟨S, hS⟩ := Option.isSome_iff_exists.mp (hi.exists_set (by rw [hpc]; rfl))
    simp only [hpc, State.setval, hS, Option.some.injEq] at h
    exact h ▸ hi.writer_opens hS hpc
  | shmget =>
    simp only [hpc, Option.some.injEq] at h
    exact h ▸ hi.writer_local _ _ (by rw [hpc]; rfl) rfl (by rw [hpc]; rfl) (by rw [hpc]; exact id)
      nofun nofun nofun nofun
  | shmat =>
    simp only [hpc, Option.some.injEq] at h
    exact h ▸ hi.writer_local _ _ (by rw [hpc]; rfl) rfl (by rw [hpc]; rfl) (by rw [hpc]; exact id)
      nofun nofun nofun nofun
  | acquire =>
    simp only [hpc] at h
    obtain ⟨S, T, hS, hT, rfl⟩ := semop_of_isSome h (hi.exists_set (by rw [hpc]; rfl))
    exact hi.writer_takes hS hT (by rw [hpc]; rfl) (.inl rfl)
  | store n =>
    simp only [hpc, Option.some.injEq] at h
    exact h ▸ hi.writer_stores hpc
  | release =>
    simp only [hpc] at h
    obtain ⟨S, T, hS, hT, rfl⟩ := semop_of_isSome h (hi.exists_set (by rw [hpc]; rfl))
    exact hi.writer_gives hS hT hpc
  | test =>
    simp only [hpc, Option.some.injEq] at h
    subst h
    split_ifs <;> exact hi.writer_local _ _ (by rw [hpc]; rfl) rfl (by rw [hpc]; rfl)
      (by rw [hpc]; exact id) nofun nofun nofun nofun
  | advance =>
    simp only [hpc, Option.some.injEq] at h
    exact h ▸ hi.writer_local _ _ (by rw [hpc]; rfl) rfl (by rw [hpc]; rfl) (by rw [hpc]; exact id)
      nofun nofun nofun nofun
  | finalAcquire =>
    simp only [hpc] at h
    obtain ⟨S, T, hS, hT, rfl⟩ := semop_of_isSome h (hi.exists_set (by rw [hpc]; rfl))
    exact hi.writer_takes hS hT (by rw [hpc]; rfl) (.inr rfl)
  | rmSem =>
    simp only [hpc, Option.some.injEq] at h
    rw [if_pos (hi.exists_set (by rw [hpc]; rfl))] at h
    exact h ▸ hi.writer_removes hpc
  | detach =>
    simp only [hpc, Option.some.injEq] at h
    exact h ▸ hi.writer_local _ _ (by rw [hpc]; rfl) rfl (by rw [hpc]; rfl) (by rw [hpc]; exact id)
      nofun nofun nofun nofun
  | rmShm =>
    simp only [hpc, Option.some.injEq] at h
    exact h ▸ hi.writer_local _ _ (by rw [hpc]; rfl) rfl (by rw [hpc]; rfl) (by rw [hpc]; exact id)
      nofun nofun nofun nofun
  | read | done | exited => simp [hpc] at h

/-- While the reader holds the turn, both semaphores are zero and the writer waits. -/
theorem Inv.reader_alone (hi : Inv input s) (hr : s.rpc.units = 1) :
    s.semval writeSem = 0 ∧ s.semval readSem = 0 ∧ s.wpc.units = 0 ∧ s.wpc.created = true := by
  have hc : s.wpc.created = true := by
    by_contra hc
    rw [(hi.early (Bool.eq_false_iff.mpr hc)).2] at hr
    cases hr
  have ht := hi.turn (WriterPc.setting_of_created hc)
  exact ⟨by omega, by omega, by omega, hc⟩

/-- A step of the reader that touches neither the semaphores nor the data. -/
theorem Inv.reader_local (hi : Inv input s) {pc : ReaderPc} (b : ℤ) (hc : s.wpc.created = true)
    (hu : pc.units = s.rpc.units) (ht : pc ≠ .test) (hrel : pc ≠ .release)
    (hw : pc = .write → s.rpc = .test ∧ s.shm.cnt ≠ 0)
    (hl : pc.Left → s.reads = s.writes ∧ s.stdin = []) :
    Inv input { s with rpc := pc, rbytes := b } where
  conserve := hi.conserve
  behind := hi.behind
  early h := absurd (hc.symm.trans h) (by decide)
  exists_set := hi.exists_set
  alive := hi.alive
  opened := hi.opened
  turn h := by simpa only [State.semval, hu] using hi.turn h
  emptied h he := hi.emptied h (he.imp_right fun he => .inl (he.resolve_right hrel))
  stored := hi.stored
  filled h hf := by
    rcases hf with hf | hf | hf | hf
    · exact hi.filled h (.inl hf)
    · exact hi.filled h (.inr (.inl hf))
    · exact absurd hf ht
    · exact hi.filled h (.inr (.inr (.inl (hw hf).1)))
  nonzero h := (hw h).2
  left := hl

/-- The reader takes the turn from `READ_SEM`. -/
theorem Inv.reader_takes (hi : Inv input s) {S T : SemSet} (hS : s.set = some S)
    (hT : S.semop readSem (-1) = some T) (hc : s.wpc.created = true) :
    Inv input { s with set := some T, rpc := .test } := by
  obtain ⟨hr, hw, -⟩ := SemSet.semop_acquire hT
  have hw := hw writeSem (by decide)
  have hs := WriterPc.setting_of_created hc
  have ht := hi.turn hs
  have hfl : s.InFlight s.shm.cnt := hi.filled hs (.inr (.inl (by
    simp only [State.semval, hS, Option.elim_some] at *; omega)))
  have hz : T.semval writeSem = 0 ∧ T.semval readSem = 0 ∧ s.wpc.units = 0 := by
    simp only [State.semval, hS, Option.elim_some] at *; omega
  refine ⟨hi.conserve, hi.behind, fun h => absurd (hc.symm.trans h) (by decide), fun _ => rfl,
    hi.alive, ?_, fun _ => ?_, ?_, hi.stored, fun _ _ => hfl, nofun, nofun⟩
  · intro h; simp only at h; rw [h] at hc; cases hc
  · simp [State.semval, hz, ReaderPc.units]
  · rintro - (h | h | h)
    · simp [State.semval, hz.1] at h
    · have := hz.2.2; simp only at h; rw [h] at this; cases this
    · cases h

/-- The reader writes the one chunk in flight, whole. -/
theorem Inv.reader_writes (hi : Inv input s) (hpc : s.rpc = .write) :
    Inv input { s with
      writes := if 0 ≤ s.shm.cnt then s.writes ++ [s.shm.data] else s.writes
      rpc := .release } := by
  obtain ⟨hw0, hr0, hu, hc⟩ := hi.reader_alone (by rw [hpc]; rfl)
  have hs := WriterPc.setting_of_created hc
  have ht := hi.turn hs
  obtain ⟨hpos, hrw⟩ : 0 < s.shm.cnt ∧ s.reads = s.writes ++ [s.shm.data] :=
    (hi.filled hs (.inr (.inr (.inr hpc)))).resolve_left fun h => hi.nonzero hpc h.1
  rw [if_pos (by omega)]
  refine ⟨hi.conserve, ?_, fun h => absurd (hc.symm.trans h) (by decide), hi.exists_set, hi.alive,
    hi.opened, fun _ => by rw [hpc] at ht; exact ht, fun _ _ => hrw, ?_, ?_, nofun, nofun⟩
  · exact hrw ▸ List.prefix_rfl
  · intro n h; simp only at h; rw [h] at hu; cases hu
  · rintro - (h | h | h | h)
    · simp only at h; rw [h] at hu; cases hu
    · rw [State.semval] at hr0; simp [State.semval, hr0] at h
    · cases h
    · cases h

/-- The reader passes the turn back to `WRITE_SEM`, after a chunk or after the end. -/
theorem Inv.reader_gives (hi : Inv input s) {S T : SemSet} {pc : ReaderPc} (hS : s.set = some S)
    (hT : S.semop writeSem 1 = some T)
    (hpc : s.rpc = .release ∧ pc = .advance ∨ s.rpc = .finalRelease ∧ pc = .done) :
    Inv input { s with set := some T, rpc := pc } := by
  obtain ⟨hw0, hr0, hu, hc⟩ := hi.reader_alone (by rcases hpc with ⟨h, -⟩ | ⟨h, -⟩ <;> rw [h] <;> rfl)
  have hs := WriterPc.setting_of_created hc
  obtain ⟨hw, hr, -⟩ := SemSet.semop_release hT
  have hr := hr readSem (by decide)
  simp only [State.semval, hS, Option.elim_some] at hw0 hr0
  have he : s.reads = s.writes := by
    rcases hpc with ⟨h, -⟩ | ⟨h, -⟩
    · exact hi.emptied hs (.inr (.inr h))
    · exact (hi.left (by rw [h]; trivial)).1
  have hpu : pc.units = 0 := by rcases hpc with ⟨-, rfl⟩ | ⟨-, rfl⟩ <;> rfl
  refine ⟨hi.conserve, hi.behind, fun h => absurd (hc.symm.trans h) (by decide), fun _ => rfl,
    hi.alive, ?_, fun _ => ?_, fun _ _ => he, hi.stored, ?_, ?_, ?_⟩
  · intro h; simp only at h; rw [h] at hc; cases hc
  · simp [State.semval, hw, hr, hw0, hr0, hu, hpu]
  · rintro - (h | h | h | h)
    · simp only at h; rw [h] at hu; cases hu
    · simp [State.semval, hr, hr0] at h
    · rcases hpc with ⟨-, rfl⟩ | ⟨-, rfl⟩ <;> cases h
    · rcases hpc with ⟨-, rfl⟩ | ⟨-, rfl⟩ <;> cases h
  · intro h; rcases hpc with ⟨-, rfl⟩ | ⟨-, rfl⟩ <;> cases h
  · intro h
    rcases hpc with ⟨-, rfl⟩ | ⟨hf, -⟩
    · exact h.elim
    · exact hi.left (by rw [hf]; trivial)

/-- Past its `semget` the reader runs beside a writer that has opened the turn. -/
theorem Inv.created_of_ne (hi : Inv input s) (h : s.rpc ≠ .semget) : s.wpc.created = true := by
  by_contra hc
  exact h (hi.early (Bool.eq_false_iff.mpr hc)).2

/-- A reader whose `semop` fails leaves without the turn. -/
theorem Inv.reader_fails (hi : Inv input s) (hc : s.wpc.created = true)
    (hu : s.rpc.units = 0) : Inv input { s with rpc := .exited } :=
  hi.reader_local s.rbytes hc hu.symm nofun nofun nofun nofun

theorem Inv.set_of_reader (hi : Inv input s) (hr : s.rpc.units = 1) : s.set.isSome := by
  obtain ⟨-, -, hu, hc⟩ := hi.reader_alone hr
  apply hi.exists_set
  have := hi.alive
  revert hu hc
  cases s.wpc <;> simp [WriterPc.units, WriterPc.created, WriterPc.needsSet]

theorem Inv.reader_step (hi : Inv input s) (h : readerStep s = some t) : Inv input t := by
  unfold readerStep at h
  cases hpc : s.rpc with
  | semget =>
    simp only [hpc, Option.ite_none_right_eq_some, Option.some.injEq] at h
    exact h.2 ▸ hi.reader_local s.rbytes h.1 (by rw [hpc]; rfl) nofun nofun nofun nofun
  | shmget =>
    simp only [hpc, Option.some.injEq] at h
    exact h ▸ hi.reader_local s.rbytes (hi.created_of_ne (by rw [hpc]; nofun)) (by rw [hpc]; rfl)
      nofun nofun nofun nofun
  | shmat =>
    simp only [hpc, Option.some.injEq] at h
    exact h ▸ hi.reader_local _ (hi.created_of_ne (by rw [hpc]; nofun)) (by rw [hpc]; rfl)
      nofun nofun nofun nofun
  | acquire =>
    have hc := hi.created_of_ne (by rw [hpc]; nofun)
    simp only [hpc] at h
    rcases State.semop_cases h with ⟨-, rfl⟩ | ⟨S, T, hS, hT, rfl⟩
    · exact hi.reader_fails hc (by rw [hpc]; rfl)
    · exact hi.reader_takes hS hT hc
  | test =>
    have hc := hi.created_of_ne (by rw [hpc]; nofun)
    have hfl := hi.filled (WriterPc.setting_of_created hc) (.inr (.inr (.inl hpc)))
    simp only [hpc, Option.some.injEq] at h
    subst h
    split_ifs with hz
    · have hend := hfl.resolve_right fun h => absurd hz (by omega)
      exact hi.reader_local s.rbytes hc (by rw [hpc]; rfl) nofun nofun nofun fun _ => hend.2
    · exact hi.reader_local s.rbytes hc (by rw [hpc]; rfl) nofun nofun (fun _ => ⟨hpc, hz⟩) nofun
  | write =>
    simp only [hpc, Option.some.injEq] at h
    exact h ▸ hi.reader_writes hpc
  | release =>
    simp only [hpc] at h
    obtain ⟨S, T, hS, hT, rfl⟩ := semop_of_isSome h (hi.set_of_reader (by rw [hpc]; rfl))
    exact hi.reader_gives hS hT (.inl ⟨hpc, rfl⟩)
  | advance =>
    simp only [hpc, Option.some.injEq] at h
    exact h ▸ hi.reader_local _ (hi.created_of_ne (by rw [hpc]; nofun)) (by rw [hpc]; rfl)
      nofun nofun nofun nofun
  | detach =>
    simp only [hpc, Option.some.injEq] at h
    exact h ▸ hi.reader_local s.rbytes (hi.created_of_ne (by rw [hpc]; nofun)) (by rw [hpc]; rfl)
      nofun nofun nofun fun _ => hi.left (by rw [hpc]; trivial)
  | finalRelease =>
    simp only [hpc] at h
    obtain ⟨S, T, hS, hT, rfl⟩ := semop_of_isSome h (hi.set_of_reader (by rw [hpc]; rfl))
    exact hi.reader_gives hS hT (.inr ⟨hpc, rfl⟩)
  | done | exited => simp [hpc] at h

theorem Inv.read_step (hi : Inv input s) {r : ReadResult} (h : writerRead false s r = some t) :
    Inv input t := by
  simp only [writerRead, Option.ite_none_right_eq_some, Bool.false_eq_true, if_false] at h
  obtain ⟨hpc, h⟩ := h
  split_ifs at h with hr
  obtain ⟨⟨chunk, rest⟩, hread, rfl⟩ := Option.map_eq_some_iff.mp h
  exact hi.writer_reads hpc hr hread

theorem inv_init (h : (system false input).init s) : Inv input s := by
  obtain ⟨rfl, hr, hw, hwpc, hrpc⟩ := h
  refine ⟨by simp [hr], by simp [hr, hw], fun _ => ⟨by rw [hr, hw], hrpc⟩, ?_, ?_, ?_, ?_, ?_, ?_, ?_,
    ?_, ?_⟩
  all_goals simp [hwpc, hrpc, WriterPc.needsSet, WriterPc.setting, ReaderPc.Left]

theorem inv_reachable (h : (system false input).Reachable s) : Inv input s :=
  h.invariant (fun _ => inv_init) fun s a t hi hst => by
    cases a with
    | writer => exact hi.writer_step hst
    | read r => exact hi.read_step hst
    | reader => exact hi.reader_step hst

/-- When no call fails, the writer stores into the segment only while the reader is
outside its turn, the bytes written are always a prefix of the input, and a reader
that has left its loop has written the whole input, chunk by chunk. -/
theorem transfer_exact (h : (system false input).Reachable s) :
    ¬ (s.wpc.Storing ∧ s.rpc.Holding) ∧
      s.writes.flatten <+: input ∧
      (s.rpc.Left → s.writes.flatten = input ∧ s.writes = s.reads) := by
  have hi := inv_reachable h
  refine ⟨fun ⟨hw, hr⟩ => ?_, ?_, fun hl => ?_⟩
  · have hu := (hi.reader_alone (ReaderPc.units_of_holding hr)).2.2.1
    revert hw hu
    cases s.wpc <;> simp [WriterPc.Storing, WriterPc.units]
  · obtain ⟨later, hl⟩ := hi.behind
    rw [← hi.conserve, ← hl, List.flatten_append, List.append_assoc]
    exact List.prefix_append _ _
  · obtain ⟨hrw, hnil⟩ := hi.left hl
    have hc := hi.conserve
    rw [hnil, List.append_nil, hrw] at hc
    exact ⟨hc, hrw.symm⟩

/-- Two bytes in one chunk: both processes run to the end of the reader's loop. -/
theorem transfer_exact_two_bytes :
    ∃ s, (system false [104, 105]).Reachable s ∧ s.rpc.Left ∧ s.writes.flatten = [104, 105] := by
  have hr := System.reachable_of_run (S := system false [104, 105])
    (s := ⟨none, ⟨0, .zero _⟩, false, [104, 105], [], [], .semget, .semget, 0, 0⟩)
    ⟨rfl, rfl, rfl, rfl, rfl⟩
    ([.replicate 6 .writer, [.read (.data 2)], .replicate 4 .writer, .replicate 8 .reader,
      [.writer, .read .eof], .replicate 3 .writer, .replicate 4 .reader].flatten) rfl
  exact ⟨_, hr, trivial, ((transfer_exact hr).2.2 trivial).1⟩

end LinuxApi.SharedMemory
