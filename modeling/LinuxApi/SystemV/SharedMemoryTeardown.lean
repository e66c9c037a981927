import LinuxApi.SystemV.SharedMemoryTransfer

/-! The end of the shared-memory transfer. The count of zero that the writer stores at the
end of its input passes to the reader like a chunk, and the unit of turn comes back only by
the reader's last `semop`; the writer takes it before it removes the objects. -/

namespace LinuxApi.SharedMemory

/-- The writer has taken the turn for the last time and removes the objects. -/
def WriterPc.closing : WriterPc → Bool
  | .rmSem | .detach | .rmShm | .done => true
  | _ => false

/-- The writer has stored the end mark and passed it on. -/
def WriterPc.ending : WriterPc → Bool
  | .test | .finalAcquire | .rmSem | .detach | .rmShm | .done => true
  | _ => false

/-- The writer has the turn in its loop, or none is in play yet. -/
def WriterPc.plain : WriterPc → Bool
  | .semget | .setWrite | .setRead | .read | .store _ | .release => true
  | _ => false

namespace State

/-- The end mark lies in the segment for the reader to take, or the reader has taken it. -/
def EndMarked (s : State) : Prop :=
  s.shm.cnt = 0 ∧ (s.semval readSem = 1 ∨ s.rpc = .test ∨ s.rpc.Left)

end State

/-- What the end mark and the last unit of turn say about both processes. -/
structure Closing (s : State) : Prop where
  opening : s.wpc = .shmget ∨ s.wpc = .shmat → s.semval writeSem = 1
  going : s.wpc = .acquire ∨ s.wpc = .advance → s.semval readSem = 1 ∨ s.rpc = .test → s.shm.cnt ≠ 0
  ended : s.wpc = .finalAcquire ∨ s.wpc = .test ∧ s.shm.cnt = 0 → s.EndMarked
  left : s.rpc.Left → s.shm.cnt = 0 ∧ s.wpc.ending = true
  closing : s.wpc.closing = true → s.rpc = .done

variable {input : List UInt8} {s t : State}

theorem WriterPc.closing_of_plain {pc : WriterPc} (h : pc.plain = true) : pc.closing = false := by
  cases pc <;> first | rfl | cases h

/-- The writer is at one place only. -/
theorem WriterPc.elsewhere {pc a b c d : WriterPc} (hp : pc = a ∨ pc = b) (h : pc = c ∨ pc = d)
    (hne : ∀ x ∈ [a, b], x ∉ [c, d]) : False := by
  have hleft : pc ∈ [a, b] := by simpa using hp
  have hright : pc ∈ [c, d] := by simpa using h
  exact hne pc hleft hright

/-- Of a writer that is not closing, with a reader that goes on, only where it is matters. -/
theorem closing_of_live (hc : s.wpc.closing = false) (hl : ¬ s.rpc.Left)
    (opening : s.wpc = .shmget ∨ s.wpc = .shmat → s.semval writeSem = 1)
    (going : s.wpc = .acquire ∨ s.wpc = .advance →
      s.semval readSem = 1 ∨ s.rpc = .test → s.shm.cnt ≠ 0)
    (ended : s.wpc = .finalAcquire ∨ s.wpc = .test ∧ s.shm.cnt = 0 → s.EndMarked) : Closing s := by
  refine ⟨opening, going, ended, fun h => absurd h hl, fun h => ?_⟩
  rw [hc] at h
  cases h

/-- Nothing is claimed of a writer that has the turn, except that the reader goes on. -/
theorem closing_of_plain (hp : s.wpc.plain = true) (hl : ¬ s.rpc.Left) : Closing s := by
  refine closing_of_live (WriterPc.closing_of_plain hp) hl (fun h => ?_) (fun h => ?_) (fun h => ?_)
  · rcases h with h | h <;> rw [h] at hp <;> cases hp
  · rcases h with h | h <;> rw [h] at hp <;> cases hp
  · rcases h with h | ⟨h, -⟩ <;> rw [h] at hp <;> cases hp

/-- Before its loop the writer has only to have put the unit into `WRITE_SEM`. -/
theorem closing_of_opening (hp : s.wpc = .shmget ∨ s.wpc = .shmat) (hw : s.semval writeSem = 1)
    (hl : ¬ s.rpc.Left) : Closing s := by
  have hc : s.wpc.closing = false := by
    rcases hp with hp | hp <;> rw [hp] <;> rfl
  refine closing_of_live hc hl (fun _ => hw) (fun h => ?_) (fun h => ?_)
  · exact (WriterPc.elsewhere hp h (by decide)).elim
  · exact (WriterPc.elsewhere hp (h.imp_right And.left) (by decide)).elim

/-- A writer that goes round its loop has a reader that has not taken an end mark. -/
theorem closing_of_going (hp : s.wpc = .acquire ∨ s.wpc = .advance)
    (hg : s.semval readSem = 1 ∨ s.rpc = .test → s.shm.cnt ≠ 0) (hl : ¬ s.rpc.Left) : Closing s := by
  have hc : s.wpc.closing = false := by
    rcases hp with hp | hp <;> rw [hp] <;> rfl
  refine closing_of_live hc hl (fun h => ?_) (fun _ => hg) (fun h => ?_)
  · exact (WriterPc.elsewhere hp h (by decide)).elim
  · exact (WriterPc.elsewhere hp (h.imp_right And.left) (by decide)).elim

/-- A writer at its test or behind it has passed on what it has stored. -/
theorem closing_of_passed (hp : s.wpc = .test ∨ s.wpc = .finalAcquire)
    (he : s.wpc = .finalAcquire ∨ s.wpc = .test ∧ s.shm.cnt = 0 → s.EndMarked)
    (hl : s.rpc.Left → s.shm.cnt = 0) : Closing s := by
  refine ⟨fun h => ?_, fun h => ?_, he, fun h => ⟨hl h, ?_⟩, fun h => ?_⟩
  · exact (WriterPc.elsewhere hp h (by decide)).elim
  · exact (WriterPc.elsewhere hp h (by decide)).elim
  · rcases hp with hp | hp <;> rw [hp] <;> rfl
  · rcases hp with hp | hp <;> rw [hp] at h <;> cases h

/-- A writer that closes has a reader that is done. -/
theorem closing_of_done (hp : s.wpc.closing = true) (hz : s.shm.cnt = 0) (hr : s.rpc = .done) :
    Closing s := by
  refine ⟨fun h => ?_, fun h => ?_, fun h => ?_, fun _ => ⟨hz, ?_⟩, fun _ => hr⟩
  · rcases h with h | h <;> rw [h] at hp <;> cases hp
  · rcases h with h | h <;> rw [h] at hp <;> cases hp
  · rcases h with h | ⟨h, -⟩ <;> rw [h] at hp <;> cases hp
  · cases hpc : s.wpc <;> rw [hpc] at hp <;> first | rfl | cases hp

/-- Before its end mark the writer has a reader that has not left. -/
theorem Closing.not_left (hc : Closing s) (h : s.wpc.ending = false) : ¬ s.rpc.Left :=
  fun hl => absurd ((hc.left hl).2.symm.trans h) (by decide)

/-- Before the reader is done the writer does not close. -/
theorem Closing.not_closing (hc : Closing s) (h : s.rpc ≠ .done) : ¬ s.wpc.closing = true :=
  fun hclosing => h (hc.closing hclosing)

/-- A writer that closes stays with a reader that is done. -/
theorem Closing.closes (hc : Closing s) {pc : WriterPc} {set : Option SemSet} {linked : Bool}
    (hs : s.wpc.closing = true) (hpc : pc.closing = true) :
    Closing { s with set, linked, wpc := pc } := by
  have hr := hc.closing hs
  have hl : s.rpc.Left := by rw [hr]; trivial
  exact closing_of_done hpc (hc.left hl).1 hr

/-- Past the end mark a unit in `WRITE_SEM` is the one the reader has given back for the last time. -/
theorem reader_done_of_unit (hi : Inv input s) (hpc : s.wpc = .finalAcquire) (he : s.EndMarked)
    (hw : 1 ≤ s.semval writeSem) : s.rpc = .done := by
  have ht := hi.turn (by rw [hpc]; rfl)
  rcases he.2 with he | he | he
  · omega
  · rw [he] at ht
    simp only [ReaderPc.units] at ht
    omega
  · cases hr : s.rpc <;> rw [hr] at he ht <;>
      first | rfl | exact he.elim | (simp only [ReaderPc.units] at ht; omega)

/-- The writer enters its loop: the unit lies in `WRITE_SEM`, so the reader has nothing to test. -/
theorem Closing.writer_attaches (hi : Inv input s) (hc : Closing s) (hpc : s.wpc = .shmat) :
    Closing { s with wbytes := 0, wpc := .acquire } := by
  have hl := hc.not_left (by rw [hpc]; rfl)
  have hw := hc.opening (.inr hpc)
  have ht := hi.turn (by rw [hpc]; rfl)
  refine closing_of_going (.inl rfl) (fun h => ?_) hl
  rcases h with h | h
  · have hr : s.semval readSem = 1 := h
    omega
  · have hu : s.rpc.units = 1 := congrArg ReaderPc.units h
    omega

/-- The writer passes on what it has stored, which the unit in `READ_SEM` marks. -/
theorem Closing.writer_releases (hi : Inv input s) (hc : Closing s) (hpc : s.wpc = .release)
    {S T : SemSet} (hS : s.set = some S) (hT : S.semop readSem 1 = some T) :
    Closing { s with set := some T, wpc := .test } := by
  have hl := hc.not_left (by rw [hpc]; rfl)
  have hr := (hi.writer_alone (by rw [hpc]; rfl)).2.1
  have hT := (SemSet.semop_release hT).1
  refine closing_of_passed (.inl rfl) (fun h => ⟨?_, .inl ?_⟩) fun h => absurd h hl
  · rcases h with h | h
    · cases h
    · exact h.2
  · simp only [State.semval, hS, Option.elim_some] at hr ⊢
    omega

/-- The writer gets the turn back for the last time. -/
theorem Closing.writer_finishes (hi : Inv input s) (hc : Closing s) (hpc : s.wpc = .finalAcquire)
    {S T : SemSet} (hS : s.set = some S) (hT : S.semop writeSem (-1) = some T) :
    Closing { s with set := some T, wpc := .rmSem } := by
  have he := hc.ended (.inl hpc)
  have hw : 1 ≤ s.semval writeSem := by
    have hunit := (SemSet.semop_acquire hT).1
    simp only [State.semval, hS, Option.elim_some]
    omega
  have hdone := reader_done_of_unit hi hpc he hw
  exact closing_of_done rfl he.1 hdone

theorem Closing.writer_step (hi : Inv input s) (hc : Closing s) (h : writerStep s = some t) :
    Closing t := by
  unfold writerStep at h
  cases hpc : s.wpc with
  | semget =>
    simp only [hpc, Option.some.injEq] at h
    exact h ▸ closing_of_plain rfl (hc.not_left (by rw [hpc]; rfl))
  | setWrite =>
    obtain ⟨S, hS⟩ := Option.isSome_iff_exists.mp (hi.exists_set (by rw [hpc]; rfl))
    simp only [hpc, State.setval, hS, Option.some.injEq] at h
    exact h ▸ closing_of_plain rfl (hc.not_left (by rw [hpc]; rfl))
  | setRead =>
    obtain ⟨S, hS⟩ := Option.isSome_iff_exists.mp (hi.exists_set (by rw [hpc]; rfl))
    have hw := hi.opened hpc
    have hl := hc.not_left (by rw [hpc]; rfl)
    simp only [hpc, State.setval, hS, Option.some.injEq] at h
    subst h
    refine closing_of_opening (.inl rfl) ?_ hl
    simpa [State.semval, State.gotoW, hS, writeSem, readSem] using hw
  | shmget =>
    have hl := hc.not_left (by rw [hpc]; rfl)
    simp only [hpc, Option.some.injEq] at h
    exact h ▸ closing_of_opening (.inr rfl) (hc.opening (.inl hpc)) hl
  | shmat =>
    simp only [hpc, Option.some.injEq] at h
    exact h ▸ hc.writer_attaches hi hpc
  | acquire =>
    have hl := hc.not_left (by rw [hpc]; rfl)
    simp only [hpc] at h
    obtain ⟨S, T, -, -, rfl⟩ := semop_of_isSome h (hi.exists_set (by rw [hpc]; rfl))
    exact closing_of_plain rfl hl
  | store n =>
    have hl := hc.not_left (by rw [hpc]; rfl)
    simp only [hpc, Option.some.injEq] at h
    exact h ▸ closing_of_plain rfl hl
  | release =>
    simp only [hpc] at h
    obtain ⟨S, T, hS, hT, rfl⟩ := semop_of_isSome h (hi.exists_set (by rw [hpc]; rfl))
    exact hc.writer_releases hi hpc hS hT
  | test =>
    simp only [hpc, Option.some.injEq] at h
    subst h
    split_ifs with hz
    · have he := hc.ended (.inr ⟨hpc, hz⟩)
      exact closing_of_passed (.inr rfl) (fun _ => he) fun h => (hc.left h).1
    · exact closing_of_going (.inr rfl) (fun _ => hz) fun h => absurd (hc.left h).1 hz
  | advance =>
    have hl := hc.not_left (by rw [hpc]; rfl)
    simp only [hpc, Option.some.injEq] at h
    exact h ▸ closing_of_going (.inl rfl) (hc.going (.inr hpc)) hl
  | finalAcquire =>
    simp only [hpc] at h
    obtain ⟨S, T, hS, hT, rfl⟩ := semop_of_isSome h (hi.exists_set (by rw [hpc]; rfl))
    exact hc.writer_finishes hi hpc hS hT
  | rmSem =>
    simp only [hpc, Option.some.injEq] at h
    rw [if_pos (hi.exists_set (by rw [hpc]; rfl))] at h
    exact h ▸ hc.closes (by rw [hpc]; rfl) rfl
  | detach =>
    simp only [hpc, Option.some.injEq] at h
    exact h ▸ hc.closes (by rw [hpc]; rfl) rfl
  | rmShm =>
    simp only [hpc, Option.some.injEq] at h
    exact h ▸ hc.closes (by rw [hpc]; rfl) rfl
  | read | done | exited => simp [hpc] at h

theorem Closing.read_step (hc : Closing s) {r : ReadResult} (h : writerRead false s r = some t) :
    Closing t := by
  simp only [writerRead, Option.ite_none_right_eq_some, Bool.false_eq_true, if_false] at h
  obtain ⟨hpc, h⟩ := h
  split_ifs at h
  obtain ⟨⟨chunk, rest⟩, -, rfl⟩ := Option.map_eq_some_iff.mp h
  exact closing_of_plain rfl (hc.not_left (by rw [hpc]; rfl))

/-- The reader is outside its turn and has not left its loop. -/
def ReaderPc.idle : ReaderPc → Bool
  | .semget | .shmget | .shmat | .acquire | .advance | .exited => true
  | _ => false

theorem ReaderPc.not_left_of_idle {pc : ReaderPc} (h : pc.idle = true) : ¬ pc.Left := by
  cases pc <;> first | exact id | cases h

theorem ReaderPc.ne_of_idle {pc qc : ReaderPc} (h : pc.idle = true) (hq : qc.idle = false) :
    pc ≠ qc := by
  rintro rfl
  exact absurd (h.symm.trans hq) (by decide)

/-- The reader moves outside its turn. -/
theorem Closing.reader_idles (hc : Closing s) {pc : ReaderPc} (b : ℤ) (hs : s.rpc.idle = true)
    (hpc : pc.idle = true) : Closing { s with rpc := pc, rbytes := b } where
  opening := hc.opening
  going h hr := hc.going h (.inl (hr.resolve_right (ReaderPc.ne_of_idle hpc rfl)))
  ended h := by
    obtain ⟨hz, he⟩ := hc.ended h
    refine ⟨hz, .inl (he.resolve_right ?_)⟩
    rintro (he | he)
    · exact ReaderPc.ne_of_idle hs rfl he
    · exact ReaderPc.not_left_of_idle hs he
  left h := absurd h (ReaderPc.not_left_of_idle hpc)
  closing h := absurd (hc.closing h) (ReaderPc.ne_of_idle hs rfl)

/-- The reader takes a chunk or the end mark. -/
theorem Closing.reader_takes (hi : Inv input s) (hc : Closing s) {S T : SemSet}
    (hS : s.set = some S) (hT : S.semop readSem (-1) = some T) (hcr : s.wpc.created = true)
    (hs : s.rpc.idle = true) : Closing { s with set := some T, rpc := .test } := by
  obtain ⟨hr, hw, -⟩ := SemSet.semop_acquire hT
  have hw := hw writeSem (by decide)
  have ht := hi.turn (WriterPc.setting_of_created hcr)
  have hone : s.semval readSem = 1 := by
    simp only [State.semval, hS, Option.elim_some] at *
    omega
  refine ⟨fun h => ?_, fun h _ => hc.going h (.inl hone), fun h => ⟨(hc.ended h).1, .inr (.inl rfl)⟩,
    False.elim, fun h => absurd (hc.closing h) (ReaderPc.ne_of_idle hs rfl)⟩
  have hopen := hc.opening h
  simp only [State.semval, hS, Option.elim_some] at hopen ⊢
  omega

/-- A reader that finds the end mark has a writer that has passed it on: the writer holds no
unit, and before it could have stored nothing but chunks. -/
theorem Closing.ending_of_test (hi : Inv input s) (hc : Closing s) (hpc : s.rpc = .test)
    (hz : s.shm.cnt = 0) : s.wpc.ending = true := by
  obtain ⟨hw0, -, hu, hcr⟩ := hi.reader_alone (by rw [hpc]; rfl)
  have hx := hi.alive
  cases hwpc : s.wpc with
  | test | finalAcquire | rmSem | detach | rmShm | done => rfl
  | acquire => exact absurd hz (hc.going (.inl hwpc) (.inr hpc))
  | advance => exact absurd hz (hc.going (.inr hwpc) (.inr hpc))
  | shmat =>
    have := hc.opening (.inr hwpc)
    omega
  | exited => exact absurd hwpc hx
  | semget | setWrite | setRead | shmget => rw [hwpc] at hcr; cases hcr
  | read | store n | release => rw [hwpc] at hu; cases hu

/-- With the turn and a chunk to write the reader does not see the end. -/
theorem Closing.not_ended (hi : Inv input s) (hc : Closing s)
    (hr : s.rpc = .write ∨ s.rpc = .release) :
    ¬ (s.wpc = .finalAcquire ∨ s.wpc = .test ∧ s.shm.cnt = 0) := by
  intro h
  have hz := (hi.reader_alone (by rcases hr with hr | hr <;> rw [hr] <;> rfl)).2.1
  rcases (hc.ended h).2 with he | he | he
  · omega
  · rcases hr with hr | hr <;> rw [hr] at he <;> cases he
  · rcases hr with hr | hr <;> rw [hr] at he <;> exact he

theorem Closing.reader_step (hi : Inv input s) (hc : Closing s) (h : readerStep s = some t) :
    Closing t := by
  unfold readerStep at h
  cases hpc : s.rpc with
  | semget =>
    simp only [hpc, Option.ite_none_right_eq_some, Option.some.injEq] at h
    exact h.2 ▸ hc.reader_idles s.rbytes (by rw [hpc]; rfl) rfl
  | shmget | shmat | advance =>
    simp only [hpc, Option.some.injEq] at h
    exact h ▸ hc.reader_idles _ (by rw [hpc]; rfl) rfl
  | acquire =>
    simp only [hpc] at h
    rcases State.semop_cases h with ⟨-, rfl⟩ | ⟨S, T, hS, hT, rfl⟩
    · exact hc.reader_idles s.rbytes (by rw [hpc]; rfl) rfl
    · exact hc.reader_takes hi hS hT (hi.created_of_ne (by rw [hpc]; decide)) (by rw [hpc]; rfl)
  | test =>
    have hclosing := hc.not_closing (by rw [hpc]; exact ReaderPc.noConfusion)
    simp only [hpc, Option.some.injEq] at h
    subst h
    split_ifs with hz
    · have hend := hc.ending_of_test hi hpc hz
      refine ⟨hc.opening, fun h _ => absurd hz (hc.going h (.inr hpc)),
        fun h => ⟨hz, .inr (.inr trivial)⟩, fun _ => ⟨hz, hend⟩, fun h => absurd h hclosing⟩
    · exact ⟨hc.opening, fun _ _ => hz, fun h => absurd (hc.ended h).1 hz, False.elim,
        fun h => absurd h hclosing⟩
  | write =>
    have hr0 := (hi.reader_alone (by rw [hpc]; rfl)).2.1
    have hne := hc.not_ended hi (.inl hpc)
    have hclosing := hc.not_closing (by rw [hpc]; exact ReaderPc.noConfusion)
    simp only [hpc, Option.some.injEq] at h
    subst h
    exact ⟨hc.opening, fun h hr => hc.going h (.inl (hr.resolve_right ReaderPc.noConfusion)),
      fun h => absurd h hne, False.elim, fun h => absurd h hclosing⟩
  | release =>
    obtain ⟨hw0, hr0, -, -⟩ := hi.reader_alone (by rw [hpc]; rfl)
    have hne := hc.not_ended hi (.inr hpc)
    have hclosing := hc.not_closing (by rw [hpc]; exact ReaderPc.noConfusion)
    simp only [hpc] at h
    obtain ⟨S, T, hS, hT, rfl⟩ := semop_of_isSome h (hi.set_of_reader (by rw [hpc]; rfl))
    have hkeep := (SemSet.semop_release hT).2.1 readSem (by decide)
    simp only [State.semval, hS, Option.elim_some] at hr0
    refine ⟨fun h => ?_, fun h hr => ?_, fun h => absurd h hne, False.elim,
      fun h => absurd h hclosing⟩
    · have := hc.opening h
      omega
    · have hr : T.semval readSem = 1 := hr.resolve_right ReaderPc.noConfusion
      omega
  | detach =>
    simp only [hpc, Option.some.injEq] at h
    subst h
    have hl := hc.left (by rw [hpc]; trivial)
    have hclosing := hc.not_closing (by rw [hpc]; exact ReaderPc.noConfusion)
    exact ⟨hc.opening, fun h hr => hc.going h (.inl (hr.resolve_right ReaderPc.noConfusion)),
      fun _ => ⟨hl.1, .inr (.inr trivial)⟩, fun _ => hl, fun h => absurd h hclosing⟩
  | finalRelease =>
    have hw0 := (hi.reader_alone (by rw [hpc]; rfl)).1
    have hl := hc.left (by rw [hpc]; trivial)
    simp only [hpc] at h
    obtain ⟨S, T, hS, hT, rfl⟩ := semop_of_isSome h (hi.set_of_reader (by rw [hpc]; rfl))
    refine ⟨fun h => ?_, fun h => ?_, fun _ => ⟨hl.1, .inr (.inr trivial)⟩, fun _ => hl, fun _ => rfl⟩
    · have := hc.opening h
      omega
    · have hend := hl.2
      rcases h with h | h <;> rw [show s.wpc = _ from h] at hend <;> cases hend
  | done | exited => simp [hpc] at h

theorem closing_init (h : (system false input).init s) : Closing s := by
  obtain ⟨-, -, -, hw, hr⟩ := h
  exact closing_of_plain (by rw [hw]; rfl) (by rw [hr]; exact id)

end LinuxApi.SharedMemory
