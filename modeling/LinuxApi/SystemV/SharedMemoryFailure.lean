import LinuxApi.SystemV.SharedMemoryCounters

/-! The shared-memory transfer when the writer's `read` fails. The -1 is stored into `shmp->cnt` like a
length: the reader passes it to `write`, and neither loop ends. Until then every count that the reader
loads is one of a chunk or of the end. -/

namespace LinuxApi.SharedMemory

open State

/-- The writer's `read` does not fail. -/
def readSucceeds (_ : State) : Action → Bool
  | .read .error => false
  | _ => true

/-- The reader loads `shmp->cnt` next. -/
def ReaderPc.acting : ReaderPc → Bool
  | .test | .write | .advance => true
  | _ => false

/-- A count that the reader acts on is the end mark or the length of a chunk in `buf`. -/
def LengthOk (s : State) : Prop := s.rpc.acting = true → 0 ≤ s.shm.cnt ∧ s.shm.cnt ≤ bufSize

/-- The reader is in front of its next acquire, or has not yet come to its loop. -/
def ReaderPc.coming : ReaderPc → Bool
  | .semget | .shmget | .shmat | .acquire | .advance => true
  | _ => false

/-- What is known while no `read` has failed. -/
structure Unfailed (input : List UInt8) (s : State) : Prop where
  inv : Inv input s
  closing : Closing s
  count : WriterCount s
  given : s.rpc.adding = true → 0 ≤ s.shm.cnt ∧ s.shm.cnt ≤ bufSize
  alive : s.rpc ≠ .exited

variable {input : List UInt8} {s t : State} {a : Action}

/-! ### No `read` has failed -/

/-- The chunk in flight and the end mark both have a length that fits. -/
theorem Unfailed.filled (hi : Unfailed input s) (hpc : s.rpc = .test ∨ s.rpc = .write) :
    0 ≤ s.shm.cnt ∧ s.shm.cnt ≤ bufSize := by
  have hu : s.rpc.units = 1 := by rcases hpc with h | h <;> rw [h] <;> rfl
  obtain ⟨-, -, hw, hc⟩ := hi.inv.reader_alone hu
  rcases hi.inv.filled (WriterPc.setting_of_created hc) (.inr (.inr hpc)) with ⟨h0, -⟩ | ⟨hpos, hreads⟩
  · omega
  · have hfits := hi.count.fits (by rw [hreads]; simp) fun n hn => by rw [hn] at hw; cases hw
    omega

theorem Unfailed.lengthOk (hi : Unfailed input s) : LengthOk s := by
  intro hpc
  cases h : s.rpc with
  | test => exact hi.filled (.inl h)
  | write => exact hi.filled (.inr h)
  | advance => exact hi.given (by rw [h]; rfl)
  | _ => rw [h] at hpc; cases hpc

/-- A reader at a `semop` has its set. -/
theorem Unfailed.exists_set (hi : Unfailed input s) (hpc : s.rpc.coming = true) (h : s.rpc ≠ .semget) :
    s.set.isSome := by
  apply hi.inv.exists_set
  have hc := hi.inv.created_of_ne h
  have hclosing : s.wpc.closing = false := by
    by_contra hcl
    rw [hi.closing.closing (Bool.not_eq_false _ ▸ hcl)] at hpc
    cases hpc
  revert hc hclosing
  cases s.wpc <;> simp [WriterPc.created, WriterPc.closing, WriterPc.needsSet]

/-- The `read` that does not fail is that of the transfer without failures. -/
theorem step_of_under (h : ((system true input).under readSucceeds).step s a = some t) :
    (system false input).step s a = some t := by
  obtain ⟨hC, h⟩ := System.under_step_eq_some.mp h
  cases a with
  | writer | reader => exact h
  | read r =>
    have hr : r ≠ .error := by
      rintro rfl
      cases hC
    simp only [system, writerRead, if_neg hr] at h ⊢
    exact h

theorem writerRead_frame {r : ReadResult} (h : writerRead false s r = some t) :
    t.rpc = s.rpc ∧ t.shm.cnt = s.shm.cnt := by
  simp only [writerRead, Option.ite_none_right_eq_some, Bool.false_eq_true, if_false] at h
  obtain ⟨-, h⟩ := h
  split_ifs at h
  obtain ⟨c, -, rfl⟩ := Option.map_eq_some_iff.mp h
  exact ⟨rfl, rfl⟩

/-- Where the reader is, if it still has to add what it has written, or has failed. -/
theorem readerStep_rpc (h : readerStep s = some t) :
    (t.rpc.adding = true → s.rpc = .write ∨ s.rpc = .release) ∧
      (t.rpc = .exited →
        s.set = none ∧ (s.rpc = .acquire ∨ s.rpc = .release ∨ s.rpc = .finalRelease)) := by
  unfold readerStep at h
  cases hpc : s.rpc with
  | semget =>
    simp only [hpc, Option.ite_none_right_eq_some, Option.some.injEq] at h
    obtain ⟨-, rfl⟩ := h
    simp [ReaderPc.adding, gotoR]
  | acquire | release | finalRelease =>
    simp only [hpc] at h
    rcases State.semop_cases h with ⟨hS, rfl⟩ | ⟨S, T, -, -, rfl⟩
    · simp [ReaderPc.adding, gotoR, hS]
    · simp [ReaderPc.adding, gotoR]
  | test =>
    simp only [hpc, Option.some.injEq] at h
    subst h
    split_ifs <;> simp [ReaderPc.adding, gotoR]
  | shmget | shmat | write | advance | detach =>
    simp only [hpc, Option.some.injEq] at h
    subst h
    simp [ReaderPc.adding, gotoR]
  | done | exited => simp [hpc] at h

theorem Unfailed.given_step (hi : Unfailed input s) (h : (system false input).step s a = some t)
    (hpc : t.rpc.adding = true) : 0 ≤ t.shm.cnt ∧ t.shm.cnt ≤ bufSize := by
  cases a with
  | writer =>
    obtain ⟨hr, -, -, hcnt | hstore⟩ := writerStep_frame h
    · exact hcnt ▸ hi.given (hr ▸ hpc)
    · obtain ⟨-, hle⟩ := hi.count.stored _ hstore
      rcases hi.inv.stored _ hstore with ⟨h0, -⟩ | ⟨hpos, -⟩ <;> omega
  | read r =>
    obtain ⟨hr, hcnt⟩ := writerRead_frame h
    exact hcnt ▸ hi.given (hr ▸ hpc)
  | reader =>
    obtain ⟨-, -, -, hshm⟩ := readerStep_frame h
    rw [hshm]
    rcases (readerStep_rpc h).1 hpc with hr | hr
    · exact hi.filled (.inr hr)
    · exact hi.given (by rw [hr]; rfl)

theorem Unfailed.alive_step (hi : Unfailed input s) (h : (system false input).step s a = some t) :
    t.rpc ≠ .exited := by
  cases a with
  | writer => exact (writerStep_frame h).1 ▸ hi.alive
  | read r => exact (writerRead_frame h).1 ▸ hi.alive
  | reader =>
    intro hexit
    obtain ⟨hnone, hr⟩ := (readerStep_rpc h).2 hexit
    have hsome : s.set.isSome := by
      rcases hr with hr | hr | hr
      · exact hi.exists_set (by rw [hr]; rfl) (by simp [hr])
      · exact hi.inv.set_of_reader (by rw [hr]; rfl)
      · exact hi.inv.set_of_reader (by rw [hr]; rfl)
    rw [hnone] at hsome
    cases hsome

theorem Unfailed.step (hi : Unfailed input s) (h : (system false input).step s a = some t) :
    Unfailed input t := by
  have hgiven := hi.given_step h
  have halive := hi.alive_step h
  cases a with
  | writer => exact ⟨hi.inv.writer_step h, hi.closing.writer_step hi.inv h, hi.count.writer_step h,
      hgiven, halive⟩
  | read r => exact ⟨hi.inv.read_step h, hi.closing.read_step h, hi.count.read_step h, hgiven, halive⟩
  | reader => exact ⟨hi.inv.reader_step h, hi.closing.reader_step hi.inv h, hi.count.reader_step h,
      hgiven, halive⟩

theorem unfailed_init (h : (system false input).init s) : Unfailed input s := by
  have hr := h.2.2.2.2
  exact ⟨inv_init h, closing_init h, writerCount_init h, by simp [hr, ReaderPc.adding], by simp [hr]⟩

theorem unfailed_reachable (h : ((system true input).under readSucceeds).Reachable s) :
    Unfailed input s := by
  refine h.invariant (fun s hs => ?_) fun s a t hi hst => ?_
  · exact unfailed_init hs
  · exact hi.step (step_of_under hst)

theorem Unfailed.run {as : List Action} (hi : Unfailed input s)
    (h : ((system true input).under readSucceeds).run s as = some t) : Unfailed input t := by
  refine System.run_invariant (fun s a t hi hst => ?_) hi h
  exact hi.step (step_of_under hst)

/-! ### After a failure -/

/-- The reader comes to its acquire by itself. -/
theorem exists_coming_run (hc : s.wpc.created = true) (hr : s.rpc.coming = true) :
    ∃ as b, ((system true input).under readSucceeds).run s as =
      some { s with rpc := .acquire, rbytes := b } := by
  cases hpc : s.rpc with
  | semget =>
    exact ⟨[.reader, .reader, .reader], 0, by
      simp [system, System.under, readSucceeds, readerStep, gotoR, hpc, hc]⟩
  | shmget =>
    exact ⟨[.reader, .reader], 0, by simp [system, System.under, readSucceeds, readerStep, gotoR, hpc]⟩
  | shmat =>
    exact ⟨[.reader], 0, by simp [system, System.under, readSucceeds, readerStep, hpc]⟩
  | acquire => exact ⟨[], s.rbytes, by rw [← hpc]; rfl⟩
  | advance =>
    exact ⟨[.reader], s.rbytes + s.shm.cnt, by
      simp [system, System.under, readSucceeds, readerStep, hpc]⟩
  | _ => rw [hpc] at hr; cases hr

/-- A count other than zero goes one round through both loops. -/
theorem exists_round {S : SemSet} {n : ℤ} (hn : n ≠ 0) (hS : s.set = some S) (hw : s.wpc = .store n)
    (hr : s.rpc = .acquire) :
    ∃ as u bs v, ((system true input).under readSucceeds).run s as = some u ∧ u.rpc = .write ∧
      u.shm.cnt = n ∧ ((system true input).under readSucceeds).run u bs = some v ∧
      v.wpc = .read ∧ v.rpc = .acquire := by
  obtain ⟨T, hT⟩ := S.exists_release readSem
  have hTval : T.semval readSem ≠ 0 := by
    rw [(SemSet.semop_release hT).1]
    omega
  obtain ⟨U, hU⟩ := SemSet.exists_acquire hTval
  obtain ⟨V, hV⟩ := U.exists_release writeSem
  have hVval : V.semval writeSem ≠ 0 := by
    rw [(SemSet.semop_release hV).1]
    omega
  obtain ⟨W, hW⟩ := SemSet.exists_acquire hVval
  refine ⟨[.writer, .writer, .reader, .reader],
    { s with set := some U, shm.cnt := n, wpc := .test, rpc := .write },
    [.reader, .reader, .reader, .writer, .writer, .writer],
    { s with
      set := some W
      shm.cnt := n
      writes := if 0 ≤ n then s.writes ++ [ShmMsg.data ⟨n, s.shm.buf⟩] else s.writes
      wpc := .read
      rpc := .acquire
      wbytes := s.wbytes + n
      rbytes := s.rbytes + n }, ?_, rfl, rfl, ?_, rfl, rfl⟩
  · simp [system, System.under, readSucceeds, writerStep, readerStep, State.semop, gotoW, gotoR, hw, hr,
      hS, hT, hU, hn]
  · simp [system, System.under, readSucceeds, writerStep, readerStep, State.semop, gotoW, gotoR, hV, hW,
      hn]

/-- After a failed `read` the reader comes to a `write` of -1 bytes, and both go on in their loops. -/
theorem exists_failed_round (hi : Unfailed input s)
    (h : (system true input).step s (.read .error) = some t) :
    ∃ as u bs v, ((system true input).under readSucceeds).run t as = some u ∧ u.rpc = .write ∧
      u.shm.cnt = -1 ∧ (system true input).run t bs = some v ∧ v.wpc = .read ∧ v.rpc = .acquire := by
  simp only [system, writerRead, if_true, Option.ite_none_right_eq_some, Option.some.injEq] at h
  obtain ⟨hpc, rfl⟩ := h
  have hcreated : s.wpc.created = true := by rw [hpc]; rfl
  have hcoming : s.rpc.coming = true := by
    have hu := (hi.inv.writer_alone (by rw [hpc]; rfl)).2.2
    have hleft := hi.closing.not_left (by rw [hpc]; rfl)
    have halive := hi.alive
    revert hu hleft halive
    cases s.rpc <;> simp [ReaderPc.units, ReaderPc.Left, ReaderPc.coming]
  obtain ⟨S, hS⟩ := Option.isSome_iff_exists.mp (hi.inv.exists_set (by rw [hpc]; rfl))
  obtain ⟨as, b, has⟩ := @exists_coming_run input (gotoW (.store (-1)) s) rfl hcoming
  obtain ⟨bs, u, cs, v, hu, hwrite, hcnt, hv, hread, hacq⟩ := @exists_round input
    { s with wpc := .store (-1), rpc := .acquire, rbytes := b } S (-1) (by decide) hS rfl rfl
  refine ⟨as ++ bs, u, as ++ bs ++ cs, v, ?_, hwrite, hcnt, ?_, hread, hacq⟩
  · rw [System.run_append, has]
    exact hu
  · refine System.run_of_under (C := readSucceeds) ?_
    rw [System.run_append, System.run_append, has]
    exact Option.bind_eq_some_iff.mpr ⟨u, hu, hv⟩

/-- Runs in which no `read` has failed give the reader lengths only. At any further step this goes on,
and the writer's loop is at its end after a failure, exactly if the step is no failing `read`. -/
theorem lengths_ok_iff (h : ((system true input).under readSucceeds).Reachable s) :
    LengthOk s ∧ ∀ a t, (system true input).step s a = some t →
      (((∀ as u, ((system true input).under readSucceeds).run t as = some u → LengthOk u) ∧
        (a = .read .error → ∀ as u, (system true input).run t as = some u →
          u.wpc ≠ .read)) ↔ readSucceeds s a = true) := by
  have hi := unfailed_reachable h
  refine ⟨hi.lengthOk, fun a t ht => ⟨fun hall => ?_, fun hC => ⟨fun as u hu => ?_, ?_⟩⟩⟩
  · by_contra hC
    have ha : a = .read .error := by
      cases a with
      | writer | reader => exact absurd rfl hC
      | read r => cases r <;> first | rfl | exact absurd rfl hC
    subst ha
    obtain ⟨as, u, -, -, hu, hwrite, hcnt, -⟩ := exists_failed_round hi ht
    have hok := (hall.1 as u hu (by rw [hwrite]; rfl)).1
    omega
  · have hti := hi.step (step_of_under (System.under_step_eq_some.mpr ⟨hC, ht⟩))
    exact (hti.run hu).lengthOk
  · rintro rfl
    cases hC

/-- The writer's first `read` returns two bytes; the next step is not a `read` that fails. -/
theorem lengths_ok_iff_two_bytes :
    ∃ s, ((system true [104, 105]).under readSucceeds).Reachable s ∧ s.wpc = .store 2 ∧ LengthOk s ∧
      ∀ a t, (system true [104, 105]).step s a = some t →
        (((∀ as u, ((system true [104, 105]).under readSucceeds).run t as = some u → LengthOk u) ∧
          (a = .read .error → ∀ as u, (system true [104, 105]).run t as = some u → u.wpc ≠ .read)) ↔
          readSucceeds s a = true) := by
  have hr := System.reachable_of_run (S := (system true [104, 105]).under readSucceeds)
    (s := ⟨none, ⟨0, .zero _⟩, false, [104, 105], [], [], .semget, .semget, 0, 0⟩)
    ⟨rfl, rfl, rfl, rfl, rfl⟩ ([.replicate 6 .writer, [.read (.data 2)]].flatten) rfl
  exact ⟨_, hr, rfl, lengths_ok_iff hr⟩

/-- The first `read` fails: the reader is at its `write` with the length -1, and later the writer is at
its `read` again. -/
theorem not_lengthOk_error :
    (∃ s, (system true []).Reachable s ∧ s.rpc = .write ∧ s.shm.cnt = -1 ∧ ¬LengthOk s) ∧
    ∃ s t u as, (system true []).Reachable s ∧ (system true []).step s (.read .error) = some t ∧
      (system true []).run t as = some u ∧ u.wpc = .read ∧ u.rpc = .acquire := by
  have hinit : (system true []).init
      ⟨none, ⟨0, .zero _⟩, false, [], [], [], .semget, .semget, 0, 0⟩ := ⟨rfl, rfl, rfl, rfl, rfl⟩
  have hread := System.reachable_of_run hinit (.replicate 6 .writer) rfl
  have hwrite := System.reachable_of_run hinit
    ([.replicate 6 .writer, [.read .error], .replicate 2 .writer, .replicate 5 .reader].flatten) rfl
  refine ⟨⟨_, hwrite, rfl, rfl, fun h => ?_⟩, _, _, _,
    [.replicate 2 .writer, .replicate 8 .reader, .replicate 3 .writer].flatten, hread, rfl, rfl, rfl, rfl⟩
  exact absurd (h rfl).1 (by decide)

end LinuxApi.SharedMemory
