import LinuxApi.Transition.System
import Mathlib.Data.List.Basic

/-! `ipc_posix_shm_write` and `ipc_posix_shm_read` in `ipc_posix_shm.c`, one run of each at the same
time. The object has its name from `shm_open` on, its size from `ftruncate` on and its contents
byte by byte from `memcpy`. An object of the name may be left from before. -/

namespace LinuxApi.PosixShm

/-- `"This is sample string."` -/
def message : List UInt8 :=
  [84, 104, 105, 115, 32, 105, 115, 32, 115, 97, 109, 112, 108, 101, 32, 115, 116, 114, 105, 110,
    103, 46]

/-- Where `ipc_posix_shm_write` is; `memcpy i` has copied `i` bytes. -/
inductive WriterPc where
  | shmOpen | ftruncate | mmap
  | memcpy (i : ℕ)
  | done
  | exited (msg : String)
  deriving DecidableEq

/-- Where `ipc_posix_shm_read` is; `size` is `sb.st_size`. -/
inductive ReaderPc where
  | shmOpen | fstat
  | mmap (size : ℕ)
  | write (size : ℕ)
  | newline | done
  | exited (msg : String)
  deriving DecidableEq

/-- `object` holds the bytes of the shared-memory object, and `written` what the reader passes to
`write`. -/
structure State where
  object : Option (List UInt8)
  writer : WriterPc
  reader : ReaderPc
  written : List UInt8
  deriving DecidableEq

/-- A step of one party. Without `ok` its `ftruncate`, `mmap`, `fstat` or `shm_open` fails for a
reason of its own. -/
inductive Action where
  | writer (ok : Bool)
  | reader (ok : Bool)

/-- `O_EXCL` fails on an object that exists. -/
def writerStep (s : State) (ok : Bool) : Option State :=
  match s.writer with
  | .shmOpen =>
    if ok ∧ s.object = none then some { s with object := some [], writer := .ftruncate }
    else some { s with writer := .exited "shm_open()" }
  | .ftruncate =>
    if ok then
      some { s with object := some (List.replicate message.length 0), writer := .mmap }
    else some { s with writer := .exited "ftruncate()" }
  | .mmap =>
    if ok then some { s with writer := .memcpy 0 } else some { s with writer := .exited "mmap()" }
  | .memcpy i => some { s with
      object := s.object.map fun bytes => bytes.set i (message.getD i 0)
      writer := if i + 1 < message.length then .memcpy (i + 1) else .done }
  | .done | .exited _ => none

/-- A mapping of size 0 fails. -/
def readerStep (s : State) (ok : Bool) : Option State :=
  match s.reader with
  | .shmOpen =>
    if ok ∧ s.object ≠ none then some { s with reader := .fstat }
    else some { s with reader := .exited "shm_open()" }
  | .fstat =>
    if ok then some { s with reader := .mmap (s.object.getD []).length }
    else some { s with reader := .exited "fstat()" }
  | .mmap size =>
    if ok ∧ size ≠ 0 then some { s with reader := .write size }
    else some { s with reader := .exited "mmap()" }
  | .write size => some { s with written := (s.object.getD []).take size, reader := .newline }
  | .newline => some { s with reader := .done }
  | .done | .exited _ => none

/-- `old` is an object of the name from before. -/
def system (old : Option (List UInt8)) : System State Action where
  init s := s = ⟨old, .shmOpen, .shmOpen, []⟩
  step s
    | .writer ok => writerStep s ok
    | .reader ok => readerStep s ok

/-- The reader is past its `write`. -/
def ReaderPc.hasWritten : ReaderPc → Bool
  | .newline | .done => true
  | _ => false

/-- What the reader has written, but for the newline of `printf`, is the message of the writer. -/
def Delivered (s : State) : Prop := s.reader.hasWritten = true → s.written = message

/-- The reader calls `write` after the last byte of `memcpy`; an object from before has the
message already. -/
def finished (old : Option (List UInt8)) (s : State) : Action → Bool
  | .reader _ =>
    match s.reader, old with
    | .write _, none => s.writer = .done
    | .write _, some bytes => bytes = message
    | _, _ => true
  | .writer _ => true

/-! ### A zeroed area while bytes are copied in -/

/-- The first `i` bytes have arrived. -/
def copied (bytes : List UInt8) (i : ℕ) : List UInt8 :=
  bytes.take i ++ List.replicate (bytes.length - i) 0

theorem copied_length {bytes : List UInt8} {i : ℕ} (hi : i ≤ bytes.length) :
    (copied bytes i).length = bytes.length := by
  rw [copied, List.length_append, List.length_take, List.length_replicate]
  omega

theorem copied_all (bytes : List UInt8) : copied bytes bytes.length = bytes := by
  simp [copied]

theorem copied_set {bytes : List UInt8} {i : ℕ} (hi : i < bytes.length) :
    (copied bytes i).set i (bytes.getD i 0) = copied bytes (i + 1) := by
  have hlen : (bytes.take i).length = i := List.length_take_of_le (Nat.le_of_lt hi)
  have hleft : bytes.length - i = bytes.length - (i + 1) + 1 := by omega
  have hget : bytes.getD i 0 = bytes[i] := by simp [hi]
  rw [copied, List.set_append_right i _ (Nat.le_of_eq hlen), hlen, Nat.sub_self, hleft, List.replicate_succ,
    List.set_cons_zero, hget, copied, List.take_succ_eq_append_getElem hi, List.append_assoc]
  rfl

/-- Until the last byte has arrived a byte is zero. -/
theorem copied_ne {bytes : List UInt8} {i : ℕ} (hi : i < bytes.length) (h : (0 : UInt8) ∉ bytes) :
    copied bytes i ≠ bytes := by
  intro heq
  have hmem : (0 : UInt8) ∈ copied bytes i := by
    refine List.mem_append_right _ (List.mem_replicate.mpr ⟨?_, rfl⟩)
    omega
  exact h (heq ▸ hmem)

/-! ### How far the object is made -/

/-- The object by the place of the writer. Only without an object from before does the writer get
past its `shm_open`. -/
def Made (old object : Option (List UInt8)) : WriterPc → Prop
  | .shmOpen => object = old
  | .ftruncate => old = none ∧ object = some []
  | .mmap => old = none ∧ object = some (copied message 0)
  | .memcpy i => old = none ∧ i < message.length ∧ object = some (copied message i)
  | .done => old = none ∧ object = some message
  | .exited _ => object = old ∨ old = none ∧ (object = some [] ∨ object = some (copied message 0))

variable {old : Option (List UInt8)} {s t : State}

/-- An object that has a size holds the message once the writer is done, or from before. -/
theorem Made.eq_message_iff {bytes : List UInt8} {pc : WriterPc} (h : Made old (some bytes) pc)
    (hne : bytes ≠ []) :
    bytes = message ↔ (old = none → pc = .done) ∧ ∀ b, old = some b → b = message := by
  have hzero : ∀ i < message.length, copied message i ≠ message :=
    fun i hi => copied_ne hi (by decide)
  cases pc with
  | shmOpen =>
    obtain rfl : some bytes = old := h
    simp
  | ftruncate => exact absurd (Option.some.inj h.2) hne
  | mmap =>
    obtain ⟨rfl, h⟩ := h
    obtain rfl := Option.some.inj h
    simpa using hzero 0 (by decide)
  | memcpy i =>
    obtain ⟨rfl, hi, h⟩ := h
    obtain rfl := Option.some.inj h
    simpa using hzero i hi
  | done =>
    obtain ⟨rfl, h⟩ := h
    obtain rfl := Option.some.inj h
    simp
  | exited msg =>
    rcases h with h | ⟨rfl, h | h⟩
    · obtain rfl := h
      simp
    · exact absurd (Option.some.inj h) hne
    · obtain rfl := Option.some.inj h
      simpa using hzero 0 (by decide)

/-- The writer gives the object a size once, and no byte of it is ever lost. -/
theorem Made.writer_step {ok : Bool} (hm : Made old s.object s.writer)
    (h : writerStep s ok = some t) :
    Made old t.object t.writer ∧ t.reader = s.reader ∧ t.written = s.written ∧
      ∀ bytes, s.object = some bytes → bytes ≠ [] →
        ∃ b, t.object = some b ∧ b.length = bytes.length := by
  unfold writerStep at h
  cases hpc : s.writer with
  | shmOpen =>
    rw [hpc] at hm
    simp only [hpc] at h
    split_ifs at h with hok
    · cases h
      exact ⟨⟨hm ▸ hok.2, rfl⟩, rfl, rfl, fun bytes hb => absurd (hok.2.symm.trans hb) nofun⟩
    · cases h
      exact ⟨.inl hm, rfl, rfl, fun bytes hb _ => ⟨bytes, hb, rfl⟩⟩
  | ftruncate =>
    rw [hpc] at hm
    simp only [hpc] at h
    split_ifs at h with hok
    · cases h
      refine ⟨⟨hm.1, rfl⟩, rfl, rfl, fun bytes hb hne => ?_⟩
      exact absurd (Option.some.inj (hm.2.symm.trans hb)).symm hne
    · cases h
      exact ⟨.inr ⟨hm.1, .inl hm.2⟩, rfl, rfl, fun bytes hb _ => ⟨bytes, hb, rfl⟩⟩
  | mmap =>
    rw [hpc] at hm
    simp only [hpc] at h
    split_ifs at h with hok
    · cases h
      exact ⟨⟨hm.1, by decide, hm.2⟩, rfl, rfl, fun bytes hb _ => ⟨bytes, hb, rfl⟩⟩
    · cases h
      exact ⟨.inr ⟨hm.1, .inr hm.2⟩, rfl, rfl, fun bytes hb _ => ⟨bytes, hb, rfl⟩⟩
  | memcpy i =>
    rw [hpc] at hm
    obtain ⟨hold, hi, hobject⟩ := hm
    simp only [hpc, hobject, Option.map_some, copied_set hi, Option.some.injEq] at h
    subst h
    refine ⟨?_, rfl, rfl, fun bytes hb _ => ⟨_, rfl, ?_⟩⟩
    · show Made old _ (if i + 1 < message.length then .memcpy (i + 1) else .done)
      split_ifs with hlast
      · exact ⟨hold, hlast, rfl⟩
      · have hlen : i + 1 = message.length := by omega
        refine ⟨hold, ?_⟩
        rw [hlen, copied_all]
    · obtain rfl := Option.some.inj (hobject.symm.trans hb)
      rw [copied_length hi, copied_length (Nat.le_of_lt hi)]
  | done | exited => simp only [hpc] at h; cases h

/-! ### What the reader writes -/

structure Inv (old : Option (List UInt8)) (s : State) : Prop where
  made : Made old s.object s.writer
  mapped : ∀ n, s.reader = .mmap n ∨ s.reader = .write n → n ≠ 0 →
    ∃ bytes, s.object = some bytes ∧ bytes.length = n
  positive : ∀ n, s.reader = .write n → n ≠ 0
  delivered : Delivered s

theorem Inv.writer_step {ok : Bool} (hi : Inv old s) (h : writerStep s ok = some t) : Inv old t := by
  obtain ⟨hmade, hreader, hwritten, hkeep⟩ := hi.made.writer_step h
  refine ⟨hmade, fun n hn hne => ?_, fun n hn => hi.positive n (hreader ▸ hn), fun hw => ?_⟩
  · rw [hreader] at hn
    obtain ⟨bytes, hb, rfl⟩ := hi.mapped n hn hne
    exact hkeep bytes hb (List.ne_nil_of_length_pos (Nat.pos_of_ne_zero hne))
  · rw [hreader] at hw
    exact hwritten.trans (hi.delivered hw)

/-- The whole object goes out, so what matters is whether it is complete. -/
theorem Inv.write_iff {n : ℕ} (hi : Inv old s) (hpc : s.reader = .write n) (ok : Bool) :
    (s.object.getD []).take n = message ↔ finished old s (.reader ok) = true := by
  have hn := hi.positive n hpc
  obtain ⟨bytes, hobject, rfl⟩ := hi.mapped n (.inr hpc) hn
  have hmade := hi.made
  rw [hobject] at hmade
  rw [hobject, Option.getD_some, List.take_length,
    hmade.eq_message_iff (List.ne_nil_of_length_pos (Nat.pos_of_ne_zero hn))]
  cases old with
  | none => simp [finished, hpc]
  | some b => simp [finished, hpc]

/-- Only the `write` of the reader can come too early. -/
theorem finished_of_ne (old : Option (List UInt8)) (s : State) (h : ∀ n, s.reader ≠ .write n)
    (ok : Bool) :
    finished old s (.reader ok) = true := by
  cases hpc : s.reader with
  | write n => exact absurd hpc (h n)
  | _ => simp [finished, hpc]

/-- The reader goes on to `fstat` or exits. -/
theorem Inv.reader_moves (hi : Inv old s) (hs : ∀ n, s.reader ≠ .write n) (ok : Bool)
    {pc : ReaderPc} (hpc : pc = .fstat ∨ ∃ msg, pc = .exited msg) :
    (Delivered { s with reader := pc } ↔ finished old s (.reader ok) = true) ∧
      (Delivered { s with reader := pc } → Inv old { s with reader := pc }) := by
  have hfin := finished_of_ne old s hs ok
  rcases hpc with rfl | ⟨msg, rfl⟩
  all_goals exact ⟨iff_of_true nofun hfin, fun _ => ⟨hi.made, nofun, nofun, nofun⟩⟩

theorem Inv.reader_step {ok : Bool} (hi : Inv old s) (h : readerStep s ok = some t) :
    (Delivered t ↔ finished old s (.reader ok) = true) ∧ (Delivered t → Inv old t) := by
  unfold readerStep at h
  cases hpc : s.reader with
  | shmOpen =>
    have hs : ∀ n, s.reader ≠ .write n := by rw [hpc]; nofun
    simp only [hpc] at h
    split_ifs at h
    · cases h
      exact hi.reader_moves hs ok (.inl rfl)
    · cases h
      exact hi.reader_moves hs ok (.inr ⟨_, rfl⟩)
  | fstat =>
    have hs : ∀ n, s.reader ≠ .write n := by rw [hpc]; nofun
    simp only [hpc] at h
    split_ifs at h
    · cases h
      have hfin := finished_of_ne old s hs ok
      refine ⟨iff_of_true nofun hfin, fun _ => ⟨hi.made, fun n hn hne => ?_, nofun, nofun⟩⟩
      obtain rfl : (s.object.getD []).length = n := by simpa using hn
      cases hobject : s.object with
      | none => exact absurd (by rw [hobject]; rfl) hne
      | some bytes => exact ⟨bytes, rfl, rfl⟩
    · cases h
      exact hi.reader_moves hs ok (.inr ⟨_, rfl⟩)
  | mmap size =>
    have hs : ∀ n, s.reader ≠ .write n := by rw [hpc]; nofun
    simp only [hpc] at h
    split_ifs at h with hok
    · cases h
      have hfin := finished_of_ne old s hs ok
      refine ⟨iff_of_true nofun hfin, fun _ => ⟨hi.made, fun n hn hne => ?_, fun n hn => ?_, nofun⟩⟩
      · obtain rfl : size = n := by simpa using hn
        exact hi.mapped size (.inl hpc) hne
      · exact ReaderPc.write.inj hn ▸ hok.2
    · cases h
      exact hi.reader_moves hs ok (.inr ⟨_, rfl⟩)
  | write size =>
    simp only [hpc, Option.some.injEq] at h
    subst h
    have hiff := hi.write_iff hpc ok
    refine ⟨⟨fun hd => hiff.mp (hd rfl), fun hf _ => hiff.mpr hf⟩, fun hd => ?_⟩
    exact ⟨hi.made, nofun, nofun, hd⟩
  | newline =>
    have hfin := finished_of_ne old s (by rw [hpc]; nofun) ok
    simp only [hpc, Option.some.injEq] at h
    subst h
    have hd := hi.delivered (by rw [hpc]; rfl)
    exact ⟨iff_of_true (fun _ => hd) hfin, fun _ => ⟨hi.made, nofun, nofun, fun _ => hd⟩⟩
  | done | exited => simp only [hpc] at h; cases h

theorem inv_step {a : Action} (hi : Inv old s) (h : (system old).step s a = some t) :
    (Delivered t ↔ finished old s a = true) ∧ (Delivered t → Inv old t) := by
  cases a with
  | writer ok =>
    have hi := hi.writer_step h
    exact ⟨iff_of_true hi.delivered rfl, fun _ => hi⟩
  | reader ok => exact hi.reader_step h

/-- A run of writer and reader delivers the message exactly when the reader's `write` comes after
the end of `memcpy`. -/
theorem delivered_iff {as : List Action} (hs : (system old).init s)
    (h : (system old).run s as = some t) :
    (system old).Throughout Delivered s as ↔ (system old).Along (finished old) s as := by
  refine System.throughout_iff_along (I := Inv old) (fun _ hi => hi.delivered) ?_ ?_ h
  · intro s a t hi ht
    exact inv_step hi ht
  · rw [show s = ⟨old, .shmOpen, .shmOpen, []⟩ from hs]
    exact ⟨rfl, nofun, nofun, nofun⟩

/-- The writer runs to its end first. -/
theorem delivered_iff_first : (system none).Throughout Delivered ⟨none, .shmOpen, .shmOpen, []⟩
    ([.replicate 25 (.writer true), .replicate 5 (.reader true)].flatten) :=
  (delivered_iff rfl rfl).mpr (by decide)

/-- The reader opens, maps and writes the object between `mmap` and `memcpy`. -/
theorem not_delivered_zeros : ¬∀ s, (system none).Reachable s → Delivered s := by
  intro h
  have hrun : (system none).Reachable _ :=
    System.reachable_of_isSome (S := system none) (s := ⟨none, .shmOpen, .shmOpen, []⟩) rfl
      ([.replicate 3 (.writer true), .replicate 5 (.reader true)].flatten) (by decide)
  exact absurd (h _ hrun rfl) (by decide)

end LinuxApi.PosixShm
