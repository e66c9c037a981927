import LinuxApi.Transition.System
import LinuxApi.Kernel.Segments
import LinuxApi.Kernel.Stream

/-! `ipc_fifo_server` and the processes that write to its FIFO. A write of at most
`PIPE_BUF` bytes is atomic; a `read` returns what the FIFO holds, up to the size it asks
for, so the boundaries of requests exist only by the position of the reads. -/

namespace LinuxApi.FifoServer

/-- `PIPE_BUF` -/
def pipeBuf : ℕ := 4096

/-- `sizeof(struct request)` -/
def requestSize : ℕ := 108

/-- `struct request` -/
structure Request where
  pid : BitVec 32
  seqLen : BitVec 32
  msg : Buffer 100
  deriving DecidableEq

/-- The bytes of an `int`, lowest first. -/
def intBytes (x : BitVec 32) : List UInt8 :=
  [x.toNat, x.toNat / 256, x.toNat / 65536, x.toNat / 16777216].map UInt8.ofNat

def intOfBytes (bytes : List UInt8) : BitVec 32 :=
  .ofNat 32 (bytes.foldr (fun b n => b.toNat + 256 * n) 0)

theorem intOfBytes_intBytes (x : BitVec 32) : intOfBytes (intBytes x) = x := by
  have hx := x.isLt
  apply BitVec.eq_of_toNat_eq
  simp only [intOfBytes, intBytes, List.map_cons, List.map_nil, List.foldr_cons, List.foldr_nil,
    BitVec.toNat_ofNat, UInt8.toNat_ofNat']
  omega

/-- The bytes of a request in memory. -/
def Request.encode (r : Request) : List UInt8 := intBytes r.pid ++ intBytes r.seqLen ++ r.msg.bytes

/-- The request that lies in `req`. -/
def Request.decode (b : Buffer requestSize) : Request where
  pid := intOfBytes (b.bytes.take 4)
  seqLen := intOfBytes ((b.bytes.drop 4).take 4)
  msg := ⟨b.bytes.drop 8, by rw [List.length_drop, b.length_eq]; rfl⟩

theorem Request.length_encode (r : Request) : r.encode.length = requestSize := by
  rw [encode, List.length_append, List.length_append, r.msg.length_eq]
  rfl

theorem Request.decode_encode (r : Request) : decode ⟨r.encode, r.length_encode⟩ = r := by
  obtain ⟨pid, seqLen, ⟨msg, hmsg⟩⟩ := r
  simp only [decode, encode, Request.mk.injEq, Buffer.mk.injEq]
  refine ⟨?_, ?_, rfl⟩
  · exact intOfBytes_intBytes pid
  · exact intOfBytes_intBytes seqLen

/-- What the server prints after a `read`: a request's `pid` and `msg`, or the error
message. -/
inductive Line where
  | request (pid : BitVec 32) (msg : Buffer 100)
  | error
  deriving DecidableEq

/-- Where the server is; it opens the FIFO for reading, and then for writing so that it
never sees the end of it. -/
inductive ServerPc where
  | mkfifo | openRead | openWrite | read | exited
  deriving DecidableEq

/-- The server and the FIFO. `written` are the writes that went into it and `reads` the
bytes the server's calls of `read` returned, oldest first; `lines` is the server's output,
one line for each call. -/
structure State where
  pc : ServerPc
  pipe : List UInt8
  req : Buffer requestSize
  written : List (List UInt8)
  reads : List (List UInt8)
  lines : List Line
  deriving DecidableEq

/-- The server's next call, which may fail, or a write by some process. -/
inductive Action where
  | server (ok : Bool)
  | write (bytes : List UInt8)
  deriving DecidableEq

/-- The output after a `read` of `chunk`. -/
def State.answer (s : State) (chunk : List UInt8) : Line :=
  if chunk.length = requestSize then
    .request (Request.decode (s.req.store chunk)).pid (Request.decode (s.req.store chunk)).msg
  else .error

/-- The `read` returned `chunk`. -/
def State.take (s : State) (chunk : List UInt8) : State :=
  { s with
    pipe := s.pipe.drop chunk.length
    req := s.req.store chunk
    reads := s.reads ++ [chunk]
    lines := s.lines ++ [s.answer chunk] }

/-- The next call of the server. -/
def serverStep (s : State) (ok : Bool) : Option State :=
  match s.pc with
  | .mkfifo => some { s with pc := if ok then .openRead else .exited }
  | .openRead => some { s with pc := if ok then .openWrite else .exited }
  | .openWrite => some { s with pc := if ok then .read else .exited }
  | .read =>
    if ok then
      if s.pipe = [] then none else some (s.take (s.pipe.take requestSize))
    else some (s.take [])
  | .exited => none

/-- A write of a process that has the FIFO open, which needs the server's open first. -/
def writeStep (s : State) (bytes : List UInt8) : Option State :=
  if (s.pc = .openWrite ∨ s.pc = .read) ∧ 1 ≤ bytes.length ∧ bytes.length ≤ pipeBuf then
    some { s with pipe := s.pipe ++ bytes, written := s.written ++ [bytes] }
  else none

/-- One server, and any processes that write. -/
def system : System State Action where
  init s := s = ⟨.mkfifo, [], .zero _, [], [], []⟩
  step s
    | .server ok => serverStep s ok
    | .write bytes => writeStep s bytes

/-! ### Reads against writes -/

/-- The line printed for a `read` of `chunk`. -/
def lineOf (chunk : List UInt8) : Line :=
  if h : chunk.length = requestSize then
    .request (Request.decode ⟨chunk, h⟩).pid (Request.decode ⟨chunk, h⟩).msg
  else .error

theorem Buffer.store_full {size : ℕ} (b : Buffer size) {chunk : List UInt8} (h : chunk.length = size) :
    b.store chunk = ⟨chunk, h⟩ := by
  rw [Buffer.mk.injEq, Buffer.store]
  exact List.take_left' h

/-- Nothing of an earlier request is left in `req` when a line is printed. -/
theorem State.answer_eq (s : State) (chunk : List UInt8) : s.answer chunk = lineOf chunk := by
  unfold State.answer lineOf
  split_ifs with h
  · rw [Buffer.store_full s.req h]
  · rfl

/-- The reads cut the stream that the writes have made, and a `read` that begins inside a
write takes as much of it as a request holds. -/
structure Inv (s : State) : Prop where
  whole : s.reads.flatten ++ s.pipe = s.written.flatten
  taken : ∀ j r, s.reads[j]? = some r → r ≠ [] → ∀ i, offset s.written i ≤ offset s.reads j →
    offset s.reads j < offset s.written (i + 1) →
    min requestSize (offset s.written (i + 1) - offset s.reads j) ≤ r.length
  short : ∀ r ∈ s.reads, r.length ≤ requestSize
  lines : s.lines = s.reads.map lineOf

variable {s t : State}

/-- A `read` takes the front of the FIFO, as much as there is or as a request holds. -/
theorem Inv.take_step (hi : Inv s) {chunk : List UInt8}
    (hc : chunk = [] ∨ chunk = s.pipe.take requestSize) : Inv (s.take chunk) := by
  have hpre : chunk ++ s.pipe.drop chunk.length = s.pipe := by
    rcases hc with rfl | hc
    · rfl
    · have hd : s.pipe.drop chunk.length = s.pipe.drop requestSize := by
        rw [hc, List.length_take]
        rcases Nat.le_total requestSize s.pipe.length with h | h
        · rw [Nat.min_eq_left h]
        · rw [Nat.min_eq_right h, List.drop_length, List.drop_of_length_le h]
      rw [hd, hc]
      exact List.take_append_drop _ _
  have hlen := congrArg List.length hi.whole
  rw [List.length_append] at hlen
  refine ⟨?_, ?_, ?_, ?_⟩
  · simp only [State.take]
    rw [List.flatten_append, List.flatten_singleton, List.append_assoc, hpre]
    exact hi.whole
  · simp only [State.take]
    intro j r hr hne i hle hlt
    rcases Nat.lt_or_ge j s.reads.length with hj | hj
    · rw [List.getElem?_append_left hj] at hr
      rw [offset_append hj.le] at hle hlt ⊢
      exact hi.taken j r hr hne i hle hlt
    · obtain rfl : j = s.reads.length := by
        have hlt := (List.getElem?_eq_some_iff.mp hr).1
        rw [List.length_append, List.length_singleton] at hlt
        omega
      rw [List.getElem?_concat_length, Option.some.injEq] at hr
      subst hr
      rw [offset_append (Nat.le_refl _), offset_of_length_le (Nat.le_refl _)] at *
      rw [hc.resolve_left hne, List.length_take]
      have hend := offset_le s.written (i + 1)
      omega
  · intro r hr
    rcases List.mem_append.mp hr with hr | hr
    · exact hi.short r hr
    · rw [List.mem_singleton.mp hr]
      rcases hc with rfl | rfl
      · exact Nat.zero_le _
      · exact List.length_take_le _ _
  · simp only [State.take]
    rw [hi.lines, s.answer_eq, List.map_append]
    rfl

/-- A write begins behind everything that has been read. -/
theorem Inv.write_step (hi : Inv s) {bytes : List UInt8} (h : writeStep s bytes = some t) : Inv t := by
  simp only [writeStep, Option.ite_none_right_eq_some, Option.some.injEq] at h
  obtain ⟨-, rfl⟩ := h
  refine ⟨?_, ?_, hi.short, hi.lines⟩
  · rw [List.flatten_append, List.flatten_singleton, ← List.append_assoc, hi.whole]
  · intro j r hr hne i hle hlt
    dsimp only at hr hle hlt ⊢
    have hread : offset s.reads j < s.written.flatten.length := by
      have hsucc := offset_succ hr
      have hend := offset_le s.reads (j + 1)
      have hlen := congrArg List.length hi.whole
      have hpos := List.length_pos_of_ne_nil hne
      rw [List.length_append] at hlen
      omega
    have hilt : i < s.written.length := by
      by_contra hge
      have hmono := offset_mono (s.written ++ [bytes]) (Nat.not_lt.mp hge)
      rw [offset_append (Nat.le_refl _), offset_of_length_le (Nat.le_refl _)] at hmono
      omega
    rw [offset_append hilt.le] at hle
    rw [offset_append hilt] at hlt ⊢
    exact hi.taken j r hr hne i hle hlt

theorem Inv.server_step (hi : Inv s) {ok : Bool} (h : serverStep s ok = some t) : Inv t := by
  unfold serverStep at h
  cases hpc : s.pc with
  | mkfifo | openRead | openWrite =>
    simp only [hpc, Option.some.injEq] at h
    exact h ▸ ⟨hi.whole, hi.taken, hi.short, hi.lines⟩
  | read =>
    simp only [hpc] at h
    split_ifs at h <;> simp only [Option.some.injEq] at h <;> subst h
    · exact hi.take_step (.inr rfl)
    · exact hi.take_step (.inl rfl)
  | exited => simp only [hpc] at h; cases h

theorem inv_reachable (h : system.Reachable s) : Inv s := by
  refine h.invariant ?_ ?_
  · intro s hs
    obtain rfl : s = _ := hs
    exact ⟨rfl, nofun, nofun, rfl⟩
  · intro s a t hi hst
    cases a with
    | server ok => exact hi.server_step hst
    | write bytes => exact hi.write_step hst

/-! ### Requests -/

/-- Line `j` of the output prints the request that write `i` put into the FIFO. -/
def State.prints (s : State) (j i : ℕ) (r : Request) : Prop :=
  s.lines[j]? = some (.request r.pid r.msg) ∧ offset s.reads j = offset s.written i

/-- One `read` took bytes of write `i` together with bytes of an earlier write. -/
def State.mixed (s : State) (i : ℕ) : Prop :=
  ∃ j, offset s.reads j < offset s.written i ∧ offset s.written i < offset s.reads (j + 1)

/-- A line that prints a request comes from a `read` of full size. -/
theorem Inv.length_of_line (hi : Inv s) {j : ℕ} {pid : BitVec 32} {msg : Buffer 100}
    (h : s.lines[j]? = some (.request pid msg)) :
    ∃ r, s.reads[j]? = some r ∧ r.length = requestSize := by
  rw [hi.lines, List.getElem?_map, Option.map_eq_some_iff] at h
  obtain ⟨r, hr, hl⟩ := h
  refine ⟨r, hr, ?_⟩
  by_contra hne
  rw [lineOf, dif_neg hne] at hl
  cases hl

/-- Two reads that begin at one byte cannot both take something. -/
theorem Inv.prints_unique (hi : Inv s) {i j k : ℕ} {r : Request} (hj : s.prints j i r)
    (hk : s.prints k i r) : j = k := by
  have key : ∀ {j k : ℕ}, s.prints j i r → s.prints k i r → ¬ j < k := by
    intro j k hj hk hlt
    obtain ⟨q, hq, hlen⟩ := hi.length_of_line hj.1
    have hsucc := offset_succ hq
    have hmono := offset_mono s.reads (Nat.succ_le_of_lt hlt)
    rw [Nat.succ_eq_add_one, hsucc, hj.2, hk.2, hlen, requestSize] at hmono
    omega
  rcases Nat.lt_trichotomy j k with h | h | h
  · exact absurd h (key hj hk)
  · exact h
  · exact absurd h (key hk hj)

/-- A `read` that begins at a request takes it, and nothing else. -/
theorem Inv.read_eq (hi : Inv s) {i j : ℕ} {w q : List UInt8} (hw : s.written[i]? = some w)
    (hlen : w.length = requestSize) (hq : s.reads[j]? = some q) (hne : q ≠ [])
    (ho : offset s.reads j = offset s.written i) : q = w := by
  have hsucc := offset_succ hw
  have htake := hi.taken j q hq hne i ho.ge (by rw [ho, hsucc, hlen]; simp [requestSize])
  have hle := hi.short q (List.mem_of_getElem? hq)
  have hwhole : s.reads.flatten ++ s.pipe = s.written.flatten ++ [] := by
    rw [List.append_nil]
    exact hi.whole
  refine piece_unique hq hw hwhole ho ?_
  rw [ho, hsucc, Nat.add_sub_cancel_left, hlen, Nat.min_self] at htake
  omega

/-- All bytes of write `i` have been read. -/
def State.hasRead (s : State) (i : ℕ) : Prop := offset s.written (i + 1) ≤ s.reads.flatten.length

/-- A `read` that begins before a byte and one that begins at it are two. -/
theorem State.not_mixed_of_offset {i j : ℕ} (h : offset s.reads j = offset s.written i) :
    ¬ s.mixed i := by
  rintro ⟨k, hlt, hgt⟩
  rcases Nat.lt_or_ge k j with hk | hk
  · have := offset_mono s.reads (Nat.succ_le_of_lt hk)
    rw [Nat.succ_eq_add_one] at this
    omega
  · have := offset_mono s.reads hk
    omega

theorem Inv.printed_iff (hi : Inv s) {i : ℕ} {r : Request} (hw : s.written[i]? = some r.encode)
    (hread : s.hasRead i) : (∃! j, s.prints j i r) ↔ ¬ s.mixed i := by
  constructor
  · rintro ⟨j, hj, -⟩
    exact State.not_mixed_of_offset hj.2
  · intro hmixed
    have hsucc := offset_succ hw
    rw [r.length_encode] at hsucc
    have hpos : 0 < requestSize := by decide
    obtain ⟨j, q, hq, hle, hlt⟩ := exists_piece (l := s.reads) (x := offset s.written i)
      (by rw [State.hasRead] at hread; omega)
    have ho : offset s.reads j = offset s.written i := by
      by_contra hne
      exact hmixed ⟨j, by omega, hlt⟩
    have hne : q ≠ [] := by
      rintro rfl
      rw [offset_succ hq, List.length_nil] at hlt
      omega
    obtain rfl := hi.read_eq hw r.length_encode hq hne ho
    have hline : s.lines[j]? = some (.request r.pid r.msg) := by
      rw [hi.lines, List.getElem?_map, hq, Option.map_some, lineOf, dif_pos r.length_encode,
        r.decode_encode]
    exact ⟨j, ⟨hline, ho⟩, fun k hk => hi.prints_unique hk ⟨hline, ho⟩⟩

/-- As long as all writes are whole requests, every `read` begins at a request. -/
theorem Inv.dvd_reads (hi : Inv s) (hd : ∀ w ∈ s.written, requestSize ∣ w.length) :
    ∀ j, requestSize ∣ offset s.reads j := by
  intro j
  induction j with
  | zero => exact Nat.dvd_zero _
  | succ j ih =>
    cases hj : s.reads[j]? with
    | none =>
      have hlen := List.getElem?_eq_none_iff.mp hj
      rw [offset_of_length_le hlen] at ih
      rwa [offset_of_length_le (hlen.trans (Nat.le_succ j))]
    | some q =>
      rw [offset_succ hj]
      by_cases hne : q = []
      · rw [hne]
        exact ih
      · have hlen := congrArg List.length hi.whole
        have hsucc := offset_succ hj
        have hend := offset_le s.reads (j + 1)
        have hpos := List.length_pos_of_ne_nil hne
        rw [List.length_append] at hlen
        obtain ⟨i, w, hw, hle, hlt⟩ := exists_piece (l := s.written) (x := offset s.reads j) (by omega)
        have htake := hi.taken j q hj hne i hle hlt
        have hshort := hi.short q (List.mem_of_getElem? hj)
        have hrest : requestSize ∣ offset s.written (i + 1) - offset s.reads j :=
          Nat.dvd_sub (dvd_offset hd (i + 1)) ih
        have hge := Nat.le_of_dvd (by omega) hrest
        have hq : q.length = requestSize := by omega
        exact Nat.dvd_add ih (hq ▸ Nat.dvd_refl _)

theorem Inv.not_mixed_of_dvd (hi : Inv s) (hd : ∀ w ∈ s.written, requestSize ∣ w.length) (i : ℕ) :
    ¬ s.mixed i := by
  rintro ⟨j, hlt, hgt⟩
  have hsize : offset s.reads (j + 1) ≤ offset s.reads j + requestSize := by
    cases hj : s.reads[j]? with
    | none =>
      have hlen := List.getElem?_eq_none_iff.mp hj
      rw [offset_of_length_le (hlen.trans (Nat.le_succ j)), offset_of_length_le hlen]
      exact Nat.le_add_right _ _
    | some q =>
      rw [offset_succ hj]
      exact Nat.add_le_add_left (hi.short q (List.mem_of_getElem? hj)) _
  have hr := hi.dvd_reads hd j
  have hw := dvd_offset hd i
  have hgap := Nat.le_of_dvd (by omega) (Nat.dvd_sub hw hr)
  omega

/-- The server always goes on with what the FIFO holds. -/
theorem read_progress (hpc : s.pc = .read) (h : s.pipe ≠ []) :
    ∃ t, serverStep s true = some t ∧ t.reads.flatten.length = s.reads.flatten.length +
      min requestSize s.pipe.length := by
  refine ⟨s.take (s.pipe.take requestSize), by simp [serverStep, hpc, h], ?_⟩
  simp [State.take]

/-- Every request that was written at once and has been read was printed exactly once, with
its own `pid` and `msg`, if and only if no `read` took bytes of it together with bytes of
an earlier write, which never happens while all writes are whole requests. -/
theorem request_printed_once_iff (h : system.Reachable s) :
    (∀ i (r : Request), s.written[i]? = some r.encode → s.hasRead i →
      ((∃! j, s.prints j i r) ↔ ¬ s.mixed i)) ∧
    ((∀ w ∈ s.written, requestSize ∣ w.length) → ∀ i, ¬ s.mixed i) :=
  ⟨fun _ _ hw hr => (inv_reachable h).printed_iff hw hr, (inv_reachable h).not_mixed_of_dvd⟩

/-- Two requests with a short write between them: the first is printed, and the second, which is read together with
the byte before it, is not. -/
theorem request_printed_once_iff_two :
    ∃ s, system.Reachable s ∧
      s.written = [Request.encode ⟨7, 5, .zero 100⟩, [0], Request.encode ⟨8, 5, .zero 100⟩] ∧
      (∃! j, s.prints j 0 ⟨7, 5, .zero 100⟩) ∧ ¬ ∃! j, s.prints j 2 ⟨8, 5, .zero 100⟩ := by
  have hr := System.reachable_of_isSome (S := system)
    (s := ⟨.mkfifo, [], .zero _, [], [], []⟩) rfl
    [.server true, .server true, .server true, .write (Request.encode ⟨7, 5, .zero 100⟩), .write [0],
      .write (Request.encode ⟨8, 5, .zero 100⟩), .server true, .server true, .server true] (by decide +kernel)
  refine ⟨_, hr, by decide +kernel, ?_⟩
  obtain ⟨honce, -⟩ := request_printed_once_iff hr
  constructor
  · refine (honce 0 ⟨7, 5, .zero 100⟩ (by decide +kernel) (show offset _ _ ≤ _ by decide +kernel)).mpr ?_
    exact State.not_mixed_of_offset (j := 0) rfl
  · rw [honce 2 ⟨8, 5, .zero 100⟩ (by decide +kernel) (show offset _ _ ≤ _ by decide +kernel), not_not]
    exact ⟨1, show offset _ _ < offset _ _ by decide +kernel, show offset _ _ < offset _ _ by decide +kernel⟩

/-- One byte and a request behind it, which are read together: the request is read to its
last byte and no line prints it. -/
theorem request_not_printed_after_short_write :
    ∃ s, system.Reachable s ∧ s.written = [[0], Request.encode ⟨7, 5, .zero 100⟩] ∧ s.hasRead 1 ∧
      ∀ msg, Line.request 7 msg ∉ s.lines := by
  have hr := System.reachable_of_isSome (S := system)
    (s := ⟨.mkfifo, [], .zero _, [], [], []⟩) rfl
    [.server true, .server true, .server true, .write [0],
      .write (Request.encode ⟨7, 5, .zero 100⟩), .server true, .server true] (by decide)
  refine ⟨_, hr, by decide, show offset _ _ ≤ _ by decide, ?_⟩
  have hlines : ((system.run ⟨.mkfifo, [], .zero _, [], [], []⟩
      [.server true, .server true, .server true, .write [0],
        .write (Request.encode ⟨7, 5, .zero 100⟩), .server true, .server true]).get
      (by decide)).lines = [.request 1792 (.zero 100), .error] := by decide
  intro msg
  rw [hlines]
  simp

end LinuxApi.FifoServer
