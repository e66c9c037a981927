import LinuxApi.Kernel.CText

/-! The child of `ipc_pipe_stdinout`. Every `read` of its loop stores at the beginning of `buf`, and `buf` is
printed once behind the loop: what is seen at a place is the last chunk that was long enough to reach it. -/

namespace LinuxApi.PipeStdinout

/-- `BUFFER_SIZE` -/
def bufferSize : ℕ := 4096

/-- How the child's part ends: `printf("child buf = %s\n", buf)`, where with `overrun` the text does not end
in `buf`, or `errExit`. -/
inductive Outcome where
  | printed (text : List UInt8) (overrun : Bool)
  | exited (msg : String)
  deriving DecidableEq

/-- The loop of the child on a pipe with the bytes `pipe`, and the `printf` behind it. -/
def child (buf : Buffer bufferSize) (pipe : List UInt8) : List ReadResult → Option Outcome
  | [] => none
  | r :: rs =>
    match readStream bufferSize pipe r with
    | none => none
    | some (chunk, rest) =>
      match r with
      | .error => some (.exited "read() - child")
      | .eof => some (.printed (cText buf.bytes) (0 ∉ buf.bytes))
      | .data _ => child (buf.store chunk) rest rs

/-- The chunks into which the calls split the bytes. -/
def chunks (pipe : List UInt8) : List ReadResult → List (List UInt8)
  | .data n :: rs => pipe.take n :: chunks (pipe.drop n) rs
  | _ => []

/-- What is seen at `j`: the last chunk that reaches so far, or what `buf` held before. -/
def byteAt (buf : Buffer bufferSize) (cs : List (List UInt8)) (j : ℕ) : Option UInt8 :=
  match (cs.filter fun c => j < c.length).getLast? with
  | some chunk => chunk[j]?
  | none => buf.bytes[j]?

/-- Behind `bytes` there was a zero in `buf`, and each byte is at its place in the last chunk that is long
enough to have it, or in `buf` before. -/
structure InPlace (buf : Buffer bufferSize) (bytes : List UInt8) (cs : List (List UInt8)) : Prop where
  zero_behind : buf.bytes[bytes.length]? = some 0
  placed : ∀ j < bytes.length, byteAt buf cs j = bytes[j]?

variable {buf : Buffer bufferSize} {bytes : List UInt8} {cs : List (List UInt8)} {rs : List ReadResult}
  {text : List UInt8} {overrun : Bool}

/-! ### The buffer behind the loop -/

theorem byteAt_cons {c : List UInt8} (hc : c.length ≤ bufferSize) (j : ℕ) :
    byteAt buf (c :: cs) j = byteAt (buf.store c) cs j := by
  unfold byteAt
  by_cases hj : j < c.length
  · have hfilter : (c :: cs).filter (fun c => j < c.length) = c :: cs.filter fun c => j < c.length := by
      simp [hj]
    rw [hfilter, List.getLast?_cons]
    cases (cs.filter fun c => j < c.length).getLast? with
    | none => rw [buf.getElem?_store hc, if_pos hj]; rfl
    | some d => rfl
  · have hfilter : (c :: cs).filter (fun c => j < c.length) = cs.filter fun c => j < c.length := by
      simp [hj]
    rw [hfilter]
    cases (cs.filter fun c => j < c.length).getLast? with
    | none => rw [buf.getElem?_store hc, if_neg hj]
    | some d => rfl

/-- What is printed is what has been stored, place by place. -/
theorem exists_final {pipe : List UInt8} (h : child buf pipe rs = some (.printed text overrun)) :
    (chunks pipe rs).flatten = pipe ∧ ∃ final : Buffer bufferSize, text = cText final.bytes ∧
      (overrun = false ↔ 0 ∈ final.bytes) ∧ ∀ j, final.bytes[j]? = byteAt buf (chunks pipe rs) j := by
  induction rs generalizing buf pipe with
  | nil => cases h
  | cons r rs ih =>
    unfold child at h
    cases hread : readStream bufferSize pipe r with
    | none => rw [hread] at h; cases h
    | some p =>
      obtain ⟨chunk, rest⟩ := p
      rw [hread] at h
      cases r with
      | error => cases h
      | eof =>
        simp only [Option.some.injEq, Outcome.printed.injEq] at h
        obtain ⟨rfl, rfl⟩ := h
        simp only [readStream, Option.ite_none_right_eq_some, Option.some.injEq, Prod.mk.injEq] at hread
        obtain ⟨rfl, -, -⟩ := hread
        exact ⟨rfl, buf, rfl, by simp, fun j => rfl⟩
      | data n =>
        have hle := readStream_length_le hread
        simp only [readStream, Option.ite_none_right_eq_some, Option.some.injEq, Prod.mk.injEq] at hread
        obtain ⟨-, rfl, rfl⟩ := hread
        obtain ⟨hflat, final, htext, hover, hbytes⟩ := ih h
        refine ⟨?_, final, htext, hover, fun j => ?_⟩
        · rw [chunks, List.flatten_cons, hflat, List.take_append_drop]
        · rw [chunks, byteAt_cons hle, hbytes]

/-! ### What is printed -/

/-- No chunk reaches behind all the bytes. -/
theorem byteAt_length (h : cs.flatten = bytes) :
    byteAt buf cs bytes.length = buf.bytes[bytes.length]? := by
  have hnone : (cs.filter fun c => bytes.length < c.length) = [] := by
    rw [List.filter_eq_nil_iff]
    intro c hc
    have hle := (List.sublist_flatten_of_mem hc).length_le
    rw [h] at hle
    simpa using hle
  rw [byteAt, hnone]
  rfl

/-- A string that arrives in one piece only needs the zero behind it. -/
theorem inPlace_single (buf : Buffer bufferSize) (bytes : List UInt8) :
    InPlace buf bytes [bytes] ↔ buf.bytes[bytes.length]? = some 0 := by
  refine ⟨fun h => h.zero_behind, fun h => ⟨h, fun j hj => ?_⟩⟩
  have hfilter : [bytes].filter (fun c => j < c.length) = [bytes] := by
    simp [hj]
  rw [byteAt, hfilter]
  rfl

/-- The text is all that was written exactly if a zero was behind it and no later chunk has overwritten a
byte of it. -/
theorem text_iff_inPlace (h0 : 0 ∉ bytes) (h : child buf bytes rs = some (.printed text overrun)) :
    text = bytes ∧ overrun = false ↔ InPlace buf bytes (chunks bytes rs) := by
  obtain ⟨hflat, final, rfl, hover, hfinal⟩ := exists_final h
  rw [hover, cText_eq_iff_prefix h0, List.prefix_iff_getElem?]
  constructor
  · intro hall
    refine ⟨?_, fun j hj => ?_⟩
    · have hlast := hall bytes.length (by simp)
      rw [hfinal, byteAt_length hflat] at hlast
      simpa using hlast
    · have hone := hall j (by simp; omega)
      rw [hfinal, List.getElem_append_left hj] at hone
      rw [hone, List.getElem?_eq_getElem hj]
  · rintro ⟨hzero, hplaced⟩ j hj
    rw [hfinal]
    rcases Nat.lt_or_ge j bytes.length with hlt | hge
    · rw [hplaced j hlt, List.getElem_append_left hlt, List.getElem?_eq_getElem hlt]
    · obtain rfl : j = bytes.length := by
        rw [List.length_append, List.length_singleton] at hj
        omega
      rw [byteAt_length hflat, hzero]
      simp

/-- `12` in one piece into a buffer of zeros. -/
theorem text_iff_inPlace_whole : ∃ text overrun,
    child (.zero _) [49, 50] [.data 2, .eof] = some (.printed text overrun) ∧
    (text = [49, 50] ∧ overrun = false ↔ InPlace (.zero _) [49, 50] (chunks [49, 50] [.data 2, .eof])) ∧
    InPlace (.zero _) [49, 50] [[49, 50]] :=
  ⟨[49, 50], false, rfl, text_iff_inPlace (by decide) rfl, (inPlace_single _ _).mpr rfl⟩

/-- `12` in two pieces is printed as `2`; and `1` in one piece runs on into what `buf` held before. -/
theorem not_printed_split :
    (∃ text, child (.zero _) [49, 50] [.data 1, .data 1, .eof] = some (.printed text false) ∧
      text = [50] ∧ text ≠ [49, 50]) ∧
    ∃ text, child ((Buffer.zero _).store [50, 51]) [49] [.data 1, .eof] = some (.printed text false) ∧
      text = [49, 51] ∧ text ≠ [49] :=
  ⟨⟨_, rfl, rfl, by decide⟩, _, rfl, rfl, by decide⟩

end LinuxApi.PipeStdinout
