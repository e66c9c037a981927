import LinuxApi.Kernel.CText
import LinuxApi.Kernel.Lines
import Mathlib.Data.Int.Init

/-! The delimited read of `fileio_stdio_read`. The loop stores the delimiter like any other character,
and the last character read tells afterwards whether it is to be taken back, also where the delimiter is
the last character allowed. -/

namespace LinuxApi.StdioRead

/-- `BUF_SIZE` -/
def bufSize : ℕ := 1000

/-- `'\n'` -/
def newline : UInt8 := 10

/-- The same as an `int`. -/
def delimiter : ℤ := 10

/-- `EOF` -/
def eof : ℤ := -1

/-- `ch` has no value before the first `fgetc`, `idx` is an index into `buf`, and `stream` is what is not
yet read. -/
structure State where
  ch : Option ℤ
  idx : ℕ
  buf : Buffer bufSize
  stream : List UInt8
  deriving DecidableEq

/-- The next character as an `unsigned char`. -/
def fgetc : List UInt8 → ℤ × List UInt8
  | [] => (eof, [])
  | c :: rest => (c.toNat, rest)

/-- A store at `idx`; there is none outside of `buf`. -/
def State.store (s : State) (byte : UInt8) : Option State :=
  if s.idx < bufSize then some { s with buf := s.buf.storeAt s.idx [byte] } else none

/-- `*(idx++) = ch`, with the value of the assignment, a signed `char`. -/
def State.put (s : State) (ch : ℤ) : Option (ℤ × State) :=
  (s.store (UInt8.ofInt ch)).map fun t => ((UInt8.ofInt ch).toInt8.toInt, { t with idx := t.idx + 1 })

/-- The loop, whose condition is evaluated as far as it holds. -/
def loop : ℕ → State → Option State
  | 0, s => some s
  | need + 1, s =>
    if 0 < need then
      let (ch, rest) := fgetc s.stream
      let t := { s with ch := some ch, stream := rest }
      if ch ≠ eof then
        match t.put ch with
        | some (value, u) => if value ≠ delimiter then loop need u else some u
        | none => none
      else some t
    else some s

/-- The store behind the loop; nothing can be said of a test of a `ch` without a value, or of a step back
from the beginning of `buf`. -/
def State.terminate (s : State) : Option State :=
  match s.ch with
  | none => none
  | some ch =>
    if ch = delimiter then
      if 0 < s.idx then { s with idx := s.idx - 1 }.store 0 else none
    else s.store 0

/-- The read with the limit `need`; `buf` holds anything at first. -/
def readDelimited (need : ℕ) (buf : Buffer bufSize) (stream : List UInt8) : Option State :=
  (loop need ⟨none, 0, buf, stream⟩).bind State.terminate

/-- The function on a file, or on none that `fopen` can open: what it prints, and the message with which
it exits. `closed` tells whether `fclose` succeeds. -/
def fileioStdioRead (file : Option (List UInt8)) (buf : Buffer bufSize) (closed : Bool) :
    Option (List UInt8 × Option String) :=
  match file with
  | none => some ([], some "fdopen")
  | some stream => (readDelimited 10 buf stream).map fun s =>
      (cText s.buf.bytes ++ [newline], if closed then none else some "fclose")

variable {need : ℕ} {s t : State} {c : UInt8} {rest : List UInt8}

/-! ### Characters -/

theorem ofInt_toNat (c : UInt8) : UInt8.ofInt c.toNat = c := by
  have hlt := c.toNat_lt
  rw [UInt8.ofInt, Int.emod_eq_of_lt (Int.natCast_nonneg _) (by omega), Int.toNat_natCast,
    UInt8.ofNat_toNat]

theorem toNat_ne_eof (c : UInt8) : (c.toNat : ℤ) ≠ eof := by
  rw [eof]
  omega

/-- As an `unsigned char` the delimiter is one character only. -/
theorem toNat_eq_delimiter : (c.toNat : ℤ) = delimiter ↔ c = newline := by
  rw [← UInt8.toNat_inj]
  show (c.toNat : ℤ) = 10 ↔ c.toNat = 10
  omega

/-- And so it is as a signed `char`. -/
theorem toInt_eq_delimiter : c.toInt8.toInt = delimiter ↔ c = newline := by
  constructor
  · intro h
    have hchar : c.toInt8 = newline.toInt8 := Int8.toInt_inj.mp h
    rw [← UInt8.toUInt8_toInt8 c, hchar, UInt8.toUInt8_toInt8]
  · rintro rfl
    rfl

/-! ### The loop -/

/-- A character is read and stored. -/
def State.next (s : State) (c : UInt8) (rest : List UInt8) : State where
  ch     := some c.toNat
  idx    := s.idx + 1
  buf    := s.buf.storeAt s.idx [c]
  stream := rest

theorem put_toNat (h : s.idx < bufSize) :
    { s with ch := some (c.toNat : ℤ), stream := rest }.put c.toNat =
      some (c.toInt8.toInt, s.next c rest) := by
  simp only [State.put, State.store, ofInt_toNat, if_pos h, Option.map_some]
  rfl

theorem loop_nil (hneed : 0 < need) (hs : s.stream = []) :
    loop (need + 1) s = some { s with ch := some eof } := by
  have hget : fgetc s.stream = (eof, s.stream) := by rw [hs, fgetc]
  rw [loop, if_pos hneed, hget]
  exact if_neg (not_not.mpr rfl)

theorem loop_cons (hneed : 0 < need) (hs : s.stream = c :: rest) (h : s.idx < bufSize) :
    loop (need + 1) s = if c = newline then some (s.next c rest) else loop need (s.next c rest) := by
  have hget : fgetc s.stream = (↑c.toNat, rest) := by rw [hs, fgetc]
  rw [loop, if_pos hneed, hget]
  simp only [ne_eq, toNat_ne_eof, not_false_eq_true, if_true, put_toNat h, toInt_eq_delimiter, ite_not]

/-- The loop has read a chunk and left the rest, and `ch` tells of it unless it is from before. -/
structure Reads (need : ℕ) (s t : State) (chunk rest : List UInt8) : Prop where
  index : t.idx = s.idx + chunk.length
  bytes : t.buf.load t.idx = s.buf.load s.idx ++ chunk
  stream : t.stream = rest
  last : t.ch = some delimiter ↔ newline ∈ chunk ∨ need ≤ 1 ∧ s.ch = some delimiter
  unset : t.ch = none → need ≤ 1 ∧ s.ch = none

theorem next_ch : (s.next c rest).ch = some delimiter ↔ c = newline := by
  rw [State.next, Option.some.injEq, toNat_eq_delimiter]

theorem load_next (h : s.idx < bufSize) :
    (s.next c rest).buf.load (s.idx + 1) = s.buf.load s.idx ++ [c] := by
  have hfits : s.idx + [c].length ≤ bufSize := h
  exact Buffer.load_storeAt s.buf hfits

theorem Reads.limit (h : need ≤ 1) (s : State) : Reads need s s [] s.stream where
  index := rfl
  bytes := (List.append_nil _).symm
  stream := rfl
  last := by simp [h]
  unset hch := ⟨h, hch⟩

theorem Reads.nil (hneed : 0 < need) (hs : s.stream = []) :
    Reads (need + 1) s { s with ch := some eof } [] [] where
  index := rfl
  bytes := (List.append_nil _).symm
  stream := hs
  last := by
    have hlimit : ¬ need + 1 ≤ 1 := by omega
    simp [hlimit, eof, delimiter]
  unset hch := absurd hch (Option.some_ne_none _)

/-- The delimiter ends the reading. -/
theorem Reads.delimiter (h : s.idx < bufSize) :
    Reads (need + 1) s (s.next newline rest) [newline] rest where
  index := rfl
  bytes := load_next h
  stream := rfl
  last := by simp [next_ch]
  unset hch := absurd hch (Option.some_ne_none _)

/-- Any other character comes in front of what is read afterwards. -/
theorem Reads.cons (hneed : 0 < need) (hc : c ≠ newline) (h : s.idx < bufSize) {chunk left : List UInt8}
    (hr : Reads need (s.next c rest) t chunk left) : Reads (need + 1) s t (c :: chunk) left where
  index := by
    rw [hr.index, List.length_cons]
    show s.idx + 1 + chunk.length = s.idx + (chunk.length + 1)
    omega
  bytes := by
    rw [hr.bytes]
    show (s.next c rest).buf.load (s.idx + 1) ++ chunk = s.buf.load s.idx ++ c :: chunk
    rw [load_next h, List.append_assoc, List.singleton_append]
  stream := hr.stream
  last := by
    have hlimit : ¬ need + 1 ≤ 1 := by omega
    rw [hr.last, next_ch]
    simp [hc, hlimit, Ne.symm hc]
  unset hch := absurd (hr.unset hch).2 (Option.some_ne_none _)

/-- The loop never stores outside of `buf` while the limit is in reach of its end. -/
theorem loop_reads (need : ℕ) (s : State) (h : s.idx + (need - 1) ≤ bufSize) :
    ∃ t, loop need s = some t ∧ Reads need s t (Lines.gets newline (need - 1) s.stream).1
      (Lines.gets newline (need - 1) s.stream).2 := by
  induction need generalizing s with
  | zero => exact ⟨s, rfl, .limit (Nat.zero_le 1) s⟩
  | succ need ih =>
    rw [Nat.add_sub_cancel] at h ⊢
    cases need with
    | zero => exact ⟨s, rfl, .limit (Nat.le_refl 1) s⟩
    | succ n =>
      have hneed : 0 < n + 1 := Nat.succ_pos n
      cases hs : s.stream with
      | nil => exact ⟨_, loop_nil hneed hs, .nil hneed hs⟩
      | cons c rest =>
        have hroom : s.idx < bufSize := by omega
        rw [loop_cons hneed hs hroom, Lines.gets]
        by_cases hc : c = newline
        · subst hc
          rw [if_pos rfl, if_pos rfl]
          exact ⟨_, rfl, .delimiter hroom⟩
        · have hnext : (s.next c rest).idx + (n + 1 - 1) ≤ bufSize := by
            show s.idx + 1 + n ≤ bufSize
            omega
          obtain ⟨t, ht, hr⟩ := ih (s.next c rest) hnext
          rw [if_neg hc, if_neg hc]
          exact ⟨t, ht, hr.cons hneed hc hroom⟩

/-! ### The terminator -/

/-- `buf` begins with a text and the zero that ends it. -/
def Holds (buf : Buffer bufSize) (text : List UInt8) : Prop := text ++ [0] <+: buf.bytes

theorem store_eq (h : s.idx < bufSize) (byte : UInt8) :
    s.store byte = some { s with buf := s.buf.storeAt s.idx [byte] } := if_pos h

theorem holds_storeAt (buf : Buffer bufSize) {i : ℕ} (h : i < bufSize) :
    Holds (buf.storeAt i [0]) (buf.load i) := by
  have hfits : i + [(0 : UInt8)].length ≤ bufSize := h
  have hload : (buf.storeAt i [0]).load (i + 1) = buf.load i ++ [0] := Buffer.load_storeAt buf hfits
  rw [Holds, ← hload]
  exact List.take_prefix _ _

theorem Holds.length_lt {buf : Buffer bufSize} {text : List UInt8} (h : Holds buf text) :
    text.length < bufSize := by
  have hle := h.length_le
  rw [buf.length_eq, List.length_append] at hle
  exact hle

theorem Holds.getElem? {buf : Buffer bufSize} {text : List UInt8} (h : Holds buf text) :
    buf.bytes[text.length]? = some 0 := by
  obtain ⟨behind, hb⟩ := h
  rw [← hb, List.append_assoc, List.getElem?_append_right (Nat.le_refl _), Nat.sub_self]
  rfl

/-- What `%s` prints of it. -/
theorem Holds.cText {buf : Buffer bufSize} {text : List UInt8} (h : Holds buf text) :
    LinuxApi.cText buf.bytes = LinuxApi.cText text := by
  obtain ⟨behind, hb⟩ := h
  rw [← hb, cText_append_of_mem (by simp)]
  by_cases h0 : 0 ∈ text
  · exact cText_append_of_mem h0
  · rw [cText_append_of_notMem h0, cText_eq_self.mpr h0, cText_cons_zero, List.append_nil]

/-- A loop that has read the delimiter last steps back to it. -/
theorem terminate_of_delimiter (hch : s.ch = some delimiter) {i : ℕ} (hi : s.idx = i + 1)
    (h : i < bufSize) : s.terminate = some { s with idx := i, buf := s.buf.storeAt i [0] } := by
  rw [State.terminate, hch]
  simp only [if_true, hi, Nat.succ_pos, Nat.add_sub_cancel]
  exact store_eq h 0

theorem terminate_of_ne (hset : s.ch ≠ none) (hch : s.ch ≠ some delimiter) (h : s.idx < bufSize) :
    s.terminate = some { s with buf := s.buf.storeAt s.idx [0] } := by
  obtain ⟨ch, hs⟩ := Option.ne_none_iff_exists'.mp hset
  have hne : ch ≠ delimiter := by
    rintro rfl
    exact hch hs
  rw [State.terminate, hs]
  simp only [if_neg hne]
  rw [store_eq h, hs]

/-- `buf` holds the characters in front of the delimiter and no others, and `idx` is at the zero. -/
theorem readDelimited_holds (h2 : 2 ≤ need) (hsize : need ≤ bufSize) (buf : Buffer bufSize)
    (stream : List UInt8) :
    ∃ s, readDelimited need buf stream = some s ∧ Holds s.buf (Lines.body newline (need - 1) stream) ∧
      s.idx = (Lines.body newline (need - 1) stream).length ∧
      s.stream = (Lines.gets newline (need - 1) stream).2 := by
  have hlimit : ¬ need ≤ 1 := by omega
  have hlen : (Lines.gets newline (need - 1) stream).1.length ≤ need - 1 := Lines.length_gets_le _ _
  obtain ⟨t, hloop, hr⟩ := loop_reads need ⟨none, 0, buf, stream⟩ (by rw [Nat.zero_add]; omega)
  have hindex : t.idx = (Lines.gets newline (need - 1) stream).1.length :=
    hr.index.trans (Nat.zero_add _)
  have hbytes : t.buf.load t.idx = (Lines.gets newline (need - 1) stream).1 := hr.bytes
  have hset : t.ch ≠ none := fun hch => hlimit (hr.unset hch).1
  have hlast : t.ch = some delimiter ↔ newline ∈ stream.take (need - 1) := by
    rw [hr.last, ← Lines.mem_gets]
    exact or_iff_left fun h => hlimit h.1
  rw [readDelimited, hloop, Option.bind_some]
  rw [Lines.gets_eq_body] at hindex hbytes hlen
  by_cases hmem : newline ∈ stream.take (need - 1)
  · rw [if_pos hmem, List.length_append, List.length_singleton] at hindex hlen
    rw [if_pos hmem] at hbytes
    have hin : (Lines.body newline (need - 1) stream).length < bufSize := by omega
    refine ⟨_, terminate_of_delimiter (hlast.mpr hmem) hindex hin, ?_, rfl, hr.stream⟩
    have hholds := holds_storeAt t.buf hin
    rwa [Buffer.load_of_append hbytes] at hholds
  · rw [if_neg hmem] at hindex hbytes hlen
    have hin : t.idx < bufSize := by omega
    refine ⟨_, terminate_of_ne hset (mt hlast.mp hmem) hin, ?_, hindex, hr.stream⟩
    have hholds := holds_storeAt t.buf hin
    rwa [hbytes] at hholds

/-- With every limit that `buf` has room for, whatever the stream and whatever was in `buf`: a delimiter
in reach is read and left out, and otherwise the limit or the end of the stream stops the reading. -/
theorem delimited_exact (h2 : 2 ≤ need) (hsize : need ≤ bufSize) (buf : Buffer bufSize)
    (stream : List UInt8) :
    ∃ s, readDelimited need buf stream = some s ∧
      (∀ before rest, stream = before ++ newline :: rest → newline ∉ before → before.length < need - 1 →
        Holds s.buf before ∧ s.stream = rest) ∧
      (newline ∉ stream.take (need - 1) →
        Holds s.buf (stream.take (need - 1)) ∧ s.stream = stream.drop (need - 1)) ∧
      s.idx < bufSize ∧ s.buf.bytes[s.idx]? = some 0 := by
  obtain ⟨s, hs, hholds, hidx, hstream⟩ := readDelimited_holds h2 hsize buf stream
  refine ⟨s, hs, ?_, ?_, hidx ▸ hholds.length_lt, hidx ▸ hholds.getElem?⟩
  · rintro before rest rfl hbefore hlt
    obtain ⟨hbody, hrest⟩ := Lines.gets_of_append hbefore hlt rest
    exact ⟨hbody ▸ hholds, hstream.trans hrest⟩
  · intro hmem
    obtain ⟨hbody, hrest⟩ := Lines.gets_of_notMem hmem
    exact ⟨hbody ▸ hholds, hstream.trans hrest⟩

/-- The newline is the last character allowed. -/
theorem delimited_exact_at_limit :
    ∃ s, readDelimited 3 (.zero bufSize) [97, 10, 98] = some s ∧ Holds s.buf [97] ∧ s.stream = [98] := by
  have hneed : 2 ≤ 3 ∧ 3 ≤ bufSize := by decide
  obtain ⟨s, hs, hfound, -⟩ := delimited_exact hneed.1 hneed.2 (.zero bufSize) [97, 10, 98]
  exact ⟨s, hs, hfound [97] [98] rfl (by decide) (by decide)⟩

/-- The text the function prints is that of the first line, up to nine characters and a zero. -/
theorem fileioStdioRead_some (stream : List UInt8) (buf : Buffer bufSize) (closed : Bool) :
    fileioStdioRead (some stream) buf closed =
      some (cText (Lines.body newline 9 stream) ++ [newline],
        if closed then none else some "fclose") := by
  have hneed : 2 ≤ 10 ∧ 10 ≤ bufSize := by decide
  obtain ⟨s, hs, hholds, -⟩ := readDelimited_holds hneed.1 hneed.2 buf stream
  rw [fileioStdioRead, hs, Option.map_some, hholds.cText]

end LinuxApi.StdioRead
