import LinuxApi.AltIo.SignalIo
import LinuxApi.Kernel.CText

/-! What `alt_io_signal` prints of its input. Its zero is stored behind the whole buffer, so a shorter
chunk is printed with what an earlier one has left; and a chunk that begins with a newline is not printed
at all. -/

namespace LinuxApi.SignalIo

/-- The chunk that a step has read. -/
def emitChunk (s : State) : Action → List (List UInt8)
  | .main r =>
    if s.pc = .read then
      match s.readInput r with
      | some (chunk, _) => if chunk = [] then [] else [chunk]
      | none => []
    else []
  | .sigioHandler | .arrive _ => []

/-- The loop together with the chunks read so far. -/
abbrev chunked : System (State × List (List UInt8)) Action := system.recorded emitChunk

/-- What should be printed of the chunks: all that are more than a lone newline. -/
def lines (chunks : List (List UInt8)) : List (List UInt8) := chunks.filter (· ≠ [newline])

/-- Between two chunks all of them are printed as they are, behind the lines that were there before. -/
def Faithful (before : List (List UInt8)) (p : State × List (List UInt8)) : Prop :=
  p.1.pc ≠ .check → p.1.pc ≠ .print → p.1.printed = before ++ lines p.2

/-- A chunk that is not printed is a lone newline; one that is printed has no zero, and one behind it in
`buf` if it is shorter. -/
def wholeChunk (p : State × List (List UInt8)) : Action → Bool
  | .main _ =>
    (p.1.pc = .check → p.1.buf.bytes.head? = some newline → p.2.getLast? = some [newline]) ∧
    (p.1.pc = .print →
      ∀ chunk ∈ p.2.getLast?, 0 ∉ chunk ∧ p.1.buf.bytes[chunk.length]?.getD 0 = 0)
  | .sigioHandler | .arrive _ => true

/-- The last chunk is at the front of `buf`, and the ones before it are printed. -/
structure Reading (before : List (List UInt8)) (s : State) (chunks : List (List UInt8)) : Prop where
  last : ∃ earlier chunk rest, chunks = earlier ++ [chunk] ∧ chunk ≠ [] ∧ s.buf.bytes = chunk ++ rest ∧
    s.printed = before ++ lines earlier
  kept : s.pc = .print → s.buf.bytes.head? ≠ some newline

structure Printed (before : List (List UInt8)) (p : State × List (List UInt8)) : Prop where
  faithful : Faithful before p
  reading : p.1.pc = .check ∨ p.1.pc = .print → Reading before p.1 p.2

variable {before chunks : List (List UInt8)} {s t : State} {p q : State × List (List UInt8)}

/-- A step that neither reads nor prints. -/
theorem Printed.frame (hi : Printed before (s, chunks)) (hs : s.pc ≠ .check) (hs' : s.pc ≠ .print)
    (ht : t.pc ≠ .check) (ht' : t.pc ≠ .print) (hp : t.printed = s.printed) :
    Printed before (t, chunks) := by
  refine ⟨fun _ _ => hp.trans (hi.faithful hs hs'), fun h => ?_⟩
  rcases h with h | h
  · exact absurd h ht
  · exact absurd h ht'

/-- The input and the signal do not touch what is read and printed. -/
theorem Printed.of_eq (hi : Printed before (s, chunks)) (hpc : t.pc = s.pc) (hb : t.buf = s.buf)
    (hp : t.printed = s.printed) : Printed before (t, chunks) := by
  refine ⟨?_, fun h => ?_⟩
  · unfold Faithful
    rw [hpc, hp]
    exact hi.faithful
  · rw [hpc] at h
    obtain ⟨hlast, hkept⟩ := hi.reading h
    exact ⟨by rw [hb, hp]; exact hlast, by rw [hb, hpc]; exact hkept⟩

theorem lines_concat (earlier : List (List UInt8)) (chunk : List UInt8) :
    lines (earlier ++ [chunk]) = if chunk = [newline] then lines earlier else lines earlier ++ [chunk] := by
  rw [lines, List.filter_append]
  split_ifs with h <;> simp [lines, h]

/-- A chunk that begins with a newline is passed over; it should be nothing else. -/
theorem faithful_skip_iff (hr : Reading before s chunks) :
    Faithful before ({ s with pc := .sleep }, chunks) ↔ chunks.getLast? = some [newline] := by
  obtain ⟨⟨earlier, chunk, rest, rfl, hne, hb, hp⟩, -⟩ := hr
  have hiff : Faithful before ({ s with pc := .sleep }, earlier ++ [chunk]) ↔
      s.printed = before ++ lines (earlier ++ [chunk]) :=
    ⟨fun h => h Pc.noConfusion Pc.noConfusion, fun h _ _ => h⟩
  rw [hiff, hp, List.append_cancel_left_eq, lines_concat, List.getLast?_concat, Option.some.injEq]
  split_ifs with hc <;> simp [hc]

/-- The text of `buf` is the chunk exactly if the next byte ends it. -/
theorem faithful_print_iff (hr : Reading before s chunks) (hpc : s.pc = .print) :
    Faithful before ({ s with printed := s.printed ++ [s.buf.bytes.takeWhile (· ≠ 0)], pc := .read }, chunks) ↔
      ∀ chunk ∈ chunks.getLast?, 0 ∉ chunk ∧ s.buf.bytes[chunk.length]?.getD 0 = 0 := by
  have hkept := hr.kept hpc
  obtain ⟨⟨earlier, chunk, rest, rfl, hne, hb, hp⟩, -⟩ := hr
  have hchunk : chunk ≠ [newline] := by
    rintro rfl
    exact hkept (by rw [hb]; rfl)
  have hnext : s.buf.bytes[chunk.length]? = rest.head? := by
    rw [hb, List.getElem?_append_right (Nat.le_refl _), Nat.sub_self, List.head?_eq_getElem?]
  have hzero : rest.head?.getD 0 = 0 ↔ ∀ a ∈ rest.head?, a = 0 := by
    cases rest <;> simp
  have hiff : Faithful before ({ s with
      printed := s.printed ++ [s.buf.bytes.takeWhile (· ≠ 0)], pc := .read }, earlier ++ [chunk]) ↔
      s.printed ++ [cText s.buf.bytes] = before ++ lines (earlier ++ [chunk]) :=
    ⟨fun h => h Pc.noConfusion Pc.noConfusion, fun h _ _ => h⟩
  rw [hiff, hp, lines_concat, if_neg hchunk, List.append_assoc, List.append_cancel_left_eq,
    List.append_cancel_left_eq, List.singleton_inj, hb, cText_append_eq_left, List.getLast?_concat]
  simp [← hb, hnext, hzero]

/-- A `read` puts its chunk at the front of `buf`. -/
theorem Printed.read (hi : Printed before (s, chunks)) (hpc : s.pc = .read) {r : ReadResult}
    (h : mainStep s r = some t) : Printed before (t, chunks ++ emitChunk s (.main r)) := by
  simp only [mainStep, hpc, Option.map_eq_some_iff] at h
  obtain ⟨⟨chunk, rest⟩, hread, rfl⟩ := h
  have hprinted := hi.faithful (by rw [hpc]; exact Pc.noConfusion) (by rw [hpc]; exact Pc.noConfusion)
  have hlen : chunk.length ≤ bufSize := State.readInput_length_le hread
  by_cases hc : chunk = []
  · have hemit : emitChunk s (.main r) = [] := by simp [emitChunk, hpc, hread, hc]
    rw [hemit, List.append_nil]
    refine ⟨fun _ _ => hprinted, fun h => ?_⟩
    simp [hc] at h
  · have hemit : emitChunk s (.main r) = [chunk] := by simp [emitChunk, hpc, hread, hc]
    rw [hemit]
    refine ⟨fun h => absurd (if_neg hc) h, fun _ => ⟨⟨chunks, chunk, s.buf.bytes.drop chunk.length,
      rfl, hc, Buffer.store_bytes s.buf hlen, hprinted⟩, ?_⟩⟩
    simp [hc]

/-- Nothing is left to do between two chunks. -/
theorem Faithful.printed (h : Faithful before (s, chunks)) (hc : s.pc ≠ .check) (hp : s.pc ≠ .print) :
    Printed before (s, chunks) :=
  ⟨h, fun hpc => by rcases hpc with hpc | hpc <;> contradiction⟩

theorem emitChunk_of_ne (h : s.pc ≠ .read) (r : ReadResult) : emitChunk s (.main r) = [] := if_neg h

/-- What a step does to the lines, and when it does right. -/
theorem printed_step {a : Action} (hi : Printed before p) (h : chunked.step p a = some q) :
    (Faithful before q ↔ wholeChunk p a = true) ∧ (Faithful before q → Printed before q) := by
  obtain ⟨s, chunks⟩ := p
  obtain ⟨t, later⟩ := q
  obtain ⟨hst, hq⟩ := System.recorded_step_eq_some.mp h
  simp only at hst hq
  subst hq
  have hkeep {l : List (List UInt8)} (ht : Printed before (t, chunks ++ l))
      (hC : wholeChunk (s, chunks) a = true) :
      (Faithful before (t, chunks ++ l) ↔ wholeChunk (s, chunks) a = true) ∧
        (Faithful before (t, chunks ++ l) → Printed before (t, chunks ++ l)) :=
    ⟨iff_of_true ht.faithful hC, fun _ => ht⟩
  cases a with
  | sigioHandler =>
    obtain ⟨-, hst⟩ := Option.ite_none_right_eq_some.mp hst
    refine hkeep ?_ rfl
    rw [emitChunk, List.append_nil, ← Option.some.inj hst]
    exact hi.of_eq rfl rfl rfl
  | arrive bytes =>
    refine hkeep ?_ rfl
    rw [emitChunk, List.append_nil, ← Option.some.inj hst]
    exact hi.of_eq rfl rfl rfl
  | main r =>
    cases hpc : s.pc with
    | read => exact hkeep (hi.read hpc hst) (by simp [wholeChunk, hpc])
    | sleep | clear =>
      simp only [system, mainStep, hpc, Option.some.injEq] at hst
      refine hkeep ?_ (by simp [wholeChunk, hpc])
      rw [emitChunk_of_ne (by simp [hpc]), List.append_nil, ← hst]
      exact hi.frame (by simp [hpc]) (by simp [hpc]) Pc.noConfusion Pc.noConfusion rfl
    | test =>
      simp only [system, mainStep, hpc, Option.some.injEq] at hst
      refine hkeep ?_ (by simp [wholeChunk, hpc])
      rw [emitChunk_of_ne (by simp [hpc]), List.append_nil, ← hst]
      split_ifs <;> exact hi.frame (by simp [hpc]) (by simp [hpc]) Pc.noConfusion Pc.noConfusion rfl
    | check =>
      have hr := hi.reading (.inl hpc)
      simp only [system, mainStep, hpc, Option.some.injEq] at hst
      by_cases hhead : s.buf.bytes.head? = some newline
      · rw [if_pos hhead] at hst
        rw [emitChunk_of_ne (by simp [hpc]), List.append_nil, ← hst]
        exact ⟨(faithful_skip_iff hr).trans (by simp [wholeChunk, hpc, hhead]),
          fun hf => hf.printed Pc.noConfusion Pc.noConfusion⟩
      · rw [if_neg hhead] at hst
        refine hkeep ?_ (by simp [wholeChunk, hpc, hhead])
        rw [emitChunk_of_ne (by simp [hpc]), List.append_nil, ← hst]
        exact ⟨fun _ h => absurd rfl h, fun _ => ⟨hr.last, fun _ => hhead⟩⟩
    | print =>
      have hr := hi.reading (.inr hpc)
      simp only [system, mainStep, hpc, Option.some.injEq] at hst
      rw [emitChunk_of_ne (by simp [hpc]), List.append_nil, ← hst]
      exact ⟨(faithful_print_iff hr hpc).trans (by simp [wholeChunk, hpc]),
        fun hf => hf.printed Pc.noConfusion Pc.noConfusion⟩

/-- In a run the lines are the chunks that are more than a lone newline exactly if no such chunk begins with
a newline, and each chunk that is printed has no zero, and one behind it in `buf` if it is shorter. -/
theorem faithful_iff {as : List Action} (hp : chunked.init p) (h : chunked.run p as = some q) :
    chunked.Throughout (Faithful p.1.printed) p as ↔ chunked.Along wholeChunk p as := by
  refine System.throughout_iff_along (I := Printed p.1.printed) (fun _ hi => hi.faithful) ?_ ?_ h
  · intro p a q hi hst
    exact printed_step hi hst
  · obtain ⟨⟨-, hpc, -⟩, hnil⟩ := hp
    refine ⟨fun _ _ => by rw [hnil]; exact (List.append_nil _).symm, fun h => ?_⟩
    rcases h with h | h <;> rw [hpc] at h <;> cases h

/-- `hello` in one chunk, then its newline. -/
theorem faithful_iff_hello : ∃ as q,
    as = [.arrive [104, 101, 108, 108, 111, 10], .sigioHandler, .main .eof, .main .eof, .main .eof,
      .main (.data 5), .main .eof, .main .eof, .main (.data 1), .main .eof] ∧
    chunked.run (.start, []) as = some q ∧ q.1.printed = [[104, 101, 108, 108, 111]] ∧
    (chunked.Throughout (Faithful []) (.start, []) as ↔ chunked.Along wholeChunk (.start, []) as) :=
  ⟨_, _, rfl, rfl, rfl, faithful_iff (p := (.start, [])) ⟨⟨rfl, rfl, rfl, rfl, rfl⟩, rfl⟩ rfl⟩

/-- `hello` and `!` in two chunks: the second line is `!ello`. -/
theorem not_faithful_shorter : ∃ q,
    chunked.run (.start, []) [.arrive [104, 101, 108, 108, 111, 33], .sigioHandler, .main .eof, .main .eof,
      .main .eof, .main (.data 5), .main .eof, .main .eof, .main (.data 1), .main .eof, .main .eof] = some q ∧
    q.2 = [[104, 101, 108, 108, 111], [33]] ∧
    q.1.printed = [[104, 101, 108, 108, 111], [33, 101, 108, 108, 111]] ∧ ¬Faithful [] q := by
  refine ⟨_, rfl, rfl, rfl, fun h => ?_⟩
  exact absurd (h Pc.noConfusion Pc.noConfusion) (by decide)

end LinuxApi.SignalIo
