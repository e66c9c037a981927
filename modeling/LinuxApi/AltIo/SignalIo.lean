import LinuxApi.Kernel.Stream
import LinuxApi.Transition.System

/-! `alt_io_signal` in `alt_io_sample.c`: stdin is non-blocking and announces input by SIGIO. Every
arrival makes the signal pending, `sigio_handler` runs between any two steps of the loop, and
the inner loop reads up to five bytes at a time and leaves early at a chunk that starts with a
newline. A `read` that returns 0 or -1 ends it as well, whatever is still there: on a terminal
`read` returns 0 for a Ctrl-D, and the lines typed after it remain. -/

namespace LinuxApi.SignalIo

/-- `BUF_SIZE` -/
def bufSize : ℕ := 5

/-- `'\n'` -/
def newline : UInt8 := 10

/-- Where the loop is: `check` compares `buf[0]` and `print` follows. -/
inductive Pc where
  | sleep | test | clear | read | check | print
  deriving DecidableEq

/-- `buf` without its last byte, which is zero at every `printf`. The last three fields are the
bytes on stdin when `got_sig_io` was last cleared, and the results of `read` and the bytes read
since. -/
structure State where
  input : List UInt8
  pending : Bool
  gotSigIo : Bool
  buf : Buffer bufSize
  printed : List (List UInt8)
  pc : Pc
  available : List UInt8
  reads : List ReadResult
  taken : List UInt8

/-- A step of the loop, whose `read` has the result `r`; the run of `sigio_handler`; and input
that arrives, which is none for a Ctrl-D. -/
inductive Action where
  | main (r : ReadResult)
  | sigioHandler
  | arrive (bytes : List UInt8)

/-- The non-blocking `read`: its failures and the end of file that a Ctrl-D stands for take nothing. -/
def State.readInput (s : State) : ReadResult → Option (List UInt8 × List UInt8)
  | .data n => readStream bufSize s.input (.data n)
  | .eof | .error => some ([], s.input)

def mainStep (s : State) (r : ReadResult) : Option State :=
  match s.pc with
  | .sleep => some { s with pc := .test }
  | .test => some { s with pc := if s.gotSigIo then .clear else .sleep }
  | .clear => some { s with
      gotSigIo := false
      pc := .read
      available := s.input
      reads := []
      taken := [] }
  | .read => (s.readInput r).map fun p =>
    { s with
      input := p.2
      buf := s.buf.store p.1
      pc := if p.1 = [] then .sleep else .check
      reads := s.reads ++ [r]
      taken := s.taken ++ p.1 }
  | .check => some { s with pc := if s.buf.bytes.head? = some newline then .sleep else .print }
  | .print => some { s with printed := s.printed ++ [s.buf.bytes.takeWhile (· ≠ 0)], pc := .read }

/-- The loop starts with whatever has been typed so far. -/
def system : System State Action where
  init s := s.gotSigIo = false ∧ s.pc = .sleep ∧ s.available = [] ∧ s.reads = [] ∧ s.taken = []
  step s
    | .main r => mainStep s r
    | .sigioHandler => if s.pending then some { s with pending := false, gotSigIo := true } else none
    | .arrive bytes => some { s with input := s.input ++ bytes, pending := true }

/-- Before a `sleep` without a new signal, everything that was there at the last clear has been
read. -/
def Drained (s : State) : Prop :=
  s.pc = .sleep → s.gotSigIo = false → s.available <+: s.taken

/-- These results of `read` cut the bytes so that one of them returns nothing, or a chunk that begins
with a newline ends, before the last byte. -/
def stopsShort : List UInt8 → List ReadResult → Bool
  | [], _ | _ :: _, [] => false
  | b :: bytes, .data n :: results =>
    if b = newline then n < (b :: bytes).length else stopsShort ((b :: bytes).drop n) results
  | _ :: _, .eof :: _ | _ :: _, .error :: _ => true

/-- Where the inner loop may end, `read` does not stop short in what was on stdin at the clear, or a
new signal has come. -/
def leavesNothing (s : State) : Action → Bool
  | .main r =>
    match s.pc, r with
    | .check, _ => s.gotSigIo || !stopsShort s.available s.reads
    | .read, .eof | .read, .error => s.gotSigIo || !stopsShort s.available (s.reads ++ [r])
    | _, _ => true
  | .sigioHandler | .arrive _ => true

/-! ### The results of `read` -/

variable {s t : State}

theorem State.readInput_of_data (n : ℕ) :
    s.readInput (.data n) = readStream bufSize s.input (.data n) := by
  rw [readInput]

theorem State.readInput_append {r : ReadResult} {chunk rest : List UInt8}
    (h : s.readInput r = some (chunk, rest)) : chunk ++ rest = s.input := by
  cases r with
  | data n =>
    rw [readInput_of_data] at h
    exact readStream_append h
  | eof | error =>
    obtain ⟨rfl, rfl⟩ := Prod.mk.inj (Option.some.inj h)
    rfl

theorem State.readInput_length_le {r : ReadResult} {chunk rest : List UInt8}
    (h : s.readInput r = some (chunk, rest)) : chunk.length ≤ bufSize := by
  cases r with
  | data n =>
    rw [readInput_of_data] at h
    exact readStream_length_le h
  | eof | error =>
    obtain ⟨rfl, -⟩ := Prod.mk.inj (Option.some.inj h)
    exact Nat.zero_le _

theorem State.readInput_data {n : ℕ} {chunk rest : List UInt8}
    (h : s.readInput (.data n) = some (chunk, rest)) : chunk.length = n ∧ chunk ≠ [] := by
  simp only [readInput, readStream, Option.ite_none_right_eq_some, Option.some.injEq,
    Prod.mk.injEq] at h
  obtain ⟨⟨hn, -, hle⟩, rfl, -⟩ := h
  have hlen : (s.input.take n).length = n := List.length_take_of_le hle
  refine ⟨hlen, fun hnil => ?_⟩
  rw [hnil, List.length_nil] at hlen
  omega

@[simp] theorem stopsShort_nil_left (results : List ReadResult) : stopsShort [] results = false := by
  rw [stopsShort]

@[simp] theorem stopsShort_nil_right (bytes : List UInt8) : stopsShort bytes [] = false := by
  cases bytes <;> rfl

/-- A `read` that returns nothing stops short of whatever is left. -/
theorem stopsShort_nothing (bytes : List UInt8) {r : ReadResult} (hr : r = .eof ∨ r = .error) :
    stopsShort bytes [r] = decide (bytes ≠ []) := by
  cases bytes with
  | nil => rfl
  | cons b bytes => rcases hr with rfl | rfl <;> rfl

/-- A chunk that begins with a newline stops short of what is left behind it. -/
theorem stopsShort_newline {bytes : List UInt8} (h : ∀ b ∈ bytes.head?, b = newline) (n : ℕ) :
    stopsShort bytes [.data n] = decide (n < bytes.length) := by
  cases bytes with
  | nil => rfl
  | cons b bytes => rw [stopsShort, if_pos (h b rfl)]

/-- Any other chunk is followed by the next `read`. -/
theorem stopsShort_other {bytes : List UInt8} (h : ∀ b ∈ bytes.head?, b ≠ newline) (n : ℕ)
    (results : List ReadResult) :
    stopsShort bytes (.data n :: results) = stopsShort (bytes.drop n) results := by
  cases bytes with
  | nil => rw [List.drop_nil, stopsShort_nil_left, stopsShort_nil_left]
  | cons b bytes => rw [stopsShort, if_neg (h b rfl)]

/-! ### The bytes since the last clear -/

/-- What is left of the bytes that were there at the last clear. -/
def State.left (s : State) : List UInt8 := s.available.drop s.taken.length

/-- The results of `read` so far have not ended the inner loop, so that the rest decides. -/
def State.Continues (s : State) : Prop :=
  ∀ results, stopsShort s.available (s.reads ++ results) = stopsShort s.left results

structure Inv (s : State) : Prop where
  /-- What was read and what is there is what was there and what has come. -/
  flow : ∃ since, s.taken ++ s.input = s.available ++ since
  drained : s.pc = .sleep ∨ s.pc = .test → s.gotSigIo = false → s.available <+: s.taken
  reading : s.pc = .read ∨ s.pc = .print → s.Continues
  exit : s.pc = .check → s.buf.bytes.head? = some newline →
    stopsShort s.available s.reads = decide (s.left ≠ [])
  other : s.pc = .check → s.buf.bytes.head? ≠ some newline → s.Continues

theorem State.left_eq_nil : s.left = [] ↔ s.available.length ≤ s.taken.length :=
  List.drop_eq_nil_iff

theorem Inv.prefix_iff (hi : Inv s) : s.available <+: s.taken ↔ s.left = [] := by
  rw [State.left_eq_nil]
  constructor
  · intro h
    exact h.length_le
  · intro h
    obtain ⟨since, hflow⟩ := hi.flow
    exact List.prefix_of_prefix_length_le ⟨since, hflow.symm⟩ (List.prefix_append _ _) h

/-- What is left at the last clear is in front of what has come. -/
theorem Inv.left_isPrefix (hi : Inv s) : s.left <+: s.input := by
  obtain ⟨since, hflow⟩ := hi.flow
  by_cases hle : s.available.length ≤ s.taken.length
  · rw [State.left_eq_nil.mpr hle]
    exact List.nil_prefix
  · refine ⟨since, ?_⟩
    have hdrop := congrArg (List.drop s.taken.length) hflow
    rw [List.drop_left, List.drop_append_of_le_length (Nat.le_of_not_le hle)] at hdrop
    exact hdrop.symm

/-- A `read` of nothing that has something left is stopped short. -/
theorem Inv.stops_nothing (hi : Inv s) (hpc : s.pc = .read) {r : ReadResult}
    (hr : r = .eof ∨ r = .error) :
    stopsShort s.available (s.reads ++ [r]) = decide (s.left ≠ []) := by
  rw [hi.reading (.inl hpc) [r], stopsShort_nothing s.left hr]

/-- A step leaves the loop before its `sleep` with nothing left exactly if the signal has come or no
`read` has stopped short. -/
theorem Inv.drained_iff_of_stops {stops : Bool} (hi : Inv s) (hpc : t.pc = .sleep)
    (hflag : t.gotSigIo = s.gotSigIo) (havailable : t.available = s.available)
    (htaken : t.taken = s.taken) (hstops : stops = decide (s.left ≠ [])) :
    Drained t ↔ (s.gotSigIo || !stops) = true := by
  rw [Bool.or_eq_true, Bool.not_eq_true', hstops, decide_eq_false_iff_not, not_not, ← hi.prefix_iff,
    Drained, hflag, havailable, htaken]
  cases s.gotSigIo with
  | false => exact ⟨fun h => .inr (h hpc rfl), fun h _ _ => h.resolve_left Bool.false_ne_true⟩
  | true => exact ⟨fun _ => .inl rfl, fun _ _ h => Bool.noConfusion h⟩

/-- A `read` that returns nothing ends the inner loop. -/
theorem Inv.reads_nothing (hi : Inv s) (hpc : s.pc = .read) {r : ReadResult}
    (hr : r = .eof ∨ r = .error) (h : mainStep s r = some t) :
    (Drained t ↔ leavesNothing s (.main r) = true) ∧ (Drained t → Inv t) := by
  have ht : t = { s with
      buf := s.buf.store []
      pc := .sleep
      reads := s.reads ++ [r]
      taken := s.taken ++ [] } := by
    rcases hr with rfl | rfl <;> simpa [mainStep, hpc, State.readInput] using h.symm
  have hC : leavesNothing s (.main r) = (s.gotSigIo || !stopsShort s.available (s.reads ++ [r])) := by
    rcases hr with rfl | rfl <;> simp [leavesNothing, hpc]
  subst ht
  rw [hC]
  refine ⟨hi.drained_iff_of_stops rfl rfl rfl (List.append_nil _) (hi.stops_nothing hpc hr),
    fun hd => ⟨?_, fun _ => hd rfl, nofun, nofun, nofun⟩⟩
  simp only [List.append_nil]
  exact hi.flow

/-- A chunk is taken from the front of what is left. -/
theorem Inv.reads_data (hi : Inv s) (hpc : s.pc = .read) {n : ℕ}
    (h : mainStep s (.data n) = some t) : Inv t ∧ t.pc = .check := by
  simp only [mainStep, hpc, Option.map_eq_some_iff] at h
  obtain ⟨⟨chunk, rest⟩, hread, rfl⟩ := h
  have happend := State.readInput_append hread
  obtain ⟨hlen, hne⟩ := State.readInput_data hread
  obtain ⟨b, tail, rfl⟩ := List.exists_cons_of_ne_nil hne
  have hhead : (s.buf.store (b :: tail)).bytes.head? = some b := by
    rw [Buffer.store_bytes s.buf (State.readInput_length_le hread)]
    rfl
  -- the first byte left, if there is one, is the first byte of the chunk
  have hleft : ∀ b' ∈ s.left.head?, b' = b := by
    intro b' hb'
    obtain ⟨since, hinput⟩ := hi.left_isPrefix
    rw [← happend] at hinput
    cases hs : s.left with
    | nil => rw [hs] at hb'; cases hb'
    | cons c left =>
      rw [hs] at hb' hinput
      exact (Option.some.inj hb').symm.trans (List.cons.inj hinput).1
  have hdrop : s.available.drop (s.taken ++ b :: tail).length = s.left.drop n := by
    rw [State.left, List.drop_drop, List.length_append, hlen]
  obtain ⟨since, hflow⟩ := hi.flow
  refine ⟨⟨⟨since, ?_⟩, nofun, nofun, fun _ hnewline => ?_, fun _ hother results => ?_⟩, rfl⟩
  · show s.taken ++ b :: tail ++ rest = s.available ++ since
    rw [List.append_assoc, happend, hflow]
  · have hb : b = newline := Option.some.inj (hhead.symm.trans hnewline)
    show stopsShort s.available (s.reads ++ [.data n]) =
      decide (s.available.drop (s.taken ++ b :: tail).length ≠ [])
    rw [hi.reading (.inl hpc) [.data n], stopsShort_newline (fun b' hb' => (hleft b' hb').trans hb),
      hdrop, decide_eq_decide, ne_eq, List.drop_eq_nil_iff]
    omega
  · have hb : b ≠ newline := fun hb => hother (hhead.trans (congrArg some hb))
    show stopsShort s.available (s.reads ++ [.data n] ++ results) =
      stopsShort (s.available.drop (s.taken ++ b :: tail).length) results
    rw [List.append_assoc, List.singleton_append, hi.reading (.inl hpc) (.data n :: results),
      stopsShort_other (fun b' hb' h => hb ((hleft b' hb').symm.trans h)), hdrop]

/-- The early exit. -/
theorem Inv.check_newline (hi : Inv s) (hpc : s.pc = .check)
    (hhead : s.buf.bytes.head? = some newline) (r : ReadResult) :
    (Drained { s with pc := .sleep } ↔ leavesNothing s (.main r) = true) ∧
      (Drained { s with pc := .sleep } → Inv { s with pc := .sleep }) := by
  have hC : leavesNothing s (.main r) = (s.gotSigIo || !stopsShort s.available s.reads) := by
    simp [leavesNothing, hpc]
  rw [hC]
  exact ⟨hi.drained_iff_of_stops rfl rfl rfl rfl (hi.exit hpc hhead),
    fun hd => ⟨hi.flow, fun _ => hd rfl, nofun, nofun, nofun⟩⟩

/-- A step that does not end the inner loop. -/
theorem leavesNothing_of_ne (hread : s.pc ≠ .read) (hcheck : s.pc ≠ .check) (r : ReadResult) :
    leavesNothing s (.main r) = true := by
  cases hpc : s.pc with
  | read => exact absurd hpc hread
  | check => exact absurd hpc hcheck
  | sleep | test | clear | print => simp [leavesNothing, hpc]

theorem Inv.main_step (hi : Inv s) {r : ReadResult} (h : mainStep s r = some t) :
    (Drained t ↔ leavesNothing s (.main r) = true) ∧ (Drained t → Inv t) := by
  cases hpc : s.pc with
  | sleep =>
    simp only [mainStep, hpc, Option.some.injEq] at h
    subst h
    have hd := hi.drained (.inl hpc)
    exact ⟨iff_of_true nofun (leavesNothing_of_ne (by rw [hpc]; nofun) (by rw [hpc]; nofun) r),
      fun _ => ⟨hi.flow, fun _ => hd, nofun, nofun, nofun⟩⟩
  | test =>
    simp only [mainStep, hpc, Option.some.injEq] at h
    subst h
    have hd := hi.drained (.inr hpc)
    refine ⟨iff_of_true (fun _ => hd)
      (leavesNothing_of_ne (by rw [hpc]; nofun) (by rw [hpc]; nofun) r), fun _ => ?_⟩
    split_ifs <;> exact ⟨hi.flow, fun _ => hd, nofun, nofun, nofun⟩
  | clear =>
    simp only [mainStep, hpc, Option.some.injEq] at h
    subst h
    exact ⟨iff_of_true nofun (leavesNothing_of_ne (by rw [hpc]; nofun) (by rw [hpc]; nofun) r),
      fun _ => ⟨⟨[], (List.append_nil _).symm⟩, nofun, fun _ _ => rfl, nofun, nofun⟩⟩
  | read =>
    cases r with
    | data n =>
      obtain ⟨hi, ht⟩ := hi.reads_data hpc h
      refine ⟨iff_of_true (fun hp => ?_) (by simp [leavesNothing, hpc]), fun _ => hi⟩
      rw [ht] at hp
      cases hp
    | eof => exact hi.reads_nothing hpc (.inl rfl) h
    | error => exact hi.reads_nothing hpc (.inr rfl) h
  | check =>
    simp only [mainStep, hpc, Option.some.injEq] at h
    subst h
    by_cases hhead : s.buf.bytes.head? = some newline
    · rw [if_pos hhead]
      exact hi.check_newline hpc hhead r
    · rw [if_neg hhead]
      have hcontinues := hi.other hpc hhead
      have hstops := hcontinues []
      rw [List.append_nil, stopsShort_nil_right] at hstops
      refine ⟨iff_of_true nofun ?_, fun _ => ⟨hi.flow, nofun, fun _ => hcontinues, nofun, nofun⟩⟩
      simp [leavesNothing, hpc, hstops]
  | print =>
    simp only [mainStep, hpc, Option.some.injEq] at h
    subst h
    have hcontinues := hi.reading (.inr hpc)
    exact ⟨iff_of_true nofun (leavesNothing_of_ne (by rw [hpc]; nofun) (by rw [hpc]; nofun) r),
      fun _ => ⟨hi.flow, nofun, fun _ => hcontinues, nofun, nofun⟩⟩

theorem inv_step {a : Action} (hi : Inv s) (h : system.step s a = some t) :
    (Drained t ↔ leavesNothing s a = true) ∧ (Drained t → Inv t) := by
  cases a with
  | main r => exact hi.main_step h
  | sigioHandler =>
    obtain ⟨-, h⟩ := Option.ite_none_right_eq_some.mp h
    cases h
    exact ⟨iff_of_true nofun rfl, fun _ => ⟨hi.flow, nofun, hi.reading, hi.exit, hi.other⟩⟩
  | arrive bytes =>
    cases h
    obtain ⟨since, hflow⟩ := hi.flow
    refine ⟨iff_of_true (fun hp => hi.drained (.inl hp)) rfl,
      fun _ => ⟨⟨since ++ bytes, ?_⟩, hi.drained, hi.reading, hi.exit, hi.other⟩⟩
    rw [← List.append_assoc, ← List.append_assoc, hflow]

theorem inv_init (h : system.init s) : Inv s := by
  obtain ⟨-, hpc, havailable, -, htaken⟩ := h
  refine ⟨⟨s.input, ?_⟩, fun _ _ => ?_, fun h => ?_, fun h => ?_, fun h => ?_⟩
  · rw [havailable, htaken]
  · rw [havailable]
    exact List.nil_prefix
  all_goals simp [hpc] at h

/-- Input is drained before every `sleep` of a run exactly when in every round of the inner loop `read`
stops short of nothing that was there at the clear, or the signal has come again. -/
theorem drained_iff {as : List Action} (hs : system.init s) (h : system.run s as = some t) :
    system.Throughout Drained s as ↔ system.Along leavesNothing s as :=
  System.throughout_iff_along (I := Inv) (fun _ hi hpc => hi.drained (.inl hpc))
    (fun _ _ _ => inv_step) (inv_init hs) h

/-- Nothing typed yet. -/
def State.start : State := ⟨[], false, false, .zero bufSize, [], .sleep, [], [], []⟩

/-- `hi` and a newline are drained by one `read` and the next one that finds nothing. -/
theorem drained_iff_hi : system.Throughout Drained .start [.arrive [104, 105, 10], .sigioHandler,
    .main .eof, .main .eof, .main .eof, .main (.data 3), .main .eof, .main .eof, .main .error] :=
  (drained_iff ⟨rfl, rfl, rfl, rfl, rfl⟩ rfl).mpr (by decide)

/-- `hello`, `abc` and their newlines: the newline chunk behind `hello` ends the inner loop. -/
theorem not_drained_hello_abc : ¬∀ s, system.Reachable s → Drained s := by
  intro h
  have hrun : system.Reachable _ :=
    System.reachable_of_isSome (S := system) (s := .start) ⟨rfl, rfl, rfl, rfl, rfl⟩
      [.arrive [104, 101, 108, 108, 111, 10], .arrive [97, 98, 99, 10], .sigioHandler, .main .eof,
        .main .eof, .main .eof, .main (.data 5), .main .eof, .main .eof, .main (.data 1), .main .eof]
      (by decide)
  exact absurd (h _ hrun rfl rfl) (by decide)

/-- A Ctrl-D and the line `abc` behind it: `read` returns 0 in front of the line. -/
example : ∃ s, system.run .start [.arrive [], .arrive [97, 98, 99, 10], .sigioHandler, .main .eof,
    .main .eof, .main .eof, .main .eof] = some s ∧ s.input = [97, 98, 99, 10] ∧ ¬Drained s :=
  ⟨_, rfl, rfl, fun h => absurd (h rfl rfl) (by decide)⟩

end LinuxApi.SignalIo
