import LinuxApi.Kernel.CText
import LinuxApi.Transition.System
import Mathlib.Data.List.GetD
import Mathlib.Data.List.Nodup

/-! The thread functions of `pthread_safe` that format a message into a buffer and print it, with any number
of threads. `thread_func_unsafe` has one buffer for all of them and `thread_func_safe_with_tls` one for each;
the model has a buffer at some location for every thread. Threads interleave between any two bytes that
`snprintf` stores or `printf` reads. -/

namespace LinuxApi.ThreadSafe

/-- `BUFFER_LEN` -/
def bufferLen : ℕ := 256

/-- The bytes of a text that the source spells out. -/
def ascii (s : String) : List UInt8 := s.toList.map fun c => UInt8.ofNat c.toNat

/-- What `snprintf(buf, BUFFER_LEN, "Message: %s", str)` puts in front of the terminator. -/
def message (str : List UInt8) : List UInt8 := (ascii "Message: " ++ cText str).take (bufferLen - 1)

/-- `printf("thread id = 0x%x, %s\n", (unsigned int)tid, buf)` -/
def line (tid : UInt32) (text : List UInt8) : List UInt8 :=
  ascii "thread id = 0x" ++ ascii (String.ofList (Nat.toDigits 16 tid.toNat)) ++ ascii ", " ++ text ++
    ascii "\n"

/-- The whole `snprintf`, into a buffer that nobody else uses. -/
def format (b : Buffer bufferLen) (str : List UInt8) : Buffer bufferLen := b.store (message str ++ [0])

/-- The threads with their ids and arguments, and where the buffer of each is. -/
structure Threads (ι β : Type*) where
  tid : ι → UInt32
  arg : ι → List UInt8
  buffer : ι → β

variable {ι β : Type*}

/-- The line a thread means to print. -/
def Threads.own (p : Threads ι β) (i : ι) : List UInt8 := line (p.tid i) (message (p.arg i))

/-- Where a thread is: at the beginning of `snprintf`, at its byte `k`, in `printf` behind the bytes `text`. -/
inductive Pc where
  | clear
  | store (k : ℕ)
  | read (text : List UInt8)
  | returned
  deriving DecidableEq

/-- `stdout` has every line with the thread that printed it. -/
structure State (ι β : Type*) where
  pc : ι → Pc
  buf : β → Buffer bufferLen
  stdout : List (ι × List UInt8)

variable [DecidableEq ι] [DecidableEq β]

/-- A thread goes on to `pc` and leaves `b` in its buffer. -/
def State.move (p : Threads ι β) (s : State ι β) (i : ι) (pc : Pc) (b : Buffer bufferLen) : State ι β where
  pc := Function.update s.pc i pc
  buf := Function.update s.buf (p.buffer i) b
  stdout := s.stdout

/-- The end of its `printf`, which writes the line at once. -/
def State.print (p : Threads ι β) (s : State ι β) (i : ι) (text : List UInt8) : State ι β where
  pc := Function.update s.pc i .returned
  buf := s.buf
  stdout := s.stdout ++ [(i, line (p.tid i) text)]

/-- The next byte of a thread. -/
def step (p : Threads ι β) (s : State ι β) (i : ι) : Option (State ι β) :=
  let b := s.buf (p.buffer i)
  match s.pc i with
  -- `snprintf` makes the string empty before it formats
  | .clear => some (s.move p i (.store 0) (b.storeAt 0 [0]))
  | .store k =>
    let next := if k < (message (p.arg i)).length then .store (k + 1) else .read []
    some (s.move p i next (b.storeAt k [(message (p.arg i)).getD k 0]))
  -- only terminators reach the last byte, so that there is always a zero
  | .read text =>
    let c := b.bytes.getD text.length 0
    some (if c = 0 then s.print p i text else s.move p i (.read (text ++ [c])) b)
  | .returned => none

/-- Static storage is zero at first. -/
def system (p : Threads ι β) : System (State ι β) ι where
  init s := s = ⟨fun _ => .clear, fun _ => .zero _, []⟩
  step := step p

/-- Threads that run `thread_func_unsafe`. -/
def threadFuncUnsafe (tid : ι → UInt32) (arg : ι → List UInt8) : Threads ι Unit := ⟨tid, arg, fun _ => ()⟩

/-- Threads that run `thread_func_safe_with_tls`. -/
def threadFuncSafeWithTls (tid : ι → UInt32) (arg : ι → List UInt8) : Threads ι ι := ⟨tid, arg, id⟩

/-- Every thread has printed its own line, and only once. -/
def Safe (p : Threads ι β) (s : State ι β) : Prop :=
  (s.stdout.map Prod.fst).Nodup ∧ ∀ e ∈ s.stdout, e.2 = p.own e.1

variable {p : Threads ι β} {s t : State ι β} {str : List UInt8} {i j : ι}

theorem message_notMem (str : List UInt8) : 0 ∉ message str := by
  intro h
  rcases List.mem_append.mp (List.mem_of_mem_take h) with h | h
  · revert h
    decide
  · have hself : cText (cText str) = cText str := by
      rw [cText, cText, List.takeWhile_idem]
    exact cText_eq_self.mp hself h

theorem message_ne_nil (str : List UInt8) : message str ≠ [] := by
  intro h
  rcases List.take_eq_nil_iff.mp h with h | h
  · cases h
  · exact absurd (List.append_eq_nil_iff.mp h).1 (by decide)

theorem length_message_lt (str : List UInt8) : (message str).length < bufferLen := by
  rw [message, List.length_take, bufferLen]
  omega

/-- What is printed of a formatted buffer. -/
theorem cText_format (b : Buffer bufferLen) (str : List UInt8) :
    cText (format b str).bytes = message str := by
  have hle : (message str ++ [0]).length ≤ bufferLen := by
    rw [List.length_append]
    exact length_message_lt str
  rw [format, Buffer.store_bytes b hle, List.append_assoc, cText_append_of_notMem (message_notMem str)]
  exact List.append_nil _

theorem line_injective (tid : UInt32) {l m : List UInt8} (h : line tid l = line tid m) : l = m := by
  unfold line at h
  exact List.append_cancel_left (List.append_cancel_right h)

/-! ### Threads with buffers of their own -/

/-- What is in a thread's buffer, by where it is. -/
def Stored (m : List UInt8) (b : Buffer bufferLen) : Pc → Prop
  | .clear | .returned => True
  | .store k => k ≤ m.length ∧ b.load k = m.take k
  | .read text => m ++ [0] <+: b.bytes ∧ text <+: m

structure Inv (p : Threads ι β) (s : State ι β) : Prop where
  safe : Safe p s
  printed : ∀ e ∈ s.stdout, s.pc e.1 = .returned
  stored : ∀ i, Stored (message (p.arg i)) (s.buf (p.buffer i)) (s.pc i)

theorem Stored.store {m : List UInt8} {b : Buffer bufferLen} {k : ℕ} (hm : m.length < bufferLen)
    (h : Stored m b (.store k)) :
    Stored m (b.storeAt k [m.getD k 0]) (if k < m.length then .store (k + 1) else .read []) := by
  obtain ⟨hle, hload⟩ := h
  have hnext : (b.storeAt k [m.getD k 0]).load (k + 1) = b.load k ++ [m.getD k 0] :=
    Buffer.load_storeAt b (Nat.lt_of_le_of_lt hle hm)
  rw [hload] at hnext
  split_ifs with hk
  · refine ⟨hk, hnext.trans ?_⟩
    rw [List.getD_eq_getElem m 0 hk, List.take_append_getElem hk]
  · obtain rfl : k = m.length := Nat.le_antisymm hle (Nat.le_of_not_lt hk)
    rw [List.getD_eq_default m 0 le_rfl] at hnext ⊢
    rw [List.take_length] at hnext
    refine ⟨?_, List.nil_prefix⟩
    rw [← hnext]
    exact List.take_prefix _ _

/-- Up to its end the buffer has the bytes of the message. -/
theorem getD_of_isPrefix {m bytes : List UInt8} (h : m ++ [0] <+: bytes) {n : ℕ} (hn : n ≤ m.length) :
    bytes.getD n 0 = m.getD n 0 := by
  obtain ⟨rest, rfl⟩ := h
  rw [List.append_assoc]
  rcases Nat.lt_or_eq_of_le hn with hlt | rfl
  · rw [List.getD_append _ _ _ _ hlt]
  · rw [List.getD_append_right _ _ _ _ le_rfl, Nat.sub_self, List.getD_eq_default m 0 le_rfl]
    rfl

theorem Stored.read {m text : List UInt8} {b : Buffer bufferLen} (hm : 0 ∉ m) (h : Stored m b (.read text)) :
    if b.bytes.getD text.length 0 = 0 then text = m
    else Stored m b (.read (text ++ [b.bytes.getD text.length 0])) := by
  obtain ⟨hbytes, hprefix⟩ := h
  rw [getD_of_isPrefix hbytes hprefix.length_le]
  rcases Nat.lt_or_eq_of_le hprefix.length_le with hlt | heq
  · have hne : m[text.length] ≠ 0 := fun h0 => hm (h0 ▸ List.getElem_mem hlt)
    have htake := List.prefix_iff_eq_take.mp hprefix
    rw [List.getD_eq_getElem m 0 hlt, if_neg hne]
    refine ⟨hbytes, ?_⟩
    have hconcat : text ++ [m[text.length]] = m.take (text.length + 1) := by
      rw [← List.take_append_getElem hlt, ← htake]
    rw [hconcat]
    exact List.take_prefix _ _
  · rw [List.getD_eq_default m 0 heq.ge, if_pos rfl]
    exact hprefix.eq_of_length heq

omit [DecidableEq ι] [DecidableEq β] in
theorem Inv.fresh (hi : Inv p s) (hpc : s.pc i ≠ .returned) : ∀ e ∈ s.stdout, e.1 ≠ i := by
  rintro e he rfl
  exact hpc (hi.printed e he)

/-- A thread that goes on touches its own buffer only. -/
theorem Inv.move (hp : Function.Injective p.buffer) (hi : Inv p s) (hpc : s.pc i ≠ .returned) {pc : Pc}
    {b : Buffer bufferLen} (hstored : Stored (message (p.arg i)) b pc) : Inv p (s.move p i pc b) := by
  refine ⟨hi.safe, fun e he => ?_, fun j => ?_⟩
  · show Function.update s.pc i pc e.1 = .returned
    rw [Function.update_of_ne (hi.fresh hpc e he)]
    exact hi.printed e he
  · show Stored _ (Function.update s.buf (p.buffer i) b (p.buffer j)) (Function.update s.pc i pc j)
    by_cases hji : j = i
    · rw [hji, Function.update_self, Function.update_self]
      exact hstored
    · rw [Function.update_of_ne (hp.ne hji), Function.update_of_ne hji]
      exact hi.stored j

omit [DecidableEq β] in
theorem Inv.print (hi : Inv p s) (hpc : s.pc i ≠ .returned) : Inv p (s.print p i (message (p.arg i))) := by
  have hfresh : i ∉ s.stdout.map Prod.fst := by
    intro hmem
    obtain ⟨e, he, hei⟩ := List.mem_map.mp hmem
    exact hi.fresh hpc e he hei
  refine ⟨⟨?_, fun e he => ?_⟩, fun e he => ?_, fun j => ?_⟩
  · show ((s.stdout ++ [(i, _)]).map Prod.fst).Nodup
    rw [List.map_append, List.map_singleton, ← List.concat_eq_append]
    exact hi.safe.1.concat hfresh
  · rcases List.mem_append.mp he with he | he
    · exact hi.safe.2 e he
    · obtain rfl := List.mem_singleton.mp he
      rfl
  · show Function.update s.pc i .returned e.1 = .returned
    rcases List.mem_append.mp he with he | he
    · rw [Function.update_of_ne (hi.fresh hpc e he)]
      exact hi.printed e he
    · obtain rfl := List.mem_singleton.mp he
      exact Function.update_self ..
  · show Stored _ (s.buf (p.buffer j)) (Function.update s.pc i .returned j)
    by_cases hji : j = i
    · rw [hji, Function.update_self]
      trivial
    · rw [Function.update_of_ne hji]
      exact hi.stored j

theorem Inv.step (hp : Function.Injective p.buffer) (hi : Inv p s) (h : step p s i = some t) : Inv p t := by
  have hstored := hi.stored i
  have hne : ∀ {pc : Pc}, s.pc i = pc → pc ≠ .returned → s.pc i ≠ .returned := fun hpc hne => hpc ▸ hne
  unfold ThreadSafe.step at h
  cases hpc : s.pc i with
  | clear =>
    simp only [hpc, Option.some.injEq] at h
    subst h
    exact hi.move hp (hne hpc nofun) ⟨Nat.zero_le _, rfl⟩
  | store k =>
    simp only [hpc, Option.some.injEq] at h
    rw [hpc] at hstored
    subst h
    exact hi.move hp (hne hpc nofun) (hstored.store (length_message_lt _))
  | read text =>
    simp only [hpc, Option.some.injEq] at h
    rw [hpc] at hstored
    have hread := hstored.read (message_notMem _)
    subst h
    split_ifs at hread ⊢ with hc
    · rw [hread]
      exact hi.print (hne hpc nofun)
    · exact hi.move hp (hne hpc nofun) hread
  | returned => simp [hpc] at h

theorem safe_of_injective (hp : Function.Injective p.buffer) (h : (system p).Reachable s) : Safe p s := by
  refine (h.invariant (I := Inv p) (fun s hs => ?_) fun s i t hi ht => hi.step hp ht).safe
  have hs : s = _ := hs
  rw [hs]
  exact ⟨⟨List.nodup_nil, fun e he => absurd he List.not_mem_nil⟩, fun e he => absurd he List.not_mem_nil,
    fun i => trivial⟩

/-! ### Threads that share a buffer -/

theorem getD_cleared (b : Buffer bufferLen) : (b.storeAt 0 [0]).bytes.getD 0 0 = 0 := by
  have hload : (b.storeAt 0 [0]).load 1 = b.load 0 ++ [0] :=
    Buffer.load_storeAt b (Nat.le_of_ble_eq_true rfl)
  have hprefix : b.load 0 ++ [0] <+: (b.storeAt 0 [0]).bytes := by
    rw [← hload]
    exact List.take_prefix _ _
  exact getD_of_isPrefix hprefix (Nat.zero_le _)

theorem reachable_cleared (h : (system p).Reachable s) (hpc : s.pc i = .clear) :
    (system p).Reachable (s.move p i (.store 0) ((s.buf (p.buffer i)).storeAt 0 [0])) := by
  apply h.step (a := i)
  show ThreadSafe.step p s i = _
  rw [ThreadSafe.step, hpc]

/-- A thread can always go on to the end of its `snprintf`. -/
theorem exists_formatted (h : (system p).Reachable s) {k : ℕ} (hpc : s.pc i = .store k)
    (hk : k ≤ (message (p.arg i)).length) :
    ∃ t, (system p).Reachable t ∧ t.pc i = .read [] ∧ ∀ j ≠ i, t.pc j = s.pc j := by
  induction hn : (message (p.arg i)).length - k generalizing s k with
  | zero =>
    have hlt : ¬k < (message (p.arg i)).length := by omega
    have hnext : (system p).step s i =
        some (s.move p i (.read []) ((s.buf (p.buffer i)).storeAt k [(message (p.arg i)).getD k 0])) := by
      show ThreadSafe.step p s i = _
      simp only [ThreadSafe.step, hpc, if_neg hlt]
    exact ⟨_, h.step hnext, Function.update_self .., fun j hj => Function.update_of_ne hj ..⟩
  | succ n ih =>
    have hlt : k < (message (p.arg i)).length := by omega
    have hnext : (system p).step s i =
        some (s.move p i (.store (k + 1)) ((s.buf (p.buffer i)).storeAt k [(message (p.arg i)).getD k 0])) := by
      show ThreadSafe.step p s i = _
      simp only [ThreadSafe.step, hpc, if_pos hlt]
    obtain ⟨t, ht, hread, hother⟩ := ih (h.step hnext) (Function.update_self ..) hlt (by omega)
    refine ⟨t, ht, hread, fun j hj => (hother j hj).trans ?_⟩
    exact Function.update_of_ne hj ..

/-- One thread formats, another one makes the buffer empty, and the first one prints. -/
theorem injective_of_safe (hp : ∀ s, (system p).Reachable s → Safe p s) : Function.Injective p.buffer := by
  intro i j hij
  by_contra hne
  have hinit : (system p).init ⟨fun _ => .clear, fun _ => .zero _, []⟩ := rfl
  have hcleared := reachable_cleared (i := i) (.init hinit) rfl
  obtain ⟨s, hs, hread, hother⟩ := exists_formatted hcleared (Function.update_self ..) (Nat.zero_le _)
  have hj : s.pc j = .clear := by
    rw [hother j (Ne.symm hne)]
    exact Function.update_of_ne (Ne.symm hne) ..
  have hempty := reachable_cleared hs hj
  set t := s.move p j (.store 0) ((s.buf (p.buffer j)).storeAt 0 [0]) with ht
  have hpc : t.pc i = .read [] := by
    rw [ht]
    exact (Function.update_of_ne hne ..).trans hread
  have hzero : (t.buf (p.buffer i)).bytes.getD 0 0 = 0 := by
    have hbuf : t.buf (p.buffer i) = (s.buf (p.buffer j)).storeAt 0 [0] := by
      rw [ht, hij]
      exact Function.update_self ..
    rw [hbuf]
    exact getD_cleared _
  have hprint : (system p).step t i = some (t.print p i []) := by
    show ThreadSafe.step p t i = _
    simp only [ThreadSafe.step, hpc, List.length_nil, hzero, if_true]
  have hown := (hp _ (hempty.step hprint)).2 _ (List.mem_append_right _ (List.mem_singleton_self _))
  exact message_ne_nil _ (line_injective (p.tid i) hown).symm

/-- In every interleaving every thread prints its own message, once, exactly if no two threads share a buffer. -/
theorem safe_iff_injective (p : Threads ι β) :
    (∀ s, (system p).Reachable s → Safe p s) ↔ Function.Injective p.buffer :=
  ⟨injective_of_safe, fun hp _ h => safe_of_injective hp h⟩

/-- With thread-local storage every interleaving is right, whatever the arguments; with one buffer for all
threads this is so only if there is no second thread, even where all the messages are the same. -/
theorem prints_own_message (tid : ι → UInt32) (arg : ι → List UInt8) :
    (∀ s, (system (threadFuncSafeWithTls tid arg)).Reachable s → Safe (threadFuncSafeWithTls tid arg) s) ∧
      ((∀ s, (system (threadFuncUnsafe tid arg)).Reachable s → Safe (threadFuncUnsafe tid arg) s) ↔
        Subsingleton ι) := by
  constructor
  · exact (safe_iff_injective _).mpr Function.injective_id
  · rw [safe_iff_injective]
    exact ⟨fun h => ⟨fun i j => h rfl⟩, fun h i j _ => Subsingleton.elim i j⟩

end LinuxApi.ThreadSafe
