import LinuxApi.Kernel.Fifo
import LinuxApi.Transition.System

/-! `select_sample`, `pselect_sample` and `poll_sample` in `fileio_select_poll.c`, from the `open` on.
A history has what writers do with the FIFO, the time that passes, and the moments at which the loop
calls its wait and returns from it, together with the `read` that follows. A wait returns for a FIFO
that is ready, and for one that is not when its time is up. The zero behind a chunk that fills `buf`
is stored outside of it, and C says nothing of what the program does from there on. -/

namespace LinuxApi.SelectPoll

/-- `BUF_SIZE` -/
def bufSize : ℕ := 1000

/-- What the loops print: `read bytes = %ld, %s` and `time elapsed.` -/
inductive Line where
  | readBytes (numread : ℕ) (buf : List UInt8)
  | timeElapsed
  deriving DecidableEq

/-- Where a loop is: before its wait, in it with `left` nanoseconds to go, past its `return`, or
behind a store outside of `buf`. -/
inductive Pc where
  | head
  | wait (left : ℕ)
  | returned
  | undefined
  deriving DecidableEq

/-- What the three loops have in common: the FIFO, and what they have read and printed. -/
structure Loop where
  fifo : Fifo
  pc : Pc
  chunks : List (List UInt8)
  printed : List Line
  deriving DecidableEq

/-- What writers do, time that passes, and the moves of the loop: `wake` is the return of the wait
with all that follows it. -/
inductive Event where
  | write (bytes : List UInt8)
  | openWriter
  | closeWriter
  | elapse (d : ℕ)
  | call
  | wake

/-- What `read(fd, buf, BUF_SIZE)` takes. -/
def chunk (f : Fifo) : List UInt8 := f.data.take bufSize

/-- The `printf` for a chunk; `%s` ends at the first zero. -/
def line (chunk : List UInt8) : Line := .readBytes chunk.length (chunk.takeWhile (· ≠ 0))

namespace Loop

/-- A wait is called with the given time. -/
def arm (s : Loop) (ns : ℕ) : Loop := { s with pc := .wait ns }

/-- `numread = read(fd, buf, BUF_SIZE)` -/
def take (s : Loop) : Loop where
  fifo := { s.fifo with data := s.fifo.data.drop bufSize }
  pc := .head
  chunks := s.chunks ++ [chunk s.fifo]
  printed := s.printed

/-- The `read`, and for `numread` other than 0 the store `buf[numread] = '\0'` and the `printf`. -/
def read (s : Loop) : Loop :=
  if chunk s.fifo = [] then s.take
  else if (chunk s.fifo).length < bufSize then
    { s.take with printed := s.printed ++ [line (chunk s.fifo)] }
  else { s.take with pc := .undefined }

/-- The wait returned 0. -/
def timeout (s : Loop) : Loop := { s with pc := .returned, printed := s.printed ++ [.timeElapsed] }

/-- What happens around the loop. -/
def environment (s : Loop) : Event → Option Loop
  | .write bytes => (s.fifo.write bytes).map fun fifo => { s with fifo }
  | .openWriter => some { s with fifo := s.fifo.openWriter }
  | .closeWriter => s.fifo.closeWriter.map fun fifo => { s with fifo }
  | .elapse d => some { s with pc := match s.pc with
      | .wait left => .wait (left - d)
      | pc => pc }
  | .call | .wake => none

end Loop

/-- The loops start on a FIFO that has been opened. -/
def start (fifo : Fifo) : Loop := ⟨fifo, .head, [], []⟩

/-! ### `select_sample` -/

/-- `struct timeval` -/
structure Timeval where
  sec : ℕ
  usec : ℕ

def Timeval.ns (tv : Timeval) : ℕ := tv.sec * 1000000000 + tv.usec * 1000

/-- What `select` writes back. -/
def Timeval.ofNs (ns : ℕ) : Timeval := ⟨ns / 1000000000, ns % 1000000000 / 1000⟩

structure Select where
  loop : Loop
  tv : Timeval

/-- `tv` is set again for every call. -/
def selectCall (s : Select) : Option Select :=
  match s.loop.pc with
  | .head => some ⟨s.loop.arm (Timeval.ns ⟨5, 0⟩), ⟨5, 0⟩⟩
  | .undefined => some s
  | .wait _ | .returned => none

/-- `select` takes data and the lack of a writer for readable, and leaves the time to go in `tv`. -/
def selectWake (s : Select) : Option Select :=
  match s.loop.pc with
  | .wait left =>
    if s.loop.fifo.ready then some ⟨s.loop.read, .ofNs left⟩
    else if left = 0 then some ⟨s.loop.timeout, .ofNs left⟩
    else none
  | .undefined => some s
  | .head | .returned => none

/-- `select_sample` -/
def selectSample : System Select Event where
  init s := s.loop = start s.loop.fifo
  step s
    | .call => selectCall s
    | .wake => selectWake s
    | e => (s.loop.environment e).map fun loop => { s with loop }

/-! ### `pselect_sample` -/

/-- `struct timespec` -/
structure Timespec where
  sec : ℕ
  nsec : ℕ

def Timespec.ns (ts : Timespec) : ℕ := ts.sec * 1000000000 + ts.nsec

structure Pselect where
  loop : Loop
  ts : Timespec

/-- `ts` is set once before the loop. -/
def pselectCall (s : Pselect) : Option Pselect :=
  match s.loop.pc with
  | .head => some { s with loop := s.loop.arm s.ts.ns }
  | .undefined => some s
  | .wait _ | .returned => none

/-- `pselect` leaves `ts` alone. -/
def pselectWake (s : Pselect) : Option Pselect :=
  match s.loop.pc with
  | .wait left =>
    if s.loop.fifo.ready then some { s with loop := s.loop.read }
    else if left = 0 then some { s with loop := s.loop.timeout }
    else none
  | .undefined => some s
  | .head | .returned => none

/-- `pselect_sample` -/
def pselectSample : System Pselect Event where
  init s := s.loop = start s.loop.fifo ∧ s.ts = ⟨5, 0⟩
  step s
    | .call => pselectCall s
    | .wake => pselectWake s
    | e => (s.loop.environment e).map fun loop => { s with loop }

/-! ### `poll_sample` -/

/-- `fds.revents`: `POLLIN` and `POLLHUP`. -/
structure Revents where
  pollin : Bool
  pollhup : Bool

structure Poll where
  loop : Loop
  revents : Revents

def pollCall (s : Poll) : Option Poll :=
  match s.loop.pc with
  | .head => some { s with loop := s.loop.arm (5000 * 1000000) }
  | .undefined => some s
  | .wait _ | .returned => none

/-- `poll` reports data and the lack of a writer apart, and only data is read. -/
def pollWake (s : Poll) : Option Poll :=
  match s.loop.pc with
  | .wait left =>
    let revents : Revents := ⟨s.loop.fifo.hasData, s.loop.fifo.hungUp⟩
    if revents.pollin || revents.pollhup then
      some ⟨if revents.pollin then s.loop.read else { s.loop with pc := .head }, revents⟩
    else if left = 0 then some ⟨s.loop.timeout, revents⟩
    else none
  | .undefined => some s
  | .head | .returned => none

/-- `poll_sample` -/
def pollSample : System Poll Event where
  init s := s.loop = start s.loop.fifo
  step s
    | .call => pollCall s
    | .wake => pollWake s
    | e => (s.loop.environment e).map fun loop => { s with loop }

/-! ### What a history should show -/

/-- The FIFO after an event; a wait that returns takes what fits into `buf`. -/
def next (f : Fifo) : Event → Fifo
  | .write bytes => { f with data := f.data ++ bytes }
  | .openWriter => f.openWriter
  | .closeWriter => { f with writers := f.writers - 1 }
  | .wake => { f with data := f.data.drop bufSize }
  | .elapse _ | .call => f

/-- The FIFO after a history. -/
def after (f : Fifo) (history : List Event) : Fifo := history.foldl next f

/-- The FIFO as each return of a wait finds it. -/
def seen (f : Fifo) : List Event → List Fifo
  | [] => []
  | .wake :: es => f :: seen (next f .wake) es
  | e :: es => seen (next f e) es

/-- No `read` fills `buf`. -/
def Fits (f : Fifo) (history : List Event) : Prop := ∀ g ∈ seen f history, g.data.length < bufSize

/-- What can be seen of a loop: the chunks that are not empty, the lines, and the `return`. -/
structure Shown where
  chunks : List (List UInt8)
  printed : List Line
  returned : Bool
  deriving DecidableEq

def chunkOf (f : Fifo) : List (List UInt8) := if f.hasData then [chunk f] else []

/-- A chunk for data, nothing for a hang-up, and otherwise the timeout. -/
def lineOf (f : Fifo) : List Line :=
  if f.hasData then [line (chunk f)] else if f.hungUp then [] else [.timeElapsed]

def shownBy (f : Fifo) (history : List Event) : Shown where
  chunks := (seen f history).flatMap chunkOf
  printed := (seen f history).flatMap lineOf
  returned := (seen f history).any fun g => !g.ready

namespace Loop

def shown (s : Loop) : Shown := ⟨s.chunks.filter (· ≠ []), s.printed, s.pc = .returned⟩

/-- What a loop shows, which is anything behind a store outside of `buf`. -/
def MayShow (s : Loop) (v : Shown) : Prop := s.pc = .undefined ∨ v = s.shown

/-! ### An ideal loop -/

/-- It waits for five seconds. -/
def call (s : Loop) : Option Loop :=
  match s.pc with
  | .head => some (s.arm 5000000000)
  | .undefined => some s
  | .wait _ | .returned => none

/-- It reads what is there, does nothing on a hang-up, and gives up when its time is up without either. -/
def wake (s : Loop) : Option Loop :=
  match s.pc with
  | .wait left =>
    if s.fifo.hasData then some s.read
    else if s.fifo.hungUp then some { s with pc := .head }
    else if left = 0 then some s.timeout
    else none
  | .undefined => some s
  | .head | .returned => none

/-- A loop without its reads of length zero. -/
def visible (s : Loop) : Loop := { s with chunks := s.chunks.filter (· ≠ []) }

variable {s : Loop}

@[simp] theorem visible_fifo (s : Loop) : s.visible.fifo = s.fifo := rfl

@[simp] theorem visible_pc (s : Loop) : s.visible.pc = s.pc := rfl

theorem visible_shown (s : Loop) : s.visible.shown = s.shown := by
  simp [visible, shown]

theorem visible_environment (s : Loop) (e : Event) :
    (s.environment e).map visible = s.visible.environment e := by
  cases e with
  | write bytes => simp only [environment, Option.map_map]; rfl
  | closeWriter => simp only [environment, Option.map_map]; rfl
  | openWriter | elapse | call | wake => rfl

/-- It may be part of a larger state, which the environment does not touch otherwise. -/
theorem map_visible_environment {σ : Type} {put : Loop → σ} {get : σ → Loop}
    (h : ∀ l, get (put l) = l) (s : Loop) (e : Event) :
    ((s.environment e).map put).map (fun t => (get t).visible) = s.visible.environment e := by
  have hcomp : (fun t => (get t).visible) ∘ put = visible := by
    funext l
    exact congrArg visible (h l)
  rw [Option.map_map, hcomp]
  exact visible_environment s e

theorem chunk_eq_nil_iff {f : Fifo} : chunk f = [] ↔ f.hasData = false := by
  simp [chunk, bufSize, Fifo.hasData]

theorem visible_read (h : s.fifo.hasData = true) : s.read.visible = s.visible.read := by
  have hne : chunk s.fifo ≠ [] := by
    rw [ne_eq, chunk_eq_nil_iff, h]
    exact Bool.noConfusion
  rw [read, read, visible_fifo, if_neg hne, if_neg hne]
  split_ifs <;> simp [visible, take, hne]

/-- A read of length zero shows nothing. -/
theorem visible_read_empty (h : s.fifo.hasData = false) :
    s.read.visible = { s.visible with pc := .head } := by
  have hchunk := chunk_eq_nil_iff.mpr h
  have hdata : s.fifo.data = [] := not_not.mp (of_decide_eq_false h)
  obtain ⟨⟨data, writers⟩, pc, chunks, printed⟩ := s
  obtain rfl : data = [] := hdata
  rw [read, if_pos hchunk]
  simp [visible, take, hchunk]

/-- What a wait that reports `ready` and the `read` behind it come to. -/
theorem visible_wake {left : ℕ} (hpc : s.pc = .wait left) :
    s.visible.wake = if s.fifo.ready then some s.read.visible
      else if left = 0 then some s.timeout.visible else none := by
  rw [wake, visible_pc, visible_fifo, hpc, Fifo.ready]
  cases hdata : s.fifo.hasData with
  | true =>
    rw [Bool.true_or, if_pos rfl, visible_read hdata]
    exact if_pos rfl
  | false =>
    rw [Bool.false_or, visible_read_empty hdata]
    rfl

end Loop

/-- The ideal loop. -/
def waitLoop : System Loop Event where
  init s := s = start s.fifo
  step s
    | .call => s.call
    | .wake => s.wake
    | e => s.environment e

section Shows

variable {σ : Type}

/-- A loop shows what the ideal loop does; `I` is what it keeps. -/
structure Shows (S : System σ Event) (loop : σ → Loop) (I : σ → Prop) : Prop where
  keep : ∀ s e t, I s → S.step s e = some t → I t
  step : ∀ s e, I s → (S.step s e).map (fun s => (loop s).visible) = waitLoop.step (loop s).visible e

variable {S : System σ Event} {loop : σ → Loop} {I : σ → Prop} {s : σ}

theorem Shows.run (hS : Shows S loop I) (hs : I s) (es : List Event) :
    (S.run s es).map (fun s => (loop s).visible) = waitLoop.run (loop s).visible es :=
  System.run_map (fun s => (loop s).visible) hS.keep hS.step hs es

/-- Only the moves tell the loops apart. -/
theorem visible_step (put : Loop → σ) (hput : ∀ l, loop (put l) = l)
    (henv : ∀ e, e ≠ .call → e ≠ .wake → S.step s e = ((loop s).environment e).map put)
    (hcall : (S.step s .call).map (fun s => (loop s).visible) = (loop s).visible.call)
    (hwake : (S.step s .wake).map (fun s => (loop s).visible) = (loop s).visible.wake) (e : Event) :
    (S.step s e).map (fun s => (loop s).visible) = waitLoop.step (loop s).visible e := by
  cases e with
  | call => exact hcall
  | wake => exact hwake
  | write | openWriter | closeWriter | elapse =>
    rw [henv _ (fun h => by cases h) (fun h => by cases h)]
    exact Loop.map_visible_environment hput (loop s) _

end Shows

/-- A `select` for a hang-up is followed by a read of length zero. -/
theorem select_step (s : Select) (e : Event) :
    (selectSample.step s e).map (fun s => s.loop.visible) = waitLoop.step s.loop.visible e := by
  refine visible_step (fun loop => { s with loop }) (fun _ => rfl) (fun e hcall hwake => ?_) ?_ ?_ e
  · cases e with
    | call => exact absurd rfl hcall
    | wake => exact absurd rfl hwake
    | write | openWriter | closeWriter | elapse => rfl
  · show (selectCall s).map _ = _
    rw [selectCall, Loop.call, Loop.visible_pc]
    cases s.loop.pc <;> rfl
  · show (selectWake s).map _ = _
    cases hpc : s.loop.pc with
    | wait left =>
      rw [Loop.visible_wake hpc]
      simp only [selectWake, hpc]
      split_ifs <;> rfl
    | head | returned | undefined => simp [selectWake, Loop.wake, hpc]

/-- A `pselect` likewise. -/
theorem pselect_step (s : Pselect) (e : Event) (hts : s.ts = ⟨5, 0⟩) :
    (pselectSample.step s e).map (fun s => s.loop.visible) = waitLoop.step s.loop.visible e := by
  refine visible_step (fun loop => { s with loop }) (fun _ => rfl) (fun e hcall hwake => ?_) ?_ ?_ e
  · cases e with
    | call => exact absurd rfl hcall
    | wake => exact absurd rfl hwake
    | write | openWriter | closeWriter | elapse => rfl
  · show (pselectCall s).map _ = _
    rw [pselectCall, Loop.call, Loop.visible_pc, hts]
    cases s.loop.pc <;> rfl
  · show (pselectWake s).map _ = _
    cases hpc : s.loop.pc with
    | wait left =>
      rw [Loop.visible_wake hpc]
      simp only [pselectWake, hpc]
      split_ifs <;> rfl
    | head | returned | undefined => simp [pselectWake, Loop.wake, hpc]

/-- A `poll` for a hang-up is followed by no read. -/
theorem poll_step (s : Poll) (e : Event) :
    (pollSample.step s e).map (fun s => s.loop.visible) = waitLoop.step s.loop.visible e := by
  refine visible_step (fun loop => { s with loop }) (fun _ => rfl) (fun e hcall hwake => ?_) ?_ ?_ e
  · cases e with
    | call => exact absurd rfl hcall
    | wake => exact absurd rfl hwake
    | write | openWriter | closeWriter | elapse => rfl
  · show (pollCall s).map _ = _
    rw [pollCall, Loop.call, Loop.visible_pc]
    cases s.loop.pc <;> rfl
  · show (pollWake s).map _ = _
    cases hpc : s.loop.pc with
    | wait left =>
      rw [Loop.visible_wake hpc]
      simp only [pollWake, hpc, Fifo.ready]
      rcases Bool.eq_false_or_eq_true s.loop.fifo.hasData with hdata | hdata
      · simp [hdata]
      · simp only [hdata, Bool.false_or, Bool.false_eq_true, if_false, Loop.visible_read_empty hdata]
        split_ifs <;> rfl
    | head | returned | undefined => simp [pollWake, Loop.wake, hpc]

theorem pselect_ts {s t : Pselect} {e : Event} (hts : s.ts = ⟨5, 0⟩)
    (h : pselectSample.step s e = some t) : t.ts = ⟨5, 0⟩ := by
  cases e with
  | call =>
    have h : pselectCall s = some t := h
    unfold pselectCall at h
    cases hpc : s.loop.pc <;> simp only [hpc, Option.some.injEq, reduceCtorEq] at h
    all_goals exact h ▸ hts
  | wake =>
    have h : pselectWake s = some t := h
    unfold pselectWake at h
    cases hpc : s.loop.pc <;> simp only [hpc, Option.some.injEq, reduceCtorEq] at h
    case undefined => exact h ▸ hts
    case wait left =>
      split_ifs at h
      all_goals
        cases h
        exact hts
  | write | closeWriter =>
    obtain ⟨loop, -, rfl⟩ := Option.map_eq_some_iff.mp h
    exact hts
  | openWriter | elapse =>
    cases h
    exact hts

theorem select_shows : Shows selectSample Select.loop fun _ => True where
  keep _ _ _ _ _ := trivial
  step s e _ := select_step s e

theorem pselect_shows : Shows pselectSample Pselect.loop fun s => s.ts = ⟨5, 0⟩ where
  keep _ _ _ hts h := pselect_ts hts h
  step s e hts := pselect_step s e hts

theorem poll_shows : Shows pollSample Poll.loop fun _ => True where
  keep _ _ _ _ _ := trivial
  step s e _ := poll_step s e

/-! ### The ideal loop and its history -/

section Ideal

variable {s t u : Loop} {e : Event} {es : List Event} {f : Fifo}

theorem seen_cons (f : Fifo) (e : Event) (es : List Event) :
    seen f (e :: es) = seen f [e] ++ seen (next f e) es := by
  cases e <;> rfl

theorem fits_cons : Fits f (e :: es) ↔ Fits f [e] ∧ Fits (next f e) es := by
  rw [Fits, seen_cons, List.forall_mem_append]
  rfl

theorem fits_wake : Fits f [.wake] ↔ f.data.length < bufSize := List.forall_mem_singleton

/-- From `s` to `t` the loop has shown what the history says. -/
structure Follows (s : Loop) (es : List Event) (t : Loop) : Prop where
  defined : t.pc ≠ .undefined
  fifo : t.fifo = after s.fifo es
  chunks : t.chunks = s.chunks ++ (seen s.fifo es).flatMap chunkOf
  printed : t.printed = s.printed ++ (seen s.fifo es).flatMap lineOf
  returned : t.pc = .returned ↔ s.pc = .returned ∨ ∃ g ∈ seen s.fifo es, g.ready = false

theorem Follows.cons (hu : Follows s [e] u) (ht : Follows u es t) : Follows s (e :: es) t where
  defined := ht.defined
  fifo := by
    rw [ht.fifo, hu.fifo]
    rfl
  chunks := by
    rw [ht.chunks, hu.chunks, hu.fifo, seen_cons s.fifo e es, List.flatMap_append, List.append_assoc]
    rfl
  printed := by
    rw [ht.printed, hu.printed, hu.fifo, seen_cons s.fifo e es, List.flatMap_append, List.append_assoc]
    rfl
  returned := by
    rw [ht.returned, hu.returned, hu.fifo, seen_cons s.fifo e es, or_assoc]
    simp only [List.mem_append, or_and_right, exists_or]
    rfl

/-- Outside the return of a wait the loop reads and prints nothing. -/
theorem follows_frame (hseen : seen s.fifo [e] = []) (hdefined : t.pc ≠ .undefined)
    (hfifo : t.fifo = next s.fifo e) (hchunks : t.chunks = s.chunks) (hprinted : t.printed = s.printed)
    (hreturned : t.pc = .returned ↔ s.pc = .returned) : Follows s [e] t := by
  refine ⟨hdefined, hfifo, ?_, ?_, ?_⟩
  · rw [hseen, hchunks, List.flatMap_nil, List.append_nil]
  · rw [hseen, hprinted, List.flatMap_nil, List.append_nil]
  · simp [hseen, hreturned]

theorem drop_eq_nil (h : f.hasData = false) : f.data.drop bufSize = f.data := by
  have hdata : f.data = [] := not_not.mp (of_decide_eq_false h)
  rw [hdata, List.drop_nil]

/-- The return of a wait. -/
theorem follows_wake (h : s.wake = some t) (hs : s.pc ≠ .undefined) (hfits : s.fifo.data.length < bufSize) :
    Follows s [.wake] t := by
  have hseen : seen s.fifo [.wake] = [s.fifo] := rfl
  unfold Loop.wake at h
  cases hpc : s.pc with
  | wait left =>
    simp only [hpc] at h
    cases hdata : s.fifo.hasData with
    | true =>
      have hne : chunk s.fifo ≠ [] := by
        rw [ne_eq, Loop.chunk_eq_nil_iff, hdata]
        exact Bool.noConfusion
      have hlt : (chunk s.fifo).length < bufSize := by
        rw [chunk, List.length_take]
        omega
      rw [if_pos hdata, Option.some.injEq, Loop.read, if_neg hne, if_pos hlt] at h
      subst h
      refine ⟨Pc.noConfusion, rfl, ?_, ?_, ?_⟩
      · simp [hseen, chunkOf, hdata, Loop.take]
      · simp [hseen, lineOf, hdata]
      · simp [hseen, hpc, Fifo.ready, hdata, Loop.take]
    | false =>
      rw [hdata, if_neg Bool.false_ne_true] at h
      cases hhup : s.fifo.hungUp with
      | true =>
        rw [hhup, if_pos rfl, Option.some.injEq] at h
        subst h
        refine ⟨Pc.noConfusion, ?_, ?_, ?_, ?_⟩
        · simp [after, next, drop_eq_nil hdata]
        · simp [hseen, chunkOf, hdata]
        · simp [hseen, lineOf, hdata, hhup]
        · simp [hseen, hpc, Fifo.ready, hhup]
      | false =>
        rw [hhup, if_neg Bool.false_ne_true, Option.ite_none_right_eq_some, Option.some.injEq] at h
        obtain ⟨-, rfl⟩ := h
        refine ⟨Pc.noConfusion, ?_, ?_, ?_, ?_⟩
        · simp [after, next, Loop.timeout, drop_eq_nil hdata]
        · simp [hseen, chunkOf, hdata, Loop.timeout]
        · simp [hseen, lineOf, hdata, hhup, Loop.timeout]
        · simp [hseen, Fifo.ready, hdata, hhup, Loop.timeout]
  | undefined => exact absurd hpc hs
  | head | returned => simp only [hpc] at h; cases h

theorem follows_step (hs : s.pc ≠ .undefined) (h : waitLoop.step s e = some t) (hfits : Fits s.fifo [e]) :
    Follows s [e] t := by
  cases e with
  | wake => exact follows_wake h hs (fits_wake.mp hfits)
  | call =>
    have h : s.call = some t := h
    unfold Loop.call at h
    cases hpc : s.pc <;> simp only [hpc, Option.some.injEq, reduceCtorEq] at h
    case head =>
      subst h
      exact follows_frame rfl Pc.noConfusion rfl rfl rfl (by simp [Loop.arm, hpc])
    case undefined => exact absurd hpc hs
  | write bytes =>
    obtain ⟨fifo, hfifo, rfl⟩ := Option.map_eq_some_iff.mp h
    obtain ⟨-, rfl⟩ := Fifo.write_eq_some.mp hfifo
    exact follows_frame rfl hs rfl rfl rfl Iff.rfl
  | closeWriter =>
    obtain ⟨fifo, hfifo, rfl⟩ := Option.map_eq_some_iff.mp h
    obtain ⟨-, rfl⟩ := Fifo.closeWriter_eq_some.mp hfifo
    exact follows_frame rfl hs rfl rfl rfl Iff.rfl
  | openWriter =>
    obtain rfl := Option.some.inj h
    exact follows_frame rfl hs rfl rfl rfl Iff.rfl
  | elapse d =>
    obtain rfl := Option.some.inj h
    refine follows_frame rfl ?_ rfl rfl rfl ?_ <;> cases hpc : s.pc <;> simp [hpc] at hs ⊢

/-- A wait that returns for more than fits into `buf` ends in the store outside of it. -/
theorem undefined_of_not_fits (hs : s.pc ≠ .undefined) (h : waitLoop.step s e = some t)
    (hfits : ¬Fits s.fifo [e]) : t.pc = .undefined := by
  cases e with
  | wake =>
    rw [fits_wake, Nat.not_lt] at hfits
    have h : s.wake = some t := h
    have hlen : (chunk s.fifo).length = bufSize := List.length_take_of_le hfits
    have hne : chunk s.fifo ≠ [] := by
      rw [← List.length_pos_iff, hlen]
      decide
    have hdata : s.fifo.hasData = true := by
      rwa [ne_eq, Loop.chunk_eq_nil_iff, Bool.not_eq_false] at hne
    unfold Loop.wake at h
    cases hpc : s.pc <;> simp only [hpc, Option.some.injEq, reduceCtorEq] at h
    case undefined => exact absurd hpc hs
    case wait left =>
      rw [if_pos hdata, Option.some.injEq, Loop.read, if_neg hne, if_neg (by omega)] at h
      rw [← h]
  | write | openWriter | closeWriter | elapse | call => exact absurd (fun g hg => by cases hg) hfits

theorem undefined_step (hs : s.pc = .undefined) (h : waitLoop.step s e = some t) :
    t.pc = .undefined := by
  cases e with
  | call =>
    simp only [waitLoop, Loop.call, hs, Option.some.injEq] at h
    exact h ▸ hs
  | wake =>
    simp only [waitLoop, Loop.wake, hs, Option.some.injEq] at h
    exact h ▸ hs
  | write | closeWriter =>
    obtain ⟨fifo, -, rfl⟩ := Option.map_eq_some_iff.mp h
    exact hs
  | openWriter =>
    obtain rfl := Option.some.inj h
    exact hs
  | elapse d =>
    obtain rfl := Option.some.inj h
    simp [hs]

theorem undefined_run (hs : s.pc = .undefined) (h : waitLoop.run s es = some t) : t.pc = .undefined :=
  System.run_invariant (I := fun s => s.pc = .undefined) (fun _ _ _ hs => undefined_step hs) hs h

/-- While no `read` fills `buf`, the loop shows what its history says. -/
theorem follows_run (hs : s.pc ≠ .undefined) (h : waitLoop.run s es = some t) (hfits : Fits s.fifo es) :
    Follows s es t := by
  induction es generalizing s with
  | nil =>
    obtain rfl := Option.some.inj h
    exact ⟨hs, rfl, (List.append_nil _).symm, (List.append_nil _).symm, by simp [seen]⟩
  | cons e es ih =>
    obtain ⟨u, hu, h⟩ := Option.bind_eq_some_iff.mp h
    obtain ⟨hfirst, hrest⟩ := fits_cons.mp hfits
    have hstep := follows_step hs hu hfirst
    rw [← show after s.fifo [e] = next s.fifo e from rfl, ← hstep.fifo] at hrest
    exact hstep.cons (ih hstep.defined h hrest)

/-- And when one does, everything is undefined. -/
theorem undefined_of_not_fits_run (hs : s.pc ≠ .undefined) (h : waitLoop.run s es = some t)
    (hfits : ¬Fits s.fifo es) : t.pc = .undefined := by
  induction es generalizing s with
  | nil => exact absurd (fun g hg => by cases hg) hfits
  | cons e es ih =>
    obtain ⟨u, hu, h⟩ := Option.bind_eq_some_iff.mp h
    by_cases hfirst : Fits s.fifo [e]
    · have hstep := follows_step hs hu hfirst
      refine ih hstep.defined h fun hrest => hfits (fits_cons.mpr ⟨hfirst, ?_⟩)
      rwa [hstep.fifo] at hrest
    · exact undefined_run (undefined_of_not_fits hs hu hfirst) h

end Ideal

/-! ### The three loops -/

section Samples

variable {σ : Type} {S : System σ Event} {loop : σ → Loop} {I : σ → Prop} {s t : σ} {fifo : Fifo}
  {history : List Event}

theorem start_visible (fifo : Fifo) : (start fifo).visible = start fifo := rfl

theorem Shows.run_start (hS : Shows S loop I) (hs : I s) (hstart : loop s = start fifo)
    (h : S.run s history = some t) : waitLoop.run (start fifo) history = some (loop t).visible := by
  rw [← start_visible, ← hstart, ← hS.run hs, h, Option.map_some]

/-- A history that fits leaves a loop with what it says. -/
theorem Shows.shown_eq (hS : Shows S loop I) (hs : I s) (hstart : loop s = start fifo)
    (h : S.run s history = some t) (hfits : Fits fifo history) :
    (loop t).pc ≠ .undefined ∧ (loop t).shown = shownBy fifo history := by
  have hrun := hS.run_start hs hstart h
  have hfollows := follows_run (s := start fifo) Pc.noConfusion hrun hfits
  refine ⟨hfollows.defined, ?_⟩
  rw [← Loop.visible_shown]
  have hchunks : ((seen fifo history).flatMap chunkOf).filter (· ≠ []) =
      (seen fifo history).flatMap chunkOf := by
    refine List.filter_eq_self.mpr fun c hc => ?_
    obtain ⟨g, -, hc⟩ := List.mem_flatMap.mp hc
    unfold chunkOf at hc
    split_ifs at hc with hdata
    · rw [List.mem_singleton.mp hc, decide_eq_true_eq, ne_eq, Loop.chunk_eq_nil_iff, hdata]
      exact Bool.noConfusion
    · cases hc
  have hreturned : decide ((loop t).visible.pc = .returned) = (seen fifo history).any fun g => !g.ready := by
    rw [← Bool.decide_coe ((seen fifo history).any _), decide_eq_decide, hfollows.returned]
    simp [start]
  rw [Loop.shown, hfollows.chunks, hfollows.printed, hreturned]
  show Shown.mk (List.filter _ ([] ++ (seen fifo history).flatMap chunkOf))
    ([] ++ (seen fifo history).flatMap lineOf) _ = _
  rw [List.nil_append, List.nil_append, hchunks]
  rfl

theorem Shows.mayShow_iff (hS : Shows S loop I) (hs : I s) (hstart : loop s = start fifo)
    (h : S.run s history = some t) (hfits : Fits fifo history) {v : Shown} :
    (loop t).MayShow v ↔ v = shownBy fifo history := by
  obtain ⟨hdefined, hshown⟩ := hS.shown_eq hs hstart h hfits
  rw [Loop.MayShow, or_iff_right hdefined, hshown]

/-- Any other leaves it undefined. -/
theorem Shows.mayShow_any (hS : Shows S loop I) (hs : I s) (hstart : loop s = start fifo)
    (h : S.run s history = some t) (hfits : ¬Fits fifo history) (v : Shown) : (loop t).MayShow v := by
  have hrun := hS.run_start hs hstart h
  have hpc : (loop t).visible.pc = .undefined :=
    undefined_of_not_fits_run (s := start fifo) Pc.noConfusion hrun hfits
  exact .inl hpc

/-- The same histories are possible as in the ideal loop. -/
theorem Shows.isSome_run (hS : Shows S loop I) (hs : I s) (hstart : loop s = start fifo)
    (history : List Event) :
    (S.run s history).isSome = (waitLoop.run (start fifo) history).isSome := by
  rw [← start_visible, ← hstart, ← hS.run hs, Option.isSome_map]

end Samples

/-- The same histories are possible for the three loops. After one they show the same chunks, the same
lines and the same `return`, whatever C allows them to do, exactly if no `read` fills `buf`; and then
they show what the history says. -/
theorem samples_agree_iff (fifo : Fifo) (tv : Timeval) (revents : Revents) (history : List Event) :
    ((selectSample.run ⟨start fifo, tv⟩ history).isSome =
        (pselectSample.run ⟨start fifo, ⟨5, 0⟩⟩ history).isSome ∧
      (pselectSample.run ⟨start fifo, ⟨5, 0⟩⟩ history).isSome =
        (pollSample.run ⟨start fifo, revents⟩ history).isSome) ∧
    ∀ s t p, selectSample.run ⟨start fifo, tv⟩ history = some s →
      pselectSample.run ⟨start fifo, ⟨5, 0⟩⟩ history = some t →
      pollSample.run ⟨start fifo, revents⟩ history = some p →
      ((∀ u v w, s.loop.MayShow u → t.loop.MayShow v → p.loop.MayShow w → u = v ∧ v = w) ↔
        Fits fifo history) ∧
      (Fits fifo history → ∀ v, (s.loop.MayShow v ∨ t.loop.MayShow v ∨ p.loop.MayShow v) →
        v = shownBy fifo history) := by
  refine ⟨⟨?_, ?_⟩, fun s t p hs ht hp => ?_⟩
  · rw [select_shows.isSome_run trivial rfl, pselect_shows.isSome_run rfl rfl]
  · rw [pselect_shows.isSome_run rfl rfl, poll_shows.isSome_run trivial rfl]
  have hshown (hfits : Fits fifo history) (v : Shown)
      (hv : s.loop.MayShow v ∨ t.loop.MayShow v ∨ p.loop.MayShow v) : v = shownBy fifo history := by
    rcases hv with hv | hv | hv
    · exact (select_shows.mayShow_iff trivial rfl hs hfits).mp hv
    · exact (pselect_shows.mayShow_iff rfl rfl ht hfits).mp hv
    · exact (poll_shows.mayShow_iff trivial rfl hp hfits).mp hv
  refine ⟨⟨fun hagree => ?_, fun hfits u v w hu hv hw => ?_⟩, hshown⟩
  · by_contra hfits
    have hu := select_shows.mayShow_any trivial rfl hs hfits
    have hv := pselect_shows.mayShow_any rfl rfl ht hfits
    have hw := poll_shows.mayShow_any trivial rfl hp hfits
    have hne := (hagree ⟨[], [], true⟩ ⟨[], [], false⟩ ⟨[], [], false⟩ (hu _) (hv _) (hw _)).1
    cases hne
  · rw [hshown hfits u (.inl hu), hshown hfits v (.inr (.inl hv)), hshown hfits w (.inr (.inr hw))]
    exact ⟨rfl, rfl⟩

/-- `hi` in front of a hang-up, after which a writer comes back and is silent for five seconds. -/
def hiAndOut : List Event :=
  [.call, .write [104, 105], .wake, .call, .closeWriter, .wake, .call, .openWriter, .elapse 5000000000, .wake]

/-- All three print the two bytes and time out. -/
theorem samples_agree_iff_hi : ∃ s t p, selectSample.run ⟨start ⟨[], 1⟩, ⟨5, 0⟩⟩ hiAndOut = some s ∧
    pselectSample.run ⟨start ⟨[], 1⟩, ⟨5, 0⟩⟩ hiAndOut = some t ∧
    pollSample.run ⟨start ⟨[], 1⟩, ⟨false, false⟩⟩ hiAndOut = some p ∧
    ∀ v, (s.loop.MayShow v ∨ t.loop.MayShow v ∨ p.loop.MayShow v) →
      v = ⟨[[104, 105]], [.readBytes 2 [104, 105], .timeElapsed], true⟩ := by
  have hagree := (samples_agree_iff ⟨[], 1⟩ ⟨5, 0⟩ ⟨false, false⟩ hiAndOut).2 _ _ _ rfl rfl rfl
  refine ⟨_, _, _, rfl, rfl, rfl, fun v hv => (hagree.2 ?_ v hv).trans rfl⟩
  have hseen : seen ⟨[], 1⟩ hiAndOut = [⟨[104, 105], 1⟩, ⟨[], 0⟩, ⟨[], 1⟩] := rfl
  rw [Fits, hseen]
  decide

/-- A wait that returns for 1000 bytes leaves all three undefined. -/
theorem not_agree_full : ∃ s t p,
    selectSample.run ⟨start ⟨[], 1⟩, ⟨5, 0⟩⟩ [.write (.replicate 1000 65), .call, .wake] = some s ∧
    pselectSample.run ⟨start ⟨[], 1⟩, ⟨5, 0⟩⟩ [.write (.replicate 1000 65), .call, .wake] = some t ∧
    pollSample.run ⟨start ⟨[], 1⟩, ⟨false, false⟩⟩ [.write (.replicate 1000 65), .call, .wake] = some p ∧
    ¬∀ u v w, s.loop.MayShow u → t.loop.MayShow v → p.loop.MayShow w → u = v ∧ v = w := by
  have hfits : ¬Fits ⟨[], 1⟩ [.write (.replicate 1000 65), .call, .wake] := by
    intro hfits
    have hlt := hfits _ (List.mem_singleton.mpr rfl)
    rw [next, next, List.nil_append, List.length_replicate] at hlt
    exact absurd hlt (by decide)
  refine ⟨_, _, _, rfl, rfl, rfl, fun hagree => ?_⟩
  have hu := select_shows.mayShow_any (s := ⟨start ⟨[], 1⟩, ⟨5, 0⟩⟩) trivial rfl rfl hfits
  have hv := pselect_shows.mayShow_any (s := ⟨start ⟨[], 1⟩, ⟨5, 0⟩⟩) rfl rfl rfl hfits
  have hw := poll_shows.mayShow_any (s := ⟨start ⟨[], 1⟩, ⟨false, false⟩⟩) trivial rfl rfl hfits
  have hne := (hagree ⟨[], [], true⟩ ⟨[], [], false⟩ ⟨[], [], false⟩ (hu _) (hv _) (hw _)).1
  cases hne

end LinuxApi.SelectPoll
