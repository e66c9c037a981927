import LinuxApi.Transition.System
import LinuxApi.Kernel.Semaphore
import LinuxApi.Kernel.Stream

/-! The shared-memory transfer of `ipc_systemv_shm_writer.c` and
`ipc_systemv_shm_reader.c`. The writer fills a segment from its standard input,
the reader copies it to its standard output, and two semaphores pass the turn
between them. Every system call, every load of `shmp->cnt` and every store into
the segment is a step of its own. Semaphore values and segment contents left by
earlier runs are arbitrary. -/

namespace LinuxApi.SharedMemory

/-- `WRITE_SEM` -/
def writeSem : ℕ := 0

/-- `READ_SEM` -/
def readSem : ℕ := 1

/-- `BUF_SIZE` -/
def bufSize : ℕ := 1024

/-- `struct shmmsg` -/
structure ShmMsg where
  cnt : ℤ
  buf : Buffer bufSize
  deriving DecidableEq

/-- The bytes `shmp->buf[0 .. shmp->cnt)`. -/
def ShmMsg.data (m : ShmMsg) : List UInt8 := m.buf.load m.cnt.toNat

/-- Where `ipc_systemv_shm_writer` is; `store n` holds the result of `read` before
the store into `shmp->cnt`. -/
inductive WriterPc where
  | semget | setWrite | setRead | shmget | shmat
  | acquire | read | store (n : ℤ) | release | test | advance
  | finalAcquire | rmSem | detach | rmShm | done | exited
  deriving DecidableEq

/-- Where `ipc_systemv_shm_reader` is. -/
inductive ReaderPc where
  | semget | shmget | shmat
  | acquire | test | write | release | advance
  | detach | finalRelease | done | exited
  deriving DecidableEq

/-- Both processes and the objects they share. `reads` are the chunks the writer's
`read` returned and `writes` the ones the reader passed to `write`, oldest first. -/
structure State where
  set : Option SemSet
  shm : ShmMsg
  linked : Bool
  stdin : List UInt8
  reads : List (List UInt8)
  writes : List (List UInt8)
  wpc : WriterPc
  rpc : ReaderPc
  wbytes : ℤ
  rbytes : ℤ

/-- One party takes its next step; the result of the writer's `read` is chosen by
the kernel. -/
inductive Action where
  | writer
  | read (r : ReadResult)
  | reader
  deriving DecidableEq

namespace State

/-- `semop` on one semaphore: blocks, goes on at `next`, or fails when the set has
been removed. -/
def semop (s : State) (num : ℕ) (op : ℤ) (next fail : State → State) : Option State :=
  match s.set with
  | none => some (fail s)
  | some S => (S.semop num op).map fun T => next { s with set := some T }

/-- `semctl(semid, num, SETVAL, val)` -/
def setval (s : State) (num val : ℕ) (next fail : State → State) : State :=
  match s.set with
  | none => fail s
  | some S => next { s with set := some (S.setval num val) }

/-- A `semop` that does not block fails without a set, and moves units otherwise. -/
theorem semop_cases {s t : State} {num : ℕ} {op : ℤ} {next fail : State → State}
    (h : s.semop num op next fail = some t) :
    s.set = none ∧ t = fail s ∨
      ∃ S T : SemSet, s.set = some S ∧ S.semop num op = some T ∧ t = next { s with set := some T } := by
  unfold semop at h
  cases hS : s.set with
  | none =>
    simp only [hS, Option.some.injEq] at h
    exact .inl ⟨rfl, h.symm⟩
  | some S =>
    simp only [hS, Option.map_eq_some_iff] at h
    obtain ⟨T, hT, rfl⟩ := h
    exact .inr ⟨S, T, rfl, hT, rfl⟩

theorem setval_cases {s t : State} {num val : ℕ} {next fail : State → State}
    (h : s.setval num val next fail = t) :
    s.set = none ∧ t = fail s ∨
      ∃ S, s.set = some S ∧ t = next { s with set := some (S.setval num val) } := by
  unfold setval at h
  cases hS : s.set with
  | none =>
    rw [hS] at h
    exact .inl ⟨rfl, h.symm⟩
  | some S =>
    rw [hS] at h
    exact .inr ⟨S, rfl, h.symm⟩

def gotoW (pc : WriterPc) (s : State) : State := { s with wpc := pc }

def gotoR (pc : ReaderPc) (s : State) : State := { s with rpc := pc }

end State

open State

/-- The steps of the writer other than its `read`. -/
def writerStep (s : State) : Option State :=
  match s.wpc with
  | .semget => some { s with set := some (s.set.getD .new), wpc := .setWrite }
  | .setWrite => some (s.setval writeSem 1 (gotoW .setRead) (gotoW .exited))
  | .setRead => some (s.setval readSem 0 (gotoW .shmget) (gotoW .exited))
  | .shmget => some { s with linked := true, wpc := .shmat }
  | .shmat => some { s with wbytes := 0, wpc := .acquire }
  | .acquire => s.semop writeSem (-1) (gotoW .read) (gotoW .exited)
  | .store n => some { s with shm.cnt := n, wpc := .release }
  | .release => s.semop readSem 1 (gotoW .test) (gotoW .exited)
  | .test => some (gotoW (if s.shm.cnt = 0 then .finalAcquire else .advance) s)
  | .advance => some { s with wbytes := s.wbytes + s.shm.cnt, wpc := .acquire }
  | .finalAcquire => s.semop writeSem (-1) (gotoW .rmSem) (gotoW .exited)
  | .rmSem => some (if s.set.isSome then { s with set := none, wpc := .detach } else gotoW .exited s)
  | .detach => some (gotoW .rmShm s)
  | .rmShm => some { s with linked := false, wpc := .done }
  | .read | .done | .exited => none

/-- `read(STDIN_FILENO, shmp->buf, BUF_SIZE)`: the bytes go straight into the segment. -/
def writerRead (readMayFail : Bool) (s : State) (r : ReadResult) : Option State :=
  if s.wpc = .read then
    if r = .error then
      if readMayFail then some (gotoW (.store (-1)) s) else none
    else
      (readStream bufSize s.stdin r).map fun (chunk, rest) =>
        { s with
          shm.buf := s.shm.buf.store chunk
          stdin := rest
          reads := if chunk = [] then s.reads else s.reads ++ [chunk]
          wpc := .store chunk.length }
  else none

/-- The writer has executed its `shmget`. -/
def WriterPc.created : WriterPc → Bool
  | .semget | .setWrite | .setRead | .shmget => false
  | _ => true

/-- The steps of the reader. Its `semget` waits for the writer's `shmget`; a negative
length makes `write` fail, and the result of `write` is not tested. -/
def readerStep (s : State) : Option State :=
  match s.rpc with
  | .semget => if s.wpc.created then some (gotoR .shmget s) else none
  | .shmget => some (gotoR .shmat s)
  | .shmat => some { s with rbytes := 0, rpc := .acquire }
  | .acquire => s.semop readSem (-1) (gotoR .test) (gotoR .exited)
  | .test => some (gotoR (if s.shm.cnt = 0 then .detach else .write) s)
  | .write => some { s with
      writes := if 0 ≤ s.shm.cnt then s.writes ++ [s.shm.data] else s.writes
      rpc := .release }
  | .release => s.semop writeSem 1 (gotoR .advance) (gotoR .exited)
  | .advance => some { s with rbytes := s.rbytes + s.shm.cnt, rpc := .acquire }
  | .detach => some (gotoR .finalRelease s)
  | .finalRelease => s.semop writeSem 1 (gotoR .done) (gotoR .exited)
  | .done | .exited => none

/-- One writer and one reader on `input`; `readMayFail` admits errors of the
writer's `read`. -/
def system (readMayFail : Bool) (input : List UInt8) : System State Action where
  init s := s.stdin = input ∧ s.reads = [] ∧ s.writes = [] ∧ s.wpc = .semget ∧ s.rpc = .semget
  step s
    | .writer => writerStep s
    | .read r => writerRead readMayFail s r
    | .reader => readerStep s

end LinuxApi.SharedMemory
