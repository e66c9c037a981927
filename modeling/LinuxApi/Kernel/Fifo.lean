import LinuxApi.Kernel.Stream

/-! A FIFO seen from its read end: the bytes in it and how many writers have it open. `POLLIN`
and `EPOLLIN` are reported while it holds data, `POLLHUP` and `EPOLLHUP` while it has no writer,
and `select` takes either for readable. -/

namespace LinuxApi

structure Fifo where
  data : List UInt8
  writers : ℕ
  deriving DecidableEq

namespace Fifo

/-- Only somebody who has the write side open can write. -/
def write (f : Fifo) (bytes : List UInt8) : Option Fifo :=
  if 0 < f.writers then some { f with data := f.data ++ bytes } else none

def openWriter (f : Fifo) : Fifo := { f with writers := f.writers + 1 }

def closeWriter (f : Fifo) : Option Fifo :=
  if 0 < f.writers then some { f with writers := f.writers - 1 } else none

def hasData (f : Fifo) : Bool := f.data ≠ []

def hungUp (f : Fifo) : Bool := f.writers = 0

/-- What `select` and a level-triggered `epoll_wait` wait for. -/
def ready (f : Fifo) : Bool := f.hasData || f.hungUp

/-- A `read` that returns: an empty FIFO gives end of file only when no writer is left. -/
def read (f : Fifo) (limit : ℕ) (r : ReadResult) : Option (List UInt8 × Fifo) :=
  if r = .eof ∧ 0 < f.writers then none
  else (readStream limit f.data r).map fun p => (p.1, { f with data := p.2 })

variable {f g : Fifo}

theorem write_eq_some {bytes : List UInt8} :
    f.write bytes = some g ↔ 0 < f.writers ∧ g = { f with data := f.data ++ bytes } := by
  rw [write, Option.ite_none_right_eq_some, Option.some.injEq, eq_comm]

theorem closeWriter_eq_some :
    f.closeWriter = some g ↔ 0 < f.writers ∧ g = { f with writers := f.writers - 1 } := by
  rw [closeWriter, Option.ite_none_right_eq_some, Option.some.injEq, eq_comm]

/-- A `read` moves bytes out of the front and leaves the writers. -/
theorem read_append {limit : ℕ} {r : ReadResult} {chunk : List UInt8}
    (h : f.read limit r = some (chunk, g)) : chunk ++ g.data = f.data ∧ g.writers = f.writers := by
  unfold read at h
  split_ifs at h
  obtain ⟨p, hp, hpair⟩ := Option.map_eq_some_iff.mp h
  cases hpair
  exact ⟨readStream_append hp, rfl⟩

end Fifo

end LinuxApi
