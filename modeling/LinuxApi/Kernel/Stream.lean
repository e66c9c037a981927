import Mathlib.Data.List.Basic

/-! Byte streams and fixed-size buffers as `read` and `write` see them. A stream
is the list of its remaining bytes; the length of every successful `read` is the
kernel's choice, and end of file is reported only when nothing remains. A store
into a buffer overwrites a prefix and leaves the bytes of earlier contents behind
it. -/

namespace LinuxApi

/-- What one `read` call did: `n` bytes, end of file, or an error. -/
inductive ReadResult where
  | data (n : ℕ)
  | eof
  | error
  deriving DecidableEq

/-- A `read` of at most `limit` bytes: the bytes it returned and the bytes that
remain. An error moves no byte. -/
def readStream (limit : ℕ) (bytes : List UInt8) : ReadResult → Option (List UInt8 × List UInt8)
  | .data n => if 1 ≤ n ∧ n ≤ limit ∧ n ≤ bytes.length then some (bytes.take n, bytes.drop n) else none
  | .eof => if bytes = [] then some ([], []) else none
  | .error => some ([], bytes)

/-- Whatever a `read` returns, nothing of the stream is lost or reordered. -/
theorem readStream_append {limit : ℕ} {bytes chunk rest : List UInt8} {r : ReadResult}
    (h : readStream limit bytes r = some (chunk, rest)) : chunk ++ rest = bytes := by
  cases r with
  | data n =>
    simp only [readStream, Option.ite_none_right_eq_some, Option.some.injEq, Prod.mk.injEq] at h
    obtain ⟨-, rfl, rfl⟩ := h
    exact List.take_append_drop n bytes
  | eof =>
    simp only [readStream, Option.ite_none_right_eq_some, Option.some.injEq, Prod.mk.injEq] at h
    obtain ⟨rfl, rfl, rfl⟩ := h
    rfl
  | error =>
    simp only [readStream, Option.some.injEq, Prod.mk.injEq] at h
    obtain ⟨rfl, rfl⟩ := h
    rfl

theorem readStream_length_le {limit : ℕ} {bytes chunk rest : List UInt8} {r : ReadResult}
    (h : readStream limit bytes r = some (chunk, rest)) : chunk.length ≤ limit := by
  cases r <;> simp only [readStream, Option.ite_none_right_eq_some, Option.some.injEq,
    Prod.mk.injEq] at h
  case data n =>
    obtain ⟨⟨-, hn, -⟩, rfl, -⟩ := h
    rw [List.length_take]
    omega
  case eof => obtain ⟨-, rfl, -⟩ := h; exact Nat.zero_le _
  case error => obtain ⟨rfl, -⟩ := h; exact Nat.zero_le _

/-- A successful `read` returns nothing exactly at the end of the stream. -/
theorem readStream_eq_nil {limit : ℕ} {bytes chunk rest : List UInt8} {r : ReadResult}
    (h : readStream limit bytes r = some (chunk, rest)) (hr : r ≠ .error) (hc : chunk = []) :
    bytes = [] := by
  cases r with
  | data n =>
    simp only [readStream, Option.ite_none_right_eq_some, Option.some.injEq, Prod.mk.injEq] at h
    obtain ⟨⟨hn, -, hl⟩, rfl, -⟩ := h
    have := congrArg List.length hc
    rw [List.length_take, List.length_nil] at this
    omega
  | eof => exact (Option.ite_none_right_eq_some.mp h).1
  | error => exact absurd rfl hr

/-- A `write` of `bytes` that returned a count, or -1 for `none`: the bytes it took and
the bytes it left. -/
def writeStream (bytes : List UInt8) : Option ℕ → Option (List UInt8 × List UInt8)
  | some n => if n ≤ bytes.length then some (bytes.take n, bytes.drop n) else none
  | none => some ([], bytes)

/-- Whatever a `write` returns, it takes the bytes from the front. -/
theorem writeStream_append {bytes taken rest : List UInt8} {r : Option ℕ}
    (h : writeStream bytes r = some (taken, rest)) : taken ++ rest = bytes := by
  cases r with
  | some n =>
    simp only [writeStream, Option.ite_none_right_eq_some, Option.some.injEq, Prod.mk.injEq] at h
    obtain ⟨-, rfl, rfl⟩ := h
    exact List.take_append_drop n bytes
  | none =>
    simp only [writeStream, Option.some.injEq, Prod.mk.injEq] at h
    obtain ⟨rfl, rfl⟩ := h
    rfl

/-- A `write` that returns the whole length leaves nothing. -/
theorem writeStream_full {bytes taken rest : List UInt8}
    (h : writeStream bytes (some bytes.length) = some (taken, rest)) : rest = [] := by
  rw [writeStream, if_pos (Nat.le_refl _), Option.some.injEq, Prod.mk.injEq] at h
  rw [← h.2, List.drop_length]

/-- A byte array of fixed size. -/
structure Buffer (size : ℕ) where
  bytes : List UInt8
  length_eq : bytes.length = size
  deriving DecidableEq

namespace Buffer

variable {size : ℕ}

/-- Overwrite the first bytes; what lies beyond them keeps its old value. -/
def store (b : Buffer size) (chunk : List UInt8) : Buffer size where
  bytes := (chunk ++ b.bytes.drop chunk.length).take size
  length_eq := by
    rw [List.length_take, List.length_append, List.length_drop, b.length_eq]
    omega

/-- Behind a chunk that fits lie the old bytes. -/
theorem store_bytes (b : Buffer size) {chunk : List UInt8} (h : chunk.length ≤ size) :
    (b.store chunk).bytes = chunk ++ b.bytes.drop chunk.length := by
  apply List.take_of_length_le
  rw [List.length_append, List.length_drop, b.length_eq]
  omega

/-- A store changes the bytes that it is long enough to reach. -/
theorem getElem?_store (b : Buffer size) {chunk : List UInt8} (h : chunk.length ≤ size) (j : ℕ) :
    (b.store chunk).bytes[j]? = if j < chunk.length then chunk[j]? else b.bytes[j]? := by
  rw [store_bytes b h]
  split_ifs with hj
  · exact List.getElem?_append_left hj
  · rw [List.getElem?_append_right (Nat.le_of_not_lt hj), List.getElem?_drop]
    congr 1
    omega

/-- The first `n` bytes. -/
def load (b : Buffer size) (n : ℕ) : List UInt8 := b.bytes.take n

/-- The bytes of an array that begins with more than a chunk, up to the end of the chunk. -/
theorem load_of_append {b : Buffer size} {n : ℕ} {chunk more : List UInt8}
    (h : b.load n = chunk ++ more) : b.load chunk.length = chunk := by
  have hmore : chunk ++ more <+: b.bytes := h ▸ List.take_prefix n b.bytes
  exact (List.prefix_iff_eq_take.mp ((List.prefix_append chunk more).trans hmore)).symm

/-- A chunk that fits is read back whole, and nothing of an earlier one with it. -/
theorem load_store (b : Buffer size) {chunk : List UInt8} (h : chunk.length ≤ size) :
    (b.store chunk).load chunk.length = chunk := by
  simp only [load, store]
  rw [List.take_take, Nat.min_eq_left h, List.take_left']
  rfl

/-- Overwrite the bytes from an index on. -/
def storeAt (b : Buffer size) (i : ℕ) (chunk : List UInt8) : Buffer size where
  bytes := (b.bytes.take i ++ (chunk ++ b.bytes.drop (i + chunk.length))).take size
  length_eq := by
    rw [List.length_take, List.length_append, List.length_append, List.length_take, List.length_drop,
      b.length_eq]
    omega

/-- A chunk that fits is stored behind what lies in front of the index. -/
theorem load_storeAt (b : Buffer size) {i : ℕ} {chunk : List UInt8} (h : i + chunk.length ≤ size) :
    (b.storeAt i chunk).load (i + chunk.length) = b.load i ++ chunk := by
  have hlen : (b.bytes.take i ++ chunk).length = i + chunk.length := by
    rw [List.length_append, List.length_take, b.length_eq]
    omega
  rw [load, storeAt, List.take_take, Nat.min_eq_left h, ← List.append_assoc, List.take_left' hlen]
  rfl

/-- The all-zero buffer. -/
def zero (size : ℕ) : Buffer size := ⟨List.replicate size 0, List.length_replicate⟩

end Buffer

end LinuxApi
