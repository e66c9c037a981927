import Mathlib.Data.Finset.Card
import Mathlib.Data.Int.Init

/-! `get_physical_block_number` in `fileio_etc.c`, from the `fstat` on. The loop is bounded by `st_blocks`,
which counts units of 512 bytes, and its index is handed to `FIBMAP`, which counts blocks of the file system. -/

namespace LinuxApi.BlockNumbers

/-- The fields of `struct stat` in question. -/
structure Stat where
  size : ℕ
  blocks : ℕ
  deriving DecidableEq

/-- What the calls have come to: the block numbers handed to `FIBMAP`, the lines `logical = %d, physical =
%d`, and the message of an `errexit`. -/
structure Visit where
  issued : List ℕ
  printed : List (ℕ × ℤ)
  exited : Option String
  deriving DecidableEq

/-- What one more block puts in front. -/
def Visit.cons (i : ℕ) (j : ℤ) (v : Visit) : Visit := ⟨i :: v.issued, (i, j) :: v.printed, v.exited⟩

/-- The loop from `i` on. `fibmap` is what `ioctl` makes of a number, `none` its -1. -/
def loop (fibmap : ℕ → Option ℤ) (logicalBlock : ℤ) (i : ℕ) : Visit :=
  if i < logicalBlock then
    match fibmap i with
    | none => ⟨[i], [], some "ioctl"⟩
    | some j => (loop fibmap logicalBlock (i + 1)).cons i j
  else ⟨[], [], none⟩
termination_by (logicalBlock - i).toNat
decreasing_by omega

/-- A `long` as an `int`. -/
def toInt (n : ℕ) : ℤ := (n : ℤ).bmod 4294967296

/-- `none` is a failed `fstat`. -/
def getPhysicalBlockNumber (st : Option Stat) (fibmap : ℕ → Option ℤ) : Visit :=
  match st with
  | none => ⟨[], [], some "fstat"⟩
  | some st => loop fibmap (toInt st.blocks) 0

/-! ### The file -/

/-- A file with blocks of `units` times 512 bytes: which of them are allocated, holes are not and some may
lie behind the end, and how many units the file system takes for its own records of them. -/
structure File where
  size : ℕ
  units : ℕ
  units_pos : 0 < units
  allocated : Finset ℕ
  overhead : ℕ

namespace File

def blockSize (f : File) : ℕ := 512 * f.units

/-- What `fstat` says. -/
def stat (f : File) : Stat := ⟨f.size, f.units * f.allocated.card + f.overhead⟩

/-- How many blocks it takes to hold the file. -/
def length (f : File) : ℕ := (f.size + f.blockSize - 1) / f.blockSize

end File

/-- Every block of the file has been asked for once, and no other. -/
def Exact (f : File) (v : Visit) : Prop := ∀ b, v.issued.count b = if b < f.length then 1 else 0

variable {fibmap : ℕ → Option ℤ} {bound : ℤ} {f : File}

/-- A number is asked for if the bound admits it and no number before it has failed. -/
theorem mem_issued (i b : ℕ) :
    b ∈ (loop fibmap bound i).issued ↔ i ≤ b ∧ b < bound ∧ ∀ c, i ≤ c → c < b → (fibmap c).isSome := by
  fun_induction loop fibmap bound i with
  | case1 i hi hmap =>
    simp only [List.mem_singleton]
    constructor
    · rintro rfl
      exact ⟨le_rfl, hi, fun c hc hlt => absurd hlt (Nat.not_lt.mpr hc)⟩
    · rintro ⟨hle, -, hall⟩
      by_contra hne
      have hsome := hall i le_rfl (by omega)
      rw [hmap] at hsome
      cases hsome
  | case2 i hi j hmap ih =>
    simp only [Visit.cons, List.mem_cons, ih]
    constructor
    · rintro (rfl | ⟨hle, hlt, hall⟩)
      · exact ⟨le_rfl, hi, fun c hc hlt => absurd hlt (Nat.not_lt.mpr hc)⟩
      · refine ⟨by omega, hlt, fun c hc hcb => ?_⟩
        by_cases hci : c = i
        · rw [hci, hmap]
          rfl
        · exact hall c (by omega) hcb
    · rintro ⟨hle, hlt, hall⟩
      by_cases hb : b = i
      · exact .inl hb
      · exact .inr ⟨by omega, hlt, fun c hc => hall c (by omega)⟩
  | case3 i hi =>
    simp only [List.not_mem_nil, false_iff]
    omega

/-- No number is asked for again. -/
theorem nodup_issued (i : ℕ) : (loop fibmap bound i).issued.Nodup := by
  fun_induction loop fibmap bound i with
  | case1 => exact List.nodup_singleton _
  | case2 i _ j _ ih =>
    refine List.nodup_cons.mpr ⟨fun hmem => ?_, ih⟩
    have hle := ((mem_issued _ _).mp hmem).1
    omega
  | case3 => exact List.nodup_nil

theorem exact_iff_mem : Exact f (loop fibmap bound 0) ↔
    ∀ b : ℕ, (b < bound ∧ ∀ c < b, (fibmap c).isSome) ↔ b < f.length := by
  refine forall_congr' fun b => ?_
  have hmem : b ∈ (loop fibmap bound 0).issued ↔ b < bound ∧ ∀ c < b, (fibmap c).isSome := by
    simp [mem_issued]
  rw [List.Nodup.count (nodup_issued 0), ← hmem]
  by_cases hissued : b ∈ (loop fibmap bound 0).issued <;> by_cases hlength : b < f.length <;>
    simp [hissued, hlength]

/-- The loop asks for the blocks of the file if its bound happens to be their number, or if it is larger
and the last block's call is the first to fail. -/
theorem exact_iff (f : File) (fibmap : ℕ → Option ℤ) :
    Exact f (getPhysicalBlockNumber (some f.stat) fibmap) ↔
      (∀ c, c + 1 < f.length → (fibmap c).isSome) ∧
      ((toInt f.stat.blocks).toNat = f.length ∨
        ∃ c, c + 1 = f.length ∧ f.length < toInt f.stat.blocks ∧ fibmap c = none) := by
  rw [getPhysicalBlockNumber, exact_iff_mem]
  generalize toInt f.stat.blocks = bound
  generalize f.length = n
  constructor
  · intro h
    have hlast : ∀ c, c + 1 < n → (fibmap c).isSome := by
      intro c hc
      exact ((h (c + 1)).mpr hc).2 c (Nat.lt_succ_self c)
    refine ⟨hlast, ?_⟩
    by_cases hbound : n < bound
    · obtain ⟨c, hcn, hc⟩ : ∃ c < n, ¬(fibmap c).isSome := by
        by_contra! hall
        exact Nat.lt_irrefl n ((h n).mp ⟨hbound, hall⟩)
      have hcn : c + 1 = n := by
        by_contra hne
        exact hc (hlast c (by omega))
      exact .inr ⟨c, hcn, hbound, by simpa using hc⟩
    · left
      cases n with
      | zero => omega
      | succ m =>
        have hm := ((h m).mpr (Nat.lt_succ_self m)).1
        omega
  · rintro ⟨hall, hbound | ⟨c, hcn, hbound, hc⟩⟩ b
    · refine ⟨fun hb => by omega, fun hb => ⟨by omega, fun c hc => hall c (by omega)⟩⟩
    · refine ⟨fun hb => ?_, fun hb => ⟨by omega, fun d hd => hall d (by omega)⟩⟩
      by_contra hge
      have hsome := hb.2 c (by omega)
      rw [hc] at hsome
      cases hsome

/-- The file of 1000 bytes that the listing under the function shows: it has one block of 4096 bytes, and
eight are asked for. -/
theorem not_exact_listing :
    ¬Exact ⟨1000, 8, by decide, {0}, 0⟩ (getPhysicalBlockNumber (some ⟨1000, 8⟩)
      fun b => some (if b = 0 then 1616638 else 0)) := by
  intro h
  have hseven := (exact_iff_mem.mp h 7).mp ⟨by decide, fun c _ => rfl⟩
  exact absurd hseven (by decide)

theorem toInt_of_lt {n : ℕ} (h : n < 2147483648) : toInt n = n :=
  Int.bmod_eq_of_le_mul_two (by omega) (by omega)

/-- A file without holes, and without anything else on its account, needs blocks of 512 bytes. -/
theorem exact_iff_of_dense (hdense : f.allocated.card = f.length) (halone : f.overhead = 0)
    (hfibmap : ∀ b, (fibmap b).isSome) (hsmall : f.units * f.length < 2147483648) :
    Exact f (getPhysicalBlockNumber (some f.stat) fibmap) ↔ f.length = 0 ∨ f.units = 1 := by
  have hblocks : toInt f.stat.blocks = (f.units * f.length : ℕ) := by
    rw [← toInt_of_lt hsmall, File.stat, hdense, halone, Nat.add_zero]
  have hfails : ¬∃ c, c + 1 = f.length ∧ f.length < toInt f.stat.blocks ∧ fibmap c = none := by
    rintro ⟨c, -, -, hc⟩
    have hsome := hfibmap c
    rw [hc] at hsome
    cases hsome
  rw [exact_iff, and_iff_right fun c _ => hfibmap c, or_iff_left hfails, hblocks, Int.toNat_natCast]
  constructor
  · intro h
    rcases Nat.eq_zero_or_pos f.length with hzero | hpos
    · exact .inl hzero
    · exact .inr (Nat.eq_of_mul_eq_mul_right hpos (h.trans (Nat.one_mul _).symm))
  · rintro (h | h)
    · rw [h, Nat.mul_zero]
    · rw [h, Nat.one_mul]

end LinuxApi.BlockNumbers
