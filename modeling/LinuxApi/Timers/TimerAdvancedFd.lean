import LinuxApi.Kernel.Bytes
import LinuxApi.Kernel.Stream

/-! `timer_advanced_fd`. Each `read` puts the eight bytes of an expiration count at the address of an
`int`: four of them lie behind it. Where these hurt no other variable, the `int` that is added to the
total is the low half of the count with its sign. -/

namespace LinuxApi.TimerAdvancedFd

/-- `max_expire_cnt` -/
def maxExpireCnt : ℕ := 100

def sizeofInt : ℕ := 4

def sizeofUint64 : ℕ := 8

/-- The stack from `num_expire_cnt` on; `total_expire_cnt` lies `gap` bytes behind its beginning. -/
abbrev Frame (gap : ℕ) := Buffer (gap + sizeofUint64)

variable {gap : ℕ}

namespace Frame

def numExpireCnt (f : Frame gap) : BitVec 32 := .ofNat 32 (leNat (f.bytes.take sizeofInt))

def totalExpireCnt (f : Frame gap) : BitVec 64 := .ofNat 64 (leNat (f.bytes.drop gap))

def setTotal (f : Frame gap) (x : BitVec 64) : Frame gap where
  bytes := f.bytes.take gap ++ leBytes sizeofUint64 x.toNat
  length_eq := by
    rw [List.length_append, List.length_take, f.length_eq, length_leBytes]
    omega

end Frame

/-- What `read` stores at `&num_expire_cnt`. -/
def readBytes (count : BitVec 64) : List UInt8 := leBytes sizeofUint64 count.toNat

/-- The body of the loop. -/
def body (f : Frame gap) (count : BitVec 64) : Frame gap :=
  let f : Frame gap := f.store (readBytes count)
  f.setTotal (f.totalExpireCnt + f.numExpireCnt.signExtend 64)

/-- The stack at each test of the loop, while the counts are read. -/
def tests (f : Frame gap) : List (BitVec 64) → List (Frame gap)
  | [] => [f]
  | c :: cs => if f.totalExpireCnt < .ofNat 64 maxExpireCnt then f :: tests (body f c) cs else [f]

/-- `timer_advanced_fd` on a stack that holds anything. -/
def timerAdvancedFd (f : Frame gap) (counts : List (BitVec 64)) : List (Frame gap) :=
  tests (f.setTotal 0) counts

/-- What the total should be at each test: the sum of the counts so far, up to the first of
`max_expire_cnt` or more. -/
def sums (sum : ℕ) : List (BitVec 64) → List ℕ
  | [] => [sum]
  | c :: cs => if sum < maxExpireCnt then sum :: sums (sum + c.toNat) cs else [sum]

/-- Every `read` of the loop stays in `num_expire_cnt`, and the totals are the sums. -/
structure Exact (f : Frame gap) (counts : List (BitVec 64)) : Prop where
  inside : ∀ c ∈ counts.take ((timerAdvancedFd f counts).length - 1), (readBytes c).length ≤ sizeofInt
  totals : (timerAdvancedFd f counts).map (·.totalExpireCnt.toNat) = sums 0 counts

/-- The sign-extended low half of the count adds the count. -/
def fits (sum : ℕ) (c : BitVec 64) : Prop :=
  c.toNat < 2147483648 ∨ 18446744071562067968 ≤ c.toNat ∧ sum + c.toNat < 18446744073709551616

/-- All counts that are read add themselves. -/
def AllFit (sum : ℕ) : List (BitVec 64) → Prop
  | [] => True
  | c :: cs => sum < maxExpireCnt → fits sum c ∧ AllFit (sum + c.toNat) cs

/-! ### The variables -/

@[simp] theorem totalExpireCnt_setTotal (f : Frame gap) (x : BitVec 64) :
    (f.setTotal x).totalExpireCnt = x := by
  have hx : x.toNat < 256 ^ sizeofUint64 := x.isLt
  have hlen : (f.bytes.take gap).length = gap := by
    rw [List.length_take, f.length_eq]
    omega
  rw [Frame.totalExpireCnt, Frame.setTotal, List.drop_left' hlen, leNat_leBytes_of_lt hx]
  exact BitVec.ofNat_toNat 64 x |>.trans (by simp)

theorem store_readBytes (f : Frame gap) (count : BitVec 64) :
    (f.store (readBytes count)).bytes = readBytes count ++ f.bytes.drop sizeofUint64 := by
  have hlen : (readBytes count).length = sizeofUint64 := length_leBytes _ _
  rw [Buffer.store_bytes f (by omega), hlen]

/-- The `int` is the low half of the count. -/
theorem numExpireCnt_store (f : Frame gap) (count : BitVec 64) :
    Frame.numExpireCnt (f.store (readBytes count)) = count.setWidth 32 := by
  have htake : (readBytes count ++ f.bytes.drop sizeofUint64).take sizeofInt =
      leBytes sizeofInt count.toNat := by
    rw [List.take_append_of_le_length (by rw [readBytes, length_leBytes]; decide), readBytes,
      take_leBytes (by decide)]
  rw [Frame.numExpireCnt, store_readBytes, htake, leNat_leBytes]
  apply BitVec.eq_of_toNat_eq
  rw [BitVec.toNat_ofNat, BitVec.toNat_setWidth]
  exact Nat.mod_mod _ _

/-- The total is not hurt if it lies behind the eight bytes. -/
theorem totalExpireCnt_store (h : sizeofUint64 ≤ gap) (f : Frame gap) (count : BitVec 64) :
    Frame.totalExpireCnt (f.store (readBytes count)) = f.totalExpireCnt := by
  have hlen : (readBytes count).length = sizeofUint64 := length_leBytes _ _
  have hdrop : (readBytes count ++ f.bytes.drop sizeofUint64).drop gap = f.bytes.drop gap := by
    rw [List.drop_append, List.drop_of_length_le (by omega), List.nil_append, List.drop_drop, hlen]
    congr 1
    omega
  rw [Frame.totalExpireCnt, store_readBytes, hdrop, Frame.totalExpireCnt]

/-! ### The totals -/

theorem totalExpireCnt_body (h : sizeofUint64 ≤ gap) (f : Frame gap) (c : BitVec 64) :
    (body f c).totalExpireCnt = f.totalExpireCnt + (c.setWidth 32).signExtend 64 := by
  rw [body, totalExpireCnt_setTotal, totalExpireCnt_store h, numExpireCnt_store]

/-- The sign-extended low half as a number. -/
theorem toNat_signExtend_setWidth (c : BitVec 64) :
    ((c.setWidth 32).signExtend 64).toNat = c.toNat % 4294967296 +
      if 2147483648 ≤ c.toNat % 4294967296 then 18446744069414584320 else 0 := by
  rw [BitVec.toNat_signExtend, BitVec.msb_eq_decide, BitVec.toNat_setWidth_of_le (by decide),
    BitVec.toNat_setWidth]
  simp

/-- One round adds the count exactly if it fits. -/
theorem toNat_body_iff (h : sizeofUint64 ≤ gap) {f : Frame gap} {sum : ℕ}
    (hf : f.totalExpireCnt.toNat = sum) (hsum : sum < maxExpireCnt) (c : BitVec 64) :
    (body f c).totalExpireCnt.toNat = sum + c.toNat ↔ fits sum c := by
  have hc := c.isLt
  have hlt : sum < 100 := hsum
  rw [totalExpireCnt_body h, BitVec.toNat_add, hf, toNat_signExtend_setWidth, fits]
  split_ifs with hneg <;> omega

theorem head?_tests (f : Frame gap) (counts : List (BitVec 64)) : (tests f counts).head? = some f := by
  cases counts with
  | nil => rfl
  | cons c cs => rw [tests]; split_ifs <;> rfl

theorem head?_sums (sum : ℕ) (counts : List (BitVec 64)) : (sums sum counts).head? = some sum := by
  cases counts with
  | nil => rfl
  | cons c cs => rw [sums]; split_ifs <;> rfl

/-- From a right total on the totals are right exactly if all counts fit. -/
theorem map_tests_iff (h : sizeofUint64 ≤ gap) {f : Frame gap} {sum : ℕ}
    (hf : f.totalExpireCnt.toNat = sum) (counts : List (BitVec 64)) :
    (tests f counts).map (·.totalExpireCnt.toNat) = sums sum counts ↔ AllFit sum counts := by
  induction counts generalizing f sum with
  | nil => simp [tests, sums, AllFit, hf]
  | cons c cs ih =>
    have htest : f.totalExpireCnt < .ofNat 64 maxExpireCnt ↔ sum < maxExpireCnt := by
      rw [BitVec.lt_def, hf]
      exact Iff.rfl
    rw [tests, sums, AllFit]
    by_cases hs : sum < maxExpireCnt
    · rw [if_pos (htest.mpr hs), if_pos hs, List.map_cons, hf, List.cons.injEq, eq_self, true_and,
        forall_prop_of_true hs]
      by_cases hfit : fits sum c
      · rw [ih ((toNat_body_iff h hf hs c).mpr hfit), and_iff_right hfit]
      · refine iff_of_false (fun heq => hfit ?_) fun hall => hfit hall.1
        have hhead := congrArg List.head? heq
        rw [List.head?_map, head?_tests, head?_sums, Option.map_some, Option.some.injEq] at hhead
        exact (toNat_body_iff h hf hs c).mp hhead
    · rw [if_neg (mt htest.mp hs), if_neg hs]
      simp [hf, hs]

/-- The first `read`, which is always made, already stores outside. So no run is as it should be; if
the total lies behind the eight bytes it is exact at every test, and the loop ends where it should,
exactly if all counts fit. -/
theorem not_exact (f : Frame gap) (c : BitVec 64) (cs : List (BitVec 64)) :
    ¬Exact f (c :: cs) ∧ (sizeofUint64 ≤ gap →
      ((timerAdvancedFd f (c :: cs)).map (·.totalExpireCnt.toNat) = sums 0 (c :: cs) ↔
        AllFit 0 (c :: cs))) := by
  have hzero : (f.setTotal 0).totalExpireCnt.toNat = 0 := by rw [totalExpireCnt_setTotal]; rfl
  refine ⟨fun h => ?_, fun h => map_tests_iff h hzero (c :: cs)⟩
  have hrun : timerAdvancedFd f (c :: cs) = f.setTotal 0 :: tests (body (f.setTotal 0) c) cs := by
    rw [timerAdvancedFd, tests, if_pos (by rw [totalExpireCnt_setTotal]; decide)]
  have hmem : c ∈ (c :: cs).take ((timerAdvancedFd f (c :: cs)).length - 1) := by
    have hne : tests (body (f.setTotal 0) c) cs ≠ [] := fun hnil => by
      have hhead := head?_tests (body (f.setTotal 0) c) cs
      rw [hnil] at hhead
      cases hhead
    obtain ⟨n, hn⟩ := Nat.exists_eq_succ_of_ne_zero (mt List.length_eq_zero_iff.mp hne)
    rw [hrun, List.length_cons, Nat.add_sub_cancel, hn, List.take_succ_cons]
    exact List.mem_cons_self
  have hinside := h.inside c hmem
  rw [readBytes, length_leBytes] at hinside
  exact absurd hinside (by decide)

/-- Two counts that fit, with the total right behind the eight bytes. -/
theorem not_exact_two : ∃ (f : Frame 8) (c : BitVec 64) (cs : List (BitVec 64)), c = 1 ∧ cs = [2] ∧
    ¬Exact f (c :: cs) ∧ ((timerAdvancedFd f (c :: cs)).map (·.totalExpireCnt.toNat) = sums 0 (c :: cs) ↔
      AllFit 0 (c :: cs)) :=
  ⟨.zero _, 1, [2], rfl, rfl, (not_exact _ _ _).1, (not_exact _ _ _).2 (by decide)⟩

/-- One expiration is stored outside; and where the total is next to the `int`, the second one makes it
1 again. -/
theorem not_exact_one :
    ¬Exact (Buffer.zero _ : Frame 8) [1] ∧
    (timerAdvancedFd (Buffer.zero _ : Frame 4) [1, 1]).map (·.totalExpireCnt.toNat) = [0, 1, 1] ∧
    sums 0 [1, 1] = [0, 1, 2] := by
  refine ⟨fun h => ?_, by decide, by decide⟩
  exact absurd (h.inside 1 (by decide)) (by decide)

end LinuxApi.TimerAdvancedFd
