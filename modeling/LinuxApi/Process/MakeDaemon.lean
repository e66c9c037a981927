import LinuxApi.Process.BecomeDaemon

/-! `make_daemon` in `process_manage.c`: one fork with a `setsid`, and then the directory and the
descriptors of the child. The loop of `close` has a fixed bound, and neither its results nor those of the
`open` and of the two `dup`s are looked at. -/

namespace LinuxApi.MakeDaemon

open BecomeDaemon (File Process setsid_fork)

/-- `NR_OPEN` -/
def nrOpen : ℕ := 1024

/-- What the kernel answers. `child` is the pid of the fork, `none` for -1; the `dup`s fail at the soft
limit only, or without a descriptor 0. -/
structure Kernel where
  child : Option ℕ
  limit : ℕ
  chdirOk : Bool
  openOk : Bool

/-- The daemon in front of its last loop, and what `open` and the two `dup`s have returned. -/
structure Daemon (φ : Type*) where
  process : Process (File φ)
  results : List (Option ℕ)

variable {φ : Type*}

/-- The return value, and the table after the call. -/
def resulting (t : Descriptors φ) : Option (ℕ × Descriptors φ) → Option ℕ × Descriptors φ
  | none => (none, t)
  | some (fd, t) => (some fd, t)

/-- `open("/dev/null", O_RDWR)` -/
def openNull (k : Kernel) (t : Descriptors (File φ)) : Option (ℕ × Descriptors (File φ)) :=
  if k.openOk then t.openFile k.limit .devNull else none

/-- The descriptors, from the loop of `close` on. -/
def redirect (k : Kernel) (p : Process (File φ)) : Daemon φ :=
  let t := p.table.closeBelow nrOpen
  let (r₀, t) := resulting t (openNull k t)
  let (r₁, t) := resulting t (Descriptors.dup t k.limit 0)
  let (r₂, t) := resulting t (Descriptors.dup t k.limit 0)
  ⟨{ p with table := t }, [r₀, r₁, r₂]⟩

/-- The child, or the message of an `errexit`. -/
def child (k : Kernel) (p : Process (File φ)) : Except String (Daemon φ) :=
  match p.setsid with
  | none => .error "setsid"
  | some p => if k.chdirOk then .ok (redirect k { p with cwd := "/" }) else .error "chdir"

/-- The parent ends with `exit`. There is no outcome with a pid that is in use. -/
def makeDaemon (k : Kernel) (caller : Process φ) : Option (Except String (Daemon φ)) :=
  match k.child with
  | none => some (.error "fork")
  | some pid => (caller.asCaller.fork pid).map (child k)

/-- Exactly the standard descriptors are open, on `/dev/null`. -/
def Redirected (t : Descriptors (File φ)) : Prop := ∀ fd, t fd = if fd < 3 then some .devNull else none

variable {k : Kernel} {p : Process (File φ)} {caller : Process φ} {d : Daemon φ}

/-- A table with `/dev/null` on the first descriptors. -/
def nulls (t : Descriptors (File φ)) (n : ℕ) : Descriptors (File φ) :=
  fun fd => if fd < n then some .devNull else t fd

theorem nulls_succ (t : Descriptors (File φ)) (n : ℕ) :
    Function.update (nulls t n) n (some .devNull) = nulls t (n + 1) := by
  funext fd
  by_cases h : fd = n
  · subst h
    simp [nulls]
  · have hlt : fd < n + 1 ↔ fd < n := by omega
    simp [nulls, h, hlt]

variable {t : Descriptors (File φ)} {limit n : ℕ}

/-- With 0 free it is 0 that `open` gives. -/
theorem openNull_of_zero (hfree : t 0 = none) :
    openNull k t = if k.openOk = true ∧ 0 < k.limit then some (0, nulls t 1) else none := by
  rw [openNull, Descriptors.openFile_of_zero hfree, ← nulls_succ, ite_and]
  rfl

/-- A `dup` of 0 takes the descriptor behind those that are on `/dev/null`. -/
theorem dup_nulls (hpos : 0 < n) (hfree : t n = none) :
    Descriptors.dup (nulls t n) limit 0 = if n < limit then some (n, nulls t (n + 1)) else none := by
  rw [← nulls_succ]
  refine Descriptors.dup_at (if_pos hpos) (fun x hx => ?_) ?_
  · rw [nulls, if_pos hx]
    exact Option.some_ne_none _
  · rw [nulls, if_neg (Nat.lt_irrefl n), hfree]

theorem closed (t : Descriptors φ) {n : ℕ} (hn : n < nrOpen) : t.closeBelow nrOpen n = none := by
  rw [Descriptors.closeBelow_apply, if_pos hn]

/-- Below a limit that allows it `/dev/null` gets on 0, 1 and 2. -/
theorem redirect_eq (hopenOk : k.openOk = true) (hlimit : 2 < k.limit) :
    redirect k p =
      ⟨{ p with table := nulls (p.table.closeBelow nrOpen) 3 }, [some 0, some 1, some 2]⟩ := by
  have hopen := openNull_of_zero (k := k) (closed p.table (n := 0) (by decide))
  have hdup : ∀ n, 0 < n → n < 3 → Descriptors.dup (nulls (p.table.closeBelow nrOpen) n) k.limit 0 =
      some (n, nulls (p.table.closeBelow nrOpen) (n + 1)) := by
    intro n hpos hn
    rw [dup_nulls hpos (closed p.table (by unfold nrOpen; omega)), if_pos (by omega)]
  rw [if_pos ⟨hopenOk, by omega⟩] at hopen
  simp only [redirect, hopen, resulting, hdup 1 (by decide) (by decide), hdup 2 (by decide) (by decide)]

/-- The results of the three calls tell whether it does. -/
theorem limit_of_results (h : ∀ r ∈ (redirect k p).results, r ≠ none) :
    k.openOk = true ∧ 2 < k.limit := by
  have hopen := openNull_of_zero (k := k) (closed p.table (n := 0) (by decide))
  have hdup : Descriptors.dup (nulls (p.table.closeBelow nrOpen) 1) k.limit 0 = _ :=
    dup_nulls Nat.one_pos (closed p.table (by decide))
  have hdup' : Descriptors.dup (nulls (p.table.closeBelow nrOpen) 2) k.limit 0 = _ :=
    dup_nulls Nat.two_pos (closed p.table (by decide))
  by_contra hno
  by_cases hzero : k.openOk = true ∧ 0 < k.limit
  · rw [if_pos hzero] at hopen
    by_cases hone : 1 < k.limit
    · have htwo : ¬2 < k.limit := fun htwo => hno ⟨hzero.1, htwo⟩
      rw [if_pos hone] at hdup
      rw [if_neg htwo] at hdup'
      simp [redirect, hopen, resulting, hdup, hdup'] at h
    · rw [if_neg hone] at hdup
      simp [redirect, hopen, resulting, hdup] at h
  · rw [if_neg hzero] at hopen
    simp [redirect, hopen, resulting] at h

theorem redirected_iff_nulls :
    Redirected (nulls (t.closeBelow nrOpen) 3) ↔ ∀ fd, nrOpen ≤ fd → t fd = none := by
  unfold Redirected nulls
  simp only [Descriptors.closeBelow_apply]
  constructor
  · intro h fd hfd
    have hlarge : ¬fd < 3 := by
      unfold nrOpen at hfd
      omega
    have := h fd
    rwa [if_neg hlarge, if_neg hlarge, if_neg (Nat.not_lt.mpr hfd)] at this
  · intro h fd
    split_ifs with hstd hlow
    · rfl
    · rfl
    · exact h fd (Nat.not_lt.mp hlow)

/-- A daemon that has got past its calls comes from the child of the caller. -/
theorem makeDaemon_eq_ok (h : makeDaemon k caller = some (.ok d)) :
    ∃ p : Process (File φ), p.table = caller.asCaller.table ∧ d = redirect k p := by
  unfold makeDaemon at h
  cases hchild : k.child with
  | none =>
    rw [hchild] at h
    cases h
  | some pid =>
    rw [hchild] at h
    obtain ⟨q, hfork, h⟩ := Option.map_eq_some_iff.mp h
    rw [child, setsid_fork hfork] at h
    dsimp only at h
    split_ifs at h
    obtain rfl := Except.ok.inj h
    exact ⟨{ caller.asCaller with pid, pgid := pid, sid := pid, cwd := "/" }, rfl, rfl⟩

/-- When `open` and the `dup`s succeed, the daemon is left with the standard descriptors alone exactly if
nothing was open at 1024 or above. -/
theorem redirected_iff (h : makeDaemon k caller = some (.ok d)) (hresults : ∀ r ∈ d.results, r ≠ none) :
    Redirected d.process.table ↔ ∀ fd, nrOpen ≤ fd → caller.table fd = none := by
  obtain ⟨p, hp, rfl⟩ := makeDaemon_eq_ok h
  obtain ⟨hopenOk, hlimit⟩ := limit_of_results hresults
  rw [redirect_eq hopenOk hlimit, redirected_iff_nulls, hp]
  simp only [Process.asCaller, Option.map_eq_none_iff]

/-- A kernel that refuses nothing, with a limit of 4096. -/
def kernel : Kernel := ⟨some 101, 4096, true, true⟩

/-- A caller that has the standard output and one more. -/
def callerWith (fd : ℕ) : Process ℕ :=
  ⟨100, 100, 50, 0o22, "/home", fun x => if x = 1 ∨ x = fd then some x else none⟩

theorem makeDaemon_callerWith (fd : ℕ) : ∃ p : Process (File ℕ), makeDaemon kernel (callerWith fd) =
    some (.ok ⟨{ p with table := nulls ((callerWith fd).asCaller.table.closeBelow nrOpen) 3 },
      [some 0, some 1, some 2]⟩) := by
  refine ⟨⟨101, 101, 101, 0o22, "/", (callerWith fd).asCaller.table⟩, ?_⟩
  rw [← redirect_eq (k := kernel) rfl (by decide)]
  rfl

theorem redirected_iff_five :
    ∃ d, makeDaemon kernel (callerWith 5) = some (.ok d) ∧ Redirected d.process.table := by
  obtain ⟨p, h⟩ := makeDaemon_callerWith 5
  refine ⟨_, h, (redirected_iff h (by simp)).mpr fun fd hfd => ?_⟩
  unfold nrOpen at hfd
  exact if_neg (by omega)

/-- Descriptor 1024 stays open. -/
theorem not_redirected :
    ∃ d, makeDaemon kernel (callerWith 1024) = some (.ok d) ∧ d.results = [some 0, some 1, some 2] ∧
      ¬Redirected d.process.table := by
  obtain ⟨p, h⟩ := makeDaemon_callerWith 1024
  refine ⟨_, h, rfl, fun hred => ?_⟩
  have hopen := redirected_iff_nulls.mp hred 1024 (Nat.le_refl 1024)
  simp [Process.asCaller, callerWith] at hopen

end LinuxApi.MakeDaemon
