import LinuxApi.Kernel.Pages

/-! `mmap_sample` in `fileio_mmap.c` and the pages of its process. A file is mapped, the mapping is made 100
bytes larger, wherever that takes it, and what is unmapped in the end is the first mapping. -/

namespace LinuxApi.Mmap

def pageSize : ℕ := 4096

/-- `S_ISREG(sb.st_mode)` and `sb.st_size`. -/
structure Stat where
  isReg : Bool
  size : ℕ

/-- How the calls turn out, by their names: an address is the kernel's choice, and `false` and `none` are
failures. -/
structure Answers where
  opened : Bool
  fstat : Option Stat
  mmap : Option ℕ
  close : Bool
  mremap : Option ℕ
  mprotect : Bool
  msync : Bool
  madvise : Bool
  munmap : Bool

/-- The pages a call was about, and those of the mapping at that moment. -/
structure Call where
  pages : Finset ℕ
  owned : Finset ℕ
  deriving DecidableEq

/-- `mapped` are the pages of the process, `owned` those of its mapping of the file, and `calls` the calls
on a range of pages so far. -/
structure State where
  mapped : Finset ℕ
  owned : Finset ℕ
  calls : List Call
  deriving DecidableEq

namespace State

def mmap (s : State) (len : ℕ) (place : Option ℕ) : Option (ℕ × State) :=
  (Pages.mmap pageSize s.mapped len place).map fun r =>
    (r.1, { s with mapped := r.2, owned := Pages.range pageSize r.1 len })

def mremap (s : State) (old oldLen newLen : ℕ) (place : Option ℕ) : Option (ℕ × State) :=
  (Pages.mremap pageSize s.mapped old oldLen newLen place).map fun r =>
    (r.1, { s with mapped := r.2, owned := Pages.range pageSize r.1 newLen })

/-- A call on a range of pages. -/
def called (s : State) (addr len : ℕ) : State :=
  { s with calls := s.calls ++ [⟨Pages.range pageSize addr len, s.owned⟩] }

/-- `mprotect`, `msync` and `madvise`. -/
def advise (s : State) (addr len : ℕ) (ok : Bool) : Option State :=
  if ok = true ∧ Pages.covers pageSize s.mapped addr len = true then some (s.called addr len) else none

def munmap (s : State) (addr len : ℕ) (ok : Bool) : Option State :=
  if ok then
    (Pages.munmap pageSize s.mapped addr len).map fun m =>
      { s.called addr len with mapped := m, owned := s.owned \ Pages.range pageSize addr len }
  else none

/-- No call was about a page outside the mapping. -/
def Framed (s : State) : Prop := ∀ c ∈ s.calls, c.pages ⊆ c.owned

end State

/-- `errexit(msg)` on a failed call. -/
def orErrexit {α : Type} (msg : String) : Option α → Except String α
  | none => .error msg
  | some a => .ok a

def check (msg : String) (ok : Bool) : Except String Unit := orErrexit msg (if ok then some () else none)

/-- `mmap_sample` on a regular file. -/
def mapFile (a : Answers) (sb : Stat) (s : State) : Except String State := do
  let (p, s) ← orErrexit "mmap" (s.mmap sb.size a.mmap)
  check "close" a.close
  let newsize := sb.size + 100
  let (newP, s) ← orErrexit "mremap" (s.mremap p sb.size newsize a.mremap)
  let s ← orErrexit "mprotect" (s.advise newP (sb.size + 100) a.mprotect)
  let s ← orErrexit "msync" (s.advise newP newsize a.msync)
  let s ← orErrexit "madvise" (s.advise newP newsize a.madvise)
  orErrexit "munmap" (s.munmap p sb.size a.munmap)

/-- `mmap_sample` in a process with the pages `mapped`. -/
def mmapSample (a : Answers) (mapped : Finset ℕ) : Except String State := do
  check "open" a.opened
  let sb ← orErrexit "fstat" a.fstat
  if sb.isReg then mapFile a sb ⟨mapped, ∅, []⟩ else return ⟨mapped, ∅, []⟩

variable {a : Answers} {sb : Stat} {m : Finset ℕ} {t : State}

theorem orErrexit_bind_eq_ok {α β : Type} {msg : String} {x : Option α} {f : α → Except String β} {b : β} :
    (orErrexit msg x >>= f) = .ok b ↔ ∃ y, x = some y ∧ f y = .ok b := by
  cases x with
  | none => exact iff_of_false (fun h => by cases h) (by simp)
  | some y => simp [orErrexit, bind, Except.bind]

theorem orErrexit_eq_ok {α : Type} {msg : String} {x : Option α} {y : α} :
    orErrexit msg x = .ok y ↔ x = some y := by
  cases x with
  | none => exact iff_of_false (fun h => by cases h) (by simp)
  | some z => simp [orErrexit]

theorem check_bind_eq_ok {β : Type} {msg : String} {ok : Bool} {f : Unit → Except String β} {b : β} :
    (check msg ok >>= f) = .ok b ↔ ok = true ∧ f () = .ok b := by
  rw [check, orErrexit_bind_eq_ok]
  cases ok with
  | false => simp
  | true => exact ⟨fun ⟨_, _, h⟩ => ⟨rfl, h⟩, fun h => ⟨(), rfl, h.2⟩⟩

/-- The pages of a file of `n` bytes at an address. -/
abbrev filePages (addr n : ℕ) : Finset ℕ := Pages.range pageSize addr n

namespace State

variable {s : State} {addr len old oldLen : ℕ} {place : Option ℕ} {ok : Bool}

theorem mmap_eq_some (h : s.mmap len place = some (addr, t)) :
    place = some addr ∧ 0 < len ∧ addr % pageSize = 0 ∧ Disjoint s.mapped (filePages addr len) ∧
      t = ⟨s.mapped ∪ filePages addr len, filePages addr len, s.calls⟩ := by
  obtain ⟨⟨p, m⟩, hm, hpair⟩ := Option.map_eq_some_iff.mp h
  cases hpair
  obtain ⟨hplace, ⟨hlen, halign, hfree⟩, rfl⟩ := Pages.mmap_eq_some.mp hm
  exact ⟨hplace, hlen, halign, hfree, rfl⟩

theorem mremap_eq_some (h : s.mremap old oldLen len place = some (addr, t)) :
    place = some addr ∧ 0 < len ∧ addr % pageSize = 0 ∧
      Disjoint (s.mapped \ filePages old oldLen) (filePages addr len) ∧
      t = ⟨s.mapped \ filePages old oldLen ∪ filePages addr len, filePages addr len, s.calls⟩ := by
  obtain ⟨⟨p, m⟩, hm, hpair⟩ := Option.map_eq_some_iff.mp h
  cases hpair
  obtain ⟨hplace, hlen, halign, hfree, rfl⟩ := Pages.disjoint_of_mremap hm
  exact ⟨hplace, hlen, halign, hfree, rfl⟩

theorem advise_eq_some (h : s.advise addr len ok = some t) : t = s.called addr len :=
  (Option.some.inj (Option.ite_none_right_eq_some.mp h).2).symm

theorem munmap_eq_some (h : s.munmap addr len ok = some t) :
    t = ⟨s.mapped \ filePages addr len, s.owned \ filePages addr len,
      s.calls ++ [⟨filePages addr len, s.owned⟩]⟩ := by
  obtain ⟨-, h⟩ := Option.ite_none_right_eq_some.mp h
  obtain ⟨m, hm, rfl⟩ := Option.map_eq_some_iff.mp h
  obtain ⟨-, rfl⟩ := Pages.munmap_eq_some.mp hm
  rfl

end State

/-- What a normal return leaves behind: the first mapping is taken out where it was, and the second stays
where it is. -/
theorem mapFile_eq_ok (h : mapFile a sb ⟨m, ∅, []⟩ = .ok t) :
    ∃ p q, a.mmap = some p ∧ a.mremap = some q ∧ 0 < sb.size ∧ p % pageSize = 0 ∧ q % pageSize = 0 ∧
      Disjoint m (filePages p sb.size) ∧ Disjoint m (filePages q (sb.size + 100)) ∧
      t.mapped = ((m ∪ filePages p sb.size) \ filePages p sb.size ∪ filePages q (sb.size + 100)) \
        filePages p sb.size ∧
      (t.Framed ↔ filePages p sb.size ⊆ filePages q (sb.size + 100)) := by
  obtain ⟨⟨p, s₁⟩, hmmap, h⟩ := orErrexit_bind_eq_ok.mp h
  obtain ⟨-, h⟩ := check_bind_eq_ok.mp h
  obtain ⟨⟨q, s₂⟩, hmremap, h⟩ := orErrexit_bind_eq_ok.mp h
  obtain ⟨s₃, hmprotect, h⟩ := orErrexit_bind_eq_ok.mp h
  obtain ⟨s₄, hmsync, h⟩ := orErrexit_bind_eq_ok.mp h
  obtain ⟨s₅, hmadvise, h⟩ := orErrexit_bind_eq_ok.mp h
  obtain ⟨hp, hlen, halign, hfree, rfl⟩ := State.mmap_eq_some hmmap
  obtain ⟨hq, -, halign', hfree', rfl⟩ := State.mremap_eq_some hmremap
  obtain rfl := State.advise_eq_some hmprotect
  obtain rfl := State.advise_eq_some hmsync
  obtain rfl := State.advise_eq_some hmadvise
  rw [Finset.union_sdiff_cancel_right hfree] at hfree'
  obtain rfl := State.munmap_eq_some (orErrexit_eq_ok.mp h)
  refine ⟨p, q, hp, hq, hlen, halign, halign', hfree, hfree', rfl, ?_⟩
  simp [State.Framed, State.called]

/-- 100 bytes more fit on the last page. -/
theorem same_pages_iff (n : ℕ) : (n + pageSize - 1) / pageSize = (n + 100 + pageSize - 1) / pageSize ↔
    1 ≤ n % pageSize ∧ n % pageSize ≤ pageSize - 100 := by
  unfold pageSize
  omega

/-- A normal return has given back exactly what was mapped, and has touched nothing else, exactly if there
was nothing to map or the mapping has neither moved nor come to need another page. -/
theorem restored_iff (h : mmapSample a m = .ok t) :
    (t.mapped = m ∧ t.Framed) ↔ ∀ sb, a.fstat = some sb → sb.isReg = true →
      a.mremap = a.mmap ∧ 1 ≤ sb.size % pageSize ∧ sb.size % pageSize ≤ pageSize - 100 := by
  obtain ⟨-, h⟩ := check_bind_eq_ok.mp h
  obtain ⟨sb, hsb, h⟩ := orErrexit_bind_eq_ok.mp h
  have hall : (∀ sb, a.fstat = some sb → sb.isReg = true →
      a.mremap = a.mmap ∧ 1 ≤ sb.size % pageSize ∧ sb.size % pageSize ≤ pageSize - 100) ↔
      (sb.isReg = true →
        a.mremap = a.mmap ∧ 1 ≤ sb.size % pageSize ∧ sb.size % pageSize ≤ pageSize - 100) := by
    rw [hsb]
    simp
  rw [hall]
  cases hreg : sb.isReg with
  | false =>
    rw [hreg] at h
    obtain rfl := Except.ok.inj h
    exact iff_of_true ⟨rfl, fun c hc => by cases hc⟩ (fun h => by cases h)
  | true =>
    rw [hreg] at h
    obtain ⟨p, q, hp, hq, hlen, halign, halign', hfree, hfree', hmapped, hframed⟩ := mapFile_eq_ok h
    rw [hmapped, hframed, Pages.replace_sdiff_eq_iff hfree hfree', ← Finset.Subset.antisymm_iff, eq_comm,
      Pages.range_eq_iff (by decide) halign halign' hlen, same_pages_iff, hp, hq, Option.some.injEq,
      eq_comm (a := q)]
    exact ⟨fun h _ => h, fun h => h rfl⟩

/-- Five bytes that stay where they are. -/
theorem restored_iff_five :
    mmapSample ⟨true, some ⟨true, 5⟩, some 8192, true, some 8192, true, true, true, true⟩ {0} =
      .ok ⟨{0}, ∅, .replicate 4 ⟨{2}, {2}⟩⟩ ∧
    State.Framed ⟨{0}, ∅, .replicate 4 ⟨{2}, {2}⟩⟩ := by
  have hrun : mmapSample ⟨true, some ⟨true, 5⟩, some 8192, true, some 8192, true, true, true, true⟩ {0} =
      .ok ⟨{0}, ∅, .replicate 4 ⟨{2}, {2}⟩⟩ := by decide
  refine ⟨hrun, ((restored_iff hrun).mpr ?_).2⟩
  intro sb hsb hreg
  obtain rfl := Option.some.inj hsb
  decide

/-- A file of 4000 bytes leaves a page behind when it stays. One of five bytes leaves its page behind when
it moves, and its `munmap` is about a page that is not its own. -/
theorem not_restored :
    (∃ t, mmapSample ⟨true, some ⟨true, 4000⟩, some 8192, true, some 8192, true, true, true, true⟩ {0} = .ok t ∧
      t.mapped ≠ {0}) ∧
    ∃ t, mmapSample ⟨true, some ⟨true, 5⟩, some 8192, true, some 16384, true, true, true, true⟩ {0} = .ok t ∧
      t.mapped ≠ {0} ∧ ¬t.Framed := by
  refine ⟨⟨⟨{0, 3}, {3}, .replicate 3 ⟨{2, 3}, {2, 3}⟩ ++ [⟨{2}, {2, 3}⟩]⟩, by decide, by decide⟩,
    ⟨⟨{0, 4}, {4}, .replicate 3 ⟨{4}, {4}⟩ ++ [⟨{2}, {4}⟩]⟩, by decide, by decide, fun h => ?_⟩⟩
  have hpages := h ⟨{2}, {4}⟩ (by decide)
  exact absurd hpages (by decide)

end LinuxApi.Mmap
