import LinuxApi.FileIo.Inotify
import Mathlib.Data.List.Nodup

/-! Which file `file_event` names for an event. The table `fw` holds whatever `inotify_add_watch` returned,
-1 after a failure included, and `fevent_func` goes through it up to the first entry with the `wd` of the
event. -/

namespace LinuxApi.FileEvent

open Inotify (Header Event)

/-- What `inotify_add_watch` returns if it succeeds. -/
structure Descriptor where
  value : BitVec 32
  nonneg : value.msb = false
  deriving DecidableEq

/-- `struct fwatch` -/
structure Fwatch where
  watchd : BitVec 32
  filename : String
  deriving DecidableEq

inductive Line where
  | watchDescriptor (wd : BitVec 32)
  | fileName (name : String)
  | event (name : String)
  deriving DecidableEq

/-- The bits of the mask in the order of the tests. -/
def masks : List (BitVec 32 × String) :=
  [(0x00000001, "IN_ACCESS"), (0x00000004, "IN_ATTRIB"), (0x00000010, "IN_CLOSE_NOWRITE"),
    (0x00000008, "IN_CLOSE_WRITE"), (0x00000100, "IN_CREATE"), (0x00000200, "IN_DELETE"),
    (0x00000400, "IN_DELETE_SELF"), (0x00008000, "IN_IGNORED"), (0x40000000, "IN_ISDIR"),
    (0x00000002, "IN_MODIFY"), (0x00000800, "IN_MOVE_SELF"), (0x00000040, "IN_MOVED_FROM"),
    (0x00000080, "IN_MOVED_TO"), (0x00000020, "IN_OPEN"), (0x00004000, "IN_Q_OVERFLOW"),
    (0x00002000, "IN_UNMOUNT")]

/-- The tests of the mask. -/
def maskLines (mask : BitVec 32) : List Line :=
  (masks.filter fun m => mask &&& m.1 ≠ 0).map fun m => .event m.2

/-- The loop over `fw`, which an entry with the descriptor ends. -/
def search (fevent : Header) : List Fwatch → List Line
  | [] => []
  | f :: fw =>
    if fevent.wd = f.watchd then .fileName f.filename :: maskLines fevent.mask else search fevent fw

def feventFunc (fw : List Fwatch) (fevent : Header) : List Line :=
  .watchDescriptor fevent.wd :: search fevent fw

/-- A name and what `inotify_add_watch` returned for it; `none` is -1. -/
abbrev Added := String × Option Descriptor

/-- The result as it is stored. -/
def watchd : Option Descriptor → BitVec 32
  | some d => d.value
  | none => -1

/-- The loop that fills `fw`. -/
def table (added : List Added) : List Fwatch := added.map fun x => ⟨watchd x.2, x.1⟩

/-- The two names of `file_event`. -/
def added (file1 file2 : Option Descriptor) : List Added := [("file1", file1), ("file2", file2)]

/-- What `file_event` prints for each of the events it reads. -/
def fileEvent (file1 file2 : Option Descriptor) (events : List Event) : List (List Line) :=
  events.map fun e => feventFunc (table (added file1 file2)) e.header

/-- The watch of an entry is there and has the descriptor. -/
def watches (wd : BitVec 32) (x : Added) : Bool := x.2.any fun d => d.value = wd

/-- The names printed for an event are those whose watches it comes from. -/
def Attributed (added : List Added) (e : Event) (out : List Line) : Prop :=
  ∀ name, .fileName name ∈ out ↔ ∃ x ∈ added, watches e.wd x = true ∧ x.1 = name

/-- The event does not carry the -1 of a failure, nor a descriptor that two names share. -/
structure Unambiguous (added : List Added) (e : Event) : Prop where
  not_failed : e.wd = -1 → ∀ x ∈ added, x.2 ≠ none
  not_shared : added.Pairwise fun x y => ¬(watches e.wd x = true ∧ watches e.wd y = true)

/-! ### The first entry with the descriptor -/

section First

variable {α β : Type*}

/-- The first match is all there is exactly if no two entries match. -/
theorem find?_all_iff {f : α → β} {p : α → Bool} {l : List α} (hl : (l.map f).Nodup) :
    (∀ b, (∃ x, l.find? p = some x ∧ f x = b) ↔ ∃ x ∈ l, p x = true ∧ f x = b) ↔
      l.Pairwise fun x y => ¬(p x = true ∧ p y = true) := by
  induction l with
  | nil => simp
  | cons x l ih =>
    obtain ⟨hx, hl⟩ := List.nodup_cons.mp hl
    rw [List.pairwise_cons]
    by_cases hp : p x = true
    · have hfirst : (x :: l).find? p = some x := List.find?_cons_of_pos hp
      constructor
      · intro h
        have hnone : ∀ y ∈ l, ¬p y = true := by
          intro y hy hpy
          obtain ⟨z, hz, hzy⟩ := (h (f y)).mpr ⟨y, List.mem_cons_of_mem _ hy, hpy, rfl⟩
          obtain rfl : x = z := Option.some.inj (hfirst.symm.trans hz)
          exact hx (hzy ▸ List.mem_map_of_mem hy)
        exact ⟨fun y hy hboth => hnone y hy hboth.2,
          List.pairwise_of_forall_mem_list fun y hy _ _ hboth => hnone y hy hboth.1⟩
      · rintro ⟨hother, -⟩ b
        constructor
        · rintro ⟨z, hz, rfl⟩
          obtain rfl : x = z := Option.some.inj (hfirst.symm.trans hz)
          exact ⟨x, List.mem_cons_self, hp, rfl⟩
        · rintro ⟨y, hy, hpy, rfl⟩
          rcases List.mem_cons.mp hy with rfl | hy
          · exact ⟨y, hfirst, rfl⟩
          · exact absurd ⟨hp, hpy⟩ (hother y hy)
    · have hrest : ∀ b, (∃ y ∈ x :: l, p y = true ∧ f y = b) ↔ ∃ y ∈ l, p y = true ∧ f y = b := by
        intro b
        simp [hp]
      simp only [List.find?_cons_of_neg hp, hrest]
      rw [ih hl]
      exact (and_iff_right fun y _ hboth => hp hboth.1).symm

end First

theorem fileName_mem_search {fw : List Fwatch} {fevent : Header} {name : String} :
    .fileName name ∈ search fevent fw ↔
      ∃ f, fw.find? (fun f => fevent.wd = f.watchd) = some f ∧ f.filename = name := by
  induction fw with
  | nil => simp [search]
  | cons f fw ih =>
    by_cases hf : fevent.wd = f.watchd
    · have hmask : Line.fileName name ∉ maskLines fevent.mask := by
        rw [maskLines, List.mem_map]
        rintro ⟨m, -, hm⟩
        cases hm
      rw [search, if_pos hf, List.mem_cons, or_iff_left hmask]
      simp [hf, eq_comm]
    · rw [search, if_neg hf, ih]
      simp [hf]

theorem fileName_mem_feventFunc {added : List Added} {fevent : Header} {name : String} :
    .fileName name ∈ feventFunc (table added) fevent ↔
      ∃ x, added.find? (fun x => fevent.wd = watchd x.2) = some x ∧ x.1 = name := by
  rw [feventFunc, List.mem_cons, or_iff_right Line.noConfusion, fileName_mem_search, table,
    List.find?_map]
  constructor
  · rintro ⟨f, hf, rfl⟩
    obtain ⟨x, hx, rfl⟩ := Option.map_eq_some_iff.mp hf
    exact ⟨x, hx, rfl⟩
  · rintro ⟨x, hx, rfl⟩
    exact ⟨_, Option.map_eq_some_iff.mpr ⟨x, hx, rfl⟩, rfl⟩

/-! ### Failed and shared watches -/

theorem Descriptor.ne_neg_one (d : Descriptor) : d.value ≠ -1 := by
  intro h
  have hmsb := d.nonneg
  rw [h] at hmsb
  cases hmsb

theorem watches_neg_one (x : Added) : watches (-1) x = false := by
  obtain ⟨name, _ | d⟩ := x
  · rfl
  · exact decide_eq_false d.ne_neg_one

/-- The -1 of the event is found where the table has the one of a failure. -/
theorem eq_watchd_neg_one {r : Option Descriptor} : -1 = watchd r ↔ r = none := by
  cases r with
  | none => exact iff_of_true rfl rfl
  | some d => exact iff_of_false d.ne_neg_one.symm (Option.some_ne_none d)

theorem eq_watchd_iff {wd : BitVec 32} (h : wd ≠ -1) (x : Added) :
    wd = watchd x.2 ↔ watches wd x = true := by
  obtain ⟨name, _ | d⟩ := x
  · exact iff_of_false h Bool.false_ne_true
  · simp [watchd, watches, eq_comm]

theorem attributed_one_iff {added : List Added} (hn : (added.map Prod.fst).Nodup) (e : Event) :
    Attributed added e (feventFunc (table added) e.header) ↔ Unambiguous added e := by
  simp only [Attributed, fileName_mem_feventFunc]
  by_cases hwd : e.wd = -1
  · have hheader : e.header.wd = -1 := hwd
    have hno : ∀ name, ¬∃ x ∈ added, watches e.wd x = true ∧ x.1 = name := by
      rintro name ⟨x, -, hx, -⟩
      rw [hwd, watches_neg_one] at hx
      cases hx
    simp only [hheader, eq_watchd_neg_one, hno, iff_false]
    constructor
    · intro h
      refine ⟨fun _ x hx hnone => ?_, List.pairwise_of_forall fun x y hboth => ?_⟩
      · have hsome : (added.find? fun x => x.2 = none).isSome :=
          List.find?_isSome.mpr ⟨x, hx, decide_eq_true hnone⟩
        obtain ⟨y, hy⟩ := Option.isSome_iff_exists.mp hsome
        exact h y.1 ⟨y, hy, rfl⟩
      · rw [hwd, watches_neg_one] at hboth
        cases hboth.1
    · rintro h name ⟨x, hx, -⟩
      have hnone := List.find?_some hx
      exact h.not_failed hwd x (List.mem_of_find?_eq_some hx) (of_decide_eq_true hnone)
  · have hfind : (fun x : Added => decide (e.header.wd = watchd x.2)) = watches e.wd := by
      funext x
      rw [Bool.eq_iff_iff, decide_eq_true_eq]
      exact eq_watchd_iff hwd x
    rw [hfind, find?_all_iff hn]
    exact ⟨fun h => ⟨fun hneg => absurd hneg hwd, h⟩, fun h => h.not_shared⟩

/-- All events of a run are given to the right names exactly if none of them is a -1 after a failed
`inotify_add_watch`, and none has a descriptor that stands for both names. -/
theorem attributed_iff (file1 file2 : Option Descriptor) (events : List Event) :
    List.Forall₂ (Attributed (added file1 file2)) events (fileEvent file1 file2 events) ↔
      ∀ e ∈ events, Unambiguous (added file1 file2) e := by
  have hnames : ((added file1 file2).map Prod.fst).Nodup := by
    simp [added]
  simp only [fileEvent, List.forall₂_map_right_iff, List.forall₂_same, attributed_one_iff hnames]

/-- After a failure for `file1` the overflow that events of `file2` cause is printed with the name of `file1`; and of
two names of one inode only the first is printed. -/
theorem not_attributed :
    (fileEvent none (some ⟨1, rfl⟩) [⟨1, 2, 0, []⟩, ⟨-1, 0x4000, 0, []⟩] =
        [[.watchDescriptor 1, .fileName "file2", .event "IN_MODIFY"],
          [.watchDescriptor (-1), .fileName "file1", .event "IN_Q_OVERFLOW"]] ∧
      ¬List.Forall₂ (Attributed (added none (some ⟨1, rfl⟩))) [⟨1, 2, 0, []⟩, ⟨-1, 0x4000, 0, []⟩]
        (fileEvent none (some ⟨1, rfl⟩) [⟨1, 2, 0, []⟩, ⟨-1, 0x4000, 0, []⟩])) ∧
    (fileEvent (some ⟨1, rfl⟩) (some ⟨1, rfl⟩) [⟨1, 2, 0, []⟩] =
        [[.watchDescriptor 1, .fileName "file1", .event "IN_MODIFY"]] ∧
      ¬List.Forall₂ (Attributed (added (some ⟨1, rfl⟩) (some ⟨1, rfl⟩))) [⟨1, 2, 0, []⟩]
        (fileEvent (some ⟨1, rfl⟩) (some ⟨1, rfl⟩) [⟨1, 2, 0, []⟩])) := by
  refine ⟨⟨by decide, fun h => ?_⟩, by decide, fun h => ?_⟩
  · obtain ⟨h, -⟩ := List.forall₂_cons.mp (List.forall₂_cons.mp h).2
    obtain ⟨x, -, hx, -⟩ := (h "file1").mp (by decide)
    rw [watches_neg_one] at hx
    cases hx
  · obtain ⟨h, -⟩ := List.forall₂_cons.mp h
    have hmem := (h "file2").mpr ⟨("file2", some ⟨1, rfl⟩), by simp [added], by decide, rfl⟩
    exact absurd hmem (by decide)

end LinuxApi.FileEvent
