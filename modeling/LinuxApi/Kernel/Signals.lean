import Mathlib.Data.Finset.Basic
import Mathlib.Data.Finset.Lattice.Basic

/-! The signals of one process: the blocked set, the pending set, where equal signals merge, and
the handlers that run, innermost first. A handler runs with its signal blocked on top of the mask
it interrupts, and its return restores what its frame saved. A program point of the handler is any
type. -/

namespace LinuxApi

/-- A running handler: its signal, where it is, and the mask restored at its return. -/
structure Frame (π : Type*) where
  sig : ℕ
  pc : π
  saved : Finset ℕ

structure Signals (π : Type*) where
  mask : Finset ℕ
  pending : Finset ℕ
  frames : List (Frame π)

namespace Signals

variable {π : Type*}

/-- `sigprocmask(SIG_BLOCK, ...)` -/
def block (s : Signals π) (set : Finset ℕ) : Signals π := { s with mask := s.mask ∪ set }

/-- `sigprocmask(SIG_SETMASK, ...)`, and the exchange of masks in `sigsuspend`. -/
def setMask (s : Signals π) (set : Finset ℕ) : Signals π := { s with mask := set }

def send (s : Signals π) (sig : ℕ) : Signals π := { s with pending := insert sig s.pending }

/-- What is ignored does not wait. -/
def drop (s : Signals π) (sig : ℕ) : Signals π := { s with pending := s.pending.erase sig }

/-- A pending signal that is not blocked starts its handler at `start`. The outermost handler
restores `resume`, which inside `sigsuspend` is not the mask it interrupts. -/
def deliver (s : Signals π) (start : π) (resume : Finset ℕ) (sig : ℕ) : Option (Signals π) :=
  if sig ∈ s.pending ∧ sig ∉ s.mask then
    some ⟨insert sig s.mask, s.pending.erase sig,
      ⟨sig, start, if s.frames.isEmpty then resume else s.mask⟩ :: s.frames⟩
  else none

/-- The innermost handler goes on. -/
def setPc (s : Signals π) (pc : π) : Signals π :=
  { s with frames := s.frames.modifyHead fun f => { f with pc } }

/-- The innermost handler returns. -/
def leave (s : Signals π) : Signals π :=
  match s.frames with
  | [] => s
  | f :: frames => ⟨f.saved, s.pending, frames⟩

theorem setPc_eq {s : Signals π} {f : Frame π} {frames : List (Frame π)}
    (h : s.frames = f :: frames) (pc : π) :
    s.setPc pc = ⟨s.mask, s.pending, { f with pc } :: frames⟩ := by
  rw [setPc, h]
  rfl

theorem leave_eq {s : Signals π} {f : Frame π} {frames : List (Frame π)}
    (h : s.frames = f :: frames) : s.leave = ⟨f.saved, s.pending, frames⟩ := by
  rw [leave, h]

/-- The masks of nested handlers, when the process is interrupted at the mask `outer` and the
outermost handler restores `resume`. -/
inductive Nested (outer resume : Finset ℕ) : List (Frame π) → Finset ℕ → Prop
  | quiet : Nested outer resume [] outer
  | outermost {f : Frame π} (h : f.saved = resume) : Nested outer resume [f] (insert f.sig outer)
  | inner {f g : Frame π} {frames : List (Frame π)} (h : Nested outer resume (g :: frames) f.saved) :
    Nested outer resume (f :: g :: frames) (insert f.sig f.saved)

variable {s t : Signals π} {outer resume : Finset ℕ}

/-- A delivered signal was pending and not blocked, and is now handled first. -/
theorem deliver_spec {start : π} {r : Finset ℕ} {sig : ℕ} (h : s.deliver start r sig = some t) :
    sig ∈ s.pending ∧ sig ∉ s.mask ∧ t.pending = s.pending.erase sig ∧
      ∃ saved, t.frames = ⟨sig, start, saved⟩ :: s.frames := by
  obtain ⟨⟨hpending, hmask⟩, h⟩ := Option.ite_none_right_eq_some.mp h
  cases h
  exact ⟨hpending, hmask, rfl, _, rfl⟩

theorem Nested.mask_eq (h : Nested outer resume s.frames s.mask) (hf : s.frames = []) :
    s.mask = outer := by
  rw [hf] at h
  generalize s.mask = mask at h
  cases h
  rfl

theorem Nested.deliver {start : π} {r : Finset ℕ} {sig : ℕ}
    (h : Nested outer resume s.frames s.mask) (hr : s.frames = [] → r = resume)
    (hd : s.deliver start r sig = some t) : Nested outer resume t.frames t.mask := by
  obtain ⟨-, hd⟩ := Option.ite_none_right_eq_some.mp hd
  cases hd
  cases hf : s.frames with
  | nil =>
    rw [h.mask_eq hf]
    exact .outermost (hr hf)
  | cons g frames =>
    rw [hf] at h
    exact .inner h

theorem Nested.setPc (h : Nested outer resume s.frames s.mask) (pc : π) :
    Nested outer resume (s.setPc pc).frames (s.setPc pc).mask := by
  show Nested outer resume (s.frames.modifyHead _) s.mask
  generalize s.frames = frames at h
  generalize s.mask = mask at h
  cases h with
  | quiet => exact .quiet
  | @outermost f h => exact .outermost (f := { f with pc }) h
  | @inner f g frames h => exact .inner (f := { f with pc }) h

/-- The return of the outermost handler. -/
theorem Nested.leave_outermost {f : Frame π} (h : Nested outer resume s.frames s.mask)
    (hf : s.frames = [f]) : s.mask = insert f.sig outer ∧ s.leave = ⟨resume, s.pending, []⟩ := by
  rw [hf] at h
  rw [leave, hf]
  generalize s.mask = mask at h
  cases h with
  | outermost h =>
    subst h
    exact ⟨rfl, rfl⟩

/-- The return of any other handler, or of the outermost one outside `sigsuspend`. -/
theorem Nested.leave (h : Nested outer resume s.frames s.mask)
    (hr : s.frames.length = 1 → resume = outer) :
    Nested outer resume s.leave.frames s.leave.mask := by
  cases hf : s.frames with
  | nil =>
    rw [Signals.leave, hf]
    exact h
  | cons f frames =>
    cases frames with
    | nil =>
      rw [(h.leave_outermost hf).2, hr (by rw [hf]; rfl)]
      exact .quiet
    | cons g frames =>
      rw [hf] at h
      rw [Signals.leave, hf]
      generalize s.mask = mask at h
      cases h with
      | inner h => exact h

/-- The signals of the handlers that run are blocked. -/
theorem Nested.sig_mem {frames : List (Frame π)} {mask : Finset ℕ} (h : Nested outer resume frames mask)
    {f : Frame π} (hf : f ∈ frames) : f.sig ∈ mask := by
  induction h with
  | quiet => exact absurd hf List.not_mem_nil
  | outermost h =>
    rw [List.mem_singleton.mp hf]
    exact Finset.mem_insert_self _ _
  | inner h ih =>
    rcases List.mem_cons.mp hf with rfl | hf
    · exact Finset.mem_insert_self _ _
    · exact Finset.mem_insert_of_mem (ih hf)

/-- Besides these nothing is blocked that is not blocked outside. -/
theorem Nested.mem_outer {frames : List (Frame π)} {mask : Finset ℕ} (h : Nested outer resume frames mask) {sig : ℕ}
    (hsig : sig ∈ mask) (hf : ∀ f ∈ frames, f.sig ≠ sig) : sig ∈ outer := by
  induction h with
  | quiet => exact hsig
  | @outermost f h =>
    rcases Finset.mem_insert.mp hsig with heq | hsig
    · exact absurd heq.symm (hf f List.mem_cons_self)
    · exact hsig
  | @inner f g frames h ih =>
    rcases Finset.mem_insert.mp hsig with heq | hsig
    · exact absurd heq.symm (hf f List.mem_cons_self)
    · exact ih hsig fun g hg => hf g (List.mem_cons_of_mem f hg)

/-- Outside `sigsuspend` a handler blocks what is blocked where it interrupts. -/
theorem Nested.outer_subset {frames : List (Frame π)} {mask : Finset ℕ} (h : Nested outer outer frames mask) :
    outer ⊆ mask := by
  induction h with
  | quiet => exact Finset.Subset.refl _
  | outermost h => exact Finset.subset_insert _ _
  | inner h ih => exact ih.trans (Finset.subset_insert _ _)

/-! ### The handler of one signal -/

/-- Where the handler of a signal is, if it runs. -/
def handling (s : Signals π) (sig : ℕ) : Option π := (s.frames.find? fun f => f.sig == sig).map Frame.pc

theorem handling_eq_none (h : s.frames = []) (sig : ℕ) : s.handling sig = none := by
  rw [handling, h]
  rfl

theorem sig_ne_of_handling_eq_none {sig : ℕ} (h : s.handling sig = none) : ∀ f ∈ s.frames, f.sig ≠ sig := by
  rw [handling, Option.map_eq_none_iff, List.find?_eq_none] at h
  exact fun f hf hsig => h f hf (beq_iff_eq.mpr hsig)

theorem handling_head {f : Frame π} {frames : List (Frame π)} (h : s.frames = f :: frames) :
    s.handling f.sig = some f.pc := by
  simp [handling, h]

theorem mem_of_handling {sig : ℕ} {pc : π} (h : s.handling sig = some pc) : ∃ f ∈ s.frames, f.sig = sig := by
  obtain ⟨f, hf, -⟩ := Option.map_eq_some_iff.mp h
  have hsig := List.find?_some hf
  exact ⟨f, List.mem_of_find?_eq_some hf, eq_of_beq hsig⟩

theorem handling_cons {f : Frame π} {frames : List (Frame π)} (h : t.frames = f :: frames) (sig : ℕ) :
    t.handling sig = if f.sig = sig then some f.pc else (frames.find? fun f => f.sig == sig).map Frame.pc := by
  unfold handling
  rw [h, List.find?_cons]
  by_cases hsig : f.sig = sig
  · simp [hsig]
  · rw [if_neg hsig, beq_eq_false_iff_ne.mpr hsig]

theorem handling_deliver {start : π} {r : Finset ℕ} {n : ℕ} (h : s.deliver start r n = some t) (sig : ℕ) :
    t.handling sig = if n = sig then some start else s.handling sig := by
  obtain ⟨-, -, -, saved, hframes⟩ := deliver_spec h
  exact handling_cons hframes sig

theorem handling_setPc {f : Frame π} {frames : List (Frame π)} (h : s.frames = f :: frames) (pc : π) (sig : ℕ) :
    (s.setPc pc).handling sig = if f.sig = sig then some pc else s.handling sig := by
  rw [setPc_eq h, handling_cons rfl, handling_cons h]
  split_ifs <;> rfl

/-- No signal has two handlers that run. -/
def Single (s : Signals π) : Prop := (s.frames.map Frame.sig).Nodup

theorem handling_leave {f : Frame π} {frames : List (Frame π)} (h : s.frames = f :: frames) (hs : s.Single)
    (sig : ℕ) : s.leave.handling sig = if f.sig = sig then none else s.handling sig := by
  rw [leave_eq h]
  split_ifs with hsig
  · subst hsig
    unfold Single at hs
    rw [h, List.map_cons, List.nodup_cons] at hs
    unfold handling
    rw [Option.map_eq_none_iff, List.find?_eq_none]
    intro g hg hsig
    exact hs.1 (List.mem_map.mpr ⟨g, hg, eq_of_beq hsig⟩)
  · rw [handling_cons h, if_neg hsig]
    rfl

theorem Single.deliver {start : π} {r : Finset ℕ} {sig : ℕ} (hs : s.Single)
    (h : Nested outer resume s.frames s.mask) (hd : s.deliver start r sig = some t) : t.Single := by
  obtain ⟨-, hmask, -, saved, hframes⟩ := deliver_spec hd
  unfold Single
  rw [hframes, List.map_cons, List.nodup_cons]
  refine ⟨fun hsig => ?_, hs⟩
  obtain ⟨g, hg, hgs⟩ := List.mem_map.mp hsig
  have hgs : g.sig = sig := hgs
  rw [← hgs] at hmask
  exact hmask (h.sig_mem hg)

theorem Single.setPc (hs : s.Single) (pc : π) : (s.setPc pc).Single := by
  unfold Single at hs ⊢
  cases hf : s.frames with
  | nil =>
    rw [Signals.setPc, hf]
    exact List.nodup_nil
  | cons f frames =>
    rw [setPc_eq hf]
    rw [hf] at hs
    exact hs

theorem Single.leave (hs : s.Single) : s.leave.Single := by
  unfold Single at hs ⊢
  cases hf : s.frames with
  | nil =>
    simp only [Signals.leave, hf]
    exact List.nodup_nil
  | cons f frames =>
    rw [leave_eq hf]
    rw [hf, List.map_cons, List.nodup_cons] at hs
    exact hs.2

end Signals

end LinuxApi
