import Mathlib.Data.List.Basic

/-! User ids of a process under `setresuid`. An argument `(uid_t) -1` leaves its id
unchanged; a caller whose effective id is not 0 may set each id only to one of its
three current ids. What a process can ever regain is decided by these three ids
alone: an id can be regained exactly when it, or the id 0, is among them. -/

namespace LinuxApi

/-- `(uid_t) -1` -/
def unchanged : UInt32 := 0xFFFFFFFF

/-- A user id; `(uid_t) -1` is none. -/
structure Uid where
  val : UInt32
  valid : val ≠ unchanged
  deriving DecidableEq

/-- The superuser. -/
def Uid.root : Uid := ⟨0, by decide⟩

/-- An argument of `setresuid`, read against the id it would replace. -/
def Uid.requested (old : Uid) (arg : UInt32) : Uid :=
  if h : arg = unchanged then old else ⟨arg, h⟩

@[simp] theorem Uid.requested_unchanged (old : Uid) : old.requested unchanged = old := by
  simp [requested]

@[simp] theorem Uid.requested_val (old u : Uid) : old.requested u.val = u := by
  simp [requested, u.valid]

/-- The real, effective and saved user id. -/
structure Creds where
  real : Uid
  effective : Uid
  saved : Uid
  deriving DecidableEq

namespace Creds

def ids (c : Creds) : List Uid := [c.real, c.effective, c.saved]

/-- `setresuid(ruid, euid, suid)`; `none` is the failure with `EPERM`. -/
def setresuid (c : Creds) (ruid euid suid : UInt32) : Option Creds :=
  let new : Creds := ⟨c.real.requested ruid, c.effective.requested euid, c.saved.requested suid⟩
  if c.effective = .root ∨ new.ids ⊆ c.ids then some new else none

/-- The arguments of one call. -/
abbrev Call := UInt32 × UInt32 × UInt32

/-- A sequence of calls; a failing one changes nothing. -/
def calls (c : Creds) (l : List Call) : Creds :=
  l.foldl (fun c a => (c.setresuid a.1 a.2.1 a.2.2).getD c) c

@[simp] theorem calls_cons (c : Creds) (a : Call) (l : List Call) :
    c.calls (a :: l) = ((c.setresuid a.1 a.2.1 a.2.2).getD c).calls l := rfl

/-- No sequence of calls ever makes the effective id equal to `e`. -/
def Dropped (e : Uid) (c : Creds) : Prop := ∀ l : List Call, (c.calls l).effective ≠ e

/-- Without the effective id 0 a call brings in no new id. -/
theorem setresuid_ids_subset {c d : Creds} {ruid euid suid : UInt32}
    (h : c.setresuid ruid euid suid = some d) (hc : c.effective ≠ .root) : d.ids ⊆ c.ids := by
  simp only [setresuid, Option.ite_none_right_eq_some, Option.some.injEq] at h
  obtain ⟨hor, rfl⟩ := h
  exact hor.resolve_left hc

/-- A process without the id 0 never gets an id it does not have. -/
theorem calls_ids_subset {c : Creds} (l : List Call) (hc : .root ∉ c.ids) :
    (c.calls l).ids ⊆ c.ids := by
  induction l generalizing c with
  | nil => exact List.Subset.refl _
  | cons a l ih =>
    rw [calls_cons]
    cases h : c.setresuid a.1 a.2.1 a.2.2 with
    | none => exact ih hc
    | some d =>
      have hd : d.ids ⊆ c.ids := setresuid_ids_subset h fun he => hc (by simp [ids, he])
      exact List.Subset.trans (ih fun hr => hc (hd hr)) hd

/-- Any id a process has, or any id at all as effective 0, can be made effective. -/
theorem setresuid_effective {c : Creds} {e : Uid} (h : c.effective = .root ∨ e ∈ c.ids) :
    c.setresuid unchanged e.val unchanged = some { c with effective := e } := by
  simp only [setresuid, Uid.requested_unchanged, Uid.requested_val]
  rw [if_pos]
  refine h.imp_right fun h => ?_
  simp only [ids, List.cons_subset, List.mem_cons, true_or, or_true, List.nil_subset, and_true,
    true_and] at h ⊢
  exact h

/-- Privilege `e` is gone for good exactly when neither it nor 0 is among the ids. -/
theorem dropped_iff {c : Creds} {e : Uid} : Dropped e c ↔ e ∉ c.ids ∧ .root ∉ c.ids := by
  constructor
  · intro hd
    constructor
    · intro he
      apply hd [(unchanged, e.val, unchanged)]
      rw [calls_cons, setresuid_effective (.inr he)]
      rfl
    · intro hr
      apply hd [(unchanged, Uid.root.val, unchanged), (unchanged, e.val, unchanged)]
      rw [calls_cons, setresuid_effective (.inr hr), calls_cons, Option.getD_some,
        setresuid_effective (.inl rfl)]
      rfl
  · rintro ⟨he, hr⟩ l rfl
    exact he (calls_ids_subset l hr (by simp [ids]))

end Creds

end LinuxApi
