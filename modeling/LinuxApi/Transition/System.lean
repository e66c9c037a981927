import Mathlib.Data.List.Basic

/-! Systems of interleaved steps. A system has initial states and, for every
action, a partial step; an action names the party that moves together with every
choice the environment makes for it, so a step is a function and a run is a list
of actions. Reachability, the invariant rule, runs whose steps all meet a
condition, and systems that record an event history are developed here for any
state and action types. -/

namespace LinuxApi

/-- Initial states and a partial step; `none` means the action is not enabled. -/
structure System (σ α : Type*) where
  init : σ → Prop
  step : σ → α → Option σ

namespace System

variable {σ α ε : Type*} (S : System σ α)

/-- The states of all finite runs from an initial state. -/
inductive Reachable : σ → Prop
  | init {s : σ} (h : S.init s) : Reachable s
  | step {s t : σ} {a : α} (h : Reachable s) (ht : S.step s a = some t) : Reachable t

variable {S}

/-- What holds initially and is kept by every step holds of every reachable state. -/
theorem Reachable.invariant {I : σ → Prop} (hinit : ∀ s, S.init s → I s)
    (hstep : ∀ s a t, I s → S.step s a = some t → I t) {s : σ} (h : S.Reachable s) : I s := by
  induction h with
  | init h => exact hinit _ h
  | step _ ht ih => exact hstep _ _ _ ih ht

/-! ### Runs -/

variable (S) in
/-- Take the steps of a list of actions in order. -/
def run : σ → List α → Option σ
  | s, [] => some s
  | s, a :: as => (S.step s a).bind fun t => run t as

@[simp] theorem run_nil (s : σ) : S.run s [] = some s := rfl

@[simp] theorem run_cons (s : σ) (a : α) (as : List α) :
    S.run s (a :: as) = (S.step s a).bind fun t => S.run t as := rfl

theorem run_append (s : σ) (as bs : List α) :
    S.run s (as ++ bs) = (S.run s as).bind fun t => S.run t bs := by
  induction as generalizing s with
  | nil => rfl
  | cons a as ih => simp only [List.cons_append, run_cons, Option.bind_assoc, ih]

/-- What every step keeps, a run keeps. -/
theorem run_invariant {I : σ → Prop} (hstep : ∀ s a t, I s → S.step s a = some t → I t) {s t : σ}
    {as : List α} (hs : I s) (h : S.run s as = some t) : I t := by
  induction as generalizing s with
  | nil => rw [run_nil, Option.some.injEq] at h; exact h ▸ hs
  | cons a as ih =>
    obtain ⟨u, hu, h⟩ := Option.bind_eq_some_iff.mp h
    exact ih (hstep s a u hs hu) h

/-- What every step with such an action keeps, a run of such actions keeps. -/
theorem run_invariant_of_forall {I : σ → Prop} {C : α → Prop}
    (hstep : ∀ s a t, C a → I s → S.step s a = some t → I t) {s t : σ} {as : List α}
    (hall : ∀ a ∈ as, C a) (hs : I s) (h : S.run s as = some t) : I t := by
  induction as generalizing s with
  | nil => rw [run_nil, Option.some.injEq] at h; exact h ▸ hs
  | cons a as ih =>
    obtain ⟨u, hu, h⟩ := Option.bind_eq_some_iff.mp h
    have hu : I u := hstep s a u (hall a List.mem_cons_self) hs hu
    exact ih (fun b hb => hall b (List.mem_cons_of_mem a hb)) hu h

/-- A run from a reachable state ends in a reachable state. -/
theorem Reachable.run {s t : σ} {as : List α} (h : S.Reachable s) (ht : S.run s as = some t) :
    S.Reachable t :=
  run_invariant (fun _ _ _ hs hst => hs.step hst) h ht

/-- A run from an initial state is a certificate of reachability. -/
theorem reachable_of_run {s t : σ} (hs : S.init s) (as : List α) (ht : S.run s as = some t) :
    S.Reachable t :=
  (Reachable.init hs).run ht

/-- And every reachable state has one. -/
theorem Reachable.exists_run {t : σ} (h : S.Reachable t) :
    ∃ s as, S.init s ∧ S.run s as = some t := by
  induction h with
  | init hs => exact ⟨_, [], hs, rfl⟩
  | @step u t a _ ht ih =>
    obtain ⟨s, as, hs, hu⟩ := ih
    refine ⟨s, as ++ [a], hs, ?_⟩
    rw [run_append, hu, Option.bind_some, run_cons, ht, Option.bind_some, run_nil]

/-- The same with the last state computed. -/
theorem reachable_of_isSome {s : σ} (hs : S.init s) (as : List α) (h : (S.run s as).isSome) :
    S.Reachable ((S.run s as).get h) :=
  reachable_of_run hs as (Option.some_get h).symm

/-- Two systems whose steps agree under a map agree on whole runs; what the first one keeps, `I`,
may be used. -/
theorem run_map {τ : Type*} {T : System τ α} (f : σ → τ) {I : σ → Prop}
    (hkeep : ∀ s a t, I s → S.step s a = some t → I t)
    (hstep : ∀ s a, I s → (S.step s a).map f = T.step (f s) a) {s : σ} (hs : I s) (as : List α) :
    (S.run s as).map f = T.run (f s) as := by
  induction as generalizing s with
  | nil => rfl
  | cons a as ih =>
    rw [run_cons, run_cons, ← hstep s a hs]
    cases ht : S.step s a with
    | none => rfl
    | some t => exact ih (hkeep s a t hs ht)

/-! ### Runs that end -/

variable (S) in
/-- No action is enabled. -/
def Stuck (s : σ) : Prop := ∀ a, S.step s a = none

/-- Where every step lowers a measure, a run takes no more steps than the measure allows. -/
theorem length_add_le_of_run {I : σ → Prop} {μ : σ → ℕ}
    (hkeep : ∀ s a t, I s → S.step s a = some t → I t)
    (hlower : ∀ s a t, I s → S.step s a = some t → μ t < μ s) {s t : σ} (hs : I s) {as : List α}
    (h : S.run s as = some t) : as.length + μ t ≤ μ s := by
  induction as generalizing s with
  | nil =>
    cases h
    exact Nat.le_of_eq (Nat.zero_add _)
  | cons a as ih =>
    obtain ⟨u, hu, h⟩ := Option.bind_eq_some_iff.mp h
    have hrest := ih (hkeep s a u hs hu) h
    have hfirst := hlower s a u hs hu
    rw [List.length_cons]
    omega

/-- There every state has a run to one where nothing is enabled. -/
theorem exists_run_stuck {I : σ → Prop} {μ : σ → ℕ}
    (hkeep : ∀ s a t, I s → S.step s a = some t → I t)
    (hlower : ∀ s a t, I s → S.step s a = some t → μ t < μ s) {s : σ} (hs : I s) :
    ∃ as t, S.run s as = some t ∧ S.Stuck t := by
  induction hn : μ s using Nat.strongRecOn generalizing s with
  | _ n ih =>
    by_cases hstuck : S.Stuck s
    · exact ⟨[], s, rfl, hstuck⟩
    · obtain ⟨a, ha⟩ := not_forall.mp hstuck
      obtain ⟨u, hu⟩ := Option.ne_none_iff_exists'.mp ha
      obtain ⟨as, t, h, ht⟩ := ih (μ u) (hn ▸ hlower s a u hs hu) (hkeep s a u hs hu) rfl
      exact ⟨a :: as, t, by rw [run_cons, hu, Option.bind_some, h], ht⟩

/-! ### Runs under a condition -/

variable (S) in
/-- The same system, taking only the steps that meet a condition on the state
before the step and the action. -/
def under (C : σ → α → Bool) : System σ α where
  init := S.init
  step s a := if C s a then S.step s a else none

theorem under_step_eq_some {C : σ → α → Bool} {s t : σ} {a : α} :
    (S.under C).step s a = some t ↔ C s a = true ∧ S.step s a = some t := by
  simp [under]

/-- A run under a condition is a run. -/
theorem run_of_under {C : σ → α → Bool} {s t : σ} {as : List α} (h : (S.under C).run s as = some t) :
    S.run s as = some t := by
  induction as generalizing s with
  | nil => exact h
  | cons a as ih =>
    obtain ⟨u, hu, h⟩ := Option.bind_eq_some_iff.mp h
    rw [run_cons, (under_step_eq_some.mp hu).2]
    exact ih h

/-! ### Conditions on the steps and properties of the states -/

variable (S) in
/-- Every step of a run meets a condition on the state before it and its action. -/
def Along (C : σ → α → Bool) : σ → List α → Prop
  | _, [] => True
  | s, a :: as => C s a = true ∧ ∀ t ∈ S.step s a, Along C t as

variable (S) in
/-- Every state of a run has a property. -/
def Throughout (P : σ → Prop) : σ → List α → Prop
  | s, [] => P s
  | s, a :: as => P s ∧ ∀ t ∈ S.step s a, Throughout P t as

instance decidableAlong (C : σ → α → Bool) : ∀ s as, Decidable (S.Along C s as)
  | _, [] => inferInstanceAs (Decidable True)
  | s, a :: as =>
    have : DecidablePred fun t => S.Along C t as := fun t => decidableAlong C t as
    inferInstanceAs (Decidable (C s a = true ∧ ∀ t ∈ S.step s a, S.Along C t as))

theorem Throughout.head {P : σ → Prop} {s : σ} {as : List α} (h : S.Throughout P s as) : P s := by
  cases as with
  | nil => exact h
  | cons a as => exact h.1

/-- A condition that decides at every step whether the property is kept decides it for whole
runs. What the steps are known to keep, `I`, may use that the property has held so far. -/
theorem throughout_iff_along {I P : σ → Prop} {C : σ → α → Bool} (hI : ∀ s, I s → P s)
    (hstep : ∀ s a t, I s → S.step s a = some t → (P t ↔ C s a = true) ∧ (P t → I t))
    {s t : σ} {as : List α} (hs : I s) (h : S.run s as = some t) :
    S.Throughout P s as ↔ S.Along C s as := by
  induction as generalizing s with
  | nil => exact iff_of_true (hI s hs) trivial
  | cons a as ih =>
    obtain ⟨u, hu, h⟩ := Option.bind_eq_some_iff.mp h
    obtain ⟨hdecide, hkeep⟩ := hstep s a u hs hu
    constructor
    · rintro ⟨-, hall⟩
      have hP := (hall u hu).head
      refine ⟨hdecide.mp hP, fun v hv => ?_⟩
      obtain rfl : u = v := Option.some.inj (hu.symm.trans hv)
      exact (ih (hkeep hP) h).mp (hall u hu)
    · rintro ⟨hC, hall⟩
      have hP := hdecide.mpr hC
      refine ⟨hI s hs, fun v hv => ?_⟩
      obtain rfl : u = v := Option.some.inj (hu.symm.trans hv)
      exact (ih (hkeep hP) h).mpr (hall u hu)

/-! ### Event histories -/

variable (S) in
/-- The system together with the events its steps have emitted so far, oldest first. -/
def recorded (emit : σ → α → List ε) : System (σ × List ε) α where
  init s := S.init s.1 ∧ s.2 = []
  step s a := (S.step s.1 a).map fun t => (t, s.2 ++ emit s.1 a)

theorem recorded_step_eq_some {emit : σ → α → List ε} {s t : σ × List ε} {a : α} :
    (S.recorded emit).step s a = some t ↔
      S.step s.1 a = some t.1 ∧ t.2 = s.2 ++ emit s.1 a := by
  obtain ⟨t, h⟩ := t
  simp only [recorded, Option.map_eq_some_iff, Prod.mk.injEq]
  constructor
  · rintro ⟨u, hu, rfl, rfl⟩; exact ⟨hu, rfl⟩
  · rintro ⟨hu, rfl⟩; exact ⟨t, hu, rfl, rfl⟩

end System

end LinuxApi
