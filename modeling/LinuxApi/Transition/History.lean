import Mathlib.Data.List.Forall2
import Mathlib.Tactic.Common

/-! Requests and answers in an event history. A request is answered by a given
sequence of events when these occur after it, in this order and possibly with
others between them. A handler that sets a flag and a loop that clears it after
serving are specified with `Followed`; its rules say how an answer grows as events
are appended. A history of several parties falls into one for each. -/

namespace LinuxApi

variable {ε : Type*}

/-- The events of `post` contain, in order, one event for every predicate of `ps`. -/
def Occurs (ps : List (ε → Prop)) (post : List ε) : Prop :=
  ∃ l : List ε, List.Forall₂ (fun p e => p e) ps l ∧ l.Sublist post

/-- Every request in the history is followed by the events `ps`. -/
def Followed (req : ε → Prop) (ps : List (ε → Prop)) (h : List ε) : Prop :=
  ∀ pre e post, h = pre ++ e :: post → req e → Occurs ps post

theorem Occurs.append {ps : List (ε → Prop)} {post : List ε} (h : Occurs ps post) (later : List ε) :
    Occurs ps (post ++ later) := by
  obtain ⟨l, hl, hs⟩ := h
  exact ⟨l, hl, hs.trans (List.sublist_append_left _ _)⟩

theorem Occurs.concat {ps : List (ε → Prop)} {post : List ε} (h : Occurs ps post) {p : ε → Prop}
    {e : ε} (he : p e) : Occurs (ps ++ [p]) (post ++ [e]) := by
  obtain ⟨l, hl, hs⟩ := h
  exact ⟨l ++ [e], List.rel_append hl (.cons he .nil), hs.append (.refl _)⟩

/-- A sequence that occurs begins with an event that occurs. -/
theorem Occurs.exists_mem {p : ε → Prop} {ps : List (ε → Prop)} {post : List ε}
    (h : Occurs (p :: ps) post) : ∃ e ∈ post, p e := by
  obtain ⟨l, hl, hs⟩ := h
  cases hl with
  | cons he _ => exact ⟨_, hs.subset List.mem_cons_self, he⟩

variable {req : ε → Prop} {ps : List (ε → Prop)} {h : List ε}

/-- A history without requests leaves nothing to answer. -/
theorem Followed.of_none (hn : ∀ e ∈ h, ¬ req e) : Followed req ps h := by
  rintro pre e post rfl he
  exact absurd he (hn e (by simp))

theorem Followed.nil : Followed req [] h := fun _ _ _ _ _ => ⟨[], .nil, List.nil_sublist _⟩

/-- The last event of an extended history is its new one. -/
theorem eq_append_concat {pre post : List ε} {e x : ε} (hx : h ++ [x] = pre ++ e :: post) :
    (post = [] ∧ e = x) ∨ ∃ mid, post = mid ++ [x] ∧ h = pre ++ e :: mid := by
  rcases List.eq_nil_or_concat post with rfl | ⟨mid, y, rfl⟩
  · obtain ⟨-, he⟩ := List.append_inj' hx rfl
    exact .inl ⟨rfl, (List.cons.inj he).1.symm⟩
  · rw [List.concat_eq_append] at hx ⊢
    rw [← List.cons_append, ← List.append_assoc] at hx
    obtain ⟨rfl, hy⟩ := List.append_inj' hx rfl
    exact .inr ⟨mid, by rw [(List.cons.inj hy).1], rfl⟩

/-- An event that is no request keeps every answer. -/
theorem Followed.keep (hf : Followed req ps h) {x : ε} (hx : ¬ req x) : Followed req ps (h ++ [x]) := by
  intro pre e post he hreq
  rcases eq_append_concat he with ⟨-, rfl⟩ | ⟨mid, rfl, rfl⟩
  · exact absurd hreq hx
  · exact (hf pre e mid rfl hreq).append [x]

/-- The next event of the answer lengthens the answer of every earlier request. -/
theorem Followed.advance (hf : Followed req ps h) {x : ε} {p : ε → Prop} (hx : ¬ req x) (hp : p x) :
    Followed req (ps ++ [p]) (h ++ [x]) := by
  intro pre e post he hreq
  rcases eq_append_concat he with ⟨-, rfl⟩ | ⟨mid, rfl, rfl⟩
  · exact absurd hreq hx
  · exact (hf pre e mid rfl hreq).concat hp

/-- A request after which the first event of the answer never occurs is unanswered. -/
theorem Followed.not_of_absent {p : ε → Prop} {x : ε} {post : List ε} (hx : req x)
    (hn : ∀ e ∈ post, ¬ p e) : ¬ Followed req (p :: ps) (h ++ x :: post) := by
  intro hf
  obtain ⟨e, he, hp⟩ := (hf h x post rfl hx).exists_mem
  exact hn e he hp

/-- Since some request the event `p` has not occurred. -/
def Unanswered (req p : ε → Prop) (h : List ε) : Prop :=
  ∃ pre x post, h = pre ++ x :: post ∧ req x ∧ ∀ e ∈ post, ¬ p e

theorem Unanswered.of_concat {p : ε → Prop} {x : ε} (hx : req x) : Unanswered req p (h ++ [x]) :=
  ⟨h, x, [], rfl, hx, fun _ he => absurd he List.not_mem_nil⟩

/-- Other events do not answer it. -/
theorem Unanswered.keep {p : ε → Prop} (hu : Unanswered req p h) {e : ε} (he : ¬ p e) :
    Unanswered req p (h ++ [e]) := by
  obtain ⟨pre, x, post, rfl, hx, hn⟩ := hu
  refine ⟨pre, x, post ++ [e], by simp, hx, fun y hy => ?_⟩
  rcases List.mem_append.mp hy with hy | hy
  · exact hn y hy
  · exact List.mem_singleton.mp hy ▸ he

theorem Unanswered.not_followed {p : ε → Prop} (hu : Unanswered req p h) : ¬ Followed req (p :: ps) h := by
  obtain ⟨pre, x, post, rfl, hx, hn⟩ := hu
  exact Followed.not_of_absent hx hn

/-! ### What holds of every event and those before it -/

/-- Every event is allowed by the events before it. -/
def Each (Q : List ε → ε → Prop) (h : List ε) : Prop :=
  ∀ pre e post, h = pre ++ e :: post → Q pre e

theorem Each.nil {Q : List ε → ε → Prop} : Each Q [] := by
  intro pre e post he
  exact absurd he.symm (List.append_ne_nil_of_right_ne_nil pre (List.cons_ne_nil e post))

/-- The new event of an extended history has all others before it. -/
theorem Each.concat {Q : List ε → ε → Prop} (hh : Each Q h) {x : ε} (hx : Q h x) : Each Q (h ++ [x]) := by
  intro pre e post he
  rcases eq_append_concat he with ⟨rfl, rfl⟩ | ⟨mid, -, hmid⟩
  · rw [(List.append_inj' he rfl).1] at hx
    exact hx
  · exact hh pre e mid hmid

/-! ### The history of one party -/

section Party

variable {P : Type*} [DecidableEq P]

/-- The events of one party, in a history that names the party of each. -/
def eventsOf (i : P) (h : List (P × ε)) : List ε :=
  h.filterMap fun e => if e.1 = i then some e.2 else none

theorem eventsOf_append (i : P) (h later : List (P × ε)) :
    eventsOf i (h ++ later) = eventsOf i h ++ eventsOf i later :=
  List.filterMap_append

/-- A party sees its own events and those of no other. -/
theorem eventsOf_map (i j : P) (l : List ε) :
    eventsOf i (l.map fun e => (j, e)) = if j = i then l else [] := by
  induction l with
  | nil => simp [eventsOf]
  | cons e l ih =>
    by_cases hji : j = i <;> simp_all [eventsOf]

/-- A new event is added to those of its own party only. -/
theorem eventsOf_concat (j i : P) (h : List (P × ε)) (e : ε) :
    eventsOf j (h ++ [(i, e)]) = eventsOf j h ++ if i = j then [e] else [] := by
  rw [eventsOf_append]
  exact congrArg (eventsOf j h ++ ·) (eventsOf_map j i [e])

end Party

end LinuxApi
