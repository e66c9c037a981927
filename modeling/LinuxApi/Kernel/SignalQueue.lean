import Mathlib.Data.Int.Order.Basic
import Mathlib.Data.List.Basic
import Mathlib.Tactic.Common

/-! The signals that wait for one process, in the order of their arrival. A standard signal waits at most
once, what comes again is dropped; real-time signals all wait. A standard signal is taken before every
real-time one, and of these the lowest number goes first and within a number the oldest. SIGCONT and the
stop signals discard each other, and SIGSTOP itself never waits. -/

namespace LinuxApi.SignalQueue

variable {α : Type*} (sig : α → ℤ)

/-- The kernel counts the real-time signals from 32 on. -/
def realtime (n : ℤ) : Bool := 32 ≤ n

def sigcont : ℤ := 18

def sigstop : ℤ := 19

/-- SIGSTOP, SIGTSTP, SIGTTIN and SIGTTOU. -/
def stops (n : ℤ) : Bool := 19 ≤ n && n ≤ 22

/-- Sending `n` discards the waiting `m`. -/
def discards (n m : ℤ) : Bool := n == sigcont && stops m || stops n && m == sigcont

/-- The entries with the number `n`, oldest first. -/
def ofSig (n : ℤ) (q : List α) : List α := q.filter fun a => sig a == n

def keep (q : List α) (n : ℤ) : List α := q.filter fun b => !discards n (sig b)

def send (q : List α) (a : α) : List α :=
  if sig a != sigstop && (realtime (sig a) || (ofSig sig (sig a) q).isEmpty) then keep sig q (sig a) ++ [a]
  else keep sig q (sig a)

/-- The first entry with the number `n`, if none goes before it. -/
def take (q : List α) (n : ℤ) : Option (α × List α) :=
  if realtime n → ∀ b ∈ q, n ≤ sig b then
    (q.find? fun a => sig a == n).map fun a => (a, q.eraseP fun a => sig a == n)
  else none

variable {sig} {q r : List α} {a : α} {n m : ℤ}

theorem ofSig_append (n : ℤ) (q r : List α) : ofSig sig n (q ++ r) = ofSig sig n q ++ ofSig sig n r :=
  List.filter_append q r

theorem ofSig_singleton (n : ℤ) (a : α) : ofSig sig n [a] = if sig a = n then [a] else [] := by
  simp [ofSig, List.filter_cons]

/-- What is not discarded stays. -/
theorem ofSig_keep (h : discards m n = false) : ofSig sig n (keep sig q m) = ofSig sig n q := by
  unfold ofSig keep
  rw [List.filter_filter]
  apply List.filter_congr
  intro b _
  by_cases hb : sig b = n
  · simp [hb, h]
  · simp [hb]

theorem keep_sublist (q : List α) (m : ℤ) : (keep sig q m).Sublist q := List.filter_sublist

theorem ofSig_sublist (sig : α → ℤ) {p : List α} (h : p.Sublist q) (n : ℤ) :
    (ofSig sig n p).Sublist (ofSig sig n q) :=
  h.filter _

/-- Real-time signals are never discarded and discard nothing. -/
theorem discards_realtime (h : realtime m = true) : discards n m = false := by
  unfold realtime at h
  unfold discards sigcont stops
  have hm := of_decide_eq_true h
  have h18 : (m == 18) = false := beq_eq_false_iff_ne.mpr (by omega)
  have h22 : decide (m ≤ 22) = false := decide_eq_false (by omega)
  simp [h18, h22]

/-- Whatever is sent, nothing but it is added, at the end. -/
theorem send_sublist (sig : α → ℤ) (q : List α) (a : α) : (send sig q a).Sublist (q ++ [a]) := by
  unfold send
  split_ifs
  · exact (keep_sublist q _).append (.refl _)
  · exact (keep_sublist q _).trans (List.sublist_append_left _ _)

/-- SIGSTOP only discards. -/
theorem length_send_sigstop (sig : α → ℤ) (q : List α) {a : α} (h : sig a = sigstop) :
    (send sig q a).length ≤ q.length := by
  have hsend : send sig q a = keep sig q (sig a) := by simp [send, h]
  rw [hsend]
  exact (keep_sublist q _).length_le

/-- A real-time signal joins the others with its number. -/
theorem ofSig_send_realtime (h : realtime n = true) (q : List α) (a : α) :
    ofSig sig n (send sig q a) = ofSig sig n q ++ ofSig sig n [a] := by
  unfold send
  have hkeep : ofSig sig n (keep sig q (sig a)) = ofSig sig n q := ofSig_keep (discards_realtime h)
  split_ifs with hsend
  · rw [ofSig_append, hkeep]
  · rw [hkeep, ofSig_singleton, if_neg, List.append_nil]
    rintro rfl
    apply hsend
    have hstop : (sig a != sigstop) = true := by
      unfold realtime at h
      have hn := of_decide_eq_true h
      exact bne_iff_ne.mpr (by unfold sigstop; omega)
    rw [hstop, h, Bool.true_and, Bool.true_or]

/-- Another signal that is not discarded is untouched. -/
theorem ofSig_send_of_ne (hn : sig a ≠ n) (h : discards (sig a) n = false) :
    ofSig sig n (send sig q a) = ofSig sig n q := by
  unfold send
  split_ifs
  · rw [ofSig_append, ofSig_keep h, ofSig_singleton, if_neg hn, List.append_nil]
  · exact ofSig_keep h

/-- A signal that has been sent waits, unless it is SIGSTOP. -/
theorem ofSig_send_self (h : discards (sig a) (sig a) = false) (hstop : sig a ≠ sigstop) :
    ofSig sig (sig a) (send sig q a) ≠ [] := by
  unfold send
  rw [bne_iff_ne.mpr hstop, Bool.true_and]
  split_ifs with hfirst
  · rw [ofSig_append, ofSig_singleton, if_pos rfl]
    exact List.append_ne_nil_of_right_ne_nil _ (List.cons_ne_nil a [])
  · rw [ofSig_keep h]
    rw [Bool.or_eq_true, not_or, List.isEmpty_iff] at hfirst
    exact hfirst.2

/-- What is taken is the oldest of its number, nothing else changes, and before a real-time signal nothing
waits that is lower. -/
theorem take_eq_some (h : take sig q n = some (a, r)) :
    sig a = n ∧ ofSig sig n q = a :: ofSig sig n r ∧ (∀ m, m ≠ n → ofSig sig m r = ofSig sig m q) ∧
      (realtime n = true → ∀ m < n, ofSig sig m q = []) := by
  obtain ⟨hfirst, h⟩ := Option.ite_none_right_eq_some.mp h
  obtain ⟨b, hb, he⟩ := Option.map_eq_some_iff.mp h
  obtain ⟨rfl, rfl⟩ := Prod.mk.inj he
  obtain ⟨hsig, before, after, rfl, hbefore⟩ := List.find?_eq_some_iff_append.mp hb
  have hsig : sig b = n := beq_iff_eq.mp hsig
  have hne : ∀ c ∈ before, sig c ≠ n := fun c hc => by simpa using hbefore c hc
  have herase : (before ++ b :: after).eraseP (fun a => sig a == n) = before ++ after := by
    rw [List.eraseP_append_right _ (fun c hc => by simpa using hne c hc), List.eraseP_cons_of_pos]
    exact beq_iff_eq.mpr hsig
  have hnone : ofSig sig n before = [] := by
    apply List.filter_eq_nil_iff.mpr
    intro c hc
    simpa using hne c hc
  rw [herase]
  refine ⟨hsig, ?_, fun m hm => ?_, fun hr m hm => ?_⟩
  · rw [ofSig_append, ofSig_append, hnone, List.nil_append, List.nil_append, ofSig, List.filter_cons,
      if_pos (beq_iff_eq.mpr hsig)]
    rfl
  · rw [ofSig_append, ofSig_append, ← List.singleton_append, ofSig_append, ofSig_singleton,
      if_neg (hsig ▸ hm.symm), List.nil_append]
  · apply List.filter_eq_nil_iff.mpr
    intro c hc heq
    have hle := hfirst hr c hc
    have hc := beq_iff_eq.mp heq
    omega

/-- One entry is taken out. -/
theorem length_take (h : take sig q n = some (a, r)) : q.length = r.length + 1 := by
  obtain ⟨-, h⟩ := Option.ite_none_right_eq_some.mp h
  obtain ⟨b, hb, he⟩ := Option.map_eq_some_iff.mp h
  obtain ⟨-, rfl⟩ := Prod.mk.inj he
  have hlength := List.length_eraseP_add_one (List.mem_of_find?_eq_some hb) (List.find?_some hb)
  omega

/-- Where something waits something can be taken. -/
theorem exists_take (sig : α → ℤ) (h : q ≠ []) : ∃ n, (take sig q n).isSome := by
  obtain ⟨a, ha, hleast⟩ : ∃ a ∈ q, ∀ b ∈ q, sig a ≤ sig b := by
    induction q with
    | nil => exact absurd rfl h
    | cons a q ih =>
      by_cases hq : q = []
      · subst hq
        exact ⟨a, List.mem_cons_self, fun b hb => by rw [List.mem_singleton.mp hb]⟩
      · obtain ⟨c, hc, hleast⟩ := ih hq
        by_cases hac : sig a ≤ sig c
        · refine ⟨a, List.mem_cons_self, fun b hb => ?_⟩
          rcases List.mem_cons.mp hb with rfl | hb
          · exact le_rfl
          · exact le_trans hac (hleast b hb)
        · refine ⟨c, List.mem_cons_of_mem a hc, fun b hb => ?_⟩
          rcases List.mem_cons.mp hb with rfl | hb
          · omega
          · exact hleast b hb
  refine ⟨sig a, ?_⟩
  rw [take, if_pos fun _ => hleast, Option.isSome_map, List.find?_isSome]
  exact ⟨a, ha, beq_self_eq_true _⟩

end LinuxApi.SignalQueue
