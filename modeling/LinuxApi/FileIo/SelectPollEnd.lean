import LinuxApi.FileIo.SelectPoll

/-! How the loops of `select_sample`, `pselect_sample` and `poll_sample` end. The only way out is the
timeout, and a FIFO without writers keeps every wait from running out: a loop that has not returned before the
last writer closes never does. -/

namespace LinuxApi.SelectPoll

/-- The loop does something. -/
def Event.isMove : Event → Bool
  | .call | .wake => true
  | .write _ | .openWriter | .closeWriter | .elapse _ => false

/-- What can happen when there are no more writers. -/
def Event.quiet : Event → Bool
  | .call | .wake | .elapse _ => true
  | .write _ | .openWriter | .closeWriter => false

/-- Nothing is written any more. -/
def Unwritten (es : List Event) : Prop := ∀ bytes, Event.write bytes ∈ es → bytes = []

/-- There is a bound on the moves of the loop, and when it has none left it has returned and read all
bytes. -/
def Stops {σ : Type} (S : System σ Event) (loop : σ → Loop) (s : σ) : Prop :=
  ∃ n, ∀ es t, (∀ e ∈ es, e.quiet = true) → S.run s es = some t →
    es.countP Event.isMove ≤ n ∧
      (S.step t .call = none → S.step t .wake = none → (loop t).pc = .returned ∧ (loop t).fifo.data = [])

/-- Some wait returns while the FIFO has a writer and no data, and nothing is written after that. -/
def TimesOut (fifo : Fifo) (history : List Event) : Prop :=
  ∃ pre post, history = pre ++ .wake :: post ∧ (after fifo pre).ready = false ∧ Unwritten post

/-! ### The history -/

variable {s t : Loop} {e : Event} {es : List Event} {f g fifo : Fifo} {history : List Event}

theorem mem_seen_singleton : g ∈ seen f [e] ↔ e = .wake ∧ g = f := by
  cases e <;> simp [seen]

theorem mem_seen_iff : g ∈ seen f es ↔ ∃ pre post, es = pre ++ .wake :: post ∧ g = after f pre := by
  induction es generalizing f with
  | nil => simp [seen]
  | cons e es ih =>
    rw [seen_cons, List.mem_append, mem_seen_singleton, ih]
    constructor
    · rintro (⟨rfl, rfl⟩ | ⟨pre, post, rfl, rfl⟩)
      · exact ⟨[], es, rfl, rfl⟩
      · exact ⟨e :: pre, post, rfl, rfl⟩
    · rintro ⟨pre, post, h, rfl⟩
      cases pre with
      | nil =>
        obtain ⟨rfl, -⟩ := List.cons.inj h
        exact .inl ⟨rfl, rfl⟩
      | cons e' pre =>
        obtain ⟨rfl, rfl⟩ := List.cons.inj h
        exact .inr ⟨pre, post, rfl, rfl⟩

theorem Fits.of_append {post : List Event} (h : Fits f (es ++ post)) : Fits f es := by
  intro g hg
  obtain ⟨pre, mid, rfl, rfl⟩ := mem_seen_iff.mp hg
  exact h _ (mem_seen_iff.mpr ⟨pre, mid ++ post, by simp, rfl⟩)

theorem unwritten_cons : Unwritten (e :: es) ↔ (∀ bytes, e = .write bytes → bytes = []) ∧ Unwritten es := by
  simp only [Unwritten, List.mem_cons]
  constructor
  · exact fun h => ⟨fun bytes he => h bytes (.inl he.symm), fun bytes hb => h bytes (.inr hb)⟩
  · rintro ⟨he, hes⟩ bytes (hb | hb)
    · exact he bytes hb.symm
    · exact hes bytes hb

/-! ### The ideal loop -/

/-- Behind its `return` the loop makes no move. -/
theorem returned_step (hs : s.pc = .returned) (h : waitLoop.step s e = some t) :
    e.isMove = false ∧ t.pc = .returned ∧
      (t.fifo.data = [] ↔ s.fifo.data = [] ∧ ∀ bytes, e = .write bytes → bytes = []) := by
  cases e with
  | call => simp [waitLoop, Loop.call, hs] at h
  | wake => simp [waitLoop, Loop.wake, hs] at h
  | write bytes =>
    obtain ⟨fifo, hfifo, rfl⟩ := Option.map_eq_some_iff.mp h
    obtain ⟨-, rfl⟩ := Fifo.write_eq_some.mp hfifo
    simp [hs, Event.isMove]
  | openWriter =>
    obtain rfl := Option.some.inj h
    simp [hs, Fifo.openWriter, Event.isMove]
  | closeWriter =>
    obtain ⟨fifo, hfifo, rfl⟩ := Option.map_eq_some_iff.mp h
    obtain ⟨-, rfl⟩ := Fifo.closeWriter_eq_some.mp hfifo
    simp [hs, Event.isMove]
  | elapse d =>
    obtain rfl := Option.some.inj h
    simp [hs, Event.isMove]

theorem returned_run (hs : s.pc = .returned) (h : waitLoop.run s es = some t) :
    es.countP Event.isMove = 0 ∧ t.pc = .returned ∧
      (t.fifo.data = [] ↔ s.fifo.data = [] ∧ Unwritten es) := by
  induction es generalizing s with
  | nil =>
    obtain rfl := Option.some.inj h
    exact ⟨rfl, hs, by simp [Unwritten]⟩
  | cons e es ih =>
    obtain ⟨u, hu, h⟩ := Option.bind_eq_some_iff.mp h
    obtain ⟨hmove, hpc, hdata⟩ := returned_step hs hu
    obtain ⟨hcount, hpc, hrest⟩ := ih hpc h
    refine ⟨?_, hpc, ?_⟩
    · rw [List.countP_cons_of_neg (by rw [hmove]; exact Bool.false_ne_true), hcount]
    · rw [hrest, hdata, unwritten_cons, and_assoc]

/-- A wait that returns with a writer and without data ends the loop, and what is written after that
stays in the FIFO. -/
theorem returned_of_wake {pre post : List Event} (h : waitLoop.run (start fifo) (pre ++ .wake :: post) = some t)
    (hfits : Fits fifo (pre ++ .wake :: post)) (hready : (after fifo pre).ready = false) :
    t.pc = .returned ∧ (t.fifo.data = [] ↔ Unwritten post) := by
  rw [System.run_append] at h
  obtain ⟨u, hu, h⟩ := Option.bind_eq_some_iff.mp h
  obtain ⟨v, hv, h⟩ := Option.bind_eq_some_iff.mp h
  have hbefore := follows_run (s := start fifo) Pc.noConfusion hu hfits.of_append
  have hfifo : u.fifo = after fifo pre := hbefore.fifo
  have hlt : u.fifo.data.length < bufSize := by
    rw [hfifo]
    exact hfits _ (mem_seen_iff.mpr ⟨pre, post, rfl, rfl⟩)
  have hwake := follows_wake hv hbefore.defined hlt
  have hpc : v.pc = .returned := hwake.returned.mpr (.inr ⟨u.fifo, List.mem_singleton.mpr rfl, hfifo ▸ hready⟩)
  have hdata : v.fifo.data = [] := by
    have hnil : u.fifo.data = [] := by
      rw [hfifo]
      exact not_not.mp (of_decide_eq_false (Bool.or_eq_false_iff.mp hready).1)
    rw [hwake.fifo]
    show u.fifo.data.drop bufSize = []
    rw [hnil, List.drop_nil]
  obtain ⟨-, hreturned, hrest⟩ := returned_run hpc h
  exact ⟨hreturned, hrest.trans (and_iff_right hdata)⟩

/-- A history leaves the loop returned with all bytes read exactly if it fits and times out. -/
theorem returned_iff (h : waitLoop.run (start fifo) history = some t) :
    t.pc = .returned ∧ t.fifo.data = [] ↔ Fits fifo history ∧ TimesOut fifo history := by
  constructor
  · rintro ⟨hpc, hdata⟩
    have hfits : Fits fifo history := by
      by_contra hfits
      have hundefined := undefined_of_not_fits_run (s := start fifo) Pc.noConfusion h hfits
      exact Pc.noConfusion (hpc.symm.trans hundefined)
    refine ⟨hfits, ?_⟩
    have hfollows := follows_run (s := start fifo) Pc.noConfusion h hfits
    rcases hfollows.returned.mp hpc with hhead | ⟨g, hg, hready⟩
    · cases hhead
    · obtain ⟨pre, post, rfl, rfl⟩ := mem_seen_iff.mp hg
      exact ⟨pre, post, rfl, hready, (returned_of_wake h hfits hready).2.mp hdata⟩
  · rintro ⟨hfits, pre, post, rfl, hready, hunwritten⟩
    obtain ⟨hpc, hdata⟩ := returned_of_wake h hfits hready
    exact ⟨hpc, hdata.mpr hunwritten⟩

/-! ### Without writers -/

/-- Without a writer a loop that has not returned can always make a move, and does not return by it. -/
theorem exists_move (hw : s.fifo.writers = 0) (hs : s.pc ≠ .returned) :
    ∃ e t, e.isMove = true ∧ e.quiet = true ∧ waitLoop.step s e = some t ∧ t.fifo.writers = 0 ∧
      t.pc ≠ .returned := by
  have hhup : s.fifo.hungUp = true := decide_eq_true hw
  cases hpc : s.pc with
  | head => exact ⟨.call, s.arm 5000000000, rfl, rfl, by simp [waitLoop, Loop.call, hpc], hw, Pc.noConfusion⟩
  | returned => exact absurd hpc hs
  | undefined => exact ⟨.call, s, rfl, rfl, by simp [waitLoop, Loop.call, hpc], hw, hs⟩
  | wait left =>
    cases hdata : s.fifo.hasData with
    | true =>
      refine ⟨.wake, s.read, rfl, rfl, by simp [waitLoop, Loop.wake, hpc, hdata], ?_, ?_⟩
      · unfold Loop.read
        split_ifs <;> exact hw
      · unfold Loop.read
        split_ifs <;> exact Pc.noConfusion
    | false =>
      exact ⟨.wake, { s with pc := .head }, rfl, rfl, by simp [waitLoop, Loop.wake, hpc, hdata, hhup], hw,
        Pc.noConfusion⟩

theorem exists_moves (hw : s.fifo.writers = 0) (hs : s.pc ≠ .returned) (n : ℕ) :
    ∃ es t, (∀ e ∈ es, e.quiet = true) ∧ waitLoop.run s es = some t ∧ es.countP Event.isMove = n := by
  induction n generalizing s with
  | zero => exact ⟨[], s, nofun, rfl, rfl⟩
  | succ n ih =>
    obtain ⟨e, u, hmove, hquiet, hu, hw, hs⟩ := exists_move hw hs
    obtain ⟨es, t, hall, ht, hcount⟩ := ih hw hs
    refine ⟨e :: es, t, List.forall_mem_cons.mpr ⟨hquiet, hall⟩, ?_, ?_⟩
    · rw [System.run_cons, hu, Option.bind_some, ht]
    · rw [List.countP_cons_of_pos hmove, hcount]

/-- Without a writer a loop stops only if it has returned and read everything. -/
theorem stops_iff_drained (hw : s.fifo.writers = 0) :
    Stops waitLoop id s ↔ s.pc = .returned ∧ s.fifo.data = [] := by
  constructor
  · rintro ⟨n, hn⟩
    by_cases hs : s.pc = .returned
    · obtain ⟨-, hend⟩ := hn [] s nofun rfl
      exact hend (by simp [waitLoop, Loop.call, hs]) (by simp [waitLoop, Loop.wake, hs])
    · obtain ⟨es, t, hquiet, ht, hcount⟩ := exists_moves hw hs (n + 1)
      have hle := (hn es t hquiet ht).1
      omega
  · rintro ⟨hs, hdata⟩
    refine ⟨0, fun es t hquiet h => ?_⟩
    obtain ⟨hcount, hpc, hrest⟩ := returned_run hs h
    refine ⟨Nat.le_of_eq hcount, fun _ _ => ⟨hpc, hrest.mpr ⟨hdata, fun bytes hb => ?_⟩⟩⟩
    cases hquiet _ hb

/-! ### The three loops -/

section Samples

variable {σ : Type} {S : System σ Event} {loop : σ → Loop} {I : σ → Prop} {s t : σ}

/-- It stops with the ideal loop. -/
theorem Shows.stops_iff_visible (hS : Shows S loop I) (hs : I s) :
    Stops S loop s ↔ Stops waitLoop id (loop s).visible := by
  constructor
  · rintro ⟨n, hn⟩
    refine ⟨n, fun es t hquiet h => ?_⟩
    have hrun := hS.run hs es
    obtain ⟨u, hu, rfl⟩ := Option.map_eq_some_iff.mp (hrun.trans h)
    have hkept := System.run_invariant hS.keep hs hu
    obtain ⟨hle, hend⟩ := hn es u hquiet hu
    refine ⟨hle, fun hcall hwake => hend ?_ ?_⟩
    · rwa [← hS.step u .call hkept, Option.map_eq_none_iff] at hcall
    · rwa [← hS.step u .wake hkept, Option.map_eq_none_iff] at hwake
  · rintro ⟨n, hn⟩
    refine ⟨n, fun es t hquiet h => ?_⟩
    have hkept := System.run_invariant hS.keep hs h
    obtain ⟨hle, hend⟩ := hn es (loop t).visible hquiet (by rw [← hS.run hs es, h]; rfl)
    refine ⟨hle, fun hcall hwake => hend ?_ ?_⟩
    · rw [← hS.step t .call hkept, hcall, Option.map_none]
    · rw [← hS.step t .wake hkept, hwake, Option.map_none]

theorem Shows.stops_iff_timesOut (hS : Shows S loop I) (hs : I s) (hstart : loop s = start fifo)
    (h : S.run s history = some t) (hw : (loop t).fifo.writers = 0) :
    Stops S loop t ↔ Fits fifo history ∧ TimesOut fifo history := by
  rw [hS.stops_iff_visible (System.run_invariant hS.keep hs h),
    stops_iff_drained (s := (loop t).visible) hw, returned_iff (hS.run_start hs hstart h)]

end Samples

/-- When the last writer has closed, the loops come to an end only after a wait that ran out before it
did, and they have read everything only if nothing was written after that wait; and no `read` may have
filled `buf`. -/
theorem stops_iff (fifo : Fifo) (tv : Timeval) (revents : Revents) (history : List Event) :
    (∀ s, selectSample.run ⟨start fifo, tv⟩ history = some s → s.loop.fifo.writers = 0 →
      (Stops selectSample Select.loop s ↔ Fits fifo history ∧ TimesOut fifo history)) ∧
    (∀ s, pselectSample.run ⟨start fifo, ⟨5, 0⟩⟩ history = some s → s.loop.fifo.writers = 0 →
      (Stops pselectSample Pselect.loop s ↔ Fits fifo history ∧ TimesOut fifo history)) ∧
    (∀ s, pollSample.run ⟨start fifo, revents⟩ history = some s → s.loop.fifo.writers = 0 →
      (Stops pollSample Poll.loop s ↔ Fits fifo history ∧ TimesOut fifo history)) := by
  refine ⟨fun s hs hw => ?_, fun s hs hw => ?_, fun s hs hw => ?_⟩
  · exact select_shows.stops_iff_timesOut trivial rfl hs hw
  · exact pselect_shows.stops_iff_timesOut rfl rfl hs hw
  · exact poll_shows.stops_iff_timesOut trivial rfl hs hw

/-- A wait of five seconds that runs out before the writer closes ends all three. -/
theorem stops_iff_out : Stops selectSample Select.loop
      ⟨⟨⟨[], 0⟩, .returned, [], [.timeElapsed]⟩, ⟨0, 0⟩⟩ ∧
    Stops pselectSample Pselect.loop ⟨⟨⟨[], 0⟩, .returned, [], [.timeElapsed]⟩, ⟨5, 0⟩⟩ ∧
    Stops pollSample Poll.loop ⟨⟨⟨[], 0⟩, .returned, [], [.timeElapsed]⟩, ⟨false, false⟩⟩ := by
  let history : List Event := [.call, .elapse 5000000000, .wake, .closeWriter]
  obtain ⟨hselect, hpselect, hpoll⟩ := stops_iff ⟨[], 1⟩ ⟨5, 0⟩ ⟨false, false⟩ history
  have hfits : Fits ⟨[], 1⟩ history := by
    intro g hg
    obtain rfl : g = ⟨[], 1⟩ := List.mem_singleton.mp hg
    decide
  have hout : TimesOut ⟨[], 1⟩ history := by
    refine ⟨[.call, .elapse 5000000000], [.closeWriter], rfl, rfl, fun bytes h => ?_⟩
    cases List.mem_singleton.mp h
  exact ⟨(hselect _ rfl rfl).mpr ⟨hfits, hout⟩, (hpselect _ rfl rfl).mpr ⟨hfits, hout⟩,
    (hpoll _ rfl rfl).mpr ⟨hfits, hout⟩⟩

/-- When the writer closes first, none of the three ever ends. -/
theorem not_stops :
    selectSample.run ⟨start ⟨[], 1⟩, ⟨5, 0⟩⟩ [.closeWriter] = some ⟨start ⟨[], 0⟩, ⟨5, 0⟩⟩ ∧
    pselectSample.run ⟨start ⟨[], 1⟩, ⟨5, 0⟩⟩ [.closeWriter] = some ⟨start ⟨[], 0⟩, ⟨5, 0⟩⟩ ∧
    pollSample.run ⟨start ⟨[], 1⟩, ⟨false, false⟩⟩ [.closeWriter] =
      some ⟨start ⟨[], 0⟩, ⟨false, false⟩⟩ ∧
    ¬Stops selectSample Select.loop ⟨start ⟨[], 0⟩, ⟨5, 0⟩⟩ ∧
    ¬Stops pselectSample Pselect.loop ⟨start ⟨[], 0⟩, ⟨5, 0⟩⟩ ∧
    ¬Stops pollSample Poll.loop ⟨start ⟨[], 0⟩, ⟨false, false⟩⟩ := by
  have hideal : ¬Stops waitLoop id (start ⟨[], 0⟩) := fun h => Pc.noConfusion ((stops_iff_drained rfl).mp h).1
  refine ⟨rfl, rfl, rfl, fun h => hideal ?_, fun h => hideal ?_, fun h => hideal ?_⟩
  · exact (select_shows.stops_iff_visible trivial).mp h
  · exact (pselect_shows.stops_iff_visible rfl).mp h
  · exact (poll_shows.stops_iff_visible trivial).mp h

end LinuxApi.SelectPoll
