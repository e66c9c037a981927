import Mathlib.Data.List.Basic
import Mathlib.Data.Int.Init

/-! The functions that end what they have received with a zero, at the index that the call returned.
All of them give the call the whole array, so a full array leaves no room for the zero. The runs of a
loop are the lists of what the calls of its rounds returned. -/

namespace LinuxApi.Terminator

/-- `EINTR` -/
def eintr : ℕ := 4

/-- What a call returned that had room for `size` bytes, with `errno` as the next test sees it. -/
inductive Returned (size : ℕ) where
  | count (n : ℕ) (h : n ≤ size)
  | error (errno : ℕ)
  deriving DecidableEq

def Returned.value {size : ℕ} : Returned size → ℤ
  | count n _ => n
  | error _ => -1

/-- A round stores a zero at an index, stores none and goes on, or ends the loop. -/
inductive Round where
  | store (index : ℤ)
  | skip
  | stop
  deriving DecidableEq

/-- The indices at which a loop stores a zero. -/
def stores {ρ : Type*} (body : ρ → Round) : List ρ → List ℤ
  | [] => []
  | r :: rs =>
    match body r with
    | .store i => i :: stores body rs
    | .skip => stores body rs
    | .stop => []

/-- All indices are in an array of the size. -/
def InBounds (size : ℕ) (indices : List ℤ) : Prop := ∀ i ∈ indices, 0 ≤ i ∧ i < size

instance decidableInBounds (size : ℕ) (indices : List ℤ) : Decidable (InBounds size indices) :=
  inferInstanceAs (Decidable (∀ i ∈ indices, 0 ≤ i ∧ i < size))

/-! ### The functions -/

/-- `BUF_SIZE` of `socket_echo.h`, `socket_inet_domain.h` and `socket_unix_domain.h` -/
def socketBufSize : ℕ := 100

/-- `BUF_SIZE` of `fileio.h` -/
def fileioBufSize : ℕ := 1000

/-- `BUF_SIZE` of `timer_sync_expire.c` -/
def timerBufSize : ℕ := 4096

/-- The child of `socket_echo_client`. -/
def socketEchoClient (numread : Returned socketBufSize) : Round :=
  if numread.value ≤ 0 then .stop else .store numread.value

/-- The calls of `read`, `sendto` and `recvfrom`. -/
structure DatagramRound where
  read : Returned socketBufSize
  sendto : ℤ
  recvfrom : Returned socketBufSize
  deriving DecidableEq

def datagramClient (r : DatagramRound) : Round :=
  if r.read.value = -1 then .stop
  else if r.sendto ≠ r.read.value then .stop
  else if r.recvfrom.value = -1 then .stop
  else .store r.recvfrom.value

def socketInetDomainDatagramClient : DatagramRound → Round := datagramClient

def socketUnixDomainDatagramClient : DatagramRound → Round := datagramClient

/-- What the waiting call returned, whether it reports the FIFO, and what `read` returns then. -/
structure WatchRound where
  ready : ℤ
  isSet : Bool
  read : Returned fileioBufSize
  deriving DecidableEq

def watch (r : WatchRound) : Round :=
  if r.ready = -1 then .stop
  else if r.ready = 0 then .stop
  else if r.isSet then
    if r.read.value = -1 then .stop
    else if r.read.value ≠ 0 then .store r.read.value
    else .skip
  else .skip

def selectSample : WatchRound → Round := watch

def pselectSample : WatchRound → Round := watch

def pollSample : WatchRound → Round := watch

/-- One event of `epoll_sample`. -/
def epollEvent (numread : Returned fileioBufSize) : Round :=
  if numread.value = -1 then .stop else .store numread.value

/-- `epoll_sample` reads once for each of the `numevent` events. -/
def epollSample (numevent : ℤ) (rs : List (Returned fileioBufSize)) : List ℤ :=
  if numevent = -1 then [] else stores epollEvent (rs.take numevent.toNat)

/-- The loop under `case 'r'` and the store behind it, from `len` and the index of `idx`. A `read` of
more than `len` bytes is not possible. -/
def fileioReadWrite (len idx : ℕ) : List (Returned fileioBufSize) → Option (List ℤ)
  | [] => some (if len = 0 then [(idx : ℤ)] else [])
  | r :: rs =>
    if len = 0 then some [(idx : ℤ)]
    else
      match r with
      | .count n _ =>
        if n = 0 then some [(idx : ℤ)]
        else if n ≤ len then fileioReadWrite (len - n) (idx + n) rs
        else none
      | .error errno => if errno = eintr then fileioReadWrite len idx rs else some []

/-- `timer_sync_expire` ends itself only if its timer has interrupted the `read`. -/
def timerSyncExpire (cnt : Returned timerBufSize) : List ℤ :=
  if cnt.value = -1 ∧ cnt = .error eintr then [] else [cnt.value]

/-! ### The rounds of a loop -/

variable {ρ : Type*} {size : ℕ}

theorem Returned.value_le (r : Returned size) : r.value ≤ size := by
  cases r with
  | count n h => simpa [value] using h
  | error errno => simp only [value]; omega

theorem Returned.neg_one_le (r : Returned size) : -1 ≤ r.value := by
  cases r <;> simp only [value] <;> omega

/-- A count that is not an error is an index exactly if it is not the whole size. -/
theorem Returned.index_iff {r : Returned size} (h : r.value ≠ -1) :
    0 ≤ r.value ∧ r.value < size ↔ r.value ≠ size := by
  have hle := r.value_le
  have hge := r.neg_one_le
  omega

theorem inBounds_nil (size : ℕ) : InBounds size [] := by
  intro i hi
  cases hi

theorem inBounds_cons {i : ℤ} {is : List ℤ} :
    InBounds size (i :: is) ↔ (0 ≤ i ∧ i < size) ∧ InBounds size is :=
  List.forall_mem_cons

/-- A loop is in bounds exactly if no round that it reaches stores outside. -/
theorem inBounds_stores_iff {body : ρ → Round} {ok : ρ → Bool} (full : ρ → Prop)
    (hstop : ∀ r, ok r = false → body r = .stop)
    (hround : ∀ r, ok r = true → body r = .skip ∧ ¬full r ∨
      ∃ i, body r = .store i ∧ (0 ≤ i ∧ i < size ↔ ¬full r)) (rs : List ρ) :
    InBounds size (stores body rs) ↔ ∀ r ∈ rs.takeWhile ok, ¬full r := by
  induction rs with
  | nil => simp [stores, inBounds_nil]
  | cons r rs ih =>
    cases hok : ok r with
    | false => simp [stores, hstop r hok, hok, inBounds_nil]
    | true =>
      rw [List.takeWhile_cons_of_pos hok, List.forall_mem_cons, stores]
      rcases hround r hok with ⟨hskip, hfull⟩ | ⟨i, hstore, hi⟩
      · simp only [hskip, ih, hfull, not_false_eq_true, true_and]
      · simp only [hstore, inBounds_cons, ih, hi]

theorem socketEchoClient_iff (rs : List (Returned socketBufSize)) :
    InBounds socketBufSize (stores socketEchoClient rs) ↔
      ∀ r ∈ rs.takeWhile (0 < ·.value), r.value ≠ socketBufSize := by
  refine inBounds_stores_iff (fun r => r.value = (socketBufSize : ℤ)) ?_ ?_ rs
  · intro r hr
    simp only [decide_eq_false_iff_not] at hr
    rw [socketEchoClient, if_pos (by omega)]
  · intro r hr
    simp only [decide_eq_true_eq] at hr
    exact .inr ⟨_, by rw [socketEchoClient, if_neg (by omega)], Returned.index_iff (by omega)⟩

/-- Each of the three calls has succeeded. -/
def DatagramRound.ok (r : DatagramRound) : Bool :=
  r.read.value ≠ -1 ∧ r.sendto = r.read.value ∧ r.recvfrom.value ≠ -1

theorem datagramClient_iff (rs : List DatagramRound) :
    InBounds socketBufSize (stores datagramClient rs) ↔
      ∀ r ∈ rs.takeWhile (·.ok), r.recvfrom.value ≠ socketBufSize := by
  refine inBounds_stores_iff (fun r => r.recvfrom.value = (socketBufSize : ℤ)) ?_ ?_ rs
  · intro r hr
    simp only [DatagramRound.ok, decide_eq_false_iff_not] at hr
    unfold datagramClient
    split_ifs <;> first | rfl | (exfalso; tauto)
  · intro r hr
    simp only [DatagramRound.ok, decide_eq_true_eq] at hr
    obtain ⟨hread, hsend, hrecv⟩ := hr
    refine .inr ⟨_, ?_, Returned.index_iff hrecv⟩
    rw [datagramClient, if_neg hread, if_neg (not_not.mpr hsend), if_neg hrecv]

/-- There was no timeout, and no call has failed. -/
def WatchRound.ok (r : WatchRound) : Bool :=
  r.ready ≠ -1 ∧ r.ready ≠ 0 ∧ (r.isSet = true → r.read.value ≠ -1)

theorem watch_iff (rs : List WatchRound) :
    InBounds fileioBufSize (stores watch rs) ↔
      ∀ r ∈ rs.takeWhile (·.ok), ¬(r.isSet = true ∧ r.read.value = fileioBufSize) := by
  refine inBounds_stores_iff _ ?_ ?_ rs
  · intro r hr
    simp only [WatchRound.ok, decide_eq_false_iff_not] at hr
    unfold watch
    split_ifs <;> first | rfl | (exfalso; tauto)
  · intro r hr
    simp only [WatchRound.ok, decide_eq_true_eq] at hr
    obtain ⟨herror, htimeout, hread⟩ := hr
    unfold watch
    rw [if_neg herror, if_neg htimeout]
    by_cases hset : r.isSet = true
    · rw [if_pos hset, if_neg (hread hset)]
      split_ifs with h0
      · exact .inr ⟨_, rfl, (Returned.index_iff (hread hset)).trans (by simp [hset])⟩
      · refine .inl ⟨rfl, fun hfull => ?_⟩
        exact absurd (hfull.2.symm.trans (not_not.mp h0)) (by decide)
    · rw [if_neg hset]
      exact .inl ⟨rfl, fun hfull => hset hfull.1⟩

theorem epollSample_iff (numevent : ℤ) (rs : List (Returned fileioBufSize)) :
    InBounds fileioBufSize (epollSample numevent rs) ↔
      numevent = -1 ∨
        ∀ r ∈ (rs.take numevent.toNat).takeWhile (·.value ≠ -1), r.value ≠ fileioBufSize := by
  unfold epollSample
  split_ifs with h
  · exact iff_of_true (inBounds_nil _) (.inl h)
  · rw [or_iff_right h]
    refine inBounds_stores_iff (fun r : Returned fileioBufSize => r.value = fileioBufSize) ?_ ?_ _
    · intro r hr
      simp only [ne_eq, decide_eq_false_iff_not, not_not] at hr
      rw [epollEvent, if_pos hr]
    · intro r hr
      simp only [ne_eq, decide_eq_true_eq] at hr
      exact .inr ⟨_, by rw [epollEvent, if_neg hr], Returned.index_iff hr⟩

/-! ### The loop that fills the array -/

/-- The loop goes on after the result. -/
def Returned.goesOn {size : ℕ} : Returned size → Bool
  | count n _ => n ≠ 0
  | error errno => errno = eintr

/-- How many bytes a `read` has delivered. -/
def Returned.bytes {size : ℕ} : Returned size → ℕ
  | count n _ => n
  | error _ => 0

/-- How many bytes arrive before the end of the file or an error. -/
def delivered : List (Returned size) → ℕ
  | [] => 0
  | r :: rs => if r.goesOn then r.bytes + delivered rs else 0

theorem delivered_cons_of_not {r : Returned size} (h : r.goesOn = false) (rs : List (Returned size)) :
    delivered (r :: rs) = 0 := by
  simp [delivered, h]

theorem delivered_cons_of {r : Returned size} (h : r.goesOn = true) (rs : List (Returned size)) :
    delivered (r :: rs) = r.bytes + delivered rs := by
  simp [delivered, h]

theorem inBounds_singleton {idx : ℕ} : InBounds size [(idx : ℤ)] ↔ idx < size := by
  simp [InBounds]

/-- From any `len` and `idx` the store is below their sum exactly if fewer than `len` bytes come. -/
theorem fileioReadWrite_iff {len idx : ℕ} {rs : List (Returned fileioBufSize)} {l : List ℤ}
    (h : fileioReadWrite len idx rs = some l) : InBounds (idx + len) l ↔ delivered rs < len := by
  induction rs generalizing len idx with
  | nil =>
    obtain rfl := Option.some.inj h
    by_cases hlen : len = 0
    · simp [hlen, inBounds_singleton]
    · simp [hlen, inBounds_nil, delivered]
      omega
  | cons r rs ih =>
    unfold fileioReadWrite at h
    by_cases hlen : len = 0
    · rw [if_pos hlen, Option.some.injEq] at h
      subst h hlen
      simp [inBounds_singleton]
    · rw [if_neg hlen] at h
      cases r with
      | count n hn =>
        simp only at h
        split_ifs at h with h0 hle
        · obtain rfl := Option.some.inj h
          rw [inBounds_singleton, delivered_cons_of_not (by simp [Returned.goesOn, h0])]
          omega
        · have hsum : idx + n + (len - n) = idx + len := by omega
          rw [← hsum, ih h, delivered_cons_of (by simp [Returned.goesOn, h0]), Returned.bytes]
          omega
      | error errno =>
        simp only at h
        split_ifs at h with he
        · rw [ih h, delivered_cons_of (by simp [Returned.goesOn, he]), Returned.bytes, Nat.zero_add]
        · obtain rfl := Option.some.inj h
          rw [delivered_cons_of_not (by simp [Returned.goesOn, he])]
          exact iff_of_true (inBounds_nil _) (by omega)

theorem timerSyncExpire_iff (cnt : Returned timerBufSize) :
    InBounds timerBufSize (timerSyncExpire cnt) ↔
      cnt.value ≠ timerBufSize ∧ (cnt.value = -1 → cnt = .error eintr) := by
  unfold timerSyncExpire
  split_ifs with h
  · exact iff_of_true (inBounds_nil _) ⟨by rw [h.1]; decide, fun _ => h.2⟩
  · rw [inBounds_cons, and_iff_left (inBounds_nil _)]
    by_cases hneg : cnt.value = -1
    · refine iff_of_false (by omega) fun hc => h ⟨hneg, hc.2 hneg⟩
    · rw [Returned.index_iff hneg]
      exact (and_iff_left fun he => absurd he hneg).symm

/-- The stores are inside exactly if no call that is reached fills the whole array, and the interrupted
`read` is the only one of `timer_sync_expire` that fails. -/
theorem terminators_inBounds_iff (echo : List (Returned socketBufSize))
    (inet unix : List DatagramRound) (select pselect poll : List WatchRound) (numevent : ℤ)
    (epoll file : List (Returned fileioBufSize)) {l : List ℤ} (cnt : Returned timerBufSize)
    (h : fileioReadWrite fileioBufSize 0 file = some l) :
    (InBounds socketBufSize (stores socketEchoClient echo) ↔
      ∀ r ∈ echo.takeWhile (0 < ·.value), r.value ≠ socketBufSize) ∧
    (InBounds socketBufSize (stores socketInetDomainDatagramClient inet) ↔
      ∀ r ∈ inet.takeWhile (·.ok), r.recvfrom.value ≠ socketBufSize) ∧
    (InBounds socketBufSize (stores socketUnixDomainDatagramClient unix) ↔
      ∀ r ∈ unix.takeWhile (·.ok), r.recvfrom.value ≠ socketBufSize) ∧
    (InBounds fileioBufSize (stores selectSample select) ↔
      ∀ r ∈ select.takeWhile (·.ok), ¬(r.isSet = true ∧ r.read.value = fileioBufSize)) ∧
    (InBounds fileioBufSize (stores pselectSample pselect) ↔
      ∀ r ∈ pselect.takeWhile (·.ok), ¬(r.isSet = true ∧ r.read.value = fileioBufSize)) ∧
    (InBounds fileioBufSize (stores pollSample poll) ↔
      ∀ r ∈ poll.takeWhile (·.ok), ¬(r.isSet = true ∧ r.read.value = fileioBufSize)) ∧
    (InBounds fileioBufSize (epollSample numevent epoll) ↔ numevent = -1 ∨
      ∀ r ∈ (epoll.take numevent.toNat).takeWhile (·.value ≠ -1), r.value ≠ fileioBufSize) ∧
    (InBounds fileioBufSize l ↔ delivered file < fileioBufSize) ∧
    (InBounds timerBufSize (timerSyncExpire cnt) ↔
      cnt.value ≠ timerBufSize ∧ (cnt.value = -1 → cnt = .error eintr)) := by
  have hfile : InBounds fileioBufSize l ↔ delivered file < fileioBufSize := by
    rw [← fileioReadWrite_iff h, Nat.zero_add]
  exact ⟨socketEchoClient_iff echo, datagramClient_iff inet, datagramClient_iff unix, watch_iff select,
    watch_iff pselect, watch_iff poll, epollSample_iff numevent epoll, hfile, timerSyncExpire_iff cnt⟩

/-- A file of five bytes, read in two pieces with an interrupted `read` between them. -/
theorem terminators_inBounds_iff_five : ∃ file : List (Returned fileioBufSize), ∃ l,
    fileioReadWrite fileioBufSize 0 file = some l ∧ l = [5] ∧
      (InBounds fileioBufSize l ↔ delivered file < fileioBufSize) := by
  let file : List (Returned fileioBufSize) :=
    [.count 3 (by decide), .error eintr, .count 2 (by decide), .count 0 (by decide)]
  have h : fileioReadWrite fileioBufSize 0 file = some [5] := by decide
  have hall := terminators_inBounds_iff [] [] [] [] [] [] (-1) [] file (.error eintr) h
  exact ⟨file, [5], h, rfl, hall.2.2.2.2.2.2.2.1⟩

/-- In every one of the functions a full array puts the zero behind its end, and in
`timer_sync_expire` another error (`EIO`, 5) puts it before its start. -/
theorem not_inBounds_full :
    ¬InBounds socketBufSize (stores socketEchoClient [.count 100 (by decide)]) ∧
    ¬InBounds socketBufSize
      (stores socketInetDomainDatagramClient [⟨.count 1 (by decide), 1, .count 100 (by decide)⟩]) ∧
    ¬InBounds socketBufSize
      (stores socketUnixDomainDatagramClient [⟨.count 1 (by decide), 1, .count 100 (by decide)⟩]) ∧
    ¬InBounds fileioBufSize (stores selectSample [⟨1, true, .count 1000 (by decide)⟩]) ∧
    ¬InBounds fileioBufSize (stores pselectSample [⟨1, true, .count 1000 (by decide)⟩]) ∧
    ¬InBounds fileioBufSize (stores pollSample [⟨1, true, .count 1000 (by decide)⟩]) ∧
    ¬InBounds fileioBufSize (epollSample 1 [.count 1000 (by decide)]) ∧
    (∃ l, fileioReadWrite fileioBufSize 0 [.count 1000 (by decide)] = some l ∧
      ¬InBounds fileioBufSize l) ∧
    ¬InBounds timerBufSize (timerSyncExpire (.count 4096 (by decide))) ∧
    ¬InBounds timerBufSize (timerSyncExpire (.error 5)) := by
  refine ⟨by decide, by decide, by decide, by decide, by decide, by decide, by decide, ⟨_, rfl, ?_⟩,
    by decide, by decide⟩
  decide

end LinuxApi.Terminator
