import LinuxApi.Kernel.Descriptors
import Mathlib.Data.Int.Init

/-! `connector` of `socket_echo_client` and the same loop in `socket_inet_domain_stream_client_v2`. A
round of the loop makes a socket for one address and tries to connect it; a round that fails leaves
the table as it was, but its descriptor in the variable. -/

namespace LinuxApi.Connector

/-- `BUF_SIZE` -/
def bufSize : ℕ := 100

/-- An open file. `stream` is a stream socket with the address it is connected to. -/
inductive File (κ α : Type*) where
  | stream (peer : Option α)
  | other (file : κ)
  deriving DecidableEq

/-- An address with what `socket` and `connect` do for it, if there is a free descriptor. -/
structure Attempt (α : Type*) where
  addr : α
  opens : Bool
  accepts : Bool
  deriving DecidableEq

variable {κ α : Type*}

abbrev Table (κ α : Type*) := Descriptors (File κ α)

/-- The descriptor is -1 if there is none. -/
def socket (limit : ℕ) (t : Table κ α) (opens : Bool) : ℤ × Table κ α :=
  match t.openFile limit (.stream none) with
  | some (fd, u) => if opens then (fd, u) else (-1, t)
  | none => (-1, t)

def connect (t : Table κ α) (fd : ℤ) (a : Attempt α) : ℤ × Table κ α :=
  if a.accepts then (0, Function.update t fd.toNat (some (.stream (some a.addr)))) else (-1, t)

/-- The loop over the addresses, from a value of the variable. -/
def search (limit : ℕ) (t : Table κ α) (fd : ℤ) : List (Attempt α) → ℤ × Table κ α
  | [] => (fd, t)
  | a :: rest =>
    let (fd, u) := socket limit t a.opens
    if fd = -1 then search limit u fd rest
    else
      let (r, u) := connect u fd a
      if r ≠ -1 then (fd, u) else search limit (u.close fd.toNat) fd rest

/-- Behind `getaddrinfo`, which returned the list `result`. -/
def connector (limit : ℕ) (t : Table κ α) (result : List (Attempt α)) : ℤ × Table κ α :=
  search limit t (-1) result

/-- What `read` returned of standard input, and what `write` returns for it if the descriptor is
open. -/
structure Round where
  chunk : List UInt8
  written : ℤ
  chunk_ne_nil : chunk ≠ []
  length_le : chunk.length ≤ bufSize
  deriving DecidableEq

def isOpen (t : Table κ α) (fd : ℤ) : Bool := 0 ≤ fd && (t fd.toNat).isSome

def write (t : Table κ α) (fd : ℤ) (r : Round) : ℤ := if isOpen t fd then r.written else -1

/-- The second loop: its calls of `write`, and whether the last one ended in `fatal`. -/
def copyLoop (t : Table κ α) (fd : ℤ) : List Round → List (ℤ × List UInt8) × Bool
  | [] => ([], false)
  | r :: rest =>
    if write t fd r ≠ r.chunk.length then ([(fd, r.chunk)], true)
    else ((fd, r.chunk) :: (copyLoop t fd rest).1, (copyLoop t fd rest).2)

/-- `table` is the one the second loop works on, `last` that at the end. -/
structure Outcome (κ α : Type*) where
  table : Table κ α
  calls : List (ℤ × List UInt8)
  fatal : Bool
  last : Table κ α

/-- `socket_inet_domain_stream_client_v2` with what was in `socket_fd`. The `close` belongs to the
`if` above it, so it is called only when the last `read` has failed. -/
def streamClientV2 (limit : ℕ) (t : Table κ α) (socketFd : ℤ) (result : List (Attempt α))
    (rounds : List Round) (readFailed : Bool) : Outcome κ α :=
  let (fd, u) := search limit t socketFd result
  let (calls, fatal) := copyLoop u fd rounds
  ⟨u, calls, fatal, if !fatal && readFailed && isOpen u fd then u.close fd.toNat else u⟩

/-- `socket` succeeds for the address. -/
def opened (limit : ℕ) (t : Table κ α) (a : Attempt α) : Bool :=
  a.opens && (t.lowest limit).isSome

/-- The address can be connected. -/
def connects (limit : ℕ) (t : Table κ α) (a : Attempt α) : Bool := opened limit t a && a.accepts

/-- `fd` is new, open and connected to the first address that accepts, and no other descriptor has
changed. -/
def Connected (limit : ℕ) (t : Table κ α) (result : List (Attempt α)) (fd : ℤ) (u : Table κ α) : Prop :=
  ∃ a, result.find? (connects limit t) = some a ∧ ∃ n : ℕ, fd = n ∧ t n = none ∧
    u = Function.update t n (some (.stream (some a.addr)))

/-- -1 if no address can be connected, with all as before, and else a connected descriptor. -/
def Usable (limit : ℕ) (t : Table κ α) (result : List (Attempt α)) (r : ℤ × Table κ α) : Prop :=
  (r.1 = -1 ↔ ∀ a ∈ result, connects limit t a = false) ∧ (r.1 = -1 → r.2 = t) ∧
    (r.1 ≠ -1 → Connected limit t result r.1 r.2)

variable {limit : ℕ} {t : Table κ α} {result : List (Attempt α)} {a : Attempt α}

/-! ### One round -/

theorem socket_of_not_opened (h : opened limit t a = false) :
    socket limit t a.opens = (-1, t) := by
  rw [opened, Bool.and_eq_false_iff] at h
  unfold socket
  cases hopen : t.openFile limit (.stream none) with
  | none => rfl
  | some p =>
    have hlow : t.lowest limit = some p.1 := (Descriptors.openFile_eq_some.mp hopen).1
    have hno : a.opens = false := by
      rcases h with h | h
      · exact h
      · rw [hlow] at h
        cases h
    simp [hno]

theorem socket_of_opened (h : opened limit t a = true) :
    ∃ n : ℕ, t n = none ∧ socket limit t a.opens = ((n : ℤ), Function.update t n (some (.stream none))) := by
  rw [opened, Bool.and_eq_true] at h
  obtain ⟨n, hn⟩ := Option.isSome_iff_exists.mp h.2
  have hopen : t.openFile limit (.stream none) = some (n, _) :=
    Descriptors.openFile_eq_some.mpr ⟨hn, rfl⟩
  refine ⟨n, (Descriptors.lowest_eq_some.mp hn).2.1, ?_⟩
  simp only [socket, hopen, h.1, if_true]

/-- What a round that fails leaves in the variable. -/
theorem socket_eq_neg_one_iff : (socket limit t a.opens).1 = -1 ↔ opened limit t a = false := by
  cases h : opened limit t a with
  | false => rw [socket_of_not_opened h]; simp
  | true =>
    obtain ⟨n, -, hn⟩ := socket_of_opened h
    rw [hn]
    simp only [Bool.true_eq_false, iff_false]
    omega

/-- A round that fails closes what it has opened. -/
theorem search_cons_of_not (fd : ℤ) (rest : List (Attempt α)) (h : connects limit t a = false) :
    search limit t fd (a :: rest) = search limit t (socket limit t a.opens).1 rest := by
  cases ho : opened limit t a with
  | false => simp [search, socket_of_not_opened ho]
  | true =>
    obtain ⟨n, hfree, hn⟩ := socket_of_opened ho
    have hne : (n : ℤ) ≠ -1 := by omega
    have hno : a.accepts = false := by simpa [connects, ho] using h
    simp only [search, hn, hne, if_false, connect, hno, Bool.false_eq_true, ne_eq, not_true,
      Int.toNat_natCast, Descriptors.close_update_of_free hfree]

theorem search_cons_of_connects (fd : ℤ) (rest : List (Attempt α)) (h : connects limit t a = true) :
    ∃ n : ℕ, t n = none ∧ search limit t fd (a :: rest) =
      ((n : ℤ), Function.update t n (some (.stream (some a.addr)))) := by
  rw [connects, Bool.and_eq_true] at h
  obtain ⟨n, hfree, hn⟩ := socket_of_opened h.1
  have hne : (n : ℤ) ≠ -1 := by omega
  refine ⟨n, hfree, ?_⟩
  simp only [search, hn, hne, if_false, connect, h.2, if_true, ne_eq, Int.toNat_natCast,
    Function.update_idem]
  rfl

/-! ### The loop -/

/-- If an address can be connected, the loop ends with a descriptor connected to the first one. -/
theorem search_of_some (fd : ℤ) (h : result.find? (connects limit t) = some a) :
    Connected limit t result (search limit t fd result).1 (search limit t fd result).2 := by
  suffices hs : ∃ n : ℕ, t n = none ∧ search limit t fd result =
      ((n : ℤ), Function.update t n (some (.stream (some a.addr)))) by
    obtain ⟨n, hfree, hn⟩ := hs
    rw [hn]
    exact ⟨a, h, n, rfl, hfree, rfl⟩
  induction result generalizing fd with
  | nil => cases h
  | cons b rest ih =>
    cases hb : connects limit t b with
    | true =>
      rw [List.find?_cons_of_pos hb, Option.some.injEq] at h
      exact h ▸ search_cons_of_connects fd rest hb
    | false =>
      rw [search_cons_of_not fd rest hb]
      rw [List.find?_cons_of_neg (by simp [hb])] at h
      exact ih _ h

/-- If none can, it ends with the table as before and what the last round has left. -/
theorem search_of_none (fd : ℤ) (h : result.find? (connects limit t) = none) :
    search limit t fd result =
      (result.getLast?.elim fd fun a => (socket limit t a.opens).1, t) := by
  induction result generalizing fd with
  | nil => rfl
  | cons b rest ih =>
    have hb : connects limit t b = false := by simpa using List.find?_eq_none.mp h b List.mem_cons_self
    rw [List.find?_cons_of_neg (by simp [hb])] at h
    rw [search_cons_of_not fd rest hb, ih _ h, List.getLast?_cons]
    cases rest.getLast? <;> rfl

theorem find?_eq_none_iff :
    result.find? (connects limit t) = none ↔ ∀ a ∈ result, connects limit t a = false := by
  simp [List.find?_eq_none]

theorem Connected.ne_neg_one {fd : ℤ} {u : Table κ α} (h : Connected limit t result fd u) : fd ≠ -1 := by
  obtain ⟨a, -, n, rfl, -⟩ := h
  omega

/-- `connector`'s result is usable exactly if an address can be connected, or there is none, or
`socket` fails for the last one. -/
theorem usable_connector_iff :
    Usable limit t result (connector limit t result) ↔
      (∃ a ∈ result, connects limit t a = true) ∨ ∀ a ∈ result.getLast?, opened limit t a = false := by
  cases hfind : result.find? (connects limit t) with
  | some a =>
    have hc : Connected limit t result (connector limit t result).1 (connector limit t result).2 :=
      search_of_some (-1) hfind
    have ha : ∃ a ∈ result, connects limit t a = true :=
      ⟨a, List.mem_of_find?_eq_some hfind, List.find?_some hfind⟩
    refine iff_of_true ⟨⟨fun h => absurd h hc.ne_neg_one, fun h => ?_⟩, ?_, fun _ => hc⟩ (.inl ha)
    · obtain ⟨b, hb, hconn⟩ := ha
      exact absurd (h b hb) (by simp [hconn])
    · exact fun h => absurd h hc.ne_neg_one
  | none =>
    have hnone := find?_eq_none_iff.mp hfind
    have hsearch : connector limit t result = _ := search_of_none (-1) hfind
    have hneg : (connector limit t result).1 = -1 ↔
        ∀ a ∈ result.getLast?, opened limit t a = false := by
      rw [hsearch]
      cases result.getLast? with
      | none => simp
      | some a => simp [socket_eq_neg_one_iff]
    have hex : ¬∃ a ∈ result, connects limit t a = true := by
      rintro ⟨a, ha, hconn⟩
      exact absurd (hnone a ha) (by simp [hconn])
    rw [or_iff_right hex, ← hneg]
    constructor
    · exact fun h => h.1.mpr hnone
    · intro h
      exact ⟨iff_of_true h hnone, fun _ => by rw [hsearch], fun hne => absurd h hne⟩

/-! ### What is done with the descriptor -/

/-- All calls of `write` are on one descriptor, and there is one if anything was read. -/
theorem copyLoop_calls (t : Table κ α) (fd : ℤ) (rounds : List Round) :
    (∀ call ∈ (copyLoop t fd rounds).1, call.1 = fd) ∧
      ((copyLoop t fd rounds).1 = [] ↔ rounds = []) := by
  induction rounds with
  | nil => simp [copyLoop]
  | cons r rest ih =>
    rw [copyLoop]
    split_ifs
    · simp
    · simpa using ih.1

/-- The client writes to a connected descriptor only, exactly if an address can be connected, or there
is nothing to write. -/
theorem connected_calls_iff (socketFd : ℤ) (rounds : List Round) (readFailed : Bool) :
    (∀ call ∈ (streamClientV2 limit t socketFd result rounds readFailed).calls,
      Connected limit t result call.1
        (streamClientV2 limit t socketFd result rounds readFailed).table) ↔
      (∃ a ∈ result, connects limit t a = true) ∨ rounds = [] := by
  obtain ⟨hfd, hnil⟩ := copyLoop_calls (search limit t socketFd result).2
    (search limit t socketFd result).1 rounds
  constructor
  · intro h
    by_contra hno
    obtain ⟨hno, hrounds⟩ := not_or.mp hno
    obtain ⟨call, hcall⟩ := List.exists_mem_of_ne_nil _ (mt hnil.mp hrounds)
    obtain ⟨a, ha, -⟩ := h call hcall
    exact hno ⟨a, List.mem_of_find?_eq_some ha, List.find?_some ha⟩
  · rintro (⟨a, ha, hconn⟩ | rfl)
    · intro call hcall
      rw [hfd call hcall]
      cases hfind : result.find? (connects limit t) with
      | none => exact absurd (find?_eq_none_iff.mp hfind a ha) (by simp [hconn])
      | some b => exact search_of_some socketFd hfind
    · intro call hcall
      exact absurd (hnil.mpr rfl) (List.ne_nil_of_mem hcall)

/-- Both loops together. -/
theorem descriptors_usable_iff (limit : ℕ) (t : Table κ α) (result : List (Attempt α)) :
    (Usable limit t result (connector limit t result) ↔
      (∃ a ∈ result, connects limit t a = true) ∨ ∀ a ∈ result.getLast?, opened limit t a = false) ∧
    ∀ socketFd rounds readFailed,
      (∀ call ∈ (streamClientV2 limit t socketFd result rounds readFailed).calls,
        Connected limit t result call.1
          (streamClientV2 limit t socketFd result rounds readFailed).table) ↔
        (∃ a ∈ result, connects limit t a = true) ∨ rounds = [] :=
  ⟨usable_connector_iff, connected_calls_iff⟩

/-- One address, which refuses: `connector` returns the closed descriptor 3, and the other client
writes to it. -/
theorem not_usable_refused :
    let t : Table Unit ℕ := fun fd => if fd < 3 then some (.other ()) else none
    (connector 20 t [⟨0, true, false⟩]).1 = 3 ∧
      ¬Usable 20 t [⟨0, true, false⟩] (connector 20 t [⟨0, true, false⟩]) ∧
      ∃ call ∈ (streamClientV2 20 t 0 [⟨0, true, false⟩]
        [⟨[104], 1, by decide, by decide⟩] false).calls,
        call.1 = 3 ∧ ∀ u, ¬Connected 20 t [⟨0, true, false⟩] call.1 u := by
  intro t
  have hresult : (connector 20 t [⟨0, true, false⟩]).1 = 3 := by decide
  have hnone : ∀ a ∈ [(⟨0, true, false⟩ : Attempt ℕ)], connects 20 t a = false := by decide
  refine ⟨hresult, fun h => ?_, (3, [104]), by decide, rfl, ?_⟩
  · exact absurd (hresult.symm.trans (h.1.mpr hnone)) (by decide)
  · rintro u ⟨a, ha, -⟩
    exact absurd (ha.symm.trans (find?_eq_none_iff.mpr hnone)) (by simp)

end LinuxApi.Connector
