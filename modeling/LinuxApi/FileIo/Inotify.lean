import LinuxApi.Kernel.Bytes
import LinuxApi.Kernel.CText
import LinuxApi.Kernel.Segments

/-! The loops over inotify events in `file_event` and `inotify_example`. Both step from event to event by
the length in the header; one has a pointer for its cursor, the other a signed index that is added to in
unsigned arithmetic. -/

namespace LinuxApi.Inotify

/-- `MAX_BUFFER` -/
def maxBuffer : ℕ := 4096

/-- `BUFSIZ` -/
def bufsiz : ℕ := 8192

/-- `sizeof(struct inotify_event)` -/
def sizeofEvent : ℕ := 16

/-- The fields of `struct inotify_event` in front of the name. -/
structure Header where
  wd : BitVec 32
  mask : BitVec 32
  cookie : BitVec 32
  len : BitVec 32
  deriving DecidableEq

/-- An event; `name` has the padding with it. -/
structure Event where
  wd : BitVec 32
  mask : BitVec 32
  cookie : BitVec 32
  name : List UInt8
  deriving DecidableEq

def Event.header (e : Event) : Header := ⟨e.wd, e.mask, e.cookie, .ofNat 32 e.name.length⟩

def Header.encode (h : Header) : List UInt8 :=
  leBytes 4 h.wd.toNat ++ (leBytes 4 h.mask.toNat ++ (leBytes 4 h.cookie.toNat ++ leBytes 4 h.len.toNat))

def Event.encode (e : Event) : List UInt8 := e.header.encode ++ e.name

/-- The events that one `read` of at most `size` bytes returns. -/
structure Delivery (size : ℕ) where
  events : List Event
  length_le : (events.map Event.encode).flatten.length ≤ size

/-- An array of `size` bytes in memory. -/
structure Place (size : ℕ) where
  base : BitVec 64
  fits : base.toNat + size < 18446744073709551616

/-- The four bytes at an index. -/
def word (bytes : List UInt8) (i : ℕ) : BitVec 32 := .ofNat 32 (leNat ((bytes.drop i).take 4))

/-- The structure at an index. -/
def headerAt (bytes : List UInt8) (i : ℕ) : Header :=
  ⟨word bytes i, word bytes (i + 4), word bytes (i + 8), word bytes (i + 12)⟩

/-- At most `n` tests of a loop: the cursors at which it calls the function for the events, and the
cursor at its end. -/
def eventLoop (goesOn : BitVec 64 → Bool) (index : BitVec 64 → ℕ) (bytes : List UInt8) :
    ℕ → BitVec 64 → Option (List (BitVec 64) × BitVec 64)
  | 0, _ => none
  | n + 1, p =>
    if goesOn p then
      (eventLoop goesOn index bytes n
        (p + (.ofNat 64 sizeofEvent + (headerAt bytes (index p)).len.setWidth 64))).map
          fun v => (p :: v.1, v.2)
    else some ([], p)

/-- The inner loop of `file_event`, whose cursor is a pointer. -/
def fileEvent (place : Place maxBuffer) (bytes : List UInt8) (readCnt : BitVec 32) (n : ℕ) :
    Option (List (BitVec 64) × BitVec 64) :=
  eventLoop (fun p => p < place.base + readCnt.signExtend 64) (fun p => (p - place.base).toNat) bytes n
    place.base

/-- The loop of `inotify_example`, whose cursor is a `ssize_t`. -/
def inotifyExample (bytes : List UInt8) (len : BitVec 64) (n : ℕ) :
    Option (List (BitVec 64) × BitVec 64) :=
  eventLoop (fun i => i.slt len) (fun i => i.toNat) bytes n 0

/-- The bytes of `event->len`, which the loops read. -/
def loopReads (i : ℕ) : List ℕ := List.range' (i + 12) 4

/-- The bytes of `fevent->wd` and `fevent->mask`. -/
def feventFuncReads (i : ℕ) : List ℕ := List.range' i 8

/-- The bytes of `event->wd`, `event->mask` and `event->len`, and those of the name up to its zero. -/
def eventFuncReads (bytes : List UInt8) (i : ℕ) : List ℕ :=
  List.range' i 8 ++ List.range' (i + 12) 4 ++
    if (headerAt bytes i).len = 0 then []
    else List.range' (i + 16) ((cText (bytes.drop (i + 16))).length + 1)

variable {size : ℕ}

def Delivery.pieces (d : Delivery size) : List (List UInt8) := d.events.map Event.encode

def Delivery.bytes (d : Delivery size) : List UInt8 := d.pieces.flatten

/-- `result` is a loop over the events that lie in `bytes`; `cursor` is the cursor of an index. -/
structure Exact (d : Delivery size) (bytes : List UInt8) (cursor : ℕ → BitVec 64)
    (result : Option (List (BitVec 64) × BitVec 64)) : Prop where
  calls : result = some ((List.range d.events.length).map fun k => cursor (offset d.pieces k),
    cursor d.bytes.length)
  headers : ∀ k e, d.events[k]? = some e → headerAt bytes (offset d.pieces k) = e.header
  reads : ∀ k < d.events.length, ∀ i ∈ loopReads (offset d.pieces k) ++
    feventFuncReads (offset d.pieces k), i < d.bytes.length
  -- the kernel pads a name with at least one zero, and `%s` relies on it
  names : ∀ k e, d.events[k]? = some e → (e.name ≠ [] → 0 ∈ e.name) →
    ∀ i ∈ eventFuncReads bytes (offset d.pieces k), i < d.bytes.length

/-! ### Headers -/

@[simp] theorem Header.length_encode (h : Header) : h.encode.length = sizeofEvent := by
  simp [Header.encode, sizeofEvent]

@[simp] theorem Event.length_encode (e : Event) : e.encode.length = sizeofEvent + e.name.length := by
  rw [Event.encode, List.length_append, Header.length_encode]

theorem word_append (x : BitVec 32) (pre post : List UInt8) :
    word (pre ++ (leBytes 4 x.toNat ++ post)) pre.length = x := by
  have htake : (leBytes 4 x.toNat ++ post).take 4 = leBytes 4 x.toNat :=
    List.take_left' (length_leBytes 4 x.toNat)
  rw [word, List.drop_left, htake, leNat_leBytes_of_lt x.isLt, BitVec.ofNat_toNat, BitVec.setWidth_eq]

/-- A header is read back wherever it lies. -/
theorem headerAt_append (h : Header) (pre post : List UInt8) :
    headerAt (pre ++ (h.encode ++ post)) pre.length = h := by
  have hwd := word_append h.wd pre
  have hmask := word_append h.mask (pre ++ leBytes 4 h.wd.toNat)
  have hcookie := word_append h.cookie (pre ++ (leBytes 4 h.wd.toNat ++ leBytes 4 h.mask.toNat))
  have hlen := word_append h.len
    (pre ++ (leBytes 4 h.wd.toNat ++ (leBytes 4 h.mask.toNat ++ leBytes 4 h.cookie.toNat)))
  simp only [List.length_append, length_leBytes, List.append_assoc] at hwd hmask hcookie hlen
  simp only [headerAt, Header.encode, List.append_assoc]
  rw [hwd, hmask, hcookie, hlen]

/-! ### Where the events lie -/

namespace Delivery

variable (d : Delivery size) (b : Buffer size) {k : ℕ} {e : Event}

theorem pieces_get (h : d.events[k]? = some e) : d.pieces[k]? = some e.encode := by
  rw [pieces, List.getElem?_map, h]
  rfl

theorem pieces_length : d.pieces.length = d.events.length := List.length_map _

theorem bytes_le : d.bytes.length ≤ size := d.length_le

/-- What the array holds in front of an event, the event, and what it holds behind it. -/
theorem store_eq (h : d.events[k]? = some e) : ∃ pre post, pre.length = offset d.pieces k ∧
    (b.store d.bytes).bytes = pre ++ (e.encode ++ post) := by
  refine ⟨(d.pieces.take k).flatten, (d.pieces.drop (k + 1)).flatten ++ b.bytes.drop d.bytes.length,
    rfl, ?_⟩
  have hflat : d.bytes = _ := flatten_eq (d.pieces_get h)
  have happend := congrArg (· ++ b.bytes.drop d.bytes.length) hflat
  rw [b.store_bytes d.bytes_le]
  simpa only [List.append_assoc] using happend

/-- An event lies within the bytes that were read. -/
theorem offset_add_le (h : d.events[k]? = some e) :
    offset d.pieces k + (sizeofEvent + e.name.length) ≤ d.bytes.length := by
  rw [← e.length_encode, ← offset_succ (d.pieces_get h)]
  exact offset_le d.pieces (k + 1)

theorem headerAt_eq (h : d.events[k]? = some e) :
    headerAt (b.store d.bytes).bytes (offset d.pieces k) = e.header := by
  obtain ⟨pre, post, hpre, hbytes⟩ := d.store_eq b h
  rw [hbytes, ← hpre, Event.encode, List.append_assoc]
  exact headerAt_append e.header pre (e.name ++ post)

/-- The length in the header of a delivered event has not been cut. -/
theorem header_len (hsize : size < 4294967296) (h : d.events[k]? = some e) :
    e.header.len.toNat = e.name.length := by
  have hfit := d.offset_add_le h
  have htotal := d.bytes_le
  rw [Event.header, BitVec.toNat_ofNat]
  exact Nat.mod_eq_of_lt (by omega)

/-- The name is read up to its zero. -/
theorem cText_name (h : d.events[k]? = some e) (h0 : 0 ∈ e.name) :
    cText ((b.store d.bytes).bytes.drop (offset d.pieces k + sizeofEvent)) = cText e.name := by
  obtain ⟨pre, post, hpre, hbytes⟩ := d.store_eq b h
  have hdrop : (pre ++ (e.header.encode ++ (e.name ++ post))).drop (pre.length + sizeofEvent) =
      e.name ++ post := by
    rw [← List.append_assoc]
    exact List.drop_left' (by simp)
  rw [hbytes, ← hpre, Event.encode, List.append_assoc, hdrop, cText_append_of_mem h0]

end Delivery

/-! ### The loops -/

/-- A loop's cursor, its test and the index it reads at, compared with the index `k` they stand for. -/
structure Tracks (goesOn : BitVec 64 → Bool) (index : BitVec 64 → ℕ) (cursor : ℕ → BitVec 64)
    (total : ℕ) : Prop where
  goesOn_iff : ∀ k ≤ total, goesOn (cursor k) ↔ k < total
  index_eq : ∀ k ≤ total, index (cursor k) = k
  add : ∀ k m, cursor k + .ofNat 64 m = cursor (k + m)

variable {goesOn : BitVec 64 → Bool} {index : BitVec 64 → ℕ} {cursor : ℕ → BitVec 64} {total : ℕ}
  {bytes : List UInt8}

/-- The length of the event that a header at an index announces. -/
def sizeAt (bytes : List UInt8) (k : ℕ) : ℕ := sizeofEvent + (headerAt bytes k).len.toNat

/-- While the cursor stays within the bytes, the loop in 64-bit arithmetic is the loop over indices. -/
theorem eventLoop_of_visits (ht : Tracks goesOn index cursor total) {n k : ℕ} {l : List ℕ}
    (hv : visits (sizeAt bytes) total n k = some (l, total)) :
    eventLoop goesOn index bytes n (cursor k) = some (l.map cursor, cursor total) := by
  induction n generalizing k l with
  | zero => cases hv
  | succ n ih =>
    have hk : k ≤ total := visits_le hv
    rw [visits] at hv
    rw [eventLoop]
    by_cases hlt : k < total
    · rw [if_pos hlt] at hv
      rw [if_pos ((ht.goesOn_iff k hk).mpr hlt), ht.index_eq k hk]
      obtain ⟨⟨tail, last⟩, htail, hcons⟩ := Option.map_eq_some_iff.mp hv
      cases hcons
      have hstep : cursor k + (.ofNat 64 sizeofEvent + (headerAt bytes k).len.setWidth 64) =
          cursor (k + sizeAt bytes k) := by
        rw [← ht.add, sizeAt, BitVec.ofNat_add, BitVec.ofNat_toNat]
      rw [hstep, ih htail]
      rfl
    · rw [if_neg hlt] at hv
      rw [if_neg (mt (ht.goesOn_iff k hk).mp hlt)]
      cases hv
      rfl

theorem toNat_ofNat_of_le {k : ℕ} (h : k ≤ bufsiz) : (BitVec.ofNat 64 k).toNat = k := by
  rw [BitVec.toNat_ofNat]
  refine Nat.mod_eq_of_lt (h.trans_lt ?_)
  decide

theorem toInt_ofNat_of_le {k : ℕ} (h : k ≤ bufsiz) : (BitVec.ofNat 64 k).toInt = k := by
  have hnat := toNat_ofNat_of_le h
  rw [BitVec.toInt_eq_toNat_of_lt, hnat]
  rw [hnat]
  exact (Nat.mul_le_mul_left 2 h).trans_lt (by decide)

/-- The cursor of `inotify_example` is its index. -/
theorem tracks_inotifyExample (h : total ≤ bufsiz) :
    Tracks (fun i => i.slt (.ofNat 64 total)) (fun i => i.toNat) (.ofNat 64 ·) total where
  goesOn_iff k hk := by
    rw [BitVec.slt_iff_toInt_lt, toInt_ofNat_of_le (hk.trans h), toInt_ofNat_of_le h, Int.ofNat_lt]
  index_eq k hk := toNat_ofNat_of_le (hk.trans h)
  add k m := (BitVec.ofNat_add k m).symm

/-- The sign of `read_cnt` is not set. -/
theorem signExtend_ofNat (h : total ≤ maxBuffer) :
    (BitVec.ofNat 32 total).signExtend 64 = .ofNat 64 total := by
  have hle : total ≤ 4096 := h
  have hnat : (BitVec.ofNat 32 total).toNat = total := by
    rw [BitVec.toNat_ofNat]
    exact Nat.mod_eq_of_lt (by omega)
  have hmsb : (BitVec.ofNat 32 total).msb = false := by
    rw [BitVec.msb_eq_false_iff_two_mul_lt, hnat]
    omega
  rw [BitVec.signExtend_eq_setWidth_of_msb_false hmsb, ← BitVec.ofNat_toNat, hnat]

theorem Place.toNat_add (place : Place maxBuffer) {k : ℕ} (h : k ≤ maxBuffer) :
    (place.base + .ofNat 64 k).toNat = place.base.toNat + k := by
  have hfits := place.fits
  rw [BitVec.toNat_add, toNat_ofNat_of_le (h.trans (by decide))]
  exact Nat.mod_eq_of_lt (by omega)

/-- The cursor of `file_event` is a pointer into its array. -/
theorem tracks_fileEvent (place : Place maxBuffer) (h : total ≤ maxBuffer) :
    Tracks (fun p => p < place.base + (BitVec.ofNat 32 total).signExtend 64)
      (fun p => (p - place.base).toNat) (fun k => place.base + .ofNat 64 k) total where
  goesOn_iff k hk := by
    rw [signExtend_ofNat h, decide_eq_true_eq, BitVec.lt_def, place.toNat_add (hk.trans h),
      place.toNat_add h]
    exact Nat.add_lt_add_iff_left
  index_eq k hk := by
    have hle : k ≤ bufsiz := (hk.trans h).trans (by decide)
    rw [BitVec.add_comm, BitVec.add_sub_cancel]
    exact toNat_ofNat_of_le hle
  add k m := by rw [BitVec.add_assoc, BitVec.ofNat_add]

section Run

variable (d : Delivery size) (b : Buffer size)

theorem encode_ne_nil : ∀ r ∈ d.pieces, r ≠ [] := by
  intro r hr
  obtain ⟨e, -, rfl⟩ := List.mem_map.mp hr
  rw [← List.length_pos_iff, e.length_encode]
  exact Nat.lt_of_lt_of_le (by decide) (Nat.le_add_right sizeofEvent _)

theorem sizeAt_offset (hsize : size < 4294967296) (k : ℕ) (r : List UInt8) (h : d.pieces[k]? = some r) :
    sizeAt (b.store d.bytes).bytes (offset d.pieces k) = r.length := by
  rw [Delivery.pieces, List.getElem?_map] at h
  obtain ⟨e, he, rfl⟩ := Option.map_eq_some_iff.mp h
  rw [sizeAt, d.headerAt_eq b he, d.header_len hsize he, e.length_encode]

theorem exact_of_tracks (hsize : size < 4294967296) (ht : Tracks goesOn index cursor d.bytes.length)
    (extra : ℕ) : Exact d (b.store d.bytes).bytes cursor
      (eventLoop goesOn index (b.store d.bytes).bytes (d.events.length + 1 + extra) (cursor 0)) where
  calls := by
    have hv := visits_eq (encode_ne_nil d) (sizeAt_offset d b hsize) extra
    rw [d.pieces_length] at hv
    rw [eventLoop_of_visits ht hv, List.map_map]
    rfl
  headers k e he := d.headerAt_eq b he
  reads k hk i hi := by
    have hfit := d.offset_add_le (List.getElem?_eq_getElem hk)
    simp only [loopReads, feventFuncReads, List.mem_append, List.mem_range'_1] at hi
    rw [sizeofEvent] at hfit
    omega
  names k e he hzero i hi := by
    have hfit := d.offset_add_le he
    simp only [eventFuncReads, d.headerAt_eq b he, List.mem_append, List.mem_range'_1] at hi
    split_ifs at hi with hlen
    · simp only [List.not_mem_nil, or_false] at hi
      rw [sizeofEvent] at hfit
      omega
    · have hname : e.name ≠ [] := by
        intro hnil
        rw [Event.header, hnil] at hlen
        exact hlen rfl
      have htext : cText ((b.store d.bytes).bytes.drop (offset d.pieces k + 16)) = cText e.name :=
        d.cText_name b he (hzero hname)
      have hlt := length_cText_lt (hzero hname)
      rw [htext, List.mem_range'_1] at hi
      rw [sizeofEvent] at hfit
      omega

end Run

/-- For every delivery, wherever the arrays lie and whatever they held before, both loops call their
function for each event once, in order and at its first byte, read nothing behind the bytes returned and
end exactly there. -/
theorem walks_exact (place : Place maxBuffer) (d₁ : Delivery maxBuffer) (b₁ : Buffer maxBuffer)
    (d₂ : Delivery bufsiz) (b₂ : Buffer bufsiz) (extra : ℕ) :
    Exact d₁ (b₁.store d₁.bytes).bytes (fun k => place.base + .ofNat 64 k)
        (fileEvent place (b₁.store d₁.bytes).bytes (.ofNat 32 d₁.bytes.length)
          (d₁.events.length + 1 + extra)) ∧
      Exact d₂ (b₂.store d₂.bytes).bytes (.ofNat 64 ·)
        (inotifyExample (b₂.store d₂.bytes).bytes (.ofNat 64 d₂.bytes.length)
          (d₂.events.length + 1 + extra)) := by
  constructor
  · have hexact := exact_of_tracks d₁ b₁ (by decide) (tracks_fileEvent place d₁.bytes_le) extra
    rw [BitVec.add_zero] at hexact
    exact hexact
  · exact exact_of_tracks d₂ b₂ (by decide) (tracks_inotifyExample d₂.bytes_le) extra

/-- An event without a name, then one whose name is padded to four bytes. -/
example : inotifyExample (Event.encode ⟨1, 2, 0, []⟩ ++ Event.encode ⟨1, 256, 0, [97, 98, 0, 0]⟩) 36 3 =
    some ([0, 16], 36) := by
  decide

end LinuxApi.Inotify
