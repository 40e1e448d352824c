import Thronix.Lib.Buffer
import Thronix.Lib.Ring

/-!
# Thronix.KernelQueue — the items of a kernel queue (`FreeRTOS/queue.c`)

A queue copies its items into a storage area behind `pcHead` and out of it again.  `pcWriteTo` is the next place to
write to and `pcReadFrom` the place last read from; both go around at `pcTail`.

* `prvCopyDataToQueue`, `prvCopyDataFromQueue`, `xQueueGenericReset`: what is done to the area inside the critical
  sections.  A copy over the end of the area is `none`.
* `QueueItems.Holds q l`: the area has the items of `l`, the oldest first.
* `Holds.toBack`, `Holds.toFront`, `Holds.overwrite`, `Holds.copyFrom`: the copies are inside the area, and do to `l`
  what they are for.
-/

namespace Thronix.KernelQueue

open Lib.Buffer Lib.Ring

/-- The bytes of an item. -/
abbrev Item := List UInt8

/-- `xCopyPosition`. -/
inductive CopyPosition
  | sendToBack
  | sendToFront
  | overwrite
  deriving DecidableEq, Repr

/-- The fields of `Queue_t` that the items depend on.  Pointers are distances from `pcHead`, and `storage` is what is
allocated behind it. -/
structure QueueItems where
  storage : List UInt8
  pcTail : ℤ
  pcWriteTo : ℤ
  pcReadFrom : ℤ
  uxMessagesWaiting : ℕ
  uxLength : ℕ
  uxItemSize : ℕ
  deriving DecidableEq, Repr

/-- `memcpy` into the storage area. -/
def memcpyTo (storage : List UInt8) (p : ℤ) (item : Item) : Option (List UInt8) :=
  if 0 ≤ p then store storage p.toNat item else none

/-- `memcpy` out of the storage area. -/
def memcpyFrom (storage : List UInt8) (p : ℤ) (size : ℕ) : Option Item :=
  if 0 ≤ p then load storage p.toNat size else none

/-- `xQueueGenericReset`, without the lists of waiting tasks. -/
def QueueItems.xQueueGenericReset (q : QueueItems) : QueueItems :=
  { q with
    pcTail := q.uxLength * q.uxItemSize
    uxMessagesWaiting := 0
    pcWriteTo := 0
    pcReadFrom := (q.uxLength - 1) * q.uxItemSize }

/-- `prvInitialiseNewQueue`, on an area with anything in it. -/
def QueueItems.prvInitialiseNewQueue (uxQueueLength uxItemSize : ℕ) (storage : List UInt8) : QueueItems :=
  QueueItems.xQueueGenericReset ⟨storage, 0, 0, 0, 0, uxQueueLength, uxItemSize⟩

/-- `prvCopyDataToQueue` of a queue that is no mutex. -/
def QueueItems.prvCopyDataToQueue (q : QueueItems) (item : Item) (xPosition : CopyPosition) : Option QueueItems :=
  if q.uxItemSize = 0 then some { q with uxMessagesWaiting := q.uxMessagesWaiting + 1 }
  else if xPosition = .sendToBack then
    (memcpyTo q.storage q.pcWriteTo item).map fun storage =>
      { q with
        storage
        pcWriteTo := if q.pcTail ≤ q.pcWriteTo + q.uxItemSize then 0 else q.pcWriteTo + q.uxItemSize
        uxMessagesWaiting := q.uxMessagesWaiting + 1 }
  else
    (memcpyTo q.storage q.pcReadFrom item).map fun storage =>
      { q with
        storage
        pcReadFrom := if q.pcReadFrom - q.uxItemSize < 0 then q.pcTail - q.uxItemSize else q.pcReadFrom - q.uxItemSize
        uxMessagesWaiting :=
          (if xPosition = .overwrite ∧ 0 < q.uxMessagesWaiting then q.uxMessagesWaiting - 1
            else q.uxMessagesWaiting) + 1 }

/-- `prvCopyDataFromQueue`: the read position moves on, and what is there is copied out. -/
def QueueItems.prvCopyDataFromQueue (q : QueueItems) : Option (QueueItems × Item) :=
  if q.uxItemSize ≠ 0 then
    let pcReadFrom := if q.pcTail ≤ q.pcReadFrom + q.uxItemSize then 0 else q.pcReadFrom + q.uxItemSize
    (memcpyFrom q.storage pcReadFrom q.uxItemSize).map fun item => ({ q with pcReadFrom }, item)
  else some (q, [])

/-! ## What a queue holds -/

abbrev QueueItems.slots (q : QueueItems) : List Item := Lib.Buffer.slots q.uxItemSize q.uxLength q.storage

/-- The queue has the items of `l`, in the slots behind the one last read from. -/
structure QueueItems.Holds (q : QueueItems) (l : List Item) : Prop where
  size : 0 < q.uxItemSize
  tail : q.pcTail = (q.uxLength * q.uxItemSize : ℕ)
  area : q.storage.length = q.uxLength * q.uxItemSize
  count : q.uxMessagesWaiting = l.length
  room : l.length ≤ q.uxLength
  slot : ∃ r < q.uxLength, q.pcReadFrom = (r * q.uxItemSize : ℕ) ∧
    q.pcWriteTo = ((r + 1 + l.length) % q.uxLength * q.uxItemSize : ℕ) ∧
    Reads q.slots ((r + 1) % q.uxLength) l

section Positions

variable {r n size : ℕ}

theorem wrap_up (hr : r < n) (hpos : 0 < size) :
    (if ((n * size : ℕ) : ℤ) ≤ (r * size : ℕ) + (size : ℤ) then 0 else ((r * size : ℕ) : ℤ) + size) =
      ((r + 1) % n * size : ℕ) := by
  have hnext : r * size + size = (r + 1) * size := (Nat.succ_mul r size).symm
  by_cases hlast : r + 1 = n
  · rw [if_pos (by rw [← hlast]; omega), hlast, Nat.mod_self, Nat.zero_mul]
    rfl
  · have hlt : r + 1 < n := by omega
    have hle := Nat.mul_lt_mul_of_pos_right hlt hpos
    rw [if_neg (by omega), Nat.mod_eq_of_lt hlt]
    omega

theorem wrap_down (hr : r < n) (hpos : 0 < size) : ∃ r' < n, (r' + 1) % n = r ∧
    (if ((r * size : ℕ) : ℤ) - size < 0 then ((n * size : ℕ) : ℤ) - size else ((r * size : ℕ) : ℤ) - size) =
      (r' * size : ℕ) := by
  cases r with
  | zero =>
    have hlast : (n - 1) * size + size = n * size := by
      rw [← Nat.succ_mul]
      congr 1
      omega
    refine ⟨n - 1, by omega, ?_, ?_⟩
    · rw [Nat.sub_add_cancel hr, Nat.mod_self]
    · rw [Nat.zero_mul, if_pos (by omega)]
      omega
  | succ r =>
    have hnext : r * size + size = (r + 1) * size := (Nat.succ_mul r size).symm
    refine ⟨r, by omega, Nat.mod_eq_of_lt hr, ?_⟩
    rw [if_neg (by omega)]
    omega

end Positions

section Holds

variable {q : QueueItems} {l : List Item} {item : Item}

theorem holds_init {n size : ℕ} {storage : List UInt8} (hn : 0 < n) (hpos : 0 < size)
    (hlen : storage.length = n * size) : (QueueItems.prvInitialiseNewQueue n size storage).Holds [] where
  size := hpos
  tail := rfl
  area := hlen
  count := rfl
  room := Nat.zero_le _
  slot := by
    refine ⟨n - 1, Nat.sub_lt hn Nat.one_pos, ?_, ?_, fun i hi => absurd hi (Nat.not_lt_zero i)⟩
    · show ((n : ℤ) - 1) * (size : ℤ) = _
      rw [Int.natCast_mul, Int.natCast_sub hn]
      rfl
    · show (0 : ℤ) = _
      rw [List.length_nil, Nat.add_zero, Nat.sub_add_cancel hn]
      show _ = ((n % n * size : ℕ) : ℤ)
      rw [Nat.mod_self, Nat.zero_mul]
      rfl

theorem QueueItems.Holds.reset (h : q.Holds l) (hn : 0 < q.uxLength) : q.xQueueGenericReset.Holds [] :=
  holds_init hn h.size h.area

theorem memcpyTo_natCast {storage : List UInt8} {p : ℕ} : memcpyTo storage p item = store storage p item := by
  rw [memcpyTo, if_pos (Int.natCast_nonneg p), Int.toNat_natCast]

theorem memcpyFrom_natCast {storage : List UInt8} {p size : ℕ} : memcpyFrom storage p size = load storage p size := by
  rw [memcpyFrom, if_pos (Int.natCast_nonneg p), Int.toNat_natCast]

/-- A slot of the area can be written. -/
theorem QueueItems.Holds.store_slot (h : q.Holds l) (hsize : item.length = q.uxItemSize) {i : ℕ}
    (hi : i < q.uxLength) : ∃ storage, memcpyTo q.storage (i * q.uxItemSize : ℕ) item = some storage ∧
      storage.length = q.uxLength * q.uxItemSize ∧
      Lib.Buffer.slots q.uxItemSize q.uxLength storage = q.slots.set i item := by
  have hfit : i * q.uxItemSize + item.length ≤ q.storage.length := by
    rw [hsize, h.area]
    exact slot_le _ hi
  have hs := store_of_le hfit
  exact ⟨_, memcpyTo_natCast.trans hs, (store_spec hs).2.1.trans h.area, slots_store hsize hs⟩

/-- A queue with room takes an item behind the others. -/
theorem QueueItems.Holds.toBack (h : q.Holds l) (hsize : item.length = q.uxItemSize) (hroom : l.length < q.uxLength) :
    ∃ q', q.prvCopyDataToQueue item .sendToBack = some q' ∧ q'.Holds (l ++ [item]) ∧ q'.uxLength = q.uxLength ∧
      q'.uxItemSize = q.uxItemSize := by
  obtain ⟨r, hr, hread, hwrite, hslots⟩ := h.slot
  have hw : (r + 1 + l.length) % q.uxLength < q.uxLength := Nat.mod_lt _ (by omega)
  obtain ⟨storage, hstore, hlen, hset⟩ := h.store_slot hsize hw
  rw [← hwrite] at hstore
  unfold QueueItems.prvCopyDataToQueue
  rw [if_neg (Nat.ne_of_gt h.size), if_pos rfl, hstore]
  refine ⟨_, rfl, ?_, rfl, rfl⟩
  refine ⟨h.size, h.tail, hlen, ?_, ?_, r, hr, hread, ?_, ?_⟩
  · rw [List.length_append, List.length_singleton, ← h.count]
  · rw [List.length_append, List.length_singleton]
    exact hroom
  · have hup := wrap_up hw h.size
    rw [Nat.mod_add_mod, ← hwrite, ← h.tail] at hup
    rw [List.length_append, List.length_singleton, ← Nat.add_assoc]
    exact hup
  · have hsnoc := hslots.snoc (by rwa [length_slots]) item
    rw [length_slots, Nat.mod_add_mod, ← hset] at hsnoc
    exact hsnoc

/-- A queue with room takes an item before the others. -/
theorem QueueItems.Holds.toFront (h : q.Holds l) (hsize : item.length = q.uxItemSize) (hroom : l.length < q.uxLength) :
    ∃ q', q.prvCopyDataToQueue item .sendToFront = some q' ∧ q'.Holds (item :: l) ∧ q'.uxLength = q.uxLength ∧
      q'.uxItemSize = q.uxItemSize := by
  obtain ⟨r, hr, hread, hwrite, hslots⟩ := h.slot
  obtain ⟨storage, hstore, hlen, hset⟩ := h.store_slot hsize hr
  obtain ⟨r', hr', hnext, hdown⟩ := wrap_down hr h.size
  rw [← hread] at hstore
  unfold QueueItems.prvCopyDataToQueue
  rw [if_neg (Nat.ne_of_gt h.size), if_neg (by decide), hstore]
  refine ⟨_, rfl, ?_, rfl, rfl⟩
  refine ⟨h.size, h.tail, hlen, ?_, ?_, r', hr', ?_, ?_, ?_⟩
  · show (if _ then _ else q.uxMessagesWaiting) + 1 = _
    rw [if_neg fun hover => CopyPosition.noConfusion hover.1, h.count, List.length_cons]
  · rw [List.length_cons]
    exact hroom
  · rw [← hread, ← h.tail] at hdown
    exact hdown
  · have hsame : (r' + 1 + (item :: l).length) % q.uxLength = (r + 1 + l.length) % q.uxLength := by
      rw [← Nat.mod_add_mod, hnext, List.length_cons]
      congr 1
      omega
    rw [hsame]
    exact hwrite
  · rw [hnext]
    have hrest : Reads q.slots ((r + 1) % q.slots.length) l := by rwa [length_slots]
    have hpush := hrest.push (by rwa [length_slots]) (by rwa [length_slots]) item
    rw [← hset] at hpush
    exact hpush

/-- A queue of length one has the item it is overwritten with. -/
theorem QueueItems.Holds.overwrite (h : q.Holds l) (hsize : item.length = q.uxItemSize) (hone : q.uxLength = 1) :
    ∃ q', q.prvCopyDataToQueue item .overwrite = some q' ∧ q'.Holds [item] ∧ q'.uxLength = q.uxLength ∧
      q'.uxItemSize = q.uxItemSize := by
  obtain ⟨r, hr, hread, hwrite, -⟩ := h.slot
  obtain ⟨storage, hstore, hlen, hset⟩ := h.store_slot hsize hr
  obtain ⟨r', hr', hnext, hdown⟩ := wrap_down hr h.size
  have hroom := h.room
  rw [← hread] at hstore
  unfold QueueItems.prvCopyDataToQueue
  rw [if_neg (Nat.ne_of_gt h.size), if_neg (by decide), hstore]
  refine ⟨_, rfl, ?_, rfl, rfl⟩
  refine ⟨h.size, h.tail, hlen, ?_, (by omega : 1 ≤ q.uxLength), r', hr', ?_, ?_, ?_⟩
  · show (if _ then _ else q.uxMessagesWaiting) + 1 = 1
    by_cases hfull : 0 < q.uxMessagesWaiting
    · rw [if_pos ⟨rfl, hfull⟩, h.count]
      have := h.count
      omega
    · rw [if_neg fun hover => hfull hover.2]
      omega
  · rw [← hread, ← h.tail] at hdown
    exact hdown
  · rw [hone, Nat.mod_one] at hwrite ⊢
    exact hwrite
  · rw [hnext]
    have hnil : Reads q.slots ((r + 1) % q.slots.length) [] := fun i hi => absurd hi (Nat.not_lt_zero i)
    have hpush := hnil.push (by rwa [length_slots]) (by rw [length_slots, List.length_nil]; omega) item
    rw [← hset] at hpush
    exact hpush

/-- The oldest item is copied out; the read position is at it then. -/
theorem QueueItems.Holds.copyFrom (h : q.Holds (item :: l)) :
    ∃ q', q.prvCopyDataFromQueue = some (q', item) ∧ { q' with pcReadFrom := q.pcReadFrom } = q ∧
      { q' with uxMessagesWaiting := q'.uxMessagesWaiting - 1 }.Holds l := by
  obtain ⟨r, hr, hread, hwrite, hslots⟩ := h.slot
  have hr' : (r + 1) % q.uxLength < q.uxLength := Nat.mod_lt _ (by omega)
  have hup := wrap_up hr h.size
  rw [← hread, ← h.tail] at hup
  have hitem := hslots.head (by rwa [length_slots])
  have hnext : ((r + 1) % q.uxLength + 1 + l.length) % q.uxLength = (r + 1 + (item :: l).length) % q.uxLength := by
    rw [Nat.add_assoc, Nat.mod_add_mod, List.length_cons, Nat.add_comm 1]
  unfold QueueItems.prvCopyDataFromQueue
  rw [if_pos (Nat.ne_of_gt h.size)]
  dsimp only
  rw [hup, memcpyFrom_natCast, load_slot hr' h.area hitem]
  refine ⟨_, rfl, rfl, h.size, h.tail, h.area, ?_, ?_, _, hr', rfl, ?_, ?_⟩
  · show q.uxMessagesWaiting - 1 = _
    rw [h.count, List.length_cons, Nat.add_sub_cancel]
  · exact Nat.le_of_succ_le h.room
  · rw [← hnext] at hwrite
    exact hwrite
  · have htail := hslots.tail
    rw [length_slots] at htail
    exact htail

end Holds

end Thronix.KernelQueue
