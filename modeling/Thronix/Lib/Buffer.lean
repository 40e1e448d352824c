import Mathlib.Data.List.Basic

/-!
# Thronix.Lib.Buffer — what stands where in a buffer

* `store buf i bs`: `bs` written from place `i` on, `none` if it does not fit.
* `At buf i bs`: from place `i` on the buffer has `bs`.  `store_spec` tells what a buffer has behind a store.
* `load buf i n`: the `n` values from place `i` on, `none` behind the end.
* `slots size n buf`: a buffer as `n` slots of one size.  A store to one of them (`slots_store`) changes no other.
-/

namespace Thronix.Lib.Buffer

variable {α : Type}

/-- Values written from a place on. -/
def store (buf : List α) (i : ℕ) (bs : List α) : Option (List α) :=
  if i + bs.length ≤ buf.length then some (buf.take i ++ bs ++ buf.drop (i + bs.length)) else none

def At (buf : List α) (i : ℕ) (bs : List α) : Prop := ∀ k < bs.length, buf[i + k]? = bs[k]?

variable {buf buf' as bs cs : List α} {i j : ℕ}

theorem at_nil : At buf i [] := fun _ hk => absurd hk (Nat.not_lt_zero _)

theorem at_append : At buf i (as ++ bs) ↔ At buf i as ∧ At buf (i + as.length) bs := by
  constructor
  · intro h
    refine ⟨fun k hk => ?_, fun k hk => ?_⟩
    · rw [h k (by rw [List.length_append]; omega), List.getElem?_append_left hk]
    · rw [Nat.add_assoc, h (as.length + k) (by rw [List.length_append]; omega),
        List.getElem?_append_right (by omega), Nat.add_sub_cancel_left]
  · rintro ⟨ha, hb⟩ k hk
    rw [List.length_append] at hk
    by_cases hin : k < as.length
    · rw [ha k hin, List.getElem?_append_left hin]
    · rw [List.getElem?_append_right (by omega), ← hb (k - as.length) (by omega)]
      congr 1
      omega

theorem At.take_drop (h : At buf i bs) : (buf.drop i).take bs.length = bs := by
  apply List.ext_getElem?
  intro k
  by_cases hk : k < bs.length
  · rw [List.getElem?_take_of_lt hk, List.getElem?_drop, h k hk]
  · rw [List.getElem?_eq_none (by rw [List.length_take]; omega), List.getElem?_eq_none (by omega)]

theorem At.length_le (h : At buf i bs) (hpos : bs ≠ []) : i + bs.length ≤ buf.length := by
  have hlen := List.length_pos_iff.mpr hpos
  have hlast := h (bs.length - 1) (by omega)
  rw [List.getElem?_eq_getElem (l := bs) (by omega)] at hlast
  obtain ⟨hlt, -⟩ := List.getElem?_eq_some_iff.mp hlast
  omega

theorem store_of_le (h : i + bs.length ≤ buf.length) :
    store buf i bs = some (buf.take i ++ bs ++ buf.drop (i + bs.length)) := if_pos h

theorem store_eq_none (h : buf.length < i + bs.length) : store buf i bs = none := if_neg (by omega)

/-- A buffer behind a store has what was stored, and elsewhere what it had. -/
theorem store_spec (h : store buf i bs = some buf') :
    i + bs.length ≤ buf.length ∧ buf'.length = buf.length ∧ At buf' i bs ∧
      ∀ k, k < i ∨ i + bs.length ≤ k → buf'[k]? = buf[k]? := by
  unfold store at h
  by_cases hfit : i + bs.length ≤ buf.length
  · rw [if_pos hfit, Option.some.injEq] at h
    have hpre : (buf.take i).length = i := by
      rw [List.length_take]
      omega
    subst h
    refine ⟨hfit, ?_, fun k hk => ?_, fun k hk => ?_⟩
    · rw [List.length_append, List.length_append, hpre, List.length_drop]
      omega
    · rw [List.append_assoc, List.getElem?_append_right (by omega), hpre, Nat.add_sub_cancel_left,
        List.getElem?_append_left hk]
    · rcases hk with hk | hk
      · rw [List.append_assoc, List.getElem?_append_left (by omega), List.getElem?_take_of_lt hk]
      · rw [List.getElem?_append_right (by rw [List.length_append]; omega), List.getElem?_drop, List.length_append, hpre]
        congr 1
        omega
  · rw [if_neg hfit] at h
    cases h

/-- What stands beside a store stays. -/
theorem At.store (h : At buf j cs) (hs : store buf i bs = some buf') (hout : j + cs.length ≤ i ∨ i + bs.length ≤ j) :
    At buf' j cs := by
  obtain ⟨-, -, -, hother⟩ := store_spec hs
  intro k hk
  rw [hother (j + k) (by omega), h k hk]

def load (buf : List α) (i n : ℕ) : Option (List α) :=
  if i + n ≤ buf.length then some ((buf.drop i).take n) else none

/-! ## Slots -/

section Slots

def slots (size n : ℕ) (buf : List α) : List (List α) := (List.range n).map fun i => (buf.drop (i * size)).take size

variable {size n : ℕ} {item : List α}

theorem length_slots : (slots size n buf).length = n := by rw [slots, List.length_map, List.length_range]

theorem getElem?_slots (hi : i < n) : (slots size n buf)[i]? = some ((buf.drop (i * size)).take size) := by
  rw [slots, List.getElem?_map, List.getElem?_range hi, Option.map_some]

theorem slot_le (size : ℕ) (hi : i < n) : i * size + size ≤ n * size := by
  rw [← Nat.succ_mul]
  exact Nat.mul_le_mul_right size hi

theorem load_slot (hi : i < n) (hlen : buf.length = n * size) (hs : (slots size n buf)[i]? = some item) :
    load buf (i * size) size = some item := by
  rw [getElem?_slots hi] at hs
  rw [load, if_pos (hlen ▸ slot_le size hi), hs]

theorem slots_store (hsize : item.length = size) (hs : store buf (i * size) item = some buf') :
    slots size n buf' = (slots size n buf).set i item := by
  obtain ⟨-, -, hat, hother⟩ := store_spec hs
  subst hsize
  apply List.ext_getElem?
  intro k
  by_cases hk : k < n
  · rw [getElem?_slots hk]
    by_cases heq : i = k
    · subst heq
      rw [List.getElem?_set_self (by rwa [length_slots]), hat.take_drop]
    · rw [List.getElem?_set_ne heq, getElem?_slots hk]
      congr 1
      apply List.ext_getElem?
      intro j
      by_cases hj : j < item.length
      · rw [List.getElem?_take_of_lt hj, List.getElem?_take_of_lt hj, List.getElem?_drop, List.getElem?_drop]
        refine hother _ ?_
        -- the slot is before the one written or behind it
        rcases Nat.lt_or_gt_of_ne heq with hlt | hgt
        · have := slot_le item.length hlt
          omega
        · have := slot_le item.length hgt
          omega
      · rw [List.getElem?_eq_none (by rw [List.length_take]; omega),
          List.getElem?_eq_none (by rw [List.length_take]; omega)]
  · rw [List.getElem?_eq_none (by rw [length_slots]; omega),
      List.getElem?_eq_none (by rw [List.length_set, length_slots]; omega)]

end Slots

end Thronix.Lib.Buffer
