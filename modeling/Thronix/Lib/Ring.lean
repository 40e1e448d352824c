import Mathlib.Data.Int.Basic
import Mathlib.Data.List.Basic

/-!
# Thronix.Lib.Ring — arrays and rings

* `get`, `put`: an array element by its index, `none` outside the array.
* `Holds init ring tape`: the ring was `init`, and the values of `tape` have been put into it one after the other.  Of
  these it still has the last ones, as many as it has places.
* `Reads ring y w`: from place `y` on the ring has `w`, behind its last place the first one again.  `Holds.reads_iff`
  tells when it does.
-/

namespace Thronix.Lib.Ring

variable {α : Type}

/-! ## Arrays -/

section Array

def get (m : List α) (i : ℤ) : Option α := if 0 ≤ i then m[i.toNat]? else none

def put (m : List α) (i : ℤ) (a : α) : Option (List α) :=
  if 0 ≤ i ∧ i < m.length then some (m.set i.toNat a) else none

variable {m : List α} {i : ℕ} {a : α}

theorem get_natCast : get m i = m[i]? := by
  rw [get, if_pos (Int.natCast_nonneg i), Int.toNat_natCast]

theorem put_natCast (h : i < m.length) : put m i a = some (m.set i a) := by
  have hin : (0 : ℤ) ≤ i ∧ (i : ℤ) < m.length := by omega
  rw [put, if_pos hin, Int.toNat_natCast]

theorem exists_get {i : ℤ} (h0 : 0 ≤ i) (h : i < m.length) : ∃ a ∈ m, get m i = some a := by
  have hlt : i.toNat < m.length := by omega
  refine ⟨m[i.toNat], List.getElem_mem hlt, ?_⟩
  rw [get, if_pos h0, List.getElem?_eq_getElem hlt]

theorem exists_get_natCast (h : i < m.length) : ∃ a, get m i = some a :=
  ⟨m[i], by rw [get_natCast, List.getElem?_eq_getElem h]⟩

theorem put_of_lt {i : ℤ} (h0 : 0 ≤ i) (h : i < m.length) (a : α) : put m i a = some (m.set i.toNat a) := by
  rw [put, if_pos ⟨h0, h⟩]

theorem put_some {m' : List α} {i : ℤ} (h : put m i a = some m') :
    0 ≤ i ∧ i < m.length ∧ m' = m.set i.toNat a := by
  unfold put at h
  by_cases hin : 0 ≤ i ∧ i < m.length
  · rw [if_pos hin] at h
    exact ⟨hin.1, hin.2, (Option.some.inj h).symm⟩
  · rw [if_neg hin] at h
    cases h

theorem take_succ_set (h : i < m.length) : (m.set i a).take (i + 1) = m.take i ++ [a] := by
  rw [List.take_add_one, List.take_set_of_le (le_refl i), List.getElem?_set_self h]
  rfl

theorem take_succ_drop {k : ℕ} (ha : m[i]? = some a) : (m.drop i).take (k + 1) = a :: (m.drop (i + 1)).take k := by
  obtain ⟨h, rfl⟩ := List.getElem?_eq_some_iff.mp ha
  rw [List.drop_eq_getElem_cons h, List.take_succ_cons]

end Array

/-! ## Rings -/

theorem mod_ne {n p q : ℕ} (hpq : p < q) (hq : q < p + n) : p % n ≠ q % n := by
  intro h
  have hdvd : n ∣ q - p := Nat.dvd_of_mod_eq_zero (Nat.sub_mod_eq_zero_of_mod_eq h.symm)
  have := Nat.le_of_dvd (by omega) hdvd
  omega

structure Holds (init ring tape : List α) : Prop where
  length_eq : ring.length = init.length
  written : ∀ p < tape.length, tape.length ≤ p + init.length → ring[p % init.length]? = tape[p]?
  unwritten : ∀ p, tape.length ≤ p → ring[p]? = init[p]?

section Holds

variable {init ring tape : List α}

theorem holds_nil : Holds init init [] where
  length_eq := rfl
  written p hp := absurd hp (Nat.not_lt_zero p)
  unwritten _ _ := rfl

/-- One value more. -/
theorem Holds.snoc (h : Holds init ring tape) (hpos : 0 < init.length) (a : α) :
    Holds init (ring.set (tape.length % init.length) a) (tape ++ [a]) := by
  have hlt : tape.length % init.length < ring.length := by
    rw [h.length_eq]
    exact Nat.mod_lt _ hpos
  refine ⟨by rw [List.length_set, h.length_eq], ?_, ?_⟩
  · intro p hp hle
    rw [List.length_append, List.length_singleton] at hp hle
    by_cases heq : p = tape.length
    · rw [heq, List.getElem?_set_self hlt, List.getElem?_concat_length]
    · have hold : p < tape.length := by omega
      rw [List.getElem?_set_ne (mod_ne hold (by omega)).symm, h.written p hold (by omega),
        List.getElem?_append_left hold]
  · intro p hp
    rw [List.length_append, List.length_singleton] at hp
    rw [← h.unwritten p (by omega)]
    by_cases hin : p < init.length
    · have hmod : tape.length % init.length = tape.length := Nat.mod_eq_of_lt (by omega)
      rw [hmod, List.getElem?_set_ne (by omega)]
    · rw [List.getElem?_eq_none (by rw [List.length_set, h.length_eq]; omega),
        List.getElem?_eq_none (by rw [h.length_eq]; omega)]

/-- A ring that has been filled has at every place one of the last values, and behind it the values behind it. -/
theorem Holds.exists_written (h : Holds init ring tape) (hfull : init.length ≤ tape.length) {y : ℕ}
    (hy : y < init.length) :
    ∃ p < tape.length, ∀ k, p + k < tape.length → ring[(y + k) % init.length]? = tape[p + k]? := by
  have hturn : 0 < tape.length / init.length := Nat.div_pos hfull (by omega)
  obtain ⟨turns, hturns⟩ := Nat.exists_eq_add_one.mpr hturn
  have hrest := Nat.mod_lt tape.length (by omega : 0 < init.length)
  have hlen := Nat.div_add_mod tape.length init.length
  have hnext : init.length * (turns + 1) = init.length * turns + init.length := Nat.mul_add_one _ _
  rw [hturns] at hlen
  have hplace : ∀ {p}, p < tape.length → tape.length ≤ p + init.length → p % init.length = y →
      ∃ p < tape.length, ∀ k, p + k < tape.length → ring[(y + k) % init.length]? = tape[p + k]? := by
    intro p hp hle hmod
    refine ⟨p, hp, fun k hk => ?_⟩
    rw [← hmod, Nat.mod_add_mod, h.written (p + k) hk (by omega)]
  -- the last turn has reached the place, or the turn before it
  by_cases hagain : y < tape.length % init.length
  · refine hplace (by omega : init.length * (turns + 1) + y < _) (by omega) ?_
    rw [Nat.mul_add_mod, Nat.mod_eq_of_lt hy]
  · refine hplace (by omega : init.length * turns + y < _) (by omega) ?_
    rw [Nat.mul_add_mod, Nat.mod_eq_of_lt hy]

end Holds

/-! ## Reading on -/

def Reads (ring : List α) (y : ℕ) (w : List α) : Prop := ∀ i < w.length, ring[(y + i) % ring.length]? = w[i]?

section Reads

variable {init ring pre w u v : List α} {a : α} {y : ℕ}

theorem Reads.head (h : Reads ring y (a :: w)) (hy : y < ring.length) : ring[y]? = some a := by
  have h0 := h 0 (by simp)
  rwa [Nat.add_zero, Nat.mod_eq_of_lt hy] at h0

theorem Reads.tail (h : Reads ring y (a :: w)) : Reads ring ((y + 1) % ring.length) w := by
  intro i hi
  have hnext := h (i + 1) (by rw [List.length_cons]; omega)
  rw [List.getElem?_cons_succ] at hnext
  rw [← hnext, Nat.mod_add_mod, show y + 1 + i = y + (i + 1) by omega]

theorem Reads.cons (h : Reads ring ((y + 1) % ring.length) w) (hy : y < ring.length) (ha : ring[y]? = some a) :
    Reads ring y (a :: w) := by
  intro i hi
  cases i with
  | zero => rw [Nat.add_zero, Nat.mod_eq_of_lt hy, ha, List.getElem?_cons_zero]
  | succ i =>
    rw [List.length_cons] at hi
    rw [List.getElem?_cons_succ, ← h i (by omega), Nat.mod_add_mod, show y + 1 + i = y + (i + 1) by omega]

theorem reads_append : Reads ring y (u ++ v) ↔ Reads ring y u ∧ Reads ring ((y + u.length) % ring.length) v := by
  constructor
  · intro h
    refine ⟨fun i hi => ?_, fun i hi => ?_⟩
    · rw [h i (by rw [List.length_append]; omega), List.getElem?_append_left hi]
    · have hnext := h (u.length + i) (by rw [List.length_append]; omega)
      rw [List.getElem?_append_right (by omega), Nat.add_sub_cancel_left] at hnext
      rw [← hnext, Nat.mod_add_mod, Nat.add_assoc]
  · rintro ⟨hu, hv⟩ i hi
    by_cases hin : i < u.length
    · rw [hu i hin, List.getElem?_append_left hin]
    · rw [List.length_append] at hi
      have hrest := hv (i - u.length) (by omega)
      rw [Nat.mod_add_mod, show y + u.length + (i - u.length) = y + i by omega] at hrest
      rw [hrest, List.getElem?_append_right (by omega)]

/-- A value put behind those read, where there is room. -/
theorem Reads.snoc (h : Reads ring y w) (hroom : w.length < ring.length) (a : α) :
    Reads (ring.set ((y + w.length) % ring.length) a) y (w ++ [a]) := by
  intro i hi
  rw [List.length_append, List.length_singleton] at hi
  rw [List.length_set]
  by_cases hnew : i = w.length
  · rw [hnew, List.getElem?_set_self (Nat.mod_lt _ (by omega)), List.getElem?_concat_length]
  · rw [List.getElem?_set_ne (mod_ne (p := y + i) (by omega) (by omega)).symm, h i (by omega),
      List.getElem?_append_left (by omega)]

/-- A value put before those read, where there is room. -/
theorem Reads.push (h : Reads ring ((y + 1) % ring.length) w) (hy : y < ring.length) (hroom : w.length < ring.length)
    (a : α) : Reads (ring.set y a) y (a :: w) := by
  have hrest : Reads (ring.set y a) ((y + 1) % (ring.set y a).length) w := by
    intro i hi
    have hne : y % ring.length ≠ (y + 1 + i) % ring.length := mod_ne (by omega) (by omega)
    rw [Nat.mod_eq_of_lt hy] at hne
    rw [List.length_set, Nat.mod_add_mod, List.getElem?_set_ne hne, ← Nat.mod_add_mod, h i hi]
  exact hrest.cons (by rwa [List.length_set]) (List.getElem?_set_self hy)

/-- The last values put into a ring are read back, up to a second turn exactly if it has put the same again. -/
theorem Holds.reads_iff (h : Holds init ring (pre ++ w)) (hw : w.length ≤ 2 * init.length) :
    Reads ring (pre.length % init.length) w ↔ ∀ i, i + init.length < w.length → w[i]? = w[i + init.length]? := by
  have hat : ∀ i < w.length, w.length ≤ i + init.length →
      ring[(pre.length + i) % init.length]? = w[i]? := by
    intro i hi hle
    rw [h.written (pre.length + i) (by rw [List.length_append]; omega) (by rw [List.length_append]; omega),
      List.getElem?_append_right (by omega), Nat.add_sub_cancel_left]
  have hagain : ∀ i, i + init.length < w.length →
      ring[(pre.length + i) % init.length]? = w[i + init.length]? := by
    intro i hi
    rw [← hat (i + init.length) hi (by omega), ← Nat.add_assoc, Nat.add_mod_right]
  unfold Reads
  rw [h.length_eq]
  simp only [Nat.mod_add_mod]
  constructor
  · intro hr i hi
    rw [← hr i (by omega), hagain i hi]
  · intro hw' i hi
    by_cases hold : i + init.length < w.length
    · rw [hagain i hold, hw' i hold]
    · exact hat i hi (by omega)

end Reads

end Thronix.Lib.Ring
