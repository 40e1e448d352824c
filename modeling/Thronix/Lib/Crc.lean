import Mathlib.Algebra.Polynomial.Div
import Mathlib.Algebra.Polynomial.EraseLead
import Mathlib.Algebra.Polynomial.FieldDivision
import Mathlib.Algebra.Field.ZMod
import Mathlib.InformationTheory.Hamming

/-!
# Thronix.Lib.Crc — cyclic redundancy checks

Bit vectors as polynomials over two elements, and the shift register that divides by one of them.

* `toPoly`: bit `i` is the coefficient of `X ^ i`; exclusive or is the sum.
* `shift g`, `generator g`: a step of the register with feedback `g` is multiplication by `X`, modulo `X ^ n` and what is
  fed back (`toPoly_shift`, `toPoly_absorb`).
* `four_le_card_support`: a multiple of a generator has at least four terms, if its degree is less than the order of the
  generator and the generator has the parity factor `X + 1`.
-/

open Polynomial

namespace Thronix.Lib.Crc

/-! ## Bit vectors as polynomials -/

section ToPoly

variable {m n : ℕ}

noncomputable def toPoly (b : BitVec n) : (ZMod 2)[X] := ∑ i ∈ Finset.range n, if b.getLsbD i then X ^ i else 0

theorem coeff_toPoly (b : BitVec n) (i : ℕ) : (toPoly b).coeff i = if b.getLsbD i then 1 else 0 := by
  have hterm : ∀ j, (if b.getLsbD j then (X : (ZMod 2)[X]) ^ j else 0).coeff i =
      if i = j then if b.getLsbD i then 1 else 0 else 0 := by
    intro j
    by_cases hij : i = j
    · subst hij
      by_cases hb : b.getLsbD i <;> simp [hb]
    · rw [if_neg hij]
      by_cases hb : b.getLsbD j
      · rw [if_pos hb, coeff_X_pow, if_neg hij]
      · rw [if_neg hb, coeff_zero]
  rw [toPoly, finsetSum_coeff, Finset.sum_congr rfl fun j _ => hterm j, Finset.sum_ite_eq]
  by_cases hi : i < n
  · rw [if_pos (Finset.mem_range.mpr hi)]
  · rw [if_neg (by simpa using hi), BitVec.getLsbD_of_ge b i (not_lt.mp hi)]
    rfl

theorem toPoly_inj {a b : BitVec n} : toPoly a = toPoly b ↔ a = b := by
  refine ⟨fun h => BitVec.eq_of_getLsbD_eq fun i _ => ?_, congrArg toPoly⟩
  have hi := congrArg (coeff · i) h
  simp only [coeff_toPoly] at hi
  rcases ha : a.getLsbD i with _ | _ <;> rcases hb : b.getLsbD i with _ | _ <;> simp_all

theorem degree_toPoly_lt (b : BitVec n) : (toPoly b).degree < n := by
  rw [degree_lt_iff_coeff_zero]
  intro i hi
  rw [coeff_toPoly, BitVec.getLsbD_of_ge b i hi]
  rfl

theorem toPoly_xor (a b : BitVec n) : toPoly (a ^^^ b) = toPoly a + toPoly b := by
  ext i
  rw [coeff_add, coeff_toPoly, coeff_toPoly, coeff_toPoly, BitVec.getLsbD_xor]
  rcases a.getLsbD i with _ | _ <;> rcases b.getLsbD i with _ | _ <;> decide

theorem toPoly_append (a : BitVec m) (b : BitVec n) : toPoly (a ++ b) = X ^ n * toPoly a + toPoly b := by
  ext i
  rw [coeff_add, coeff_X_pow_mul', coeff_toPoly, coeff_toPoly b, BitVec.getLsbD_append]
  by_cases hi : i < n
  · rw [if_pos hi, if_neg (not_le.mpr hi), zero_add]
  · rw [if_neg hi, if_pos (not_lt.mp hi), coeff_toPoly, BitVec.getLsbD_of_ge b i (not_lt.mp hi)]
    simp

/-- The number of bits in which two vectors differ. -/
def distance (a b : BitVec n) : ℕ := hammingDist (fun i : Fin n => a.getLsbD i) fun i : Fin n => b.getLsbD i

@[simp] theorem distance_self (a : BitVec n) : distance a a = 0 := hammingDist_self _

/-- They are the terms of the difference. -/
theorem card_support_toPoly_xor (a b : BitVec n) : (toPoly (a ^^^ b)).support.card = distance a b := by
  have hsupport : (toPoly (a ^^^ b)).support =
      (Finset.univ.filter fun i : Fin n => a.getLsbD i ≠ b.getLsbD i).map Fin.valEmbedding := by
    ext i
    have hmem : i ∈ (toPoly (a ^^^ b)).support ↔ a.getLsbD i ≠ b.getLsbD i := by
      rw [mem_support_iff, coeff_toPoly, BitVec.getLsbD_xor]
      rcases a.getLsbD i with _ | _ <;> rcases b.getLsbD i with _ | _ <;> decide
    rw [hmem, Finset.mem_map]
    constructor
    · intro hne
      have hi : i < n := by
        by_contra hge
        rw [BitVec.getLsbD_of_ge a i (not_lt.mp hge), BitVec.getLsbD_of_ge b i (not_lt.mp hge)] at hne
        exact hne rfl
      exact ⟨⟨i, hi⟩, Finset.mem_filter.mpr ⟨Finset.mem_univ _, hne⟩, rfl⟩
    · rintro ⟨j, hj, rfl⟩
      exact (Finset.mem_filter.mp hj).2
  rw [hsupport, Finset.card_map]
  rfl

end ToPoly

/-! ## The register -/

section Register

variable {n : ℕ} (g : BitVec n)

/-- One step: a bit that is shifted out feeds `g` back. -/
def shift (c : BitVec n) : BitVec n := if c.msb then (c <<< 1) ^^^ g else c <<< 1

/-- `n` bits more. -/
def absorb (c b : BitVec n) : BitVec n := (shift g)^[n] (c ^^^ b)

noncomputable def generator : (ZMod 2)[X] := X ^ n + toPoly g

theorem monic_generator : (generator g).Monic := monic_X_pow_add (degree_toPoly_lt g)

theorem degree_generator : (generator g).degree = n := by
  rw [generator, degree_add_eq_left_of_degree_lt]
  · exact degree_X_pow n
  · rw [degree_X_pow]
    exact degree_toPoly_lt g

/-- A shift loses the last bit. -/
theorem X_mul_toPoly (c : BitVec n) : X * toPoly c = toPoly (c <<< 1) + if c.msb then X ^ n else 0 := by
  ext i
  have hout : (if c.msb then (X : (ZMod 2)[X]) ^ n else 0).coeff i =
      if c.getLsbD (n - 1) then if i = n then 1 else 0 else 0 := by
    rw [BitVec.msb_eq_getLsbD_last]
    by_cases hb : c.getLsbD (n - 1)
    · rw [if_pos hb, if_pos hb, coeff_X_pow]
    · rw [if_neg hb, if_neg hb, coeff_zero]
  rw [coeff_add, hout, coeff_toPoly, BitVec.getLsbD_shiftLeft]
  rcases i with _ | i
  · rw [coeff_X_mul_zero]
    rcases n with _ | n
    · simp
    · simp
  · rw [coeff_X_mul, coeff_toPoly, Nat.add_sub_cancel]
    rcases Nat.lt_trichotomy (i + 1) n with hlt | heq | hgt
    · simp [hlt, hlt.ne]
    · subst heq
      simp
    · have hge : c.getLsbD i = false := BitVec.getLsbD_of_ge c i (by omega)
      simp [hge, hgt.ne']

/-- **A step multiplies by `X`**, modulo the generator. -/
theorem toPoly_shift (c : BitVec n) : toPoly (shift g c) = (X * toPoly c) %ₘ generator g := by
  have hdegree : (toPoly (shift g c)).degree < (generator g).degree := by
    rw [degree_generator]
    exact degree_toPoly_lt _
  refine (div_modByMonic_unique (if c.msb then 1 else 0) (toPoly (shift g c)) (monic_generator g) ⟨?_, hdegree⟩).2.symm
  rw [X_mul_toPoly, shift]
  by_cases hmsb : c.msb
  · -- what is fed back twice is gone
    have htwice : toPoly g + toPoly g = 0 := CharTwo.add_self_eq_zero _
    rw [if_pos hmsb, if_pos hmsb, if_pos hmsb, toPoly_xor, generator, mul_one]
    calc toPoly (c <<< 1) + toPoly g + (X ^ n + toPoly g)
        = toPoly (c <<< 1) + X ^ n + (toPoly g + toPoly g) := by ring
      _ = toPoly (c <<< 1) + X ^ n := by rw [htwice, add_zero]
  · rw [if_neg hmsb, if_neg hmsb, if_neg hmsb, mul_zero]

theorem mul_modByMonic_modByMonic {p q r : (ZMod 2)[X]} (hr : r.Monic) : (p * (q %ₘ r)) %ₘ r = (p * q) %ₘ r := by
  refine modByMonic_eq_of_dvd_sub hr ⟨-(p * (q /ₘ r)), ?_⟩
  nth_rewrite 2 [← modByMonic_add_div q r]
  ring

theorem toPoly_iterate_shift (k : ℕ) (c : BitVec n) :
    toPoly ((shift g)^[k] c) = (X ^ k * toPoly c) %ₘ generator g := by
  induction k with
  | zero =>
    rw [pow_zero, one_mul, (modByMonic_eq_self_iff (monic_generator g)).mpr]
    · rfl
    · rw [degree_generator]
      exact degree_toPoly_lt c
  | succ k ih =>
    rw [Function.iterate_succ_apply', toPoly_shift, ih, mul_modByMonic_modByMonic (monic_generator g), pow_succ']
    ring_nf

theorem toPoly_absorb (c b : BitVec n) :
    toPoly (absorb g c b) = (X ^ n * (toPoly c + toPoly b)) %ₘ generator g := by
  rw [absorb, toPoly_iterate_shift, toPoly_xor]

end Register

/-! ## Distance -/

section Distance

variable {n : ℕ} {g p : (ZMod 2)[X]}

theorem eq_one_of_ne_zero {x : ZMod 2} (hx : x ≠ 0) : x = 1 := Fin.eq_one_of_ne_zero x hx

theorem natCast_card_support (p : (ZMod 2)[X]) : (p.support.card : ZMod 2) = p.eval 1 := by
  have hone : ∀ i ∈ p.support, p.coeff i * 1 ^ i = 1 := by
    intro i hi
    rw [one_pow, mul_one]
    exact eq_one_of_ne_zero (mem_support_iff.mp hi)
  rw [eval_eq_sum, Polynomial.sum, Finset.sum_congr rfl hone, Finset.sum_const, nsmul_eq_mul, mul_one]

/-- Parity: a multiple of `X + 1` has an even number of terms. -/
theorem even_card_support (hg : g.eval 1 = 0) (h : g ∣ p) : Even p.support.card := by
  obtain ⟨q, rfl⟩ := h
  rw [← ZMod.natCast_eq_zero_iff_even, natCast_card_support, eval_mul, hg, zero_mul]

/-- Two terms only: up to a power of `X` such a multiple is `X ^ k + 1`. -/
theorem card_support_ne_two (hX : g.coeff 0 ≠ 0) (horder : ∀ k, 0 < k → k < n → ¬g ∣ X ^ k + 1) (hd : p.degree < n)
    (h : g ∣ p) : p.support.card ≠ 2 := by
  intro htwo
  obtain ⟨i, j, hij, x, y, hx, hy, rfl⟩ := card_support_eq_two.mp htwo
  have hj : j < n := by
    by_contra hge
    have hzero := (degree_lt_iff_coeff_zero _ n).mp hd j (not_lt.mp hge)
    rw [coeff_add, coeff_C_mul_X_pow, coeff_C_mul_X_pow, if_neg hij.ne', if_pos rfl, zero_add] at hzero
    exact hy hzero
  have hfactor : C x * X ^ i + C y * X ^ j = X ^ i * (X ^ (j - i) + 1) := by
    have hpow : (X : (ZMod 2)[X]) ^ j = X ^ i * X ^ (j - i) := by
      rw [← pow_add, Nat.add_sub_cancel' hij.le]
    rw [eq_one_of_ne_zero hx, eq_one_of_ne_zero hy, hpow, C_1]
    ring
  have hcoprime : IsCoprime g (X ^ i) := by
    have hnot : ¬(X : (ZMod 2)[X]) ∣ g := fun hdvd => hX (X_dvd_iff.mp hdvd)
    have hirreducible : Irreducible (X : (ZMod 2)[X]) := irreducible_X
    exact (hirreducible.coprime_iff_not_dvd.mpr hnot).symm.pow_right
  rw [hfactor] at h
  exact horder (j - i) (by omega) (by omega) (hcoprime.dvd_of_dvd_mul_left h)

/-- **Minimum distance four.** -/
theorem four_le_card_support (hg : g.eval 1 = 0) (hX : g.coeff 0 ≠ 0)
    (horder : ∀ k, 0 < k → k < n → ¬g ∣ X ^ k + 1) (hd : p.degree < n) (hp : p ≠ 0) (h : g ∣ p) :
    4 ≤ p.support.card := by
  have hpos : p.support.card ≠ 0 := by
    rw [Ne, Finset.card_eq_zero, support_eq_empty]
    exact hp
  have htwo := card_support_ne_two hX horder hd h
  obtain ⟨k, hk⟩ := even_card_support hg h
  omega

end Distance

end Thronix.Lib.Crc
