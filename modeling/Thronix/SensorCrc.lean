import Thronix.Sensors
import Thronix.Lib.Crc

/-!
# Thronix.SensorCrc — corrupted readings of the SHT31

* `crcCheck_iff`: the register of `crcCheck` divides by `crcPoly`.
* `four_le_distance`: two words that it accepts differ in four bits or more.
* `corrupted_reading`: so a reading in which a word has one to three wrong bits is not used.
-/

open Polynomial

namespace Thronix

open Lib.Crc

/-! ## The register -/

section Register

variable (msb lsb crc : BitVec 8)

/-- The polynomial in the data sheet, `0x31` without its first term. -/
noncomputable def crcPoly : (ZMod 2)[X] := X ^ 8 + X ^ 5 + X ^ 4 + 1

theorem generator_eq : generator (0x31 : BitVec 8) = crcPoly := by
  have hfeedback : toPoly (0x31 : BitVec 8) = 1 + X ^ 4 + X ^ 5 := by
    simp [toPoly, Finset.sum_range_succ]
  rw [generator, hfeedback, crcPoly]
  ring

theorem crcRound_eq : crcRound = shift 0x31 := by
  have hmsb : ∀ c : BitVec 8, c &&& 0x80 ≠ 0 ↔ c.msb = true := by decide
  ext1 c
  rw [crcRound, shift]
  exact if_congr (hmsb c) rfl rfl

theorem toPoly_crcByte (c b : BitVec 8) : toPoly (crcByte c b) = (X ^ 8 * (toPoly c + toPoly b)) %ₘ crcPoly := by
  rw [crcByte, crcRound_eq, ← generator_eq]
  exact toPoly_absorb 0x31 c b

theorem monic_crcPoly : crcPoly.Monic := generator_eq ▸ monic_generator 0x31

/-- **`crcCheck` accepts the remainder**, of the two bytes with `0xFF` added to the first of them. -/
theorem crcCheck_iff : crcCheck msb lsb crc ↔
    toPoly crc = (X ^ 8 * toPoly (msb ++ lsb) + X ^ 16 * toPoly (0xFF : BitVec 8)) %ₘ crcPoly := by
  have hbytes : toPoly (crcByte (crcByte 0xFF msb) lsb) =
      (X ^ 8 * toPoly (msb ++ lsb) + X ^ 16 * toPoly (0xFF : BitVec 8)) %ₘ crcPoly := by
    rw [toPoly_crcByte, toPoly_crcByte, mul_add, add_modByMonic, mul_modByMonic_modByMonic monic_crcPoly,
      ← add_modByMonic, toPoly_append]
    ring_nf
  rw [crcCheck, beq_iff_eq, ← hbytes, toPoly_inj, eq_comm]

/-- What is accepted is a multiple of the polynomial, but for the initial value. -/
theorem dvd_of_crcCheck (h : crcCheck msb lsb crc) :
    crcPoly ∣ toPoly (sht31Word msb lsb crc) + X ^ 16 * toPoly (0xFF : BitVec 8) := by
  generalize hm : X ^ 8 * toPoly (msb ++ lsb) + X ^ 16 * toPoly (0xFF : BitVec 8) = m
  have hcrc : toPoly crc = m %ₘ crcPoly := hm ▸ (crcCheck_iff msb lsb crc).mp h
  have hword : toPoly (sht31Word msb lsb crc) + X ^ 16 * toPoly (0xFF : BitVec 8) = m + m %ₘ crcPoly := by
    rw [sht31Word, toPoly_append, hcrc, ← hm]
    ring
  rw [hword]
  refine ⟨m /ₘ crcPoly, ?_⟩
  nth_rewrite 1 [← modByMonic_add_div m crcPoly]
  rw [add_right_comm, CharTwo.add_self_eq_zero, zero_add]

end Register

/-! ## Distance -/

section Distance

variable {msb lsb crc msb' lsb' crc' : BitVec 8}

/-- The order of the polynomial is more than the length of a word. -/
theorem not_dvd_X_pow_add_one {k : ℕ} (hk : 0 < k) (hk' : k < 24) : ¬crcPoly ∣ X ^ k + 1 := by
  intro hdvd
  have horder : ∀ k < 24, 0 < k → crcRound^[k] 1 ≠ 1 := by decide
  have hone : toPoly (1 : BitVec 8) = 1 := by
    simp [toPoly]
  apply horder k hk' hk
  rw [← toPoly_inj, crcRound_eq, toPoly_iterate_shift, generator_eq, hone, mul_one]
  have hsame : X ^ k %ₘ crcPoly = 1 %ₘ crcPoly := by
    refine modByMonic_eq_of_dvd_sub monic_crcPoly ?_
    rwa [CharTwo.sub_eq_add]
  rw [hsame, (modByMonic_eq_self_iff monic_crcPoly).mpr]
  rw [← generator_eq, degree_generator, degree_one]
  decide

theorem four_le_distance (h : crcCheck msb lsb crc) (h' : crcCheck msb' lsb' crc')
    (hne : sht31Word msb lsb crc ≠ sht31Word msb' lsb' crc') :
    4 ≤ distance (sht31Word msb lsb crc) (sht31Word msb' lsb' crc') := by
  generalize hw : sht31Word msb lsb crc = w at hne
  generalize hw' : sht31Word msb' lsb' crc' = w' at hne
  have hmul : crcPoly ∣ toPoly (w ^^^ w') := by
    have hsum := dvd_add (dvd_of_crcCheck msb lsb crc h) (dvd_of_crcCheck msb' lsb' crc' h')
    rwa [hw, hw', add_add_add_comm, CharTwo.add_self_eq_zero, add_zero, ← toPoly_xor] at hsum
  have hnonzero : toPoly (w ^^^ w') ≠ 0 := by
    intro hzero
    apply hne
    rw [toPoly_xor, CharTwo.add_eq_zero] at hzero
    exact toPoly_inj.mp hzero
  have hparity : crcPoly.eval 1 = 0 := by
    simp only [crcPoly, eval_add, eval_pow, eval_X, eval_one]
    decide
  have hconstant : crcPoly.coeff 0 ≠ 0 := by
    simp [crcPoly]
  rw [← card_support_toPoly_xor]
  exact four_le_card_support hparity hconstant (fun k hk hk' => not_dvd_X_pow_add_one hk hk')
    (degree_toPoly_lt _) hnonzero hmul

end Distance

/-! ## Readings -/

/-- One to three bits of a word are wrong. -/
def Sht31.Corrupted (x x' : Sht31) : Prop :=
  distance x.temperatureWord x'.temperatureWord ∈ Set.Icc 1 3 ∨ distance x.humidityWord x'.humidityWord ∈ Set.Icc 1 3

/-- Neither word of a valid answer is accepted with one to three wrong bits. -/
theorem valid_of_corrupted {x x' : Sht31} (hx : x.valid) (hc : x.Corrupted x') : x'.valid = false := by
  have hfar : ∀ {a b c a' b' c' : BitVec 8}, crcCheck a b c → crcCheck a' b' c' →
      distance (sht31Word a b c) (sht31Word a' b' c') ∉ Set.Icc 1 3 := by
    intro a b c a' b' c' h h' hnear
    by_cases heq : sht31Word a b c = sht31Word a' b' c'
    · rw [heq, distance_self] at hnear
      exact absurd hnear.1 (by decide)
    · have := four_le_distance h h' heq
      have := hnear.2
      omega
  rw [Sht31.valid, Bool.and_eq_true] at hx
  by_contra hv
  rw [Bool.not_eq_false, Sht31.valid, Bool.and_eq_true] at hv
  rcases hc with hc | hc
  · exact hfar hx.1 hv.1 hc
  · exact hfar hx.2 hv.2 hc

/-- **A corrupted reading is rejected** and changes nothing. -/
theorem corrupted_reading :
    (∀ msb lsb crc : BitVec 8, crcCheck msb lsb crc ↔
      toPoly crc = (X ^ 8 * toPoly (msb ++ lsb) + X ^ 16 * toPoly (0xFF : BitVec 8)) %ₘ (X ^ 8 + X ^ 5 + X ^ 4 + 1)) ∧
    (∀ msb lsb crc msb' lsb' crc' : BitVec 8, crcCheck msb lsb crc → crcCheck msb' lsb' crc' →
      sht31Word msb lsb crc ≠ sht31Word msb' lsb' crc' →
        4 ≤ distance (sht31Word msb lsb crc) (sht31Word msb' lsb' crc')) ∧
    ∀ (x x' : Sht31) (out : Sht31Data), x.valid → x.Corrupted x' → getTemperature x' out = (.failure, out) :=
  ⟨crcCheck_iff, fun _ _ _ _ _ _ h h' hne => four_le_distance h h' hne,
    fun _ _ out hx hc => getTemperature_invalid (valid_of_corrupted hx hc) out⟩

/-- Three wrong bits in the humidity, all in its check, and a temperature as it was. -/
theorem corrupted_reading_check :
    getTemperature ⟨.success, .success, ![0xBE, 0xEF, 0x92, 0xBE, 0xEF, 0x95]⟩ ⟨0, 0⟩ = (.failure, ⟨0, 0⟩) :=
  corrupted_reading.2.2 ⟨.success, .success, ![0xBE, 0xEF, 0x92, 0xBE, 0xEF, 0x92]⟩ _ _ (by decide +kernel)
    (.inr (by decide +kernel))

end Thronix
