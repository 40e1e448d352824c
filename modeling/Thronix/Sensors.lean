import Thronix.Stores
import Mathlib.Data.Fin.VecNotation
import Mathlib.Data.Rat.Cast.Order
import Mathlib.Tactic.Linarith
import Mathlib.Tactic.NormNum
import Mathlib.Tactic.Positivity

/-!
# Thronix.Sensors — the sensors and the `SENSORS_REPORT` step

`temperatureSensor.c`, `moistureSensor.c`, and what `ConnectWiFI` does with a `SENSORS_REPORT`.  `float` arithmetic is
rational arithmetic.

* `Sht31`, `Adc`: one answer of each sensor, failures included.  The six bytes of `readData` are arbitrary.
* `SensorsData.acquire`: the local `sensorsData_` after both calls.  It starts uninitialised, and the return codes of
  the calls are not looked at.
* `sensorsReport`: the kernel and client calls of the step, in order.
* `setWater_mem_sensorsReport`: when the step starts a watering.
-/

namespace Thronix

/-! ## SHT31 -/

/-- One exchange with the SHT31: the results of `I2C_IF_Write` and `I2C_IF_Read`, and the buffer after both. -/
structure Sht31 where
  write : Status
  read : Status
  readData : Fin 6 → BitVec 8

/-- One round of the loops of `crcCheck`. -/
def crcRound (crc : BitVec 8) : BitVec 8 :=
  if crc &&& 0x80 ≠ 0 then (crc <<< 1) ^^^ 0x31 else crc <<< 1

/-- A byte: `crc ^= byte` and eight rounds. -/
def crcByte (crc byte : BitVec 8) : BitVec 8 := crcRound^[8] (crc ^^^ byte)

def crcCheck (msb lsb crc : BitVec 8) : Bool := crcByte (crcByte 0xFF msb) lsb == crc

structure Sht31Data where
  temperature : ℚ
  humidity : ℚ
  deriving DecidableEq, Repr

/-- `(int)(msb << 8) | lsb`. -/
def rawWord (msb lsb : BitVec 8) : ℕ := msb.toNat <<< 8 ||| lsb.toNat

/-- A word on the bus: two bytes and their check. -/
def sht31Word (msb lsb crc : BitVec 8) : BitVec 24 := msb ++ lsb ++ crc

def Sht31.temperatureWord (x : Sht31) : BitVec 24 := sht31Word (x.readData 0) (x.readData 1) (x.readData 2)

def Sht31.humidityWord (x : Sht31) : BitVec 24 := sht31Word (x.readData 3) (x.readData 4) (x.readData 5)

/-- Both words of an answer pass their check. -/
def Sht31.valid (x : Sht31) : Bool :=
  crcCheck (x.readData 0) (x.readData 1) (x.readData 2) && crcCheck (x.readData 3) (x.readData 4) (x.readData 5)

/-- `getTemperature`: its result and `*temperature`, `*humidity`, which are `out` before the call. -/
def getTemperature (x : Sht31) (out : Sht31Data) : Status × Sht31Data :=
  if x.valid then
    let temp := rawWord (x.readData 0) (x.readData 1)
    let hum := rawWord (x.readData 3) (x.readData 4)
    (.success, ⟨(temp : ℚ) / 65535 * 175 - 45, (hum : ℚ) / 65535 * 100⟩)
  else (.failure, out)

theorem getTemperature_invalid {x : Sht31} (hx : x.valid = false) (out : Sht31Data) :
    getTemperature x out = (.failure, out) := by
  simp [getTemperature, hx]

/-- The ADC: what `ADCFIFOLvlGet` and `ADCFIFORead` return. -/
structure Adc where
  level : BitVec 32
  sample : BitVec 32
  deriving DecidableEq, Repr

/-- `ulSample` after the mask and the shift. -/
def Adc.ulSample (a : Adc) : BitVec 32 :=
  ((if a.level ≠ 0 then a.sample else 0) &&& 0x3FFF) >>> 2

/-- `analogReadMoisture`: its result and `*moisture`. -/
def analogReadMoisture (a : Adc) : Status × ℚ :=
  let moisture : ℚ := a.ulSample.toNat * (1467 / 1000 / 4096)
  if moisture < 0 ∨ moisture > 3 / 2 then (.failure, moisture)
  else (.success, 10 + moisture * 100)

theorem ulSample_lt (a : Adc) : a.ulSample.toNat < 4096 := by
  have h : (((if a.level ≠ 0 then a.sample else 0) &&& 0x3FFF : BitVec 32)).toNat < 2 ^ 14 := by
    rw [BitVec.toNat_and]
    exact Nat.and_lt_two_pow _ (by decide)
  rw [Adc.ulSample, BitVec.toNat_ushiftRight, Nat.shiftRight_eq_div_pow]
  omega

/-- Twelve bits never reach 1.5 V, so the read never fails. -/
theorem analogReadMoisture_eq (a : Adc) :
    analogReadMoisture a = (.success, 10 + (a.ulSample.toNat : ℚ) * (1467 / 1000 / 4096) * 100) := by
  have hlt : (a.ulSample.toNat : ℚ) < 4096 := by exact_mod_cast ulSample_lt a
  have h0 : (0 : ℚ) ≤ a.ulSample.toNat := Nat.cast_nonneg _
  have hrange : ¬((a.ulSample.toNat : ℚ) * (1467 / 1000 / 4096) < 0 ∨
      (a.ulSample.toNat : ℚ) * (1467 / 1000 / 4096) > 3 / 2) := by
    rintro (h | h)
    · linarith [mul_nonneg h0 (by norm_num : (0 : ℚ) ≤ 1467 / 1000 / 4096)]
    · linarith
  simp only [analogReadMoisture, if_neg hrange]

/-- The moisture is at least ten, also when the FIFO was empty. -/
theorem ten_le_moisture (a : Adc) : 10 ≤ (analogReadMoisture a).2 := by
  rw [analogReadMoisture_eq]
  have h : (0 : ℚ) ≤ (a.ulSample.toNat : ℚ) * (1467 / 1000 / 4096) * 100 := by positivity
  show (10 : ℚ) ≤ 10 + (a.ulSample.toNat : ℚ) * (1467 / 1000 / 4096) * 100
  linarith

/-! ## The report -/

structure SensorsData where
  sht31Data : Sht31Data
  moisture : ℚ
  deriving DecidableEq, Repr

/-- `sensorsData_` after `getTemperature` and `analogReadMoisture`; `stale` is what the stack held before. -/
def SensorsData.acquire (stale : SensorsData) (x : Sht31) (a : Adc) : SensorsData :=
  ⟨(getTemperature x stale.sht31Data).2, (analogReadMoisture a).2⟩

/-- The condition of the automatic watering. -/
def waterNeeded (th : SystemThresholds) (d : SensorsData) : Bool :=
  decide ((th.temperature.toNat : ℚ) ≥ d.sht31Data.temperature) && decide ((th.moisture.toNat : ℚ) ≥ d.moisture)

/-- What the station reports. -/
inductive Report
  | sensors (d : SensorsData)
  | waterLevel (v : ℚ)
  deriving DecidableEq, Repr

/-- A message handed to `sl_ExtLib_MqttClientSend`: the reported values, under `data` for Losant. -/
structure Publication where
  topic : String
  underData : Bool
  report : Report
  qos : ℕ
  retain : ℕ
  deriving DecidableEq, Repr

/-- The two publications of a report, in order. -/
def publications (r : Report) : List Publication :=
  [⟨"/cc3200/Station1", false, r, 2, 1⟩, ⟨"losant/5d8236ee68f6a70006d4a026/state", true, r, 0, 0⟩]

/-- A call of the `SENSORS_REPORT` step. -/
inductive ReportCall
  | setWater
  | send (p : Publication)
  deriving DecidableEq, Repr

/-- `systemThresholds_` before the peek. -/
def noThresholds : SystemThresholds := ⟨0, 0⟩

/-- The `SENSORS_REPORT` branch of `ConnectWiFI`. -/
def sensorsReport (stale : SensorsData) (x : Sht31) (a : Adc) (thresholdsQueue : Queue1 SystemThresholds) :
    List ReportCall :=
  let d := stale.acquire x a
  let th := thresholdsQueue.xQueuePeek noThresholds
  (if waterNeeded th d then [.setWater] else []) ++ (publications (.sensors d)).map .send

section Report

variable (stale : SensorsData) (x : Sht31) (a : Adc) (q : Queue1 SystemThresholds)

theorem waterNeeded_iff (th : SystemThresholds) (d : SensorsData) :
    waterNeeded th d ↔ d.sht31Data.temperature ≤ th.temperature.toNat ∧ d.moisture ≤ th.moisture.toNat := by
  simp [waterNeeded]

/-- The step starts a watering when neither value is above its threshold. -/
theorem setWater_mem_sensorsReport : .setWater ∈ sensorsReport stale x a q ↔
    (stale.acquire x a).sht31Data.temperature ≤ (q.xQueuePeek noThresholds).temperature.toNat ∧
      (stale.acquire x a).moisture ≤ (q.xQueuePeek noThresholds).moisture.toNat := by
  rw [← waterNeeded_iff]
  by_cases h : waterNeeded (q.xQueuePeek noThresholds) (stale.acquire x a)
  · simp [sensorsReport, h]
  · simp [sensorsReport, h, publications]

/-- The step publishes what it holds, whatever the acquisition did. -/
theorem send_mem_sensorsReport {p : Publication} (hp : p ∈ publications (.sensors (stale.acquire x a))) :
    .send p ∈ sensorsReport stale x a q :=
  List.mem_append_right _ (List.mem_map_of_mem hp)

end Report

/-! ## The documented rule

The warning of the GUI: "The watering will be activated if the temperature rises above the threshold and the moisture
is under the threshold." -/

/-- The rule of the warning. -/
def WarningRule (th : SystemThresholds) (temperature moisture : ℚ) : Prop :=
  th.temperature.toNat < temperature ∧ moisture < th.moisture.toNat

/-- With everything else equal, an answer at least as warm over soil at least as dry starts a watering too. -/
def StaysPositive (stale : SensorsData) (x : Sht31) (a : Adc) (q : Queue1 SystemThresholds) : Prop :=
  ∀ (x' : Sht31) (a' : Adc), x'.valid →
    (stale.acquire x a).sht31Data.temperature ≤ (stale.acquire x' a').sht31Data.temperature →
    (stale.acquire x' a').moisture ≤ (stale.acquire x a).moisture →
    .setWater ∈ sensorsReport stale x a q → .setWater ∈ sensorsReport stale x' a' q

section Rule

variable {stale : SensorsData} {x : Sht31} {a : Adc} {q : Queue1 SystemThresholds} {T H M : ℚ}

theorem acquire_eq (hT : getTemperature x stale.sht31Data = (.success, ⟨T, H⟩))
    (hM : analogReadMoisture a = (.success, M)) : stale.acquire x a = ⟨⟨T, H⟩, M⟩ := by
  simp [SensorsData.acquire, hT, hM]

/-- **The automatic watering against its documentation.**  For values that were read, the step follows the rule of the
warning exactly where the soil is wetter than its threshold, or as wet and the temperature above its threshold: nowhere
that either of them waters. -/
theorem followsWarning_iff (hT : getTemperature x stale.sht31Data = (.success, ⟨T, H⟩))
    (hM : analogReadMoisture a = (.success, M)) :
    ((.setWater ∈ sensorsReport stale x a q ↔ WarningRule (q.xQueuePeek noThresholds) T M) ∧
        StaysPositive stale x a q) ↔
      ((q.xQueuePeek noThresholds).moisture.toNat < M ∨
        M = (q.xQueuePeek noThresholds).moisture.toNat ∧ (q.xQueuePeek noThresholds).temperature.toNat < T) := by
  have hset := setWater_mem_sensorsReport stale x a q
  rw [acquire_eq hT hM] at hset
  unfold WarningRule
  generalize ((q.xQueuePeek noThresholds).temperature.toNat : ℚ) = tT at *
  generalize ((q.xQueuePeek noThresholds).moisture.toNat : ℚ) = tM at *
  constructor
  · rintro ⟨hrule, -⟩
    by_contra hcon
    obtain ⟨hnot, heq⟩ := not_or.mp hcon
    have hle : M ≤ tM := not_lt.mp hnot
    rcases le_or_gt T tT with hlow | hhigh
    · -- both values low: the code waters, the rule does not ask for it
      exact absurd (hrule.mp (hset.mpr ⟨hlow, hle⟩)).1 (not_lt.mpr hlow)
    · -- warm and dry: the rule asks for it, the code does not water
      have hlt : M < tM := lt_of_le_of_ne hle fun h => heq ⟨h, hhigh⟩
      exact absurd (hset.mp (hrule.mpr ⟨hhigh, hlt⟩)).1 (not_le.mpr hhigh)
  · intro hcond
    have hoff : .setWater ∉ sensorsReport stale x a q := by
      rw [hset]
      rintro ⟨h1, h2⟩
      rcases hcond with h | ⟨-, h⟩
      · exact absurd h2 (not_le.mpr h)
      · exact absurd h1 (not_le.mpr h)
    refine ⟨⟨fun h => absurd h hoff, ?_⟩, fun _ _ _ _ _ h => absurd h hoff⟩
    rintro ⟨-, h2⟩
    rcases hcond with h | ⟨h, -⟩
    · exact absurd h2 (not_lt.mpr h.le)
    · exact absurd h2 (by rw [h]; exact lt_irrefl _)

end Rule

/-- An answer of 130 degrees and 100 percent. -/
def hottest : Sht31 := ⟨.success, .success, ![0xFF, 0xFF, 0xAC, 0xFF, 0xFF, 0xAC]⟩

/-- A sample of zero. -/
def driest : Adc := ⟨1, 0⟩

/-- Thresholds of 20 degrees and 50 percent. -/
def twentyFifty : Queue1 SystemThresholds := ⟨some ⟨20#8, 50#8⟩⟩

theorem hottest_getTemperature (out : Sht31Data) : getTemperature hottest out = (.success, ⟨130, 100⟩) := by
  have hv : hottest.valid = true := by decide +kernel
  have hT : rawWord (hottest.readData 0) (hottest.readData 1) = 65535 := by decide +kernel
  have hH : rawWord (hottest.readData 3) (hottest.readData 4) = 65535 := by decide +kernel
  simp only [getTemperature, hv, if_true, hT, hH]
  norm_num

theorem driest_analogReadMoisture : analogReadMoisture driest = (.success, 10) := by
  have hs : driest.ulSample.toNat = 0 := by decide
  rw [analogReadMoisture_eq, hs]
  norm_num

theorem followsWarning_iff_hottest :
    ((.setWater ∈ sensorsReport ⟨⟨0, 0⟩, 0⟩ hottest driest twentyFifty ↔
          WarningRule (twentyFifty.xQueuePeek noThresholds) 130 10) ∧
        StaysPositive ⟨⟨0, 0⟩, 0⟩ hottest driest twentyFifty) ↔
      (((50#8).toNat : ℚ) < 10 ∨ (10 : ℚ) = (50#8).toNat ∧ ((20#8).toNat : ℚ) < 130) :=
  followsWarning_iff (hottest_getTemperature _) driest_analogReadMoisture

/-- Hot air over dry soil: the rule asks for water and the step starts none. -/
theorem hottest_driest_not_watered :
    ¬∀ (stale : SensorsData) (x : Sht31) (a : Adc) (q : Queue1 SystemThresholds) (T H M : ℚ),
      getTemperature x stale.sht31Data = (.success, ⟨T, H⟩) → analogReadMoisture a = (.success, M) →
      ((.setWater ∈ sensorsReport stale x a q ↔ WarningRule (q.xQueuePeek noThresholds) T M) ∧
        StaysPositive stale x a q) := by
  intro h
  obtain ⟨hrule, -⟩ := h ⟨⟨0, 0⟩, 0⟩ hottest driest twentyFifty 130 100 10 (hottest_getTemperature _)
    driest_analogReadMoisture
  have ht : (((twentyFifty.xQueuePeek noThresholds).temperature.toNat : ℕ) : ℚ) = 20 := rfl
  have hm : (((twentyFifty.xQueuePeek noThresholds).moisture.toNat : ℕ) : ℚ) = 50 := rfl
  have hon : .setWater ∈ sensorsReport ⟨⟨0, 0⟩, 0⟩ hottest driest twentyFifty := by
    refine hrule.mpr ⟨?_, ?_⟩
    · rw [ht]
      norm_num
    · rw [hm]
      norm_num
  rw [setWater_mem_sensorsReport, acquire_eq (hottest_getTemperature _) driest_analogReadMoisture, ht] at hon
  exact absurd hon.1 (by norm_num)

/-! ## Failed acquisitions -/

/-- The exchange failed, a word failed its check, or the FIFO was empty. -/
def Failed (x : Sht31) (a : Adc) : Prop :=
  x.write = .failure ∨ x.read = .failure ∨ x.valid = false ∨ a.level = 0

/-- The step neither starts a watering nor publishes. -/
def NoEffect (calls : List ReportCall) : Prop := .setWater ∉ calls ∧ ∀ p, .send p ∉ calls

section Failures

variable (stale : SensorsData) (x : Sht31) (a : Adc) (q : Queue1 SystemThresholds)

theorem not_noEffect_sensorsReport : ¬NoEffect (sensorsReport stale x a q) := by
  rintro ⟨-, h⟩
  exact h _ (send_mem_sensorsReport stale x a q List.mem_cons_self)

/-- **Failed acquisitions.**  "A failed acquisition has no effect" holds of a step exactly when its acquisition did not
fail: no step of a failed one is without effect.  Of the flag alone it holds also where a value that the step holds,
received or not, is above its threshold. -/
theorem failed_noEffect_iff :
    ((Failed x a → NoEffect (sensorsReport stale x a q)) ↔ ¬Failed x a) ∧
    ((Failed x a → .setWater ∉ sensorsReport stale x a q) ↔ ¬Failed x a ∨
      (q.xQueuePeek noThresholds).temperature.toNat < (stale.acquire x a).sht31Data.temperature ∨
      (q.xQueuePeek noThresholds).moisture.toNat < (stale.acquire x a).moisture) := by
  refine ⟨⟨fun h hf => not_noEffect_sensorsReport stale x a q (h hf), fun h hf => absurd hf h⟩, ?_⟩
  rw [setWater_mem_sensorsReport, imp_iff_not_or, not_and_or, not_le, not_le]

end Failures

/-- Nothing received: the write and the read failed, the buffer holds an older answer and the FIFO is empty. -/
def nothingReceived : Sht31 × Adc := (⟨.failure, .failure, hottest.readData⟩, ⟨0, 0⟩)

/-- The step for it publishes 130 degrees, and waters where the thresholds allow it. -/
theorem nothingReceived_published :
    ¬∀ (stale : SensorsData) (x : Sht31) (a : Adc) (q : Queue1 SystemThresholds),
      Failed x a → NoEffect (sensorsReport stale x a q) := by
  intro h
  exact not_noEffect_sensorsReport _ _ _ _ (h ⟨⟨0, 0⟩, 0⟩ nothingReceived.1 nothingReceived.2 twentyFifty (.inl rfl))

end Thronix
