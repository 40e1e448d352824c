import Thronix.Json.Scanf
import Thronix.Json.Fuel
import Thronix.Stores

/-!
# Thronix.MqttRecv — the handler of received messages

`Mqtt_Recv` of `main.c`: what it makes of a topic and a payload, as the list of its kernel calls.

* `Context` is what the call finds and the message does not determine: the memory behind the payload and behind the
  block that `%Q` allocates, the contents of the uninitialised locals, and what `sscanf` stores for a number that no
  `int` holds.  Every result is for every context.
* The `if`s of the two branches are one definition each; `pcBranch` and `losantBranch` put them in their order.
* `pcBranch_eq`, `losantBranch_eq`: the calls in terms of the values reported by the parser.  The result is `none`
  where the parser writes outside its path buffer.
-/

namespace Thronix

open Json

/-! ## Context -/

/-- The uninitialised locals of a branch. -/
structure Locals where
  value : BitVec 32
  freq : BitVec 32
  boolean : Bool
  thresholds : SystemThresholds
  deriving DecidableEq, Repr

structure Context where
  /-- What `%d` stores for a number out of the range of `int`. -/
  outOfRange : ℤ → BitVec 32
  /-- The memory behind the payload. -/
  tail : Bytes
  /-- The memory behind the block allocated for `aux`. -/
  heap : Bytes
  pc : Locals
  losant : Locals

/-- Zeroes everywhere. -/
def Context.blank : Context :=
  ⟨fun _ => 0, [], [], ⟨0, 0, false, ⟨0, 0⟩⟩, ⟨0, 0, false, ⟨0, 0⟩⟩⟩

/-- The `uint32_t` a `%d` stores. -/
def Context.int (cx : Context) (v : ℤ) : BitVec 32 :=
  if -2 ^ 31 ≤ v ∧ v < 2 ^ 31 then BitVec.ofInt 32 v else cx.outOfRange v

/-! ## `json_scanf` with a target -/

section Scan

variable (s tail fmt : Bytes)

/-- `json_scanf(s, len, fmt, &value)` with one `%d`. -/
def scanD (cx : Context) (value : BitVec 32) : Option (ℤ × BitVec 32) :=
  match jsonScanf s tail fmt with
  | none => none
  | some (n, [some (.int v)]) => some (n, cx.int v)
  | some (n, _) => some (n, value)

/-- `json_scanf(s, len, fmt, &boolean)` with one `%B`.  The callback stores an `int`; no live local is taken to lie in
the three bytes behind `boolean`. -/
def scanB (boolean : Bool) : Option (ℤ × Bool) :=
  match jsonScanf s tail fmt with
  | none => none
  | some (n, [some (.bool b)]) => some (n, b)
  | some (n, _) => some (n, boolean)

/-- `json_scanf(s, len, fmt, &aux)` with one `%Q`. -/
def scanQ (aux : Option Bytes) : Option (ℤ × Option Bytes) :=
  match jsonScanf s tail fmt with
  | none => none
  | some (n, [some (.str t)]) => some (n, some t)
  | some (n, _) => some (n, aux)

end Scan

/-! ## The checks -/

section Checks

variable (cx : Context) (s tail : Bytes)

/-- `measuresFreq`. -/
def checkFreq (value : BitVec 32) : Option (BitVec 32 × List StoreOp) := do
  let (n, value) ← scanD s tail (str "{ measuresFreq: %d }") cx value
  if 0 < n then
    let value := value * 1000 * 60
    return (value, [.overwriteFreq value])
  return (value, [])

/-- `if (value) xEventGroupSetBits(..) else xEventGroupClearBits(..)`. -/
def switchMeasurement (on : Bool) : List StoreOp := if on then [.setMeasurement] else [.clearMeasurement]

/-- `measurementSwitch` of the PC branch. -/
def checkSwitchD (value : BitVec 32) : Option (BitVec 32 × List StoreOp) := do
  let (n, value) ← scanD s tail (str "{ measurementSwitch: %d }") cx value
  if 0 < n then return (value, switchMeasurement (value != 0))
  return (value, [])

/-- `measurementSwitch` of the Losant branch. -/
def checkSwitchB (boolean : Bool) : Option (List StoreOp) := do
  let (n, boolean) ← scanB s tail (str "{ measurementSwitch: %B }") boolean
  if 0 < n then return switchMeasurement boolean
  return []

/-- `wateringTime`. -/
def checkWater (value : BitVec 32) : Option (BitVec 32 × List StoreOp) := do
  let (n, value) ← scanD s tail (str "{ wateringTime: %d }") cx value
  if 0 < n then
    let value := value * 1000
    return (value, [.overwriteWater value, .setWater])
  return (value, [])

/-- `temperatureThreshold`. -/
def checkTemperature (value : BitVec 32) (th : SystemThresholds) :
    Option (BitVec 32 × SystemThresholds × List StoreOp) := do
  let (n, value) ← scanD s tail (str "{ temperatureThreshold: %d }") cx value
  if 0 < n then
    let th := { th with temperature := value.setWidth 8 }
    return (value, th, [.overwriteThresholds th])
  return (value, th, [])

/-- `moistureThreshold`. -/
def checkMoisture (value : BitVec 32) (th : SystemThresholds) :
    Option (BitVec 32 × SystemThresholds × List StoreOp) := do
  let (n, value) ← scanD s tail (str "{ moistureThreshold: %d }") cx value
  if 0 < n then
    let th := { th with moisture := value.setWidth 8 }
    return (value, th, [.overwriteThresholds th])
  return (value, th, [])

end Checks

/-! ## The handler -/

/-- The branch of `TOPIC_PC`. -/
def pcBranch (cx : Context) (payload : Bytes) : Option (List StoreOp) := do
  let (value, freq) ← checkFreq cx payload cx.tail cx.pc.value
  let (value, switch) ← checkSwitchD cx payload cx.tail value
  let (value, water) ← checkWater cx payload cx.tail value
  let (value, th, temperature) ← checkTemperature cx payload cx.tail value cx.pc.thresholds
  let (_, _, moisture) ← checkMoisture cx payload cx.tail value th
  return freq ++ switch ++ water ++ temperature ++ moisture

/-- The memory from `aux` on: the string, its terminator, and what follows the block. -/
def auxMemory (cx : Context) (aux : Bytes) : Bytes := aux ++ 0 :: cx.heap

/-- The `pay_len` bytes that the inner `json_scanf` calls are given. -/
def auxText (cx : Context) (aux : Bytes) (payLen : ℕ) : Bytes :=
  (auxMemory cx aux ++ List.replicate payLen 0).take payLen

/-- The branch of `TOPIC_LOSANT`. -/
def losantBranch (cx : Context) (payload : Bytes) : Option (List StoreOp) := do
  let (n, aux) ← scanQ payload cx.tail (str "{ payload: %Q }") none
  match aux with
  | none => return []
  | some aux =>
    if 0 < n then
      let inner := auxText cx aux payload.length
      let tail := (auxMemory cx aux).drop payload.length
      let switch ← checkSwitchB inner tail cx.losant.boolean
      let (_, freq) ← checkFreq cx inner tail cx.losant.freq
      let (value, water) ← checkWater cx inner tail cx.losant.value
      let (value, th, temperature) ← checkTemperature cx inner tail value cx.losant.thresholds
      let (_, _, moisture) ← checkMoisture cx inner tail value th
      return switch ++ freq ++ water ++ temperature ++ moisture
    return []

def topicPc : Bytes := str "/PC"

def topicLosant : Bytes := str "losant/5d8236ee68f6a70006d4a026/command"

/-- The C string at `s`. -/
def cString (s : Bytes) : Bytes := s.takeWhile (· != 0)

/-- `strncmp(a, b, n) == 0`. -/
def strncmpEq (a b : Bytes) (n : ℕ) : Bool := (cString a).take n == (cString b).take n

/-- `output_str`: `strncpy` pads with zeros. -/
def outputStr (topstr : Bytes) : Bytes :=
  cString topstr ++ List.replicate (topstr.length + 1 - (cString topstr).length) 0

/-- `Mqtt_Recv`: its kernel calls, in order. -/
def mqttRecv (cx : Context) (topstr payload : Bytes) : Option (List StoreOp) := do
  let pc ← if strncmpEq (outputStr topstr) topicPc topstr.length then pcBranch cx payload else some []
  let losant ← if strncmpEq (outputStr topstr) topicLosant topstr.length then losantBranch cx payload else some []
  return pc ++ losant

theorem mqttRecv_topicPc (cx : Context) (payload : Bytes) : mqttRecv cx topicPc payload = pcBranch cx payload := by
  have h1 : strncmpEq (outputStr topicPc) topicPc topicPc.length = true := by decide
  have h2 : strncmpEq (outputStr topicPc) topicLosant topicPc.length = false := by decide
  unfold mqttRecv
  rw [h1, h2]
  rcases h : pcBranch cx payload with _ | ops
  · simp
  · simp

theorem mqttRecv_topicLosant (cx : Context) (payload : Bytes) :
    mqttRecv cx topicLosant payload = losantBranch cx payload := by
  have h1 : strncmpEq (outputStr topicLosant) topicPc topicLosant.length = false := by decide
  have h2 : strncmpEq (outputStr topicLosant) topicLosant topicLosant.length = true := by decide
  unfold mqttRecv
  rw [h1, h2]
  rcases h : losantBranch cx payload with _ | ops
  · simp
  · simp

/-- Every call comes from one of the two branches. -/
theorem mqttRecv_some {cx : Context} {topstr payload : Bytes} {ops : List StoreOp}
    (h : mqttRecv cx topstr payload = some ops) : ∃ pc losant, ops = pc ++ losant ∧
      (pc = [] ∨ pcBranch cx payload = some pc) ∧ (losant = [] ∨ losantBranch cx payload = some losant) := by
  unfold mqttRecv at h
  by_cases h1 : strncmpEq (outputStr topstr) topicPc topstr.length = true
  · rcases hpc : pcBranch cx payload with _ | pc
    · simp [h1, hpc] at h
    · by_cases h2 : strncmpEq (outputStr topstr) topicLosant topstr.length = true
      · rcases hlosant : losantBranch cx payload with _ | losant
        · simp [h1, h2, hpc, hlosant] at h
        · simp [h1, h2, hpc, hlosant] at h
          exact ⟨pc, losant, h.symm, .inr rfl, .inr rfl⟩
      · simp [h1, h2, hpc] at h
        exact ⟨pc, [], by rw [List.append_nil, h], .inr rfl, .inl rfl⟩
  · by_cases h2 : strncmpEq (outputStr topstr) topicLosant topstr.length = true
    · rcases hlosant : losantBranch cx payload with _ | losant
      · simp [h1, h2, hlosant] at h
      · simp [h1, h2, hlosant] at h
        exact ⟨[], losant, by rw [List.nil_append, h], .inl rfl, .inr rfl⟩
    · simp [h1, h2] at h
      exact ⟨[], [], h, .inl rfl, .inl rfl⟩

/-! ## The calls of a branch -/

section Ops

/-- The calls of the `measuresFreq` check, from the value read. -/
def freqOps : Option (BitVec 32) → List StoreOp
  | none => []
  | some v => [.overwriteFreq (v * 1000 * 60)]

def waterOps : Option (BitVec 32) → List StoreOp
  | none => []
  | some v => [.overwriteWater (v * 1000), .setWater]

def switchOps : Option Bool → List StoreOp
  | none => []
  | some b => switchMeasurement b

/-- The calls of the two threshold checks: each writes the local pair, whose other field is what was there. -/
def thresholdOps (th : SystemThresholds) (t m : Option (BitVec 32)) : List StoreOp :=
  let th1 : SystemThresholds := ⟨(t.map (BitVec.setWidth 8)).getD th.temperature, th.moisture⟩
  (match t with
    | none => []
    | some _ => [.overwriteThresholds th1]) ++
  (match m with
    | none => []
    | some v => [.overwriteThresholds { th1 with moisture := v.setWidth 8 }])

end Ops

section Spec

/-- The last number a key was given. -/
def lastInt (cx : Context) (path tail s : Bytes) : Option (BitVec 32) := (ints path tail s).getLast?.map cx.int

def freqPath : Bytes := str ".measuresFreq"

def switchPath : Bytes := str ".measurementSwitch"

def waterPath : Bytes := str ".wateringTime"

def temperaturePath : Bytes := str ".temperatureThreshold"

def moisturePath : Bytes := str ".moistureThreshold"

def payloadPath : Bytes := str ".payload"

variable {s : Bytes} (hs : (jsonWalk s).1 ≠ .undef) (tail : Bytes)

/-- A list is counted as empty exactly when it has no last element. -/
theorem length_getLast? {α : Type} (l : List α) :
    (l.getLast? = none ∧ ¬ 0 < (l.length : ℤ)) ∨ ∃ a, l.getLast? = some a ∧ 0 < (l.length : ℤ) := by
  rcases h : l.getLast? with _ | a
  · rw [List.getLast?_eq_none_iff] at h
    subst h
    exact .inl ⟨rfl, by simp⟩
  · refine .inr ⟨a, rfl, ?_⟩
    have hne : l ≠ [] := by
      rintro rfl
      cases h
    have := List.length_pos_iff.mpr hne
    omega

include hs

theorem scanD_eq (fmt path : Bytes) (hf : directives fmt = some [⟨path, .d⟩]) (cx : Context) (value : BitVec 32) :
    (lastInt cx path tail s = none ∧ ∃ n, ¬ 0 < n ∧ scanD s tail fmt cx value = some (n, value)) ∨
    ∃ v n, lastInt cx path tail s = some v ∧ 0 < n ∧ scanD s tail fmt cx value = some (n, v) := by
  unfold scanD lastInt
  rw [jsonScanf_eq hf hs, values_d, List.length_map, List.getLast?_map]
  rcases length_getLast? (ints path tail s) with ⟨h, hn⟩ | ⟨a, h, hn⟩
  · refine .inl ⟨by rw [h]; rfl, _, hn, ?_⟩
    unfold ints at h
    rw [h]
    rfl
  · refine .inr ⟨cx.int a, _, by rw [h]; rfl, hn, ?_⟩
    unfold ints at h
    rw [h]
    rfl

theorem scanB_eq (fmt path : Bytes) (hf : directives fmt = some [⟨path, .B⟩]) (boolean : Bool) :
    ((bools path s).getLast? = none ∧ ∃ n, ¬ 0 < n ∧ scanB s tail fmt boolean = some (n, boolean)) ∨
    ∃ b n, (bools path s).getLast? = some b ∧ 0 < n ∧ scanB s tail fmt boolean = some (n, b) := by
  unfold scanB
  rw [jsonScanf_eq hf hs, values_B, List.length_map, List.getLast?_map]
  rcases length_getLast? (bools path s) with ⟨h, hn⟩ | ⟨a, h, hn⟩
  · refine .inl ⟨h, _, hn, ?_⟩
    unfold bools at h
    rw [h]
    rfl
  · refine .inr ⟨a, _, h, hn, ?_⟩
    unfold bools at h
    rw [h]
    rfl

theorem scanQ_eq (fmt path : Bytes) (hf : directives fmt = some [⟨path, .Q⟩]) :
    ((strs path s).getLast? = none ∧ ∃ n, scanQ s tail fmt none = some (n, none)) ∨
    ∃ t n, (strs path s).getLast? = some t ∧ 0 < n ∧ scanQ s tail fmt none = some (n, some t) := by
  unfold scanQ
  rw [jsonScanf_eq hf hs, values_Q, List.length_map, List.getLast?_map]
  rcases length_getLast? (strs path s) with ⟨h, hn⟩ | ⟨a, h, hn⟩
  · refine .inl ⟨h, ((strs path s).length : ℤ), ?_⟩
    unfold strs at h
    rw [h]
    rfl
  · refine .inr ⟨a, _, h, hn, ?_⟩
    unfold strs at h
    rw [h]
    rfl

variable (cx : Context) (value : BitVec 32)

theorem checkFreq_eq : ∃ w, checkFreq cx s tail value = some (w, freqOps (lastInt cx freqPath tail s)) := by
  unfold checkFreq
  rcases scanD_eq hs tail (str "{ measuresFreq: %d }") freqPath (by decide) cx value with
    ⟨h, n, hn, hscan⟩ | ⟨v, n, h, hn, hscan⟩
  · exact ⟨value, by simp [hscan, h, hn, freqOps]⟩
  · exact ⟨v * 1000 * 60, by simp [hscan, h, hn, freqOps]⟩

theorem checkSwitchD_eq : ∃ w, checkSwitchD cx s tail value =
    some (w, switchOps ((lastInt cx switchPath tail s).map (· != 0))) := by
  unfold checkSwitchD
  rcases scanD_eq hs tail (str "{ measurementSwitch: %d }") switchPath (by decide) cx value with
    ⟨h, n, hn, hscan⟩ | ⟨v, n, h, hn, hscan⟩
  · exact ⟨value, by simp [hscan, h, hn, switchOps]⟩
  · exact ⟨v, by simp [hscan, h, hn, switchOps]⟩

theorem checkSwitchB_eq (boolean : Bool) :
    checkSwitchB s tail boolean = some (switchOps (bools switchPath s).getLast?) := by
  unfold checkSwitchB
  rcases scanB_eq hs tail (str "{ measurementSwitch: %B }") switchPath (by decide) boolean with
    ⟨h, n, hn, hscan⟩ | ⟨v, n, h, hn, hscan⟩
  · simp [hscan, h, hn, switchOps]
  · simp [hscan, h, hn, switchOps]

theorem checkWater_eq : ∃ w, checkWater cx s tail value = some (w, waterOps (lastInt cx waterPath tail s)) := by
  unfold checkWater
  rcases scanD_eq hs tail (str "{ wateringTime: %d }") waterPath (by decide) cx value with
    ⟨h, n, hn, hscan⟩ | ⟨v, n, h, hn, hscan⟩
  · exact ⟨value, by simp [hscan, h, hn, waterOps]⟩
  · exact ⟨v * 1000, by simp [hscan, h, hn, waterOps]⟩

/-- The two threshold checks in a row. -/
theorem checkThresholds_eq (th : SystemThresholds) : ∃ w th1 a w' th2 b,
    checkTemperature cx s tail value th = some (w, th1, a) ∧ checkMoisture cx s tail w th1 = some (w', th2, b) ∧
    a ++ b = thresholdOps th (lastInt cx temperaturePath tail s) (lastInt cx moisturePath tail s) := by
  have hm : ∀ w th1, ∃ w' th2 b, checkMoisture cx s tail w th1 = some (w', th2, b) ∧
      b = match lastInt cx moisturePath tail s with
        | none => []
        | some v => [.overwriteThresholds { th1 with moisture := v.setWidth 8 }] := by
    intro w th1
    unfold checkMoisture
    rcases scanD_eq hs tail (str "{ moistureThreshold: %d }") moisturePath (by decide) cx w with
      ⟨h, n, hn, hscan⟩ | ⟨v, n, h, hn, hscan⟩
    · exact ⟨w, th1, [], by simp [hscan, hn], by rw [h]⟩
    · refine ⟨v, { th1 with moisture := v.setWidth 8 },
        [.overwriteThresholds { th1 with moisture := v.setWidth 8 }], by simp [hscan, hn], by rw [h]⟩
  have ht : ∃ w th1 a, checkTemperature cx s tail value th = some (w, th1, a) ∧
      th1 = ⟨((lastInt cx temperaturePath tail s).map (BitVec.setWidth 8)).getD th.temperature, th.moisture⟩ ∧
      a = match lastInt cx temperaturePath tail s with
        | none => []
        | some _ => [.overwriteThresholds th1] := by
    unfold checkTemperature
    rcases scanD_eq hs tail (str "{ temperatureThreshold: %d }") temperaturePath (by decide) cx value
      with ⟨h, n, hn, hscan⟩ | ⟨v, n, h, hn, hscan⟩
    · exact ⟨value, th, [], by simp [hscan, hn], by rw [h]; rfl, by rw [h]⟩
    · refine ⟨v, { th with temperature := v.setWidth 8 },
        [.overwriteThresholds { th with temperature := v.setWidth 8 }], by simp [hscan, hn], by rw [h]; rfl, by rw [h]⟩
  obtain ⟨w, th1, a, hw, hth, ha⟩ := ht
  obtain ⟨w', th2, b, hw', hb⟩ := hm w th1
  refine ⟨w, th1, a, w', th2, b, hw, hw', ?_⟩
  rw [ha, hb, hth]
  rfl

end Spec

section Branches

variable (cx : Context) {s : Bytes}

/-- The calls of the PC branch, from the values in the payload. -/
def pcOps (s : Bytes) : List StoreOp :=
  freqOps (lastInt cx freqPath cx.tail s) ++
  switchOps ((lastInt cx switchPath cx.tail s).map (· != 0)) ++
  waterOps (lastInt cx waterPath cx.tail s) ++
  thresholdOps cx.pc.thresholds (lastInt cx temperaturePath cx.tail s) (lastInt cx moisturePath cx.tail s)

theorem pcBranch_eq (hs : (jsonWalk s).1 ≠ .undef) : pcBranch cx s = some (pcOps cx s) := by
  obtain ⟨w1, h1⟩ := checkFreq_eq hs cx.tail cx cx.pc.value
  obtain ⟨w2, h2⟩ := checkSwitchD_eq hs cx.tail cx w1
  obtain ⟨w3, h3⟩ := checkWater_eq hs cx.tail cx w2
  obtain ⟨w4, th1, a, w5, th2, b, h4, h5, hab⟩ := checkThresholds_eq hs cx.tail cx w3 cx.pc.thresholds
  unfold pcBranch pcOps
  rw [← hab]
  simp [h1, h2, h3, h4, h5]

theorem pcBranch_undef (hs : (jsonWalk s).1 = .undef) : pcBranch cx s = none := by
  have hf : directives (str "{ measuresFreq: %d }") = some [⟨freqPath, .d⟩] := by decide
  simp [pcBranch, checkFreq, scanD, jsonScanf, hf, hs]

/-- The calls of the Losant branch, from the values in the inner text. -/
def losantOps (inner tail : Bytes) : List StoreOp :=
  switchOps (bools switchPath inner).getLast? ++
  freqOps (lastInt cx freqPath tail inner) ++
  waterOps (lastInt cx waterPath tail inner) ++
  thresholdOps cx.losant.thresholds (lastInt cx temperaturePath tail inner) (lastInt cx moisturePath tail inner)

theorem losantBranch_none (hs : (jsonWalk s).1 ≠ .undef) (h : strs payloadPath s = []) :
    losantBranch cx s = some [] := by
  rcases scanQ_eq hs cx.tail (str "{ payload: %Q }") payloadPath (by decide) with
    ⟨-, n, hscan⟩ | ⟨t, n, ht, -, -⟩
  · simp [losantBranch, hscan]
  · rw [h] at ht
    cases ht

theorem scanPayload_eq (hs : (jsonWalk s).1 ≠ .undef) {aux : Bytes} (h : (strs payloadPath s).getLast? = some aux) :
    ∃ n, 0 < n ∧ scanQ s cx.tail (str "{ payload: %Q }") none = some (n, some aux) := by
  rcases scanQ_eq hs cx.tail (str "{ payload: %Q }") payloadPath (by decide) with
    ⟨h0, -⟩ | ⟨t, n, ht, hn, hscan⟩
  · rw [h] at h0
    cases h0
  · obtain rfl := Option.some.inj (h.symm.trans ht)
    exact ⟨n, hn, hscan⟩

theorem losantBranch_eq (hs : (jsonWalk s).1 ≠ .undef) {aux : Bytes} (h : (strs payloadPath s).getLast? = some aux)
    (hi : (jsonWalk (auxText cx aux s.length)).1 ≠ .undef) :
    losantBranch cx s = some (losantOps cx (auxText cx aux s.length) ((auxMemory cx aux).drop s.length)) := by
  obtain ⟨n, hn, hscan⟩ := scanPayload_eq cx hs h
  have h1 := checkSwitchB_eq hi ((auxMemory cx aux).drop s.length) cx.losant.boolean
  obtain ⟨w2, h2⟩ := checkFreq_eq hi ((auxMemory cx aux).drop s.length) cx cx.losant.freq
  obtain ⟨w3, h3⟩ := checkWater_eq hi ((auxMemory cx aux).drop s.length) cx cx.losant.value
  obtain ⟨w4, th1, a, w5, th2, b, h4, h5, hab⟩ :=
    checkThresholds_eq hi ((auxMemory cx aux).drop s.length) cx w3 cx.losant.thresholds
  unfold losantBranch losantOps
  rw [← hab]
  simp [hscan, hn, h1, h2, h3, h4, h5]

theorem losantBranch_undef (hs : (jsonWalk s).1 = .undef) : losantBranch cx s = none := by
  have hf : directives (str "{ payload: %Q }") = some [⟨payloadPath, .Q⟩] := by decide
  simp [losantBranch, scanQ, jsonScanf, hf, hs]

theorem losantBranch_undef_inner (hs : (jsonWalk s).1 ≠ .undef) {aux : Bytes}
    (h : (strs payloadPath s).getLast? = some aux) (hi : (jsonWalk (auxText cx aux s.length)).1 = .undef) :
    losantBranch cx s = none := by
  obtain ⟨n, hn, hscan⟩ := scanPayload_eq cx hs h
  have hf : directives (str "{ measurementSwitch: %B }") = some [⟨switchPath, .B⟩] := by decide
  simp [losantBranch, hscan, hn, checkSwitchB, scanB, jsonScanf, hf, hi]

/-- What the PC branch can do. -/
theorem pcBranch_some {ops : List StoreOp} (h : pcBranch cx s = some ops) : ops = pcOps cx s := by
  by_cases hs : (jsonWalk s).1 = .undef
  · rw [pcBranch_undef cx hs] at h
    cases h
  · rw [pcBranch_eq cx hs] at h
    exact (Option.some.inj h).symm

/-- What the Losant branch can do: without an inner text, nothing. -/
theorem losantBranch_some {ops : List StoreOp} (h : losantBranch cx s = some ops) :
    ((strs payloadPath s).getLast? = none ∧ ops = []) ∨ ∃ aux, (strs payloadPath s).getLast? = some aux ∧
      ops = losantOps cx (auxText cx aux s.length) ((auxMemory cx aux).drop s.length) := by
  by_cases hs : (jsonWalk s).1 = .undef
  · rw [losantBranch_undef cx hs] at h
    cases h
  rcases haux : (strs payloadPath s).getLast? with _ | aux
  · rw [losantBranch_none cx hs (List.getLast?_eq_none_iff.mp haux)] at h
    exact .inl ⟨rfl, (Option.some.inj h).symm⟩
  by_cases hi : (jsonWalk (auxText cx aux s.length)).1 = .undef
  · rw [losantBranch_undef_inner cx hs haux hi] at h
    cases h
  · rw [losantBranch_eq cx hs haux hi] at h
    exact .inr ⟨aux, rfl, (Option.some.inj h).symm⟩

end Branches

/-! ## The stores a branch leaves -/

section Commanded

/-- The stores after a message, from the values read under its keys and the local pair of the branch. -/
def Stores.commanded (st : Stores) (f : Option (BitVec 32)) (b : Option Bool) (w : Option (BitVec 32))
    (th : SystemThresholds) (t m : Option (BitVec 32)) : Stores where
  freqQueue := f.elim st.freqQueue fun v => ⟨some (v * 1000 * 60)⟩
  thresholdsQueue :=
    if t = none ∧ m = none then st.thresholdsQueue
    else ⟨some ⟨(t.map (BitVec.setWidth 8)).getD th.temperature, (m.map (BitVec.setWidth 8)).getD th.moisture⟩⟩
  waterQueue := w.elim st.waterQueue fun v => ⟨some (v * 1000)⟩
  measurementFlag := b.elim st.measurementFlag fun on =>
    if on then st.measurementFlag.xEventGroupSetBits measurementStart
    else st.measurementFlag.xEventGroupClearBits measurementStart
  waterFlag := w.elim st.waterFlag fun _ => st.waterFlag.xEventGroupSetBits wateringStart

variable (st : Stores) (f : Option (BitVec 32)) (b : Option Bool) (w : Option (BitVec 32)) (th : SystemThresholds)
  (t m : Option (BitVec 32))

theorem applyAll_freqOps :
    st.applyAll (freqOps f) = { st with freqQueue := f.elim st.freqQueue fun v => ⟨some (v * 1000 * 60)⟩ } := by
  rcases f with _ | v <;> rfl

theorem applyAll_switchOps :
    st.applyAll (switchOps b) = { st with measurementFlag := b.elim st.measurementFlag fun on =>
      if on then st.measurementFlag.xEventGroupSetBits measurementStart
      else st.measurementFlag.xEventGroupClearBits measurementStart } := by
  rcases b with _ | _ | _ <;> rfl

theorem applyAll_waterOps :
    st.applyAll (waterOps w) = { st with
      waterQueue := w.elim st.waterQueue fun v => ⟨some (v * 1000)⟩
      waterFlag := w.elim st.waterFlag fun _ => st.waterFlag.xEventGroupSetBits wateringStart } := by
  rcases w with _ | v <;> rfl

theorem applyAll_thresholdOps :
    st.applyAll (thresholdOps th t m) = { st with thresholdsQueue :=
      if t = none ∧ m = none then st.thresholdsQueue
      else ⟨some ⟨(t.map (BitVec.setWidth 8)).getD th.temperature, (m.map (BitVec.setWidth 8)).getD th.moisture⟩⟩ } := by
  rcases t with _ | t <;> rcases m with _ | m <;> rfl

/-- The order of the checks does not matter: each writes a store of its own. -/
theorem applyAll_pc_order :
    st.applyAll (freqOps f ++ switchOps b ++ waterOps w ++ thresholdOps th t m) = st.commanded f b w th t m := by
  simp only [Stores.applyAll_append, applyAll_freqOps, applyAll_switchOps, applyAll_waterOps, applyAll_thresholdOps]
  rfl

theorem applyAll_losant_order :
    st.applyAll (switchOps b ++ freqOps f ++ waterOps w ++ thresholdOps th t m) = st.commanded f b w th t m := by
  simp only [Stores.applyAll_append, applyAll_freqOps, applyAll_switchOps, applyAll_waterOps, applyAll_thresholdOps]
  rfl

end Commanded

end Thronix
