import Thronix.Json.Scanf
import Thronix.Lib.Decimal
import Thronix.Lib.JsonRead

/-!
# Thronix.GuiPanel — the window of the GUI

`guipanel.cpp`: what the window keeps, what its buttons publish and what it does with a message.

* `GuiPanel`: the flags, the three curves, the displayed values and the file of the rows.
* `GuiPanel.slot`: the slots of the buttons and sliders, with the object that each sends.
* `GuiPanel.onMqttReceived`: one message.  The popup of `pingRecived` runs an event loop of its own, so the rest of the
  handler waits until it is closed (`closePopup`), and other messages may be handled in between.

Qt reads and writes JSON outside this repository: `fromJson` and `toJson` are parameters, the values are `JsonVal`.
-/

namespace Thronix

open Lib Json

/-! ## Qt -/

/-- `QJsonDocument::fromJson`, without a value for a text with an error, and `QJsonDocument::toJson`. -/
structure QtJson where
  fromJson : Bytes → Option JsonVal
  toJson : JsonVal → Bytes

/-- `operator[]` of a `QJsonObject`: a missing key is inserted as Null. -/
def qtValue (o : JsonVal) (key : Bytes) : JsonVal := (o.member key).getD .null

/-- `QJsonValue::toBool`. -/
def qtToBool : JsonVal → Bool
  | .bool b => b
  | _ => false

/-- `QJsonValue::toDouble`. -/
def qtToDouble : JsonVal → ℚ
  | .number x => x
  | _ => 0

/-- `v != QJsonValue::Null`. -/
def qtNotNull : JsonVal → Bool
  | .null => false
  | _ => true

/-- `isObject`. -/
def qtIsObject : JsonVal → Bool
  | .object _ => true
  | _ => false

/-! ## The window -/

/-- The samples of a curve: `double[NMAX]`. -/
structure Samples where
  ys : List ℚ
  size : ys.length = 300

namespace Samples

def zero : Samples := ⟨List.replicate 300 0, List.length_replicate⟩

/-- The `memmove` by one sample, and the store into the last. -/
def shift (y : Samples) (x : ℚ) : Samples :=
  ⟨y.ys.tail ++ [x], by rw [List.length_append, List.length_tail, y.size]; rfl⟩

@[simp] theorem ys_shift (y : Samples) (x : ℚ) : (y.shift x).ys = y.ys.tail ++ [x] := rfl

end Samples

structure GuiPanel where
  connected : Bool
  pinged : Bool
  fileInitialized : Bool
  filename : Bytes
  /-- What has been written to the file. -/
  file : Bytes
  wateringTime : BitVec 8
  waterMoistureSlider : BitVec 8
  waterTemperatureSlider : BitVec 8
  /-- The values on display. -/
  temperature : ℚ
  humidity : ℚ
  moisture : ℚ
  waterLevel : ℚ
  yValTemp : Samples
  yValHum : Samples
  yValMoisture : Samples
  /-- The open popups, the newest first, each with the object whose handling waits for it. -/
  popups : List (Option JsonVal)

namespace GuiPanel

/-- The constructor. -/
def create : GuiPanel :=
  { connected := false, pinged := false, fileInitialized := false, filename := [], file := [], wateringTime := 0
    waterMoistureSlider := 0, waterTemperatureSlider := 0, temperature := 0, humidity := 0, moisture := 0
    waterLevel := 0, yValTemp := .zero, yValHum := .zero, yValMoisture := .zero, popups := [] }

/-- `onMQTT_Connected`, next to its subscriptions. -/
def onMqttConnected (g : GuiPanel) : GuiPanel := { g with connected := true }

end GuiPanel

/-! ## Buttons and sliders -/

def topicCC3200 : Bytes := str "/cc3200/"

/-- The GUI's subscriptions: `/cc3200/#` and `/PC`. -/
def guiSubscribed (topic : Bytes) : Bool := topicCC3200.isPrefixOf topic || topic == str "/cc3200" || topic == str "/PC"

/-- What the user does.  A slider's value arrives as the `char` that it is stored in. -/
inductive GuiSlot
  | pingButton
  | measurmentSwitch (value : ℤ)
  | waterTimeSlider (value : BitVec 8)
  | waterButton
  | waterMoistureSlider (value : BitVec 8)
  | waterTemperatureSlider (value : BitVec 8)
  | waterParamsSet
  | freq (value : ℚ)
  deriving DecidableEq, Repr

namespace GuiPanel

/-- `on_pingButton_clicked`. -/
def onPingButtonClicked (g : GuiPanel) : GuiPanel × Option JsonVal :=
  ({ g with pinged := true }, some (.object [(str "ping", .bool true)]))

/-- `on_waterParamsSet_clicked`. -/
def onWaterParamsSetClicked (g : GuiPanel) : GuiPanel × Option JsonVal :=
  if 0 < g.waterMoistureSlider.toInt ∧ 0 < g.waterTemperatureSlider.toInt then
    (g, some (.object [(str "moistureThreshold", .number g.waterMoistureSlider.toInt),
      (str "temperatureThreshold", .number g.waterTemperatureSlider.toInt)]))
  else ({ g with popups := none :: g.popups }, none)

/-- The slots, each with the object that `SendMessage` gets. -/
def slot (g : GuiPanel) : GuiSlot → GuiPanel × Option JsonVal
  | .pingButton => g.onPingButtonClicked
  | .measurmentSwitch value => (g, some (.object [(str "measurementSwitch", .number value)]))
  | .waterTimeSlider value => ({ g with wateringTime := value }, none)
  | .waterButton => (g, some (.object [(str "wateringTime", .number g.wateringTime.toInt)]))
  | .waterMoistureSlider value => ({ g with waterMoistureSlider := value }, none)
  | .waterTemperatureSlider value => ({ g with waterTemperatureSlider := value }, none)
  | .waterParamsSet => g.onWaterParamsSetClicked
  | .freq value => (g, some (.object [(str "measuresFreq", .number value)]))

/-! ## Messages -/

/-- What `saveData` gets from the system: the name made of the time, and whether the file opens for the title and for
the row. -/
structure SaveIo where
  filename : Bytes
  titleOpens : Bool
  rowOpens : Bool

/-- `std::to_string`. -/
def stdToString (x : ℚ) : Bytes := (fixedPoint 6 x).text

/-- The row of a report. -/
def row (temperature humidity moisture : ℚ) : Bytes :=
  str "\n" ++ stdToString temperature ++ str ", " ++ stdToString humidity ++ str ", " ++ stdToString moisture

/-- `saveData`. -/
def saveData (g : GuiPanel) (io : SaveIo) (temperature humidity moisture : ℚ) : GuiPanel :=
  let g :=
    if g.fileInitialized then g
    else
      { g with
        filename := io.filename
        file := if io.titleOpens then g.file ++ str "temperature, humidity, moisture \n" else g.file
        fileInitialized := true }
  if io.rowOpens then { g with file := g.file ++ row temperature humidity moisture } else g

/-- The part of `onMQTT_Received` after the ping. -/
def update (g : GuiPanel) (io : SaveIo) (o : JsonVal) : GuiPanel :=
  let temperature := qtValue o (str "temperature")
  let humidity := qtValue o (str "humidity")
  let moisture := qtValue o (str "moisture")
  let g :=
    if qtNotNull temperature || qtNotNull humidity || qtNotNull moisture then
      saveData
        { g with
          temperature := qtToDouble temperature
          humidity := qtToDouble humidity
          moisture := qtToDouble moisture
          yValTemp := g.yValTemp.shift (qtToDouble temperature)
          yValHum := g.yValHum.shift (qtToDouble humidity)
          yValMoisture := g.yValMoisture.shift (qtToDouble moisture) }
        io (qtToDouble temperature) (qtToDouble humidity) (qtToDouble moisture)
    else g
  let waterLevel := qtValue o (str "waterLevel")
  if qtNotNull waterLevel then { g with waterLevel := qtToDouble waterLevel } else g

/-- `onMQTT_Received` up to its end or to the popup, and the call of `pingRecived` if it makes one. -/
def onMqttReceived (qt : QtJson) (g : GuiPanel) (io : SaveIo) (payload : Bytes) : GuiPanel × Option Bool :=
  if g.connected then
    match qt.fromJson payload with
    | some o =>
      if qtIsObject o then
        if g.pinged then
          ({ g with pinged := false, popups := some o :: g.popups }, some (qtToBool (qtValue o (str "ping"))))
        else (g.update io o, none)
      else (g, none)
    | none => (g, none)
  else (g, none)

/-- The newest popup is closed, and the handler below it goes on. -/
def closePopup (g : GuiPanel) (io : SaveIo) : Option GuiPanel :=
  match g.popups with
  | [] => none
  | o :: popups => some (o.elim { g with popups := popups } ({ g with popups := popups }.update io))

/-- `pingRecived` is called exactly by an object that meets a connected window with the flag set. -/
theorem response_eq_none_iff (qt : QtJson) (g : GuiPanel) (io : SaveIo) (payload : Bytes) :
    (onMqttReceived qt g io payload).2 = none ↔
      (g.connected = true → g.pinged = true → ∀ o, qt.fromJson payload = some o → qtIsObject o = false) := by
  unfold onMqttReceived
  by_cases hc : g.connected = true
  · rw [if_pos hc]
    rcases qt.fromJson payload with _ | o
    · exact ⟨fun _ _ _ => nofun, fun _ => rfl⟩
    · by_cases ho : qtIsObject o = true
      · by_cases hp : g.pinged = true
        · simp [hc, hp, ho]
        · simp [hp, ho]
      · simp [ho]
  · rw [if_neg hc]
    exact ⟨fun _ h => absurd h hc, fun _ => rfl⟩

end GuiPanel

end Thronix
