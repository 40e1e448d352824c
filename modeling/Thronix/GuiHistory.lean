import Thronix.GuiPanel
import Thronix.Lib.Runs
import Mathlib.Data.List.DropRight

/-!
# Thronix.GuiHistory — the curves and the file of the GUI

What the window shows of the reports that it was sent.

* `GuiEvent`: the window gets a message, one of its popups is closed, or the user does something else.
* `GuiPanel.handles`: the object that a step takes the values of: at once, or after the popup that it waited for.
* `FileHolds`: what a reader finds in the file: a title, then one line for each report, with its values in the order of
  the title.
* `Shows`: the curves and the file that belong to a list of reports.
* `history_kept`: the window always shows the reports that it has handled.
-/

namespace Thronix

open Lib Json

/-! ## Reports -/

/-- The values of a report. -/
structure Reading where
  temperature : ℚ
  humidity : ℚ
  moisture : ℚ
  deriving DecidableEq, Repr

/-- The values of an object that has all three of them as numbers. -/
def reading (o : JsonVal) : Option Reading :=
  match qtValue o (str "temperature"), qtValue o (str "humidity"), qtValue o (str "moisture") with
  | .number t, .number h, .number m => some ⟨t, h, m⟩
  | _, _, _ => none

/-- All three are numbers, or none of them is there. -/
def AllOrNone (o : JsonVal) : Prop :=
  (reading o).isSome ∨ (qtValue o (str "temperature") = .null ∧ qtValue o (str "humidity") = .null ∧
    qtValue o (str "moisture") = .null)

/-- The last 300 reports, with zeros before the first. -/
def window (rs : List Reading) : List Reading := (List.replicate 300 (Reading.mk 0 0 0) ++ rs).drop rs.length

def rows (rs : List Reading) : Bytes := rs.flatMap fun r => GuiPanel.row r.temperature r.humidity r.moisture

/-- The file: nothing before the first report, then the title and a row for each. -/
def fileOf (rs : List Reading) : Bytes :=
  if rs = [] then [] else str "temperature, humidity, moisture \n" ++ rows rs

theorem reading_some {o : JsonVal} {r : Reading} (h : reading o = some r) :
    qtValue o (str "temperature") = .number r.temperature ∧ qtValue o (str "humidity") = .number r.humidity ∧
      qtValue o (str "moisture") = .number r.moisture := by
  unfold reading at h
  split at h
  · next t hh m ht hhum hm =>
    obtain rfl := Option.some.inj h
    exact ⟨ht, hhum, hm⟩
  · cases h

theorem AllOrNone.null {o : JsonVal} (h : AllOrNone o) (hn : reading o = none) :
    qtValue o (str "temperature") = .null ∧ qtValue o (str "humidity") = .null ∧ qtValue o (str "moisture") = .null := by
  rcases h with hs | hnull
  · rw [hn] at hs
    cases hs
  · exact hnull

/-- A report more: the curves move on by one. -/
theorem map_window_snoc (f : Reading → ℚ) (rs : List Reading) (r : Reading) :
    (window (rs ++ [r])).map f = ((window rs).map f).tail ++ [f r] := by
  have hlen : rs.length + 1 ≤ (List.replicate 300 (Reading.mk 0 0 0) ++ rs).length := by
    rw [List.length_append, List.length_replicate]
    omega
  have hsnoc : window (rs ++ [r]) = (window rs).tail ++ [r] := by
    rw [window, List.length_append, List.length_singleton, ← List.append_assoc, List.drop_append_of_le_length hlen,
      window, List.tail_drop]
  rw [hsnoc, List.map_append, List.map_tail]
  rfl

theorem fileOf_snoc (rs : List Reading) (r : Reading) :
    fileOf (rs ++ [r]) = (if rs = [] then str "temperature, humidity, moisture \n" else fileOf rs) ++
      GuiPanel.row r.temperature r.humidity r.moisture := by
  have hrows : rows (rs ++ [r]) = rows rs ++ GuiPanel.row r.temperature r.humidity r.moisture := by
    simp [rows]
  rw [fileOf, if_neg (by simp), hrows]
  by_cases hrs : rs = []
  · subst hrs
    rfl
  · rw [if_neg hrs, fileOf, if_neg hrs, List.append_assoc]

/-! ## The file -/

/-- The names of the title with what they stand for, in the order of the columns. -/
def quantities : List (Bytes × (Reading → ℚ)) :=
  [(str "temperature", Reading.temperature), (str "humidity", Reading.humidity), (str "moisture", Reading.moisture)]

/-- A text without the spaces around it. -/
def trimmed (t : Bytes) : Bytes := (t.dropWhile (· == 32)).rdropWhile (· == 32)

/-- The texts between the commas of a line. -/
def cells (line : Bytes) : List Bytes := (line.splitOn (ch ',')).map trimmed

/-- A decimal number that is `x` to six places. -/
def IsNumber (x : ℚ) (t : Bytes) : Prop := ∃ v : JsonNumber, v.text = t ∧ |v.value - x| ≤ 1 / 2 / 10 ^ 6

/-- A line with the values of a report, in the order of the title. -/
def IsRow (line : Bytes) (r : Reading) : Prop := List.Forall₂ (fun q t => IsNumber (q.2 r) t) quantities (cells line)

/-- Nothing before the first report; then the lines of the file are the title, an empty one, and one for each report. -/
def FileHolds (file : Bytes) (rs : List Reading) : Prop :=
  (rs = [] → file = []) ∧ (rs ≠ [] → ∃ title lines, file.splitOn (ch '\n') = title :: [] :: lines ∧
    cells title = quantities.map Prod.fst ∧ List.Forall₂ IsRow lines rs)

section File

theorem trimmed_of_no_space {t : Bytes} (h : ∀ c ∈ t, c ≠ 32) : trimmed t = t := by
  have hdrop : ∀ l : Bytes, (∀ c ∈ l, c ≠ 32) → l.dropWhile (· == 32) = l := by
    intro l hl
    rcases l with _ | ⟨c, l⟩
    · rfl
    · exact List.dropWhile_cons_of_neg (by simpa using hl c List.mem_cons_self)
  rw [trimmed, hdrop t h, List.rdropWhile, hdrop t.reverse fun c hc => h c (List.mem_reverse.mp hc), List.reverse_reverse]

theorem trimmed_cons_space {t : Bytes} (h : ∀ c ∈ t, c ≠ 32) : trimmed (32 :: t) = t := by
  have := trimmed_of_no_space h
  rwa [trimmed, List.dropWhile_cons_of_pos (by decide)]

/-- The characters of a number are none of those between the numbers. -/
theorem mem_stdToString {x : ℚ} {c : UInt8} (hc : c ∈ GuiPanel.stdToString x) : c ≠ ch '\n' ∧ c ≠ ch ',' ∧ c ≠ 32 := by
  rcases mem_text_fixedPoint 6 x c hc with rfl | rfl | h
  · decide
  · decide
  · refine ⟨?_, ?_, ?_⟩ <;> rintro rfl <;> exact absurd h (by decide)

theorem isNumber_stdToString (x : ℚ) : IsNumber x (GuiPanel.stdToString x) :=
  ⟨fixedPoint 6 x, rfl, abs_value_fixedPoint 6 x⟩

/-- A row without the end of the line before it. -/
def lineOf (r : Reading) : Bytes :=
  GuiPanel.stdToString r.temperature ++ ch ',' :: (32 :: GuiPanel.stdToString r.humidity ++
    ch ',' :: (32 :: GuiPanel.stdToString r.moisture))

theorem row_eq (r : Reading) : GuiPanel.row r.temperature r.humidity r.moisture = ch '\n' :: lineOf r := by
  simp [GuiPanel.row, lineOf, str, ch]

theorem cells_lineOf (r : Reading) : cells (lineOf r) = [GuiPanel.stdToString r.temperature,
    GuiPanel.stdToString r.humidity, GuiPanel.stdToString r.moisture] := by
  have hcomma : ∀ x, ch ',' ∉ GuiPanel.stdToString x := fun x h => (mem_stdToString h).2.1 rfl
  have hcomma' : ∀ x, ch ',' ∉ 32 :: GuiPanel.stdToString x := fun x h => by
    rcases List.mem_cons.mp h with h | h
    · exact absurd h (by decide)
    · exact hcomma x h
  have hspace : ∀ x, ∀ c ∈ GuiPanel.stdToString x, c ≠ 32 := fun x c h => (mem_stdToString h).2.2
  rw [cells, lineOf, List.splitOn_append_cons_self_of_not_mem (hcomma _),
    List.splitOn_append_cons_self_of_not_mem (hcomma' _), List.splitOn_eq_singleton (hcomma' _)]
  simp only [List.map_cons, List.map_nil, trimmed_of_no_space (hspace _), trimmed_cons_space (hspace _)]

theorem isRow_lineOf (r : Reading) : IsRow (lineOf r) r := by
  rw [IsRow, cells_lineOf]
  exact .cons (isNumber_stdToString _) (.cons (isNumber_stdToString _) (.cons (isNumber_stdToString _) .nil))

theorem newline_notMem_lineOf (r : Reading) : ch '\n' ∉ lineOf r := by
  have hnum : ∀ x, ch '\n' ∉ GuiPanel.stdToString x := fun x h => (mem_stdToString h).1 rfl
  simp only [lineOf, List.mem_append, List.mem_cons, not_or]
  exact ⟨hnum _, by decide, ⟨by decide, hnum _⟩, by decide, by decide, hnum _⟩

/-- The rows after a text that is one line. -/
theorem splitOn_rows (rs : List Reading) {l : Bytes} (hl : ch '\n' ∉ l) :
    (l ++ rows rs).splitOn (ch '\n') = l :: rs.map lineOf := by
  induction rs generalizing l with
  | nil =>
    rw [show rows [] = [] from rfl, List.append_nil]
    exact List.splitOn_eq_singleton hl
  | cons r rs ih =>
    have hrows : rows (r :: rs) = ch '\n' :: (lineOf r ++ rows rs) := by
      rw [rows, List.flatMap_cons, row_eq]
      rfl
    rw [hrows, List.splitOn_append_cons_self_of_not_mem hl, ih (newline_notMem_lineOf r)]
    rfl

/-- **The file read back**: one line for each report, with its values. -/
theorem fileHolds_fileOf (rs : List Reading) : FileHolds (fileOf rs) rs := by
  constructor
  · rintro rfl
    rfl
  · intro hrs
    refine ⟨str "temperature, humidity, moisture ", rs.map lineOf, ?_, by decide +kernel, ?_⟩
    · have htitle : str "temperature, humidity, moisture \n" ++ rows rs =
          str "temperature, humidity, moisture " ++ ch '\n' :: ([] ++ rows rs) := by simp [str]
      rw [fileOf, if_neg hrs, htitle, List.splitOn_append_cons_self_of_not_mem (by decide +kernel),
        splitOn_rows rs List.not_mem_nil]
    · rw [List.forall₂_map_left_iff, List.forall₂_same]
      exact fun r _ => isRow_lineOf r

end File

namespace GuiPanel

/-! ## Updates -/

/-- The curves and the file are the same. -/
structure SameRecord (g g' : GuiPanel) : Prop where
  yValTemp : g'.yValTemp = g.yValTemp
  yValHum : g'.yValHum = g.yValHum
  yValMoisture : g'.yValMoisture = g.yValMoisture
  file : g'.file = g.file
  fileInitialized : g'.fileInitialized = g.fileInitialized

/-- The files open. -/
def SaveIo.Opens (io : SaveIo) : Prop := io.titleOpens = true ∧ io.rowOpens = true

section Update

variable {g g' : GuiPanel} {io : SaveIo} {o : JsonVal} {r : Reading}

theorem SameRecord.trans {g'' : GuiPanel} (h : SameRecord g g') (h' : SameRecord g' g'') : SameRecord g g'' :=
  ⟨h'.yValTemp.trans h.yValTemp, h'.yValHum.trans h.yValHum, h'.yValMoisture.trans h.yValMoisture,
    h'.file.trans h.file, h'.fileInitialized.trans h.fileInitialized⟩

/-- The last value of an object is no part of the record. -/
theorem sameRecord_waterLevel : SameRecord g
    (if qtNotNull (qtValue o (str "waterLevel")) then { g with waterLevel := qtToDouble (qtValue o (str "waterLevel")) }
      else g) := by
  split_ifs
  · exact ⟨rfl, rfl, rfl, rfl, rfl⟩
  · exact ⟨rfl, rfl, rfl, rfl, rfl⟩

/-- Without the three values nothing is recorded. -/
theorem update_null (hnull : qtValue o (str "temperature") = .null ∧ qtValue o (str "humidity") = .null ∧
    qtValue o (str "moisture") = .null) : SameRecord g (g.update io o) := by
  obtain ⟨ht, hh, hm⟩ := hnull
  rw [update, ht, hh, hm]
  exact sameRecord_waterLevel

/-- A report moves the curves and adds its row to the file, which gets its title with the first one. -/
structure Recorded (g g' : GuiPanel) (r : Reading) : Prop where
  yValTemp : g'.yValTemp = g.yValTemp.shift r.temperature
  yValHum : g'.yValHum = g.yValHum.shift r.humidity
  yValMoisture : g'.yValMoisture = g.yValMoisture.shift r.moisture
  file : g'.file = (if g.fileInitialized then g.file else g.file ++ str "temperature, humidity, moisture \n") ++
    row r.temperature r.humidity r.moisture
  fileInitialized : g'.fileInitialized = true

theorem saveData_recorded (hio : io.Opens) : Recorded g
    (saveData { g with
      temperature := r.temperature
      humidity := r.humidity
      moisture := r.moisture
      yValTemp := g.yValTemp.shift r.temperature
      yValHum := g.yValHum.shift r.humidity
      yValMoisture := g.yValMoisture.shift r.moisture } io r.temperature r.humidity r.moisture) r := by
  obtain ⟨htitle, hrow⟩ := hio
  rcases hi : g.fileInitialized with _ | _
  · simp only [saveData, if_pos hrow, if_pos htitle]
    exact ⟨rfl, rfl, rfl, by simp [hi], rfl⟩
  · simp only [saveData, if_pos hrow]
    exact ⟨rfl, rfl, rfl, by simp [hi], rfl⟩

theorem Recorded.same {g'' : GuiPanel} (h : Recorded g g' r) (hs : SameRecord g' g'') : Recorded g g'' r :=
  ⟨hs.yValTemp.trans h.yValTemp, hs.yValHum.trans h.yValHum, hs.yValMoisture.trans h.yValMoisture,
    hs.file.trans h.file, hs.fileInitialized.trans h.fileInitialized⟩

theorem SameRecord.recorded {g₀ : GuiPanel} (hs : SameRecord g₀ g) (h : Recorded g g' r) : Recorded g₀ g' r where
  yValTemp := hs.yValTemp ▸ h.yValTemp
  yValHum := hs.yValHum ▸ h.yValHum
  yValMoisture := hs.yValMoisture ▸ h.yValMoisture
  file := by rw [h.file, hs.file, hs.fileInitialized]
  fileInitialized := h.fileInitialized

theorem update_reading (hio : io.Opens) (hr : reading o = some r) : Recorded g (g.update io o) r := by
  obtain ⟨ht, hh, hm⟩ := reading_some hr
  rw [update, ht, hh, hm]
  exact (saveData_recorded hio).same sameRecord_waterLevel

end Update

/-! ## Steps -/

end GuiPanel

/-- What happens to the window. -/
inductive GuiEvent
  | slot (e : GuiSlot)
  | received (payload : Bytes) (io : GuiPanel.SaveIo)
  | popupClosed (io : GuiPanel.SaveIo)

/-- The object that is read from a payload. -/
def QtJson.object (qt : QtJson) (payload : Bytes) : Option JsonVal := (qt.fromJson payload).filter qtIsObject

/-- The objects that are carried have all three values or none, and the files open. -/
def GuiEvent.Ordinary (qt : QtJson) : GuiEvent → Prop
  | .slot _ => True
  | .received payload io => (∀ o, qt.object payload = some o → AllOrNone o) ∧ io.Opens
  | .popupClosed io => io.Opens

/-- The object that an event brings. -/
def GuiEvent.brings (qt : QtJson) : GuiEvent → Option JsonVal
  | .received payload _ => qt.object payload
  | _ => none

/-- The objects that arrived, in order; `h` has the newest event first. -/
def arrived (qt : QtJson) (h : List GuiEvent) : List JsonVal := h.reverse.filterMap (GuiEvent.brings qt)

namespace GuiPanel

def step (qt : QtJson) (g : GuiPanel) : GuiEvent → Option GuiPanel
  | .slot e => some (g.slot e).1
  | .received payload io => some (g.onMqttReceived qt io payload).1
  | .popupClosed io => g.closePopup io

/-- The object whose values a step takes. -/
def handles (qt : QtJson) (g : GuiPanel) : GuiEvent → Option JsonVal
  | .slot _ => none
  | .received payload _ => if g.connected && !g.pinged then qt.object payload else none
  | .popupClosed _ => g.popups.head?.join

/-- The objects whose values wait for a popup, the newest first. -/
def waiting (g : GuiPanel) : List JsonVal := g.popups.filterMap id

/-- A message finds no other waiting for a popup. -/
def InTurn (g : GuiPanel) : GuiEvent → Prop
  | .received _ _ => g.waiting = []
  | _ => True

/-- The step of the window, with the objects it has handled so far. -/
def logged (qt : QtJson) : GuiPanel × List JsonVal → GuiEvent → Option (GuiPanel × List JsonVal)
  | (g, os), e => (g.step qt e).map fun g' => (g', os ++ (g.handles qt e).toList)

section Step

variable {qt : QtJson} {g g' : GuiPanel} {e : GuiEvent} {io : SaveIo} {payload : Bytes} {o : JsonVal}

theorem sameRecord_slot (e : GuiSlot) : SameRecord g (g.slot e).1 := by
  cases e with
  | waterParamsSet =>
    rw [slot, onWaterParamsSetClicked]
    split_ifs
    · exact ⟨rfl, rfl, rfl, rfl, rfl⟩
    · exact ⟨rfl, rfl, rfl, rfl, rfl⟩
  | _ => exact ⟨rfl, rfl, rfl, rfl, rfl⟩

/-- A message is handled at once, kept for after the popup, or passed over. -/
theorem received_cases (g : GuiPanel) (io : SaveIo) (payload : Bytes) (hc : g.connected = true) :
    (qt.object payload = none ∧ (g.onMqttReceived qt io payload).1 = g) ∨
    (∃ o, qt.object payload = some o ∧ g.pinged = false ∧ (g.onMqttReceived qt io payload).1 = g.update io o) ∨
    ∃ o, qt.object payload = some o ∧ g.pinged = true ∧
      (g.onMqttReceived qt io payload).1 = { g with pinged := false, popups := some o :: g.popups } := by
  unfold onMqttReceived QtJson.object
  rw [if_pos hc]
  rcases qt.fromJson payload with _ | o
  · exact .inl ⟨rfl, rfl⟩
  · by_cases ho : qtIsObject o = true
    · simp only [if_pos ho, Option.filter_some_pos ho]
      rcases hp : g.pinged with _ | _
      · exact .inr (.inl ⟨o, rfl, rfl, rfl⟩)
      · exact .inr (.inr ⟨o, rfl, rfl, rfl⟩)
    · rw [Bool.not_eq_true] at ho
      exact .inl ⟨Option.filter_some_neg ho, by simp [ho]⟩

theorem saveData_frame (g : GuiPanel) (io : SaveIo) (t h m : ℚ) :
    (g.saveData io t h m).popups = g.popups ∧ (g.saveData io t h m).connected = g.connected := by
  unfold saveData
  split_ifs <;> exact ⟨rfl, rfl⟩

/-- An update leaves the popups and the connection alone. -/
theorem update_frame (g : GuiPanel) (io : SaveIo) (o : JsonVal) :
    (g.update io o).popups = g.popups ∧ (g.update io o).connected = g.connected := by
  unfold update
  dsimp only
  split_ifs
  · exact saveData_frame _ io _ _ _
  · exact ⟨rfl, rfl⟩
  · exact saveData_frame _ io _ _ _
  · exact ⟨rfl, rfl⟩

theorem slot_frame (e : GuiSlot) : (g.slot e).1.waiting = g.waiting ∧ (g.slot e).1.connected = g.connected := by
  cases e with
  | waterParamsSet =>
    rw [slot, onWaterParamsSetClicked]
    split_ifs
    · exact ⟨rfl, rfl⟩
    · exact ⟨rfl, rfl⟩
  | _ => exact ⟨rfl, rfl⟩

/-- What one event does to the record: nothing, and an object may wait from now on; or an object is handled, which has
just arrived or was the next of those waiting. -/
theorem step_cases (hc : g.connected = true) (h : g.step qt e = some g') : g'.connected = true ∧
    ((g.handles qt e = none ∧ SameRecord g g' ∧ g'.waiting = (e.brings qt).toList ++ g.waiting) ∨
    ∃ o io g₀, g.handles qt e = some o ∧ (e.Ordinary qt → io.Opens) ∧ SameRecord g g₀ ∧ g' = g₀.update io o ∧
      ((e.brings qt = some o ∧ g'.waiting = g.waiting) ∨ (e.brings qt = none ∧ g.waiting = o :: g'.waiting))) := by
  cases e with
  | slot e =>
    obtain rfl := Option.some.inj h
    obtain ⟨hw, hc'⟩ := slot_frame (g := g) e
    exact ⟨hc'.trans hc, .inl ⟨rfl, sameRecord_slot e, hw⟩⟩
  | received payload io =>
    obtain rfl := Option.some.inj h
    rcases @received_cases qt g io payload hc with ⟨ho, hg⟩ | ⟨o, ho, hp, hg⟩ | ⟨o, ho, hp, hg⟩
    · rw [hg]
      refine ⟨hc, .inl ⟨?_, ⟨rfl, rfl, rfl, rfl, rfl⟩, ?_⟩⟩
      · simp [handles, ho]
      · simp [GuiEvent.brings, ho]
    · rw [hg]
      obtain ⟨hpopups, hc'⟩ := update_frame g io o
      refine ⟨hc'.trans hc, .inr ⟨o, io, g, ?_, fun hord => hord.2, ⟨rfl, rfl, rfl, rfl, rfl⟩, rfl, .inl ⟨ho, ?_⟩⟩⟩
      · simp [handles, hc, hp, ho]
      · rw [waiting, hpopups, waiting]
    · rw [hg]
      refine ⟨hc, .inl ⟨?_, ⟨rfl, rfl, rfl, rfl, rfl⟩, ?_⟩⟩
      · simp [handles, hp]
      · simp [GuiEvent.brings, ho, waiting]
  | popupClosed io =>
    rcases hpop : g.popups with _ | ⟨_ | o, popups⟩
    · simp [step, closePopup, hpop] at h
    · simp only [step, closePopup, hpop] at h
      obtain rfl := Option.some.inj h
      refine ⟨hc, .inl ⟨?_, ⟨rfl, rfl, rfl, rfl, rfl⟩, ?_⟩⟩
      · simp [handles, hpop]
      · simp [GuiEvent.brings, waiting, hpop]
    · simp only [step, closePopup, hpop] at h
      obtain rfl := Option.some.inj h
      obtain ⟨hpopups, hc'⟩ := update_frame { g with popups := popups } io o
      refine ⟨hc'.trans hc, .inr ⟨o, io, { g with popups := popups }, ?_, fun hord => hord,
        ⟨rfl, rfl, rfl, rfl, rfl⟩, rfl, .inr ⟨rfl, ?_⟩⟩⟩
      · simp [handles, hpop]
      · have hwait : (({ g with popups := popups }.update io o).waiting) = popups.filterMap id := by
          rw [waiting, hpopups]
        show g.waiting = o :: ({ g with popups := popups }.update io o).waiting
        rw [hwait, waiting, hpop]
        rfl

end Step

/-! ## Runs -/

/-- The curves and the file that belong to the reports `rs`. -/
structure Shows (g : GuiPanel) (rs : List Reading) : Prop where
  yValTemp : g.yValTemp.ys = (window rs).map Reading.temperature
  yValHum : g.yValHum.ys = (window rs).map Reading.humidity
  yValMoisture : g.yValMoisture.ys = (window rs).map Reading.moisture
  file : FileHolds g.file rs

/-- What every run keeps: what is shown, and that what waits carries all three values or none. -/
structure Kept (g : GuiPanel) (os : List JsonVal) : Prop extends Shows g (os.filterMap reading) where
  text : g.file = fileOf (os.filterMap reading)
  connected : g.connected = true
  fileInitialized : g.fileInitialized = true ↔ os.filterMap reading ≠ []
  waiting : ∀ o ∈ g.waiting, AllOrNone o

section Run

variable {qt : QtJson} {g g' : GuiPanel} {rs : List Reading} {r : Reading}

theorem Shows.same (h : Shows g rs) (hs : SameRecord g g') : Shows g' rs :=
  ⟨hs.yValTemp ▸ h.yValTemp, hs.yValHum ▸ h.yValHum, hs.yValMoisture ▸ h.yValMoisture, hs.file ▸ h.file⟩

/-- The file after a report more. -/
theorem Recorded.file_eq (hr : Recorded g g' r) (ht : g.file = fileOf rs) (hi : g.fileInitialized = true ↔ rs ≠ []) :
    g'.file = fileOf (rs ++ [r]) := by
  rw [hr.file, ht, fileOf_snoc]
  by_cases hrs : rs = []
  · rw [if_neg (fun hinit => hi.mp hinit hrs), if_pos hrs, hrs]
    rfl
  · rw [if_pos (hi.mpr hrs), if_neg hrs]

theorem Shows.recorded (h : Shows g rs) (hr : Recorded g g' r) (ht : g'.file = fileOf (rs ++ [r])) :
    Shows g' (rs ++ [r]) where
  yValTemp := by rw [hr.yValTemp, Samples.ys_shift, map_window_snoc, h.yValTemp]
  yValHum := by rw [hr.yValHum, Samples.ys_shift, map_window_snoc, h.yValHum]
  yValMoisture := by rw [hr.yValMoisture, Samples.ys_shift, map_window_snoc, h.yValMoisture]
  file := ht ▸ fileHolds_fileOf (rs ++ [r])

theorem shows_create : Shows create.onMqttConnected [] := by
  have hzero : ∀ f : Reading → ℚ, f ⟨0, 0, 0⟩ = 0 → Samples.zero.ys = (window []).map f := by
    intro f hf
    rw [window, List.append_nil, List.length_nil, List.drop_zero, List.map_replicate, hf, Samples.zero]
  exact ⟨hzero _ rfl, hzero _ rfl, hzero _ rfl, fileHolds_fileOf []⟩

/-- The step lemma. -/
theorem Kept.step {os os' : List JsonVal} {e : GuiEvent} (h : Kept g os) (he : e.Ordinary qt)
    (hs : logged qt (g, os) e = some (g', os')) : Kept g' os' := by
  obtain ⟨g₁, hstep, heq⟩ := Option.map_eq_some_iff.mp hs
  obtain ⟨rfl, rfl⟩ := Prod.mk.inj heq
  obtain ⟨hc, ⟨hnone, hsame, hwait⟩ | ⟨o, io, g₀, hsome, hio, hsame, rfl, hwait⟩⟩ := step_cases h.connected hstep
  · rw [hnone, Option.toList_none, List.append_nil]
    refine ⟨h.toShows.same hsame, hsame.file.trans h.text, hc, hsame.fileInitialized ▸ h.fileInitialized, ?_⟩
    intro o ho
    rw [hwait] at ho
    rcases List.mem_append.mp ho with ho | ho
    · rcases e with _ | ⟨payload, io⟩ | _
      · cases ho
      · exact he.1 o (Option.mem_toList.mp ho)
      · cases ho
    · exact h.waiting o ho
  · rw [hsome, Option.toList_some]
    have hall : AllOrNone o := by
      rcases hwait with ⟨hbrings, -⟩ | ⟨-, hwas⟩
      · rcases e with _ | ⟨payload, io⟩ | _
        · cases hbrings
        · exact he.1 o hbrings
        · cases hbrings
      · exact h.waiting o (hwas ▸ List.mem_cons_self)
    have hwaiting : ∀ o' ∈ (g₀.update io o).waiting, AllOrNone o' := by
      intro o' ho'
      rcases hwait with ⟨-, hsame⟩ | ⟨-, hwas⟩
      · exact h.waiting o' (hsame ▸ ho')
      · exact h.waiting o' (hwas ▸ List.mem_cons_of_mem o ho')
    rcases hr : reading o with _ | r
    · have hnull : SameRecord g₀ (g₀.update io o) := update_null (hall.null hr)
      have hrs : (os ++ [o]).filterMap reading = os.filterMap reading := by
        simp [hr]
      have hrec := hsame.trans hnull
      refine ⟨?_, ?_, hc, ?_, hwaiting⟩
      · rw [hrs]
        exact h.toShows.same hrec
      · rw [hrs]
        exact hrec.file.trans h.text
      · rw [hrs, hrec.fileInitialized]
        exact h.fileInitialized
    · have hrec := hsame.recorded (update_reading (hio he) hr)
      have hrs : (os ++ [o]).filterMap reading = os.filterMap reading ++ [r] := by
        simp [hr]
      have htext := hrec.file_eq h.text h.fileInitialized
      refine ⟨?_, ?_, hc, ?_, hwaiting⟩
      · rw [hrs]
        exact h.toShows.recorded hrec htext
      · rw [hrs]
        exact htext
      · rw [hrs]
        exact iff_of_true hrec.fileInitialized (by simp)

/-- The run lemma. -/
theorem kept {h : List GuiEvent} {s : GuiPanel × List JsonVal}
    (hr : RunIf (logged qt) (fun _ _ e => e.Ordinary qt) (create.onMqttConnected, []) h s) : Kept s.1 s.2 := by
  refine hr.inv (I := fun _ s => Kept s.1 s.2) ?_ ?_
  · exact ⟨shows_create, rfl, rfl, by simp [create, onMqttConnected], by simp [create, onMqttConnected, waiting]⟩
  · intro h s e s' _ ih he hs
    exact ih.step he hs

theorem arrived_cons (e : GuiEvent) (h : List GuiEvent) : arrived qt (e :: h) = arrived qt h ++ (e.brings qt).toList := by
  rw [arrived, List.reverse_cons, List.filterMap_append, ← arrived]
  rcases hb : e.brings qt with _ | o <;> simp [hb]

/-- As long as no message meets another that waits, what was handled and what waits are what arrived. -/
theorem arrived_eq {h : List GuiEvent} {s : GuiPanel × List JsonVal}
    (hr : RunIf (logged qt) (fun _ s e => s.1.InTurn e) (create.onMqttConnected, []) h s) :
    s.1.connected = true ∧ arrived qt h = s.2 ++ s.1.waiting := by
  refine hr.inv (I := fun h s => s.1.connected = true ∧ arrived qt h = s.2 ++ s.1.waiting) ⟨rfl, rfl⟩ ?_
  intro h s e s' _ ih hturn hs
  obtain ⟨hc, harrived⟩ := ih
  obtain ⟨g', hstep, rfl⟩ := Option.map_eq_some_iff.mp hs
  have hempty : ∀ o, e.brings qt = some o → s.1.waiting = [] := by
    intro o ho
    rcases e with _ | ⟨payload, io⟩ | _
    · cases ho
    · exact hturn
    · cases ho
  obtain ⟨hc', ⟨hnone, -, hwait⟩ | ⟨o, io, g₀, hsome, -, -, -, ⟨hbrings, hwait⟩ | ⟨hbrings, hwas⟩⟩⟩ := step_cases hc hstep
  · refine ⟨hc', ?_⟩
    rw [arrived_cons, harrived, hnone, hwait]
    rcases hb : e.brings qt with _ | o
    · simp
    · simp [hempty o hb]
  · refine ⟨hc', ?_⟩
    rw [arrived_cons, harrived, hsome, hwait, hbrings, hempty o hbrings]
    simp
  · refine ⟨hc', ?_⟩
    rw [arrived_cons, harrived, hsome, hbrings, hwas]
    simp

/-- What is no report leaves the curves and the file as they were. -/
theorem sameRecord_of_no_reading {e : GuiEvent} (hc : g.connected = true) (hs : g.step qt e = some g')
    (hall : ∀ o, g.handles qt e = some o → AllOrNone o) (hnone : (g.handles qt e).bind reading = none) :
    SameRecord g g' := by
  obtain ⟨-, ⟨-, hsame, -⟩ | ⟨o, io, g₀, hsome, -, hsame, rfl, -⟩⟩ := step_cases hc hs
  · exact hsame
  · rw [hsome] at hnone
    exact hsame.trans (update_null ((hall o hsome).null hnone))

end Run

/-- **The curves and the file are the history of the reports**: of those that were handled, in order, and these are
those that arrived, as long as no message comes in while another one waits for its popup. -/
theorem history_kept {qt : QtJson} {h : List GuiEvent} {g : GuiPanel} {os : List JsonVal}
    (hr : RunIf (logged qt) (fun _ _ e => e.Ordinary qt) (create.onMqttConnected, []) h (g, os)) :
    g.Shows (os.filterMap reading) ∧
    (RunIf (logged qt) (fun _ s e => s.1.InTurn e) (create.onMqttConnected, []) h (g, os) → g.waiting = [] →
      g.Shows ((arrived qt h).filterMap reading)) ∧
    ∀ e g', g.step qt e = some g' → e.Ordinary qt → (g.handles qt e).bind reading = none → g.SameRecord g' := by
  have hk := kept hr
  refine ⟨hk.toShows, ?_, ?_⟩
  · intro hturn hwait
    rw [(arrived_eq hturn).2, hwait, List.append_nil]
    exact hk.toShows
  · intro e g' hs he hnone
    refine sameRecord_of_no_reading hk.connected hs ?_ hnone
    intro o ho
    rcases e with _ | ⟨payload, io⟩ | io
    · cases ho
    · refine he.1 o ?_
      rw [handles] at ho
      split_ifs at ho
      exact ho
    · refine hk.waiting o ?_
      rw [handles] at ho
      rcases hpop : g.popups with _ | ⟨_ | o', popups⟩
      · rw [hpop] at ho
        cases ho
      · rw [hpop] at ho
        cases ho
      · rw [hpop] at ho
        obtain rfl := Option.some.inj ho
        rw [waiting, hpop]
        exact List.mem_cons_self

/-! ## A run -/

/-- The object of a report. -/
def reported : JsonVal :=
  .object [(str "temperature", .number 21), (str "humidity", .number 40), (str "moisture", .number 60)]

def reportedText : Bytes := str "\x7b\"temperature\": 21, \"humidity\": 40, \"moisture\": 60\x7d"

/-- A reader that knows this text. -/
def reportedJson : QtJson :=
  ⟨fun payload => if payload = reportedText then some reported else none, fun _ => reportedText⟩

def opening : SaveIo := ⟨str "t.txt", true, true⟩

theorem object_reportedText : reportedJson.object reportedText = some reported := by
  simp [QtJson.object, reportedJson, reported, qtIsObject]

/-- The ping button is pressed, a report comes in, and its popup is closed. -/
theorem history_kept_pinged :
    ∃ g, RunIf (logged reportedJson) (fun _ _ e => e.Ordinary reportedJson) (create.onMqttConnected, [])
      [.popupClosed opening, .received reportedText opening, .slot .pingButton] (g, [reported]) ∧
      g.Shows [⟨21, 40, 60⟩] := by
  have hreading : reading reported = some ⟨21, 40, 60⟩ := rfl
  have hopens : opening.Opens := ⟨rfl, rfl⟩
  have hreceived : (GuiEvent.received reportedText opening).Ordinary reportedJson := by
    refine ⟨?_, hopens⟩
    intro o ho
    rw [object_reportedText] at ho
    obtain rfl := Option.some.inj ho
    exact .inl (by rw [hreading]; rfl)
  have hrun : RunIf (logged reportedJson) (fun _ _ e => e.Ordinary reportedJson) (create.onMqttConnected, [])
      [.popupClosed opening, .received reportedText opening, .slot .pingButton]
      (create.onMqttConnected.update opening reported, [reported]) := by
    have hpress : logged reportedJson (create.onMqttConnected, []) (.slot .pingButton) =
        some ({ create.onMqttConnected with pinged := true }, []) := rfl
    have hwait : logged reportedJson ({ create.onMqttConnected with pinged := true }, [])
        (.received reportedText opening) =
          some ({ create.onMqttConnected with popups := [some reported] }, []) := by
      simp [logged, step, handles, onMqttReceived, reportedJson, reported, qtIsObject, onMqttConnected, create]
    have hclose : logged reportedJson ({ create.onMqttConnected with popups := [some reported] }, [])
        (.popupClosed opening) = some (create.onMqttConnected.update opening reported, [reported]) := rfl
    exact .snoc (.snoc (.snoc .start trivial hpress) hreceived hwait) hopens hclose
  refine ⟨_, hrun, ?_⟩
  have hshows := (history_kept hrun).1
  rwa [List.filterMap_cons_some hreading] at hshows

end GuiPanel

end Thronix
