import Thronix.GuiPanel
import Thronix.Reports
import Thronix.Station

/-!
# Thronix.Ping — the ping of the GUI

GUI, broker and station together: what ends the wait for the answer to a ping.

* `Message`, `System.publish`: the broker puts a published message before each subscriber of its topic; the subscriber
  gets it at any later moment, in any order relative to other messages.
* `System.step`: the slots of the GUI, the deliveries, the station of Thronix.Station, and other clients.
* `Honest`: `pingRecived(true)` only after an answer of the station to the ping, and no other message ends the wait.
* `honest_iff_undisturbed`: a run is honest exactly if no object reaches the GUI while it waits; the station, whose
  handler has no case for the ping, answers in no run.
-/

namespace Thronix

open Lib Json

/-! ## Messages and their ways -/

inductive Sender
  | gui
  | station
  | client
  deriving DecidableEq, Repr

structure Message where
  sender : Sender
  topic : Bytes
  payload : Bytes
  deriving DecidableEq, Repr

/-- What an observer of the ping notes. -/
inductive Happening
  /-- The ping button was pressed. -/
  | pressed
  | published (m : Message)
  | stationReceived (m : Message)
  /-- `pingRecived(response)`, called while `m` was handled. -/
  | pingRecived (m : Message) (response : Bool)
  deriving DecidableEq, Repr

structure System where
  gui : GuiPanel
  station : Station
  /-- Messages on their way to the GUI. -/
  toGui : List Message
  /-- Messages on their way to the station. -/
  toStation : List Message
  retained : List Message
  /-- What has happened, the newest first. -/
  log : List Happening

/-- The connection of the station is made, the GUI's is not. -/
def System.init : System := ⟨.create, .init, [], [], [], []⟩

/-- The texts that the parties print: Qt's, and what `ConnectWiFI` has in `json_buffer` for a publication. -/
structure Texts extends QtJson where
  report : Publication → Bytes

/-- The station's subscriptions. -/
def stationSubscribed (topic : Bytes) : Bool := topic == topicPc || topic == topicLosant

/-- The message of a publication. -/
def Texts.message (tx : Texts) (p : Publication) : Message := ⟨.station, str p.topic, tx.report p⟩

/-- The message of a ping. -/
def Texts.ping (tx : Texts) : Message := ⟨.gui, str "/PC", tx.toJson (.object [(str "ping", .bool true)])⟩

namespace System

/-- The broker gets a message. -/
def publish (s : System) (m : Message) (retain : Bool) : System :=
  { s with
    toGui := if s.gui.connected && guiSubscribed m.topic then s.toGui ++ [m] else s.toGui
    toStation := if stationSubscribed m.topic then s.toStation ++ [m] else s.toStation
    retained := if retain then s.retained.filter (fun m' => m'.topic != m.topic) ++ [m] else s.retained
    log := .published m :: s.log }

/-- `SendMessage`; without a connection the client has no one to send to. -/
def sendMessage (tx : Texts) (s : System) (o : JsonVal) : System :=
  if s.gui.connected then s.publish ⟨.gui, str "/PC", tx.toJson o⟩ false else s

/-- `onMQTT_Connected`: with the subscriptions come the retained messages. -/
def guiConnected (s : System) : System :=
  { s with
    gui := s.gui.onMqttConnected
    toGui := s.toGui ++ s.retained.filter fun m => guiSubscribed m.topic }

/-- A slot of the GUI. -/
def guiSlot (tx : Texts) (s : System) (e : GuiSlot) : System :=
  let (gui, o) := s.gui.slot e
  let s := { s with gui := gui, log := if e = .pingButton then .pressed :: s.log else s.log }
  o.elim s (s.sendMessage tx)

/-- The GUI handles a message. -/
def guiReceive (tx : Texts) (s : System) (m : Message) (io : GuiPanel.SaveIo) : System :=
  let (gui, response) := GuiPanel.onMqttReceived tx.toQtJson s.gui io m.payload
  { s with
    gui := gui
    toGui := s.toGui.erase m
    log := response.elim s.log fun b => .pingRecived m b :: s.log }

end System

/-! ## The system -/

inductive SystemEvent
  | guiConnected
  | guiSlot (e : GuiSlot)
  | guiReceive (m : Message) (io : GuiPanel.SaveIo)
  | closePopup (io : GuiPanel.SaveIo)
  | stationReceive (cx : Context) (m : Message)
  | station (e : Event)
  | client (topic payload : Bytes) (retain : Bool)

/-- The publication of a step of the station. -/
def Event.publication : Event → Option Publication
  | .send p => some p
  | _ => none

/-- The station receives a message. -/
def Event.isRecvCall : Event → Bool
  | .recvCall _ _ _ => true
  | _ => false

def System.step (tx : Texts) (s : System) : SystemEvent → Option System
  -- the GUI
  | .guiConnected => some s.guiConnected
  | .guiSlot e => if s.gui.popups.isEmpty then some (s.guiSlot tx e) else none
  | .guiReceive m io => if m ∈ s.toGui then some (s.guiReceive tx m io) else none
  | .closePopup io => (s.gui.closePopup io).map fun gui => { s with gui := gui }
  -- the station; it receives what the broker brings
  | .stationReceive cx m =>
    if m ∈ s.toStation then
      (s.station.step (.recvCall cx m.topic m.payload)).map fun station =>
        { s with station := station, toStation := s.toStation.erase m, log := .stationReceived m :: s.log }
    else none
  | .station e =>
    if e.isRecvCall = false then
      (s.station.step e).map fun station =>
        let s := { s with station := station }
        e.publication.elim s fun p => s.publish (tx.message p) (p.retain != 0)
    else none
  -- any other client
  | .client topic payload retain => some (s.publish ⟨.client, topic, payload⟩ retain)

/-! ## What a ping answer means -/

section Meaning

variable (tx : Texts)

/-- A message of the station that is no sensor or water-level report. -/
def IsAnswer (m : Message) : Prop := m.sender = .station ∧ ∀ p, m ≠ tx.message p

/-- `pingRecived(true)` comes after the button, the station's receipt of the ping and its answer, in this order; and
what ends the wait is an answer. -/
structure Honest (log : List Happening) : Prop where
  positive : ∀ newer older m, log = newer ++ .pingRecived m true :: older →
    ∃ a b c d answer, older = a ++ .published answer :: (b ++ .stationReceived tx.ping :: (c ++ .pressed :: d)) ∧
      IsAnswer tx answer
  ends : ∀ m response, .pingRecived m response ∈ log → IsAnswer tx m

/-- The step does not show an object to a GUI that waits for an answer. -/
def Undisturbed (_ : List SystemEvent) (s : System) : SystemEvent → Prop
  | .guiReceive m _ =>
    s.gui.connected = true → s.gui.pinged = true → ∀ o, tx.fromJson m.payload = some o → qtIsObject o = false
  | _ => True

end Meaning

/-! ## What the station publishes -/

/-- A call of `pingRecived`. -/
def Happening.isPingRecived : Happening → Bool
  | .pingRecived _ _ => true
  | _ => false

section Reports

variable (tx : Texts)

/-- A message of the station is a report. -/
def ReportIfStation (m : Message) : Prop := m.sender = .station → ∃ p, m = tx.message p

variable {tx} {s s' : System} {m : Message}

theorem ReportIfStation.not_isAnswer (h : ReportIfStation tx m) : ¬ IsAnswer tx m := by
  rintro ⟨hsender, hno⟩
  obtain ⟨p, hp⟩ := h hsender
  exact hno p hp

variable (tx) in
/-- Nothing on its way is an answer, and no answer was handled. -/
structure OnlyReports (s : System) : Prop where
  toGui : ∀ m ∈ s.toGui, ReportIfStation tx m
  retained : ∀ m ∈ s.retained, ReportIfStation tx m
  log : ∀ m response, .pingRecived m response ∈ s.log → ReportIfStation tx m

/-- A list that may get one more message. -/
theorem forall_mem_ite_snoc {P : Message → Prop} {c : Prop} [Decidable c] {l l' : List Message}
    (hl : ∀ a ∈ l, P a) (hl' : ∀ a ∈ l', P a) (hm : P m) : ∀ a ∈ if c then l' ++ [m] else l, P a := by
  intro a ha
  split_ifs at ha
  · rcases List.mem_append.mp ha with hold | hnew
    · exact hl' a hold
    · exact List.mem_singleton.mp hnew ▸ hm
  · exact hl a ha

/-- Another happening leaves what the log says of `pingRecived`. -/
theorem OnlyReports.cons (h : OnlyReports tx s) {a : Happening} (ha : a.isPingRecived = false) :
    OnlyReports tx { s with log := a :: s.log } where
  toGui := h.toGui
  retained := h.retained
  log m response hmem := by
    rcases List.mem_cons.mp hmem with rfl | hold
    · cases ha
    · exact h.log m response hold

theorem OnlyReports.publish (h : OnlyReports tx s) (hm : ReportIfStation tx m) (retain : Bool) :
    OnlyReports tx (s.publish m retain) where
  toGui := forall_mem_ite_snoc h.toGui h.toGui hm
  retained := forall_mem_ite_snoc h.retained (fun a ha => h.retained a (List.mem_of_mem_filter ha)) hm
  log := (h.cons rfl).log

theorem OnlyReports.sendMessage (h : OnlyReports tx s) (o : JsonVal) : OnlyReports tx (s.sendMessage tx o) := by
  unfold System.sendMessage
  split_ifs
  · exact h.publish (fun hs => Sender.noConfusion hs) false
  · exact h

theorem OnlyReports.guiSlot (h : OnlyReports tx s) (e : GuiSlot) : OnlyReports tx (s.guiSlot tx e) := by
  unfold System.guiSlot
  dsimp only
  have hpress : ∀ gui : GuiPanel,
      OnlyReports tx { s with gui := gui, log := if e = .pingButton then .pressed :: s.log else s.log } := by
    intro gui
    have h' : OnlyReports tx { s with gui := gui } := ⟨h.toGui, h.retained, h.log⟩
    by_cases he : e = .pingButton
    · rw [if_pos he]
      exact h'.cons rfl
    · rw [if_neg he]
      exact h'
  rcases (s.gui.slot e).2 with _ | o
  · exact hpress _
  · exact (hpress _).sendMessage o

theorem OnlyReports.step (h : OnlyReports tx s) {e : SystemEvent} (hs : s.step tx e = some s') :
    OnlyReports tx s' := by
  cases e with
  | guiConnected =>
    obtain rfl := Option.some.inj hs
    refine ⟨fun m hm => ?_, h.retained, h.log⟩
    rcases List.mem_append.mp hm with hold | hret
    · exact h.toGui m hold
    · exact h.retained m (List.mem_of_mem_filter hret)
  | guiSlot e =>
    obtain ⟨-, rfl⟩ := guard_eq_some.mp hs
    exact h.guiSlot e
  | guiReceive m io =>
    obtain ⟨hm, rfl⟩ := guard_eq_some.mp hs
    refine ⟨fun m' hm' => h.toGui m' (List.mem_of_mem_erase hm'), h.retained, fun m' response hmem => ?_⟩
    unfold System.guiReceive at hmem
    dsimp only at hmem
    rcases hb : (GuiPanel.onMqttReceived tx.toQtJson s.gui io m.payload).2 with _ | b
    · rw [hb] at hmem
      exact h.log m' response hmem
    · rw [hb] at hmem
      rcases List.mem_cons.mp hmem with hnew | hold
      · cases hnew
        exact h.toGui m hm
      · exact h.log m' response hold
  | closePopup io =>
    obtain ⟨gui, -, rfl⟩ := Option.map_eq_some_iff.mp hs
    exact ⟨h.toGui, h.retained, h.log⟩
  | stationReceive cx m =>
    obtain ⟨-, hs⟩ := Option.ite_none_right_eq_some.mp hs
    obtain ⟨station, -, rfl⟩ := Option.map_eq_some_iff.mp hs
    exact ⟨h.toGui, h.retained, (h.cons rfl).log⟩
  | station e =>
    obtain ⟨-, hs⟩ := Option.ite_none_right_eq_some.mp hs
    obtain ⟨station, -, rfl⟩ := Option.map_eq_some_iff.mp hs
    have h' : OnlyReports tx { s with station := station } := ⟨h.toGui, h.retained, h.log⟩
    rcases e.publication with _ | p
    · exact h'
    · exact h'.publish (fun _ => ⟨p, rfl⟩) _
  | client topic payload retain =>
    obtain rfl := Option.some.inj hs
    exact h.publish (fun hs => Sender.noConfusion hs) retain

/-- The station answers in no run. -/
theorem onlyReports {h : List SystemEvent} (hr : Run (System.step tx) .init h s) : OnlyReports tx s :=
  hr.inv (I := fun _ s => OnlyReports tx s)
    ⟨fun _ hm => absurd hm List.not_mem_nil, fun _ hm => absurd hm List.not_mem_nil,
      fun _ _ hm => absurd hm List.not_mem_nil⟩
    fun _ _ _ _ _ hI _ hs => hI.step hs

end Reports

/-! ## What ends the wait -/

/-- `pingRecived` has not been called. -/
def Unanswered (log : List Happening) : Prop := ∀ a ∈ log, a.isPingRecived = false

instance (log : List Happening) : Decidable (Unanswered log) := inferInstanceAs (Decidable (∀ a ∈ log, _))

section Wait

variable {tx : Texts} {s s' : System}

theorem unanswered_cons {a : Happening} {log : List Happening} :
    Unanswered (a :: log) ↔ a.isPingRecived = false ∧ Unanswered log :=
  List.forall_mem_cons

theorem unanswered_publish {m : Message} {retain : Bool} : Unanswered (s.publish m retain).log ↔ Unanswered s.log := by
  unfold System.publish
  rw [unanswered_cons]
  exact and_iff_right rfl

theorem unanswered_guiSlot {e : GuiSlot} : Unanswered (s.guiSlot tx e).log ↔ Unanswered s.log := by
  have hpress : Unanswered (if e = .pingButton then .pressed :: s.log else s.log) ↔ Unanswered s.log := by
    split_ifs
    · rw [unanswered_cons]
      exact and_iff_right rfl
    · exact Iff.rfl
  unfold System.guiSlot System.sendMessage
  dsimp only
  rcases (s.gui.slot e).2 with _ | o
  · exact hpress
  · rw [Option.elim_some]
    split
    · rw [unanswered_publish]
      exact hpress
    · exact hpress

/-- A message calls `pingRecived` exactly if it disturbs. -/
theorem unanswered_guiReceive {m : Message} {io : GuiPanel.SaveIo} {h : List SystemEvent} :
    Unanswered (s.guiReceive tx m io).log ↔ Unanswered s.log ∧ Undisturbed tx h s (.guiReceive m io) := by
  rw [Undisturbed, ← GuiPanel.response_eq_none_iff tx.toQtJson s.gui io m.payload]
  unfold System.guiReceive
  dsimp only
  rcases (GuiPanel.onMqttReceived tx.toQtJson s.gui io m.payload).2 with _ | b
  · exact (and_iff_left rfl).symm
  · rw [Option.elim_some, unanswered_cons]
    exact ⟨fun hu => (Bool.noConfusion hu.1), nofun⟩

/-- A step keeps the wait exactly if it does not disturb it. -/
theorem unanswered_step {e : SystemEvent} {h : List SystemEvent} (hs : s.step tx e = some s') :
    Unanswered s'.log ↔ Unanswered s.log ∧ Undisturbed tx h s e := by
  cases e with
  | guiConnected =>
    obtain rfl := Option.some.inj hs
    exact (and_iff_left trivial).symm
  | guiSlot e =>
    obtain ⟨-, rfl⟩ := guard_eq_some.mp hs
    rw [unanswered_guiSlot]
    exact (and_iff_left trivial).symm
  | guiReceive m io =>
    obtain ⟨-, rfl⟩ := guard_eq_some.mp hs
    exact unanswered_guiReceive
  | closePopup io =>
    obtain ⟨gui, -, rfl⟩ := Option.map_eq_some_iff.mp hs
    exact (and_iff_left trivial).symm
  | stationReceive cx m =>
    obtain ⟨-, hs⟩ := Option.ite_none_right_eq_some.mp hs
    obtain ⟨station, -, rfl⟩ := Option.map_eq_some_iff.mp hs
    rw [unanswered_cons]
    exact ⟨fun hu => ⟨hu.2, trivial⟩, fun hu => ⟨rfl, hu.1⟩⟩
  | station e =>
    obtain ⟨-, hs⟩ := Option.ite_none_right_eq_some.mp hs
    obtain ⟨station, -, rfl⟩ := Option.map_eq_some_iff.mp hs
    refine Iff.trans ?_ (and_iff_left trivial).symm
    rcases e.publication with _ | p
    · exact Iff.rfl
    · exact unanswered_publish
  | client topic payload retain =>
    obtain rfl := Option.some.inj hs
    rw [unanswered_publish]
    exact (and_iff_left trivial).symm

/-- The wait of a run is not ended exactly if no step disturbs it. -/
theorem unanswered_iff {h : List SystemEvent} (hr : Run (System.step tx) .init h s) :
    Unanswered s.log ↔ RunIf (System.step tx) (Undisturbed tx) .init h s := by
  constructor
  · intro hu
    induction hr with
    | start => exact .start
    | @snoc h s s' e hr _ he ih =>
      obtain ⟨hold, hok⟩ := (unanswered_step (h := h) he).mp hu
      exact .snoc (ih hold) hok he
  · intro hok
    exact hok.inv (I := fun _ s => Unanswered s.log) (fun _ ha => absurd ha List.not_mem_nil)
      fun _ _ _ _ _ hI hok he => (unanswered_step he).mpr ⟨hI, hok⟩

/-- **A positive answer to a ping.**  In a run, `pingRecived(true)` follows an answer of the station and nothing else
ends the wait, if and only if no object is shown to the GUI while it waits. -/
theorem honest_iff_undisturbed {h : List SystemEvent} (hr : Run (System.step tx) .init h s) :
    Honest tx s.log ↔ RunIf (System.step tx) (Undisturbed tx) .init h s := by
  have hreports := onlyReports hr
  rw [← unanswered_iff hr]
  constructor
  · intro hh a ha
    rcases a with _ | _ | _ | ⟨m, response⟩
    · rfl
    · rfl
    · rfl
    · exact absurd (hh.ends m response ha) (hreports.log m response ha).not_isAnswer
  · intro hu
    refine ⟨fun newer older m hlog => ?_, fun m response hmem => ?_⟩
    · have := hu _ (hlog ▸ List.mem_append_right newer List.mem_cons_self)
      cases this
    · have := hu _ hmem
      cases this

end Wait

/-! ## Two runs -/

/-- Texts that are right for the ping: Qt's indented object, and a reader that takes it back. -/
def pingTexts : Texts where
  fromJson := readJson
  toJson _ := str "\x7b\n    \"ping\": true\n\x7d\n"
  report p := p.report.message p.underData

def noFile : GuiPanel.SaveIo := ⟨[], false, false⟩

/-- A message that is no JSON. -/
def hello : Message := ⟨.client, str "/PC", str "hello"⟩

/-- The button is pressed, the GUI gets a message that is no JSON, and the station handles the ping. -/
def pingHandled : List SystemEvent :=
  [.guiConnected, .guiSlot .pingButton, .client hello.topic hello.payload false, .guiReceive hello noFile,
    .stationReceive .blank pingTexts.ping, .station .recvReturn]

theorem honest_iff_undisturbed_pingHandled :
    ∃ s, Run (System.step pingTexts) .init pingHandled.reverse s ∧
      (Honest pingTexts s.log ↔ RunIf (System.step pingTexts) (Undisturbed pingTexts) .init pingHandled.reverse s) ∧
      Unanswered s.log ∧ s.gui.pinged = true := by
  obtain ⟨s, hr, hs⟩ := run_of_exec (System.step pingTexts) .init pingHandled
    (fun s => decide (Unanswered s.log) && s.gui.pinged) (by decide +kernel : _ = some true)
  obtain ⟨hu, hp⟩ := Bool.and_eq_true_iff.mp hs
  exact ⟨s, hr, honest_iff_undisturbed hr, of_decide_eq_true hu, hp⟩

/-- The button is pressed, and the GUI gets its own ping back. -/
def pingEchoed : List SystemEvent := [.guiConnected, .guiSlot .pingButton, .guiReceive pingTexts.ping noFile]

theorem echo_taken_for_answer :
    ∃ s, Run (System.step pingTexts) .init pingEchoed.reverse s ∧
      s.log = [.pingRecived pingTexts.ping true, .published pingTexts.ping, .pressed] ∧ ¬ Honest pingTexts s.log := by
  obtain ⟨s, hr, hs⟩ := run_of_exec (System.step pingTexts) .init pingEchoed (fun s => s.log)
    (by decide +kernel : _ = some [.pingRecived pingTexts.ping true, .published pingTexts.ping, .pressed])
  refine ⟨s, hr, hs, fun hh => ?_⟩
  have hend := hh.ends pingTexts.ping true (hs ▸ List.mem_cons_self)
  exact Sender.noConfusion hend.1

end Thronix
