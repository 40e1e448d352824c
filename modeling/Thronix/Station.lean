import Thronix.Lib.Runs
import Thronix.MqttRecv
import Thronix.Sensors

/-!
# Thronix.Station — the tasks of `main.c` running side by side

* `Station`: the kernel objects, the relay port, and where each task stands.  Tasks: the one that receives messages
  and calls `Mqtt_Recv`, `ConnectWiFI`, `measurementsTask` and `wateringTask`.
* `Event`: one kernel call of one task (with the local computation up to its next call), or a call of the client
  library.  `Station.step` is possible when that call is the task's next one and does not block.
* A `SetBits` call makes the task waiting for the bit ready at once, whatever happens to the bit afterwards.
* `calls_sensorsReport`, `calls_mqttRecv`: in every run `ConnectWiFI` makes the calls of `sensorsReport` and a handler
  those of `mqttRecv`, in their order.

A message whose paths overrun the parser's buffer (`mqttRecv` is `none`) cannot be received in a run.
-/

namespace Thronix

open Json Lib

/-- Where `wateringTask` stands; after the peek it holds its `wateringTime`. -/
inductive WateringPc
  | start
  | waitBits
  | blocked
  | peek
  | relayOn (wateringTime : BitVec 32)
  | sleep (wateringTime : BitVec 32)
  | relayOff (wateringTime : BitVec 32)
  | report
  | clear
  deriving DecidableEq, Repr

/-- Where `measurementsTask` stands. -/
inductive MeasurementPc
  | waitBits
  | blocked
  | report
  | peek
  | sleep (samplingFreq : BitVec 32)
  deriving DecidableEq, Repr

/-- Where the loop of `ConnectWiFI` stands. -/
inductive ConnectPc
  | read
  | acquire
  | peek (d : SensorsData)
  | setBits (d : SensorsData)
  | readLevels
  | send (ps : List Publication)
  | ended
  deriving DecidableEq, Repr

structure Station where
  stores : Stores
  gpioA0 : Port
  pbQueue : List OsiMessages
  /-- The calls that `Mqtt_Recv` still has to make, while it runs. -/
  recv : Option (List StoreOp)
  connect : ConnectPc
  iConnBroker : ℤ
  measurement : MeasurementPc
  watering : WateringPc
  deriving DecidableEq, Repr

/-- What `main` leaves to the scheduler, the one connection made. -/
def Station.init : Station :=
  ⟨.create, gpioPinWrite 0 0x10 0, [], none, .read, 1, .waitBits, .start⟩

inductive Event
  | recvCall (cx : Context) (topstr payload : Bytes)
  | recvOp (op : StoreOp)
  | recvReturn
  | disconnect
  | msgQRead
  | acquire (stale : SensorsData) (x : Sht31) (a : Adc)
  | peekThresholds (th : SystemThresholds)
  | connectSetBits
  | readLevels (waterLevel : ℚ)
  | send (p : Publication)
  | measureWait
  | measureReport
  | measurePeek
  | measureSleep (samplingFreq : BitVec 32)
  | waterStart
  | waterWait
  | waterPeek
  | relayOn
  | waterSleep (wateringTime : BitVec 32)
  | relayOff
  | waterReport
  | waterClear

/-- A call on the stores; setting a bit makes the task that waits for it ready. -/
def Station.call (s : Station) (op : StoreOp) : Station :=
  { s with
    stores := s.stores.apply op
    measurement := if op = .setMeasurement ∧ s.measurement = .blocked then .report else s.measurement
    watering := if op = .setWater ∧ s.watering = .blocked then .peek else s.watering }

/-- `ConnectWiFI` after it has read a message. -/
def Station.received (s : Station) : OsiMessages → Station
  | .sensorsReport => { s with connect := .acquire }
  | .waterReport => { s with connect := .readLevels }
  | .brokerDisconnection =>
    { s with iConnBroker := s.iConnBroker - 1, connect := if s.iConnBroker - 1 < 1 then .ended else .read }

/-- The relay's pin. -/
def relayPin : BitVec 8 := 0x10

def Station.step (s : Station) : Event → Option Station
  -- the receiving task
  | .recvCall cx topstr payload =>
    if s.recv = none then (mqttRecv cx topstr payload).map fun ops => { s with recv := some ops } else none
  | .recvOp op =>
    match s.recv with
    | some (op' :: ops) => if op' = op then some { Station.call s op with recv := some ops } else none
    | _ => none
  | .recvReturn => if s.recv = some [] then some { s with recv := none } else none
  | .disconnect => some { s with pbQueue := osiMsgQWrite s.pbQueue .brokerDisconnection }
  -- ConnectWiFI
  | .msgQRead =>
    match s.connect, s.pbQueue with
    | .read, m :: q => some (Station.received { s with pbQueue := q } m)
    | _, _ => none
  | .acquire stale x a => if s.connect = .acquire then some { s with connect := .peek (stale.acquire x a) } else none
  | .peekThresholds th =>
    match s.connect with
    | .peek d =>
      if s.stores.thresholdsQueue.xQueuePeek noThresholds = th then
        some { s with connect := if waterNeeded th d then .setBits d else .send (publications (.sensors d)) }
      else none
    | _ => none
  | .connectSetBits =>
    match s.connect with
    | .setBits d => some { Station.call s .setWater with connect := .send (publications (.sensors d)) }
    | _ => none
  | .readLevels v =>
    if s.connect = .readLevels then some { s with connect := .send (publications (.waterLevel v)) } else none
  | .send p =>
    match s.connect with
    | .send (p' :: ps) => if p' = p then some { s with connect := if ps = [] then .read else .send ps } else none
    | _ => none
  -- measurementsTask
  | .measureWait =>
    if s.measurement = .waitBits then
      some { s with measurement := if s.stores.measurementFlag.test measurementStart then .report else .blocked }
    else none
  | .measureReport =>
    if s.measurement = .report then
      some { s with pbQueue := osiMsgQWrite s.pbQueue .sensorsReport, measurement := .peek }
    else none
  | .measurePeek =>
    if s.measurement = .peek then some { s with measurement := .sleep (s.stores.freqQueue.xQueuePeek 60000) } else none
  | .measureSleep t => if s.measurement = .sleep t then some { s with measurement := .waitBits } else none
  -- wateringTask
  | .waterStart =>
    if s.watering = .start then
      some { s with pbQueue := osiMsgQWrite s.pbQueue .waterReport, watering := .waitBits }
    else none
  | .waterWait =>
    if s.watering = .waitBits then
      some { s with watering := if s.stores.waterFlag.test wateringStart then .peek else .blocked }
    else none
  | .waterPeek =>
    if s.watering = .peek then some { s with watering := .relayOn (s.stores.waterQueue.xQueuePeek 5000) } else none
  | .relayOn =>
    match s.watering with
    | .relayOn t => some { s with gpioA0 := gpioPinWrite s.gpioA0 relayPin relayPin, watering := .sleep t }
    | _ => none
  | .waterSleep t => if s.watering = .sleep t then some { s with watering := .relayOff t } else none
  | .relayOff =>
    match s.watering with
    | .relayOff _ => some { s with gpioA0 := gpioPinWrite s.gpioA0 relayPin 0, watering := .report }
    | _ => none
  | .waterReport =>
    if s.watering = .report then
      some { s with pbQueue := osiMsgQWrite s.pbQueue .waterReport, watering := .clear }
    else none
  | .waterClear =>
    if s.watering = .clear then
      some { s with
        stores := { s.stores with waterFlag := s.stores.waterFlag.xEventGroupClearBits wateringStart }
        watering := .waitBits }
    else none

namespace Station

/-! ## Steps -/

section Steps

variable {s s' : Station}

@[grind =] theorem step_recvCall {cx : Context} {topstr payload : Bytes} :
    s.step (.recvCall cx topstr payload) = some s' ↔
      s.recv = none ∧ ∃ ops, mqttRecv cx topstr payload = some ops ∧ s' = { s with recv := some ops } := by
  by_cases h : s.recv = none
  · simp only [step, h, if_true, Option.map_eq_some_iff, true_and]
    exact exists_congr fun ops => and_congr_right fun _ => eq_comm
  · simp [step, h]

@[grind =] theorem step_recvOp {op : StoreOp} : s.step (.recvOp op) = some s' ↔
    ∃ ops, s.recv = some (op :: ops) ∧ s' = { s.call op with recv := some ops } := by
  simp only [step]
  rcases s.recv with _ | _ | ⟨op', ops⟩
  · simp
  · simp
  · simp only [guard_eq_some, Option.some.injEq, List.cons.injEq]
    constructor
    · rintro ⟨rfl, rfl⟩
      exact ⟨ops, ⟨rfl, rfl⟩, rfl⟩
    · rintro ⟨ops', ⟨rfl, rfl⟩, rfl⟩
      exact ⟨rfl, rfl⟩

@[grind =] theorem step_recvReturn :
    s.step .recvReturn = some s' ↔ s.recv = some [] ∧ s' = { s with recv := none } :=
  guard_eq_some

@[grind =] theorem step_disconnect :
    s.step .disconnect = some s' ↔ s' = { s with pbQueue := osiMsgQWrite s.pbQueue .brokerDisconnection } := by
  simp only [step, Option.some.injEq, eq_comm]

@[grind =] theorem step_msgQRead : s.step .msgQRead = some s' ↔
    ∃ m q, s.connect = .read ∧ s.pbQueue = m :: q ∧ s' = { s with pbQueue := q }.received m := by
  simp only [step]
  split <;> simp_all [eq_comm]

@[grind =] theorem step_acquire {stale : SensorsData} {x : Sht31} {a : Adc} :
    s.step (.acquire stale x a) = some s' ↔
      s.connect = .acquire ∧ s' = { s with connect := .peek (stale.acquire x a) } :=
  guard_eq_some

@[grind =] theorem step_peekThresholds {th : SystemThresholds} : s.step (.peekThresholds th) = some s' ↔
    ∃ d, s.connect = .peek d ∧ s.stores.thresholdsQueue.xQueuePeek noThresholds = th ∧
      s' = { s with connect := if waterNeeded th d then .setBits d else .send (publications (.sensors d)) } := by
  cases hc : s.connect with
  | peek d => simp only [step, hc, guard_eq_some, ConnectPc.peek.injEq, exists_eq_left']
  | _ => simp [step, hc]

@[grind =] theorem step_connectSetBits : s.step .connectSetBits = some s' ↔ ∃ d, s.connect = .setBits d ∧
    s' = { s.call .setWater with connect := .send (publications (.sensors d)) } := by
  simp only [step]
  split <;> simp_all [eq_comm]

@[grind =] theorem step_readLevels {v : ℚ} : s.step (.readLevels v) = some s' ↔
    s.connect = .readLevels ∧ s' = { s with connect := .send (publications (.waterLevel v)) } :=
  guard_eq_some

@[grind =] theorem step_send {p : Publication} : s.step (.send p) = some s' ↔ ∃ ps, s.connect = .send (p :: ps) ∧
    s' = { s with connect := if ps = [] then .read else .send ps } := by
  simp only [step]
  split
  · simp_all [eq_comm]
  · simp_all

@[grind =] theorem step_measureWait : s.step .measureWait = some s' ↔ s.measurement = .waitBits ∧
    s' = { s with measurement := if s.stores.measurementFlag.test measurementStart then .report else .blocked } :=
  guard_eq_some

@[grind =] theorem step_measureReport : s.step .measureReport = some s' ↔ s.measurement = .report ∧
    s' = { s with pbQueue := osiMsgQWrite s.pbQueue .sensorsReport, measurement := .peek } :=
  guard_eq_some

@[grind =] theorem step_measurePeek : s.step .measurePeek = some s' ↔ s.measurement = .peek ∧
    s' = { s with measurement := .sleep (s.stores.freqQueue.xQueuePeek 60000) } :=
  guard_eq_some

@[grind =] theorem step_measureSleep {t : BitVec 32} : s.step (.measureSleep t) = some s' ↔
    s.measurement = .sleep t ∧ s' = { s with measurement := .waitBits } :=
  guard_eq_some

@[grind =] theorem step_waterStart : s.step .waterStart = some s' ↔ s.watering = .start ∧
    s' = { s with pbQueue := osiMsgQWrite s.pbQueue .waterReport, watering := .waitBits } :=
  guard_eq_some

@[grind =] theorem step_waterWait : s.step .waterWait = some s' ↔ s.watering = .waitBits ∧
    s' = { s with watering := if s.stores.waterFlag.test wateringStart then .peek else .blocked } :=
  guard_eq_some

@[grind =] theorem step_waterPeek : s.step .waterPeek = some s' ↔ s.watering = .peek ∧
    s' = { s with watering := .relayOn (s.stores.waterQueue.xQueuePeek 5000) } :=
  guard_eq_some

@[grind =] theorem step_relayOn : s.step .relayOn = some s' ↔ ∃ t, s.watering = .relayOn t ∧
    s' = { s with gpioA0 := gpioPinWrite s.gpioA0 relayPin relayPin, watering := .sleep t } := by
  simp only [step]
  split <;> simp_all [eq_comm]

@[grind =] theorem step_waterSleep {t : BitVec 32} : s.step (.waterSleep t) = some s' ↔
    s.watering = .sleep t ∧ s' = { s with watering := .relayOff t } :=
  guard_eq_some

@[grind =] theorem step_relayOff : s.step .relayOff = some s' ↔ ∃ t, s.watering = .relayOff t ∧
    s' = { s with gpioA0 := gpioPinWrite s.gpioA0 relayPin 0, watering := .report } := by
  simp only [step]
  split <;> simp_all [eq_comm]

@[grind =] theorem step_waterReport : s.step .waterReport = some s' ↔ s.watering = .report ∧
    s' = { s with pbQueue := osiMsgQWrite s.pbQueue .waterReport, watering := .clear } :=
  guard_eq_some

@[grind =] theorem step_waterClear : s.step .waterClear = some s' ↔ s.watering = .clear ∧ s' = { s with
    stores := { s.stores with waterFlag := s.stores.waterFlag.xEventGroupClearBits wateringStart }
    watering := .waitBits } :=
  guard_eq_some

end Steps

end Station

/-! ## The calls of a sensor report -/

/-- A call of `ConnectWiFI`. -/
def Event.ofConnect : Event → Bool
  | .msgQRead => true
  | .acquire _ _ _ => true
  | .peekThresholds _ => true
  | .connectSetBits => true
  | .readLevels _ => true
  | .send _ => true
  | _ => false

def Event.reportCall : Event → Option ReportCall
  | .connectSetBits => some .setWater
  | .send p => some (.send p)
  | _ => none

/-- The calls made, oldest first. -/
def reportCalls (h : List Event) : List ReportCall := (h.filterMap Event.reportCall).reverse

/-- The calls that `ConnectWiFI` has still to make before it reads the next message. -/
def ConnectPc.pending : ConnectPc → List ReportCall
  | .setBits d => .setWater :: (publications (.sensors d)).map .send
  | .send ps => ps.map .send
  | _ => []

/-- After the peek, up to the next message. -/
def ConnectPc.reporting : ConnectPc → Bool
  | .setBits _ => true
  | .send _ => true
  | .read => true
  | _ => false

namespace Station

section Report

variable {s s' : Station}

theorem step_connect {e : Event} (he : e.ofConnect = false) (hs : s.step e = some s') : s'.connect = s.connect := by
  cases e with
  | msgQRead | acquire | peekThresholds | connectSetBits | readLevels | send => cases he
  | recvCall cx topstr payload =>
    obtain ⟨-, ops, -, rfl⟩ := step_recvCall.mp hs
    rfl
  | recvOp op =>
    obtain ⟨ops, -, rfl⟩ := step_recvOp.mp hs
    rfl
  | disconnect =>
    obtain rfl := step_disconnect.mp hs
    rfl
  | relayOn =>
    obtain ⟨t, -, rfl⟩ := step_relayOn.mp hs
    rfl
  | relayOff =>
    obtain ⟨t, -, rfl⟩ := step_relayOff.mp hs
    rfl
  | _ =>
    obtain ⟨-, rfl⟩ := guard_eq_some.mp hs
    rfl

/-- A step of a report: what is called goes from the calls to come to the calls made. -/
theorem step_reporting {e : Event} (he : e ≠ .msgQRead) (hs : s.step e = some s') (hr : s.connect.reporting = true) :
    s'.connect.reporting = true ∧ s.connect.pending = e.reportCall.toList ++ s'.connect.pending := by
  cases e with
  | msgQRead => exact absurd rfl he
  | acquire stale x a =>
    obtain ⟨hc, -⟩ := step_acquire.mp hs
    rw [hc] at hr
    cases hr
  | peekThresholds th =>
    obtain ⟨d, hc, -⟩ := step_peekThresholds.mp hs
    rw [hc] at hr
    cases hr
  | readLevels v =>
    obtain ⟨hc, -⟩ := step_readLevels.mp hs
    rw [hc] at hr
    cases hr
  | connectSetBits =>
    obtain ⟨d, hc, rfl⟩ := step_connectSetBits.mp hs
    exact ⟨rfl, by rw [hc]; rfl⟩
  | send p =>
    obtain ⟨ps, hc, rfl⟩ := step_send.mp hs
    rw [hc]
    rcases ps with _ | ⟨p', ps⟩
    · exact ⟨rfl, rfl⟩
    · exact ⟨rfl, rfl⟩
  | _ =>
    have hc := step_connect rfl hs
    rw [hc]
    exact ⟨hr, rfl⟩

theorem acquired {s₀ : Station} {mid pre : List Event} {stale : SensorsData} {x : Sht31} {a : Adc}
    (hr : Run Station.step s₀ (mid ++ .acquire stale x a :: pre) s) (hm : ∀ e ∈ mid, e.ofConnect = false) :
    s.connect = .peek (stale.acquire x a) := by
  induction mid generalizing s with
  | nil =>
    cases hr with
    | snoc _ _ hs =>
      obtain ⟨-, rfl⟩ := step_acquire.mp hs
      rfl
  | cons e mid ih =>
    cases hr with
    | snoc hr _ hs =>
      have hc := ih hr fun b hb => hm b (List.mem_cons_of_mem e hb)
      exact (step_connect (hm e List.mem_cons_self) hs).trans hc

/-- **The calls of a report.**  Once the thresholds are peeked, the calls made and the calls to come are those of
`sensorsReport`, up to the next message. -/
theorem calls_sensorsReport {s₀ : Station} {post mid pre : List Event} {stale : SensorsData} {x : Sht31} {a : Adc}
    {th : SystemThresholds} {q : Queue1 SystemThresholds} (hq : q.xQueuePeek noThresholds = th)
    (hr : Run Station.step s₀ (post ++ .peekThresholds th :: (mid ++ .acquire stale x a :: pre)) s)
    (hm : ∀ e ∈ mid, e.ofConnect = false) (hp : .msgQRead ∉ post) :
    s.connect.reporting = true ∧ reportCalls post ++ s.connect.pending = sensorsReport stale x a q := by
  induction post generalizing s with
  | nil =>
    cases hr with
    | snoc hr _ hs =>
      obtain ⟨d, hc, -, rfl⟩ := step_peekThresholds.mp hs
      obtain rfl := ConnectPc.peek.inj ((acquired hr hm).symm.trans hc)
      by_cases hw : waterNeeded th (stale.acquire x a) = true
      · rw [if_pos hw]
        exact ⟨rfl, by simp [sensorsReport, reportCalls, ConnectPc.pending, hq, hw]⟩
      · rw [if_neg hw]
        exact ⟨rfl, by simp [sensorsReport, reportCalls, ConnectPc.pending, hq, hw]⟩
  | cons e post ih =>
    obtain ⟨he, hp⟩ := not_or.mp (mt List.mem_cons.mpr hp)
    cases hr with
    | snoc hr _ hs =>
      obtain ⟨hrep, hcalls⟩ := ih hr hp
      obtain ⟨hrep', hpend⟩ := step_reporting (Ne.symm he) hs hrep
      refine ⟨hrep', ?_⟩
      rw [← hcalls, hpend, ← List.append_assoc]
      congr 1
      unfold reportCalls
      rcases hcall : e.reportCall with _ | c <;> simp [hcall]

end Report

end Station

/-! ## The calls of a handler -/

/-- A call or a return of the receiving task. -/
def Event.ofHandler : Event → Bool
  | .recvCall _ _ _ => true
  | .recvOp _ => true
  | .recvReturn => true
  | _ => false

def Event.handlerCall : Event → Option StoreOp
  | .recvOp op => some op
  | _ => none

/-- The calls made, oldest first. -/
def handlerCalls (h : List Event) : List StoreOp := (h.filterMap Event.handlerCall).reverse

namespace Station

section Handler

variable {s s' : Station}

theorem recv_eq {e : Event} (he : e.ofHandler = false) (hs : s.step e = some s') : s'.recv = s.recv := by
  cases e with
  | recvCall | recvOp | recvReturn => cases he
  | disconnect =>
    obtain rfl := step_disconnect.mp hs
    rfl
  | msgQRead =>
    obtain ⟨m, q, -, -, rfl⟩ := step_msgQRead.mp hs
    cases m <;> rfl
  | peekThresholds th =>
    obtain ⟨d, -, -, rfl⟩ := step_peekThresholds.mp hs
    rfl
  | connectSetBits =>
    obtain ⟨d, -, rfl⟩ := step_connectSetBits.mp hs
    rfl
  | send p =>
    obtain ⟨ps, -, rfl⟩ := step_send.mp hs
    rfl
  | relayOn =>
    obtain ⟨t, -, rfl⟩ := step_relayOn.mp hs
    rfl
  | relayOff =>
    obtain ⟨t, -, rfl⟩ := step_relayOff.mp hs
    rfl
  | _ =>
    obtain ⟨-, rfl⟩ := guard_eq_some.mp hs
    rfl

/-- **The calls of a handler.**  Until it returns, the calls made and the calls to come are those of `mqttRecv`. -/
theorem calls_mqttRecv {s₀ : Station} {post pre : List Event} {cx : Context} {topstr payload : Bytes}
    (hr : Run Station.step s₀ (post ++ .recvCall cx topstr payload :: pre) s) (hp : .recvReturn ∉ post) :
    ∃ ops, s.recv = some ops ∧ mqttRecv cx topstr payload = some (handlerCalls post ++ ops) := by
  induction post generalizing s with
  | nil =>
    cases hr with
    | snoc _ _ hs =>
      obtain ⟨-, ops, hops, rfl⟩ := step_recvCall.mp hs
      exact ⟨ops, rfl, hops⟩
  | cons e post ih =>
    obtain ⟨he, hp⟩ := not_or.mp (mt List.mem_cons.mpr hp)
    cases hr with
    | snoc hr _ hs =>
      obtain ⟨ops, hrecv, hops⟩ := ih hr hp
      cases e with
      | recvReturn => exact absurd rfl he
      | recvCall cx topstr payload =>
        obtain ⟨hidle, -⟩ := step_recvCall.mp hs
        rw [hrecv] at hidle
        cases hidle
      | recvOp op =>
        obtain ⟨ops', hrecv', rfl⟩ := step_recvOp.mp hs
        obtain rfl := Option.some.inj (hrecv.symm.trans hrecv')
        exact ⟨ops', rfl, by simpa [handlerCalls, Event.handlerCall] using hops⟩
      | _ => exact ⟨ops, (recv_eq rfl hs).trans hrecv, hops⟩

end Handler

end Station

end Thronix
