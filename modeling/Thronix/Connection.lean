import Thronix.MqttClient
import Thronix.Platform
import Thronix.Lib.Runs

/-!
# Thronix.Connection — the broker connection, seen by the library and by the application

`sl_mqtt_client.c` over the context of Thronix.MqttClient, and `ConnectWiFI` over both, from the creation of the
context to the report loop.

* `Session.step`: the application task inside one API call after the other, the receive task between two packets or
  closing the connection, and the tasks that write to `g_PBQueue`.  The steps of one API call interleave with those
  of the receive task; the mutex of the library is respected.
* `usrConnectConfig`: what `usr_connect_config` compiles in.
* `Uninformed`: in every run with this configuration the callback of the application is not called, so the report
  loop runs on with `is_connected` set.
* `views_disagree`: no state of the kind that calls for agreement has it, and the report loop goes on.
-/

namespace Thronix

open Lib

/-! ## The parties -/

/-- The fields of `sl_client_ctx` that the calls use; no awaited acknowledgement is 0 there. -/
structure SlClientCtx where
  inUse : Bool
  awaitedAck : Option MqttMsg
  connAck : BitVec 16
  /-- `ack_sync_obj` is signalled. -/
  ackSyncObj : Bool
  blockingSend : Bool
  deriving DecidableEq, Repr

/-- What is left of `connect_config`: the flag of `broker_config`. -/
structure ConnectConfig where
  blockingSend : Bool
  deriving DecidableEq, Repr

/-- `usr_connect_config[0]`. -/
def usrConnectConfig : ConnectConfig := ⟨true⟩

/-- The API calls of `ConnectWiFI`, in the order of their first use. -/
inductive ApiCall
  | connect
  | sub
  | disconnect
  | send (qos : MqttQos)
  deriving DecidableEq, Repr

/-- Where an API call stands: before the test of the connection, before `awaited_ack` is set, before the packet is
sent, before the wait for the acknowledgement, and before `awaited_ack` is cleared. -/
inductive ApiPc
  | check
  | arm
  | dispatch
  | wait
  | exit (ret : ℤ)
  deriving DecidableEq, Repr

/-- Where `ConnectWiFI` stands. -/
inductive ConnectWiFiPc
  | api (c : ApiCall) (p : ApiPc)
  | ctxDelete
  | msgQRead
  | ended
  deriving DecidableEq, Repr

/-- Where the receive task stands; `locked`: it holds the mutex of the library. -/
inductive RxPc
  | idle
  | closing (locked : Bool)
  | callback (locked : Bool)
  /-- It waits for the mutex that it holds itself. -/
  | deadlocked
  deriving DecidableEq, Repr

def RxPc.locked : RxPc → Bool
  | idle => false
  | closing l | callback l => l
  | deadlocked => true

structure Session where
  ctx : ClientCtx
  sl : SlClientCtx
  rx : RxPc
  connect : ConnectWiFiPc
  pbQueue : List OsiMessages
  isConnected : Bool
  iConnBroker : ℤ
  /-- The library has closed the connection. -/
  closed : Bool
  /-- `process_disconn_cb` has returned. -/
  returned : Bool
  /-- The writes of `BROKER_DISCONNECTION` to `g_PBQueue`. -/
  disconnections : ℕ
  deriving DecidableEq, Repr

/-- After `sl_ExtLib_MqttClientCtxCreate`. -/
def Session.init (cfg : ConnectConfig) : Session :=
  ⟨.create, ⟨true, none, 0, false, cfg.blockingSend⟩, .idle, .api .connect .arm, [], false, 0, false, false, 0⟩

/-! ## The callbacks -/

namespace SlClientCtx

/-- `process_notify_ack_cb`; without `blocking_send` it calls `sl_MqttEvt`, which only prints. -/
def processNotifyAckCb (sl : SlClientCtx) : AckNotify → SlClientCtx
  | .connack connAck => { sl with connAck := connAck, awaitedAck := none, ackSyncObj := true }
  | .ack msgType =>
    if sl.blockingSend then
      if sl.awaitedAck = some msgType then { sl with awaitedAck := none, ackSyncObj := true } else sl
    else sl

end SlClientCtx

namespace Session

/-- `sl_MqttDisconnect`, called by the receive task; `locked`: inside the mutex, for which the deletion of the
context then waits for ever.  The connection is closed, so `sl_ExtLib_MqttClientUnsub` clears `awaited_ack` and
sends nothing. -/
def slMqttDisconnect (s : Session) (locked : Bool) : Session :=
  let s := { s with sl := { s.sl with awaitedAck := none }, isConnected := false }
  if locked then { s with rx := .deadlocked }
  else
    let s :=
      match s.ctx.mqttClientCtxDelete with
      | some ctx => { s with ctx := ctx, sl := ⟨false, none, 0, false, false⟩ }
      | none => s
    { s with
      pbQueue := osiMsgQWrite s.pbQueue .brokerDisconnection
      disconnections := s.disconnections + 1
      rx := .idle
      returned := true }

/-- `process_disconn_cb`. -/
def processDisconnCb (s : Session) (locked : Bool) : Session :=
  if s.sl.awaitedAck ≠ none then
    { s with sl := { s.sl with awaitedAck := some .disconnect, ackSyncObj := true }, rx := .idle, returned := true }
  else if s.sl.blockingSend = false then s.slMqttDisconnect locked
  else { s with rx := .idle, returned := true }

/-! ## The API calls -/

/-- `ConnectWiFI` after an API call has returned. -/
def resume (s : Session) : ApiCall → ℤ → Session
  | .connect, ret =>
    if ret % 0x100 ≠ 0 then { s with connect := .ctxDelete }
    else { s with isConnected := true, iConnBroker := s.iConnBroker + 1, connect := .api .sub .check }
  | .sub, ret => { s with connect := if ret < 0 then .api .disconnect .check else .msgQRead }
  | .disconnect, _ => { s with isConnected := false, iConnBroker := s.iConnBroker - 1, connect := .ctxDelete }
  | .send .qos2, _ => { s with connect := .api (.send .qos0) .check }
  | .send _, _ => { s with connect := .msgQRead }

/-- The test of the connection.  `sl_ExtLib_MqttClientConnect` makes none. -/
def check (s : Session) (c : ApiCall) : Session :=
  if s.ctx.isConnected then { s with connect := .api c .arm }
  else if c = .sub then { s with connect := .api c (.exit (-1)) }
  else s.resume c (-1)

/-- `awaited_ack` before the packet is sent. -/
def arm (s : Session) (c : ApiCall) : Session :=
  let sl :=
    match c with
    | .connect => { s.sl with awaitedAck := some .connack, connAck := 0 }
    | .sub => if s.sl.blockingSend then { s.sl with awaitedAck := some .suback } else s.sl
    | .disconnect => { s.sl with awaitedAck := some .disconnect }
    | .send .qos0 => s.sl
    | .send .qos1 => { s.sl with awaitedAck := some .puback }
    | .send .qos2 => { s.sl with awaitedAck := some .pubcomp }
  { s with sl := sl, connect := .api c .dispatch }

/-- The call waits for the receive task after its packet. -/
def waits (s : Session) : ApiCall → Bool
  | .connect | .disconnect => true
  | .sub => s.sl.blockingSend
  | .send qos => qos != .qos0 && s.sl.blockingSend

/-- After the packet: `sent` if the library returned no error. -/
def dispatched (s : Session) (c : ApiCall) (r : Bool × ClientCtx) : Session :=
  { s with
    ctx := r.2
    connect := .api c (if r.1 then if s.waits c then .wait else .exit 0 else .exit (-1)) }

/-- The packet of a call other than `sl_ExtLib_MqttClientConnect`; `mqp`: there is a packet buffer for it. -/
def dispatch (s : Session) (c : ApiCall) (mqp : Bool) (o : NetSend) : Option Session :=
  match c with
  | .connect => none
  | .disconnect => some (s.dispatched c (true, s.ctx.mqttDisconnSend o))
  | .sub => some (s.dispatched c (if mqp then s.ctx.msgDispatch .qos1 o else (false, s.ctx)))
  | .send qos => some (s.dispatched c (if mqp then s.ctx.msgDispatch qos o else (false, s.ctx)))

/-- What a call returns after the wait. -/
def waited (s : Session) : ApiCall → ℤ
  | .connect => if s.sl.awaitedAck = some .disconnect then -1 else s.sl.connAck.toNat
  | .disconnect => 0
  | .sub | .send _ => if s.sl.awaitedAck = some .disconnect then -1 else 0

/-- `sl_ExtLib_MqttClientCtxDelete` after a failed call, and the branch to `end`. -/
def ctxDelete (s : Session) : Session :=
  let connect := if s.iConnBroker < 1 then .ended else .msgQRead
  match s.ctx.mqttClientCtxDelete with
  | some ctx => { s with ctx := ctx, sl := ⟨false, none, 0, false, false⟩, connect := connect }
  | none => { s with connect := connect }

/-- The loop of `ConnectWiFI` after it has read a message: both reports are sent twice, with QoS 2 and QoS 0. -/
def received (s : Session) : OsiMessages → Session
  | .sensorsReport | .waterReport => { s with connect := .api (.send .qos2) .check }
  | .brokerDisconnection =>
    { s with iConnBroker := s.iConnBroker - 1, connect := if s.iConnBroker - 1 < 1 then .ended else .msgQRead }

end Session

/-! ## The system -/

inductive SessionEvent
  | check
  | arm
  | connectSend (opened : Bool) (o : NetSend) (triggered : Bool)
  | dispatch (mqp : Bool) (o : NetSend)
  | wake
  | ret
  | ctxDelete
  | msgQRead
  /-- A packet from the broker; `o` is what the socket makes of the answer. -/
  | recv (m : Packet) (o : NetSend)
  /-- The socket reports an error. -/
  | recvError
  /-- What the receive task does before it waits for a packet. -/
  | rxPrep (timedOut : Bool) (o : NetSend)
  | netClose
  | disconnCb
  | measureReport
  | waterReport
  deriving DecidableEq, Repr

/-- The receive task can receive. -/
def Session.Receiving (s : Session) : Prop := s.rx = .idle ∧ s.ctx.used = true ∧ s.ctx.net = true

instance (s : Session) : Decidable s.Receiving := inferInstanceAs (Decidable (_ ∧ _))

def Session.step (s : Session) : SessionEvent → Option Session
  -- the application task
  | .check =>
    match s.connect with
    | .api c .check => some (s.check c)
    | _ => none
  | .arm =>
    match s.connect with
    | .api c .arm => some (s.arm c)
    | _ => none
  | .connectSend opened o triggered =>
    if s.connect = .api .connect .dispatch ∧ s.rx.locked = false then
      some (s.dispatched .connect (s.ctx.connStateTry opened o triggered))
    else none
  | .dispatch mqp o =>
    match s.connect with
    | .api c .dispatch => if s.rx.locked = false then s.dispatch c mqp o else none
    | _ => none
  | .wake =>
    match s.connect with
    | .api c .wait =>
      if s.sl.ackSyncObj = true then
        some { s with sl := { s.sl with ackSyncObj := false }, connect := .api c (.exit (s.waited c)) }
      else none
    | _ => none
  | .ret =>
    match s.connect with
    | .api c (.exit r) =>
      let connAck := if c = .connect then 0 else s.sl.connAck
      some (Session.resume { s with sl := { s.sl with awaitedAck := none, connAck := connAck } } c r)
    | _ => none
  | .ctxDelete => if s.connect = .ctxDelete ∧ s.rx.locked = false then some s.ctxDelete else none
  | .msgQRead =>
    match s.connect, s.pbQueue with
    | .msgQRead, m :: q => some (Session.received { s with pbQueue := q } m)
    | _, _ => none
  -- the receive task
  | .recv m o =>
    if s.Receiving then
      (s.ctx.processRecv m o).map fun p =>
        { s with
          ctx := p.ctx
          sl := p.ackNotify.elim s.sl s.sl.processNotifyAckCb
          rx := if p.rv = false ∨ m.refuses = true then .closing true else .idle }
    else none
  | .recvError => if s.Receiving then some { s with rx := .closing true } else none
  | .rxPrep timedOut o =>
    if s.Receiving then
      let (good, ctx) := s.ctx.singleCtxRxPrep timedOut o
      some { s with ctx := ctx, rx := if good then .idle else .closing false }
    else none
  | .netClose =>
    match s.rx with
    | .closing l => some { s with ctx := s.ctx.doNetClose, rx := .callback l, closed := true }
    | _ => none
  | .disconnCb =>
    match s.rx with
    | .callback l =>
      -- the callbacks are gone if the application has deleted the context in between
      let s := { s with ctx := { s.ctx with used := false } }
      if s.ctx.callbacks then some (s.processDisconnCb l) else some { s with rx := .idle }
    | _ => none
  -- the other tasks
  | .measureReport => some { s with pbQueue := osiMsgQWrite s.pbQueue .sensorsReport }
  | .waterReport => some { s with pbQueue := osiMsgQWrite s.pbQueue .waterReport }

/-! ### What a step has done -/

namespace Session

section Steps

variable {s s' : Session}

theorem step_check : s.step .check = some s' ↔ ∃ c, s.connect = .api c .check ∧ s' = s.check c := by
  unfold step
  constructor
  · intro hs
    dsimp only at hs
    split at hs
    case h_1 c hc => exact ⟨c, hc, (Option.some.inj hs).symm⟩
    case h_2 => cases hs
  · rintro ⟨c, hc, rfl⟩
    simp only [hc]

theorem step_arm : s.step .arm = some s' ↔ ∃ c, s.connect = .api c .arm ∧ s' = s.arm c := by
  unfold step
  constructor
  · intro hs
    dsimp only at hs
    split at hs
    case h_1 c hc => exact ⟨c, hc, (Option.some.inj hs).symm⟩
    case h_2 => cases hs
  · rintro ⟨c, hc, rfl⟩
    simp only [hc]

theorem step_connectSend {opened triggered : Bool} {o : NetSend} :
    s.step (.connectSend opened o triggered) = some s' ↔ (s.connect = .api .connect .dispatch ∧ s.rx.locked = false) ∧
      s' = s.dispatched .connect (s.ctx.connStateTry opened o triggered) :=
  guard_eq_some

theorem step_dispatch {mqp : Bool} {o : NetSend} (hs : s.step (.dispatch mqp o) = some s') :
    ∃ c, s.connect = .api c .dispatch ∧ c ≠ .connect ∧ ∃ r, s' = s.dispatched c r ∧ ClientCtx.Kept s.ctx r.2 := by
  unfold step at hs
  dsimp only at hs
  split at hs
  case h_2 => cases hs
  case h_1 c hc =>
    split_ifs at hs
    have hkept : ∀ qos, ClientCtx.Kept s.ctx (if mqp then s.ctx.msgDispatch qos o else (false, s.ctx)).2 := by
      intro qos
      split_ifs
      · exact s.ctx.kept_msgDispatch qos o
      · exact ⟨rfl, rfl, rfl, rfl⟩
    refine ⟨c, hc, ?_⟩
    unfold dispatch at hs
    rcases c with _ | _ | _ | qos
    · cases hs
    · obtain rfl := Option.some.inj hs
      exact ⟨nofun, _, rfl, hkept .qos1⟩
    · obtain rfl := Option.some.inj hs
      exact ⟨nofun, _, rfl, s.ctx.kept_mqttDisconnSend o⟩
    · obtain rfl := Option.some.inj hs
      exact ⟨nofun, _, rfl, hkept qos⟩

theorem step_wake (hs : s.step .wake = some s') :
    ∃ c, s.connect = .api c .wait ∧
      s' = { s with sl := { s.sl with ackSyncObj := false }, connect := .api c (.exit (s.waited c)) } := by
  unfold step at hs
  dsimp only at hs
  split at hs
  case h_1 c hc => exact ⟨c, hc, (guard_eq_some.mp hs).2⟩
  case h_2 => cases hs

theorem step_ret (hs : s.step .ret = some s') :
    ∃ c r connAck, s.connect = .api c (.exit r) ∧
      s' = Session.resume { s with sl := { s.sl with awaitedAck := none, connAck := connAck } } c r := by
  unfold step at hs
  dsimp only at hs
  split at hs
  case h_1 c r hc => exact ⟨c, r, _, hc, (Option.some.inj hs).symm⟩
  case h_2 => cases hs

/-- The context is deleted, or the library has refused to. -/
theorem step_ctxDelete (hs : s.step .ctxDelete = some s') :
    s.connect = .ctxDelete ∧ ∃ pc, pc = (if s.iConnBroker < 1 then ConnectWiFiPc.ended else .msgQRead) ∧
      (s' = { s with ctx := s.ctx.clientReset, sl := ⟨false, none, 0, false, false⟩, connect := pc } ∨
        s' = { s with connect := pc }) := by
  obtain ⟨⟨hc, -⟩, rfl⟩ := guard_eq_some.mp hs
  refine ⟨hc, _, rfl, ?_⟩
  unfold ctxDelete
  rcases hdel : s.ctx.mqttClientCtxDelete with _ | ctx
  · exact .inr rfl
  · obtain rfl := ClientCtx.mqttClientCtxDelete_eq hdel
    exact .inl rfl

theorem step_msgQRead (hs : s.step .msgQRead = some s') :
    ∃ m q, s.connect = .msgQRead ∧ s.pbQueue = m :: q ∧ s' = Session.received { s with pbQueue := q } m := by
  unfold step at hs
  dsimp only at hs
  split at hs
  case h_1 m q hc hq => exact ⟨m, q, hc, hq, (Option.some.inj hs).symm⟩
  case h_2 => cases hs

theorem step_recv {m : Packet} {o : NetSend} (hs : s.step (.recv m o) = some s') :
    s.Receiving ∧ ∃ p rx, s.ctx.processRecv m o = some p ∧
      s' = { s with ctx := p.ctx, sl := p.ackNotify.elim s.sl s.sl.processNotifyAckCb, rx := rx } := by
  obtain ⟨hr, hs⟩ := Option.ite_none_right_eq_some.mp hs
  obtain ⟨p, hp, rfl⟩ := Option.map_eq_some_iff.mp hs
  exact ⟨hr, p, _, hp, rfl⟩

theorem step_recvError : s.step .recvError = some s' ↔ s.Receiving ∧ s' = { s with rx := .closing true } :=
  guard_eq_some

theorem step_rxPrep {timedOut : Bool} {o : NetSend} (hs : s.step (.rxPrep timedOut o) = some s') :
    s.Receiving ∧ ∃ ctx rx, ClientCtx.Kept s.ctx ctx ∧ s' = { s with ctx := ctx, rx := rx } := by
  obtain ⟨hr, hs⟩ := Option.ite_none_right_eq_some.mp hs
  exact ⟨hr, _, _, s.ctx.kept_singleCtxRxPrep timedOut o, (Option.some.inj hs).symm⟩

theorem step_netClose (hs : s.step .netClose = some s') :
    ∃ l, s.rx = .closing l ∧ s' = { s with ctx := s.ctx.doNetClose, rx := .callback l, closed := true } := by
  unfold step at hs
  dsimp only at hs
  split at hs
  case h_1 l hl => exact ⟨l, hl, (Option.some.inj hs).symm⟩
  case h_2 => cases hs

/-- The callbacks, if the context still has them. -/
theorem step_disconnCb (hs : s.step .disconnCb = some s') :
    ∃ l, s.rx = .callback l ∧
      ((s.ctx.callbacks = true ∧
          s' = Session.processDisconnCb { s with ctx := { s.ctx with used := false } } l) ∨
        s' = { s with ctx := { s.ctx with used := false }, rx := .idle }) := by
  unfold step at hs
  dsimp only at hs
  split at hs
  case h_1 l hl =>
    refine ⟨l, hl, ?_⟩
    split_ifs at hs with hc
    · exact .inl ⟨hc, (Option.some.inj hs).symm⟩
    · exact .inr (Option.some.inj hs).symm
  case h_2 => cases hs

theorem step_measureReport :
    s.step .measureReport = some s' ↔ s' = { s with pbQueue := osiMsgQWrite s.pbQueue .sensorsReport } := by
  rw [step, Option.some.injEq, eq_comm]

theorem step_waterReport :
    s.step .waterReport = some s' ↔ s' = { s with pbQueue := osiMsgQWrite s.pbQueue .waterReport } := by
  rw [step, Option.some.injEq, eq_comm]

end Steps

end Session

/-! ## Agreement -/

namespace ConnectWiFiPc

/-- An API call is in progress. -/
def inCall : ConnectWiFiPc → Bool
  | api _ _ | ctxDelete => true
  | msgQRead | ended => false

/-- After the connection has succeeded and before it is given up. -/
def up : ConnectWiFiPc → Bool
  | api .connect _ | ctxDelete | ended => false
  | api _ _ | msgQRead => true

/-- The CONNECT packet is still to be sent. -/
def unsent : ConnectWiFiPc → Bool
  | api .connect .check | api .connect .arm | api .connect .dispatch => true
  | _ => false

end ConnectWiFiPc

namespace Session

/-- The library has closed the connection, `process_disconn_cb` has returned and no API call is in progress. -/
def Quiet (s : Session) : Prop := s.closed = true ∧ s.returned = true ∧ s.connect.inCall = false

/-- The application's view of a closed connection: `is_connected` is false and a `BROKER_DISCONNECTION` has been
written. -/
def Agrees (s : Session) : Prop := s.isConnected = false ∧ 0 < s.disconnections

instance (s : Session) : Decidable s.Quiet := inferInstanceAs (Decidable (_ ∧ _))
instance (s : Session) : Decidable s.Agrees := inferInstanceAs (Decidable (_ ∧ _))

/-! ### The application is not told -/

/-- The callback of the application is never called, and `is_connected` says only where `ConnectWiFI` stands. -/
structure Uninformed (s : Session) : Prop where
  blocking : s.ctx.callbacks = true → s.sl.blockingSend = true
  disconnections : s.disconnections = 0
  queue : .brokerDisconnection ∉ s.pbQueue
  isConnected : s.isConnected = s.connect.up
  iConnBroker : s.iConnBroker = if s.connect.up then 1 else 0

section Uninformed

variable {s s' : Session} {c : ApiCall}

/-- A step that only moves the application on, where it is as much connected as before. -/
theorem Uninformed.move (h : Uninformed s) {ctx : ClientCtx} {sl : SlClientCtx} {rx : RxPc} {pc : ConnectWiFiPc}
    {q : List OsiMessages} {closed returned : Bool} (hctx : ctx.callbacks = true → s.ctx.callbacks = true)
    (hsl : sl.blockingSend = s.sl.blockingSend) (hpc : pc.up = s.connect.up)
    (hq : .brokerDisconnection ∈ q → .brokerDisconnection ∈ s.pbQueue) :
    Uninformed ⟨ctx, sl, rx, pc, q, s.isConnected, s.iConnBroker, closed, returned, s.disconnections⟩ where
  blocking hc := hsl.trans (h.blocking (hctx hc))
  disconnections := h.disconnections
  queue hmem := h.queue (hq hmem)
  isConnected := by rw [hpc]; exact h.isConnected
  iConnBroker := by rw [hpc]; exact h.iConnBroker

theorem Uninformed.resume (h : Uninformed s) {p : ApiPc} (hc : s.connect = .api c p) (ret : ℤ) :
    Uninformed (s.resume c ret) := by
  have hcon := h.isConnected
  have hbroker := h.iConnBroker
  rw [hc] at hcon hbroker
  rcases c with _ | _ | _ | qos
  · rw [Session.resume]
    split_ifs
    · exact ⟨h.blocking, h.disconnections, h.queue, hcon, hbroker⟩
    · exact ⟨h.blocking, h.disconnections, h.queue, rfl, by rw [hbroker]; rfl⟩
  · have hpc : (if ret < 0 then ConnectWiFiPc.api .disconnect .check else .msgQRead).up = s.connect.up := by
      rw [hc]
      split_ifs <;> rfl
    exact h.move id rfl hpc id
  · exact ⟨h.blocking, h.disconnections, h.queue, rfl, by rw [Session.resume, hbroker]; rfl⟩
  · rcases qos with _ | _ | _ <;> exact ⟨h.blocking, h.disconnections, h.queue, hcon, hbroker⟩

theorem mem_osiMsgQWrite {q : List OsiMessages} {m m' : OsiMessages} (h : m ∈ osiMsgQWrite q m') (hne : m ≠ m') :
    m ∈ q := by
  unfold osiMsgQWrite at h
  split_ifs at h
  · rcases List.mem_append.mp h with hmem | hmem
    · exact hmem
    · exact absurd (List.mem_singleton.mp hmem) hne
  · exact h

theorem blockingSend_processNotifyAckCb (sl : SlClientCtx) (a : AckNotify) :
    (sl.processNotifyAckCb a).blockingSend = sl.blockingSend := by
  unfold SlClientCtx.processNotifyAckCb
  rcases a with _ | _
  · rfl
  · dsimp only
    split_ifs <;> rfl

theorem blockingSend_arm (s : Session) (c : ApiCall) : (s.arm c).sl.blockingSend = s.sl.blockingSend := by
  unfold arm
  rcases c with _ | _ | _ | qos
  · rfl
  · dsimp only
    split_ifs <;> rfl
  · rfl
  · rcases qos with _ | _ | _ <;> rfl

theorem Uninformed.step (h : Uninformed s) {e : SessionEvent} (hs : s.step e = some s') : Uninformed s' := by
  cases e with
  | check =>
    obtain ⟨c, hc, rfl⟩ := step_check.mp hs
    have hpc : ∀ p, (ConnectWiFiPc.api c p).up = s.connect.up := fun p => by rw [hc]; rcases c <;> rfl
    unfold Session.check
    split_ifs
    · exact h.move id rfl (hpc .arm) id
    · exact h.move id rfl (hpc (.exit (-1))) id
    · exact h.resume hc (-1)
  | arm =>
    obtain ⟨c, hc, rfl⟩ := step_arm.mp hs
    exact h.move id (blockingSend_arm s c) (by rw [hc]; rcases c <;> rfl) id
  | connectSend opened o triggered =>
    obtain ⟨⟨hc, -⟩, rfl⟩ := step_connectSend.mp hs
    refine h.move (fun hcb => ?_) rfl (by rw [hc]; rfl) id
    rwa [ClientCtx.callbacks_connStateTry] at hcb
  | dispatch mqp o =>
    obtain ⟨c, hc, -, r, rfl, hkept⟩ := step_dispatch hs
    exact h.move (fun hcb => hkept.callbacks ▸ hcb) rfl (by rw [hc]; rcases c <;> rfl) id
  | wake =>
    obtain ⟨c, hc, rfl⟩ := step_wake hs
    exact h.move id rfl (by rw [hc]; rcases c <;> rfl) id
  | ret =>
    obtain ⟨c, r, connAck, hc, rfl⟩ := step_ret hs
    have h' : Uninformed { s with sl := { s.sl with awaitedAck := none, connAck := connAck } } :=
      h.move id rfl rfl id
    exact h'.resume hc r
  | ctxDelete =>
    obtain ⟨hc, pc, hpc, hs'⟩ := step_ctxDelete hs
    have hbroker := h.iConnBroker
    rw [hc] at hbroker
    have hup : pc.up = s.connect.up := by
      rw [hpc, hc, hbroker]
      rfl
    rcases hs' with rfl | rfl
    · -- the context is gone, and its callbacks with it
      exact ⟨Bool.noConfusion, h.disconnections, h.queue, h.isConnected.trans hup.symm, by rw [hup, hc]; exact hbroker⟩
    · exact h.move id rfl hup id
  | msgQRead =>
    obtain ⟨m, q, hc, hq, rfl⟩ := step_msgQRead hs
    have htail : ∀ {a}, a ∈ q → a ∈ s.pbQueue := fun ha => hq ▸ List.mem_cons_of_mem m ha
    rcases m with _ | _ | _
    · exact h.move id rfl (by rw [hc]; rfl) htail
    · exact h.move id rfl (by rw [hc]; rfl) htail
    · exact absurd (hq ▸ List.mem_cons_self) h.queue
  | recv m o =>
    obtain ⟨-, p, rx, hp, rfl⟩ := step_recv hs
    refine h.move (fun hcb => ClientCtx.callbacks_processRecv hp ▸ hcb) ?_ rfl id
    rcases p.ackNotify with _ | a
    · rfl
    · exact blockingSend_processNotifyAckCb s.sl a
  | recvError =>
    obtain ⟨-, rfl⟩ := step_recvError.mp hs
    exact h.move id rfl rfl id
  | rxPrep timedOut o =>
    obtain ⟨-, ctx, rx, hkept, rfl⟩ := step_rxPrep hs
    exact h.move (fun hcb => hkept.callbacks ▸ hcb) rfl rfl id
  | netClose =>
    obtain ⟨l, -, rfl⟩ := step_netClose hs
    exact h.move id rfl rfl id
  | disconnCb =>
    obtain ⟨l, -, ⟨hcb, rfl⟩ | rfl⟩ := step_disconnCb hs
    · -- with `blocking_send` both branches leave the application alone
      have hblock : s.sl.blockingSend ≠ false := by
        rw [h.blocking hcb]
        exact Bool.noConfusion
      unfold processDisconnCb
      rw [if_neg hblock]
      split_ifs
      · exact h.move id rfl rfl id
      · exact h.move id rfl rfl id
    · exact h.move id rfl rfl id
  | measureReport =>
    obtain rfl := step_measureReport.mp hs
    exact h.move id rfl rfl fun hmem => mem_osiMsgQWrite hmem (by decide)
  | waterReport =>
    obtain rfl := step_waterReport.mp hs
    exact h.move id rfl rfl fun hmem => mem_osiMsgQWrite hmem (by decide)

end Uninformed

theorem uninformed {h : List SessionEvent} {s : Session} (hr : Run Session.step (.init usrConnectConfig) h s) :
    Uninformed s :=
  hr.inv (I := fun _ s => Uninformed s) ⟨fun _ => rfl, rfl, List.not_mem_nil, rfl, rfl⟩
    fun _ _ _ _ _ hI _ hs => hI.step hs

/-! ### The library knows -/

/-- A closed connection stays closed: there is one CONNECT packet, and it is sent before. -/
structure Shut (s : Session) : Prop where
  unsent : s.connect.unsent = true → s.rx = .idle ∧ s.ctx.used = false ∧ s.closed = false
  dead : s.closed = true → s.ctx.net = false ∧ s.ctx.nowConnected = false

section Shut

variable {s s' : Session} {c : ApiCall}

theorem Shut.move (h : Shut s) (hkept : ClientCtx.Kept s.ctx s'.ctx) (hrx : s'.rx = s.rx)
    (hclosed : s'.closed = s.closed) (hpc : s'.connect.unsent = true → s.connect.unsent = true) : Shut s' where
  unsent hu := by
    rw [hrx, hkept.used, hclosed]
    exact h.unsent (hpc hu)
  dead hc := by
    rw [hkept.net, hkept.nowConnected]
    exact h.dead (hclosed ▸ hc)

/-- After the CONNECT packet only the dead connection counts. -/
theorem Shut.of_sent (hpc : s.connect.unsent = false)
    (hdead : s.closed = true → s.ctx.net = false ∧ s.ctx.nowConnected = false) : Shut s where
  unsent hu := by
    rw [hpc] at hu
    cases hu
  dead := hdead

/-- Nothing is claimed of a connection that is neither to come nor gone. -/
theorem Shut.of_open (hpc : s.connect.unsent = false) (hclosed : s.closed = false) : Shut s := by
  refine .of_sent hpc fun hc => ?_
  rw [hclosed] at hc
  cases hc

theorem Shut.of_receiving (h : Shut s) (hr : s.Receiving) : s.connect.unsent = false ∧ s.closed = false := by
  obtain ⟨-, hused, hnet⟩ := hr
  constructor
  · by_contra hu
    have := (h.unsent (Bool.not_eq_false _ ▸ hu)).2.1
    rw [hused] at this
    cases this
  · by_contra hc
    have := (h.dead (Bool.not_eq_false _ ▸ hc)).1
    rw [hnet] at this
    cases this

/-- A receive task that closes the connection does so after the CONNECT packet. -/
theorem Shut.of_busy (h : Shut s) (hrx : s.rx ≠ .idle) : s.connect.unsent = false := by
  by_contra hu
  exact hrx (h.unsent (Bool.not_eq_false _ ▸ hu)).1

theorem unsent_resume (s : Session) (c : ApiCall) (ret : ℤ) : (s.resume c ret).connect.unsent = false := by
  rcases c with _ | _ | _ | qos
  · rw [resume]
    split_ifs <;> rfl
  · rw [resume]
    dsimp only
    split_ifs <;> rfl
  · rfl
  · rcases qos with _ | _ | _ <;> rfl

theorem resume_frame (s : Session) (c : ApiCall) (ret : ℤ) :
    (s.resume c ret).ctx = s.ctx ∧ (s.resume c ret).rx = s.rx ∧ (s.resume c ret).closed = s.closed := by
  rcases c with _ | _ | _ | qos
  · rw [resume]
    split_ifs <;> exact ⟨rfl, rfl, rfl⟩
  · exact ⟨rfl, rfl, rfl⟩
  · exact ⟨rfl, rfl, rfl⟩
  · rcases qos with _ | _ | _ <;> exact ⟨rfl, rfl, rfl⟩

theorem Shut.resume (h : Shut s) (c : ApiCall) (ret : ℤ) : Shut (s.resume c ret) := by
  obtain ⟨hctx, hrx, hclosed⟩ := s.resume_frame c ret
  refine h.move ?_ hrx hclosed fun hu => ?_
  · rw [hctx]
    exact ⟨rfl, rfl, rfl, rfl⟩
  · rw [unsent_resume] at hu
    cases hu

theorem processDisconnCb_frame (s : Session) (l : Bool) :
    (s.processDisconnCb l).connect = s.connect ∧ (s.processDisconnCb l).closed = s.closed ∧
      ((s.processDisconnCb l).ctx = s.ctx ∨ (s.processDisconnCb l).ctx = s.ctx.clientReset) := by
  unfold processDisconnCb slMqttDisconnect
  dsimp only
  split_ifs
  · exact ⟨rfl, rfl, .inl rfl⟩
  · exact ⟨rfl, rfl, .inl rfl⟩
  · rcases hdel : s.ctx.mqttClientCtxDelete with _ | ctx
    · exact ⟨rfl, rfl, .inl rfl⟩
    · exact ⟨rfl, rfl, .inr (ClientCtx.mqttClientCtxDelete_eq hdel)⟩
  · exact ⟨rfl, rfl, .inl rfl⟩

theorem Shut.step (h : Shut s) {e : SessionEvent} (hs : s.step e = some s') : Shut s' := by
  have hkept : ClientCtx.Kept s.ctx s.ctx := ⟨rfl, rfl, rfl, rfl⟩
  cases e with
  | check =>
    obtain ⟨c, hc, rfl⟩ := step_check.mp hs
    unfold Session.check
    split_ifs
    · exact h.move hkept rfl rfl fun hu => by rw [hc]; rcases c <;> exact hu
    · exact h.move hkept rfl rfl fun hu => by rcases c <;> cases hu
    · exact h.resume c (-1)
  | arm =>
    obtain ⟨c, hc, rfl⟩ := step_arm.mp hs
    exact h.move hkept rfl rfl fun hu => by rw [hc]; rcases c <;> exact hu
  | connectSend opened o triggered =>
    obtain ⟨⟨hc, -⟩, rfl⟩ := step_connectSend.mp hs
    refine .of_open ?_ (h.unsent (hc ▸ rfl)).2.2
    unfold dispatched
    dsimp only
    split_ifs <;> rfl
  | dispatch mqp o =>
    obtain ⟨c, hc, hne, r, rfl, hk⟩ := step_dispatch hs
    refine h.move hk rfl rfl fun hu => ?_
    rcases c with _ | _ | _ | qos
    · exact absurd rfl hne
    all_goals cases hu
  | wake =>
    obtain ⟨c, hc, rfl⟩ := step_wake hs
    exact h.move hkept rfl rfl fun hu => by rcases c <;> cases hu
  | ret =>
    obtain ⟨c, r, connAck, hc, rfl⟩ := step_ret hs
    have h' : Shut { s with sl := { s.sl with awaitedAck := none, connAck := connAck } } :=
      h.move hkept rfl rfl id
    exact h'.resume c r
  | ctxDelete =>
    obtain ⟨hc, pc, hpc, hs'⟩ := step_ctxDelete hs
    have hsent : pc.unsent = false := by
      rw [hpc]
      split_ifs <;> rfl
    rcases hs' with rfl | rfl
    · exact .of_sent hsent fun _ => ⟨rfl, rfl⟩
    · exact .of_sent hsent h.dead
  | msgQRead =>
    obtain ⟨m, q, hc, hq, rfl⟩ := step_msgQRead hs
    rcases m with _ | _ | _
    · exact h.move hkept rfl rfl fun hu => by cases hu
    · exact h.move hkept rfl rfl fun hu => by cases hu
    · refine h.move hkept rfl rfl fun hu => ?_
      unfold received at hu
      dsimp only at hu
      split_ifs at hu <;> cases hu
  | recv m o =>
    obtain ⟨hr, p, rx, -, rfl⟩ := step_recv hs
    exact .of_open (h.of_receiving hr).1 (h.of_receiving hr).2
  | recvError =>
    obtain ⟨hr, rfl⟩ := step_recvError.mp hs
    exact .of_open (h.of_receiving hr).1 (h.of_receiving hr).2
  | rxPrep timedOut o =>
    obtain ⟨hr, ctx, rx, -, rfl⟩ := step_rxPrep hs
    exact .of_open (h.of_receiving hr).1 (h.of_receiving hr).2
  | netClose =>
    obtain ⟨l, hl, rfl⟩ := step_netClose hs
    exact .of_sent (h.of_busy (hl ▸ nofun)) fun _ => ⟨rfl, rfl⟩
  | disconnCb =>
    obtain ⟨l, hl, hs'⟩ := step_disconnCb hs
    have hsent := h.of_busy (hl ▸ nofun)
    rcases hs' with ⟨-, rfl⟩ | rfl
    · obtain ⟨hpc, hclosed, hctx⟩ := processDisconnCb_frame { s with ctx := { s.ctx with used := false } } l
      refine .of_sent (by rw [hpc]; exact hsent) fun hcl => ?_
      rcases hctx with hctx | hctx
      · rw [hctx]
        exact h.dead (hclosed ▸ hcl)
      · rw [hctx]
        exact ⟨rfl, rfl⟩
    · exact .of_sent hsent h.dead
  | measureReport =>
    obtain rfl := step_measureReport.mp hs
    exact h.move hkept rfl rfl id
  | waterReport =>
    obtain rfl := step_waterReport.mp hs
    exact h.move hkept rfl rfl id

end Shut

theorem shut {cfg : ConnectConfig} {h : List SessionEvent} {s : Session}
    (hr : Run Session.step (.init cfg) h s) : Shut s :=
  hr.inv (I := fun _ s => Shut s) ⟨fun _ => ⟨rfl, rfl, rfl⟩, fun hc => by cases hc⟩ fun _ _ _ _ _ hI _ hs => hI.step hs

/-! ### The two views -/

/-- The loop takes the next message, both of its calls come back at once, and the loop reads on. -/
def ReportsOn (s : Session) : Prop :=
  ∀ m q, s.pbQueue = m :: q →
    (exec Session.step (fun _ _ _ => true) [] s [.msgQRead, .check, .check]).map (fun r => r.2) =
      some { s with pbQueue := q }

theorem reportsOn_of_dead {s : Session} (hc : s.connect = .msgQRead) (hdead : s.ctx.isConnected = false)
    (hdisconnection : .brokerDisconnection ∉ s.pbQueue) : s.ReportsOn := by
  intro m q hq
  have hread : s.step .msgQRead = some { s with pbQueue := q, connect := .api (.send .qos2) .check } := by
    unfold step
    rw [hc, hq]
    rcases m with _ | _ | _
    · rfl
    · rfl
    · exact absurd (hq ▸ List.mem_cons_self) hdisconnection
  have hfirst : ({ s with pbQueue := q, connect := .api (.send .qos2) .check } : Session).step .check =
      some { s with pbQueue := q, connect := .api (.send .qos0) .check } := by
    refine step_check.mpr ⟨_, rfl, ?_⟩
    rw [check, if_neg (by rw [hdead]; exact Bool.noConfusion), if_neg nofun]
    rfl
  have hsecond : ({ s with pbQueue := q, connect := .api (.send .qos0) .check } : Session).step .check =
      some { s with pbQueue := q } := by
    refine step_check.mpr ⟨_, rfl, ?_⟩
    rw [check, if_neg (by rw [hdead]; exact Bool.noConfusion), if_neg nofun, resume, ← hc]
    exact nofun
  simp [exec, hread, hfirst, hsecond]

/-- **No state that calls for agreement has it**: with the compiled configuration no `BROKER_DISCONNECTION` has been
written in any state in which the library has closed the connection, the callback has returned and no call is in
progress; and in the report loop the application takes the connection for alive, the library does not, and the loop
goes on. -/
theorem views_disagree {h : List SessionEvent} {s : Session} (hr : Run Session.step (.init usrConnectConfig) h s)
    (hq : s.Quiet) :
    ¬ s.Agrees ∧ (s.connect = .msgQRead → s.isConnected = true ∧ s.ctx.isConnected = false ∧ s.ReportsOn) := by
  have hu := uninformed hr
  have hdead : s.ctx.isConnected = false := by
    rw [ClientCtx.isConnected, ((shut hr).dead hq.1).2, Bool.false_and]
  refine ⟨fun ⟨_, hw⟩ => ?_, fun hc => ⟨?_, hdead, reportsOn_of_dead hc hdead hu.queue⟩⟩
  · rw [hu.disconnections] at hw
    omega
  · rw [hu.isConnected, hc]
    rfl

/-- CONNECT and SUBSCRIBE, both acknowledged. -/
def connected : List SessionEvent :=
  [.arm, .connectSend true .whole true, .recv (.connack 0 0) .whole, .wake, .ret,
    .check, .arm, .dispatch true .whole, .recv (.suback 1) .whole, .wake, .ret]

/-- The connection is lost while a report awaits its acknowledgement, and then the next one is asked for. -/
def lostWhilePublishing : List SessionEvent :=
  connected ++ [.measureReport, .msgQRead, .check, .arm, .dispatch true .whole, .recvError, .netClose, .disconnCb,
    .wake, .ret, .check, .waterReport]

theorem views_disagree_lostWhilePublishing :
    ∃ s, Run Session.step (.init usrConnectConfig) lostWhilePublishing.reverse s ∧ ¬ s.Agrees ∧
      s.isConnected = true ∧ s.ctx.isConnected = false ∧ s.ReportsOn := by
  obtain ⟨s, hr, hs⟩ := run_of_exec Session.step (.init usrConnectConfig) lostWhilePublishing
    (fun s => decide s.Quiet && decide (s.connect = .msgQRead)) (by decide : _ = some true)
  obtain ⟨hq, hc⟩ := Bool.and_eq_true_iff.mp hs
  obtain ⟨hdis, hviews⟩ := views_disagree hr (of_decide_eq_true hq)
  exact ⟨s, hr, hdis, hviews (of_decide_eq_true hc)⟩

/-- The connection is lost while no call awaits an acknowledgement. -/
def lostWhileIdle : List SessionEvent := connected ++ [.recvError, .netClose, .disconnCb]

theorem idle_loss_untold :
    ∃ s, Run Session.step (.init usrConnectConfig) lostWhileIdle.reverse s ∧ s.Quiet ∧ ¬ s.Agrees ∧
      s.connect = .msgQRead := by
  obtain ⟨s, hr, hs⟩ := run_of_exec Session.step (.init usrConnectConfig) lostWhileIdle
    (fun s => decide (s.Quiet ∧ ¬ s.Agrees ∧ s.connect = .msgQRead)) (by decide : _ = some true)
  exact ⟨s, hr, of_decide_eq_true hs⟩

end Session

end Thronix
