import Mathlib.Data.List.Basic

/-!
# Thronix.MqttClient — one context of the MQTT client library

`mqtt_client.c` as the station uses it: a context with a receive task of its own, in the group, its session clean.

* `ClientCtx`: the flags of a `client_ctx`, its lists of awaited acknowledgements and whether it has a socket.
* `clCtxSeg1Send`, `msgDispatch`, `connectMsgSend`, `mqttDisconnSend`: sending.  What the socket makes of a packet
  is the argument `NetSend`; an error only asks the receive task to close (`NETWORK_CLOSE_FLAG`).
* `processRecv`: what the receive task does with a packet; `none` is the access through the null head of an empty
  list.  `singleCtxRxPrep`: what it does before it waits for one.
* `doNetClose`, `mqttClientCtxDelete`.
-/

namespace Thronix

/-- The message types that the callbacks of the library name. -/
inductive MqttMsg
  | connack
  | puback
  | pubcomp
  | suback
  | unsuback
  | disconnect
  deriving DecidableEq, Repr

inductive MqttQos
  | qos0
  | qos1
  | qos2
  deriving DecidableEq, Repr

/-- A packet from the broker. -/
inductive Packet
  | connack (flags rc : BitVec 8)
  | suback (msgId : BitVec 16)
  | puback (msgId : BitVec 16)
  | unsuback (msgId : BitVec 16)
  | pubrec (msgId : BitVec 16)
  | pubrel (msgId : BitVec 16)
  | pubcomp (msgId : BitVec 16)
  | pingrsp
  | publish (qos : MqttQos) (msgId : BitVec 16)
  /-- A type that a client does not expect, or contents that cannot be taken apart. -/
  | invalid
  deriving DecidableEq, Repr

/-- What the socket does with a packet. -/
inductive NetSend
  | whole
  | piece
  | error
  deriving DecidableEq, Repr

/-! ## Message ids in flight -/

/-- `pub_qos2_cq`. -/
structure PubQos2Cq where
  idVec : List (BitVec 16)
  nFree : ℕ
  rdIdx : ℕ
  wrIdx : ℕ
  deriving DecidableEq, Repr

namespace PubQos2Cq

/-- `qos2_pub_cq_reset`; `MAX_PUBREL_INFLT` is 8. -/
def reset : PubQos2Cq := ⟨List.replicate 8 0, 8, 0, 0⟩

/-- `qos2_pub_cq_logup`. -/
def logup (cq : PubQos2Cq) (msgId : BitVec 16) : Option PubQos2Cq :=
  if cq.nFree ≠ 0 then
    some { cq with idVec := cq.idVec.set cq.wrIdx msgId, wrIdx := (cq.wrIdx + 1) % 8, nFree := cq.nFree - 1 }
  else none

/-- `qos2_pub_cq_unlog`: the read index moves on before the id is compared. -/
def unlog (cq : PubQos2Cq) (msgId : BitVec 16) : Bool × PubQos2Cq :=
  if cq.nFree < 8 then
    if cq.idVec[cq.rdIdx]? = some msgId then
      (true, { cq with rdIdx := (cq.rdIdx + 1) % 8, nFree := cq.nFree + 1 })
    else (false, { cq with rdIdx := cq.rdIdx + 1 })
  else (false, cq)

/-- The loop of `qos2_pub_cq_check`. -/
def checkFrom (idVec : List (BitVec 16)) (msgId : BitVec 16) : ℕ → ℕ → Bool
  | 0, _ => false
  | n + 1, rdIdx => idVec[rdIdx]? = some msgId || checkFrom idVec msgId n ((rdIdx + 1) % 8)

/-- `qos2_pub_cq_check`. -/
def check (cq : PubQos2Cq) (msgId : BitVec 16) : Bool := checkFrom cq.idVec msgId (8 - cq.nFree) cq.rdIdx

/-- `qos2_pub_cq_count`. -/
def count (cq : PubQos2Cq) : ℕ := 8 - cq.nFree

end PubQos2Cq

/-! ## The context -/

structure ClientCtx where
  /-- `net` is a socket. -/
  net : Bool
  /-- `CONNACK_AWAIT_FLAG`. -/
  connackAwait : Bool
  /-- `NOW_CONNECTED_FLAG`. -/
  nowConnected : Bool
  /-- `KA_PINGER_RSP_FLAG`. -/
  kaPingerRsp : Bool
  /-- `NETWORK_CLOSE_FLAG`. -/
  networkClose : Bool
  /-- A packet is partly sent. -/
  txPart : Bool
  qosAck1Wl : List (BitVec 16)
  qos2RxCq : PubQos2Cq
  qos2TxCq : PubQos2Cq
  /-- The callbacks are registered. -/
  callbacks : Bool
  /-- In `conn_ctxs` or `used_ctxs`. -/
  used : Bool
  /-- The message id that the library assigned last. -/
  msgId : BitVec 16
  deriving DecidableEq, Repr

namespace ClientCtx

/-- `client_reset`. -/
def clientReset (c : ClientCtx) : ClientCtx :=
  ⟨false, false, false, false, false, false, [], .reset, .reset, false, c.used, c.msgId⟩

/-- `mqtt_client_ctx_create` after `mqtt_client_lib_init`. -/
def create : ClientCtx :=
  ⟨false, false, false, false, false, false, [], .reset, .reset, true, false, 0xFFFF⟩

/-- `is_connected`. -/
def isConnected (c : ClientCtx) : Bool := c.nowConnected && !c.networkClose

/-- `session_delete`. -/
def sessionDelete (c : ClientCtx) : ClientCtx :=
  { c with qos2RxCq := .reset, qos2TxCq := .reset, qosAck1Wl := [] }

/-- `do_net_close`. -/
def doNetClose (c : ClientCtx) : ClientCtx :=
  { sessionDelete c with
    txPart := false
    connackAwait := false
    nowConnected := false
    kaPingerRsp := false
    networkClose := false
    net := false }

/-- `do_net_close_tx`: the receive task is told to close. -/
def doNetCloseTx (c : ClientCtx) : ClientCtx := { c with networkClose := true }

/-- `awaits_pkts`. -/
def awaitsPkts (c : ClientCtx) : Bool :=
  !c.qosAck1Wl.isEmpty || c.qos2RxCq.count != 0 || c.qos2TxCq.count != 0

/-- `mqtt_client_ctx_delete`. -/
def mqttClientCtxDelete (c : ClientCtx) : Option ClientCtx :=
  if c.net || c.awaitsPkts then none else some c.clientReset

/-! ### Sending -/

/-- `cl_ctx_seg1_send`: whether something was sent. -/
def clCtxSeg1Send (c : ClientCtx) (isConnMsg : Bool) (o : NetSend) : Bool × ClientCtx :=
  if isConnMsg = c.isConnected then (false, c)
  else if c.txPart then (false, c)
  else
    match o with
    | .whole => (true, c)
    | .piece => (true, { c with txPart := true })
    | .error => (false, doNetCloseTx { c with txPart := true })

/-- `vh_msg_send`, its result unused. -/
def vhMsgSend (c : ClientCtx) (o : NetSend) : ClientCtx := (c.clCtxSeg1Send false o).2

/-- `assign_new_msg_id`. -/
def assignNewMsgId (c : ClientCtx) : ClientCtx := { c with msgId := c.msgId + 2 }

/-- `_msg_dispatch` of a new packet: whether it returns no error.  Without an acknowledgement to wait for, it never
returns one. -/
def msgDispatch (c : ClientCtx) (qos : MqttQos) (o : NetSend) : Bool × ClientCtx :=
  if qos = .qos0 then (true, (c.clCtxSeg1Send false o).2)
  else
    let c := c.assignNewMsgId
    let (sent, c') := c.clCtxSeg1Send false o
    if sent then (true, { c' with qosAck1Wl := c'.qosAck1Wl ++ [c.msgId] }) else (false, c')

/-- `mqtt_disconn_send`; it returns 0. -/
def mqttDisconnSend (c : ClientCtx) (o : NetSend) : ClientCtx :=
  let (sent, c') := c.clCtxSeg1Send false o
  if sent then doNetCloseTx c' else c'

/-- `cl_ctx_conn_state_try_locked`: whether it returns no error.  `opened`: `net_ops->open` gives a socket;
`triggered`: the receive task can be told (`loopb_trigger`). -/
def connStateTry (c : ClientCtx) (opened : Bool) (o : NetSend) (triggered : Bool) : Bool × ClientCtx :=
  if c.networkClose then (false, c)
  else if !opened then (false, { c with net := false })
  else
    let c := { c with net := true }
    if c.connackAwait then (false, c)
    else
      let (sent, c') := c.clCtxSeg1Send true o
      if sent then (triggered, { c' with connackAwait := true, used := true }) else (false, c')

end ClientCtx

/-! ## Receiving -/

/-- A call of `ack_notify`. -/
inductive AckNotify
  | connack (connAck : BitVec 16)
  | ack (msgType : MqttMsg)
  deriving DecidableEq, Repr

/-- What has become of a packet: the result of its processing, the context and the call of `ack_notify`. -/
structure Processed where
  rv : Bool
  ctx : ClientCtx
  ackNotify : Option AckNotify
  deriving DecidableEq, Repr

namespace ClientCtx

/-- `proc_connack_rx`. -/
def procConnackRx (c : ClientCtx) (flags rc : BitVec 8) : Processed :=
  let c := { c with connackAwait := false }
  if rc ≠ 0 then ⟨true, c, some (.connack (flags ++ rc))⟩
  else ⟨true, sessionDelete { c with nowConnected := true }, some (.connack (flags ++ rc))⟩

/-- `_proc_ack_msg_rx`: the id is looked up among all that await a first acknowledgement. -/
def procAckMsgRx (c : ClientCtx) (msgType : MqttMsg) (msgId : BitVec 16) : Processed :=
  if msgId ∈ c.qosAck1Wl then ⟨true, { c with qosAck1Wl := c.qosAck1Wl.erase msgId }, some (.ack msgType)⟩
  else ⟨false, c, none⟩

/-- `_proc_pub_rec_rx`: only the head is compared. -/
def procPubRecRx (c : ClientCtx) (msgId : BitVec 16) (o : NetSend) : Option Processed :=
  match c.qosAck1Wl with
  | [] => none
  | mqp :: wl =>
    if msgId = mqp then
      match c.qos2TxCq.logup msgId with
      | some cq => some ⟨true, vhMsgSend { c with qosAck1Wl := wl, qos2TxCq := cq } o, none⟩
      | none => some ⟨false, c, none⟩
    else some ⟨false, c, none⟩

/-- `_proc_pub_rel_rx`. -/
def procPubRelRx (c : ClientCtx) (msgId : BitVec 16) (o : NetSend) : Processed :=
  let c := c.vhMsgSend o
  if c.qos2RxCq.check msgId then ⟨true, { c with qos2RxCq := (c.qos2RxCq.unlog msgId).2 }, none⟩
  else ⟨true, c, none⟩

/-- `ack2_msg_id_unlog`. -/
def ack2MsgIdUnlog (c : ClientCtx) (msgId : BitVec 16) : Processed :=
  let (found, cq) := c.qos2TxCq.unlog msgId
  ⟨found, { c with qos2TxCq := cq }, if found then some (.ack .pubcomp) else none⟩

/-- `proc_pingrsp_rx`; the application asks for no ping of its own. -/
def procPingrspRx (c : ClientCtx) : Processed :=
  if c.kaPingerRsp then ⟨true, { c with kaPingerRsp := false }, none⟩ else ⟨false, c, none⟩

/-- `proc_pub_msg_rx`; the packet itself goes to `Mqtt_Recv`. -/
def procPubMsgRx (c : ClientCtx) (qos : MqttQos) (msgId : BitVec 16) (o : NetSend) : Processed :=
  match qos with
  | .qos0 => ⟨true, c, none⟩
  | .qos1 => ⟨true, c.vhMsgSend o, none⟩
  | .qos2 =>
    if c.qos2RxCq.check msgId then ⟨true, c, none⟩
    else
      match c.qos2RxCq.logup msgId with
      | none => ⟨false, c, none⟩
      | some cq => ⟨true, vhMsgSend { c with qos2RxCq := cq } o, none⟩

/-- `connected_state_rx`. -/
def connectedStateRx (c : ClientCtx) (o : NetSend) : Packet → Option Processed
  | .suback msgId => some (c.procAckMsgRx .suback msgId)
  | .puback msgId => some (c.procAckMsgRx .puback msgId)
  | .unsuback msgId => some (c.procAckMsgRx .unsuback msgId)
  | .pubrec msgId => c.procPubRecRx msgId o
  | .pubrel msgId => some (c.procPubRelRx msgId o)
  | .pubcomp msgId => some (c.ack2MsgIdUnlog msgId)
  | .pingrsp => some c.procPingrspRx
  | .publish qos msgId => some (c.procPubMsgRx qos msgId o)
  | .connack _ _ | .invalid => some ⟨false, c, none⟩

/-- `conn_sent_state_rx`. -/
def connSentStateRx (c : ClientCtx) : Packet → Processed
  | .connack flags rc => c.procConnackRx flags rc
  | _ => ⟨false, c, none⟩

/-- `process_recv`. -/
def processRecv (c : ClientCtx) (m : Packet) (o : NetSend) : Option Processed :=
  if c.connackAwait then some (c.connSentStateRx m) else c.connectedStateRx o m

/-- `single_ctx_rx_prep` of a context with a socket: whether it is still good.  `timedOut`: its time has run out. -/
def singleCtxRxPrep (c : ClientCtx) (timedOut : Bool) (o : NetSend) : Bool × ClientCtx :=
  if c.networkClose then (false, c)
  else if !timedOut then (true, c)
  else if !c.isConnected || c.kaPingerRsp then (false, c)
  else
    let (sent, c') := c.clCtxSeg1Send false o
    if sent then (true, { c' with kaPingerRsp := true }) else (false, c')

end ClientCtx

/-! ## What the functions leave alone -/

/-- The same socket, connection, callbacks and list. -/
structure ClientCtx.Kept (c c' : ClientCtx) : Prop where
  net : c'.net = c.net
  nowConnected : c'.nowConnected = c.nowConnected
  callbacks : c'.callbacks = c.callbacks
  used : c'.used = c.used

namespace ClientCtx

variable (c : ClientCtx)

theorem Kept.trans {a b d : ClientCtx} (h : Kept a b) (h' : Kept b d) : Kept a d :=
  ⟨h'.net.trans h.net, h'.nowConnected.trans h.nowConnected, h'.callbacks.trans h.callbacks, h'.used.trans h.used⟩

theorem kept_clCtxSeg1Send (isConnMsg : Bool) (o : NetSend) : Kept c (c.clCtxSeg1Send isConnMsg o).2 := by
  unfold clCtxSeg1Send
  split_ifs
  · exact ⟨rfl, rfl, rfl, rfl⟩
  · exact ⟨rfl, rfl, rfl, rfl⟩
  · rcases o with _ | _ | _ <;> exact ⟨rfl, rfl, rfl, rfl⟩

theorem kept_vhMsgSend (o : NetSend) : Kept c (c.vhMsgSend o) := c.kept_clCtxSeg1Send false o

theorem kept_msgDispatch (qos : MqttQos) (o : NetSend) : Kept c (c.msgDispatch qos o).2 := by
  unfold msgDispatch
  by_cases hq : qos = .qos0
  · rw [if_pos hq]
    exact c.kept_clCtxSeg1Send false o
  · rw [if_neg hq]
    have hnew : Kept c c.assignNewMsgId := ⟨rfl, rfl, rfl, rfl⟩
    have hsent := hnew.trans (c.assignNewMsgId.kept_clCtxSeg1Send false o)
    dsimp only
    split_ifs
    · exact ⟨hsent.net, hsent.nowConnected, hsent.callbacks, hsent.used⟩
    · exact hsent

theorem kept_mqttDisconnSend (o : NetSend) : Kept c (c.mqttDisconnSend o) := by
  have hsent := c.kept_clCtxSeg1Send false o
  unfold mqttDisconnSend
  dsimp only
  split_ifs
  · exact ⟨hsent.net, hsent.nowConnected, hsent.callbacks, hsent.used⟩
  · exact hsent

theorem kept_singleCtxRxPrep (timedOut : Bool) (o : NetSend) : Kept c (c.singleCtxRxPrep timedOut o).2 := by
  have hsent := c.kept_clCtxSeg1Send false o
  unfold singleCtxRxPrep
  dsimp only
  split_ifs
  · exact ⟨rfl, rfl, rfl, rfl⟩
  · exact ⟨rfl, rfl, rfl, rfl⟩
  · exact ⟨rfl, rfl, rfl, rfl⟩
  · exact ⟨hsent.net, hsent.nowConnected, hsent.callbacks, hsent.used⟩
  · exact hsent

/-- The attempt to connect leaves the callbacks and a connection alone. -/
theorem callbacks_connStateTry (opened : Bool) (o : NetSend) (triggered : Bool) :
    (c.connStateTry opened o triggered).2.callbacks = c.callbacks := by
  have hsent := kept_clCtxSeg1Send { c with net := true } true o
  unfold connStateTry
  dsimp only
  split_ifs
  · rfl
  · rfl
  · rfl
  · exact hsent.callbacks
  · exact hsent.callbacks

theorem callbacks_connSentStateRx (m : Packet) : (c.connSentStateRx m).ctx.callbacks = c.callbacks := by
  unfold connSentStateRx procConnackRx
  rcases m with ⟨flags, rc⟩ | _
  · dsimp only
    split_ifs <;> rfl
  all_goals rfl

theorem callbacks_procAckMsgRx (msgType : MqttMsg) (msgId : BitVec 16) :
    (c.procAckMsgRx msgType msgId).ctx.callbacks = c.callbacks := by
  unfold procAckMsgRx
  split_ifs <;> rfl

theorem callbacks_procPubRelRx (msgId : BitVec 16) (o : NetSend) :
    (c.procPubRelRx msgId o).ctx.callbacks = c.callbacks := by
  have hsent := (c.kept_vhMsgSend o).callbacks
  unfold procPubRelRx
  dsimp only
  split_ifs <;> exact hsent

theorem callbacks_procPingrspRx : c.procPingrspRx.ctx.callbacks = c.callbacks := by
  unfold procPingrspRx
  split_ifs <;> rfl

theorem callbacks_procPubMsgRx (qos : MqttQos) (msgId : BitVec 16) (o : NetSend) :
    (c.procPubMsgRx qos msgId o).ctx.callbacks = c.callbacks := by
  unfold procPubMsgRx
  rcases qos with _ | _ | _
  · rfl
  · exact (c.kept_vhMsgSend o).callbacks
  · dsimp only
    split_ifs
    · rfl
    · split
      · rfl
      · exact (kept_vhMsgSend _ o).callbacks

variable {c}

theorem callbacks_procPubRecRx {msgId : BitVec 16} {o : NetSend} {p : Processed}
    (h : c.procPubRecRx msgId o = some p) : p.ctx.callbacks = c.callbacks := by
  unfold procPubRecRx at h
  split at h
  · cases h
  · split_ifs at h
    · split at h
      · obtain rfl := Option.some.inj h
        exact (kept_vhMsgSend _ o).callbacks
      · obtain rfl := Option.some.inj h
        rfl
    · obtain rfl := Option.some.inj h
      rfl

theorem mqttClientCtxDelete_eq {d : ClientCtx} (h : c.mqttClientCtxDelete = some d) : d = c.clientReset := by
  unfold mqttClientCtxDelete at h
  split_ifs at h
  exact (Option.some.inj h).symm

/-- A packet leaves the callbacks alone, whatever it is. -/
theorem callbacks_processRecv {m : Packet} {o : NetSend} {p : Processed} (h : c.processRecv m o = some p) :
    p.ctx.callbacks = c.callbacks := by
  unfold processRecv at h
  split_ifs at h
  · obtain rfl := Option.some.inj h
    exact c.callbacks_connSentStateRx m
  · unfold connectedStateRx at h
    rcases m with _ | msgId | msgId | msgId | msgId | msgId | msgId | _ | ⟨qos, msgId⟩ | _
    case pubrec => exact callbacks_procPubRecRx h
    all_goals obtain rfl := Option.some.inj h
    case connack => rfl
    case suback => exact c.callbacks_procAckMsgRx .suback msgId
    case puback => exact c.callbacks_procAckMsgRx .puback msgId
    case unsuback => exact c.callbacks_procAckMsgRx .unsuback msgId
    case pubrel => exact c.callbacks_procPubRelRx msgId o
    case pubcomp => rfl
    case pingrsp => exact c.callbacks_procPingrspRx
    case publish => exact c.callbacks_procPubMsgRx qos msgId o
    case invalid => rfl

end ClientCtx

/-- A CONNACK that refuses the connection. -/
def Packet.refuses : Packet → Bool
  | connack _ rc => rc != 0
  | _ => false

end Thronix
