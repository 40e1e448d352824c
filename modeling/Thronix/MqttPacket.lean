import Thronix.Json.Walk
import Thronix.Lib.Buffer
import Thronix.Lib.Words

/-!
# Thronix.MqttPacket — packets of the MQTT library in their buffers (`mqtt/common/mqtt_common.c`)

The model.  A store outside the buffer of a packet is `none`.

* `MqttPacket`: the fields of `struct mqtt_packet` that building and receiving use, and the attached buffer.
* `mqpPubAppendTopic`, `mqpPubAppendData`, `mqpPrepFh`, `pubMsgSend`: how a PUBLISH is built.
* `Net`: a socket, as the bytes still to come and the answers `recv` is going to give.
* `mqpRecv`: one packet is read from the stream; what has come stays in the packet when the time runs out, and the
  next call goes on from there.  `receive` makes these calls.
* `mqpProcPubRx`: a received PUBLISH taken apart.
-/

namespace Thronix.Mqp

open Thronix.Lib
open Thronix.Lib.Buffer
open Thronix.Json

def MAX_FH_LEN : ℕ := 5

def MAX_REMLEN_BYTES : ℕ := MAX_FH_LEN - 1

def MQTT_PUBLISH : ℕ := 0x03

def MQP_ERR_PKT_LEN : ℤ := -6

/-- `struct mqtt_packet`. -/
structure MqttPacket where
  msgType : ℕ
  fhByte1 : UInt8
  msgId : ℕ
  offset : ℕ
  fhLen : ℕ
  vhLen : ℕ
  plLen : ℕ
  maxlen : ℕ
  buffer : Bytes
  deriving DecidableEq, Repr

/-- `MQP_FHEADER_BUF`, `MQP_VHEADER_BUF` and `MQP_PAYLOAD_BUF`, as positions in the buffer. -/
def MqttPacket.fheaderBuf (m : MqttPacket) : ℕ := m.offset

def MqttPacket.vheaderBuf (m : MqttPacket) : ℕ := m.fheaderBuf + m.fhLen

def MqttPacket.payloadBuf (m : MqttPacket) : ℕ := m.vheaderBuf + m.vhLen

/-- `MQP_CONTENT_LEN`. -/
def MqttPacket.contentLen (m : MqttPacket) : ℕ := add32 (m.fhLen + m.vhLen) m.plLen

/-- `MQP_FREEBUF_LEN`. -/
def MqttPacket.freebufLen (m : MqttPacket) : ℕ := sub32 (sub32 m.maxlen m.offset) m.contentLen

/-- `mqp_init`, and the type `mqp_client_alloc` sets. -/
def mqpClientAlloc (msgType offset maxlen : ℕ) (buffer : Bytes) : MqttPacket :=
  ⟨msgType, 0x00, 0, offset, 0x00, 0, 0, maxlen, buffer⟩

/-! ## Building -/

/-- `buf_wr_nbo_2B`: network byte order. -/
def bufWrNbo2B (val : ℕ) : Bytes := [UInt8.ofNat (val >>> 8 &&& 0xFF), UInt8.ofNat (val &&& 0xFF)]

/-- `buf_wr_utf8`. -/
def bufWrUtf8 (utf8 : Bytes) : Bytes := bufWrNbo2B utf8.length ++ utf8

/-- The loop of `buf_tail_wr_remlen`; `val` has room for so many bytes. -/
def remlenBytes : ℕ → ℕ → Option Bytes
  | 0, _ => none
  | room + 1, remlen =>
    let byte := UInt8.ofNat (remlen &&& 0x7F)
    if remlen >>> 7 = 0 then some [byte] else (remlenBytes room (remlen >>> 7)).map fun val => (byte ||| 0x80) :: val

/-- `MAKE_FH_BYTE1`. -/
def makeFhByte1 (msgType flags : ℕ) : UInt8 := UInt8.ofNat (msgType <<< 4 ||| flags)

/-- `MAKE_FH_FLAGS`. -/
def makeFhFlags (dup : Bool) (qos : ℕ) (retain : Bool) : ℕ := (dup.toNat <<< 3 ||| qos <<< 1 ||| retain.toNat) &&& 0xF

/-- `mqp_pub_append_topic`.  `topic + msg_id? 2 : 0` compares with 2: `topic` is not `NULL`. -/
def mqpPubAppendTopic (m : MqttPacket) (topic : Bytes) (msgId : ℕ) : Option (ℤ × MqttPacket) :=
  if m.vhLen ≠ 0 then some (-1, m)
  else if m.freebufLen < 2 then some (MQP_ERR_PKT_LEN, m)
  else
    let written := bufWrUtf8 topic ++ if msgId ≠ 0 then bufWrNbo2B msgId else []
    (store m.buffer m.vheaderBuf written).map fun buffer =>
      (written.length, { m with
        buffer := buffer
        msgId := if msgId ≠ 0 then msgId else m.msgId
        vhLen := (m.vhLen + written.length) % 2 ^ 16 })

/-- `mqp_pub_append_data`. -/
def mqpPubAppendData (m : MqttPacket) (data : Bytes) : Option (ℤ × MqttPacket) :=
  if m.vhLen = 0 then some (-1, m)
  else if m.freebufLen < data.length then some (MQP_ERR_PKT_LEN, m)
  else
    (store m.buffer (m.payloadBuf + m.plLen) data).map fun buffer =>
      (data.length, { m with buffer := buffer, plLen := add32 m.plLen data.length })

/-- `mqp_prep_fh`. -/
def mqpPrepFh (m : MqttPacket) (flags : ℕ) : Option MqttPacket :=
  (remlenBytes MAX_REMLEN_BYTES (add32 m.vhLen m.plLen)).bind fun val =>
    let fhByte1 := makeFhByte1 m.msgType flags
    let fhLen := val.length + 1
    if fhLen ≤ m.offset then
      (store m.buffer (m.offset - fhLen) (fhByte1 :: val)).map fun buffer =>
        { m with buffer := buffer, fhByte1 := fhByte1, fhLen := fhLen, offset := m.offset - fhLen }
    else none

/-- What `mqtt_client_pub_msg_send` makes: an error, or a packet for the socket. -/
inductive Built
  | error (code : ℤ)
  | packet (m : MqttPacket)
  deriving DecidableEq, Repr

/-- `mqtt_client_pub_msg_send` from a free packet to `cl_ctx_seg1_send`; `newMsgId` is from `assign_new_msg_id`. -/
def pubMsgSend (maxlen : ℕ) (buffer topic data : Bytes) (qos : ℕ) (retain : Bool) (newMsgId : ℕ) : Option Built :=
  if topic.length = 0 then some (.error (-9))
  else
    let mqp := mqpClientAlloc MQTT_PUBLISH MAX_FH_LEN maxlen buffer
    (mqpPubAppendTopic mqp topic (if qos ≠ 0 then newMsgId else 0)).bind fun r =>
      if r.1 < 0 then some (.error MQP_ERR_PKT_LEN)
      else if data.length ≠ 0 then
        (mqpPubAppendData r.2 data).bind fun r =>
          if r.1 < 0 then some (.error MQP_ERR_PKT_LEN)
          else (mqpPrepFh r.2 (makeFhFlags false qos retain)).map Built.packet
      else (mqpPrepFh r.2 (makeFhFlags false qos retain)).map Built.packet

/-- What goes to the socket: `MQP_CONTENT_LEN` bytes from `MQP_FHEADER_BUF` on. -/
def MqttPacket.content (m : MqttPacket) : Bytes := (m.buffer.drop m.fheaderBuf).take m.contentLen

/-! ## Receiving -/

/-- What the socket answers to a `recv`: up to so many bytes and one, that the time has run out, or an error. -/
inductive Answer
  | data (more : ℕ)
  | timeout
  | failed
  deriving DecidableEq, Repr

structure Net where
  stream : Bytes
  answers : List Answer
  deriving DecidableEq, Repr

/-- What `mqp_recv` returns, `net_recv` telling the time-out from other errors. -/
inductive Got
  | bytes (n : ℕ)
  | timedOut
  | network
  | notDef
  | pktLen
  deriving DecidableEq, Repr

/-- `net_ops->recv`.  Without another answer, or without another byte, the time runs out. -/
def Net.recv (net : Net) (len : ℕ) : Except Got Bytes × Net :=
  match net.answers with
  | [] => (.error .timedOut, net)
  | .timeout :: answers => (.error .timedOut, { net with answers := answers })
  | .failed :: answers => (.error .network, { net with answers := answers })
  | .data more :: answers =>
    if net.stream = [] then (.error .timedOut, { net with answers := answers })
    else
      let n := min (more + 1) len
      (.ok (net.stream.take n), ⟨net.stream.drop n, answers⟩)

/-- How a loop of `mqp_recv` ends: the function returns, or goes on behind the loop. -/
abbrev Loop := MqttPacket × Net × Option Got

/-- `while(2 > fh_len)`, at most so many turns. -/
def recvFhStart : ℕ → MqttPacket → Net → Option Loop
  | 0, _, _ => none
  | turns + 1, m, net =>
    if 2 > m.fhLen then
      match net.recv 1 with
      | (.error got, net) => some (m, net, some got)
      | (.ok bs, net) =>
        (store m.buffer (m.fheaderBuf + m.fhLen) bs).bind fun buffer =>
          recvFhStart turns { m with buffer := buffer, fhLen := m.fhLen + 1 } net
    else some (m, net, none)

/-- `while(buf[fh_len - 1] & 0x80)`. -/
def recvFhMore : ℕ → MqttPacket → Net → Option Loop
  | 0, _, _ => none
  | turns + 1, m, net =>
    (m.buffer[m.fheaderBuf + m.fhLen - 1]?).bind fun last =>
      if last &&& 0x80 ≠ 0 then
        if m.fhLen > MAX_FH_LEN then some (m, net, some .notDef)
        else
          match net.recv 1 with
          | (.error got, net) => some (m, net, some got)
          | (.ok bs, net) =>
            (store m.buffer (m.fheaderBuf + m.fhLen) bs).bind fun buffer =>
              recvFhMore turns { m with buffer := buffer, fhLen := m.fhLen + 1 } net
      else some (m, net, none)

/-- The loop of `buf_rd_remlen`: at most `MAX_REMLEN_BYTES` bytes, whether or not the last of them ends the number. -/
def bufRdRemlen (buf : Bytes) : ℕ → ℕ → ℕ → ℕ → Option ℕ
  | 0, _, val, _ => some val
  | left + 1, i, val, mul =>
    (buf[i]?).bind fun byte =>
      let val := val + (byte &&& 0x7F).toNat <<< mul
      if byte &&& 0x80 ≠ 0 then bufRdRemlen buf left (i + 1) val (mul + 7) else some val

/-- `while(pl_len < remlen)`. -/
def recvPl (remlen : ℕ) : ℕ → MqttPacket → Net → Option Loop
  | 0, _, _ => none
  | turns + 1, m, net =>
    if m.plLen < remlen then
      match net.recv (remlen - m.plLen) with
      | (.error got, net) => some (m, net, some got)
      | (.ok bs, net) =>
        (store m.buffer (m.vheaderBuf + m.plLen) bs).bind fun buffer =>
          recvPl remlen turns { m with buffer := buffer, plLen := m.plLen + bs.length } net
    else some (m, net, none)

/-- `MSG_TYPE`. -/
def msgTypeOf (fhByte1 : UInt8) : ℕ := ((fhByte1 &&& 0xF0) >>> 4).toNat

/-- `mqp_recv` behind the fixed header. -/
def recvRest (m : MqttPacket) (net : Net) : Option (Got × MqttPacket × Net) :=
  (bufRdRemlen m.buffer MAX_REMLEN_BYTES (m.fheaderBuf + 1) 0 0).bind fun remlen =>
    if m.maxlen < remlen + m.fhLen then some (.pktLen, m, net)
    else
      (recvPl remlen (remlen + 1) m net).bind fun loop =>
        match loop with
        | (m, net, some got) => some (got, m, net)
        | (m, net, none) =>
          (m.buffer[m.fheaderBuf]?).map fun byte =>
            (.bytes (m.fhLen + remlen), { m with fhByte1 := byte, msgType := msgTypeOf byte }, net)

/-- `mqp_recv`. -/
def mqpRecv (m : MqttPacket) (net : Net) : Option (Got × MqttPacket × Net) :=
  (recvFhStart 3 m net).bind fun loop =>
    match loop with
    | (m, net, some got) => some (got, m, net)
    | (m, net, none) =>
      (recvFhMore 6 m net).bind fun loop =>
        match loop with
        | (m, net, some got) => some (got, m, net)
        | (m, net, none) => recvRest m net

/-- Calls of `mqp_recv` until one does not time out: `mqp_setup_proc_ctx_data_recv` keeps the packet for the next. -/
def receive : ℕ → MqttPacket → Net → Option (Got × MqttPacket × Net)
  | 0, _, _ => none
  | calls + 1, m, net =>
    (mqpRecv m net).bind fun r =>
      if r.1 = .timedOut ∧ r.2.2.answers ≠ [] then receive calls r.2.1 r.2.2 else some r

/-! ## A received PUBLISH -/

/-- `buf_rd_nbo_2B`. -/
def bufRdNbo2B (buf : Bytes) (i : ℕ) : Option ℕ :=
  (buf[i]?).bind fun hi => (buf[i + 1]?).map fun lo => hi.toNat <<< 8 ||| lo.toNat

/-- `ENUM_QOS`. -/
def enumQos (fhByte1 : UInt8) : ℕ := ((fhByte1 &&& 0x6) >>> 1).toNat

/-- `BOOL_RETAIN` and `BOOL_DUP`. -/
def boolRetain (fhByte1 : UInt8) : Bool := fhByte1 &&& 0x1 ≠ 0

def boolDup (fhByte1 : UInt8) : Bool := fhByte1 &&& 0x8 ≠ 0

/-- `mqp_proc_pub_rx`.  The length of the topic is compared with nothing unless a message id follows it. -/
def mqpProcPubRx (m : MqttPacket) : Option (Bool × MqttPacket) :=
  if m.plLen < 2 then some (false, m)
  else
    (bufRdNbo2B m.buffer m.vheaderBuf).bind fun tmp =>
      if enumQos m.fhByte1 ≠ 0 then
        if m.plLen < 2 + tmp + 2 then some (false, m)
        else
          (bufRdNbo2B m.buffer (m.vheaderBuf + 2 + tmp)).map fun msgId =>
            (true, { m with
              msgId := msgId
              vhLen := (m.vhLen + (2 + tmp + 2)) % 2 ^ 16
              plLen := sub32 m.plLen (2 + tmp + 2) })
      else
        some (true, { m with
          vhLen := (m.vhLen + (2 + tmp)) % 2 ^ 16
          plLen := sub32 m.plLen (2 + tmp) })

/-- `MQP_PUB_TOP_LEN`, an `int` that becomes the `long` of `Mqtt_Recv`. -/
def MqttPacket.pubTopLen (m : MqttPacket) : ℤ := (m.vhLen : ℤ) - 2 - if m.msgId ≠ 0 then 2 else 0

/-- `MQP_PUB_TOP_BUF`. -/
def MqttPacket.pubTopBuf (m : MqttPacket) : ℕ := m.vheaderBuf + 2

end Thronix.Mqp
