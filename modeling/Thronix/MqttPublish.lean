import Thronix.MqttBuild
import Thronix.MqttReceive

/-!
# Thronix.MqttPublish — PUBLISH packets from one client to another

* `Publish`, `MqttPacket.publish`: what the application is given of a received packet.
* `receivePublishes`: packet after packet, each in a buffer that still has what came before.
* `publishes_arrive`: what has been sent arrives, in order and unchanged, however the stream is cut up.
* `published_inside`: when the topic and the data given to the application lie in the packet.
-/

namespace Thronix.Mqp

open Thronix.Lib
open Thronix.Lib.Buffer
open Thronix.Json

/-- The arguments of `publish_rx`. -/
structure Publish where
  topic : Bytes
  data : Bytes
  msgId : ℕ
  qos : ℕ
  retain : Bool
  dup : Bool
  deriving DecidableEq, Repr

/-- A packet as `publish_rx` reads it. -/
def MqttPacket.publish (m : MqttPacket) : Publish where
  topic := (m.buffer.drop m.pubTopBuf).take m.pubTopLen.toNat
  data := (m.buffer.drop m.payloadBuf).take m.plLen
  msgId := m.msgId
  qos := enumQos m.fhByte1
  retain := boolRetain m.fhByte1
  dup := boolDup m.fhByte1

/-- So many packets, until one is not a good PUBLISH: `mqp_client_recv_alloc` sets the fields of a packet only. -/
def receivePublishes (maxlen : ℕ) : ℕ → Bytes → Net → Option (List Publish × Net)
  | 0, _, net => some ([], net)
  | n + 1, buffer, net =>
    (receive (net.answers.length + 1) (mqpClientAlloc 0 0 maxlen buffer) net).bind fun r =>
      match r with
      | (.bytes _, m, net) =>
        if m.msgType = MQTT_PUBLISH then
          (mqpProcPubRx m).bind fun r =>
            if r.1 then (receivePublishes maxlen n r.2.buffer net).map fun ps => (r.2.publish :: ps.1, ps.2)
            else some ([], net)
        else some ([], net)
      | (_, _, net) => some ([], net)

/-! ## Reading what was written -/

section Bytes

variable {buf val : Bytes} {i n : ℕ}

theorem bufRdNbo2B_at (hn : n < 2 ^ 16) (hat : At buf i (bufWrNbo2B n)) : bufRdNbo2B buf i = some n := by
  have hhi : buf[i]? = some (UInt8.ofNat (n >>> 8 &&& 0xFF)) := hat 0 Nat.two_pos
  have hlo : buf[i + 1]? = some (UInt8.ofNat (n &&& 0xFF)) := hat 1 Nat.one_lt_two
  have hlow : n &&& 0xFF = n % 256 := Nat.and_two_pow_sub_one_eq_mod n 8
  have hhigh : n >>> 8 &&& 0xFF = n / 256 := by
    rw [Nat.shiftRight_eq_div_pow, show 0xFF = 2 ^ 8 - 1 from rfl, Nat.and_two_pow_sub_one_eq_mod]
    omega
  unfold bufRdNbo2B
  rw [hhi, hlo, Option.bind_some, Option.map_some, hlow, hhigh, UInt8.toNat_ofNat', UInt8.toNat_ofNat',
    Nat.mod_eq_of_lt (by omega), Nat.mod_eq_of_lt (by omega), ← Nat.shiftLeft_add_eq_or_of_lt (by omega),
    Nat.shiftLeft_eq]
  congr 1
  omega

/-- The bytes of a remaining length, where they stand in a stream. -/
theorem Ended.bytes (h : Ended val) (hat : At buf i val) :
    0 < val.length ∧ (∃ b, buf[i + val.length - 1]? = some b ∧ b &&& 0x80 = 0) ∧
      ∀ j, i ≤ j → j + 1 < i + val.length → More buf j := by
  induction val generalizing i with
  | nil => exact absurd h id
  | cons b val ih =>
    have hb : buf[i]? = some b := hat 0 (Nat.succ_pos _)
    cases val with
    | nil => exact ⟨Nat.one_pos, ⟨b, hb, h⟩, fun j h1 h2 => absurd h2 (by rw [List.length_singleton]; omega)⟩
    | cons c val =>
      obtain ⟨htop, hrest⟩ := h
      obtain ⟨-, hafter⟩ := at_append.mp (show At buf i ([b] ++ (c :: val)) from hat)
      obtain ⟨hpos, ⟨l, hl, hlast⟩, hmore⟩ := ih hrest hafter
      have hlen : (b :: c :: val).length = (c :: val).length + 1 := rfl
      have hone : ([b] : Bytes).length = 1 := rfl
      refine ⟨Nat.succ_pos _, ⟨l, ?_, hlast⟩, fun j h1 h2 => ?_⟩
      · rw [← hl]
        congr 1
        omega
      · by_cases hj : j = i
        · exact ⟨b, hj ▸ hb, htop⟩
        · exact hmore j (by omega) (by omega)

/-- The fixed header of a packet at the front of a stream. -/
theorem headerEnds_wire {b : UInt8} {body rest : Bytes} (hval : remlenBytes MAX_REMLEN_BYTES body.length = some val)
    (hlen : body.length < 2 ^ 28) : HeaderEnds (b :: (val ++ body) ++ rest) (val.length + 1) body.length := by
  obtain ⟨val', hval', hroom, hended, hread⟩ := remlenBytes_spec MAX_REMLEN_BYTES body.length
    (by decide) (by unfold MAX_REMLEN_BYTES MAX_FH_LEN; omega)
  obtain rfl : val = val' := Option.some.inj (hval.symm.trans hval')
  have hmax : MAX_REMLEN_BYTES = 4 := rfl
  have hmax' : MAX_FH_LEN = 5 := rfl
  have hend : val.length + 1 - 1 = 1 + val.length - 1 := by omega
  have hat : At (b :: (val ++ body) ++ rest) 1 val := by
    intro k hk
    rw [Nat.add_comm 1 k, List.cons_append, List.getElem?_cons_succ, List.append_assoc,
      List.getElem?_append_left hk]
  obtain ⟨hpos, hlast, hmore⟩ := hended.bytes hat
  rw [← hend] at hlast
  have hbytes := bufRdRemlen_header (b :: (val ++ body) ++ rest) (show 2 ≤ val.length + 1 by omega)
    (fun i h1 h2 => hmore i h1 (by omega)) hlast (fun _ _ => rfl)
  rw [hread _ 1 0 0 hat, Nat.shiftLeft_zero, Nat.zero_add, Option.some.injEq] at hbytes
  exact ⟨by omega, by omega, fun i h1 h2 => hmore i h1 (by omega), hlast, hbytes⟩

/-- The flags in the first byte. -/
theorem flags_read : ∀ qos < 3, ∀ retain : Bool,
    let byte := makeFhByte1 MQTT_PUBLISH (makeFhFlags false qos retain)
    enumQos byte = qos ∧ boolRetain byte = retain ∧ boolDup byte = false ∧ msgTypeOf byte = MQTT_PUBLISH := by
  decide

end Bytes

/-! ## One packet -/

section Arrives

variable {maxlen msgId qos newMsgId : ℕ} {buf val topic data wire rest : Bytes} {retain : Bool} {m : MqttPacket}
  {answers : List Answer}

theorem length_pubWire :
    (pubWire val topic data msgId qos retain).length =
      val.length + 1 + ((pubVheader topic msgId).length + data.length) := by
  unfold pubWire
  rw [List.length_cons, List.length_append, List.length_append]
  omega

/-- `mqp_proc_pub_rx` takes apart what `mqtt_client_pub_msg_send` has put together. -/
theorem procPubRx_wire (hoff : m.offset = 0) (hvh : m.vhLen = 0) (hmid : m.msgId = 0) (hfh : m.fhLen = val.length + 1)
    (hpl : m.plLen = (pubVheader topic msgId).length + data.length)
    (hsize : (pubVheader topic msgId).length + data.length < 2 ^ 16)
    (hbyte : m.fhByte1 = makeFhByte1 MQTT_PUBLISH (makeFhFlags false qos retain))
    (hat : At m.buffer 0 (pubWire val topic data msgId qos retain)) (hqos : qos < 3)
    (hid : msgId = if qos ≠ 0 then newMsgId else 0) (hnew : 0 < newMsgId) (hnew' : newMsgId < 2 ^ 16) :
    ∃ p, mqpProcPubRx m = some (true, p) ∧ p.buffer = m.buffer ∧
      p.publish = ⟨topic, data, msgId, qos, retain, false⟩ := by
  have hvlen := length_pubVheader topic msgId
  obtain ⟨hq, hr, hd, -⟩ := flags_read qos hqos retain
  have hqos' : enumQos m.fhByte1 = qos := hbyte ▸ hq
  -- where the parts of the packet stand
  obtain ⟨-, hbody⟩ := at_append.mp
    (show At m.buffer 0 ((makeFhByte1 MQTT_PUBLISH (makeFhFlags false qos retain) :: val) ++
      (pubVheader topic msgId ++ data)) from hat)
  have hstart : 0 + (makeFhByte1 MQTT_PUBLISH (makeFhFlags false qos retain) :: val).length = m.vheaderBuf := by
    unfold MqttPacket.vheaderBuf MqttPacket.fheaderBuf
    rw [List.length_cons, hoff, hfh]
  rw [hstart] at hbody
  obtain ⟨hheader, hdata⟩ := at_append.mp hbody
  obtain ⟨hutf8, hidBytes⟩ := at_append.mp
    (show At m.buffer m.vheaderBuf (bufWrUtf8 topic ++ if msgId ≠ 0 then bufWrNbo2B msgId else []) from hheader)
  obtain ⟨hlen, htopic⟩ := at_append.mp (show At m.buffer m.vheaderBuf (bufWrNbo2B topic.length ++ topic) from hutf8)
  have hutf8len : (bufWrUtf8 topic).length = 2 + topic.length := List.length_append
  have htmp := bufRdNbo2B_at (by omega) hlen
  have htwo : (bufWrNbo2B topic.length).length = 2 := rfl
  -- what the application reads, once the lengths are right
  have hview {p : MqttPacket} (hp : p.buffer = m.buffer) (hpfh : p.fhLen = m.fhLen) (hpoff : p.offset = 0)
      (hpvh : p.vhLen = (pubVheader topic msgId).length) (hppl : p.plLen = data.length) (hpid : p.msgId = msgId)
      (hpb : p.fhByte1 = m.fhByte1) : p.publish = ⟨topic, data, msgId, qos, retain, false⟩ := by
    have hvb : p.vheaderBuf = m.vheaderBuf := by
      unfold MqttPacket.vheaderBuf MqttPacket.fheaderBuf
      rw [hpoff, hpfh, hoff]
    have htoplen : p.pubTopLen.toNat = topic.length := by
      unfold MqttPacket.pubTopLen
      rw [hpvh, hpid, hvlen]
      by_cases h0 : msgId ≠ 0
      · rw [if_pos h0, if_pos h0]
        omega
      · rw [if_neg h0, if_neg h0]
        omega
    unfold MqttPacket.publish MqttPacket.pubTopBuf MqttPacket.payloadBuf
    rw [htoplen, hvb, hp, hpvh, hppl, hpid, hpb, hbyte, hq, hr, hd, hdata.take_drop, ← htwo, htopic.take_drop]
  unfold mqpProcPubRx
  rw [if_neg (by omega), htmp, Option.bind_some, hqos']
  by_cases h0 : qos ≠ 0
  · have hmsg : msgId ≠ 0 := by
      rw [hid, if_pos h0]
      omega
    have hid' : msgId = newMsgId := by rw [hid, if_pos h0]
    rw [if_pos hmsg] at hvlen hidBytes
    rw [hutf8len, ← Nat.add_assoc] at hidBytes
    have hread := bufRdNbo2B_at (by omega) hidBytes
    rw [if_pos h0, if_neg (by omega), hread, Option.map_some]
    refine ⟨_, rfl, rfl, hview rfl rfl hoff ?_ ?_ rfl rfl⟩
    · dsimp only
      rw [hvh, Nat.zero_add, Nat.mod_eq_of_lt (by omega), hvlen]
    · dsimp only
      rw [sub32_eq (by omega) (by omega)]
      omega
  · have hmsg : ¬msgId ≠ 0 := by
      rw [hid, if_neg h0]
      exact not_not.mpr rfl
    rw [if_neg hmsg] at hvlen
    rw [if_neg h0]
    refine ⟨_, rfl, rfl, hview rfl rfl hoff ?_ ?_ (hmid.trans (not_not.mp hmsg).symm) rfl⟩
    · dsimp only
      rw [hvh, Nat.zero_add, Nat.mod_eq_of_lt (by omega), hvlen]
      omega
    · dsimp only
      rw [sub32_eq (by omega) (by omega)]
      omega

/-- A PUBLISH at the front of a stream is received, unless the connection fails or too few bytes come. -/
theorem publish_arrives (rest : Bytes) (answers : List Answer)
    (hval : remlenBytes MAX_REMLEN_BYTES ((pubVheader topic msgId).length + data.length) = some val)
    (hwire : wire = pubWire val topic data msgId qos retain) (hfit : wire.length ≤ maxlen) (hmax : maxlen < 2 ^ 16)
    (hroom : MAX_FH_LEN < maxlen) (hbuf : buf.length = maxlen) (hqos : qos < 3)
    (hid : msgId = if qos ≠ 0 then newMsgId else 0) (hnew : 0 < newMsgId) (hnew' : newMsgId < 2 ^ 16) :
    ∃ got m net, receive (answers.length + 1) (mqpClientAlloc 0 0 maxlen buf) ⟨wire ++ rest, answers⟩ =
        some (got, m, net) ∧
      ((got = .bytes wire.length ∧ m.msgType = MQTT_PUBLISH ∧ net.stream = rest ∧ net.answers <:+ answers ∧
          (rest ≠ [] → answers.countP Answer.brings ≤ net.answers.countP Answer.brings + wire.length) ∧
          ∃ p, mqpProcPubRx m = some (true, p) ∧ p.buffer.length = maxlen ∧
            p.publish = ⟨topic, data, msgId, qos, retain, false⟩) ∨
        (∀ n, got ≠ .bytes n) ∧ (.failed ∉ answers → answers.countP Answer.brings < wire.length)) := by
  have hlen : wire.length = val.length + 1 + ((pubVheader topic msgId).length + data.length) := hwire ▸ length_pubWire
  have hbody : (pubVheader topic msgId ++ data).length = (pubVheader topic msgId).length + data.length :=
    List.length_append
  have hends : HeaderEnds (wire ++ rest) (val.length + 1) ((pubVheader topic msgId).length + data.length) := by
    rw [hwire, ← hbody]
    exact headerEnds_wire (by rw [hbody]; exact hval) (by rw [hbody]; omega)
  have hall : (wire ++ rest).length = wire.length + rest.length := List.length_append
  have hfront : Front maxlen (wire ++ rest) (.bytes wire.length) wire.length :=
    hlen ▸ hends.front (by omega) (by omega)
  obtain ⟨got, m, net, heq, hread, hon, hout, hdone⟩ :=
    receive_spec (reading_alloc 0 (wire ++ rest) answers hbuf hroom) (Nat.lt_succ_self _)
  have hm : m.maxlen = maxlen := hon.maxlen
  have hheld : m.held = m.fhLen + m.plLen := rfl
  refine ⟨got, m, net, heq, ?_⟩
  cases got with
  | bytes n =>
    obtain ⟨hends', hn, b, hb, hbyte, htype⟩ := hout
    obtain ⟨hfh, hpl⟩ := hends.unique hends'
    obtain rfl : n = wire.length := by omega
    have hheld' : m.held = wire.length := hn.symm
    have hfirst : b = makeFhByte1 MQTT_PUBLISH (makeFhFlags false qos retain) := by
      rw [hwire] at hb
      exact (Option.some.inj hb).symm
    obtain ⟨-, -, -, htypeOf⟩ := flags_read qos hqos retain
    have hat := hread.bytes
    rw [hheld', List.take_left, hwire] at hat
    have hleft := hread.left
    rw [hheld', List.drop_left] at hleft
    obtain ⟨p, hproc, hpbuf, hpub⟩ := procPubRx_wire hread.offset hread.vhLen hread.msgId hfh.symm hpl.symm
      (by omega) (hbyte.trans hfirst) hat hqos hid hnew hnew'
    refine Or.inl ⟨rfl, htype.trans (hfirst ▸ htypeOf), hleft, hon.answers, fun hne => ?_, p, hproc,
      ?_, hpub⟩
    · have hcount := hon.counts (hleft ▸ hne)
      rw [hheld'] at hcount
      exact hcount
    · rw [hpbuf, hread.size, hm]
  | timedOut =>
    obtain ⟨-, hmiss⟩ := hout
    refine Or.inr ⟨fun n heq => (nomatch heq), fun _ => ?_⟩
    have hlt := hmiss.held_lt hread (hm ▸ hfront)
    have hcount := hon.counts (by
      rw [hread.left]
      refine List.length_pos_iff.mp ?_
      rw [List.length_drop]
      omega)
    have hzero : net.bringing = 0 := by unfold Net.bringing; rw [hdone rfl, List.countP_nil]
    have hstart : (mqpClientAlloc 0 0 maxlen buf).held = 0 := rfl
    have hbrings : (⟨wire ++ rest, answers⟩ : Net).bringing = answers.countP Answer.brings := rfl
    omega
  | network => exact Or.inr ⟨fun n heq => (nomatch heq), fun hok => absurd hout hok⟩
  | notDef => exact absurd hout.1 hends.not_endless
  | pktLen =>
    obtain ⟨r, hends', hlong, hpl⟩ := hout
    obtain ⟨hfh, hr⟩ := hends.unique hends'
    omega

end Arrives

/-! ## Packet after packet -/

/-- What `mqtt_client_pub_msg_send` puts on the wire for a publication. -/
def Sends (maxlen : ℕ) (p : Publish) (wire : Bytes) : Prop :=
  ∃ buf newMsgId m, buf.length = maxlen ∧ 0 < newMsgId ∧ newMsgId < 2 ^ 16 ∧ p.qos < 3 ∧ p.dup = false ∧
    p.msgId = (if p.qos ≠ 0 then newMsgId else 0) ∧
    pubMsgSend maxlen buf p.topic p.data p.qos p.retain newMsgId = some (.packet m) ∧ wire = m.content

section Publishes

variable {sent received : ℕ} {p : Publish} {wire rest buf : Bytes} {ps : List Publish} {wires : List Bytes}
  {answers : List Answer}

theorem Sends.eq_pubWire (h : Sends sent p wire) (h5 : 5 ≤ sent) (hmax : sent < 2 ^ 16) :
    ∃ val newMsgId, remlenBytes MAX_REMLEN_BYTES ((pubVheader p.topic p.msgId).length + p.data.length) = some val ∧
      wire = pubWire val p.topic p.data p.msgId p.qos p.retain ∧ p.qos < 3 ∧ p.dup = false ∧
      p.msgId = (if p.qos ≠ 0 then newMsgId else 0) ∧ 0 < newMsgId ∧ newMsgId < 2 ^ 16 := by
  obtain ⟨buf, newMsgId, m, hbuf, hpos, hlt, hqos, hdup, hid, hsend, hwire⟩ := h
  have htopic : p.topic ≠ [] := by
    intro hnil
    unfold pubMsgSend at hsend
    rw [hnil, if_pos List.length_nil] at hsend
    cases hsend
  obtain ⟨-, hfits⟩ := pubMsgSend_outside p.data p.retain hbuf h5 hmax htopic hid
  obtain ⟨-, -, -, hbuilt⟩ := pubMsgSend_cases p.data p.retain hbuf h5 hmax htopic hid
  obtain ⟨val, m', hval, hsend', hcontent⟩ := hbuilt (hfits.mp ⟨m, hsend⟩)
  obtain rfl : m = m' := by
    rw [hsend, Option.some.injEq, Built.packet.injEq] at hsend'
    exact hsend'
  exact ⟨val, newMsgId, hval, hwire.trans hcontent, hqos, hdup, hid, hpos, hlt⟩

/-- **A stream of publications**: however it is cut up, whatever pauses and failures there are, what has been received
is the beginning of what has been sent; it is everything as soon as enough answers of the socket have brought bytes. -/
theorem publishes_arrive (h5 : 5 ≤ sent) (hmax : sent < 2 ^ 16) (hroom : MAX_FH_LEN < received)
    (hmax' : received < 2 ^ 16) (hbuf : buf.length = received) (hsent : List.Forall₂ (Sends sent) ps wires)
    (hfit : ∀ wire ∈ wires, wire.length ≤ received) (rest : Bytes) (answers : List Answer) :
    ∃ n net, receivePublishes received ps.length buf ⟨wires.flatten ++ rest, answers⟩ = some (ps.take n, net) ∧
      (.failed ∉ answers → wires.flatten.length ≤ answers.countP Answer.brings →
        n = ps.length ∧ net.stream = rest) := by
  induction hsent generalizing buf answers with
  | nil => exact ⟨0, ⟨rest, answers⟩, rfl, fun _ _ => ⟨rfl, rfl⟩⟩
  | @cons p wire ps wires hp hps ih =>
    obtain ⟨val, newMsgId, hval, hwire, hqos, hdup, hid, hpos, hlt⟩ := hp.eq_pubWire h5 hmax
    obtain ⟨got, m, net, heq, hgot⟩ := publish_arrives (wires.flatten ++ rest) answers hval hwire
      (hfit wire List.mem_cons_self) hmax' hroom hbuf hqos hid hpos hlt
    have hall : (wire ++ wires.flatten).length = wire.length + wires.flatten.length := List.length_append
    rw [List.flatten_cons, List.length_cons, List.append_assoc, receivePublishes, heq, Option.bind_some]
    rcases hgot with ⟨rfl, htype, hstream, hsub, hcount, q, hproc, hqbuf, hpub⟩ | ⟨hnot, hfew⟩
    · -- the packet has come; the rest of the stream is received with what answers are left
      have hpubp : q.publish = p := by
        rw [hpub, ← hdup]
      obtain ⟨n, net', hrec, hdone⟩ := ih hqbuf (fun w hw => hfit w (List.mem_cons_of_mem wire hw)) net.answers
      have hnet : net = ⟨wires.flatten ++ rest, net.answers⟩ := by rw [← hstream]
      dsimp only
      rw [if_pos htype, hproc, Option.bind_some, if_pos rfl, hnet]
      dsimp only
      rw [hrec, Option.map_some, hpubp]
      refine ⟨n + 1, net', rfl, fun hok henough => ?_⟩
      rw [hall] at henough
      obtain ⟨hn, hrest⟩ := hdone (fun hmem => hok (hsub.subset hmem)) (by
        by_cases hnil : wires.flatten ++ rest = []
        · obtain ⟨hflat, -⟩ := List.append_eq_nil_iff.mp hnil
          rw [hflat, List.length_nil]
          exact Nat.zero_le _
        · have hle := hcount hnil
          omega)
      exact ⟨by rw [hn], hrest⟩
    · refine ⟨0, net, ?_, fun hok henough => ?_⟩
      · cases got with
        | bytes n => exact absurd rfl (hnot n)
        | timedOut => rfl
        | network => rfl
        | notDef => rfl
        | pktLen => rfl
      · have hless := hfew hok
        rw [hall] at henough
        omega

/-- A publication that fills two packets of the network, then another. -/
theorem publishes_arrive_two :
    ∃ n net, receivePublishes 16 2 (List.replicate 16 0)
        ⟨[[0x33, 0x06, 0x00, 0x01, 0x61, 0x00, 0x07, 0x68], [0x30, 0x03, 0x00, 0x01, 0x62]].flatten ++ [0x30],
          List.replicate 13 (.data 2)⟩ =
        some (([⟨[0x61], [0x68], 7, 1, true, false⟩, ⟨[0x62], [], 0, 0, false, false⟩] : List Publish).take n, net) ∧
      (Answer.failed ∉ List.replicate 13 (Answer.data 2) →
        ([[0x33, 0x06, 0x00, 0x01, 0x61, 0x00, 0x07, 0x68], [0x30, 0x03, 0x00, 0x01, 0x62]] :
            List Bytes).flatten.length ≤
          (List.replicate 13 (Answer.data 2)).countP Answer.brings →
        n = 2 ∧ net.stream = [0x30]) :=
  publishes_arrive (show 5 ≤ 16 by decide) (by decide) (by decide) (by decide) List.length_replicate
    (.cons ⟨List.replicate 16 0, 7, _, List.length_replicate, by decide, by decide, by decide, rfl, rfl, rfl, by decide⟩
      (.cons ⟨List.replicate 16 0, 1, _, List.length_replicate, by decide, by decide, by decide, rfl, rfl, rfl,
        by decide⟩ .nil)) (by decide) _ _

end Publishes

/-! ## What the application reads -/

section Inside

variable {m p : MqttPacket} {maxlen n : ℕ} {buf s : Bytes} {answers : List Answer} {net : Net}

/-- Topic and data lie in the first `n` bytes of the buffer. -/
def MqttPacket.Inside (p : MqttPacket) (n : ℕ) : Prop :=
  (p.pubTopBuf : ℤ) + p.pubTopLen ≤ n ∧ 0 ≤ p.pubTopLen ∧ p.payloadBuf + p.plLen ≤ n

/-- **Reading outside**: of a PUBLISH that has been received, whatever its bytes, `mqp_proc_pub_rx` reads nothing
outside the packet; what it gives to the application lies in the packet exactly if a message id is checked for or
the topic is no longer than the packet. -/
theorem published_inside (hbuf : buf.length = maxlen) (hroom : MAX_FH_LEN < maxlen) (hmax : maxlen < 2 ^ 16)
    (hrecv : receive (answers.length + 1) (mqpClientAlloc 0 0 maxlen buf) ⟨s, answers⟩ = some (.bytes n, m, net)) :
    mqpProcPubRx m = some (false, m) ∨
      ∃ topicLen p, bufRdNbo2B s m.fhLen = some topicLen ∧ mqpProcPubRx m = some (true, p) ∧
        (p.Inside n ↔ enumQos m.fhByte1 ≠ 0 ∨ m.fhLen + 2 + topicLen ≤ n) := by
  obtain ⟨got, m', net', heq, hread, hon, hout, -⟩ :=
    receive_spec (reading_alloc 0 s answers hbuf hroom) (Nat.lt_succ_self _)
  rw [hrecv, Option.some.injEq, Prod.mk.injEq, Prod.mk.injEq] at heq
  obtain ⟨rfl, rfl, rfl⟩ := heq
  obtain ⟨-, hn, -⟩ := hout
  have hheld : m.held = m.fhLen + m.plLen := rfl
  have hle := hread.held_le
  have hm : m.maxlen = maxlen := hon.maxlen
  have hvb : m.vheaderBuf = m.fhLen := by
    unfold MqttPacket.vheaderBuf MqttPacket.fheaderBuf
    rw [hread.offset, Nat.zero_add]
  have hwithin := hread.within
  have hsize := hread.size
  unfold mqpProcPubRx
  by_cases hshort : m.plLen < 2
  · exact Or.inl (if_pos hshort)
  · obtain ⟨hi, hhi⟩ : ∃ b, s[m.fhLen]? = some b := ⟨_, List.getElem?_eq_getElem (by omega)⟩
    obtain ⟨lo, hlo⟩ : ∃ b, s[m.fhLen + 1]? = some b := ⟨_, List.getElem?_eq_getElem (by omega)⟩
    have hreads : bufRdNbo2B s m.fhLen = some (hi.toNat <<< 8 ||| lo.toNat) := by
      unfold bufRdNbo2B
      rw [hhi, hlo, Option.bind_some, Option.map_some]
    have hreadb : bufRdNbo2B m.buffer m.vheaderBuf = some (hi.toNat <<< 8 ||| lo.toNat) := by
      unfold bufRdNbo2B
      rw [hvb, hread.getElem?_eq (by omega), hread.getElem?_eq (by omega), hhi, hlo, Option.bind_some, Option.map_some]
    have hword : hi.toNat <<< 8 ||| lo.toNat < 2 ^ 16 := by
      have hlo' := lo.toNat_lt
      have hhi' := hi.toNat_lt
      rw [← Nat.shiftLeft_add_eq_or_of_lt hlo', Nat.shiftLeft_eq]
      omega
    generalize hi.toNat <<< 8 ||| lo.toNat = len at hreads hreadb hword
    rw [if_neg hshort, hreadb, Option.bind_some]
    by_cases hqos : enumQos m.fhByte1 ≠ 0
    · rw [if_pos hqos]
      by_cases hlong : m.plLen < 2 + len + 2
      · exact Or.inl (if_pos hlong)
      · obtain ⟨i1, hi1⟩ : ∃ b, m.buffer[m.vheaderBuf + 2 + len]? = some b := ⟨_, List.getElem?_eq_getElem (by omega)⟩
        obtain ⟨i2, hi2⟩ : ∃ b, m.buffer[m.vheaderBuf + 2 + len + 1]? = some b :=
          ⟨_, List.getElem?_eq_getElem (by omega)⟩
        have hid : bufRdNbo2B m.buffer (m.vheaderBuf + 2 + len) = some (i1.toNat <<< 8 ||| i2.toNat) := by
          unfold bufRdNbo2B
          rw [hi1, hi2, Option.bind_some, Option.map_some]
        rw [if_neg hlong, hid, Option.map_some]
        refine Or.inr ⟨len, _, hreads, rfl, iff_of_true ?_ (Or.inl hqos)⟩
        unfold MqttPacket.Inside MqttPacket.pubTopBuf MqttPacket.pubTopLen MqttPacket.payloadBuf
          MqttPacket.vheaderBuf MqttPacket.fheaderBuf
        dsimp only
        rw [hread.offset, hread.vhLen, Nat.zero_add, Nat.zero_add, Nat.mod_eq_of_lt (by omega),
          sub32_eq (by omega) (by omega)]
        by_cases h0 : i1.toNat <<< 8 ||| i2.toNat ≠ 0
        · rw [if_pos h0]
          omega
        · rw [if_neg h0]
          omega
    · rw [if_neg hqos]
      refine Or.inr ⟨len, _, hreads, rfl, ?_⟩
      unfold MqttPacket.Inside MqttPacket.pubTopBuf MqttPacket.pubTopLen MqttPacket.payloadBuf
        MqttPacket.vheaderBuf MqttPacket.fheaderBuf
      dsimp only
      rw [hread.offset, hread.vhLen, hread.msgId, if_neg (not_not.mpr rfl), Nat.zero_add, Nat.zero_add]
      constructor
      · rintro ⟨-, -, hin⟩
        refine Or.inr ?_
        by_contra hout
        unfold sub32 at hin
        omega
      · rintro (h | h)
        · exact absurd h hqos
        · rw [Nat.mod_eq_of_lt (by omega), sub32_eq (by omega) (by omega)]
          omega

/-- A topic that is said to have five bytes in a packet of four. -/
theorem published_inside_four :
    mqpProcPubRx ⟨3, 0x30, 0, 0, 2, 0, 2, 6, [0x30, 0x02, 0x00, 0x05, 0x00, 0x00]⟩ =
        some (false, ⟨3, 0x30, 0, 0, 2, 0, 2, 6, [0x30, 0x02, 0x00, 0x05, 0x00, 0x00]⟩) ∨
      ∃ topicLen p, bufRdNbo2B [0x30, 0x02, 0x00, 0x05] 2 = some topicLen ∧
        mqpProcPubRx ⟨3, 0x30, 0, 0, 2, 0, 2, 6, [0x30, 0x02, 0x00, 0x05, 0x00, 0x00]⟩ = some (true, p) ∧
        (p.Inside 4 ↔ enumQos 0x30 ≠ 0 ∨ 2 + 2 + topicLen ≤ 4) :=
  published_inside (show (List.replicate 6 (0 : UInt8)).length = 6 from rfl) (by decide) (by decide)
    (show receive ((List.replicate 4 (Answer.data 0)).length + 1) (mqpClientAlloc 0 0 6 (List.replicate 6 0))
        ⟨[0x30, 0x02, 0x00, 0x05], List.replicate 4 (.data 0)⟩ =
      some (.bytes 4, ⟨3, 0x30, 0, 0, 2, 0, 2, 6, [0x30, 0x02, 0x00, 0x05, 0x00, 0x00]⟩, ⟨[], []⟩) by decide)

end Inside

end Thronix.Mqp
