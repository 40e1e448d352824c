import Mathlib.Tactic.Ring
import Thronix.MqttPacket

/-!
# Thronix.MqttBuild — what is sent for a PUBLISH

* `remlenBytes_spec`: the remaining length is read back as it was written, and where it ends can be seen.
* `pubMsgSend_cases`: what `mqtt_client_pub_msg_send` does for every size of the buffer.
* `pubMsgSend_outside`: it writes outside the buffer exactly if the topic does not fit in a buffer with room for two
  bytes: the check of `mqp_pub_append_topic` compares with 2, not with the length of the topic.
-/

namespace Thronix.Mqp

open Thronix.Lib
open Thronix.Lib.Buffer
open Thronix.Json

/-! ## The remaining length -/

/-- The top bit is set in all bytes but the last. -/
def Ended : Bytes → Prop
  | [] => False
  | [b] => b &&& 0x80 = 0
  | b :: c :: bs => b &&& 0x80 ≠ 0 ∧ Ended (c :: bs)

/-- Seven bits in a byte, without and with the top bit. -/
theorem seven_bits : ∀ n < 128, UInt8.ofNat n &&& 0x80 = 0 ∧ (UInt8.ofNat n &&& 0x7F).toNat = n ∧
    (UInt8.ofNat n ||| 0x80) &&& 0x80 ≠ 0 ∧ ((UInt8.ofNat n ||| 0x80) &&& 0x7F).toNat = n := by
  decide +kernel

theorem remlenBytes_spec (room n : ℕ) (hroom : 0 < room) (hn : n < 128 ^ room) :
    ∃ val, remlenBytes room n = some val ∧ val.length ≤ room ∧ Ended val ∧
      ∀ buf i acc mul, At buf i val → bufRdRemlen buf room i acc mul = some (acc + n <<< mul) := by
  induction room generalizing n with
  | zero => exact absurd hroom (lt_irrefl 0)
  | succ room ih =>
    have hlow : n &&& 0x7F = n % 128 := Nat.and_two_pow_sub_one_eq_mod n 7
    have hhigh : n >>> 7 = n / 128 := Nat.shiftRight_eq_div_pow n 7
    obtain ⟨hend, hval, htop, hval'⟩ := seven_bits (n % 128) (Nat.mod_lt _ (by decide))
    unfold remlenBytes
    dsimp only
    rw [hlow, hhigh]
    by_cases hlast : n / 128 = 0
    · rw [if_pos hlast]
      refine ⟨_, rfl, Nat.succ_le_succ (Nat.zero_le room), hend, fun buf i acc mul hat => ?_⟩
      have hbyte : buf[i]? = some (UInt8.ofNat (n % 128)) := hat 0 Nat.one_pos
      rw [bufRdRemlen, hbyte, Option.bind_some]
      dsimp only
      rw [if_neg (not_not.mpr hend), hval, Nat.mod_eq_of_lt (by omega)]
    · rw [if_neg hlast]
      have hpow : n / 128 < 128 ^ room := by
        rw [Nat.div_lt_iff_lt_mul (by decide), ← pow_succ]
        exact hn
      have hroom' : 0 < room := by
        by_contra h0
        obtain rfl : room = 0 := by omega
        rw [pow_zero] at hpow
        omega
      obtain ⟨val, heq, hlen, hended, hread⟩ := ih (n / 128) hroom' hpow
      rw [heq, Option.map_some]
      refine ⟨_, rfl, by rw [List.length_cons]; omega, ?_, fun buf i acc mul hat => ?_⟩
      · cases val with
        | nil => exact absurd hended id
        | cons c bs => exact ⟨htop, hended⟩
      · obtain ⟨hfirst, hrest⟩ := at_append.mp (show At buf i ([UInt8.ofNat (n % 128) ||| 0x80] ++ val) from hat)
        have hbyte : buf[i]? = some (UInt8.ofNat (n % 128) ||| 0x80) := hfirst 0 Nat.one_pos
        rw [bufRdRemlen, hbyte, Option.bind_some]
        dsimp only
        rw [if_pos htop, hval', hread buf (i + 1) _ _ hrest]
        congr 1
        have hn' : n = n / 128 * 128 + n % 128 := (Nat.div_add_mod' n 128).symm
        calc acc + (n % 128) <<< mul + (n / 128) <<< (mul + 7)
            = acc + (n / 128 * 128 + n % 128) * 2 ^ mul := by
              rw [Nat.shiftLeft_eq, Nat.shiftLeft_eq, pow_add]
              ring
          _ = acc + n <<< mul := by rw [← hn', Nat.shiftLeft_eq]

/-! ## A PUBLISH -/

/-- The variable header: the topic with its length, and the message id unless it is zero. -/
def pubVheader (topic : Bytes) (msgId : ℕ) : Bytes := bufWrUtf8 topic ++ if msgId ≠ 0 then bufWrNbo2B msgId else []

theorem length_pubVheader (topic : Bytes) (msgId : ℕ) :
    (pubVheader topic msgId).length = 2 + topic.length + if msgId ≠ 0 then 2 else 0 := by
  unfold pubVheader bufWrUtf8 bufWrNbo2B
  rw [List.length_append, List.length_append]
  by_cases h : msgId ≠ 0
  · rw [if_pos h, if_pos h]
    rfl
  · rw [if_neg h, if_neg h]
    rfl

section Build

variable {maxlen msgId qos newMsgId : ℕ} {buf topic data : Bytes} {retain : Bool} {m : MqttPacket}

theorem freebufLen_alloc (h5 : 5 ≤ maxlen) (hmax : maxlen < 2 ^ 32) (type : ℕ) :
    (mqpClientAlloc type MAX_FH_LEN maxlen buf).freebufLen = maxlen - 5 := by
  unfold MqttPacket.freebufLen MqttPacket.contentLen mqpClientAlloc MAX_FH_LEN
  dsimp only
  rw [sub32_eq h5 hmax, add32_eq (by omega), sub32_eq (by omega) (by omega)]
  omega

/-- What `mqp_pub_append_topic` leaves. -/
theorem appendTopic_cases (topic : Bytes) (msgId : ℕ) (hbuf : buf.length = maxlen) (h5 : 5 ≤ maxlen)
    (hmax : maxlen < 2 ^ 16) :
    (maxlen < 7 → mqpPubAppendTopic (mqpClientAlloc MQTT_PUBLISH MAX_FH_LEN maxlen buf) topic msgId =
        some (MQP_ERR_PKT_LEN, mqpClientAlloc MQTT_PUBLISH MAX_FH_LEN maxlen buf)) ∧
      (7 ≤ maxlen → maxlen < 5 + (pubVheader topic msgId).length →
        mqpPubAppendTopic (mqpClientAlloc MQTT_PUBLISH MAX_FH_LEN maxlen buf) topic msgId = none) ∧
      (5 + (pubVheader topic msgId).length ≤ maxlen → ∃ buf',
        mqpPubAppendTopic (mqpClientAlloc MQTT_PUBLISH MAX_FH_LEN maxlen buf) topic msgId =
            some (((pubVheader topic msgId).length : ℤ),
              (⟨MQTT_PUBLISH, 0x00, msgId, 5, 0, (pubVheader topic msgId).length, 0, maxlen, buf'⟩ : MqttPacket)) ∧
          buf'.length = maxlen ∧ At buf' 5 (pubVheader topic msgId)) := by
  have hlen := length_pubVheader topic msgId
  have heq : mqpPubAppendTopic (mqpClientAlloc MQTT_PUBLISH MAX_FH_LEN maxlen buf) topic msgId =
      if (mqpClientAlloc MQTT_PUBLISH MAX_FH_LEN maxlen buf).freebufLen < 2 then
        some (MQP_ERR_PKT_LEN, mqpClientAlloc MQTT_PUBLISH MAX_FH_LEN maxlen buf)
      else (store buf 5 (pubVheader topic msgId)).map fun buffer =>
        (((pubVheader topic msgId).length : ℤ), (⟨MQTT_PUBLISH, 0x00, if msgId ≠ 0 then msgId else 0, 5, 0,
          (0 + (pubVheader topic msgId).length) % 2 ^ 16, 0, maxlen, buffer⟩ : MqttPacket)) :=
    if_neg (not_not.mpr rfl)
  rw [heq, freebufLen_alloc h5 (by omega)]
  refine ⟨fun h => if_pos (by omega), fun h1 h2 => ?_, fun h => ?_⟩
  · rw [if_neg (by omega), store_eq_none (by rw [hbuf]; exact h2), Option.map_none]
  · obtain ⟨buf', hstore⟩ : ∃ buf', store buf 5 (pubVheader topic msgId) = some buf' :=
      ⟨_, store_of_le (by rw [hbuf]; exact h)⟩
    obtain ⟨-, hl, hat, -⟩ := store_spec hstore
    have hid : (if msgId ≠ 0 then msgId else 0) = msgId := by
      by_cases h0 : msgId = 0
      · rw [if_neg (not_not.mpr h0), h0]
      · rw [if_pos h0]
    refine ⟨buf', ?_, by rw [hl, hbuf], hat⟩
    rw [if_neg (by omega), hstore, Option.map_some, hid, Nat.zero_add, Nat.mod_eq_of_lt (by omega)]

/-- What `mqp_pub_append_data` leaves behind the variable header. -/
theorem appendData_cases {vh : Bytes} (msgId : ℕ) (hbuf : buf.length = maxlen) (hmax : maxlen < 2 ^ 16) (hvh : vh ≠ [])
    (hroom : 5 + vh.length ≤ maxlen) (hat : At buf 5 vh) :
    (maxlen < 5 + vh.length + data.length →
        mqpPubAppendData ⟨MQTT_PUBLISH, 0x00, msgId, 5, 0, vh.length, 0, maxlen, buf⟩ data =
          some (MQP_ERR_PKT_LEN, ⟨MQTT_PUBLISH, 0x00, msgId, 5, 0, vh.length, 0, maxlen, buf⟩)) ∧
      (5 + vh.length + data.length ≤ maxlen → ∃ buf',
        mqpPubAppendData ⟨MQTT_PUBLISH, 0x00, msgId, 5, 0, vh.length, 0, maxlen, buf⟩ data =
            some ((data.length : ℤ),
              (⟨MQTT_PUBLISH, 0x00, msgId, 5, 0, vh.length, data.length, maxlen, buf'⟩ : MqttPacket)) ∧
          buf'.length = maxlen ∧ At buf' 5 (vh ++ data)) := by
  have hpos := List.length_pos_iff.mpr hvh
  have hfree : (⟨MQTT_PUBLISH, 0x00, msgId, 5, 0, vh.length, 0, maxlen, buf⟩ : MqttPacket).freebufLen =
      maxlen - 5 - vh.length := by
    unfold MqttPacket.freebufLen MqttPacket.contentLen
    dsimp only
    rw [sub32_eq (show 5 ≤ maxlen by omega) (by omega), add32_eq (by omega), sub32_eq (by omega) (by omega)]
    omega
  unfold mqpPubAppendData
  rw [if_neg (by dsimp only; omega), hfree]
  refine ⟨fun h => if_pos (by omega), fun h => ?_⟩
  obtain ⟨buf', hstore⟩ : ∃ buf', store buf (5 + vh.length) data = some buf' :=
    ⟨_, store_of_le (by rw [hbuf]; exact h)⟩
  obtain ⟨-, hl, hdata, -⟩ := store_spec hstore
  refine ⟨buf', ?_, by rw [hl, hbuf], at_append.mpr ⟨hat.store hstore (Or.inl (le_refl _)), hdata⟩⟩
  have hpl : add32 0 data.length = data.length := by rw [add32_eq (by omega), Nat.zero_add]
  rw [if_neg (by omega)]
  change (store buf (5 + vh.length) data).map _ = _
  rw [hstore, Option.map_some, hpl]

/-- The packet `mqp_prep_fh` makes: what goes to the socket is the fixed header and what stands behind it. -/
theorem prepFh_content {vh : Bytes} (flags : ℕ) (data : Bytes) (hvh : m.vhLen = vh.length) (hpl : m.plLen = data.length)
    (hoff : m.offset = 5) (hbody : vh.length + data.length < 2 ^ 28) (hat : At m.buffer 5 (vh ++ data))
    (hlen : 5 + (vh.length + data.length) ≤ m.buffer.length) :
    ∃ val m', remlenBytes MAX_REMLEN_BYTES (vh.length + data.length) = some val ∧ mqpPrepFh m flags = some m' ∧
      m'.content = makeFhByte1 m.msgType flags :: (val ++ (vh ++ data)) := by
  obtain ⟨val, hval, hvlen, -, -⟩ := remlenBytes_spec MAX_REMLEN_BYTES (vh.length + data.length)
    (by decide) (by unfold MAX_REMLEN_BYTES MAX_FH_LEN; omega)
  have hroom : MAX_REMLEN_BYTES = 4 := rfl
  have hbits : vh.length + data.length < 2 ^ 32 := by omega
  obtain ⟨buf', hstore⟩ :
      ∃ buf', store m.buffer (5 - (val.length + 1)) (makeFhByte1 m.msgType flags :: val) = some buf' :=
    ⟨_, store_of_le (by rw [List.length_cons]; omega)⟩
  obtain ⟨-, hl, hfh, -⟩ := store_spec hstore
  have hbehind : At buf' (5 - (val.length + 1) + (makeFhByte1 m.msgType flags :: val).length) (vh ++ data) := by
    have heq : 5 - (val.length + 1) + (makeFhByte1 m.msgType flags :: val).length = 5 := by
      rw [List.length_cons]
      omega
    rw [heq]
    exact hat.store hstore (Or.inr (by rw [List.length_cons]; omega))
  have hall := at_append.mpr ⟨hfh, hbehind⟩
  refine ⟨val, ⟨m.msgType, makeFhByte1 m.msgType flags, m.msgId, 5 - (val.length + 1), val.length + 1, m.vhLen, m.plLen,
    m.maxlen, buf'⟩, hval, ?_, ?_⟩
  · unfold mqpPrepFh
    rw [hvh, hpl, add32_eq hbits, hval, Option.bind_some]
    dsimp only
    rw [if_pos (by omega), hoff, hstore, Option.map_some]
  · have hcontent := hall.take_drop
    have hsum : add32 (val.length + 1 + vh.length) data.length =
        (makeFhByte1 m.msgType flags :: val ++ (vh ++ data)).length := by
      rw [add32_eq (by omega), List.length_append, List.length_append, List.length_cons]
      omega
    unfold MqttPacket.content MqttPacket.contentLen MqttPacket.fheaderBuf
    dsimp only
    rw [hvh, hpl, hsum]
    exact hcontent

/-- What goes to the socket for a PUBLISH. -/
def pubWire (val topic data : Bytes) (msgId qos : ℕ) (retain : Bool) : Bytes :=
  makeFhByte1 MQTT_PUBLISH (makeFhFlags false qos retain) :: (val ++ (pubVheader topic msgId ++ data))

/-- **`mqtt_client_pub_msg_send`**, for every size of the buffer. -/
theorem pubMsgSend_cases (data : Bytes) (retain : Bool) (hbuf : buf.length = maxlen) (h5 : 5 ≤ maxlen)
    (hmax : maxlen < 2 ^ 16) (htopic : topic ≠ []) (hid : msgId = if qos ≠ 0 then newMsgId else 0) :
    (maxlen < 7 → pubMsgSend maxlen buf topic data qos retain newMsgId = some (.error MQP_ERR_PKT_LEN)) ∧
      (7 ≤ maxlen → maxlen < 5 + (pubVheader topic msgId).length →
        pubMsgSend maxlen buf topic data qos retain newMsgId = none) ∧
      (5 + (pubVheader topic msgId).length ≤ maxlen → maxlen < 5 + (pubVheader topic msgId).length + data.length →
        pubMsgSend maxlen buf topic data qos retain newMsgId = some (.error MQP_ERR_PKT_LEN)) ∧
      (5 + (pubVheader topic msgId).length + data.length ≤ maxlen → ∃ val m,
        remlenBytes MAX_REMLEN_BYTES ((pubVheader topic msgId).length + data.length) = some val ∧
          pubMsgSend maxlen buf topic data qos retain newMsgId = some (.packet m) ∧
          m.content = pubWire val topic data msgId qos retain) := by
  have hne : topic.length ≠ 0 := fun h => htopic (List.length_eq_zero_iff.mp h)
  obtain ⟨hshort, hout, hfits⟩ := appendTopic_cases topic msgId hbuf h5 hmax
  have hneg : ¬((pubVheader topic msgId).length : ℤ) < 0 := by omega
  have hvlen := length_pubVheader topic msgId
  unfold pubMsgSend
  rw [if_neg hne, ← hid]
  dsimp only
  refine ⟨fun h => ?_, fun h1 h2 => ?_, fun h1 h2 => ?_, fun h => ?_⟩
  · rw [hshort h, Option.bind_some]
    exact if_pos (by unfold MQP_ERR_PKT_LEN; omega)
  · rw [hout h1 h2, Option.bind_none]
  · obtain ⟨buf', happ, hl, hat⟩ := hfits h1
    have hdata : data.length ≠ 0 := by omega
    have hvh : pubVheader topic msgId ≠ [] := List.length_pos_iff.mp (by omega)
    rw [happ, Option.bind_some, if_neg hneg, if_pos hdata, (appendData_cases msgId hl hmax hvh h1 hat).1 h2,
      Option.bind_some]
    exact if_pos (by unfold MQP_ERR_PKT_LEN; omega)
  · obtain ⟨buf', happ, hl, hat⟩ := hfits (by omega)
    have hvh : pubVheader topic msgId ≠ [] := List.length_pos_iff.mp (by omega)
    rw [happ, Option.bind_some, if_neg hneg]
    by_cases hdata : data.length ≠ 0
    · obtain ⟨buf'', happ', hl', hat'⟩ := (appendData_cases msgId hl hmax hvh (by omega) hat).2 h
      obtain ⟨val, m', hval, hprep, hcontent⟩ := prepFh_content (makeFhFlags false qos retain) data
        (m := ⟨MQTT_PUBLISH, 0x00, msgId, 5, 0, _, _, maxlen, buf''⟩) rfl rfl rfl (by omega) hat'
        (by dsimp only; omega)
      rw [if_pos hdata, happ', Option.bind_some]
      refine ⟨val, m', hval, ?_, hcontent⟩
      dsimp only
      rw [if_neg (by omega), hprep, Option.map_some]
    · obtain rfl : data = [] := List.length_eq_zero_iff.mp (not_not.mp hdata)
      rw [← List.append_nil (pubVheader topic msgId)] at hat
      obtain ⟨val, m', hval, hprep, hcontent⟩ := prepFh_content (makeFhFlags false qos retain) []
        (m := ⟨MQTT_PUBLISH, 0x00, msgId, 5, 0, _, 0, maxlen, buf'⟩) rfl rfl rfl
        (by rw [List.length_nil]; omega) hat (by rw [List.length_nil]; dsimp only; omega)
      rw [if_neg hdata]
      refine ⟨val, m', hval, ?_, hcontent⟩
      dsimp only
      rw [hprep, Option.map_some]

/-- **Storing outside**: the buffer is left exactly if it has room for two bytes but not for the topic. -/
theorem pubMsgSend_outside (data : Bytes) (retain : Bool) (hbuf : buf.length = maxlen) (h5 : 5 ≤ maxlen)
    (hmax : maxlen < 2 ^ 16) (htopic : topic ≠ []) (hid : msgId = if qos ≠ 0 then newMsgId else 0) :
    (pubMsgSend maxlen buf topic data qos retain newMsgId = none ↔
        7 ≤ maxlen ∧ maxlen < 5 + (pubVheader topic msgId).length) ∧
      ((∃ m, pubMsgSend maxlen buf topic data qos retain newMsgId = some (.packet m)) ↔
        5 + (pubVheader topic msgId).length + data.length ≤ maxlen) := by
  obtain ⟨hshort, hout, hlong, hfits⟩ :=
    pubMsgSend_cases data retain hbuf h5 hmax htopic hid
  have hvlen := length_pubVheader topic msgId
  refine ⟨⟨fun hnone => ?_, fun h => hout h.1 h.2⟩, ?_, fun h => ?_⟩
  · by_contra hin
    by_cases h7 : maxlen < 7
    · rw [hshort h7] at hnone
      cases hnone
    · by_cases hdata : maxlen < 5 + (pubVheader topic msgId).length + data.length
      · rw [hlong (by omega) hdata] at hnone
        cases hnone
      · obtain ⟨val, m, -, hsome, -⟩ := hfits (by omega)
        rw [hsome] at hnone
        cases hnone
  · rintro ⟨m, hsome⟩
    by_contra hgt
    by_cases h7 : maxlen < 7
    · rw [hshort h7] at hsome
      cases hsome
    · by_cases hvh : maxlen < 5 + (pubVheader topic msgId).length
      · rw [hout (by omega) hvh] at hsome
        cases hsome
      · rw [hlong (by omega) (by omega)] at hsome
        cases hsome
  · obtain ⟨val, m, -, hsome, -⟩ := hfits h
    exact ⟨m, hsome⟩

/-- A topic of four bytes in a buffer of ten. -/
theorem pubMsgSend_outside_ten :
    (pubMsgSend 10 (List.replicate 10 0) [0x61, 0x62, 0x63, 0x64] [] 0 false 1 = none ↔
        7 ≤ 10 ∧ 10 < 5 + (pubVheader [0x61, 0x62, 0x63, 0x64] 0).length) ∧
      ((∃ m, pubMsgSend 10 (List.replicate 10 0) [0x61, 0x62, 0x63, 0x64] [] 0 false 1 = some (.packet m)) ↔
        5 + (pubVheader [0x61, 0x62, 0x63, 0x64] 0).length + 0 ≤ 10) :=
  pubMsgSend_outside [] false List.length_replicate (by decide) (by decide) (by decide) rfl

end Build

end Thronix.Mqp
