import Thronix.Connection
import Thronix.Lib.Once
import Thronix.Lib.Ring

/-!
# Thronix.MqttQos2 — publications with QoS 2, received once and sent in order

The two queues of message ids of `mqtt_common.c` in every run of Thronix.Connection.

* `PubQos2Cq.Holds`: the ring has a list of at most eight ids, the oldest at `rd_idx`.
* `rxAct`, `txAct`: what the receive task does about a publication received and about one that has been sent.
* `qos2_delivered_once`: as long as the broker releases in order, a publication is delivered exactly if its id is not
  open.
* `qos2_completed_in_order`: PUBCOMPs are accepted and reported in the order of the PUBRECs, each once.
-/

namespace Thronix

open Lib
open Lib.Once
open Lib.Ring

/-! ## The ring -/

namespace PubQos2Cq

structure Holds (cq : PubQos2Cq) (ids : List (BitVec 16)) : Prop where
  size : cq.idVec.length = 8
  free : cq.nFree + ids.length = 8
  rdIdx : cq.rdIdx < 8
  wrIdx : cq.wrIdx = (cq.rdIdx + ids.length) % 8
  reads : Reads cq.idVec cq.rdIdx ids

section Holds

variable {cq : PubQos2Cq} {ids : List (BitVec 16)} {id id' : BitVec 16}

theorem holds_reset : Holds reset [] :=
  ⟨rfl, rfl, Nat.zero_lt_succ 7, rfl, fun _ hi => absurd hi (Nat.not_lt_zero _)⟩

theorem Holds.nil_of_count (h : Holds cq ids) (hcount : cq.count = 0) : ids = [] := by
  have hfree := h.free
  unfold count at hcount
  exact List.length_eq_zero_iff.mp (by omega)

theorem Holds.logup (h : Holds cq ids) (id : BitVec 16) (hroom : ids.length < 8) :
    ∃ cq', cq.logup id = some cq' ∧ Holds cq' (ids ++ [id]) := by
  have hfree := h.free
  have hsize := h.size
  refine ⟨_, if_pos (by omega), ?_, ?_, h.rdIdx, ?_, ?_⟩
  · rw [List.length_set, hsize]
  · rw [List.length_append, List.length_singleton]
    dsimp only
    omega
  · rw [List.length_append, List.length_singleton, h.wrIdx, Nat.mod_add_mod, Nat.add_assoc]
  · have hwr := h.wrIdx
    dsimp only
    rw [hwr, ← hsize]
    exact h.reads.snoc (by rw [hsize]; exact hroom) id

theorem Holds.logup_full (h : Holds cq ids) (id : BitVec 16) (hfull : ids.length = 8) : cq.logup id = none := by
  have hfree := h.free
  exact if_neg (by omega)

/-- The loop of `qos2_pub_cq_check` sees what is in the ring. -/
theorem checkFrom_reads {idVec : List (BitVec 16)} (hsize : idVec.length = 8) {rdIdx : ℕ} (hrd : rdIdx < 8)
    (h : Reads idVec rdIdx ids) : checkFrom idVec id ids.length rdIdx = true ↔ id ∈ ids := by
  induction ids generalizing rdIdx with
  | nil => exact iff_of_false Bool.false_ne_true List.not_mem_nil
  | cons a ids ih =>
    have hhead := h.head (by omega)
    have htail := h.tail
    rw [hsize] at htail
    rw [List.length_cons, checkFrom, hhead, Bool.or_eq_true, decide_eq_true_eq, Option.some.injEq,
      ih (Nat.mod_lt _ (by decide)) htail, List.mem_cons, eq_comm]

theorem Holds.check (h : Holds cq ids) : cq.check id = true ↔ id ∈ ids := by
  have hfree := h.free
  have hcount : 8 - cq.nFree = ids.length := by omega
  unfold PubQos2Cq.check
  rw [hcount]
  exact checkFrom_reads h.size h.rdIdx h.reads

/-- The oldest id is taken out. -/
theorem Holds.unlog (h : Holds cq (id :: ids)) : ∃ cq', cq.unlog id = (true, cq') ∧ Holds cq' ids := by
  have hfree := h.free
  have hsize := h.size
  have htail := h.reads.tail
  rw [List.length_cons] at hfree
  rw [hsize] at htail
  have heq : cq.unlog id = (true, { cq with rdIdx := (cq.rdIdx + 1) % 8, nFree := cq.nFree + 1 }) := by
    unfold PubQos2Cq.unlog
    rw [if_pos (by omega), if_pos (h.reads.head (by rw [hsize]; exact h.rdIdx))]
  refine ⟨_, heq, hsize, ?_, Nat.mod_lt _ (by decide), ?_, htail⟩
  · dsimp only
    omega
  · have hwr := h.wrIdx
    rw [List.length_cons] at hwr
    dsimp only
    omega

/-- Another id is not accepted. -/
theorem Holds.unlog_other (h : Holds cq ids) (hne : ids.head? ≠ some id) : (cq.unlog id).1 = false := by
  have hfree := h.free
  unfold PubQos2Cq.unlog
  by_cases hany : cq.nFree < 8
  · rw [if_pos hany]
    cases ids with
    | nil => rw [List.length_nil] at hfree; omega
    | cons a ids =>
      have hhead := h.reads.head (by rw [h.size]; exact h.rdIdx)
      rw [hhead, if_neg (show ¬some a = some id from hne)]
  · rw [if_neg hany]

end Holds

end PubQos2Cq

/-! ## Who touches the rings -/

namespace ClientCtx

/-- Both rings of a context. -/
def cqs (c : ClientCtx) : PubQos2Cq × PubQos2Cq := (c.qos2RxCq, c.qos2TxCq)

/-- Whether `proc_pub_msg_rx` gives the packet to `publish_rx`. -/
def publishRx (c : ClientCtx) (qos : MqttQos) (msgId : BitVec 16) : Bool :=
  match qos with
  | .qos0 | .qos1 => true
  | .qos2 => !c.qos2RxCq.check msgId && (c.qos2RxCq.logup msgId).isSome

section Rings

variable (c : ClientCtx)

theorem cqs_clCtxSeg1Send (isConnMsg : Bool) (o : NetSend) : (c.clCtxSeg1Send isConnMsg o).2.cqs = c.cqs := by
  unfold clCtxSeg1Send
  split_ifs
  · rfl
  · rfl
  · rcases o with _ | _ | _ <;> rfl

theorem cqs_vhMsgSend (o : NetSend) : (c.vhMsgSend o).cqs = c.cqs := c.cqs_clCtxSeg1Send false o

theorem cqs_msgDispatch (qos : MqttQos) (o : NetSend) : (c.msgDispatch qos o).2.cqs = c.cqs := by
  have hsent := c.assignNewMsgId.cqs_clCtxSeg1Send false o
  unfold msgDispatch
  by_cases hq : qos = .qos0
  · rw [if_pos hq]
    exact c.cqs_clCtxSeg1Send false o
  · rw [if_neg hq]
    dsimp only
    split_ifs <;> exact hsent

theorem cqs_mqttDisconnSend (o : NetSend) : (c.mqttDisconnSend o).cqs = c.cqs := by
  have hsent := c.cqs_clCtxSeg1Send false o
  unfold mqttDisconnSend
  dsimp only
  split_ifs <;> exact hsent

theorem cqs_singleCtxRxPrep (timedOut : Bool) (o : NetSend) : (c.singleCtxRxPrep timedOut o).2.cqs = c.cqs := by
  have hsent := c.cqs_clCtxSeg1Send false o
  unfold singleCtxRxPrep
  dsimp only
  split_ifs
  · rfl
  · rfl
  · rfl
  · exact hsent
  · exact hsent

theorem cqs_connStateTry (opened : Bool) (o : NetSend) (triggered : Bool) :
    (c.connStateTry opened o triggered).2.cqs = c.cqs := by
  have hsent := cqs_clCtxSeg1Send { c with net := true } true o
  unfold connStateTry
  dsimp only
  split_ifs
  · rfl
  · rfl
  · rfl
  · exact hsent
  · exact hsent

theorem cqs_procAckMsgRx (msgType : MqttMsg) (msgId : BitVec 16) :
    (c.procAckMsgRx msgType msgId).ctx.cqs = c.cqs := by
  unfold procAckMsgRx
  split_ifs <;> rfl

theorem cqs_procPingrspRx : c.procPingrspRx.ctx.cqs = c.cqs := by
  unfold procPingrspRx
  split_ifs <;> rfl

/-- A PUBREC is recorded in the sending ring and accepted, or changes neither ring. -/
theorem procPubRecRx_cases {c : ClientCtx} {msgId : BitVec 16} {o : NetSend} {p : Processed}
    (h : c.procPubRecRx msgId o = some p) :
    p.ctx.qos2RxCq = c.qos2RxCq ∧
      (p.rv = true ∧ c.qos2TxCq.logup msgId = some p.ctx.qos2TxCq ∨ p.rv = false ∧ p.ctx.qos2TxCq = c.qos2TxCq) := by
  unfold procPubRecRx at h
  rcases hwl : c.qosAck1Wl with _ | ⟨mqp, wl⟩
  · rw [hwl] at h
    cases h
  · rw [hwl] at h
    dsimp only at h
    by_cases hid : msgId = mqp
    · rw [if_pos hid] at h
      rcases hlog : c.qos2TxCq.logup msgId with _ | cq
      · rw [hlog] at h
        obtain rfl := Option.some.inj h
        exact ⟨rfl, Or.inr ⟨rfl, rfl⟩⟩
      · rw [hlog] at h
        obtain rfl := Option.some.inj h
        have hsent := cqs_vhMsgSend { c with qosAck1Wl := wl, qos2TxCq := cq } o
        have htx : cq = _ := (congrArg Prod.snd hsent).symm
        exact ⟨congrArg Prod.fst hsent, Or.inl ⟨rfl, congrArg some htx⟩⟩
    · rw [if_neg hid] at h
      obtain rfl := Option.some.inj h
      exact ⟨rfl, Or.inr ⟨rfl, rfl⟩⟩

theorem counts_of_mqttClientCtxDelete {c d : ClientCtx} (h : c.mqttClientCtxDelete = some d) :
    c.qos2RxCq.count = 0 ∧ c.qos2TxCq.count = 0 := by
  unfold mqttClientCtxDelete at h
  by_cases hbusy : (c.net || c.awaitsPkts) = true
  · rw [if_pos hbusy] at h
    cases h
  · obtain ⟨-, hidle⟩ := Bool.or_eq_false_iff.mp (Bool.eq_false_iff.mpr hbusy)
    unfold awaitsPkts at hidle
    obtain ⟨hfirst, htx⟩ := Bool.or_eq_false_iff.mp hidle
    obtain ⟨-, hrx⟩ := Bool.or_eq_false_iff.mp hfirst
    exact ⟨bne_eq_false_iff_eq.mp hrx, bne_eq_false_iff_eq.mp htx⟩

end Rings

end ClientCtx

/-- A PUBCOMP is accepted and reported if it has the oldest id, or neither of both. -/
theorem PubQos2Cq.Holds.pubcomp {c : ClientCtx} {ids : List (BitVec 16)} (h : c.qos2TxCq.Holds ids) (id : BitVec 16) :
    (ids.head? = some id → (c.ack2MsgIdUnlog id).rv = true ∧
        (c.ack2MsgIdUnlog id).ackNotify = some (.ack .pubcomp) ∧ (c.ack2MsgIdUnlog id).ctx.qos2TxCq.Holds ids.tail) ∧
      (ids.head? ≠ some id → (c.ack2MsgIdUnlog id).rv = false ∧ (c.ack2MsgIdUnlog id).ackNotify = none) := by
  unfold ClientCtx.ack2MsgIdUnlog
  refine ⟨fun hhead => ?_, fun hne => ?_⟩
  · obtain ⟨ids, rfl⟩ := List.head?_eq_some_iff.mp hhead
    obtain ⟨cq, hun, hcq⟩ := h.unlog
    rw [hun]
    exact ⟨rfl, rfl, hcq⟩
  · have hun := h.unlog_other hne
    dsimp only
    rw [hun]
    exact ⟨rfl, rfl⟩

namespace Session

section Steps

variable {s s' : Session} {e : SessionEvent}

theorem cqs_resume (c : ApiCall) (ret : ℤ) : (s.resume c ret).ctx = s.ctx := (s.resume_frame c ret).1

/-- Deleting a context needs empty rings. -/
def Emptied (c c' : ClientCtx) : Prop :=
  c.qos2RxCq.count = 0 ∧ c.qos2TxCq.count = 0 ∧ c'.cqs = (.reset, .reset)

/-- Apart from a packet received and the end of a connection, a step leaves the rings alone or finds them empty. -/
theorem step_cqs (hs : s.step e = some s') (hrecv : ∀ m o, e ≠ .recv m o) (hclose : e ≠ .netClose) :
    s'.ctx.cqs = s.ctx.cqs ∨ Emptied s.ctx s'.ctx := by
  cases e with
  | check =>
    obtain ⟨c, -, rfl⟩ := step_check.mp hs
    refine Or.inl ?_
    unfold check
    split_ifs
    · rfl
    · rfl
    · rw [cqs_resume]
  | arm =>
    obtain ⟨c, -, rfl⟩ := step_arm.mp hs
    exact Or.inl rfl
  | connectSend opened o triggered =>
    obtain ⟨-, rfl⟩ := step_connectSend.mp hs
    exact Or.inl (s.ctx.cqs_connStateTry opened o triggered)
  | dispatch mqp o =>
    refine Or.inl ?_
    unfold step at hs
    dsimp only at hs
    split at hs
    case h_2 => cases hs
    case h_1 c hc =>
      split_ifs at hs
      have hsent : ∀ qos, (if mqp then s.ctx.msgDispatch qos o else (false, s.ctx)).2.cqs = s.ctx.cqs := by
        intro qos
        split_ifs
        · exact s.ctx.cqs_msgDispatch qos o
        · rfl
      unfold dispatch at hs
      rcases c with _ | _ | _ | qos
      · cases hs
      · obtain rfl := Option.some.inj hs
        exact hsent .qos1
      · obtain rfl := Option.some.inj hs
        exact s.ctx.cqs_mqttDisconnSend o
      · obtain rfl := Option.some.inj hs
        exact hsent qos
  | wake =>
    obtain ⟨c, -, rfl⟩ := step_wake hs
    exact Or.inl rfl
  | ret =>
    obtain ⟨c, r, connAck, -, rfl⟩ := step_ret hs
    refine Or.inl ?_
    rw [cqs_resume]
  | ctxDelete =>
    obtain ⟨⟨-, -⟩, rfl⟩ := guard_eq_some.mp hs
    unfold ctxDelete
    rcases hdel : s.ctx.mqttClientCtxDelete with _ | ctx
    · exact Or.inl rfl
    · obtain ⟨hrx, htx⟩ := ClientCtx.counts_of_mqttClientCtxDelete hdel
      obtain rfl := ClientCtx.mqttClientCtxDelete_eq hdel
      exact Or.inr ⟨hrx, htx, rfl⟩
  | msgQRead =>
    obtain ⟨m, q, -, -, rfl⟩ := step_msgQRead hs
    refine Or.inl ?_
    cases m <;> rfl
  | recv m o => exact absurd rfl (hrecv m o)
  | recvError =>
    obtain ⟨-, rfl⟩ := step_recvError.mp hs
    exact Or.inl rfl
  | rxPrep timedOut o =>
    obtain ⟨-, hs⟩ := Option.ite_none_right_eq_some.mp hs
    obtain rfl := Option.some.inj hs
    exact Or.inl (s.ctx.cqs_singleCtxRxPrep timedOut o)
  | netClose => exact absurd rfl hclose
  | disconnCb =>
    obtain ⟨l, -, hcb⟩ := step_disconnCb hs
    rcases hcb with ⟨-, rfl⟩ | rfl
    · unfold processDisconnCb slMqttDisconnect
      dsimp only
      split_ifs
      · exact Or.inl rfl
      · exact Or.inl rfl
      · rcases hdel : ({ s.ctx with used := false } : ClientCtx).mqttClientCtxDelete with _ | ctx
        · exact Or.inl rfl
        · obtain ⟨hrx, htx⟩ := ClientCtx.counts_of_mqttClientCtxDelete hdel
          obtain rfl := ClientCtx.mqttClientCtxDelete_eq hdel
          exact Or.inr ⟨hrx, htx, rfl⟩
      · exact Or.inl rfl
    · exact Or.inl rfl
  | measureReport =>
    obtain rfl := step_measureReport.mp hs
    exact Or.inl rfl
  | waterReport =>
    obtain rfl := step_waterReport.mp hs
    exact Or.inl rfl

/-- A connection that is to be closed stays so until it is. -/
theorem step_closing {l : Bool} (hs : s.step e = some s') (hclose : e ≠ .netClose) (hl : s.rx = .closing l) :
    s'.rx = .closing l := by
  have hidle : ¬s.Receiving := by
    rintro ⟨h, -⟩
    rw [hl] at h
    cases h
  cases e with
  | check =>
    obtain ⟨c, -, rfl⟩ := step_check.mp hs
    unfold check
    split_ifs
    · exact hl
    · exact hl
    · exact ((s.resume_frame c (-1)).2.1).trans hl
  | arm =>
    obtain ⟨c, -, rfl⟩ := step_arm.mp hs
    exact hl
  | connectSend opened o triggered =>
    obtain ⟨-, rfl⟩ := step_connectSend.mp hs
    exact hl
  | dispatch mqp o =>
    obtain ⟨c, -, -, r, rfl, -⟩ := step_dispatch hs
    exact hl
  | wake =>
    obtain ⟨c, -, rfl⟩ := step_wake hs
    exact hl
  | ret =>
    obtain ⟨c, r, connAck, -, rfl⟩ := step_ret hs
    exact ((Session.resume_frame _ c r).2.1).trans hl
  | ctxDelete =>
    obtain ⟨-, pc, -, rfl | rfl⟩ := step_ctxDelete hs
    · exact hl
    · exact hl
  | msgQRead =>
    obtain ⟨m, q, -, -, rfl⟩ := step_msgQRead hs
    cases m <;> exact hl
  | recv m o => exact absurd (step_recv hs).1 hidle
  | recvError => exact absurd (step_recvError.mp hs).1 hidle
  | rxPrep timedOut o => exact absurd (step_rxPrep hs).1 hidle
  | netClose => exact absurd rfl hclose
  | disconnCb =>
    obtain ⟨l', hl', -⟩ := step_disconnCb hs
    rw [hl] at hl'
    cases hl'
  | measureReport =>
    obtain rfl := step_measureReport.mp hs
    exact hl
  | waterReport =>
    obtain rfl := step_waterReport.mp hs
    exact hl

end Steps

/-! ## Receiving -/

/-- What becomes of publications with QoS 2 from the broker, and what makes the client forget them. -/
def rxAct (s : Session) : SessionEvent → Option (RxAction (BitVec 16))
  | .recv (.publish .qos2 id) _ =>
    if s.ctx.connackAwait then none
    else if s.ctx.publishRx .qos2 id then some (.delivered id)
    else if s.ctx.qos2RxCq.check id then some (.duplicate id)
    else some (.refused id)
  | .recv (.pubrel id) _ => if s.ctx.connackAwait then none else some (.released id)
  | .recv (.connack _ rc) _ => if s.ctx.connackAwait && rc == 0 then some .closed else none
  | .netClose => some .closed
  | _ => none

def rxTrace (cfg : ConnectConfig) (h : List SessionEvent) : List (RxAction (BitVec 16)) :=
  trace Session.step rxAct (.init cfg) h

/-- The id that a PUBREL names. -/
def pubrelId : SessionEvent → Option (BitVec 16)
  | .recv (.pubrel id) _ => some id
  | _ => none

/-- The broker releases publications in the order it has sent them.  It may release one again. -/
def ReleasesInOrder (cfg : ConnectConfig) (h : List SessionEvent) (_ : Session) (e : SessionEvent) : Prop :=
  ∀ id ∈ pubrelId e, id ∈ opened (rxTrace cfg h) → (opened (rxTrace cfg h)).head? = some id

theorem releasesInOrder_iff (cfg : ConnectConfig) (h : List SessionEvent) (s : Session) (e : SessionEvent) :
    (∀ id ∈ pubrelId e, (opened (rxTrace cfg h)).contains id = true → (opened (rxTrace cfg h)).head? = some id) ↔
      ReleasesInOrder cfg h s e :=
  forall₂_congr fun _ _ => imp_congr List.contains_iff_mem Iff.rfl

instance (cfg : ConnectConfig) (h : List SessionEvent) (s : Session) (e : SessionEvent) :
    Decidable (ReleasesInOrder cfg h s e) :=
  @decidable_of_iff _ _ (releasesInOrder_iff cfg h s e) (Option.decidableForallMem (pubrelId e))

section Receiving

variable {cfg : ConnectConfig} {h : List SessionEvent} {s s' : Session} {m : Packet} {o : NetSend}

/-- The receiving ring has the ids that are open. -/
structure RxInv (cfg : ConnectConfig) (h : List SessionEvent) (s : Session) : Prop where
  holds : s.ctx.qos2RxCq.Holds (opened (rxTrace cfg h))
  each : Each (RxAllowed 8) (rxTrace cfg h)

theorem RxInv.same (hI : RxInv cfg h s) {e : SessionEvent} (hact : rxTrace cfg (e :: h) = rxTrace cfg h)
    (hcq : s'.ctx.qos2RxCq = s.ctx.qos2RxCq) : RxInv cfg (e :: h) s' := by
  refine ⟨?_, ?_⟩
  · rw [hact, hcq]
    exact hI.holds
  · rw [hact]
    exact hI.each

theorem RxInv.act (hI : RxInv cfg h s) {e : SessionEvent} {a : RxAction (BitVec 16)}
    (htrace : rxTrace cfg (e :: h) = a :: rxTrace cfg h) (hcq : s'.ctx.qos2RxCq.Holds (opened (a :: rxTrace cfg h)))
    (hallowed : RxAllowed 8 (rxTrace cfg h) a) : RxInv cfg (e :: h) s' := by
  refine ⟨?_, ?_⟩
  · rw [htrace]
    exact hcq
  · rw [htrace]
    exact ⟨hallowed, hI.each⟩

/-- A PUBLISH with QoS 2. -/
theorem RxInv.publish {id : BitVec 16} (hI : RxInv cfg h s) (hawait : ¬s.ctx.connackAwait = true)
    (htrace : rxTrace cfg (.recv (.publish .qos2 id) o :: h) =
      (rxAct s (.recv (.publish .qos2 id) o)).toList ++ rxTrace cfg h)
    (hctx : s'.ctx = (s.ctx.procPubMsgRx .qos2 id o).ctx) : RxInv cfg (.recv (.publish .qos2 id) o :: h) s' := by
  have hact : rxAct s (.recv (.publish .qos2 id) o) =
      if s.ctx.publishRx .qos2 id then some (.delivered id)
      else if s.ctx.qos2RxCq.check id then some (.duplicate id) else some (.refused id) := if_neg hawait
  have hpub : s.ctx.publishRx .qos2 id = (!s.ctx.qos2RxCq.check id && (s.ctx.qos2RxCq.logup id).isSome) := rfl
  rw [hact, hpub] at htrace
  unfold ClientCtx.procPubMsgRx at hctx
  dsimp only at hctx
  by_cases hdup : s.ctx.qos2RxCq.check id = true
  · rw [hdup] at htrace
    rw [if_pos hdup] at hctx
    exact hI.act htrace (by rw [hctx]; exact hI.holds) (hI.holds.check.mp hdup)
  · have hnew : id ∉ opened (rxTrace cfg h) := fun hmem => hdup (hI.holds.check.mpr hmem)
    have hfree := hI.holds.free
    rw [Bool.eq_false_iff.mpr hdup] at htrace
    rw [if_neg hdup] at hctx
    by_cases hroom : (opened (rxTrace cfg h)).length < 8
    · obtain ⟨cq, hlog, hholds⟩ := hI.holds.logup id hroom
      have hcq : s'.ctx.qos2RxCq = cq := by
        rw [hctx, hlog]
        exact congrArg Prod.fst (ClientCtx.cqs_vhMsgSend _ o)
      rw [hlog] at htrace
      exact hI.act htrace (hcq ▸ hholds) ⟨hnew, hroom⟩
    · have hfull : (opened (rxTrace cfg h)).length = 8 := by omega
      have hlog := hI.holds.logup_full id hfull
      rw [hlog] at htrace hctx
      exact hI.act htrace (by rw [hctx]; exact hI.holds) ⟨hnew, hfull⟩

/-- A PUBREL: the ring forgets the oldest id, or has forgotten it before. -/
theorem RxInv.pubrel {id : BitVec 16} (hI : RxInv cfg h s) (hok : ReleasesInOrder cfg h s (.recv (.pubrel id) o))
    (htrace : rxTrace cfg (.recv (.pubrel id) o :: h) = .released id :: rxTrace cfg h)
    (hctx : s'.ctx = (s.ctx.procPubRelRx id o).ctx) : RxInv cfg (.recv (.pubrel id) o :: h) s' := by
  have hsent : (s.ctx.vhMsgSend o).qos2RxCq = s.ctx.qos2RxCq := congrArg Prod.fst (s.ctx.cqs_vhMsgSend o)
  refine hI.act htrace ?_ trivial
  rw [hctx, opened]
  unfold ClientCtx.procPubRelRx
  dsimp only
  rw [hsent]
  by_cases hin : s.ctx.qos2RxCq.check id = true
  · obtain ⟨ids, hids⟩ := List.head?_eq_some_iff.mp (hok id rfl (hI.holds.check.mp hin))
    have hholds := hI.holds
    rw [hids] at hholds ⊢
    obtain ⟨cq, hun, hcq⟩ := hholds.unlog
    rw [if_pos hin, hun, List.erase_cons_head]
    exact hcq
  · rw [if_neg hin, List.erase_of_not_mem fun hmem => hin (hI.holds.check.mpr hmem), hsent]
    exact hI.holds

/-- One packet from the broker. -/
theorem RxInv.recv (hI : RxInv cfg h s) (hok : ReleasesInOrder cfg h s (.recv m o))
    (htrace : rxTrace cfg (.recv m o :: h) = (rxAct s (.recv m o)).toList ++ rxTrace cfg h) {p : Processed}
    (hp : s.ctx.processRecv m o = some p) (hctx : s'.ctx = p.ctx) : RxInv cfg (.recv m o :: h) s' := by
  have hquiet (hact : rxAct s (.recv m o) = none) (hcq : p.ctx.qos2RxCq = s.ctx.qos2RxCq) :
      RxInv cfg (.recv m o :: h) s' := by
    refine hI.same ?_ (by rw [hctx, hcq])
    rw [htrace, hact]
    rfl
  by_cases hawait : s.ctx.connackAwait = true
  · -- only a CONNACK is expected
    have hsent : p = s.ctx.connSentStateRx m := (Option.some.inj ((if_pos hawait).symm.trans hp)).symm
    have hother (hact : rxAct s (.recv m o) = none) (hkeep : (s.ctx.connSentStateRx m).ctx = s.ctx) :
        RxInv cfg (.recv m o :: h) s' := hquiet hact (by rw [hsent, hkeep])
    cases m with
    | connack flags rc =>
      have hact : rxAct s (.recv (.connack flags rc) o) = if (true && rc == 0) = true then some .closed else none := by
        unfold rxAct
        rw [hawait]
      have hproc : p = s.ctx.procConnackRx flags rc := hsent
      unfold ClientCtx.procConnackRx at hproc
      dsimp only at hproc
      by_cases hrc : rc = 0
      · rw [hact, if_pos (by rw [hrc]; rfl)] at htrace
        rw [if_neg (not_not.mpr hrc)] at hproc
        exact hI.act htrace (by rw [hctx, hproc]; exact PubQos2Cq.holds_reset) trivial
      · rw [if_pos hrc] at hproc
        refine hquiet ?_ (by rw [hproc])
        rw [hact, Bool.true_and, if_neg (by rw [beq_iff_eq]; exact hrc)]
    | publish qos id =>
      cases qos with
      | qos0 => exact hother rfl rfl
      | qos1 => exact hother rfl rfl
      | qos2 => exact hother (if_pos hawait) rfl
    | pubrel id => exact hother (if_pos hawait) rfl
    | suback id => exact hother rfl rfl
    | puback id => exact hother rfl rfl
    | unsuback id => exact hother rfl rfl
    | pubrec id => exact hother rfl rfl
    | pubcomp id => exact hother rfl rfl
    | pingrsp => exact hother rfl rfl
    | invalid => exact hother rfl rfl
  · have hp' : s.ctx.connectedStateRx o m = some p := (if_neg hawait).symm.trans hp
    cases m with
    | connack flags rc =>
      obtain rfl := Option.some.inj hp'
      refine hquiet ?_ rfl
      unfold rxAct
      rw [Bool.eq_false_iff.mpr hawait]
      rfl
    | publish qos id =>
      obtain rfl := Option.some.inj hp'
      cases qos with
      | qos0 => exact hquiet rfl rfl
      | qos1 => exact hquiet rfl (congrArg Prod.fst (s.ctx.cqs_vhMsgSend o))
      | qos2 => exact hI.publish hawait htrace hctx
    | pubrel id =>
      obtain rfl := Option.some.inj hp'
      have hact : rxAct s (.recv (.pubrel id) o) = some (.released id) := if_neg hawait
      rw [hact] at htrace
      exact hI.pubrel hok htrace hctx
    | suback id =>
      obtain rfl := Option.some.inj hp'
      exact hquiet rfl (congrArg Prod.fst (s.ctx.cqs_procAckMsgRx _ id))
    | puback id =>
      obtain rfl := Option.some.inj hp'
      exact hquiet rfl (congrArg Prod.fst (s.ctx.cqs_procAckMsgRx _ id))
    | unsuback id =>
      obtain rfl := Option.some.inj hp'
      exact hquiet rfl (congrArg Prod.fst (s.ctx.cqs_procAckMsgRx _ id))
    | pubrec id => exact hquiet rfl (ClientCtx.procPubRecRx_cases hp').1
    | pubcomp id =>
      obtain rfl := Option.some.inj hp'
      exact hquiet rfl rfl
    | pingrsp =>
      obtain rfl := Option.some.inj hp'
      exact hquiet rfl (congrArg Prod.fst s.ctx.cqs_procPingrspRx)
    | invalid =>
      obtain rfl := Option.some.inj hp'
      exact hquiet rfl rfl

/-- In every run the receiving ring has the ids that are open. -/
theorem rxInv (hr : RunIf Session.step (ReleasesInOrder cfg) (.init cfg) h s) : RxInv cfg h s := by
  refine hr.inv ⟨PubQos2Cq.holds_reset, trivial⟩ fun h s e s' hr hI hok hs => ?_
  have htrace := hr.trace_cons rxAct e
  by_cases hrecv : ∃ m o, e = .recv m o
  · obtain ⟨m, o, rfl⟩ := hrecv
    obtain ⟨-, p, rx, hp, rfl⟩ := step_recv hs
    exact hI.recv hok htrace hp rfl
  · by_cases hclose : e = .netClose
    · subst hclose
      obtain ⟨l, -, rfl⟩ := step_netClose hs
      exact hI.act htrace PubQos2Cq.holds_reset trivial
    · have hnone : rxAct s e = none := by
        cases e with
        | recv m o => exact absurd ⟨m, o, rfl⟩ hrecv
        | netClose => exact absurd rfl hclose
        | _ => rfl
      rw [hnone] at htrace
      rcases step_cqs hs (fun m o heq => hrecv ⟨m, o, heq⟩) hclose with hsame | ⟨hcount, -, hreset⟩
      · exact hI.same htrace (congrArg Prod.fst hsame)
      · have hnil := hI.holds.nil_of_count hcount
        have hcq : s'.ctx.qos2RxCq = .reset := congrArg Prod.fst hreset
        refine ⟨?_, ?_⟩
        · change PubQos2Cq.Holds _ (opened (trace Session.step rxAct (.init cfg) (e :: h)))
          rw [htrace, hcq]
          change PubQos2Cq.Holds _ (opened (rxTrace cfg h))
          rw [hnil]
          exact PubQos2Cq.holds_reset
        · change Each _ (trace Session.step rxAct (.init cfg) (e :: h))
          rw [htrace]
          exact hI.each

/-- **Exactly once**: as long as the broker releases in order, a publication with QoS 2 is given to the application
exactly if its id has not been given to it before, or has been released since or the connection closed; it is turned
down only if eight ids are open. -/
theorem qos2_delivered_once (hr : RunIf Session.step (ReleasesInOrder cfg) (.init cfg) h s)
    {post pre : List (RxAction (BitVec 16))} {a : RxAction (BitVec 16)} (hsplit : rxTrace cfg h = post ++ a :: pre) :
    (∀ id, a = .delivered id → ¬Open pre id) ∧ (∀ id, a = .duplicate id → Open pre id) ∧
      (∀ id, a = .refused id → ¬Open pre id ∧ ∃ ids : List (BitVec 16), ids.Nodup ∧ ids.length = 8 ∧
        ∀ i ∈ ids, Open pre i) := by
  have hI := rxInv hr
  have heach := hI.each
  rw [hsplit] at heach
  have hpre : Each (RxAllowed 8) pre := heach.suffix
  have hallowed := heach.of_append
  refine ⟨fun id ha => ?_, fun id ha => ?_, fun id ha => ?_⟩
  · subst ha
    exact fun hopen => hallowed.1 ((mem_opened hpre).mpr hopen)
  · subst ha
    exact (mem_opened hpre).mp hallowed
  · subst ha
    exact ⟨fun hopen => hallowed.1 ((mem_opened hpre).mpr hopen), opened pre, nodup_opened hpre, hallowed.2,
      fun i hi => (mem_opened hpre).mp hi⟩

/-- A publication that is sent again before and after it has been released. -/
def publishedAgain : List SessionEvent :=
  connected ++ [.recv (.publish .qos2 7) .whole, .recv (.publish .qos2 7) .whole, .recv (.pubrel 7) .whole,
    .recv (.publish .qos2 7) .whole]

theorem qos2_delivered_once_again :
    (∀ id, RxAction.delivered (7 : BitVec 16) = .delivered id →
        ¬Open [.released 7, .duplicate 7, .delivered 7, .closed] id) ∧
      (∀ id, RxAction.delivered (7 : BitVec 16) = .duplicate id →
        Open [.released 7, .duplicate 7, .delivered 7, .closed] id) ∧
      (∀ id, RxAction.delivered (7 : BitVec 16) = .refused id →
        ¬Open [.released 7, .duplicate 7, .delivered 7, .closed] id ∧
          ∃ ids : List (BitVec 16), ids.Nodup ∧ ids.length = 8 ∧
            ∀ i ∈ ids, Open [.released 7, .duplicate 7, .delivered 7, .closed] i) := by
  obtain ⟨h, s, hr, hh⟩ := exists_runIf Session.step (.init usrConnectConfig) publishedAgain
    (fun r => rxTrace usrConnectConfig r.1)
    (fun h s e (hok : decide (ReleasesInOrder usrConnectConfig h s e) = true) => of_decide_eq_true hok)
    (by decide : _ = some [.delivered 7, .released 7, .duplicate 7, .delivered 7, .closed])
  exact qos2_delivered_once hr (hh.trans (List.nil_append _).symm)

end Receiving

/-! ## Sending -/

/-- A PUBREC that is accepted, and a PUBCOMP that is reported through `ack_notify`. -/
def txAct (s : Session) : SessionEvent → Option (TxAction (BitVec 16))
  | .recv (.pubrec id) o =>
    if (s.ctx.processRecv (.pubrec id) o).map Processed.rv = some true then some (.recorded id) else none
  | .recv (.pubcomp id) o =>
    if (s.ctx.processRecv (.pubcomp id) o).bind Processed.ackNotify = some (.ack .pubcomp) then some (.completed id)
    else none
  | .recv (.connack _ rc) _ => if s.ctx.connackAwait && rc == 0 then some .closed else none
  | .netClose => some .closed
  | _ => none

def txTrace (cfg : ConnectConfig) (h : List SessionEvent) : List (TxAction (BitVec 16)) :=
  trace Session.step txAct (.init cfg) h

section Sending

variable {cfg : ConnectConfig} {h : List SessionEvent} {s s' : Session} {m : Packet} {o : NetSend}

/-- The sending ring has the ids that are pending, until a packet that does not fit closes the connection. -/
structure TxInv (cfg : ConnectConfig) (h : List SessionEvent) (s : Session) : Prop where
  holds : (∀ l, s.rx ≠ .closing l) → s.ctx.qos2TxCq.Holds (pending (txTrace cfg h))
  each : Each (TxAllowed 8) (txTrace cfg h)

theorem TxInv.same (hI : TxInv cfg h s) {e : SessionEvent} (hact : txTrace cfg (e :: h) = txTrace cfg h)
    (hrx : (∀ l, s'.rx ≠ .closing l) → ∀ l, s.rx ≠ .closing l) (hcq : s'.ctx.qos2TxCq = s.ctx.qos2TxCq) :
    TxInv cfg (e :: h) s' := by
  refine ⟨fun hopen => ?_, ?_⟩
  · rw [hact, hcq]
    exact hI.holds (hrx hopen)
  · rw [hact]
    exact hI.each

theorem TxInv.act (hI : TxInv cfg h s) {e : SessionEvent} {a : TxAction (BitVec 16)}
    (htrace : txTrace cfg (e :: h) = a :: txTrace cfg h) (hcq : s'.ctx.qos2TxCq.Holds (pending (a :: txTrace cfg h)))
    (hallowed : TxAllowed 8 (txTrace cfg h) a) : TxInv cfg (e :: h) s' := by
  refine ⟨fun _ => ?_, ?_⟩
  · rw [htrace]
    exact hcq
  · rw [htrace]
    exact ⟨hallowed, hI.each⟩

theorem txAct_pubrec {id : BitVec 16} {p : Processed} (hp : s.ctx.processRecv (.pubrec id) o = some p) :
    txAct s (.recv (.pubrec id) o) = if p.rv = true then some (.recorded id) else none := by
  unfold txAct
  dsimp only
  rw [hp, Option.map_some]
  exact if_congr Option.some_inj rfl rfl

theorem txAct_pubcomp {id : BitVec 16} {p : Processed} (hp : s.ctx.processRecv (.pubcomp id) o = some p) :
    txAct s (.recv (.pubcomp id) o) = if p.ackNotify = some (.ack .pubcomp) then some (.completed id) else none := by
  unfold txAct
  dsimp only
  rw [hp, Option.bind_some]

/-- A PUBREC or a PUBCOMP. -/
theorem TxInv.recv (hI : TxInv cfg h s) (hidle : s.rx = .idle)
    (htrace : txTrace cfg (.recv m o :: h) = (txAct s (.recv m o)).toList ++ txTrace cfg h) {p : Processed}
    (hp : s.ctx.processRecv m o = some p) (hctx : s'.ctx = p.ctx)
    (hrx : s'.rx = if p.rv = false ∨ m.refuses = true then .closing true else .idle) :
    TxInv cfg (.recv m o :: h) s' := by
  have hopen : ∀ l, s.rx ≠ .closing l := fun l heq => nomatch hidle.symm.trans heq
  have hholds := hI.holds hopen
  have hquiet (hact : txAct s (.recv m o) = none) (hcq : p.rv = true → p.ctx.qos2TxCq = s.ctx.qos2TxCq) :
      TxInv cfg (.recv m o :: h) s' := by
    have htrace' : txTrace cfg (.recv m o :: h) = txTrace cfg h := by rw [htrace, hact]; rfl
    refine ⟨fun hopen' => ?_, ?_⟩
    · by_cases hrv : p.rv = true
      · rw [htrace', hctx, hcq hrv]
        exact hholds
      · rw [if_pos (Or.inl (Bool.eq_false_iff.mpr hrv))] at hrx
        exact absurd hrx (hopen' true)
    · rw [htrace']
      exact hI.each
  by_cases hawait : s.ctx.connackAwait = true
  · have hsent : p = s.ctx.connSentStateRx m := (Option.some.inj ((if_pos hawait).symm.trans hp)).symm
    have hother (hact : txAct s (.recv m o) = none) (hkeep : (s.ctx.connSentStateRx m).ctx = s.ctx) :
        TxInv cfg (.recv m o :: h) s' := hquiet hact fun _ => by rw [hsent, hkeep]
    cases m with
    | connack flags rc =>
      have hact : txAct s (.recv (.connack flags rc) o) = if (true && rc == 0) = true then some .closed else none := by
        unfold txAct
        rw [hawait]
      have hproc : p = s.ctx.procConnackRx flags rc := hsent
      unfold ClientCtx.procConnackRx at hproc
      dsimp only at hproc
      by_cases hrc : rc = 0
      · rw [hact, if_pos (by rw [hrc]; rfl)] at htrace
        rw [if_neg (not_not.mpr hrc)] at hproc
        exact hI.act htrace (by rw [hctx, hproc]; exact PubQos2Cq.holds_reset) trivial
      · rw [if_pos hrc] at hproc
        refine hquiet ?_ (fun _ => by rw [hproc])
        rw [hact, Bool.true_and, if_neg (by rw [beq_iff_eq]; exact hrc)]
    | pubrec id =>
      refine hother ?_ rfl
      rw [txAct_pubrec hp, hsent]
      rfl
    | pubcomp id =>
      refine hother ?_ rfl
      rw [txAct_pubcomp hp, hsent]
      rfl
    | publish qos id => exact hother rfl rfl
    | pubrel id => exact hother rfl rfl
    | suback id => exact hother rfl rfl
    | puback id => exact hother rfl rfl
    | unsuback id => exact hother rfl rfl
    | pingrsp => exact hother rfl rfl
    | invalid => exact hother rfl rfl
  · have hp' : s.ctx.connectedStateRx o m = some p := (if_neg hawait).symm.trans hp
    have hnot := Bool.eq_false_iff.mpr hawait
    cases m with
    | connack flags rc =>
      obtain rfl := Option.some.inj hp'
      refine hquiet ?_ fun _ => rfl
      unfold txAct
      rw [hnot]
      rfl
    | pubrec id =>
      have hact := txAct_pubrec hp
      obtain ⟨-, ⟨hrv, hlog⟩ | ⟨hrv, hcq⟩⟩ := ClientCtx.procPubRecRx_cases hp'
      · rw [hact, hrv, if_pos rfl] at htrace
        have hroom : (pending (txTrace cfg h)).length < 8 := by
          by_contra hfull
          have hfree := hholds.free
          rw [hholds.logup_full id (by omega)] at hlog
          cases hlog
        obtain ⟨cq, hlog', hholds'⟩ := hholds.logup id hroom
        obtain rfl : p.ctx.qos2TxCq = cq := Option.some.inj (hlog.symm.trans hlog')
        exact hI.act htrace (by rw [hctx]; exact hholds') hroom
      · refine hquiet ?_ fun _ => hcq
        rw [hact, hrv, if_neg nofun]
    | pubcomp id =>
      have hact := txAct_pubcomp hp
      obtain ⟨hfirst, hrest⟩ := hholds.pubcomp id
      obtain rfl := Option.some.inj hp'
      by_cases hhead : (pending (txTrace cfg h)).head? = some id
      · obtain ⟨-, hnotify, hcq⟩ := hfirst hhead
        rw [hact, if_pos hnotify] at htrace
        exact hI.act htrace (by rw [hctx]; exact hcq) hhead
      · obtain ⟨hrv, hnotify⟩ := hrest hhead
        refine hquiet ?_ fun hok => absurd hok (Bool.eq_false_iff.mp hrv)
        rw [hact, hnotify, if_neg nofun]
    | publish qos id =>
      obtain rfl := Option.some.inj hp'
      refine hquiet rfl fun _ => ?_
      unfold ClientCtx.procPubMsgRx
      cases qos with
      | qos0 => rfl
      | qos1 => exact congrArg Prod.snd (s.ctx.cqs_vhMsgSend o)
      | qos2 =>
        dsimp only
        split_ifs
        · rfl
        · split
          · rfl
          · exact congrArg Prod.snd (ClientCtx.cqs_vhMsgSend _ o)
    | pubrel id =>
      obtain rfl := Option.some.inj hp'
      refine hquiet rfl fun _ => ?_
      have hsent := congrArg Prod.snd (s.ctx.cqs_vhMsgSend o)
      unfold ClientCtx.procPubRelRx
      dsimp only
      split_ifs <;> exact hsent
    | suback id =>
      obtain rfl := Option.some.inj hp'
      exact hquiet rfl fun _ => congrArg Prod.snd (s.ctx.cqs_procAckMsgRx _ id)
    | puback id =>
      obtain rfl := Option.some.inj hp'
      exact hquiet rfl fun _ => congrArg Prod.snd (s.ctx.cqs_procAckMsgRx _ id)
    | unsuback id =>
      obtain rfl := Option.some.inj hp'
      exact hquiet rfl fun _ => congrArg Prod.snd (s.ctx.cqs_procAckMsgRx _ id)
    | pingrsp =>
      obtain rfl := Option.some.inj hp'
      exact hquiet rfl fun _ => congrArg Prod.snd s.ctx.cqs_procPingrspRx
    | invalid =>
      obtain rfl := Option.some.inj hp'
      exact hquiet rfl fun _ => rfl

/-- In every run the sending ring has the ids that are pending. -/
theorem txInv (hr : Run Session.step (.init cfg) h s) : TxInv cfg h s := by
  refine hr.inv ⟨fun _ => PubQos2Cq.holds_reset, trivial⟩ fun h s e s' hr hI _ hs => ?_
  have htrace : txTrace cfg (e :: h) = (txAct s e).toList ++ txTrace cfg h := hr.trace_cons txAct e
  by_cases hrecv : ∃ m o, e = .recv m o
  · obtain ⟨m, o, rfl⟩ := hrecv
    obtain ⟨hreceiving, hs⟩ := Option.ite_none_right_eq_some.mp hs
    obtain ⟨p, hp, rfl⟩ := Option.map_eq_some_iff.mp hs
    exact hI.recv hreceiving.1 htrace hp rfl rfl
  · by_cases hclose : e = .netClose
    · subst hclose
      obtain ⟨l, -, rfl⟩ := step_netClose hs
      exact hI.act htrace PubQos2Cq.holds_reset trivial
    · have hnone : txAct s e = none := by
        cases e with
        | recv m o => exact absurd ⟨m, o, rfl⟩ hrecv
        | netClose => exact absurd rfl hclose
        | _ => rfl
      have hopen : (∀ l, s'.rx ≠ .closing l) → ∀ l, s.rx ≠ .closing l :=
        fun hopen' l hl => hopen' l (step_closing hs hclose hl)
      rw [hnone] at htrace
      rcases step_cqs hs (fun m o heq => hrecv ⟨m, o, heq⟩) hclose with hsame | ⟨-, hcount, hreset⟩
      · exact hI.same htrace hopen (congrArg Prod.snd hsame)
      · have hcq : s'.ctx.qos2TxCq = .reset := congrArg Prod.snd hreset
        refine ⟨fun hopen' => ?_, ?_⟩
        · have hnil := (hI.holds (hopen hopen')).nil_of_count hcount
          rw [htrace, hcq]
          change PubQos2Cq.Holds _ (pending (txTrace cfg h))
          rw [hnil]
          exact PubQos2Cq.holds_reset
        · rw [htrace]
          exact hI.each

/-- What is told to the application of its publications with QoS 2, in a run that has come to `s`. -/
structure CompletesInOrder (cfg : ConnectConfig) (h : List SessionEvent) (s : Session) : Prop where
  room : ∀ post id pre, txTrace cfg h = post ++ .recorded id :: pre → (pending pre).length < 8
  order : ∀ post id pre, txTrace cfg h = post ++ .completed id :: pre → (pending pre).head? = some id
  ring : (∀ l, s.rx ≠ .closing l) → s.ctx.qos2TxCq.Holds (pending (txTrace cfg h))
  next : ∀ id o s', s.step (.recv (.pubcomp id) o) = some s' → s.ctx.connackAwait = false →
    (pending (txTrace cfg h)).head? = some id → s'.rx = .idle ∧ s'.sl = s.sl.processNotifyAckCb (.ack .pubcomp)
  other : ∀ id o s', s.step (.recv (.pubcomp id) o) = some s' →
    (pending (txTrace cfg h)).head? ≠ some id → s'.rx = .closing true ∧ s'.sl = s.sl

/-- **In order**: PUBCOMPs are accepted, and told to the application, in the order in which the PUBRECs were, each
once; at most eight are awaited.  Any other PUBCOMP closes the connection, and what a connection leaves open is
forgotten when it is closed. -/
theorem qos2_completed_in_order (hr : Run Session.step (.init cfg) h s) : CompletesInOrder cfg h s := by
  have hI := txInv hr
  have heach := hI.each
  refine ⟨fun post id pre hsplit => ?_, fun post id pre hsplit => ?_, hI.holds, fun id o s' hs hawait hhead => ?_,
    fun id o s' hs hhead => ?_⟩
  · rw [hsplit] at heach
    exact heach.of_append
  · rw [hsplit] at heach
    exact heach.of_append
  · obtain ⟨hreceiving, hs⟩ := Option.ite_none_right_eq_some.mp hs
    obtain ⟨p, hp, rfl⟩ := Option.map_eq_some_iff.mp hs
    have hopen : ∀ l, s.rx ≠ .closing l := fun l heq => nomatch hreceiving.1.symm.trans heq
    obtain ⟨hrv, hnotify, -⟩ := ((hI.holds hopen).pubcomp id).1 hhead
    obtain rfl : s.ctx.ack2MsgIdUnlog id = p :=
      Option.some.inj ((if_neg (Bool.eq_false_iff.mp hawait)).symm.trans hp)
    dsimp only
    rw [hrv, hnotify]
    exact ⟨if_neg (by rintro (h | h) <;> cases h), rfl⟩
  · obtain ⟨hreceiving, hs⟩ := Option.ite_none_right_eq_some.mp hs
    obtain ⟨p, hp, rfl⟩ := Option.map_eq_some_iff.mp hs
    have hopen : ∀ l, s.rx ≠ .closing l := fun l heq => nomatch hreceiving.1.symm.trans heq
    have hnot : p.rv = false ∧ p.ackNotify = none := by
      by_cases hawait : s.ctx.connackAwait = true
      · obtain rfl := Option.some.inj ((if_pos hawait).symm.trans hp)
        exact ⟨rfl, rfl⟩
      · obtain rfl := Option.some.inj ((if_neg hawait).symm.trans hp)
        exact ((hI.holds hopen).pubcomp id).2 hhead
    dsimp only
    rw [hnot.1, hnot.2]
    exact ⟨if_pos (Or.inl rfl), rfl⟩

/-- A report with QoS 2 and its four packets. -/
def reportedOnce : List SessionEvent :=
  connected ++ [.measureReport, .msgQRead, .check, .arm, .dispatch true .whole, .recv (.pubrec 3) .whole,
    .recv (.pubcomp 3) .whole]

theorem qos2_completed_in_order_report :
    ∃ h s, Run Session.step (.init usrConnectConfig) h s ∧
      txTrace usrConnectConfig h = [.completed 3, .recorded 3, .closed] ∧ CompletesInOrder usrConnectConfig h s := by
  obtain ⟨h, s, hr, hh⟩ := exists_run Session.step (.init usrConnectConfig) reportedOnce
    (fun r => txTrace usrConnectConfig r.1) (by decide : _ = some [.completed 3, .recorded 3, .closed])
  exact ⟨h, s, hr, hh, qos2_completed_in_order hr⟩

end Sending

end Session

end Thronix
