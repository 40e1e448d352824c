import Thronix.Watering

/-!
# Thronix.Automatic — the automatic watering needs thresholds

* Without thresholds the report compares with `(0, 0)`, and no moisture that was read is that low.
* `Dry`: in a run whose handlers store no threshold, `ConnectWiFI` does not set `WATERING_START`.
* `dry_before_thresholds`: the relay goes on only for a wateringTime command.
-/

namespace Thronix

open Json Lib

/-! ## The comparison with no thresholds -/

/-- Nothing that was read is at or below a moisture threshold of zero. -/
theorem waterNeeded_noThresholds {d : SensorsData} (hd : 10 ≤ d.moisture) : waterNeeded noThresholds d = false := by
  rw [Bool.eq_false_iff]
  intro hw
  obtain ⟨-, hm⟩ := (waterNeeded_iff noThresholds d).mp hw
  have h0 : ((noThresholds.moisture.toNat : ℕ) : ℚ) = 0 := rfl
  rw [h0] at hm
  linarith

/-! ## Runs without a threshold -/

/-- No handler has stored a threshold. -/
def WithoutThresholds (h : List Event) : Prop := ∀ th, .recvOp (.overwriteThresholds th) ∉ h

/-- What such a run leaves of the automatic watering. -/
structure Dry (h : List Event) (s : Station) : Prop where
  unset : .connectSetBits ∉ h
  empty : s.stores.thresholdsQueue = .empty
  moist : ∀ d, s.connect = .peek d → 10 ≤ d.moisture
  off : ∀ d, s.connect ≠ .setBits d

namespace Station

variable {s s' : Station}

theorem step_thresholdsQueue {e : Event} (he : ∀ th, e ≠ .recvOp (.overwriteThresholds th))
    (hs : s.step e = some s') : s'.stores.thresholdsQueue = s.stores.thresholdsQueue := by
  cases e with
  | recvOp op =>
    obtain ⟨ops, -, rfl⟩ := step_recvOp.mp hs
    cases op with
    | overwriteThresholds th => exact absurd rfl (he th)
    | _ => rfl
  | recvCall cx topstr payload =>
    obtain ⟨-, ops, -, rfl⟩ := step_recvCall.mp hs
    rfl
  | disconnect =>
    obtain rfl := step_disconnect.mp hs
    rfl
  | msgQRead =>
    obtain ⟨m, q, -, -, rfl⟩ := step_msgQRead.mp hs
    cases m <;> rfl
  | peekThresholds th =>
    obtain ⟨d, -, -, rfl⟩ := step_peekThresholds.mp hs
    rfl
  | connectSetBits =>
    obtain ⟨d, -, rfl⟩ := step_connectSetBits.mp hs
    rfl
  | send p =>
    obtain ⟨ps, -, rfl⟩ := step_send.mp hs
    rfl
  | relayOn =>
    obtain ⟨t, -, rfl⟩ := step_relayOn.mp hs
    rfl
  | relayOff =>
    obtain ⟨t, -, rfl⟩ := step_relayOff.mp hs
    rfl
  | _ =>
    obtain ⟨-, rfl⟩ := guard_eq_some.mp hs
    rfl

end Station

theorem Dry.step {h : List Event} {s s' : Station} {e : Event} (hd : Dry h s)
    (he : ∀ th, e ≠ .recvOp (.overwriteThresholds th)) (hs : s.step e = some s') : Dry (e :: h) s' := by
  have hempty := (Station.step_thresholdsQueue he hs).trans hd.empty
  cases e with
  | connectSetBits =>
    obtain ⟨d, hc, -⟩ := Station.step_connectSetBits.mp hs
    exact absurd hc (hd.off d)
  | msgQRead =>
    obtain ⟨m, q, hc, -, rfl⟩ := Station.step_msgQRead.mp hs
    refine ⟨by simp [hd.unset], hempty, fun d hd' => ?_, fun d hd' => ?_⟩
    · cases m with
      | brokerDisconnection =>
        simp only [Station.received] at hd'
        split_ifs at hd'
      | _ => cases hd'
    · cases m with
      | brokerDisconnection =>
        simp only [Station.received] at hd'
        split_ifs at hd'
      | _ => cases hd'
  | acquire stale x a =>
    obtain ⟨-, rfl⟩ := Station.step_acquire.mp hs
    refine ⟨by simp [hd.unset], hempty, fun d hd' => ?_, fun d hd' => (by cases hd')⟩
    obtain rfl := ConnectPc.peek.inj hd'
    exact ten_le_moisture a
  | peekThresholds th =>
    obtain ⟨d, hc, hth, rfl⟩ := Station.step_peekThresholds.mp hs
    -- the peek of the empty queue leaves the zeros
    rw [hd.empty, Queue1.xQueuePeek_empty] at hth
    subst hth
    have hw : ¬waterNeeded noThresholds d = true := by simp [waterNeeded_noThresholds (hd.moist d hc)]
    simp only [if_neg hw]
    exact ⟨by simp [hd.unset], hempty, fun d' hd' => (by cases hd'), fun d' hd' => (by cases hd')⟩
  | readLevels v =>
    obtain ⟨-, rfl⟩ := Station.step_readLevels.mp hs
    exact ⟨by simp [hd.unset], hempty, fun d hd' => (by cases hd'), fun d hd' => (by cases hd')⟩
  | send p =>
    obtain ⟨ps, -, rfl⟩ := Station.step_send.mp hs
    refine ⟨by simp [hd.unset], hempty, fun d hd' => ?_, fun d hd' => ?_⟩
    · rcases ps with _ | ⟨p', ps⟩ <;> cases hd'
    · rcases ps with _ | ⟨p', ps⟩ <;> cases hd'
  | _ =>
    have hc := Station.step_connect rfl hs
    exact ⟨by simp [hd.unset], hempty, hc ▸ hd.moist, hc ▸ hd.off⟩

theorem dry {h : List Event} {s : Station} (hr : Run Station.step Station.init h s) (hth : WithoutThresholds h) :
    Dry h s := by
  induction hr with
  | start => exact ⟨by simp, rfl, fun d hd => (by cases hd), fun d hd => (by cases hd)⟩
  | snoc hr _ hs ih =>
    exact (ih fun th hmem => hth th (List.mem_cons_of_mem _ hmem)).step
      (fun th he => hth th (he ▸ List.mem_cons_self)) hs

/-! ## Activations -/

/-- A handler runs from its call until it returns. -/
theorem call_of_recv {h : List Event} {s : Station} (hr : Run Station.step Station.init h s) (hrecv : s.recv ≠ none) :
    ∃ mid cx topstr payload older, h = mid ++ .recvCall cx topstr payload :: older ∧ .recvReturn ∉ mid := by
  induction hr with
  | start => exact absurd rfl hrecv
  | @snoc h s s' e hr _ hs ih =>
    have hkeep (hold : s.recv ≠ none) (he : e ≠ .recvReturn) : ∃ mid cx topstr payload older,
        e :: h = mid ++ .recvCall cx topstr payload :: older ∧ .recvReturn ∉ mid := by
      obtain ⟨mid, cx, topstr, payload, older, rfl, hm⟩ := ih hold
      exact ⟨e :: mid, cx, topstr, payload, older, rfl, List.not_mem_cons_of_ne_of_not_mem (Ne.symm he) hm⟩
    cases e with
    | recvCall cx topstr payload => exact ⟨[], cx, topstr, payload, h, rfl, List.not_mem_nil⟩
    | recvOp op =>
      obtain ⟨ops, hold, -⟩ := Station.step_recvOp.mp hs
      exact hkeep (by rw [hold]; simp) (by simp)
    | recvReturn =>
      obtain ⟨-, rfl⟩ := Station.step_recvReturn.mp hs
      exact absurd rfl hrecv
    | _ => exact hkeep (by rwa [Station.recv_eq rfl hs] at hrecv) (by simp)

/-- A set of `WATERING_START` comes right after the overwrite of the time. -/
theorem Paired.before_set {ops : List StoreOp} (hp : Paired ops) {a b : List StoreOp} (h : ops = a ++ .setWater :: b) :
    ∃ a' v, a = a' ++ [.overwriteWater v] := by
  induction hp generalizing a with
  | nil => simp at h
  | water v _ ih =>
    rcases a with _ | ⟨x, _ | ⟨y, a⟩⟩
    · simp at h
    · obtain rfl := (List.cons.inj h).1
      exact ⟨[], v, rfl⟩
    · simp only [List.cons_append, List.cons.injEq] at h
      obtain ⟨rfl, rfl, h⟩ := h
      obtain ⟨a', w, rfl⟩ := ih h
      exact ⟨.overwriteWater v :: .setWater :: a', w, rfl⟩
  | @other op _ hop _ ih =>
    rcases a with _ | ⟨x, a⟩
    · obtain rfl := (List.cons.inj h).1
      cases hop
    · simp only [List.cons_append, List.cons.injEq] at h
      obtain ⟨rfl, h⟩ := h
      obtain ⟨a', w, rfl⟩ := ih h
      exact ⟨op :: a', w, rfl⟩

/-- A wateringTime command is behind what comes next: since the last clear a handler stored the time that its message
asks for and set the flag. -/
def OnCommand (h : List Event) : Prop :=
  ∃ newer mid cx topstr payload older ops v,
    h = newer ++ .recvOp .setWater :: (mid ++ .recvCall cx topstr payload :: older) ∧ .waterClear ∉ newer ∧
      .recvReturn ∉ mid ∧ .recvOp (.overwriteWater v) ∈ mid ∧ mqttRecv cx topstr payload = some ops ∧
      .overwriteWater v ∈ ops

theorem mem_handlerCalls {op : StoreOp} {h : List Event} : op ∈ handlerCalls h ↔ .recvOp op ∈ h := by
  rw [handlerCalls, List.mem_reverse, List.mem_filterMap]
  constructor
  · rintro ⟨e, he, hcall⟩
    cases e with
    | recvOp op' =>
      obtain rfl := Option.some.inj hcall
      exact he
    | _ => cases hcall
  · exact fun he => ⟨_, he, rfl⟩

/-- A set by a handler, and the message it comes from. -/
theorem command_of_set {pre : List Event} {s s' : Station} (hr : Run Station.step Station.init pre s)
    (hs : s.step (.recvOp .setWater) = some s') : ∃ mid cx topstr payload older ops v,
      pre = mid ++ .recvCall cx topstr payload :: older ∧ .recvReturn ∉ mid ∧ .recvOp (.overwriteWater v) ∈ mid ∧
        mqttRecv cx topstr payload = some ops ∧ .overwriteWater v ∈ ops := by
  obtain ⟨rest, hrecv, -⟩ := Station.step_recvOp.mp hs
  obtain ⟨mid, cx, topstr, payload, older, rfl, hm⟩ := call_of_recv hr (by rw [hrecv]; simp)
  obtain ⟨rest', hrecv', hops⟩ := Station.calls_mqttRecv hr hm
  obtain rfl := Option.some.inj (hrecv.symm.trans hrecv')
  obtain ⟨a, v, ha⟩ := (paired_mqttRecv hops).before_set rfl
  have hmade : .overwriteWater v ∈ handlerCalls mid := by rw [ha]; simp
  exact ⟨mid, cx, topstr, payload, older, _, v, rfl, hm, mem_handlerCalls.mp hmade, hops,
    List.mem_append_left _ hmade⟩

def Event.isClear : Event → Bool
  | .waterClear => true
  | _ => false

theorem Event.isClear_eq (e : Event) : e.isClear = e.pump.any PumpAct.isClear := by
  cases e with
  | recvOp op => cases op <;> rfl
  | _ => rfl

theorem Event.eq_of_isSet {e : Event} {a : PumpAct} (he : e.pump = some a) (ha : a.isSet = true) :
    e = .connectSetBits ∨ e = .recvOp .setWater := by
  cases e with
  | connectSetBits => exact .inl rfl
  | recvOp op =>
    cases op with
    | setWater => exact .inr rfl
    | overwriteWater v =>
      obtain rfl := Option.some.inj he
      cases ha
    | _ => cases he
  | recvCall | recvReturn | waterStart | waterWait | waterPeek | relayOn | waterSleep | relayOff | waterReport
  | waterClear =>
    obtain rfl := Option.some.inj he
    cases ha
  | _ => cases he

/-- **No automatic watering before thresholds are set.**  In a run whose handlers store no threshold no report sets
`WATERING_START`, and every activation of the relay is due to a wateringTime command. -/
theorem dry_before_thresholds {h : List Event} {s : Station} (hr : Run Station.step Station.init h s)
    (hth : WithoutThresholds h) :
    .connectSetBits ∉ h ∧ ∀ post pre, h = post ++ .relayOn :: pre → OnCommand pre := by
  have hunset := (dry hr hth).unset
  refine ⟨hunset, fun post pre hsplit => ?_⟩
  subst hsplit
  have hp : Run Pump.step Pump.init (pumpTrace post ++ .relayOn :: pumpTrace pre) s.pump := by
    simpa [pumpTrace, Event.pump] using run_pump hr
  obtain ⟨a, ha, hset⟩ := Pump.asked_before_on hp
  rw [pumpTrace, since_filterMap Event.isClear_eq] at ha
  obtain ⟨e, he, hea⟩ := List.mem_filterMap.mp ha
  obtain ⟨newer, older, rfl, hnewer⟩ := exists_of_mem_since he
  have hclear : .waterClear ∉ newer := fun hmem => Bool.noConfusion (hnewer _ hmem)
  rcases Event.eq_of_isSet hea hset with rfl | rfl
  · exact absurd (by simp) hunset
  · obtain ⟨s1, s2, hr1, -, -⟩ := hr.split
    obtain ⟨s3, s4, hr3, -, hs3⟩ := hr1.split
    obtain ⟨mid, cx, topstr, payload, old, ops, v, rfl, hm, hv, hops, hvops⟩ := command_of_set hr3 hs3
    exact ⟨newer, mid, cx, topstr, payload, old, ops, v, rfl, hclear, hm, hv, hops, hvops⟩

/-- Hot air over dry soil is reported, and a command waters for five seconds. -/
def hottestThenFive : List Event :=
  [.measureWait, .recvCall .blank topicPc (str "\x7b\"measurementSwitch\": 1\x7d"), .recvOp .setMeasurement, .recvReturn,
   .measureReport, .msgQRead, .acquire ⟨⟨0, 0⟩, 0⟩ hottest driest, .peekThresholds noThresholds] ++ fiveSeconds

theorem dry_before_thresholds_hottestThenFive : ∃ h s, Run Station.step Station.init h s ∧ WithoutThresholds h ∧
    .relayOn ∈ pumpTrace h ∧
    (.connectSetBits ∉ h ∧ ∀ post pre, h = post ++ .relayOn :: pre → OnCommand pre) := by
  obtain ⟨h, s, hr, hw⟩ := exists_run Station.step Station.init hottestThenFive
    (fun r => (handlerCalls r.1, (pumpTrace r.1).contains .relayOn))
    (b := ([.setMeasurement, .overwriteWater 5000, .setWater], true)) (by decide +kernel)
  have hcalls : handlerCalls h = [.setMeasurement, .overwriteWater 5000, .setWater] := congrArg Prod.fst hw
  have hon : (pumpTrace h).contains .relayOn = true := congrArg Prod.snd hw
  have hth : WithoutThresholds h := fun th hmem => by
    rw [← mem_handlerCalls, hcalls] at hmem
    simp at hmem
  exact ⟨h, s, hr, hth, List.contains_iff_mem.mp hon, dry_before_thresholds hr hth⟩

end Thronix
