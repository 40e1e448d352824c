import Thronix.Pump

/-!
# Thronix.Watering — the watering of the station

* `Paired`: the handler sets `waterFlag` right after each `xQueueOverwrite(waterQueue)` and nowhere else.
* `Event.pump`, `Station.pump`: the calls of a run that concern the watering, and what they act on.  Every run of the
  station is a run of `Pump` on them (`run_pump`).
* `pump_safety`: the relay, the activations, their times and their reports, in every run.
* `commands_served`: in runs whose handlers set the flag in time, no command is lost.
-/

namespace Thronix

open Json Lib

/-! ## What a handler calls -/

/-- Not a call on the watering's queue or flag. -/
def StoreOp.ofWater : StoreOp → Bool
  | .overwriteWater _ => true
  | .setWater => true
  | _ => false

/-- Each overwrite of the time is followed by the set, and there is no other set. -/
inductive Paired : List StoreOp → Prop
  | nil : Paired []
  | water (v : BitVec 32) {ops : List StoreOp} (h : Paired ops) : Paired (.overwriteWater v :: .setWater :: ops)
  | other {op : StoreOp} {ops : List StoreOp} (hop : op.ofWater = false) (h : Paired ops) : Paired (op :: ops)

theorem Paired.append {a b : List StoreOp} (ha : Paired a) (hb : Paired b) : Paired (a ++ b) := by
  induction ha with
  | nil => exact hb
  | water v _ ih => exact .water v ih
  | other hop _ ih => exact .other hop ih

theorem paired_freqOps (f : Option (BitVec 32)) : Paired (freqOps f) := by
  rcases f with _ | v
  · exact .nil
  · exact .other rfl .nil

theorem paired_switchOps (b : Option Bool) : Paired (switchOps b) := by
  rcases b with _ | _ | _
  · exact .nil
  · exact .other rfl .nil
  · exact .other rfl .nil

theorem paired_waterOps (w : Option (BitVec 32)) : Paired (waterOps w) := by
  rcases w with _ | v
  · exact .nil
  · exact .water _ .nil

theorem paired_thresholdOps (th : SystemThresholds) (t m : Option (BitVec 32)) : Paired (thresholdOps th t m) := by
  rcases t with _ | t <;> rcases m with _ | m
  · exact .nil
  · exact .other rfl .nil
  · exact .other rfl .nil
  · exact .other rfl (.other rfl .nil)

theorem paired_pcBranch {cx : Context} {payload : Bytes} {ops : List StoreOp} (h : pcBranch cx payload = some ops) :
    Paired ops := by
  obtain rfl := pcBranch_some cx h
  exact (((paired_freqOps _).append (paired_switchOps _)).append (paired_waterOps _)).append (paired_thresholdOps _ _ _)

theorem paired_losantBranch {cx : Context} {payload : Bytes} {ops : List StoreOp}
    (h : losantBranch cx payload = some ops) : Paired ops := by
  rcases losantBranch_some cx h with ⟨-, rfl⟩ | ⟨aux, -, rfl⟩
  · exact .nil
  · exact (((paired_switchOps _).append (paired_freqOps _)).append (paired_waterOps _)).append (paired_thresholdOps _ _ _)

theorem paired_mqttRecv {cx : Context} {topstr payload : Bytes} {ops : List StoreOp}
    (h : mqttRecv cx topstr payload = some ops) : Paired ops := by
  obtain ⟨pc, losant, rfl, hpc, hlosant⟩ := mqttRecv_some h
  refine Paired.append ?_ ?_
  · rcases hpc with rfl | hpc
    · exact .nil
    · exact paired_pcBranch hpc
  · rcases hlosant with rfl | hlosant
    · exact .nil
    · exact paired_losantBranch hlosant

/-! ## The station as a pump -/

/-- Where the handler stands between its overwrite of the time and its set. -/
def handlerOf : Option (List StoreOp) → Handler
  | none => .idle
  | some (.setWater :: _) => .owing
  | some _ => .busy

theorem handlerOf_of_paired {ops : List StoreOp} (h : Paired ops) : handlerOf (some ops) = .busy := by
  cases h with
  | nil => rfl
  | water v h => rfl
  | @other op ops hop h =>
    cases op with
    | setWater => cases hop
    | _ => rfl

def Station.pump (s : Station) : Pump where
  handler := handlerOf s.recv
  waterQueue := s.stores.waterQueue
  flag := s.stores.waterFlag.test wateringStart
  relay := decide (gpioPinRead s.gpioA0 relayPin ≠ 0)
  pc := s.watering

/-- The calls that concern the watering. -/
def Event.pump : Event → Option PumpAct
  | .recvCall _ _ _ => some .recvCall
  | .recvOp (.overwriteWater v) => some (.overwrite v)
  | .recvOp .setWater => some .commandSet
  | .recvReturn => some .recvReturn
  | .connectSetBits => some .reportSet
  | .waterStart => some .start
  | .waterWait => some .wait
  | .waterPeek => some .peek
  | .relayOn => some .relayOn
  | .waterSleep t => some (.sleep t)
  | .relayOff => some .relayOff
  | .waterReport => some .report
  | .waterClear => some .clear
  | _ => none

theorem Event.pump_eq_peek {e : Event} (h : e.pump = some .peek) : e = .waterPeek := by
  unfold Event.pump at h
  split at h <;> simp_all

theorem Event.pump_eq_overwrite {e : Event} {v : BitVec 32} (h : e.pump = some (.overwrite v)) :
    e = .recvOp (.overwriteWater v) := by
  unfold Event.pump at h
  split at h <;> simp_all

/-- The calls of a run that concern the watering, newest first. -/
def pumpTrace (h : List Event) : List PumpAct := h.filterMap Event.pump

/-- What the handler still has to call is paired, its own set perhaps first. -/
def RecvPaired (s : Station) : Prop :=
  ∀ ops, s.recv = some ops → Paired ops ∨ ∃ r, ops = .setWater :: r ∧ Paired r

theorem RecvPaired.step {s s' : Station} {e : Event} (hp : RecvPaired s) (hs : s.step e = some s') :
    RecvPaired s' := by
  intro ops hops
  cases e with
  | recvCall cx topstr payload =>
    obtain ⟨-, ops', hops', rfl⟩ := Station.step_recvCall.mp hs
    obtain rfl := Option.some.inj hops
    exact .inl (paired_mqttRecv hops')
  | recvOp op =>
    obtain ⟨rest, hrecv, rfl⟩ := Station.step_recvOp.mp hs
    obtain rfl := Option.some.inj hops
    rcases hp _ hrecv with h | ⟨r, h, hr⟩
    · cases h with
      | water v h => exact .inr ⟨_, rfl, h⟩
      | other hop h => exact .inl h
    · cases h
      exact .inl hr
  | recvReturn =>
    obtain ⟨-, rfl⟩ := Station.step_recvReturn.mp hs
    cases hops
  | _ => exact hp ops (by rwa [Station.recv_eq rfl hs] at hops)

theorem handlerOf_cons {op : StoreOp} {ops : List StoreOp} (hop : op ≠ .setWater) :
    handlerOf (some (op :: ops)) = .busy := by
  cases op with
  | setWater => exact absurd rfl hop
  | _ => rfl

theorem Station.pump_call_setWater (s : Station) : (s.call .setWater).pump = s.pump.set := by
  have hflag : (s.stores.apply .setWater).waterFlag.test wateringStart = true := EventGroup.test_set_self (by decide) _
  simp [pump, Pump.set, call, hflag]
  rfl

/-- A step of the station is invisible to the pump, or one of its steps. -/
theorem Station.step_pump {s s' : Station} {e : Event} (hp : RecvPaired s) (hs : s.step e = some s') :
    (e.pump = none ∧ s'.pump = s.pump) ∨ ∃ a, e.pump = some a ∧ Pump.step s.pump a = some s'.pump := by
  cases e with
  | recvCall cx topstr payload =>
    obtain ⟨hrecv, ops, hops, rfl⟩ := step_recvCall.mp hs
    refine .inr ⟨_, rfl, Pump.step_recvCall.mpr ⟨by rw [pump, hrecv]; rfl, ?_⟩⟩
    rw [pump, handlerOf_of_paired (paired_mqttRecv hops)]
    rfl
  | recvOp op =>
    obtain ⟨rest, hrecv, rfl⟩ := step_recvOp.mp hs
    have hrest := hp _ hrecv
    cases op with
    | setWater =>
      have hpaired : Paired rest := by
        rcases hrest with h | ⟨r, h, hr⟩
        · cases h with
          | other hop h => cases hop
        · cases h
          exact hr
      refine .inr ⟨_, rfl, Pump.step_commandSet.mpr ⟨by rw [pump, hrecv]; rfl, ?_⟩⟩
      rw [← pump_call_setWater, ← handlerOf_of_paired hpaired]
      rfl
    | overwriteWater v =>
      have howing : handlerOf (some rest) = .owing := by
        rcases hrest with h | ⟨r, h, hr⟩
        · cases h with
          | water v h => rfl
          | other hop h => cases hop
        · cases h
      refine .inr ⟨_, rfl, Pump.step_overwrite.mpr ⟨by rw [pump, hrecv]; rfl, ?_⟩⟩
      rw [← howing]
      rfl
    | _ =>
      have hpaired : Paired rest := by
        rcases hrest with h | ⟨r, h, hr⟩
        · cases h with
          | other hop h => exact h
        · cases h
      have hbusy := handlerOf_of_paired hpaired
      refine .inl ⟨rfl, ?_⟩
      rw [pump, pump, hrecv, handlerOf_cons (by simp), hbusy]
      rfl
  | recvReturn =>
    obtain ⟨hrecv, rfl⟩ := step_recvReturn.mp hs
    exact .inr ⟨_, rfl, Pump.step_recvReturn.mpr ⟨by rw [pump, hrecv]; rfl, rfl⟩⟩
  | connectSetBits =>
    obtain ⟨d, -, rfl⟩ := step_connectSetBits.mp hs
    exact .inr ⟨_, rfl, Pump.step_reportSet.mpr (pump_call_setWater s)⟩
  | msgQRead =>
    obtain ⟨m, q, -, -, rfl⟩ := step_msgQRead.mp hs
    exact .inl ⟨rfl, by cases m <;> rfl⟩
  | waterStart =>
    obtain ⟨h, rfl⟩ := step_waterStart.mp hs
    exact .inr ⟨_, rfl, Pump.step_start.mpr ⟨h, rfl⟩⟩
  | waterWait =>
    obtain ⟨h, rfl⟩ := step_waterWait.mp hs
    exact .inr ⟨_, rfl, Pump.step_wait.mpr ⟨h, rfl⟩⟩
  | waterPeek =>
    obtain ⟨h, rfl⟩ := step_waterPeek.mp hs
    exact .inr ⟨_, rfl, Pump.step_peek.mpr ⟨h, rfl⟩⟩
  | relayOn =>
    obtain ⟨t, h, rfl⟩ := step_relayOn.mp hs
    refine .inr ⟨_, rfl, Pump.step_relayOn.mpr ⟨t, h, ?_⟩⟩
    rw [pump, gpioPinRead_gpioPinWrite]
    rfl
  | waterSleep t =>
    obtain ⟨h, rfl⟩ := step_waterSleep.mp hs
    exact .inr ⟨_, rfl, Pump.step_sleep.mpr ⟨h, rfl⟩⟩
  | relayOff =>
    obtain ⟨t, h, rfl⟩ := step_relayOff.mp hs
    refine .inr ⟨_, rfl, Pump.step_relayOff.mpr ⟨t, h, ?_⟩⟩
    rw [pump, gpioPinRead_gpioPinWrite]
    rfl
  | waterReport =>
    obtain ⟨h, rfl⟩ := step_waterReport.mp hs
    exact .inr ⟨_, rfl, Pump.step_report.mpr ⟨h, rfl⟩⟩
  | waterClear =>
    obtain ⟨h, rfl⟩ := step_waterClear.mp hs
    refine .inr ⟨_, rfl, Pump.step_clear.mpr ⟨h, ?_⟩⟩
    rw [pump, EventGroup.test_clear_self]
    rfl
  | _ => exact .inl ⟨rfl, by grind [pump]⟩

theorem recvPaired {ok : List Event → Station → Event → Prop} {h : List Event} {s : Station}
    (hr : RunIf Station.step ok Station.init h s) : RecvPaired s :=
  hr.inv (I := fun _ s => RecvPaired s) (fun ops hops => by cases hops) fun _ _ _ _ _ hi _ hs => hi.step hs

/-- Every run of the station is a run of the pump. -/
theorem run_pump {h : List Event} {s : Station} (hr : Run Station.step Station.init h s) :
    Run Pump.step Pump.init (pumpTrace h) s.pump :=
  hr.project fun _ _ _ _ hr _ hs =>
    (Station.step_pump (recvPaired hr) hs).imp_right fun ⟨a, ha, hstep⟩ => ⟨a, ha, trivial, hstep⟩

/-! ## Safety of the pump -/

/-- What holds of the calls made and the state they lead to. -/
structure PumpSafety (h : List Event) (s : Station) : Prop where
  /-- The relay is high only with `WATERING_START` set and between the two writes of the task. -/
  relay : gpioPinRead s.gpioA0 relayPin ≠ 0 →
    s.stores.waterFlag.test wateringStart = true ∧ ∃ t, s.watering = .sleep t ∨ s.watering = .relayOff t
  activations : (pumpTrace h).countP PumpAct.isOn ≤ (pumpTrace h).countP PumpAct.isSet
  /-- An activation follows a set that is newer than the last clear. -/
  asked : ∀ post pre, pumpTrace h = post ++ .relayOn :: pre → ∃ a ∈ since PumpAct.isClear pre, a.isSet = true
  /-- The pump runs for the newest time stored before the peek, 5000 without one. -/
  time : ∀ post mid pre t, pumpTrace h = post ++ .sleep t :: (mid ++ .peek :: pre) → .peek ∉ mid →
    t = Pump.lastWater pre
  /-- After a handler's set that is the time the handler stored just before, or a newer one. -/
  ownTime : ∀ post mid mid2 pre t,
    pumpTrace h = post ++ .sleep t :: (mid ++ .peek :: (mid2 ++ .commandSet :: pre)) → .peek ∉ mid →
    ∃ v pre1 pre2, pre = pre1 ++ .overwrite v :: pre2 ∧ (∀ a ∈ pre1, a.ofHandler = false) ∧
      (t = v ∨ .overwrite t ∈ mid2)
  /-- Between two activations there is one report, after the relay went low. -/
  reports : ∀ post mid pre, pumpTrace h = post ++ .relayOn :: (mid ++ .relayOn :: pre) → .relayOn ∉ mid →
    Pump.ReportedOnce mid

/-- **Pump safety**, in every run of the station. -/
theorem pump_safety {h : List Event} {s : Station} (hr : Run Station.step Station.init h s) : PumpSafety h s := by
  have hp := run_pump hr
  refine ⟨fun hrelay => ?_, Pump.countP_isOn_le hp, fun post pre ht => ?_, fun post mid pre t ht hm => ?_,
    fun post mid mid2 pre t ht hm => ?_, fun post mid pre ht hm => ?_⟩
  · have hpump : s.pump.pc.pumping = true := by
      rw [← (Pump.placed hp).relay]
      exact decide_eq_true hrelay
    cases hw : s.watering with
    | sleep t => exact ⟨(Pump.placed hp).flag (.inr (by rw [Station.pump, hw]; rfl)), t, .inl rfl⟩
    | relayOff t => exact ⟨(Pump.placed hp).flag (.inr (by rw [Station.pump, hw]; rfl)), t, .inr rfl⟩
    | _ =>
      rw [Station.pump, hw] at hpump
      cases hpump
  · exact Pump.asked_before_on (ht ▸ hp)
  · exact Pump.sleep_eq_lastWater (ht ▸ hp) hm
  · exact Pump.sleep_after_set (ht ▸ hp) hm
  · exact Pump.reportedOnce_between (ht ▸ hp) hm

/-- A time that the handler stored, and that the task peeked before a newer one came, is the time the task sleeps. -/
theorem sleep_eq_stored {h post mid mid2 pre : List Event} {s : Station} {x t : BitVec 32}
    (hr : Run Station.step Station.init h s)
    (hh : h = post ++ .waterSleep t :: (mid ++ .waterPeek :: (mid2 ++ .recvOp (.overwriteWater x) :: pre)))
    (hm : .waterPeek ∉ mid) (hm2 : ∀ y, .recvOp (.overwriteWater y) ∉ mid2) : t = x := by
  have htrace : pumpTrace h = pumpTrace post ++
      .sleep t :: (pumpTrace mid ++ .peek :: (pumpTrace mid2 ++ .overwrite x :: pumpTrace pre)) := by
    rw [hh]
    simp [pumpTrace, Event.pump]
  have hpeek : PumpAct.peek ∉ pumpTrace mid := by
    intro hmem
    obtain ⟨e, he, hpe⟩ := List.mem_filterMap.mp hmem
    exact hm (Event.pump_eq_peek hpe ▸ he)
  have ht := Pump.sleep_eq_lastWater (htrace ▸ run_pump hr) hpeek
  rcases Pump.lastWater_append (pumpTrace mid2) (.overwrite x :: pumpTrace pre) with hlast | hmem
  · exact ht.trans hlast
  · obtain ⟨e, he, hpe⟩ := List.mem_filterMap.mp hmem
    exact absurd (Event.pump_eq_overwrite hpe ▸ he) (hm2 _)

/-- The calls made, and where the task stands. -/
def watched (r : List Event × Station) : List PumpAct × WateringPc := (pumpTrace r.1, r.2.watering)

/-- A command for five seconds, up to the end of the sleep. -/
def fiveSeconds : List Event :=
  [.waterStart, .waterWait, .recvCall .blank topicPc (str "\x7b\"wateringTime\": 5\x7d"),
   .recvOp (.overwriteWater 5000), .recvOp .setWater, .recvReturn, .waterPeek, .relayOn, .waterSleep 5000]

/-- The task goes back to its wait. -/
def backToWait : List Event := [.relayOff, .waterReport, .waterClear, .waterWait]

theorem pump_safety_fiveSeconds : ∃ h s, Run Station.step Station.init h s ∧
    watched (h, s) = ([.wait, .clear, .report, .relayOff, .sleep 5000, .relayOn, .peek, .recvReturn,
      .commandSet, .overwrite 5000, .recvCall, .wait, .start], .blocked) ∧ PumpSafety h s := by
  obtain ⟨h, s, hr, hw⟩ := exists_run Station.step Station.init (fiveSeconds ++ backToWait) watched
    (b := ([.wait, .clear, .report, .relayOff, .sleep 5000, .relayOn, .peek, .recvReturn, .commandSet,
      .overwrite 5000, .recvCall, .wait, .start], .blocked)) (by decide +kernel)
  exact ⟨h, s, hr, hw, pump_safety hr⟩

/-! ## Lost commands -/

/-- A handler that sets `WATERING_START` after the task's peek, and before its clear, stored its time before that
peek. -/
def SetInTime (h : List Event) (s : Station) (e : Event) : Prop :=
  e.pump = some .commandSet → Pump.unpeeked (pumpTrace h) = true → s.watering.active = false

/-- Every run of the station that sets the flag in time is such a run of the pump. -/
theorem run_pump_inTime {h : List Event} {s : Station} (hr : RunIf Station.step SetInTime Station.init h s) :
    RunIf Pump.step Pump.InTime Pump.init (pumpTrace h) s.pump :=
  hr.project fun _ _ _ _ hr hok hs =>
    (Station.step_pump (recvPaired hr) hs).imp_right fun ⟨a, ha, hstep⟩ =>
      ⟨a, ha, fun hset hu => hok (by rw [ha, hset]) hu, hstep⟩

/-- Each wateringTime command whose handler has returned was followed by an activation that peeked after it. -/
def CommandsServed (h : List Event) : Prop :=
  ∀ post pre v, pumpTrace h = post ++ .overwrite v :: pre → .recvReturn ∈ post → Pump.Activated post

/-- **No command is lost** in the runs whose handlers set the flag in time: whenever the task is blocked, the flag is
clear and every command has been served. -/
theorem commands_served {h : List Event} {s : Station} (hr : RunIf Station.step SetInTime Station.init h s)
    (hb : s.watering = .blocked) : s.stores.waterFlag.test wateringStart = false ∧ CommandsServed h := by
  have hp := run_pump_inTime hr
  exact ⟨(Pump.placed hp.run).blocked hb, fun post pre v ht hc => Pump.request_served (ht ▸ hp) hb hc⟩

/-- `SetInTime`, decided. -/
def setInTime (h : List Event) (s : Station) (e : Event) : Bool :=
  e.pump != some .commandSet || !Pump.unpeeked (pumpTrace h) || !s.watering.active

theorem setInTime_sound (h : List Event) (s : Station) (e : Event) (hok : setInTime h s e = true) :
    SetInTime h s e := by
  intro he hu
  simpa [setInTime, he, hu] using hok

theorem commands_served_fiveSeconds : ∃ h s, RunIf Station.step SetInTime Station.init h s ∧
    s.watering = .blocked ∧ .overwrite 5000 ∈ pumpTrace h ∧ CommandsServed h := by
  obtain ⟨h, s, hr, hw⟩ := exists_runIf Station.step Station.init (fiveSeconds ++ backToWait) watched
    (b := ([.wait, .clear, .report, .relayOff, .sleep 5000, .relayOn, .peek, .recvReturn, .commandSet,
      .overwrite 5000, .recvCall, .wait, .start], .blocked)) setInTime_sound (by decide +kernel)
  have htrace := congrArg Prod.fst hw
  have hb : s.watering = .blocked := congrArg Prod.snd hw
  refine ⟨h, s, hr, hb, ?_, (commands_served hr hb).2⟩
  rw [show pumpTrace h = _ from htrace]
  simp

/-- A second command, for seven seconds, while the pump runs for the first. -/
def sevenSeconds : List Event :=
  [.recvCall .blank topicPc (str "\x7b\"wateringTime\": 7\x7d"), .recvOp (.overwriteWater 7000), .recvOp .setWater,
   .recvReturn]

/-- The second command is lost: the clear at the end of the first activation takes its flag. -/
theorem sevenSeconds_lost :
    ¬∀ h s, Run Station.step Station.init h s → s.watering = .blocked →
      s.stores.waterFlag.test wateringStart = false → CommandsServed h := by
  intro hall
  obtain ⟨h, s, hr, hw⟩ := exists_run Station.step Station.init (fiveSeconds ++ sevenSeconds ++ backToWait) watched
    (b := ([.wait, .clear, .report, .relayOff, .recvReturn, .commandSet, .overwrite 7000, .recvCall, .sleep 5000,
      .relayOn, .peek, .recvReturn, .commandSet, .overwrite 5000, .recvCall, .wait, .start], .blocked))
    (by decide +kernel)
  have hb : s.watering = .blocked := congrArg Prod.snd hw
  obtain ⟨p1, p2, p3, hpost, -⟩ := hall h s hr hb ((Pump.placed (run_pump hr)).blocked hb)
    [.wait, .clear, .report, .relayOff, .recvReturn, .commandSet] _ 7000 (congrArg Prod.fst hw) (by simp)
  have hmem : PumpAct.relayOn ∈ [PumpAct.wait, .clear, .report, .relayOff, .recvReturn, .commandSet] := by
    rw [hpost]
    simp
  simp at hmem

end Thronix
