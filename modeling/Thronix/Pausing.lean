import Thronix.Station

/-!
# Thronix.Pausing — switching the measurements off

* `step_measurement`, `step_measurementFlag`: who moves `measurementsTask`, and who sets its flag.
* `one_late_report`: from a handler's clear of `MEASUREMENT_START` up to the next set, `measurementsTask` sends at most
  the one report it was already released for.
-/

namespace Thronix

open Json Lib

/-- `measurementsTask` writes a `SENSORS_REPORT` to `g_PBQueue`. -/
def Event.isMeasureReport : Event → Bool
  | .measureReport => true
  | _ => false

/-- A call of `measurementsTask`. -/
def Event.ofMeasurement : Event → Bool
  | .measureWait => true
  | .measureReport => true
  | .measurePeek => true
  | .measureSleep _ => true
  | _ => false

namespace Station

section Measurement

variable {s s' : Station}

theorem call_measurement {op : StoreOp} (hop : op ≠ .setMeasurement) : (s.call op).measurement = s.measurement := by
  simp [call, hop]

theorem apply_measurementFlag {op : StoreOp} {st : Stores} (hop : op ≠ .setMeasurement)
    (hf : st.measurementFlag.test measurementStart = false) :
    (st.apply op).measurementFlag.test measurementStart = false := by
  cases op with
  | setMeasurement => exact absurd rfl hop
  | clearMeasurement => exact EventGroup.test_clear_self _ _
  | _ => exact hf

/-- A step that is neither a set of the flag nor a call of the task leaves the task where it stands, and a clear flag
clear. -/
theorem step_measurement {e : Event} (hset : e ≠ .recvOp .setMeasurement) (he : e.ofMeasurement = false)
    (hs : s.step e = some s') : s'.measurement = s.measurement ∧
      (s.stores.measurementFlag.test measurementStart = false →
        s'.stores.measurementFlag.test measurementStart = false) := by
  cases e with
  | measureWait | measureReport | measurePeek | measureSleep => cases he
  | recvOp op =>
    obtain ⟨ops, -, rfl⟩ := step_recvOp.mp hs
    have hop : op ≠ .setMeasurement := fun h => hset (by rw [h])
    exact ⟨call_measurement hop, apply_measurementFlag hop⟩
  | connectSetBits =>
    obtain ⟨d, -, rfl⟩ := step_connectSetBits.mp hs
    have hop : StoreOp.setWater ≠ .setMeasurement := by simp
    exact ⟨call_measurement hop, apply_measurementFlag hop⟩
  | recvCall cx topstr payload =>
    obtain ⟨-, ops, -, rfl⟩ := step_recvCall.mp hs
    exact ⟨rfl, id⟩
  | disconnect =>
    obtain rfl := step_disconnect.mp hs
    exact ⟨rfl, id⟩
  | msgQRead =>
    obtain ⟨m, q, -, -, rfl⟩ := step_msgQRead.mp hs
    cases m <;> exact ⟨rfl, id⟩
  | peekThresholds th =>
    obtain ⟨d, -, -, rfl⟩ := step_peekThresholds.mp hs
    exact ⟨rfl, id⟩
  | send p =>
    obtain ⟨ps, -, rfl⟩ := step_send.mp hs
    exact ⟨rfl, id⟩
  | relayOn =>
    obtain ⟨t, -, rfl⟩ := step_relayOn.mp hs
    exact ⟨rfl, id⟩
  | relayOff =>
    obtain ⟨t, -, rfl⟩ := step_relayOff.mp hs
    exact ⟨rfl, id⟩
  | _ =>
    obtain ⟨-, rfl⟩ := guard_eq_some.mp hs
    exact ⟨rfl, id⟩

end Measurement

end Station

/-- The flag is clear, and the task has sent its late report or may still send it. -/
structure Paused (n : ℕ) (s : Station) : Prop where
  clear : s.stores.measurementFlag.test measurementStart = false
  late : n ≤ 1
  released : s.measurement = .report → n = 0

theorem Paused.step {n : ℕ} {s s' : Station} {e : Event} (hp : Paused n s) (hset : e ≠ .recvOp .setMeasurement)
    (hs : s.step e = some s') : Paused (n + if e.isMeasureReport then 1 else 0) s' := by
  obtain ⟨hclear, hlate, hrel⟩ := hp
  cases e with
  | measureWait =>
    obtain ⟨-, rfl⟩ := Station.step_measureWait.mp hs
    -- the flag is clear, so the task blocks
    exact ⟨hclear, hlate, fun h => by rw [hclear] at h; cases h⟩
  | measureReport =>
    obtain ⟨hpc, rfl⟩ := Station.step_measureReport.mp hs
    have h0 := hrel hpc
    subst h0
    exact ⟨hclear, le_rfl, fun h => (by cases h)⟩
  | measurePeek =>
    obtain ⟨-, rfl⟩ := Station.step_measurePeek.mp hs
    exact ⟨hclear, hlate, fun h => (by cases h)⟩
  | measureSleep t =>
    obtain ⟨-, rfl⟩ := Station.step_measureSleep.mp hs
    exact ⟨hclear, hlate, fun h => (by cases h)⟩
  | _ =>
    obtain ⟨hpc, hflag⟩ := Station.step_measurement hset rfl hs
    exact ⟨hflag hclear, hlate, fun h => hrel (hpc ▸ h)⟩

theorem paused {s₀ s : Station} {mid pre : List Event}
    (hr : Run Station.step s₀ (mid ++ .recvOp .clearMeasurement :: pre) s) (hm : .recvOp .setMeasurement ∉ mid) :
    Paused (mid.countP Event.isMeasureReport) s := by
  induction mid generalizing s with
  | nil =>
    cases hr with
    | snoc _ _ hs =>
      obtain ⟨ops, -, rfl⟩ := Station.step_recvOp.mp hs
      exact ⟨EventGroup.test_clear_self _ _, Nat.zero_le 1, fun _ => rfl⟩
  | cons e mid ih =>
    obtain ⟨he, hm⟩ := not_or.mp (mt List.mem_cons.mpr hm)
    cases hr with
    | snoc hr _ hs =>
      rw [List.countP_cons]
      exact (ih hr hm).step (Ne.symm he) hs

/-- **Pausing takes effect after at most one more report**: between a handler's clear of `MEASUREMENT_START` and the
next set `measurementsTask` writes at most one `SENSORS_REPORT`. -/
theorem one_late_report {s : Station} {post mid pre : List Event}
    (hr : Run Station.step Station.init (post ++ (mid ++ .recvOp .clearMeasurement :: pre)) s)
    (hm : .recvOp .setMeasurement ∉ mid) : mid.countP Event.isMeasureReport ≤ 1 := by
  induction post generalizing s with
  | nil => exact (paused hr hm).late
  | cons e post ih =>
    cases hr with
    | snoc hr _ _ => exact ih hr

/-- Switched on and off again before the released task runs; a new frequency comes while it sleeps. -/
def onAndOff : List Event :=
  [.measureWait, .recvCall .blank topicPc (str "\x7b\"measurementSwitch\": 1\x7d"), .recvOp .setMeasurement, .recvReturn,
   .recvCall .blank topicPc (str "\x7b\"measurementSwitch\": 0\x7d"), .recvOp .clearMeasurement]

/-- The late report, and the wait after it. -/
def lateReport : List Event :=
  [.recvReturn, .measureReport, .measurePeek, .recvCall .blank topicPc (str "\x7b\"measuresFreq\": 2\x7d"),
   .recvOp (.overwriteFreq 120000), .recvReturn, .measureSleep 60000, .measureWait]

theorem one_late_report_onAndOff : ∃ s, Run Station.step Station.init ((onAndOff ++ lateReport).reverse) s ∧
    s.pbQueue = [.sensorsReport] ∧ lateReport.reverse.countP Event.isMeasureReport ≤ 1 := by
  obtain ⟨s, hr, hs⟩ := run_of_exec Station.step Station.init (onAndOff ++ lateReport) Station.pbQueue
    (b := [.sensorsReport]) (by decide +kernel)
  refine ⟨s, hr, hs, ?_⟩
  have hsplit : (onAndOff ++ lateReport).reverse =
      [] ++ (lateReport.reverse ++ .recvOp .clearMeasurement :: onAndOff.dropLast.reverse) := rfl
  rw [hsplit] at hr
  exact one_late_report hr (by simp [lateReport])

end Thronix
