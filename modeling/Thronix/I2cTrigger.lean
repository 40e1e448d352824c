import Thronix.I2cQueue

/-!
# Thronix.I2cTrigger — what a software trigger may find

A caller tests `g_i2cisrstate` and pends the interrupt in two steps.

* `HardwareDriven`: a run of the routine that no hardware event caused finds `STATE_IDLE`.
* `latePend_advances`: a caller that comes too late has the routine run into a transfer.
* `hardwareDriven_iff_pendsInTime`: a run is free of that exactly when every `IntPendSet` finds the state its caller
  tested.
-/

namespace Thronix

open Lib

namespace I2c

/-- A software trigger finds the driver idle; the other states are left only by a completion or an error. -/
structure HardwareDriven (s : I2c) : Prop where
  idle : ∀ i s', s.step (.isr i) = some s' → i.status = .none → s.gI2cIsrState = .idle
  left : ∀ e s', s.step e = some s' → s.gI2cIsrState ≠ .idle → s'.gI2cIsrState ≠ s.gI2cIsrState →
    ∃ i, e = .isr i ∧ i.status ≠ .none

/-- A caller's `IntPendSet` still finds the idle state that it tested for. -/
def PendsInTime (_h : List I2cEvent) (s : I2c) : I2cEvent → Prop
  | .pend _ => s.gI2cIsrState = .idle
  | _ => True

/-- Only a caller's `IntPendSet` pends the interrupt from a task. -/
theorem step_pended {s s' : I2c} {e : I2cEvent} (he : e.ofTask = true) (hp : ∀ task, e ≠ .pend task)
    (hs : s.step e = some s') : s'.pended = s.pended := by
  cases e with
  | isr i => cases he
  | pend task => exact absurd rfl (hp task)
  | call task r =>
    obtain ⟨-, ⟨-, rfl⟩ | ⟨-, rfl⟩⟩ := step_call.mp hs
    · rfl
    · rfl
  | send task =>
    obtain ⟨t, -, -, rfl⟩ := step_send.mp hs
    rfl
  | test task =>
    obtain ⟨c, -, rfl⟩ := step_test.mp hs
    rfl
  | wait task =>
    obtain ⟨c, -, rfl⟩ := step_wait.mp hs
    rfl
  | notified task =>
    obtain ⟨c, -, -, rfl⟩ := step_notified.mp hs
    rfl
  | ret task =>
    obtain ⟨r, -, rfl⟩ := step_ret.mp hs
    rfl

/-- A pending interrupt finds the driver idle. -/
def PendedIdle (s : I2c) : Prop := s.pended = true → s.gI2cIsrState = .idle

theorem PendedIdle.step {h : List I2cEvent} {s s' : I2c} {e : I2cEvent} (hi : s.PendedIdle) (hv : s.Served)
    (hok : PendsInTime h s e) (hs : s.step e = some s') : s'.PendedIdle := by
  intro hp
  by_cases he : e.ofTask = true
  · obtain ⟨hst, -⟩ := step_task he hs
    rw [hst]
    cases e with
    | pend task => exact hok
    | _ => exact hi (by rwa [← step_pended he (by simp) hs])
  · cases e with
    | isr i =>
      rcases step_isr_outcome hv hs with ⟨-, rfl⟩ | ⟨t, rest, -, hg⟩ | ⟨t, rest, bits, hr⟩
      · cases hp
      · -- the entry has taken the pending bit
        have hoff : s'.pended = false := hg.same.pended
        rw [hoff] at hp
        cases hp
      · exact hr.idle
    | _ => exact absurd rfl he

theorem pendedIdle {mem : ℕ → BitVec 8} {h : List I2cEvent} {s : I2c}
    (hr : RunIf step PendsInTime (init mem) h s) : s.PendedIdle :=
  hr.inv (I := fun _ s => s.PendedIdle) (fun hp => by cases hp)
    fun _ _ _ _ hr hi hok hs => hi.step (served hr.run) hok hs

theorem PendedIdle.hardwareDriven {s : I2c} (hi : s.PendedIdle) : s.HardwareDriven := by
  have hidle : ∀ i s', s.step (.isr i) = some s' → i.status = .none → s.gI2cIsrState = .idle := by
    intro i s' hs hnone
    obtain ⟨hguard, -⟩ := step_isr.mp hs
    rw [if_pos hnone] at hguard
    exact hi hguard
  refine ⟨hidle, fun e s' hs hrun hleft => ?_⟩
  by_cases he : e.ofTask = true
  · exact absurd (step_task he hs).1 hleft
  · cases e with
    | isr i => exact ⟨i, rfl, fun hnone => hrun (hidle i s' hs hnone)⟩
    | _ => exact absurd rfl he

/-- A caller that pends the interrupt after a transfer was started makes the routine advance it. -/
theorem latePend_advances {s s' : I2c} {task : TaskHandle} (hs : s.step (.pend task) = some s')
    (hrun : s.gI2cIsrState ≠ .idle) : ¬s'.HardwareDriven := by
  intro hd
  obtain ⟨c, -, rfl⟩ := step_pend.mp hs
  exact hrun (hd.idle ⟨.none, true, 0⟩ _ (step_isr.mpr ⟨rfl, rfl⟩) rfl)

end I2c

/-- The runs whose callers pend the interrupt in time keep to it in every state. -/
theorem trigger_finds_idle {mem : ℕ → BitVec 8} {h : List I2cEvent} {s : I2c}
    (hr : RunIf I2c.step I2c.PendsInTime (I2c.init mem) h s) : s.HardwareDriven :=
  (I2c.pendedIdle hr).hardwareDriven

/-- **A software trigger never advances a running transfer** in any state of a run, exactly when every caller of the run
pends the interrupt in time. -/
theorem hardwareDriven_iff_pendsInTime (mem : ℕ → BitVec 8) (h : List I2cEvent) (s : I2c) :
    RunIf I2c.step (fun _ s _ => s.HardwareDriven) (I2c.init mem) h s ∧ s.HardwareDriven ↔
      RunIf I2c.step I2c.PendsInTime (I2c.init mem) h s := by
  constructor
  · rintro ⟨hr, hd⟩
    induction hr with
    | start => exact .start
    | @snoc h s s' e hr hok hs ih =>
      refine .snoc (ih hok) ?_ hs
      cases e with
      | pend task =>
        by_contra hlate
        exact I2c.latePend_advances hs hlate hd
      | _ => trivial
  · intro hr
    refine ⟨?_, trigger_finds_idle hr⟩
    induction hr with
    | start => exact .start
    | snoc hr _ hs ih => exact .snoc ih (trigger_finds_idle hr) hs

/-- Task 1 tests an idle driver; before it pends the interrupt, task 2 makes its call and the routine starts the
transfer of task 1. -/
def overtaken : List I2cEvent :=
  [.call 1 (.write 0x44 100 2 1), .send 1, .test 1, .call 2 (.write 0x45 200 2 1), .send 2, .test 2, .pend 2,
   .isr ⟨.none, true, 0⟩, .pend 1]

/-- The trigger of task 1 is pending while its own first byte is still on the bus. -/
theorem overtaken_advances :
    ¬∀ (mem : ℕ → BitVec 8) (h : List I2cEvent) (s : I2c), Run I2c.step (I2c.init mem) h s → s.HardwareDriven := by
  intro hall
  obtain ⟨h, s, hr, hs⟩ := exists_run I2c.step (I2c.init fun _ => 0) overtaken
    (fun r => (r.2.gI2cIsrState, r.2.pended)) (b := (.writeNext, true)) (by decide +kernel)
  have hstate : s.gI2cIsrState = .writeNext := congrArg Prod.fst hs
  have hpended : s.pended = true := congrArg Prod.snd hs
  have hidle := (hall _ h s hr).idle ⟨.none, true, 0⟩ _ (I2c.step_isr.mpr ⟨hpended, rfl⟩) rfl
  rw [hstate] at hidle
  cases hidle

end Thronix
