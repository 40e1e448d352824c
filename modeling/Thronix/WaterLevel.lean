import Thronix.Lib.Runs
import Thronix.Platform
import Mathlib.Data.Rat.Cast.Order
import Mathlib.Tactic.Linarith
import Mathlib.Tactic.NormNum
import Mathlib.Tactic.Positivity

/-!
# Thronix.WaterLevel — the ultrasonic sensor

`waterLevelSensor.c`: `readWaterLevel` sends a trigger pulse and waits for `ECHO_DONE`; the interrupt `echoInt` times the
echo between its two edges.

* `Echo`: the two ports, the interrupt, the event group, `timerValue`, the commands that the interrupt has left to the
  timer task, and where the reading task stands.  One core: while `echoInt` runs no task does.
* `EchoEvent`: one access of the reading task, an edge on a pin, an entry or one of the branches of `echoInt`, one
  command executed by the timer task.
* `xEventGroupSetBitsFromISR` and `xEventGroupClearBitsFromISR` append a command; `xEventGroupGetBitsFromISR` reads the
  bits at once.
-/

namespace Thronix

open Lib

/-! ## Pins and bits -/

/-- `PIN_08`, used as a mask of `GPIOA2`. -/
def pin08 : BitVec 8 := 0x07

/-- `PIN_64`, used as a mask of `GPIOA1`. -/
def pin64 : BitVec 8 := 0x3F

/-- The pin of the port that the echo is wired to. -/
def echoPin : BitVec 8 := 0x02

inductive EchoBit
  | done
  | wait
  deriving DecidableEq, Repr

/-- `ECHO_DONE` and `ECHO_WAIT`. -/
def EchoBit.mask : EchoBit → BitVec 32
  | done => 0x0001
  | wait => 0x0002

/-- A function call pended to the timer task. -/
inductive TimerCommand
  | setBits (b : EchoBit)
  | clearBits (b : EchoBit)
  deriving DecidableEq, Repr

def TimerCommand.execute (g : EventGroup) : TimerCommand → EventGroup
  | .setBits b => g.xEventGroupSetBits b.mask
  | .clearBits b => g.xEventGroupClearBits b.mask

/-! ## The system -/

/-- Where `readWaterLevel` stands. -/
inductive ReaderPc
  | idle
  | noValue
  | trigger
  | triggerEnd
  | wait
  | cmpLow
  | setLow
  | cmpHigh
  | setHigh
  | compute
  | clear (waterLevel : ℚ)
  | ret (waterLevel : ℚ)
  deriving DecidableEq, Repr

structure Echo where
  gpioA1 : Port
  gpioA2 : Port
  /-- An interrupt of a pin of `PIN_08` that `GPIOIntClear` has not cleared. -/
  intFlag : Bool
  /-- `echoInt` has cleared the flag and not read the pin yet. -/
  inIsr : Bool
  waterLevelMeasures : EventGroup
  commands : List TimerCommand
  timerValue : BitVec 32
  reader : ReaderPc
  deriving DecidableEq, Repr

/-- What `setupWaterLevel` leaves. -/
def Echo.init : Echo :=
  ⟨0, 0, false, false, EventGroup.create.xEventGroupClearBits (EchoBit.done.mask ||| EchoBit.wait.mask), [], 0, .idle⟩

inductive EchoEvent
  | getBits
  | trigger
  | triggerEnd
  | waitDone
  | cmpLow
  | setLow
  | cmpHigh
  | setHigh
  | compute
  | clearDone
  | ret (waterLevel : ℚ)
  | rise
  | fall
  | otherPins (pins : BitVec 8)
  | isrEnter
  | isrRise
  | isrCapture (t : BitVec 32)
  | isrIgnore
  | command
  deriving DecidableEq, Repr

namespace Echo

def bit (s : Echo) (b : EchoBit) : Bool := s.waterLevelMeasures.test b.mask

/-- `GPIOPinRead(GPIOA2_BASE, PIN_08) == 2`. -/
def high (s : Echo) : Bool := gpioPinRead s.gpioA2 pin08 == 2

/-- `(timerValue - 3000)*100.0/45500.0`, the subtraction unsigned. -/
def percentage (timerValue : BitVec 32) : ℚ := ((timerValue - 3000#32).toNat : ℚ) * 100 / 45500

/-- The reading task runs while `echoInt` does not. -/
def readerAt (s : Echo) (pc : ReaderPc) : Prop := s.inIsr = false ∧ s.reader = pc

instance (s : Echo) (pc : ReaderPc) : Decidable (s.readerAt pc) := inferInstanceAs (Decidable (_ ∧ _))

def step (s : Echo) : EchoEvent → Option Echo
  -- readWaterLevel
  | .getBits => if s.readerAt .idle then some { s with reader := if s.bit .wait then .noValue else .trigger } else none
  | .trigger =>
    if s.readerAt .trigger then some { s with gpioA1 := gpioPinWrite s.gpioA1 pin64 pin64, reader := .triggerEnd }
    else none
  | .triggerEnd =>
    if s.readerAt .triggerEnd then some { s with gpioA1 := gpioPinWrite s.gpioA1 pin64 (~~~pin64), reader := .wait }
    else none
  | .waitDone => if s.readerAt .wait ∧ s.bit .done = true then some { s with reader := .cmpLow } else none
  | .cmpLow =>
    if s.readerAt .cmpLow then some { s with reader := if s.timerValue < 3000#32 then .setLow else .cmpHigh } else none
  | .setLow => if s.readerAt .setLow then some { s with timerValue := 3000#32, reader := .compute } else none
  | .cmpHigh =>
    if s.readerAt .cmpHigh then some { s with reader := if 48500#32 < s.timerValue then .setHigh else .compute }
    else none
  | .setHigh => if s.readerAt .setHigh then some { s with timerValue := 48500#32, reader := .compute } else none
  | .compute => if s.readerAt .compute then some { s with reader := .clear (percentage s.timerValue) } else none
  | .clearDone =>
    match s.reader with
    | .clear v =>
      if s.inIsr = false then
        some { s with
          waterLevelMeasures := s.waterLevelMeasures.xEventGroupClearBits EchoBit.done.mask, reader := .ret v }
      else none
    | _ => none
  -- a call that found ECHO_WAIT set ends without a return statement: the caller reads whatever the register holds
  | .ret v => if s.readerAt (.ret v) ∨ s.readerAt .noValue then some { s with reader := .idle } else none
  -- the pins
  | .rise => if s.gpioA2 &&& echoPin = 0 then some { s with gpioA2 := s.gpioA2 ||| echoPin, intFlag := true } else none
  | .fall =>
    if s.gpioA2 &&& echoPin ≠ 0 then some { s with gpioA2 := s.gpioA2 &&& ~~~echoPin, intFlag := true } else none
  | .otherPins pins => some { s with
      gpioA2 := (s.gpioA2 &&& echoPin) ||| (pins &&& ~~~echoPin)
      intFlag := s.intFlag || ((s.gpioA2 ^^^ pins) &&& pin08 &&& ~~~echoPin) != 0 }
  -- echoInt
  | .isrEnter => if s.inIsr = false ∧ s.intFlag = true then some { s with inIsr := true, intFlag := false } else none
  | .isrRise =>
    if s.inIsr = true ∧ s.high = true then
      some { s with inIsr := false, commands := s.commands ++ [.setBits .wait] }
    else none
  | .isrCapture t =>
    if s.inIsr = true ∧ s.high = false ∧ s.bit .wait = true then
      some { s with
        inIsr := false, timerValue := t, commands := s.commands ++ [.setBits .done, .clearBits .wait] }
    else none
  | .isrIgnore =>
    if s.inIsr = true ∧ s.high = false ∧ s.bit .wait = false then some { s with inIsr := false } else none
  -- the timer task
  | .command =>
    match s.commands with
    | c :: rest =>
      if s.inIsr = false then
        some { s with waterLevelMeasures := c.execute s.waterLevelMeasures, commands := rest }
      else none
    | [] => none

/-! ## Steps -/

section Steps

variable {s s' : Echo}

theorem step_getBits : s.step .getBits = some s' ↔
    s.readerAt .idle ∧ s' = { s with reader := if s.bit .wait then .noValue else .trigger } :=
  guard_eq_some

theorem step_trigger : s.step .trigger = some s' ↔ s.readerAt .trigger ∧
    s' = { s with gpioA1 := gpioPinWrite s.gpioA1 pin64 pin64, reader := .triggerEnd } :=
  guard_eq_some

theorem step_triggerEnd : s.step .triggerEnd = some s' ↔ s.readerAt .triggerEnd ∧
    s' = { s with gpioA1 := gpioPinWrite s.gpioA1 pin64 (~~~pin64), reader := .wait } :=
  guard_eq_some

theorem step_waitDone : s.step .waitDone = some s' ↔
    (s.readerAt .wait ∧ s.bit .done = true) ∧ s' = { s with reader := .cmpLow } :=
  guard_eq_some

theorem step_cmpLow : s.step .cmpLow = some s' ↔
    s.readerAt .cmpLow ∧ s' = { s with reader := if s.timerValue < 3000#32 then .setLow else .cmpHigh } :=
  guard_eq_some

theorem step_setLow : s.step .setLow = some s' ↔
    s.readerAt .setLow ∧ s' = { s with timerValue := 3000#32, reader := .compute } :=
  guard_eq_some

theorem step_cmpHigh : s.step .cmpHigh = some s' ↔
    s.readerAt .cmpHigh ∧ s' = { s with reader := if 48500#32 < s.timerValue then .setHigh else .compute } :=
  guard_eq_some

theorem step_setHigh : s.step .setHigh = some s' ↔
    s.readerAt .setHigh ∧ s' = { s with timerValue := 48500#32, reader := .compute } :=
  guard_eq_some

theorem step_compute : s.step .compute = some s' ↔
    s.readerAt .compute ∧ s' = { s with reader := .clear (percentage s.timerValue) } :=
  guard_eq_some

theorem step_clearDone : s.step .clearDone = some s' ↔ ∃ v, s.readerAt (.clear v) ∧ s' = { s with
    waterLevelMeasures := s.waterLevelMeasures.xEventGroupClearBits EchoBit.done.mask, reader := .ret v } := by
  cases hr : s.reader with
  | clear v =>
    simp only [step, hr, guard_eq_some, readerAt]
    constructor
    · rintro ⟨hi, rfl⟩
      exact ⟨v, ⟨hi, rfl⟩, rfl⟩
    · rintro ⟨v', ⟨hi, hv⟩, rfl⟩
      obtain rfl := ReaderPc.clear.inj hv
      exact ⟨hi, rfl⟩
  | _ => simp [step, hr, readerAt]

theorem step_ret {v : ℚ} : s.step (.ret v) = some s' ↔
    (s.readerAt (.ret v) ∨ s.readerAt .noValue) ∧ s' = { s with reader := .idle } :=
  guard_eq_some

theorem step_rise : s.step .rise = some s' ↔
    s.gpioA2 &&& echoPin = 0 ∧ s' = { s with gpioA2 := s.gpioA2 ||| echoPin, intFlag := true } :=
  guard_eq_some

theorem step_fall : s.step .fall = some s' ↔
    s.gpioA2 &&& echoPin ≠ 0 ∧ s' = { s with gpioA2 := s.gpioA2 &&& ~~~echoPin, intFlag := true } :=
  guard_eq_some

theorem step_isrEnter : s.step .isrEnter = some s' ↔
    (s.inIsr = false ∧ s.intFlag = true) ∧ s' = { s with inIsr := true, intFlag := false } :=
  guard_eq_some

theorem step_isrRise : s.step .isrRise = some s' ↔
    (s.inIsr = true ∧ s.high = true) ∧
      s' = { s with inIsr := false, commands := s.commands ++ [.setBits .wait] } :=
  guard_eq_some

theorem step_isrCapture {t : BitVec 32} : s.step (.isrCapture t) = some s' ↔
    (s.inIsr = true ∧ s.high = false ∧ s.bit .wait = true) ∧ s' = { s with
      inIsr := false, timerValue := t, commands := s.commands ++ [.setBits .done, .clearBits .wait] } :=
  guard_eq_some

theorem step_isrIgnore : s.step .isrIgnore = some s' ↔
    (s.inIsr = true ∧ s.high = false ∧ s.bit .wait = false) ∧ s' = { s with inIsr := false } :=
  guard_eq_some

theorem step_command : s.step .command = some s' ↔ ∃ c rest, s.inIsr = false ∧ s.commands = c :: rest ∧
    s' = { s with waterLevelMeasures := c.execute s.waterLevelMeasures, commands := rest } := by
  cases hc : s.commands with
  | nil => simp [step, hc]
  | cons c rest =>
    simp only [step, hc, guard_eq_some]
    constructor
    · rintro ⟨hi, rfl⟩
      exact ⟨c, rest, hi, rfl, rfl⟩
    · rintro ⟨c', rest', hi, heq, rfl⟩
      obtain ⟨rfl, rfl⟩ := List.cons.inj heq
      exact ⟨hi, rfl⟩

end Steps

/-! ## Bits -/

theorem test_set (g : EventGroup) (b b' : EchoBit) :
    (g.xEventGroupSetBits b.mask).test b'.mask = (b == b' || g.test b'.mask) := by
  cases b <;> cases b'
  · exact EventGroup.test_set_self (by decide) g
  · exact EventGroup.test_set_of_disjoint (by decide) g
  · exact EventGroup.test_set_of_disjoint (by decide) g
  · exact EventGroup.test_set_self (by decide) g

theorem test_clear (g : EventGroup) (b b' : EchoBit) :
    (g.xEventGroupClearBits b.mask).test b'.mask = (b != b' && g.test b'.mask) := by
  cases b <;> cases b'
  · exact EventGroup.test_clear_self g _
  · exact EventGroup.test_clear_of_disjoint (by decide) g
  · exact EventGroup.test_clear_of_disjoint (by decide) g
  · exact EventGroup.test_clear_self g _

/-- The bits after a command of the timer task. -/
theorem bit_execute (s : Echo) (c : TimerCommand) (rest : List TimerCommand) (b : EchoBit) :
    bit { s with waterLevelMeasures := c.execute s.waterLevelMeasures, commands := rest } b =
      match c with
      | .setBits b' => (b' == b || s.bit b)
      | .clearBits b' => (b' != b && s.bit b) := by
  cases c with
  | setBits b' => exact test_set _ _ _
  | clearBits b' => exact test_clear _ _ _

end Echo

end Thronix
