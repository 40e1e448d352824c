import Mathlib.Data.List.Basic
import Mathlib.Tactic.SplitIfs

/-!
# Thronix.Platform — the kernel objects and ports the application is built on

* `Queue1 α`: a queue of length one (`xQueueCreate(1, size)`), used only with `xQueueOverwrite` and `xQueuePeek`.
* `EventGroup`: the event bits.  Which task is blocked on which bits is part of the state of that task.
* `osiMsgQWrite`: `g_PBQueue`, created with room for 20 messages; a write to the full queue is dropped.
* `Port`: the data register of a GPIO port, written and read through a bit mask (`driverlib/gpio.c`).
-/

namespace Thronix

/-- `SUCCESS` and `FAILURE`. -/
inductive Status
  | success
  | failure
  deriving DecidableEq, Repr

/-! ## Queues of length one -/

/-- A queue of length one: the item it holds, if any. -/
structure Queue1 (α : Type) where
  item : Option α
  deriving DecidableEq, Repr

namespace Queue1

variable {α : Type}

/-- `xQueueCreate(1, ..)`. -/
def empty : Queue1 α := ⟨none⟩

/-- `xQueueOverwrite`: the item replaces whatever the queue holds. -/
def xQueueOverwrite (_q : Queue1 α) (v : α) : Queue1 α := ⟨some v⟩

/-- `xQueuePeek`: the buffer after the call, which keeps its content `buf` when the queue stays empty. -/
def xQueuePeek (q : Queue1 α) (buf : α) : α := q.item.getD buf

@[simp] theorem item_empty : (empty : Queue1 α).item = none := rfl

@[simp] theorem item_xQueueOverwrite (q : Queue1 α) (v : α) : (q.xQueueOverwrite v).item = some v := rfl

@[simp] theorem xQueuePeek_empty (buf : α) : (empty : Queue1 α).xQueuePeek buf = buf := rfl

@[simp] theorem xQueuePeek_xQueueOverwrite (q : Queue1 α) (v buf : α) :
    (q.xQueueOverwrite v).xQueuePeek buf = v := rfl

end Queue1

/-! ## Event groups -/

/-- An event group: its bits. -/
structure EventGroup where
  uxEventBits : BitVec 32
  deriving DecidableEq, Repr

namespace EventGroup

/-- `xEventGroupCreate`: no bit is set. -/
def create : EventGroup := ⟨0⟩

def xEventGroupSetBits (g : EventGroup) (m : BitVec 32) : EventGroup := ⟨g.uxEventBits ||| m⟩

def xEventGroupClearBits (g : EventGroup) (m : BitVec 32) : EventGroup := ⟨g.uxEventBits &&& ~~~m⟩

/-- `prvTestWaitCondition` with `xWaitForAllBits = pdFALSE`: some bit of the mask is set. -/
def test (g : EventGroup) (m : BitVec 32) : Bool := g.uxEventBits &&& m != 0

@[simp] theorem test_create (m : BitVec 32) : create.test m = false := by simp [test, create]

theorem test_set_self {m : BitVec 32} (hm : m ≠ 0) (g : EventGroup) : (g.xEventGroupSetBits m).test m = true := by
  have h : (g.uxEventBits ||| m) &&& m = m := by
    ext i hi
    simp only [BitVec.getElem_and, BitVec.getElem_or]
    cases g.uxEventBits[i] <;> cases m[i] <;> rfl
  simpa [test, xEventGroupSetBits, h] using hm

theorem test_clear_self (g : EventGroup) (m : BitVec 32) : (g.xEventGroupClearBits m).test m = false := by
  have h : (g.uxEventBits &&& ~~~m) &&& m = 0 := by
    ext i hi
    simp only [BitVec.getElem_and, BitVec.getElem_not]
    cases g.uxEventBits[i] <;> cases m[i] <;> simp
  simp [test, xEventGroupClearBits, h]

/-- Setting bits outside a mask does not change its test. -/
theorem test_set_of_disjoint {m m' : BitVec 32} (hm : m &&& m' = 0) (g : EventGroup) :
    (g.xEventGroupSetBits m).test m' = g.test m' := by
  have h : (g.uxEventBits ||| m) &&& m' = g.uxEventBits &&& m' := by
    ext i hi
    have hi' : (m &&& m')[i] = false := by rw [hm]; simp
    simp only [BitVec.getElem_and] at hi'
    simp only [BitVec.getElem_and, BitVec.getElem_or]
    revert hi'
    cases g.uxEventBits[i] <;> cases m[i] <;> cases m'[i] <;> simp
  simp [test, xEventGroupSetBits, h]

/-- Clearing bits outside a mask does not change its test. -/
theorem test_clear_of_disjoint {m m' : BitVec 32} (hm : m &&& m' = 0) (g : EventGroup) :
    (g.xEventGroupClearBits m).test m' = g.test m' := by
  have h : (g.uxEventBits &&& ~~~m) &&& m' = g.uxEventBits &&& m' := by
    ext i hi
    have hi' : (m &&& m')[i] = false := by rw [hm]; simp
    simp only [BitVec.getElem_and] at hi'
    simp only [BitVec.getElem_and, BitVec.getElem_not]
    revert hi'
    cases g.uxEventBits[i] <;> cases m[i] <;> cases m'[i] <;> simp
  simp [test, xEventGroupClearBits, h]

end EventGroup

/-! ## The message queue to `ConnectWiFI` -/

/-- `osi_messages`. -/
inductive OsiMessages
  | sensorsReport
  | waterReport
  | brokerDisconnection
  deriving DecidableEq, Repr

/-- `osi_MsgQWrite` on `g_PBQueue` (20 entries): the write to a full queue fails and nothing is stored. -/
def osiMsgQWrite (q : List OsiMessages) (m : OsiMessages) : List OsiMessages :=
  if q.length < 20 then q ++ [m] else q

/-! ## GPIO ports -/

/-- The data register of a GPIO port. -/
abbrev Port := BitVec 8

/-- `GPIOPinWrite`: the pins of the mask take the bits of `ucVal`. -/
def gpioPinWrite (p : Port) (ucPins ucVal : BitVec 8) : Port := (p &&& ~~~ucPins) ||| (ucVal &&& ucPins)

/-- `GPIOPinRead`: the pins of the mask. -/
def gpioPinRead (p : Port) (ucPins : BitVec 8) : BitVec 8 := p &&& ucPins

theorem gpioPinRead_gpioPinWrite (p : Port) (ucPins ucVal : BitVec 8) :
    gpioPinRead (gpioPinWrite p ucPins ucVal) ucPins = ucVal &&& ucPins := by
  unfold gpioPinRead gpioPinWrite
  ext i hi
  simp only [BitVec.getElem_and, BitVec.getElem_or, BitVec.getElem_not]
  cases p[i] <;> cases ucPins[i] <;> simp

end Thronix
