import Thronix.Platform

/-!
# Thronix.Stores — the queues and flags a command can change

The handles of `main.c` that `Mqtt_Recv` writes and the tasks read: `freqQueue`, `thresholdsQueue`, `waterQueue`,
`measurementFlag`, `waterFlag`.  A `StoreOp` is one kernel call on one of them; the handler's effect is a list of
them, so that other tasks can run in between.
-/

namespace Thronix

/-- `systemThresholds`.  The `char`s of the target compiler are unsigned. -/
structure SystemThresholds where
  temperature : BitVec 8
  moisture : BitVec 8
  deriving DecidableEq, Repr

structure Stores where
  freqQueue : Queue1 (BitVec 32)
  thresholdsQueue : Queue1 SystemThresholds
  waterQueue : Queue1 (BitVec 32)
  measurementFlag : EventGroup
  waterFlag : EventGroup
  deriving DecidableEq, Repr

/-- What `main` creates. -/
def Stores.create : Stores := ⟨.empty, .empty, .empty, .create, .create⟩

def measurementStart : BitVec 32 := 0x0001

def wateringStart : BitVec 32 := 0x0001

/-- One kernel call of the handler. -/
inductive StoreOp
  | overwriteFreq (v : BitVec 32)
  | setMeasurement
  | clearMeasurement
  | overwriteWater (v : BitVec 32)
  | setWater
  | overwriteThresholds (t : SystemThresholds)
  deriving DecidableEq, Repr

def Stores.apply (s : Stores) : StoreOp → Stores
  | .overwriteFreq v => { s with freqQueue := s.freqQueue.xQueueOverwrite v }
  | .setMeasurement => { s with measurementFlag := s.measurementFlag.xEventGroupSetBits measurementStart }
  | .clearMeasurement => { s with measurementFlag := s.measurementFlag.xEventGroupClearBits measurementStart }
  | .overwriteWater v => { s with waterQueue := s.waterQueue.xQueueOverwrite v }
  | .setWater => { s with waterFlag := s.waterFlag.xEventGroupSetBits wateringStart }
  | .overwriteThresholds t => { s with thresholdsQueue := s.thresholdsQueue.xQueueOverwrite t }

/-- The calls of a handler that nothing interrupts. -/
def Stores.applyAll (s : Stores) (ops : List StoreOp) : Stores := ops.foldl Stores.apply s

@[simp] theorem Stores.applyAll_nil (s : Stores) : s.applyAll [] = s := rfl

@[simp] theorem Stores.applyAll_cons (s : Stores) (op : StoreOp) (ops : List StoreOp) :
    s.applyAll (op :: ops) = (s.apply op).applyAll ops := rfl

@[simp] theorem Stores.applyAll_append (s : Stores) (a b : List StoreOp) :
    s.applyAll (a ++ b) = (s.applyAll a).applyAll b := List.foldl_append

/-- The stores with both flags set. -/
def Stores.flagsSet : Stores :=
  (Stores.create.apply .setMeasurement).apply .setWater

/-- A nonempty list of calls changes some stores. -/
theorem Stores.applyAll_eq_self_iff (ops : List StoreOp) : (∀ s : Stores, s.applyAll ops = s) ↔ ops = [] := by
  constructor
  · intro h
    rcases List.eq_nil_or_concat ops with rfl | ⟨init, op, rfl⟩
    · rfl
    · exfalso
      have hlast : ∀ s : Stores, (s.applyAll init).apply op = s := fun s => by
        have := h s
        rwa [List.concat_eq_append, Stores.applyAll_append, Stores.applyAll_cons, Stores.applyAll_nil] at this
      -- the last call leaves its mark: start from stores without it
      rcases op with v | _ | _ | v | _ | t
      · exact absurd (congrArg (fun s => s.freqQueue.item) (hlast .create)) (by simp [Stores.apply, Stores.create])
      · have := congrArg (fun s => s.measurementFlag.test measurementStart) (hlast .create)
        simp only [Stores.apply, EventGroup.test_set_self (m := measurementStart) (by decide)] at this
        exact absurd this (by decide)
      · have := congrArg (fun s => s.measurementFlag.test measurementStart) (hlast .flagsSet)
        simp only [Stores.apply, EventGroup.test_clear_self] at this
        exact absurd this (by decide)
      · exact absurd (congrArg (fun s => s.waterQueue.item) (hlast .create)) (by simp [Stores.apply, Stores.create])
      · have := congrArg (fun s => s.waterFlag.test wateringStart) (hlast .create)
        simp only [Stores.apply, EventGroup.test_set_self (m := wateringStart) (by decide)] at this
        exact absurd this (by decide)
      · exact absurd (congrArg (fun s => s.thresholdsQueue.item) (hlast .create))
          (by simp [Stores.apply, Stores.create])
  · rintro rfl s
    rfl

end Thronix
