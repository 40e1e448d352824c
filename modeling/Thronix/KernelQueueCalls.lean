import Mathlib.Data.List.Sort
import Thronix.KernelQueue
import Thronix.Lib.Fifo

/-!
# Thronix.KernelQueueCalls — tasks and interrupts at one kernel queue (`FreeRTOS/queue.c`)

Tasks call `xQueueGenericSend`, `xQueueReceive` and `xQueuePeek`, which block while the queue is full or empty; interrupts
call the functions that end in `FromISR`.  What stands between two critical sections is one step of a task, and an
interrupt may come between any two.

* `QueueItems.access`: what a call does with the items inside a critical section, and what it returns.
* `Place`: where a task is in its call.  The scheduler is suspended and the queue is locked while a task puts itself into
  the list of those that wait; interrupts count in `cRxLock` and `cTxLock` then what they would have told the tasks.
* `Kernel.step`: one section of a task, one interrupt, or the tick that ends the time of a blocked task.  `returned` has
  the calls that have returned, with their results.
* `Kernel.Refines`: the queue has the items of a list.  `Refines.step`: every section does with them what a bounded queue
  does.
-/

namespace Thronix.KernelQueue

open Lib

abbrev TaskHandle := ℕ

/-! ## Calls -/

inductive Call
  | send (item : Item) (xPosition : CopyPosition)
  | receive
  | peek
  deriving DecidableEq, Repr

/-- The side of the queue that a call waits on, and that its list of tasks is for. -/
inductive Side
  | sender
  | receiver
  deriving DecidableEq, Repr

def Call.side : Call → Side
  | .send _ _ => .sender
  | _ => .receiver

/-- Whom a call tells that it has been successful.  An item that was only looked at is left for the next task. -/
def Call.tells : Call → Side
  | .receive => .sender
  | _ => .receiver

/-- The assertions at the start of the calls; an item has the size that the queue was created for. -/
def Call.Valid (c : Call) (q : QueueItems) : Prop :=
  match c with
  | .send item xPosition => item.length = q.uxItemSize ∧ (xPosition = .overwrite → q.uxLength = 1)
  | _ => True

instance (c : Call) (q : QueueItems) : Decidable (c.Valid q) :=
  match c with
  | .send _ _ => inferInstanceAs (Decidable (_ ∧ _))
  | .receive => .isTrue trivial
  | .peek => .isTrue trivial

def CopyPosition.action (item : Item) : CopyPosition → Fifo.Action Item
  | .sendToBack => .back item
  | .sendToFront => .front item
  | .overwrite => .replace item

def pdPASS : ℤ := 1

def errQUEUE_FULL : ℤ := 0

/-- Also the `pdFAIL` of the calls from interrupts. -/
def errQUEUE_EMPTY : ℤ := 0

/-- What a call returns, and what it has copied to `pvBuffer`. -/
structure Result where
  xReturn : ℤ
  pvBuffer : Option Item
  deriving DecidableEq, Repr

/-- The critical section of `xQueueGenericSend`, and what the call returns if it returns behind it. -/
def QueueItems.send (q : QueueItems) (item : Item) (xPosition : CopyPosition) : Option (QueueItems × Result) :=
  if q.uxMessagesWaiting < q.uxLength ∨ xPosition = .overwrite then
    (q.prvCopyDataToQueue item xPosition).map fun q' => (q', ⟨pdPASS, none⟩)
  else some (q, ⟨errQUEUE_FULL, none⟩)

/-- `xQueueReceive`. -/
def QueueItems.receive (q : QueueItems) : Option (QueueItems × Result) :=
  if 0 < q.uxMessagesWaiting then
    q.prvCopyDataFromQueue.map fun r =>
      ({ r.1 with uxMessagesWaiting := q.uxMessagesWaiting - 1 }, ⟨pdPASS, some r.2⟩)
  else some (q, ⟨errQUEUE_EMPTY, none⟩)

/-- `xQueuePeek`: the read position is set back. -/
def QueueItems.peek (q : QueueItems) : Option (QueueItems × Result) :=
  if 0 < q.uxMessagesWaiting then
    q.prvCopyDataFromQueue.map fun r => ({ r.1 with pcReadFrom := q.pcReadFrom }, ⟨pdPASS, some r.2⟩)
  else some (q, ⟨errQUEUE_EMPTY, none⟩)

def QueueItems.access (q : QueueItems) : Call → Option (QueueItems × Result)
  | .send item xPosition => q.send item xPosition
  | .receive => q.receive
  | .peek => q.peek

/-- What there is for a side: items to receive, or room to send to. -/
def QueueItems.avail (q : QueueItems) : Side → ℕ
  | .sender => q.uxLength - q.uxMessagesWaiting
  | .receiver => q.uxMessagesWaiting

/-- What is returned in vain. -/
def Call.failure : Call → Result
  | .send _ _ => ⟨errQUEUE_FULL, none⟩
  | _ => ⟨errQUEUE_EMPTY, none⟩

/-- What can come of a call. -/
def Call.Yields : Call → Result → Prop
  | .send item xPosition, r => r = (Call.send item xPosition).failure ∨ r = ⟨pdPASS, none⟩
  | c, r => r = c.failure ∨ ∃ item, r = ⟨pdPASS, some item⟩

/-- `errQUEUE_FULL` is the same number. -/
theorem Call.yields_failed (c : Call) : c.Yields ⟨errQUEUE_EMPTY, none⟩ := by
  cases c with
  | _ => exact .inl rfl

/-- What a result tells of a queue. -/
def Call.action (c : Call) (r : Result) : Fifo.Action Item :=
  match c with
  | .send item xPosition => if r.xReturn = pdPASS then xPosition.action item else .full
  | .receive => if r.xReturn = pdPASS then r.pvBuffer.elim .empty .take else .empty
  | .peek => if r.xReturn = pdPASS then r.pvBuffer.elim .empty .peek else .empty

section Access

variable {q : QueueItems} {l : List Item} {c : Call} {item : Item} {xPosition : CopyPosition}

theorem QueueItems.Holds.send (h : q.Holds l) (hsize : item.length = q.uxItemSize)
    (hone : xPosition = .overwrite → q.uxLength = 1) :
    ∃ q' r l', q.send item xPosition = some (q', r) ∧ (Call.send item xPosition).Yields r ∧
      Fifo.step q.uxLength l ((Call.send item xPosition).action r) = some l' ∧ q'.Holds l' ∧ q'.uxLength = q.uxLength ∧
      q'.uxItemSize = q.uxItemSize := by
  have hcount := h.count
  unfold QueueItems.send
  by_cases hroom : q.uxMessagesWaiting < q.uxLength ∨ xPosition = .overwrite
  · rw [if_pos hroom]
    cases xPosition with
    | sendToBack =>
      have hlt : l.length < q.uxLength := hcount ▸ hroom.resolve_right (by decide)
      obtain ⟨q', hcopy, hholds, hsame⟩ := h.toBack hsize hlt
      exact ⟨q', _, _, by rw [hcopy]; rfl, .inr rfl, if_pos hlt, hholds, hsame⟩
    | sendToFront =>
      have hlt : l.length < q.uxLength := hcount ▸ hroom.resolve_right (by decide)
      obtain ⟨q', hcopy, hholds, hsame⟩ := h.toFront hsize hlt
      exact ⟨q', _, _, by rw [hcopy]; rfl, .inr rfl, if_pos hlt, hholds, hsame⟩
    | overwrite =>
      obtain ⟨q', hcopy, hholds, hsame⟩ := h.overwrite hsize (hone rfl)
      exact ⟨q', _, _, by rw [hcopy]; rfl, .inr rfl, if_pos (hone rfl), hholds, hsame⟩
  · rw [if_neg hroom]
    have hfull : l.length = q.uxLength := by
      have := h.room
      omega
    exact ⟨q, _, l, rfl, .inl rfl, if_pos hfull, h, rfl, rfl⟩

theorem QueueItems.Holds.receive (h : q.Holds l) :
    ∃ q' r l', q.receive = some (q', r) ∧ Call.receive.Yields r ∧
      Fifo.step q.uxLength l (Call.receive.action r) = some l' ∧ q'.Holds l' ∧ q'.uxLength = q.uxLength ∧
      q'.uxItemSize = q.uxItemSize := by
  have hcount := h.count
  unfold QueueItems.receive
  cases l with
  | nil =>
    rw [if_neg (by rw [hcount]; exact Nat.lt_irrefl 0)]
    exact ⟨q, _, [], rfl, .inl rfl, rfl, h, rfl, rfl⟩
  | cons item l =>
    obtain ⟨q', hcopy, hback, hholds⟩ := h.copyFrom
    rw [if_pos (by rw [hcount]; exact Nat.succ_pos _), hcopy, ← hback]
    exact ⟨_, _, l, rfl, .inr ⟨item, rfl⟩, if_pos rfl, hholds, rfl, rfl⟩

theorem QueueItems.Holds.peek (h : q.Holds l) :
    ∃ q' r l', q.peek = some (q', r) ∧ Call.peek.Yields r ∧ Fifo.step q.uxLength l (Call.peek.action r) = some l' ∧
      q'.Holds l' ∧ q'.uxLength = q.uxLength ∧ q'.uxItemSize = q.uxItemSize := by
  have hcount := h.count
  unfold QueueItems.peek
  cases l with
  | nil =>
    rw [if_neg (by rw [hcount]; exact Nat.lt_irrefl 0)]
    exact ⟨q, _, [], rfl, .inl rfl, rfl, h, rfl, rfl⟩
  | cons item l =>
    obtain ⟨q', hcopy, hback, -⟩ := h.copyFrom
    rw [if_pos (by rw [hcount]; exact Nat.succ_pos _), hcopy]
    refine ⟨q, ⟨pdPASS, some item⟩, item :: l, ?_, .inr ⟨item, rfl⟩, if_pos rfl, h, rfl, rfl⟩
    rw [Option.map_some, hback]

/-- A call does with the items what a bounded queue does. -/
theorem QueueItems.Holds.access (h : q.Holds l) (hc : c.Valid q) :
    ∃ q' r l', q.access c = some (q', r) ∧ c.Yields r ∧ Fifo.step q.uxLength l (c.action r) = some l' ∧ q'.Holds l' ∧
      q'.uxLength = q.uxLength ∧ q'.uxItemSize = q.uxItemSize := by
  cases c with
  | send item xPosition => exact h.send hc.1 hc.2
  | receive => exact h.receive
  | peek => exact h.peek

/-- What is refused is not there. -/
theorem QueueItems.Holds.avail_refused {l' : List Item} {r : Result} (h : q.Holds l) (hy : c.Yields r)
    (hstep : Fifo.step q.uxLength l (c.action r) = some l') (hr : r.xReturn ≠ pdPASS) : q.avail c.side = 0 := by
  have hcount := h.count
  cases c with
  | send item xPosition =>
    rcases hy with rfl | rfl
    · obtain ⟨hfull, -⟩ := guard_eq_some.mp hstep
      show q.uxLength - q.uxMessagesWaiting = 0
      omega
    · exact absurd rfl hr
  | receive =>
    rcases hy with rfl | ⟨item, rfl⟩
    · obtain ⟨rfl, -⟩ := guard_eq_some.mp hstep
      exact hcount
    · exact absurd rfl hr
  | peek =>
    rcases hy with rfl | ⟨item, rfl⟩
    · obtain ⟨rfl, -⟩ := guard_eq_some.mp hstep
      exact hcount
    · exact absurd rfl hr

/-- A call takes one from what there is for its side, and what it leaves for the one it tells is at most one more. -/
theorem QueueItems.Holds.avail_served {q' : QueueItems} {l' : List Item} {r : Result} (h : q.Holds l)
    (h' : q'.Holds l') (hlen : q'.uxLength = q.uxLength) (hy : c.Yields r)
    (hstep : Fifo.step q.uxLength l (c.action r) = some l') (hr : r.xReturn = pdPASS) (d : Side) :
    q'.avail d ≤ (if d = c.side then q.avail d - 1 else q.avail d) + if d = c.tells then 1 else 0 := by
  have hcount := h.count
  have hcount' := h'.count
  cases c with
  | send item xPosition =>
    rcases hy with rfl | rfl
    · cases hr
    · have hlength : l.length < l'.length ∨ q.uxLength ≤ l'.length ∧ l'.length = 1 := by
        cases xPosition with
        | sendToBack =>
          obtain ⟨-, rfl⟩ := guard_eq_some.mp hstep
          exact .inl (by rw [List.length_append, List.length_singleton]; exact Nat.lt_succ_self _)
        | sendToFront =>
          obtain ⟨-, rfl⟩ := guard_eq_some.mp hstep
          exact .inl (Nat.lt_succ_self _)
        | overwrite =>
          obtain ⟨hone, rfl⟩ := guard_eq_some.mp hstep
          exact .inr ⟨Nat.le_of_eq hone, rfl⟩
      have hmore : l'.length ≤ l.length + 1 := by
        cases xPosition with
        | sendToBack =>
          obtain ⟨-, rfl⟩ := guard_eq_some.mp hstep
          exact Nat.le_of_eq (by rw [List.length_append, List.length_singleton])
        | sendToFront =>
          obtain ⟨-, rfl⟩ := guard_eq_some.mp hstep
          exact le_refl _
        | overwrite =>
          obtain ⟨-, rfl⟩ := guard_eq_some.mp hstep
          exact Nat.succ_le_succ (Nat.zero_le _)
      cases d with
      | sender =>
        show q'.uxLength - q'.uxMessagesWaiting ≤ q.uxLength - q.uxMessagesWaiting - 1 + 0
        omega
      | receiver =>
        show q'.uxMessagesWaiting ≤ q.uxMessagesWaiting + 1
        omega
  | receive =>
    rcases hy with rfl | ⟨item, rfl⟩
    · cases hr
    · obtain ⟨-, rfl⟩ := guard_eq_some.mp hstep
      rw [List.length_tail] at hcount'
      cases d with
      | sender =>
        show q'.uxLength - q'.uxMessagesWaiting ≤ q.uxLength - q.uxMessagesWaiting + 1
        omega
      | receiver =>
        show q'.uxMessagesWaiting ≤ q.uxMessagesWaiting - 1 + 0
        omega
  | peek =>
    rcases hy with rfl | ⟨item, rfl⟩
    · cases hr
    · obtain ⟨hhead, rfl⟩ := guard_eq_some.mp hstep
      obtain ⟨rest, rfl⟩ := List.head?_eq_some_iff.mp hhead
      cases d with
      | sender =>
        show q'.uxLength - q'.uxMessagesWaiting ≤ q.uxLength - q.uxMessagesWaiting + 0
        omega
      | receiver =>
        show q'.uxMessagesWaiting ≤ q.uxMessagesWaiting - 1 + 1
        omega

end Access

/-! ## The queue with its waiting tasks -/

def queueUNLOCKED : ℤ := -1

def queueLOCKED_UNMODIFIED : ℤ := 0

/-- A cast to `int8_t`. -/
def int8 (i : ℤ) : ℤ := (i + 128) % 256 - 128

/-- `Queue_t`. -/
structure Queue extends QueueItems where
  cRxLock : ℤ
  cTxLock : ℤ
  xTasksWaitingToSend : List TaskHandle
  xTasksWaitingToReceive : List TaskHandle
  deriving DecidableEq, Repr

namespace Queue

/-- The list of the tasks that wait on a side. -/
def waiting (q : Queue) : Side → List TaskHandle
  | .sender => q.xTasksWaitingToSend
  | .receiver => q.xTasksWaitingToReceive

def setWaiting (q : Queue) (ts : List TaskHandle) : Side → Queue
  | .sender => { q with xTasksWaitingToSend := ts }
  | .receiver => { q with xTasksWaitingToReceive := ts }

/-- The count of what the tasks that wait on a side have not been told yet. -/
def lock (q : Queue) : Side → ℤ
  | .sender => q.cRxLock
  | .receiver => q.cTxLock

def setLock (q : Queue) (count : ℤ) : Side → Queue
  | .sender => { q with cRxLock := count }
  | .receiver => { q with cTxLock := count }

/-- `xTaskRemoveFromEventList`, where the list is not empty: its first task is ready to run again. -/
def tell (q : Queue) (d : Side) : Queue := q.setWaiting (q.waiting d).tail d

/-- `vTaskPlaceOnEventList`: the list is ordered by priority, and among equal ones by age. -/
def vTaskPlaceOnEventList (prio : TaskHandle → ℕ) (q : Queue) (t : TaskHandle) (d : Side) : Queue :=
  q.setWaiting ((q.waiting d).orderedInsert (fun a b => prio b < prio a) t) d

def prvLockQueue (q : Queue) : Queue :=
  { q with
    cRxLock := if q.cRxLock = queueUNLOCKED then queueLOCKED_UNMODIFIED else q.cRxLock
    cTxLock := if q.cTxLock = queueUNLOCKED then queueLOCKED_UNMODIFIED else q.cTxLock }

/-- The loop of `prvUnlockQueue` for one count. -/
def tellCounted : ℤ → List TaskHandle → List TaskHandle
  | _, [] => []
  | count, t :: ts => if queueLOCKED_UNMODIFIED < count then tellCounted (count - 1) ts else t :: ts

/-- One of the two critical sections of `prvUnlockQueue`. -/
def prvUnlockQueue (q : Queue) (d : Side) : Queue :=
  (q.setWaiting (tellCounted (q.lock d) (q.waiting d)) d).setLock queueUNLOCKED d

/-- An interrupt tells the waiting tasks, or counts it while the queue is locked. -/
def tellFromISR (q : Queue) (d : Side) : Queue :=
  if q.lock d = queueUNLOCKED then q.tell d else q.setLock (int8 (q.lock d + 1)) d

end Queue

/-! ## Tasks -/

/-- How a task goes on behind the unlocking of the queue. -/
inductive Next
  | again
  | blocked
  | expired
  deriving DecidableEq, Repr

/-- Where a task is in its call. -/
inductive Place
  | idle
  /-- At the top of the loop; `wait` is `xTicksToWait != 0`. -/
  | enter (c : Call) (wait : Bool)
  /-- The critical section has been left without success. -/
  | refused (c : Call)
  | locked (c : Call)
  /-- Before `vTaskPlaceOnEventList`. -/
  | place (c : Call)
  | unlockTx (c : Call) (next : Next)
  | unlockRx (c : Call) (next : Next)
  /-- Before `xTaskResumeAll`. -/
  | resume (c : Call) (next : Next)
  | blocked (c : Call)
  /-- The time of a receiver is over, before it looks a last time. -/
  | expired (c : Call)
  deriving DecidableEq, Repr

/-- A call that has returned, of a task or, where there is none, of an interrupt. -/
structure Return where
  caller : Option TaskHandle
  call : Call
  result : Result
  deriving DecidableEq, Repr

/-- A queue, and the tasks at it.  `returned` has the newest first, and `fault` is set by a copy outside the storage
area. -/
structure Kernel where
  queue : Queue
  place : TaskHandle → Place
  suspendedBy : Option TaskHandle
  returned : List Return
  fault : Bool

inductive Event
  | call (t : TaskHandle) (c : Call) (wait : Bool)
  /-- The task runs to the end of its next section; `timedOut` is what `xTaskCheckForTimeOut` says, and behind a time-out
  whether it has left `xTicksToWait` as it was (the tick count has gone all the way round) instead of setting it to 0. -/
  | run (t : TaskHandle) (timedOut : Bool)
  /-- The time of a blocked task is over. -/
  | tick (t : TaskHandle)
  /-- `xQueueGenericSendFromISR`, `xQueueReceiveFromISR`, `xQueuePeekFromISR`. -/
  | fromISR (c : Call)
  /-- `xQueueReset` of a queue in use. -/
  | reset
  deriving DecidableEq, Repr

namespace Kernel

/-- `xQueueGenericCreate`, before any call. -/
def create (uxQueueLength uxItemSize : ℕ) (storage : List UInt8) : Kernel where
  queue :=
    { QueueItems.prvInitialiseNewQueue uxQueueLength uxItemSize storage with
      cRxLock := queueUNLOCKED
      cTxLock := queueUNLOCKED
      xTasksWaitingToSend := []
      xTasksWaitingToReceive := [] }
  place _ := .idle
  suspendedBy := none
  returned := []
  fault := false

def goto (s : Kernel) (t : TaskHandle) (p : Place) : Kernel := { s with place := Function.update s.place t p }

def withItems (s : Kernel) (items : QueueItems) : Kernel := { s with queue := { s.queue with toQueueItems := items } }

def returns (s : Kernel) (caller : Option TaskHandle) (c : Call) (r : Result) : Kernel :=
  { s with returned := ⟨caller, c, r⟩ :: s.returned }

/-- The critical section at the top of the loop of a call. -/
def enter (s : Kernel) (t : TaskHandle) (c : Call) (wait : Bool) : Kernel :=
  match s.queue.access c with
  | none => { s with fault := true }
  | some (items, r) =>
    if r.xReturn = pdPASS then
      let s := s.withItems items
      ({ s with queue := s.queue.tell c.tells }.goto t .idle).returns (some t) c r
    else if wait then s.goto t (.refused c)
    else (s.goto t .idle).returns (some t) c r

/-- The check of a task that has locked the queue: it waits if there is still nothing for it, and its time is not over. -/
def check (s : Kernel) (t : TaskHandle) (c : Call) (timedOut : Bool) : Kernel :=
  if timedOut then s.goto t (.unlockTx c .expired)
  else if s.queue.avail c.side = 0 then s.goto t (.place c)
  else s.goto t (.unlockTx c .again)

/-- `xTaskResumeAll`, and what follows it. -/
def resume (s : Kernel) (t : TaskHandle) (c : Call) (next : Next) : Kernel :=
  match next with
  | .again => { s with suspendedBy := none }.goto t (.enter c true)
  | .blocked => { s with suspendedBy := none }.goto t (.blocked c)
  -- a sender returns, a receiver looks once more
  | .expired =>
    if c.side = Side.sender then ({ s with suspendedBy := none }.goto t .idle).returns (some t) c ⟨errQUEUE_FULL, none⟩
    else { s with suspendedBy := none }.goto t (.expired c)

/-- The next section of a task. -/
def run (prio : TaskHandle → ℕ) (s : Kernel) (t : TaskHandle) (timedOut : Bool) : Option Kernel :=
  match s.place t with
  | .idle => none
  | .enter c wait => some (s.enter t c wait)
  | .refused c => some ({ s with queue := s.queue.prvLockQueue, suspendedBy := some t }.goto t (.locked c))
  | .locked c => some (s.check t c timedOut)
  | .place c =>
    some ({ s with queue := s.queue.vTaskPlaceOnEventList prio t c.side }.goto t (.unlockTx c .blocked))
  | .unlockTx c next => some ({ s with queue := s.queue.prvUnlockQueue .receiver }.goto t (.unlockRx c next))
  | .unlockRx c next => some ({ s with queue := s.queue.prvUnlockQueue .sender }.goto t (.resume c next))
  | .resume c next => some (s.resume t c next)
  | .blocked c => if t ∈ s.queue.waiting c.side then none else some (s.goto t (.enter c true))
  | .expired c =>
    if s.queue.uxMessagesWaiting = 0 then some ((s.goto t .idle).returns (some t) c ⟨errQUEUE_EMPTY, none⟩)
    else some (s.goto t (.enter c timedOut))

/-- The tick takes a blocked task off its list. -/
def tick (s : Kernel) (t : TaskHandle) : Option Kernel :=
  match s.place t with
  | .blocked c =>
    if t ∈ s.queue.waiting c.side then
      some { s with queue := s.queue.setWaiting ((s.queue.waiting c.side).erase t) c.side }
    else none
  | _ => none

/-- A call from an interrupt. -/
def fromISR (s : Kernel) (c : Call) : Kernel :=
  match s.queue.access c with
  | none => { s with fault := true }
  | some (items, r) =>
    if r.xReturn = pdPASS then
      let s := s.withItems items
      let s := if c = .peek then s else { s with queue := s.queue.tellFromISR c.tells }
      s.returns none c r
    else s.returns none c r

def reset (s : Kernel) : Kernel :=
  let s := s.withItems s.queue.xQueueGenericReset
  { s with queue := Queue.tell { s.queue with cRxLock := queueUNLOCKED, cTxLock := queueUNLOCKED } .sender }

def step (prio : TaskHandle → ℕ) (s : Kernel) : Event → Option Kernel
  | .call t c wait =>
    if s.suspendedBy = none ∧ s.place t = .idle ∧ c.Valid s.queue.toQueueItems then some (s.goto t (.enter c wait))
    else none
  | .run t timedOut => if s.suspendedBy = none ∨ s.suspendedBy = some t then s.run prio t timedOut else none
  | .tick t => if s.suspendedBy = none then s.tick t else none
  | .fromISR c => if c.Valid s.queue.toQueueItems then some (s.fromISR c) else none
  | .reset => if s.suspendedBy = none then some s.reset else none

/-- What is seen of the next section of a task. -/
def seen (s : Kernel) (t : TaskHandle) : Option (Fifo.Action Item) :=
  match s.place t with
  | .enter c _ => (s.queue.access c).map fun r => c.action r.2
  | _ => none

/-- What is seen of a step. -/
def act (s : Kernel) : Event → Option (Fifo.Action Item)
  | .run t _ => s.seen t
  | .fromISR c => (s.queue.access c).map fun r => c.action r.2
  | .reset => some .clear
  | _ => none

end Kernel

/-! ## What the calls do with the items -/

section Items

variable {q : Queue} {d : Side}

theorem Queue.items_setWaiting {ts : List TaskHandle} : (q.setWaiting ts d).toQueueItems = q.toQueueItems := by
  cases d <;> rfl

theorem Queue.items_setLock {count : ℤ} : (q.setLock count d).toQueueItems = q.toQueueItems := by
  cases d <;> rfl

theorem Queue.items_tell : (q.tell d).toQueueItems = q.toQueueItems := items_setWaiting

theorem Queue.items_prvUnlockQueue : (q.prvUnlockQueue d).toQueueItems = q.toQueueItems :=
  items_setLock.trans items_setWaiting

theorem Queue.items_tellFromISR : (q.tellFromISR d).toQueueItems = q.toQueueItems := by
  unfold Queue.tellFromISR
  by_cases hopen : q.lock d = queueUNLOCKED
  · rw [if_pos hopen, items_tell]
  · rw [if_neg hopen, items_setLock]

/-- The call that a task is in. -/
def Place.call : Place → Option Call
  | .idle => none
  | .enter c _ => some c
  | .refused c => some c
  | .locked c => some c
  | .place c => some c
  | .unlockTx c _ => some c
  | .unlockRx c _ => some c
  | .resume c _ => some c
  | .blocked c => some c
  | .expired c => some c

/-- A state whose queue has the items of `l`, and whose tasks are in calls that the assertions admit. -/
structure Kernel.Refines (n size : ℕ) (s : Kernel) (l : List Item) : Prop where
  fault : s.fault = false
  holds : s.queue.toQueueItems.Holds l
  length : s.queue.uxLength = n
  size : s.queue.uxItemSize = size
  valid : ∀ t, ∀ c ∈ (s.place t).call, c.Valid s.queue.toQueueItems
  returned : ∀ r ∈ s.returned, r.call.Yields r.result

namespace Kernel

variable {n size : ℕ} {s s' : Kernel} {l l' : List Item} {t : TaskHandle} {p : Place} {c : Call} {e : Event}
variable {items : QueueItems} {r : Result} {caller : Option TaskHandle} {prio : TaskHandle → ℕ}

theorem Refines.returns (h : s.Refines n size l) (hy : c.Yields r) : (s.returns caller c r).Refines n size l where
  fault := h.fault
  holds := h.holds
  length := h.length
  size := h.size
  valid := h.valid
  returned := List.forall_mem_cons.mpr ⟨hy, h.returned⟩

theorem Refines.goto (h : s.Refines n size l) (hp : ∀ c ∈ p.call, c.Valid s.queue.toQueueItems) :
    (s.goto t p).Refines n size l where
  fault := h.fault
  holds := h.holds
  length := h.length
  size := h.size
  valid u := by
    by_cases hu : u = t
    · show ∀ c ∈ (Function.update s.place t p u).call, _
      rw [hu, Function.update_self]
      exact hp
    · show ∀ c ∈ (Function.update s.place t p u).call, _
      rw [Function.update_of_ne hu]
      exact h.valid u
  returned := h.returned

/-- A step to another place of the same call. -/
theorem Refines.move (h : s.Refines n size l) (hp : p.call = none ∨ p.call = (s.place t).call) :
    (s.goto t p).Refines n size l := by
  refine h.goto fun c hc => ?_
  rcases hp with hp | hp
  · rw [hp] at hc
    cases hc
  · exact h.valid t c (hp ▸ hc)

/-- Neither the lists nor the counts change what the queue holds. -/
theorem Refines.queue (h : s.Refines n size l) {q : Queue} {holder : Option TaskHandle}
    (hq : q.toQueueItems = s.queue.toQueueItems) :
    { s with queue := q, suspendedBy := holder }.Refines n size l where
  fault := h.fault
  holds := hq ▸ h.holds
  length := (congrArg QueueItems.uxLength hq).trans h.length
  size := (congrArg QueueItems.uxItemSize hq).trans h.size
  valid := hq ▸ h.valid
  returned := h.returned

theorem valid_congr {q q' : QueueItems} (hlen : q'.uxLength = q.uxLength) (hsize : q'.uxItemSize = q.uxItemSize)
    (hc : c.Valid q) : c.Valid q' := by
  cases c with
  | send item xPosition => exact ⟨hc.1.trans hsize.symm, fun hover => hlen.trans (hc.2 hover)⟩
  | receive => trivial
  | peek => trivial

theorem Refines.withItems (h : s.Refines n size l) (hholds : items.Holds l') (hlen : items.uxLength = s.queue.uxLength)
    (hsize : items.uxItemSize = s.queue.uxItemSize) : (s.withItems items).Refines n size l' where
  fault := h.fault
  holds := hholds
  length := hlen.trans h.length
  size := hsize.trans h.size
  valid t c hc := valid_congr hlen hsize (h.valid t c hc)
  returned := h.returned

/-- What has been refused leaves the items as they are. -/
theorem eq_of_refused {l' : List Item} (hy : c.Yields r) (hr : r.xReturn ≠ pdPASS)
    (hstep : Fifo.step n l (c.action r) = some l') : l' = l := by
  cases c with
  | send item xPosition =>
    rcases hy with rfl | rfl
    · exact (guard_eq_some.mp hstep).2
    · exact absurd rfl hr
  | receive =>
    rcases hy with rfl | ⟨item, rfl⟩
    · exact (guard_eq_some.mp hstep).2
    · exact absurd rfl hr
  | peek =>
    rcases hy with rfl | ⟨item, rfl⟩
    · exact (guard_eq_some.mp hstep).2
    · exact absurd rfl hr

/-- The critical section of a call is a step of the bounded queue. -/
theorem Refines.enter (h : s.Refines n size l) (wait : Bool) (hc : (s.place t).call = some c) :
    ∃ items r l', s.queue.access c = some (items, r) ∧ Fifo.step n l (c.action r) = some l' ∧
      (s.enter t c wait).Refines n size l' := by
  obtain ⟨items, r, l', haccess, hy, hstep, hholds, hlen, hsize⟩ := h.holds.access (h.valid t c hc)
  have hstep' : Fifo.step n l (c.action r) = some l' := h.length ▸ hstep
  refine ⟨items, r, l', haccess, hstep', ?_⟩
  unfold Kernel.enter
  rw [haccess]
  dsimp only
  by_cases hr : r.xReturn = pdPASS
  · rw [if_pos hr]
    exact (((h.withItems hholds hlen hsize).queue Queue.items_tell).move (.inl rfl)).returns hy
  · obtain rfl := eq_of_refused hy hr hstep'
    rw [if_neg hr]
    by_cases hw : wait = true
    · rw [if_pos hw]
      exact h.move (.inr hc.symm)
    · rw [if_neg hw]
      exact (h.move (.inl rfl)).returns hy

theorem Refines.fromISR (h : s.Refines n size l) (hc : c.Valid s.queue.toQueueItems) :
    ∃ items r l', s.queue.access c = some (items, r) ∧ Fifo.step n l (c.action r) = some l' ∧
      (s.fromISR c).Refines n size l' := by
  obtain ⟨items, r, l', haccess, hy, hstep, hholds, hlen, hsize⟩ := h.holds.access hc
  have hstep' : Fifo.step n l (c.action r) = some l' := h.length ▸ hstep
  refine ⟨items, r, l', haccess, hstep', ?_⟩
  unfold Kernel.fromISR
  rw [haccess]
  dsimp only
  by_cases hr : r.xReturn = pdPASS
  · rw [if_pos hr]
    by_cases hpeek : c = .peek
    · rw [if_pos hpeek]
      exact (h.withItems hholds hlen hsize).returns hy
    · rw [if_neg hpeek]
      exact ((h.withItems hholds hlen hsize).queue Queue.items_tellFromISR).returns hy
  · obtain rfl := eq_of_refused hy hr hstep'
    rw [if_neg hr]
    exact h.returns hy

/-- A section of a task is the critical section of its call, or leaves the items as they are. -/
theorem Refines.run (h : s.Refines n size l) {timedOut : Bool} (hstep : s.run prio t timedOut = some s') :
    (s.seen t = none ∧ s'.Refines n size l) ∨
      ∃ a l', s.seen t = some a ∧ Fifo.step n l a = some l' ∧ s'.Refines n size l' := by
  unfold Kernel.run at hstep
  unfold Kernel.seen
  cases hp : s.place t with
  | idle =>
    rw [hp] at hstep
    cases hstep
  | enter c wait =>
    rw [hp] at hstep
    obtain rfl := Option.some.inj hstep
    obtain ⟨items, r, l', haccess, hfifo, hnext⟩ := h.enter wait (congrArg Place.call hp)
    exact .inr ⟨c.action r, l', congrArg (Option.map fun r => c.action r.2) haccess, hfifo, hnext⟩
  | refused c =>
    rw [hp] at hstep
    obtain rfl := Option.some.inj hstep
    exact .inl ⟨rfl, (h.queue (q := s.queue.prvLockQueue) rfl).move (.inr (congrArg Place.call hp).symm)⟩
  | locked c =>
    rw [hp] at hstep
    obtain rfl := Option.some.inj hstep
    refine .inl ⟨rfl, ?_⟩
    unfold Kernel.check
    by_cases ht : timedOut = true
    · rw [if_pos ht]
      exact h.move (.inr (congrArg Place.call hp).symm)
    · rw [if_neg ht]
      by_cases hav : s.queue.avail c.side = 0
      · rw [if_pos hav]
        exact h.move (.inr (congrArg Place.call hp).symm)
      · rw [if_neg hav]
        exact h.move (.inr (congrArg Place.call hp).symm)
  | place c =>
    rw [hp] at hstep
    obtain rfl := Option.some.inj hstep
    exact .inl ⟨rfl, (h.queue Queue.items_setWaiting).move (.inr (congrArg Place.call hp).symm)⟩
  | unlockTx c next =>
    rw [hp] at hstep
    obtain rfl := Option.some.inj hstep
    exact .inl ⟨rfl, (h.queue Queue.items_prvUnlockQueue).move (.inr (congrArg Place.call hp).symm)⟩
  | unlockRx c next =>
    rw [hp] at hstep
    obtain rfl := Option.some.inj hstep
    exact .inl ⟨rfl, (h.queue Queue.items_prvUnlockQueue).move (.inr (congrArg Place.call hp).symm)⟩
  | resume c next =>
    rw [hp] at hstep
    obtain rfl := Option.some.inj hstep
    refine .inl ⟨rfl, ?_⟩
    cases next with
    | again => exact (h.queue (q := s.queue) rfl).move (.inr (congrArg Place.call hp).symm)
    | blocked => exact (h.queue (q := s.queue) rfl).move (.inr (congrArg Place.call hp).symm)
    | expired =>
      unfold Kernel.resume
      by_cases hside : c.side = .sender
      · rw [if_pos hside]
        exact ((h.queue (q := s.queue) rfl).move (.inl rfl)).returns c.yields_failed
      · rw [if_neg hside]
        exact (h.queue (q := s.queue) rfl).move (.inr (congrArg Place.call hp).symm)
  | blocked c =>
    rw [hp] at hstep
    obtain ⟨-, hgo⟩ := Option.ite_none_left_eq_some.mp hstep
    obtain rfl := Option.some.inj hgo
    exact .inl ⟨rfl, h.move (.inr (congrArg Place.call hp).symm)⟩
  | expired c =>
    rw [hp] at hstep
    dsimp only at hstep
    refine .inl ⟨rfl, ?_⟩
    by_cases hnone : s.queue.uxMessagesWaiting = 0
    · rw [if_pos hnone] at hstep
      obtain rfl := Option.some.inj hstep
      exact (h.move (.inl rfl)).returns c.yields_failed
    · rw [if_neg hnone] at hstep
      obtain rfl := Option.some.inj hstep
      exact h.move (.inr (congrArg Place.call hp).symm)

theorem Refines.tick (h : s.Refines n size l) (hstep : s.tick t = some s') : s'.Refines n size l := by
  unfold Kernel.tick at hstep
  cases hp : s.place t with
  | blocked c =>
    rw [hp] at hstep
    obtain ⟨-, rfl⟩ := guard_eq_some.mp hstep
    exact h.queue Queue.items_setWaiting
  | _ =>
    rw [hp] at hstep
    cases hstep

theorem Refines.reset (h : s.Refines n size l) (hn : 0 < n) : s.reset.Refines n size [] :=
  (h.withItems (h.holds.reset (h.length ▸ hn)) rfl rfl).queue Queue.items_tell

theorem refines_create {storage : List UInt8} (hn : 0 < n) (hpos : 0 < size) (hlen : storage.length = n * size) :
    (create n size storage).Refines n size [] where
  fault := rfl
  holds := holds_init hn hpos hlen
  length := rfl
  size := rfl
  valid _ _ hc := nomatch hc
  returned _ hr := nomatch hr

theorem Refines.step (h : s.Refines n size l) (hn : 0 < n) (hstep : s.step prio e = some s') :
    (act s e = none ∧ s'.Refines n size l) ∨
      ∃ a l', act s e = some a ∧ Fifo.step n l a = some l' ∧ s'.Refines n size l' := by
  cases e with
  | call t c wait =>
    obtain ⟨⟨-, -, hc⟩, rfl⟩ := guard_eq_some.mp hstep
    refine .inl ⟨rfl, h.goto fun c' hc' => ?_⟩
    obtain rfl : c = c' := Option.some.inj hc'
    exact hc
  | run t timedOut =>
    obtain ⟨-, hrun⟩ := Option.ite_none_right_eq_some.mp hstep
    exact h.run hrun
  | tick t =>
    obtain ⟨-, htick⟩ := Option.ite_none_right_eq_some.mp hstep
    exact .inl ⟨rfl, h.tick htick⟩
  | fromISR c =>
    obtain ⟨hc, rfl⟩ := guard_eq_some.mp hstep
    obtain ⟨items, r, l', haccess, hfifo, hnext⟩ := h.fromISR hc
    exact .inr ⟨c.action r, l', congrArg (Option.map fun r : QueueItems × Result => c.action r.2) haccess, hfifo, hnext⟩
  | reset =>
    obtain ⟨-, rfl⟩ := guard_eq_some.mp hstep
    exact .inr ⟨.clear, [], rfl, rfl, h.reset hn⟩

end Kernel

end Items

end Thronix.KernelQueue
