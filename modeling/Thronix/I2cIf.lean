import Thronix.Platform
import Thronix.Lib.Runs
import Mathlib.Logic.Function.Basic

/-!
# Thronix.I2cIf — the I2C driver

`common/i2c_if.c`: tasks call `I2C_IF_Write`, `I2C_IF_Read` and `I2C_IF_ReadFrom`, which queue a transaction and wait for
a notification; `I2C_IF_ISR` works through the queue.

* `I2c`: the driver's variables, the interrupt's enable and pending flags, the memory, and for each task its
  notification and where it stands in a call.  `bus` and `calls` record the controller accesses and the kernel calls.
* `i2cIfIsr`: one run of the interrupt routine.  `IsrInput` is what the hardware answers: the masked status, the result
  of the (at most one) `I2CTransact`, the data register.
* `I2cEvent`, `I2c.step`: the steps of the tasks between which an interrupt or another task may come, and the entries of
  the routine.  The kernel's critical sections mask the interrupt, and tasks do not run during it.
-/

namespace Thronix

open Lib

/-! ## Transactions -/

abbrev TaskHandle := ℕ

/-- `I2C_COMMAND_WRITE`, `I2C_COMMAND_READ`, `I2C_COMMAND_READ_FROM`. -/
inductive I2cCommand
  | write
  | read
  | readFrom
  deriving DecidableEq, Repr

/-- `I2C_Transaction`; the buffer is an address. -/
structure I2cTransaction where
  originTask : TaskHandle
  buffer : ℕ
  rxlenght : BitVec 8
  txlenght : BitVec 8
  command : I2cCommand
  devAddress : BitVec 8
  deriving DecidableEq, Repr

/-- `g_i2cisrstate`. -/
inductive IsrState
  | idle
  | writeNext
  | writeFinal
  | readNext
  | readFinal
  deriving DecidableEq, Repr

/-- The commands `I2C_MASTER_CMD_..` that the driver gives. -/
inductive MasterCmd
  | singleReceive
  | burstSendStart
  | burstSendCont
  | burstSendFinish
  | burstSendStop
  | burstSendErrorStop
  | burstReceiveStart
  | burstReceiveCont
  | burstReceiveFinish
  | burstReceiveErrorStop
  deriving DecidableEq, Repr

/-- An access to the I2C controller. -/
inductive BusOp
  | slaveAddrSet (addr : BitVec 8) (receive : Bool)
  | dataPut (b : BitVec 8)
  | dataGet (b : BitVec 8)
  | control (cmd : MasterCmd)
  deriving DecidableEq, Repr

def i2cNotifyReadComplete : BitVec 32 := 0x01

def i2cNotifyWriteComplete : BitVec 32 := 0x02

def i2cNotifyErr : BitVec 32 := 0x04

/-- The bits that a call's loop waits for. -/
def I2cCommand.awaited : I2cCommand → BitVec 32
  | .write => i2cNotifyWriteComplete ||| i2cNotifyErr
  | .read => i2cNotifyReadComplete ||| i2cNotifyErr
  | .readFrom => i2cNotifyReadComplete ||| i2cNotifyErr

/-- The bits that a call's `xTaskNotifyWait` clears on exit. -/
def I2cCommand.clearedOnExit : I2cCommand → BitVec 32
  | .write => i2cNotifyWriteComplete ||| i2cNotifyErr
  | .read => i2cNotifyReadComplete ||| i2cNotifyErr
  | .readFrom => i2cNotifyWriteComplete ||| i2cNotifyReadComplete ||| i2cNotifyErr

/-! ## The calls -/

/-- A call with its arguments; address 0 is `NULL`. -/
inductive I2cRequest
  | write (ucDevAddr : BitVec 8) (pucData : ℕ) (ucLen ucStop : BitVec 8)
  | read (ucDevAddr : BitVec 8) (pucData : ℕ) (ucLen : BitVec 8)
  | readFrom (ucDevAddr : BitVec 8) (pucWrDataBuf : ℕ) (ucWrLen : BitVec 8) (pucRdDataBuf : ℕ) (ucRdLen : BitVec 8)
  deriving DecidableEq, Repr

/-- The `RETERR_IF_TRUE` conditions; the last one of `I2C_IF_ReadFrom` compares `ucWrLen` with itself. -/
def I2cRequest.rejected : I2cRequest → Bool
  | .write _ pucData ucLen ucStop => pucData == 0 || ucLen == 0 || ucStop == 0
  | .read _ pucData ucLen => pucData == 0 || ucLen == 0
  | .readFrom _ pucWrDataBuf ucWrLen pucRdDataBuf _ =>
    pucRdDataBuf == 0 || pucWrDataBuf == 0 || ucWrLen == 0 || decide (ucWrLen > ucWrLen)

def I2cRequest.transaction (task : TaskHandle) : I2cRequest → I2cTransaction
  | .write ucDevAddr pucData ucLen _ => ⟨task, pucData, 0, ucLen, .write, ucDevAddr⟩
  | .read ucDevAddr pucData ucLen => ⟨task, pucData, ucLen, 0, .read, ucDevAddr⟩
  | .readFrom ucDevAddr _ ucWrLen pucRdDataBuf ucRdLen => ⟨task, pucRdDataBuf, ucRdLen, ucWrLen, .readFrom, ucDevAddr⟩

/-- `memcpy` on buffers that do not overlap. -/
def memcpy (mem : ℕ → BitVec 8) (dst src n : ℕ) : ℕ → BitVec 8 :=
  fun a => if dst ≤ a ∧ a < dst + n then mem (src + (a - dst)) else mem a

/-- The memory after the copy that `I2C_IF_ReadFrom` makes before it queues. -/
def I2cRequest.copied (mem : ℕ → BitVec 8) : I2cRequest → ℕ → BitVec 8
  | .readFrom _ pucWrDataBuf ucWrLen pucRdDataBuf _ => memcpy mem pucRdDataBuf pucWrDataBuf ucWrLen.toNat
  | _ => mem

/-! ## State -/

/-- `ucNotifyState`. -/
inductive NotifyState
  | notWaiting
  | waiting
  | received
  deriving DecidableEq, Repr

/-- The notification of a task. -/
structure Tcb where
  ulNotifiedValue : BitVec 32
  ucNotifyState : NotifyState
  deriving DecidableEq, Repr

/-- The first critical section of `xTaskNotifyWait`: nothing is cleared on entry. -/
def Tcb.enterWait (n : Tcb) : Tcb :=
  if n.ucNotifyState ≠ .received then { n with ucNotifyState := .waiting } else n

/-- Where a task stands in its call. -/
inductive CallPc
  | out
  | send (t : I2cTransaction)
  | test (c : I2cCommand)
  | pend (c : I2cCommand)
  | wait (c : I2cCommand)
  | blocked (c : I2cCommand)
  | ret (r : Status)
  deriving DecidableEq, Repr

/-- A kernel call, or the return of a call that queued a transaction. -/
inductive KernelCall
  | xQueueSend (t : I2cTransaction)
  | xQueueReceive (t : I2cTransaction)
  | xTaskNotify (task : TaskHandle) (bits : BitVec 32)
  | ret (task : TaskHandle) (r : Status)
  deriving DecidableEq, Repr

structure I2c where
  gI2cIsrState : IsrState
  gI2cQueue : List I2cTransaction
  transaction : I2cTransaction
  tmpptr : ℕ
  mem : ℕ → BitVec 8
  /-- The data, timeout and NACK interrupts are enabled. -/
  enabled : Bool
  /-- `INT_I2CA0` is pending in the interrupt controller. -/
  pended : Bool
  tcb : TaskHandle → Tcb
  pc : TaskHandle → CallPc
  bus : List BusOp
  calls : List KernelCall

/-- After `I2C_IF_Open`, no call made yet. -/
def I2c.init (mem : ℕ → BitVec 8) : I2c :=
  ⟨.idle, [], ⟨0, 0, 0, 0, .write, 0⟩, 0, mem, false, false, fun _ => ⟨0, .notWaiting⟩, fun _ => .out, [], []⟩

/-! ## The interrupt routine -/

/-- `MAP_I2CMasterIntStatusEx(I2C_BASE, true)`: a timeout or NACK, a completion, or neither. -/
inductive IntStatus
  | none
  | data
  | error
  deriving DecidableEq, Repr

/-- What one run of the routine finds. -/
structure IsrInput where
  status : IntStatus
  /-- `I2CTransact` returns `SUCCESS`. -/
  transact : Bool
  /-- `I2CMasterDataGet`. -/
  data : BitVec 8
  deriving DecidableEq, Repr

/-- What `I2CTransact` orders after an error. -/
def MasterCmd.errorStop : MasterCmd → List BusOp
  | .burstSendStart | .burstSendCont | .burstSendStop => [.control .burstSendErrorStop]
  | .burstReceiveStart | .burstReceiveCont | .burstReceiveFinish => [.control .burstReceiveErrorStop]
  | _ => []

namespace I2c

def access (s : I2c) (ops : List BusOp) : I2c := { s with bus := s.bus ++ ops }

/-- `I2CTransact` with its result. -/
def i2cTransact (s : I2c) (cmd : MasterCmd) (ok : Bool) : I2c :=
  s.access (.control cmd :: if ok then [] else cmd.errorStop)

/-- `xQueueReceiveFromISR` into `transaction`. -/
def xQueueReceiveFromIsr (s : I2c) : I2c :=
  match s.gI2cQueue with
  | [] => s
  | t :: q => { s with gI2cQueue := q, transaction := t, calls := s.calls ++ [.xQueueReceive t] }

/-- `xTaskNotifyFromISR` to the origin of `transaction`, with `eSetBits`. -/
def xTaskNotifyFromIsr (s : I2c) (bits : BitVec 32) : I2c :=
  let task := s.transaction.originTask
  { s with
    tcb := Function.update s.tcb task ⟨(s.tcb task).ulNotifiedValue ||| bits, .received⟩
    calls := s.calls ++ [.xTaskNotify task bits] }

/-- `if (xQueuePeekFromISR(g_I2Cqueue, &transaction)) IntPendSet(INT_I2CA0)`. -/
def peekPend (s : I2c) : I2c :=
  match s.gI2cQueue with
  | [] => s
  | t :: _ => { s with transaction := t, pended := true }

/-- The transaction leaves the queue, its task is notified and the next one triggered. -/
def finish (bits : BitVec 32) (s : I2c) : I2c := (s.xQueueReceiveFromIsr.xTaskNotifyFromIsr bits).peekPend

/-- The same at the end of a running transfer: interrupts off and `STATE_IDLE` first. -/
def stop (bits : BitVec 32) (s : I2c) : I2c := finish bits { s with enabled := false, gI2cIsrState := .idle }

/-- The timeout and NACK branch. -/
def onError (s : I2c) : I2c :=
  let s := ({ s with enabled := false }.xQueueReceiveFromIsr).xTaskNotifyFromIsr i2cNotifyErr
  let s := match s.gI2cIsrState with
    | .readNext | .readFinal => s.access [.control .burstReceiveFinish]
    | .writeNext | .writeFinal => s.access [.control .burstSendFinish]
    | .idle => s
  { s with gI2cIsrState := .idle }.peekPend

/-- The first byte of a write. -/
def startSend (i : IsrInput) (s : I2c) : I2c :=
  let t := s.transaction
  let s := { s with tmpptr := t.buffer }.access [.slaveAddrSet t.devAddress false, .dataPut (s.mem t.buffer)]
  let s := s.i2cTransact .burstSendStart i.transact
  if i.transact then
    let left := t.txlenght - 1
    { s with
      transaction := { t with txlenght := left }
      tmpptr := s.tmpptr + 1
      enabled := true
      gI2cIsrState := if left > 0 then .writeNext else .writeFinal }
  else s.finish i2cNotifyErr

/-- The start of a reception; `fail` is what the branch does when it cannot start. -/
def startReceive (i : IsrInput) (fail : I2c → I2c) (s : I2c) : I2c :=
  let t := s.transaction
  let left := t.rxlenght - 1
  let s := { s with tmpptr := t.buffer, transaction := { t with rxlenght := left } }.access
    [.slaveAddrSet t.devAddress true]
  let s := s.i2cTransact (if left = 0 then .singleReceive else .burstReceiveStart) i.transact
  if i.transact then { s with gI2cIsrState := if left = 0 then .readFinal else .readNext, enabled := true } else fail s

/-- `STATE_IDLE`. -/
def onIdle (i : IsrInput) (s : I2c) : I2c :=
  match s.gI2cQueue with
  | [] => s
  | t :: _ =>
    match t.command with
    | .write | .readFrom => startSend i { s with transaction := t }
    | .read => startReceive i (finish i2cNotifyErr) { s with transaction := t }

/-- `STATE_WRITE_NEXT`. -/
def onWriteNext (i : IsrInput) (s : I2c) : I2c :=
  let s := (s.access [.dataPut (s.mem s.tmpptr)]).i2cTransact .burstSendCont i.transact
  if i.transact then
    let left := s.transaction.txlenght - 1
    { s with
      transaction := { s.transaction with txlenght := left }
      tmpptr := s.tmpptr + 1
      gI2cIsrState := if left > 0 then .writeNext else .writeFinal }
  else s.stop i2cNotifyErr

/-- `STATE_WRITE_FINAL`. -/
def onWriteFinal (i : IsrInput) (s : I2c) : I2c :=
  if s.transaction.command ≠ .readFrom then (s.i2cTransact .burstSendStop i.transact).stop i2cNotifyWriteComplete
  else startReceive i (stop i2cNotifyErr) s

/-- `*tmpptr = MAP_I2CMasterDataGet(I2C_BASE)`. -/
def store (i : IsrInput) (s : I2c) : I2c :=
  { s with mem := Function.update s.mem s.tmpptr i.data }.access [.dataGet i.data]

/-- `STATE_READ_NEXT`. -/
def onReadNext (i : IsrInput) (s : I2c) : I2c :=
  let s := s.store i
  let left := s.transaction.rxlenght - 1
  let s := { s with transaction := { s.transaction with rxlenght := left }, tmpptr := s.tmpptr + 1 }
  let s := s.i2cTransact (if left = 0 then .burstReceiveFinish else .burstReceiveCont) i.transact
  if i.transact then (if left = 0 then { s with gI2cIsrState := .readFinal } else s) else s.stop i2cNotifyErr

/-- `STATE_READ_FINAL`. -/
def onReadFinal (i : IsrInput) (s : I2c) : I2c := (s.store i).stop i2cNotifyReadComplete

/-- `I2C_IF_ISR`. -/
def i2cIfIsr (i : IsrInput) (s : I2c) : I2c :=
  if i.status = .error then s.onError
  else
    match s.gI2cIsrState with
    | .idle => s.onIdle i
    | .writeNext => s.onWriteNext i
    | .writeFinal => s.onWriteFinal i
    | .readNext => s.onReadNext i
    | .readFinal => s.onReadFinal i

end I2c

/-! ## Steps -/

inductive I2cEvent
  | call (task : TaskHandle) (r : I2cRequest)
  | send (task : TaskHandle)
  | test (task : TaskHandle)
  | pend (task : TaskHandle)
  | wait (task : TaskHandle)
  | notified (task : TaskHandle)
  | ret (task : TaskHandle)
  | isr (i : IsrInput)
  deriving DecidableEq, Repr

namespace I2c

def goto (s : I2c) (task : TaskHandle) (c : CallPc) : I2c := { s with pc := Function.update s.pc task c }

/-- `return notifVal & I2C_NOTIFY_ERR ? FAILURE : SUCCESS`. -/
def resultOf (notifVal : BitVec 32) : Status := if notifVal &&& i2cNotifyErr ≠ 0 then .failure else .success

/-- The second critical section of `xTaskNotifyWait`, and the test of the loop around it. -/
def wakeUp (s : I2c) (task : TaskHandle) (c : I2cCommand) : I2c :=
  let notifVal := (s.tcb task).ulNotifiedValue
  { s with tcb := Function.update s.tcb task ⟨notifVal &&& ~~~c.clearedOnExit, .notWaiting⟩ }.goto task
    (if notifVal &&& c.awaited ≠ 0 then .ret (resultOf notifVal) else .wait c)

def step (s : I2c) : I2cEvent → Option I2c
  | .call task r =>
    if s.pc task = .out then
      if r.rejected then some s else some ({ s with mem := r.copied s.mem }.goto task (.send (r.transaction task)))
    else none
  | .send task =>
    match s.pc task with
    | .send t =>
      if s.gI2cQueue.length < 16 then
        let calls := s.calls ++ [.xQueueSend t]
        some ({ s with gI2cQueue := s.gI2cQueue ++ [t], calls := calls }.goto task (.test t.command))
      else none
    | _ => none
  | .test task =>
    match s.pc task with
    | .test c => some (s.goto task (if s.gI2cIsrState = .idle then .pend c else .wait c))
    | _ => none
  | .pend task =>
    match s.pc task with
    | .pend c => some ({ s with pended := true }.goto task (.wait c))
    | _ => none
  | .wait task =>
    match s.pc task with
    | .wait c => some ({ s with tcb := Function.update s.tcb task (s.tcb task).enterWait }.goto task (.blocked c))
    | _ => none
  -- the task runs again only when a notification was received
  | .notified task =>
    match s.pc task with
    | .blocked c => if (s.tcb task).ucNotifyState = .received then some (s.wakeUp task c) else none
    | _ => none
  | .ret task =>
    match s.pc task with
    | .ret r => some ({ s with calls := s.calls ++ [KernelCall.ret task r] }.goto task .out)
    | _ => none
  -- the entry takes the pending bit with it; a status is masked unless the interrupts are enabled
  | .isr i =>
    if (if i.status = .none then s.pended else s.enabled) = true then some ({ s with pended := false }.i2cIfIsr i)
    else none

section Steps

variable {s s' : I2c} {task : TaskHandle}

theorem step_call {r : I2cRequest} : s.step (.call task r) = some s' ↔ s.pc task = .out ∧
    (r.rejected = true ∧ s' = s ∨ r.rejected = false ∧
      s' = { s with mem := r.copied s.mem }.goto task (.send (r.transaction task))) := by
  simp only [step]
  by_cases hpc : s.pc task = .out
  · by_cases hr : r.rejected = true
    · simp [hpc, hr, eq_comm]
    · simp [hpc, hr, eq_comm]
  · simp [hpc]

theorem step_send : s.step (.send task) = some s' ↔ ∃ t, s.pc task = .send t ∧ s.gI2cQueue.length < 16 ∧
    s' = { s with gI2cQueue := s.gI2cQueue ++ [t], calls := s.calls ++ [KernelCall.xQueueSend t] }.goto task
      (.test t.command) := by
  cases hpc : s.pc task with
  | send _ => simp only [step, hpc, guard_eq_some, CallPc.send.injEq, exists_eq_left']
  | _ => simp [step, hpc]

theorem step_test : s.step (.test task) = some s' ↔ ∃ c, s.pc task = .test c ∧
    s' = s.goto task (if s.gI2cIsrState = .idle then .pend c else .wait c) := by
  cases hpc : s.pc task with
  | test _ =>
    simp only [step, hpc, CallPc.test.injEq, exists_eq_left', Option.some.injEq]
    exact eq_comm
  | _ => simp [step, hpc]

theorem step_pend : s.step (.pend task) = some s' ↔ ∃ c, s.pc task = .pend c ∧
    s' = { s with pended := true }.goto task (.wait c) := by
  cases hpc : s.pc task with
  | pend _ =>
    simp only [step, hpc, CallPc.pend.injEq, exists_eq_left', Option.some.injEq]
    exact eq_comm
  | _ => simp [step, hpc]

theorem step_wait : s.step (.wait task) = some s' ↔ ∃ c, s.pc task = .wait c ∧
    s' = { s with tcb := Function.update s.tcb task (s.tcb task).enterWait }.goto task (.blocked c) := by
  cases hpc : s.pc task with
  | wait _ =>
    simp only [step, hpc, CallPc.wait.injEq, exists_eq_left', Option.some.injEq]
    exact eq_comm
  | _ => simp [step, hpc]

theorem step_notified : s.step (.notified task) = some s' ↔ ∃ c, s.pc task = .blocked c ∧
    (s.tcb task).ucNotifyState = .received ∧ s' = s.wakeUp task c := by
  cases hpc : s.pc task with
  | blocked _ => simp only [step, hpc, guard_eq_some, CallPc.blocked.injEq, exists_eq_left']
  | _ => simp [step, hpc]

theorem step_ret : s.step (.ret task) = some s' ↔ ∃ r, s.pc task = .ret r ∧
    s' = { s with calls := s.calls ++ [KernelCall.ret task r] }.goto task .out := by
  cases hpc : s.pc task with
  | ret _ =>
    simp only [step, hpc, CallPc.ret.injEq, exists_eq_left', Option.some.injEq]
    exact eq_comm
  | _ => simp [step, hpc]

theorem step_isr {i : IsrInput} : s.step (.isr i) = some s' ↔
    (if i.status = .none then s.pended else s.enabled) = true ∧ s' = { s with pended := false }.i2cIfIsr i :=
  guard_eq_some

end Steps

end I2c

end Thronix
