import Thronix.I2cIf
import Mathlib.Data.List.Forall2

/-!
# Thronix.I2cQueue — every request is answered, and none is stranded

* `IsrOutcome`: what one run of `I2C_IF_ISR` does to the queue and the notifications.  It does nothing, goes on with the
  transaction at the head, or removes it, notifies its task once, and pends itself if there is more.
* `Served`: the head of the queue is the transaction that runs, in a state that fits its command.
* `Client`, `Client.Ok`: one task's view.  Its transaction is queued once until its one notification arrives.
* `Awake`: an idle driver with work has its interrupt pending, or a caller about to pend it.
* `i2c_exactly_once`: all of it, in every run.
-/

namespace Thronix

open Lib

/-! ## One run of the routine -/

/-- The static copy is of the transaction, up to the lengths it counts down. -/
structure I2cTransaction.CopyOf (u t : I2cTransaction) : Prop where
  originTask : u.originTask = t.originTask
  buffer : u.buffer = t.buffer
  command : u.command = t.command
  devAddress : u.devAddress = t.devAddress

theorem I2cTransaction.CopyOf.rfl {t : I2cTransaction} : t.CopyOf t := ⟨by trivial, by trivial, by trivial, by trivial⟩

/-- The command is one that the state belongs to. -/
def IsrState.Serves : IsrState → I2cCommand → Prop
  | .idle, _ => False
  | .writeNext, c => c ≠ .read
  | .writeFinal, c => c ≠ .read
  | .readNext, c => c ≠ .write
  | .readFinal, c => c ≠ .write

/-- The notification of a command that was carried out. -/
def I2cCommand.completion : I2cCommand → BitVec 32
  | .write => i2cNotifyWriteComplete
  | .read => i2cNotifyReadComplete
  | .readFrom => i2cNotifyReadComplete

/-- The one notification a transaction may get. -/
def I2cTransaction.AnsweredBy (t : I2cTransaction) (bits : BitVec 32) : Prop :=
  bits = i2cNotifyErr ∨ bits = t.command.completion

/-- A call of a task. -/
def I2cEvent.ofTask : I2cEvent → Bool
  | .isr _ => false
  | _ => true

/-- Between its `xQueueSend` and its `IntPendSet`. -/
def CallPc.triggers : CallPc → Bool
  | .test _ => true
  | .pend _ => true
  | _ => false

namespace I2c

/-- Nothing happened to the queue, the interrupt's pending flag and the tasks. -/
structure Same (s u : I2c) : Prop where
  queue : u.gI2cQueue = s.gI2cQueue
  pended : u.pended = s.pended
  tcb : u.tcb = s.tcb
  pc : u.pc = s.pc
  calls : u.calls = s.calls

theorem Same.trans {s u v : I2c} (h : Same s u) (h' : Same u v) : Same s v :=
  ⟨h'.queue.trans h.queue, h'.pended.trans h.pended, h'.tcb.trans h.tcb, h'.pc.trans h.pc, h'.calls.trans h.calls⟩

/-- The transaction `t` at the head is removed and its task notified. -/
structure Removed (s s' : I2c) (t : I2cTransaction) (rest : List I2cTransaction) (bits : BitVec 32) : Prop where
  head : s.gI2cQueue = t :: rest
  answer : t.AnsweredBy bits
  queue : s'.gI2cQueue = rest
  idle : s'.gI2cIsrState = .idle
  disabled : s'.enabled = false
  pended : rest ≠ [] → s'.pended = true
  tcb : s'.tcb = Function.update s.tcb t.originTask ⟨(s.tcb t.originTask).ulNotifiedValue ||| bits, .received⟩
  pc : s'.pc = s.pc
  calls : s'.calls = s.calls ++ [.xQueueReceive t, .xTaskNotify t.originTask bits]

/-- The transaction at the head goes on. -/
structure GoesOn (s s' : I2c) (t : I2cTransaction) : Prop where
  same : Same s s'
  enabled : s'.enabled = true
  copy : s'.transaction.CopyOf t
  serves : s'.gI2cIsrState.Serves t.command

/-- What a run of the routine comes to. -/
inductive IsrOutcome (s s' : I2c) : Prop
  | nothing (hq : s.gI2cQueue = []) (hs : s' = s)
  | goesOn (t : I2cTransaction) (rest : List I2cTransaction) (hq : s.gI2cQueue = t :: rest) (hg : GoesOn s s' t)
  | removed (t : I2cTransaction) (rest : List I2cTransaction) (bits : BitVec 32) (hr : Removed s s' t rest bits)

section Outcome

variable {s u : I2c} {t : I2cTransaction} {rest : List I2cTransaction} {bits : BitVec 32} {i : IsrInput}

/-- After the removal and the notification: the peek that may pend the interrupt. -/
theorem removed_peekPend (hq : s.gI2cQueue = t :: rest) (hb : t.AnsweredBy bits) (hqueue : u.gI2cQueue = rest)
    (hidle : u.gI2cIsrState = .idle) (hoff : u.enabled = false)
    (htcb : u.tcb = Function.update s.tcb t.originTask ⟨(s.tcb t.originTask).ulNotifiedValue ||| bits, .received⟩)
    (hpc : u.pc = s.pc) (hcalls : u.calls = s.calls ++ [.xQueueReceive t, .xTaskNotify t.originTask bits]) :
    Removed s u.peekPend t rest bits := by
  unfold peekPend
  rcases rest with _ | ⟨t', rest⟩
  · rw [hqueue]
    exact ⟨hq, hb, hqueue, hidle, hoff, fun h => absurd rfl h, htcb, hpc, hcalls⟩
  · rw [hqueue]
    exact ⟨hq, hb, rfl, hidle, hoff, fun _ => rfl, htcb, hpc, hcalls⟩

theorem removed_finish (h : Same s u) (hq : s.gI2cQueue = t :: rest) (hb : t.AnsweredBy bits)
    (hidle : u.gI2cIsrState = .idle) (hoff : u.enabled = false) : Removed s (u.finish bits) t rest bits := by
  have hu : u.gI2cQueue = t :: rest := h.queue.trans hq
  refine removed_peekPend hq hb ?_ ?_ ?_ ?_ ?_ ?_
  · simp [xQueueReceiveFromIsr, xTaskNotifyFromIsr, hu]
  · simpa [xQueueReceiveFromIsr, xTaskNotifyFromIsr, hu] using hidle
  · simpa [xQueueReceiveFromIsr, xTaskNotifyFromIsr, hu] using hoff
  · simp [xQueueReceiveFromIsr, xTaskNotifyFromIsr, hu, h.tcb]
  · simp [xQueueReceiveFromIsr, xTaskNotifyFromIsr, hu, h.pc]
  · simp [xQueueReceiveFromIsr, xTaskNotifyFromIsr, hu, h.calls]

theorem removed_stop (h : Same s u) (hq : s.gI2cQueue = t :: rest) (hb : t.AnsweredBy bits) :
    Removed s (u.stop bits) t rest bits :=
  removed_finish ⟨h.queue, h.pended, h.tcb, h.pc, h.calls⟩ hq hb rfl rfl

theorem removed_onError (hq : s.gI2cQueue = t :: rest) : Removed s s.onError t rest i2cNotifyErr := by
  refine removed_peekPend hq (.inl rfl) ?_ rfl ?_ ?_ ?_ ?_
  all_goals
    simp only [xQueueReceiveFromIsr, xTaskNotifyFromIsr, hq]
    cases s.gI2cIsrState <;> simp [access]

theorem startSend_outcome (h : Same s u) (hq : s.gI2cQueue = t :: rest) (ht : u.transaction = t)
    (hc : t.command ≠ .read) (hidle : u.gI2cIsrState = .idle) (hoff : u.enabled = false) :
    IsrOutcome s (u.startSend i) := by
  unfold startSend
  by_cases hi : i.transact = true
  · rw [if_pos hi]
    refine .goesOn t rest hq ⟨⟨h.queue, h.pended, h.tcb, h.pc, h.calls⟩, rfl, ?_, ?_⟩
    · rw [ht]
      exact ⟨rfl, rfl, rfl, rfl⟩
    · dsimp only
      split_ifs
      · exact hc
      · exact hc
  · rw [if_neg hi]
    exact .removed t rest _ (removed_finish ⟨h.queue, h.pended, h.tcb, h.pc, h.calls⟩ hq (.inl rfl) hidle hoff)

theorem startReceive_outcome {fail : I2c → I2c} (h : Same s u) (hq : s.gI2cQueue = t :: rest)
    (ht : u.transaction.CopyOf t) (hc : t.command ≠ .write)
    (hfail : ∀ v, Same s v → v.gI2cIsrState = u.gI2cIsrState → v.enabled = u.enabled →
      Removed s (fail v) t rest i2cNotifyErr) : IsrOutcome s (u.startReceive i fail) := by
  unfold startReceive
  by_cases hi : i.transact = true
  · rw [if_pos hi]
    refine .goesOn t rest hq ⟨⟨h.queue, h.pended, h.tcb, h.pc, h.calls⟩, rfl, ?_, ?_⟩
    · exact ⟨ht.originTask, ht.buffer, ht.command, ht.devAddress⟩
    · dsimp only
      split_ifs
      · exact hc
      · exact hc
  · rw [if_neg hi]
    exact .removed t rest _ (hfail _ ⟨h.queue, h.pended, h.tcb, h.pc, h.calls⟩ rfl rfl)

theorem onIdle_outcome (hidle : s.gI2cIsrState = .idle) (hoff : s.enabled = false) : IsrOutcome s (s.onIdle i) := by
  unfold onIdle
  split
  · rename_i hq
    exact .nothing hq rfl
  · rename_i t rest hq
    have hsame : Same s { s with transaction := t } := ⟨rfl, rfl, rfl, rfl, rfl⟩
    split
    · rename_i hc
      exact startSend_outcome hsame hq rfl (by rw [hc]; simp) hidle hoff
    · rename_i hc
      exact startSend_outcome hsame hq rfl (by rw [hc]; simp) hidle hoff
    · rename_i hc
      refine startReceive_outcome hsame hq .rfl (by rw [hc]; simp) fun v hv hvidle hvoff => ?_
      exact removed_finish hv hq (.inl rfl) (hvidle.trans hidle) (hvoff.trans hoff)

theorem onWriteNext_outcome (hq : s.gI2cQueue = t :: rest) (ht : s.transaction.CopyOf t) (hc : t.command ≠ .read)
    (hon : s.enabled = true) : IsrOutcome s (s.onWriteNext i) := by
  unfold onWriteNext
  by_cases hi : i.transact = true
  · rw [if_pos hi]
    refine .goesOn t rest hq ⟨⟨rfl, rfl, rfl, rfl, rfl⟩, hon, ?_, ?_⟩
    · exact ⟨ht.originTask, ht.buffer, ht.command, ht.devAddress⟩
    · dsimp only
      split_ifs
      · exact hc
      · exact hc
  · rw [if_neg hi]
    exact .removed t rest _ (removed_stop ⟨rfl, rfl, rfl, rfl, rfl⟩ hq (.inl rfl))

theorem onWriteFinal_outcome (hq : s.gI2cQueue = t :: rest) (ht : s.transaction.CopyOf t) (hc : t.command ≠ .read) :
    IsrOutcome s (s.onWriteFinal i) := by
  unfold onWriteFinal
  rw [ht.command]
  by_cases hrf : t.command ≠ .readFrom
  · rw [if_pos hrf]
    have hw : t.command = .write := by
      cases h : t.command with
      | write => rfl
      | read => exact absurd h hc
      | readFrom => exact absurd h hrf
    exact .removed t rest _ (removed_stop ⟨rfl, rfl, rfl, rfl, rfl⟩ hq (.inr (by rw [hw]; rfl)))
  · rw [if_neg hrf]
    refine startReceive_outcome ⟨rfl, rfl, rfl, rfl, rfl⟩ hq ht (by rw [not_not.mp hrf]; simp) fun v hv _ _ => ?_
    exact removed_stop hv hq (.inl rfl)

theorem onReadNext_outcome (hq : s.gI2cQueue = t :: rest) (ht : s.transaction.CopyOf t) (hc : t.command ≠ .write)
    (hstate : s.gI2cIsrState = .readNext) (hon : s.enabled = true) : IsrOutcome s (s.onReadNext i) := by
  have hcopy : I2cTransaction.CopyOf { s.transaction with rxlenght := s.transaction.rxlenght - 1 } t :=
    ⟨ht.originTask, ht.buffer, ht.command, ht.devAddress⟩
  unfold onReadNext
  by_cases hi : i.transact = true
  · rw [if_pos hi]
    split_ifs
    · exact .goesOn t rest hq ⟨⟨rfl, rfl, rfl, rfl, rfl⟩, hon, hcopy, hc⟩
    · refine .goesOn t rest hq ⟨⟨rfl, rfl, rfl, rfl, rfl⟩, hon, hcopy, ?_⟩
      show IsrState.Serves s.gI2cIsrState t.command
      rw [hstate]
      exact hc
  · rw [if_neg hi]
    exact .removed t rest _ (removed_stop ⟨rfl, rfl, rfl, rfl, rfl⟩ hq (.inl rfl))

theorem onReadFinal_outcome (hq : s.gI2cQueue = t :: rest) (hc : t.command ≠ .write) :
    IsrOutcome s (s.onReadFinal i) := by
  refine .removed t rest _ (removed_stop ⟨rfl, rfl, rfl, rfl, rfl⟩ hq (.inr ?_))
  cases h : t.command with
  | write => exact absurd h hc
  | read => rfl
  | readFrom => rfl

end Outcome

/-! ## The running transaction -/

/-- Interrupts are enabled just while a transaction runs, and that is the one at the head of the queue. -/
structure Served (s : I2c) : Prop where
  enabled : s.enabled = true ↔ s.gI2cIsrState ≠ .idle
  running : s.gI2cIsrState ≠ .idle →
    ∃ t rest, s.gI2cQueue = t :: rest ∧ s.transaction.CopyOf t ∧ s.gI2cIsrState.Serves t.command

/-- **One run of the routine**: a status can only be there while a transaction runs. -/
theorem isr_outcome {s : I2c} {i : IsrInput} (hs : s.Served) (hi : i.status ≠ .none → s.enabled = true) :
    IsrOutcome s (s.i2cIfIsr i) := by
  unfold i2cIfIsr
  by_cases herr : i.status = .error
  · rw [if_pos herr]
    obtain ⟨t, rest, hq, -, -⟩ := hs.running (hs.enabled.mp (hi (by rw [herr]; simp)))
    exact .removed t rest _ (removed_onError hq)
  · rw [if_neg herr]
    by_cases hidle : s.gI2cIsrState = .idle
    · have hoff : s.enabled = false := Bool.eq_false_iff.mpr fun h => hs.enabled.mp h hidle
      rw [hidle]
      exact onIdle_outcome hidle hoff
    · obtain ⟨t, rest, hq, ht, hsv⟩ := hs.running hidle
      have hon := hs.enabled.mpr hidle
      cases hst : s.gI2cIsrState with
      | idle => exact absurd hst hidle
      | writeNext =>
        rw [hst] at hsv
        exact onWriteNext_outcome hq ht hsv hon
      | writeFinal =>
        rw [hst] at hsv
        exact onWriteFinal_outcome hq ht hsv
      | readNext =>
        rw [hst] at hsv
        exact onReadNext_outcome hq ht hsv hst hon
      | readFinal =>
        rw [hst] at hsv
        exact onReadFinal_outcome hq hsv

/-- The tasks do not touch the transfer; they only add to the queue. -/
theorem step_task {s s' : I2c} {e : I2cEvent} (he : e.ofTask = true) (hs : s.step e = some s') :
    s'.gI2cIsrState = s.gI2cIsrState ∧ s'.enabled = s.enabled ∧ s'.transaction = s.transaction ∧
      ∃ ts, s'.gI2cQueue = s.gI2cQueue ++ ts := by
  cases e with
  | isr i => cases he
  | call task r =>
    obtain ⟨-, ⟨-, rfl⟩ | ⟨-, rfl⟩⟩ := step_call.mp hs
    · exact ⟨rfl, rfl, rfl, [], by simp⟩
    · exact ⟨rfl, rfl, rfl, [], by simp [goto]⟩
  | send task =>
    obtain ⟨t, -, -, rfl⟩ := step_send.mp hs
    exact ⟨rfl, rfl, rfl, [t], rfl⟩
  | test task =>
    obtain ⟨c, -, rfl⟩ := step_test.mp hs
    exact ⟨rfl, rfl, rfl, [], by simp [goto]⟩
  | pend task =>
    obtain ⟨c, -, rfl⟩ := step_pend.mp hs
    exact ⟨rfl, rfl, rfl, [], by simp [goto]⟩
  | wait task =>
    obtain ⟨c, -, rfl⟩ := step_wait.mp hs
    exact ⟨rfl, rfl, rfl, [], by simp [goto]⟩
  | notified task =>
    obtain ⟨c, -, -, rfl⟩ := step_notified.mp hs
    exact ⟨rfl, rfl, rfl, [], by simp [wakeUp, goto]⟩
  | ret task =>
    obtain ⟨r, -, rfl⟩ := step_ret.mp hs
    exact ⟨rfl, rfl, rfl, [], by simp [goto]⟩

/-- What the entry of a run comes to, the pending bit taken. -/
theorem step_isr_outcome {s s' : I2c} {i : IsrInput} (hv : s.Served) (hs : s.step (.isr i) = some s') :
    IsrOutcome { s with pended := false } s' := by
  obtain ⟨hguard, rfl⟩ := step_isr.mp hs
  refine isr_outcome ⟨hv.enabled, hv.running⟩ fun hi => ?_
  rwa [if_neg hi] at hguard

theorem Served.step {s s' : I2c} {e : I2cEvent} (hv : s.Served) (hs : s.step e = some s') : s'.Served := by
  by_cases he : e.ofTask = true
  · obtain ⟨hst, hen, htr, ts, hq⟩ := step_task he hs
    refine ⟨by rw [hen, hst]; exact hv.enabled, fun hrun => ?_⟩
    rw [hst] at hrun
    obtain ⟨t, rest, hq0, hcopy, hsv⟩ := hv.running hrun
    exact ⟨t, rest ++ ts, by rw [hq, hq0]; rfl, by rw [htr]; exact hcopy, by rw [hst]; exact hsv⟩
  · cases e with
    | isr i =>
      rcases step_isr_outcome hv hs with ⟨-, rfl⟩ | ⟨t, rest, hq, hg⟩ | ⟨t, rest, bits, hr⟩
      · exact ⟨hv.enabled, hv.running⟩
      · have hne : s'.gI2cIsrState ≠ .idle := fun h => by
          have := hg.serves
          rw [h] at this
          exact this
        exact ⟨⟨fun _ => hne, fun _ => hg.enabled⟩, fun _ => ⟨t, rest, hg.same.queue.trans hq, hg.copy, hg.serves⟩⟩
      · refine ⟨?_, fun h => absurd hr.idle h⟩
        rw [hr.disabled, hr.idle]
        simp
    | _ => exact absurd rfl he

/-! ## Nobody is stranded -/

/-- An idle driver with work to do will be entered. -/
def Awake (s : I2c) : Prop :=
  s.gI2cIsrState = .idle → s.gI2cQueue ≠ [] → s.pended = true ∨ ∃ task, (s.pc task).triggers = true

/-- Where a task stands is changed only by its own calls. -/
theorem Awake.of_goto {s s' : I2c} {task : TaskHandle} (ha : s.Awake) (hst : s'.gI2cIsrState = s.gI2cIsrState)
    (hq : s'.gI2cQueue = s.gI2cQueue) (hp : s.pended = true → s'.pended = true)
    (hpc : ∀ other, other ≠ task → s'.pc other = s.pc other)
    (htask : (s.pc task).triggers = true → s.gI2cIsrState = .idle →
      s'.pended = true ∨ (s'.pc task).triggers = true) : s'.Awake := by
  intro hidle hne
  rw [hst] at hidle
  rw [hq] at hne
  rcases ha hidle hne with h | ⟨other, h⟩
  · exact .inl (hp h)
  · by_cases ho : other = task
    · subst ho
      exact (htask h hidle).imp_right fun h' => ⟨other, h'⟩
    · exact .inr ⟨other, by rwa [hpc other ho]⟩

@[simp] theorem goto_pc_self (s : I2c) (task : TaskHandle) (c : CallPc) : (s.goto task c).pc task = c := by
  simp [goto]

theorem goto_pc_of_ne (s : I2c) {task other : TaskHandle} (c : CallPc) (h : other ≠ task) :
    (s.goto task c).pc other = s.pc other := by
  simp [goto, Function.update_of_ne h]

theorem Awake.step {s s' : I2c} {e : I2cEvent} (ha : s.Awake) (hv : s.Served) (hs : s.step e = some s') :
    s'.Awake := by
  cases e with
  | call task r =>
    obtain ⟨hpc, ⟨-, rfl⟩ | ⟨-, rfl⟩⟩ := step_call.mp hs
    · exact ha
    · exact ha.of_goto rfl rfl id (fun other h => goto_pc_of_ne _ _ h) fun h => by rw [hpc] at h; cases h
  | send task =>
    obtain ⟨t, -, -, rfl⟩ := step_send.mp hs
    exact fun _ _ => .inr ⟨task, by rw [goto_pc_self]; rfl⟩
  | test task =>
    obtain ⟨c, hpc, rfl⟩ := step_test.mp hs
    refine ha.of_goto rfl rfl id (fun other h => goto_pc_of_ne _ _ h) fun _ hidle => .inr ?_
    rw [if_pos hidle, goto_pc_self]
    rfl
  | pend task =>
    obtain ⟨c, -, rfl⟩ := step_pend.mp hs
    exact fun _ _ => .inl rfl
  | wait task =>
    obtain ⟨c, hpc, rfl⟩ := step_wait.mp hs
    exact ha.of_goto rfl rfl id (fun other h => goto_pc_of_ne _ _ h) fun h => by rw [hpc] at h; cases h
  | notified task =>
    obtain ⟨c, hpc, -, rfl⟩ := step_notified.mp hs
    exact ha.of_goto rfl rfl id (fun other h => goto_pc_of_ne _ _ h) fun h => by rw [hpc] at h; cases h
  | ret task =>
    obtain ⟨r, hpc, rfl⟩ := step_ret.mp hs
    exact ha.of_goto rfl rfl id (fun other h => goto_pc_of_ne _ _ h) fun h => by rw [hpc] at h; cases h
  | isr i =>
    intro hidle hne
    rcases step_isr_outcome hv hs with ⟨hq, rfl⟩ | ⟨t, rest, -, hg⟩ | ⟨t, rest, bits, hr⟩
    · exact absurd hq hne
    · have := hg.serves
      rw [hidle] at this
      exact this.elim
    · exact .inl (hr.pended (by rwa [← hr.queue]))

end I2c

/-! ## One task's view -/

def KernelCall.sent : KernelCall → Option I2cTransaction
  | .xQueueSend t => some t
  | _ => none

def KernelCall.removed : KernelCall → Option I2cTransaction
  | .xQueueReceive t => some t
  | _ => none

def KernelCall.notified : KernelCall → Option (TaskHandle × BitVec 32)
  | .xTaskNotify task bits => some (task, bits)
  | _ => none

def KernelCall.sentBy (task : TaskHandle) : KernelCall → Option I2cTransaction
  | .xQueueSend t => if t.originTask = task then some t else none
  | _ => none

def KernelCall.notifiedTo (task : TaskHandle) : KernelCall → Option (BitVec 32)
  | .xTaskNotify other bits => if other = task then some bits else none
  | _ => none

def KernelCall.returnedBy (task : TaskHandle) : KernelCall → Option Status
  | .ret other r => if other = task then some r else none
  | _ => none

/-- What concerns one task, apart from where it stands: its notification, its transactions in the queue, the
notifications it was sent and the results its calls returned. -/
structure Account where
  tcb : Tcb
  sent : List I2cTransaction
  queued : List I2cTransaction
  notified : List (BitVec 32)
  returned : List Status

def I2c.account (s : I2c) (task : TaskHandle) : Account where
  tcb := s.tcb task
  sent := s.calls.filterMap (KernelCall.sentBy task)
  queued := s.gI2cQueue.filter fun t => t.originTask = task
  notified := s.calls.filterMap (KernelCall.notifiedTo task)
  returned := s.calls.filterMap (KernelCall.returnedBy task)

/-- `FAILURE` exactly for `I2C_NOTIFY_ERR`. -/
def answer (bits : BitVec 32) : Status := if bits = i2cNotifyErr then .failure else .success

namespace Account

def answers (a : Account) : List Status := a.notified.map answer

/-- Nothing of the task is on its way. -/
structure Quiet (a : Account) : Prop where
  queued : a.queued = []
  value : a.tcb.ulNotifiedValue = 0
  state : a.tcb.ucNotifyState ≠ .received
  count : a.sent.length = a.notified.length

/-- Its one transaction is in the queue. -/
structure Asked (a : Account) (c : I2cCommand) : Prop where
  queued : ∃ t, a.queued = [t] ∧ t.command = c
  value : a.tcb.ulNotifiedValue = 0
  state : a.tcb.ucNotifyState ≠ .received
  count : a.sent.length = a.notified.length + 1
  answers : a.answers = a.returned

/-- Its transaction is done and the notification is there. -/
structure Told (a : Account) (c : I2cCommand) : Prop where
  queued : a.queued = []
  value : a.tcb.ulNotifiedValue = i2cNotifyErr ∨ a.tcb.ulNotifiedValue = c.completion
  state : a.tcb.ucNotifyState = .received
  count : a.sent.length = a.notified.length
  answers : a.answers = a.returned ++ [answer a.tcb.ulNotifiedValue]

/-- What holds of a task, by where it stands. -/
def Ok (a : Account) (task : TaskHandle) : CallPc → Prop
  | .out => a.Quiet ∧ a.answers = a.returned
  | .send t => t.originTask = task ∧ a.Quiet ∧ a.answers = a.returned
  | .test c => a.Asked c ∨ a.Told c
  | .pend c => a.Asked c ∨ a.Told c
  | .wait c => a.Asked c ∨ a.Told c
  | .blocked c => a.Asked c ∨ a.Told c
  | .ret r => a.Quiet ∧ a.answers = a.returned ++ [r]

/-- A task with a transaction in the queue waits for it, and is told in the same place. -/
theorem Ok.told {a : Account} {task : TaskHandle} {pc : CallPc} (hok : a.Ok task pc) (hq : a.queued ≠ []) :
    ∃ c, a.Asked c ∧ ∀ a' : Account, a'.Told c → a'.Ok task pc := by
  cases pc with
  | out => exact absurd hok.1.queued hq
  | send t => exact absurd hok.2.1.queued hq
  | ret r => exact absurd hok.1.queued hq
  | test c | pend c | wait c | blocked c =>
    have hok' : a.Asked c ∨ a.Told c := hok
    exact ⟨c, hok'.resolve_right fun h => hq h.queued, fun a' ha' => .inr ha'⟩

end Account

namespace I2c

theorem answer_eq_resultOf {c : I2cCommand} {bits : BitVec 32} (hb : bits = i2cNotifyErr ∨ bits = c.completion) :
    resultOf bits = answer bits := by
  rcases hb with rfl | rfl
  · rfl
  · cases c <;> rfl

/-- A call that is woken by its notification returns, with nothing left of the notification. -/
theorem wakeUp_told {c : I2cCommand} {bits : BitVec 32} (hb : bits = i2cNotifyErr ∨ bits = c.completion) :
    bits &&& c.awaited ≠ 0 ∧ bits &&& ~~~c.clearedOnExit = 0 := by
  rcases hb with rfl | rfl
  · cases c <;> decide
  · cases c <;> decide

/-- The accounts of all tasks are in order. -/
def Accounted (s : I2c) : Prop := ∀ task, (s.account task).Ok task (s.pc task)

section Accounts

variable {s s' : I2c} {task : TaskHandle}

theorem account_eq (htcb : s'.tcb task = s.tcb task) (hq : s'.gI2cQueue = s.gI2cQueue) (hcalls : s'.calls = s.calls) :
    s'.account task = s.account task := by
  simp only [account, htcb, hq, hcalls]

theorem account_update_tcb (s : I2c) (task : TaskHandle) (n : Tcb) :
    I2c.account { s with tcb := Function.update s.tcb task n } task = { s.account task with tcb := n } := by
  simp [account]

/-- A step that moves `task` only. -/
theorem Accounted.goto (hok : s.Accounted) {u : I2c} {c : CallPc} (hpc : u.pc = s.pc)
    (hother : ∀ other, other ≠ task → u.account other = s.account other) (htask : (u.account task).Ok task c) :
    (u.goto task c).Accounted := by
  intro other
  by_cases ho : other = task
  · subst ho
    rw [goto_pc_self]
    exact htask
  · rw [goto_pc_of_ne u c ho, hpc]
    exact (hother other ho).symm ▸ hok other

/-- The removal and the notification, seen by the task that waits. -/
theorem told_of_removed {t : I2cTransaction} {rest : List I2cTransaction} {bits : BitVec 32}
    (hok : (s.account t.originTask).Ok t.originTask (s.pc t.originTask)) (hr : Removed s s' t rest bits) :
    (s'.account t.originTask).Ok t.originTask (s'.pc t.originTask) := by
  have hqueued : (s.account t.originTask).queued = t :: rest.filter fun u => u.originTask = t.originTask := by
    simp [account, hr.head]
  obtain ⟨c, ha, hstay⟩ := hok.told (by rw [hqueued]; simp)
  obtain ⟨x, hx, hc⟩ := ha.queued
  obtain ⟨rfl, hrest⟩ := List.cons.inj (hqueued.symm.trans hx)
  have hvalue : (s.tcb t.originTask).ulNotifiedValue = 0 := ha.value
  have hnew : s'.tcb t.originTask = ⟨bits, .received⟩ := by
    rw [hr.tcb, Function.update_self, hvalue]
    simp
  have hans : (s.calls.filterMap (KernelCall.notifiedTo t.originTask)).map answer =
      s.calls.filterMap (KernelCall.returnedBy t.originTask) := ha.answers
  rw [congrFun hr.pc]
  have hcount : (s.calls.filterMap (KernelCall.sentBy t.originTask)).length =
      (s.calls.filterMap (KernelCall.notifiedTo t.originTask)).length + 1 := ha.count
  refine hstay _ ⟨?_, ?_, ?_, ?_, ?_⟩
  · simp only [account, hr.queue]
    exact hrest
  · simp only [account, hnew]
    exact hc ▸ hr.answer
  · simp only [account, hnew]
  · simp [account, hr.calls, List.filterMap_cons, KernelCall.sentBy, KernelCall.notifiedTo, hcount]
  · simp [account, Account.answers, hr.calls, hnew, List.filterMap_cons, KernelCall.sentBy, KernelCall.notifiedTo,
      KernelCall.returnedBy,
      hans]

/-- The others see nothing of it. -/
theorem account_of_removed {t : I2cTransaction} {rest : List I2cTransaction} {bits : BitVec 32}
    (ht : task ≠ t.originTask) (hr : Removed s s' t rest bits) : s'.account task = s.account task := by
  simp [account, hr.head, hr.queue, hr.tcb, hr.calls, Function.update_of_ne ht, Ne.symm ht, List.filterMap_cons,
    KernelCall.sentBy, KernelCall.notifiedTo, KernelCall.returnedBy]

theorem Accounted.step {e : I2cEvent} (hok : s.Accounted) (hv : s.Served) (hs : s.step e = some s') :
    s'.Accounted := by
  cases e with
  | call task r =>
    obtain ⟨hpc, ⟨-, rfl⟩ | ⟨-, rfl⟩⟩ := step_call.mp hs
    · exact hok
    · have h := hok task
      rw [hpc] at h
      exact hok.goto rfl (fun _ _ => rfl) ⟨by cases r <;> rfl, h⟩
  | send task =>
    obtain ⟨t, hpc, -, rfl⟩ := step_send.mp hs
    have h := hok task
    rw [hpc] at h
    obtain ⟨horigin, hquiet, hans⟩ := h
    refine hok.goto rfl (fun other ho => ?_) (.inl ⟨⟨t, ?_, rfl⟩, hquiet.value, hquiet.state, ?_, ?_⟩)
    · simp [account, horigin, Ne.symm ho, List.filterMap_cons, KernelCall.sentBy, KernelCall.notifiedTo,
      KernelCall.returnedBy]
    · have hnone : s.gI2cQueue.filter (fun t => t.originTask = task) = [] := hquiet.queued
      simp [account, hnone, horigin]
    · have hcount : (s.calls.filterMap (KernelCall.sentBy task)).length =
          (s.calls.filterMap (KernelCall.notifiedTo task)).length := hquiet.count
      simp [account, hcount, horigin, List.filterMap_cons, KernelCall.sentBy, KernelCall.notifiedTo]
    · have hans' : (s.calls.filterMap (KernelCall.notifiedTo task)).map answer =
          s.calls.filterMap (KernelCall.returnedBy task) := hans
      simp [account, Account.answers, hans', List.filterMap_cons, KernelCall.sentBy, KernelCall.notifiedTo,
      KernelCall.returnedBy]
  | test task =>
    obtain ⟨c, hpc, rfl⟩ := step_test.mp hs
    have h := hok task
    rw [hpc] at h
    refine hok.goto rfl (fun _ _ => rfl) ?_
    split_ifs
    · exact h
    · exact h
  | pend task =>
    obtain ⟨c, hpc, rfl⟩ := step_pend.mp hs
    have h := hok task
    rw [hpc] at h
    exact hok.goto rfl (fun _ _ => rfl) h
  | wait task =>
    obtain ⟨c, hpc, rfl⟩ := step_wait.mp hs
    have h := hok task
    rw [hpc] at h
    refine hok.goto rfl (fun other ho => account_eq (Function.update_of_ne ho _ _) rfl rfl) ?_
    rw [account_update_tcb]
    rcases h with ha | ht
    · -- it marks itself as waiting
      have hstate : (s.tcb task).ucNotifyState ≠ .received := ha.state
      rw [Tcb.enterWait, if_pos hstate]
      exact .inl ⟨ha.queued, ha.value, by simp, ha.count, ha.answers⟩
    · have hstate : (s.tcb task).ucNotifyState = .received := ht.state
      rw [Tcb.enterWait, if_neg (not_not.mpr hstate)]
      exact .inr ht
  | notified task =>
    obtain ⟨c, hpc, hrec, rfl⟩ := step_notified.mp hs
    have h := hok task
    rw [hpc] at h
    have ht : (s.account task).Told c := h.resolve_left fun ha => ha.state hrec
    have hvalue : (s.tcb task).ulNotifiedValue = i2cNotifyErr ∨ (s.tcb task).ulNotifiedValue = c.completion := ht.value
    obtain ⟨hwoken, hcleared⟩ := wakeUp_told hvalue
    refine hok.goto rfl (fun other ho => account_eq (Function.update_of_ne ho _ _) rfl rfl) ?_
    rw [account_update_tcb, if_pos hwoken, answer_eq_resultOf hvalue]
    exact ⟨⟨ht.queued, hcleared, by simp, ht.count⟩, ht.answers⟩
  | ret task =>
    obtain ⟨r, hpc, rfl⟩ := step_ret.mp hs
    have h := hok task
    rw [hpc] at h
    refine hok.goto rfl (fun other ho => ?_) ⟨⟨h.1.queued, h.1.value, h.1.state, ?_⟩, ?_⟩
    · simp [account, Ne.symm ho, List.filterMap_cons, KernelCall.sentBy, KernelCall.notifiedTo,
      KernelCall.returnedBy]
    · have hcount : (s.calls.filterMap (KernelCall.sentBy task)).length =
          (s.calls.filterMap (KernelCall.notifiedTo task)).length := h.1.count
      simp [account, hcount, List.filterMap_cons, KernelCall.sentBy, KernelCall.notifiedTo]
    · have hans : (s.calls.filterMap (KernelCall.notifiedTo task)).map answer =
          s.calls.filterMap (KernelCall.returnedBy task) ++ [r] := h.2
      simp [account, Account.answers, hans, List.filterMap_cons, KernelCall.sentBy, KernelCall.notifiedTo,
      KernelCall.returnedBy]
  | isr i =>
    have hbase : I2c.Accounted { s with pended := false } := hok
    rcases step_isr_outcome hv hs with ⟨-, rfl⟩ | ⟨t, rest, -, hg⟩ | ⟨t, rest, bits, hr⟩
    · exact hbase
    · intro task
      rw [account_eq (congrFun hg.same.tcb task) hg.same.queue hg.same.calls, congrFun hg.same.pc task]
      exact hbase task
    · intro task
      by_cases ht : task = t.originTask
      · subst ht
        exact told_of_removed (hbase _) hr
      · rw [account_of_removed ht hr, congrFun hr.pc task]
        exact hbase task

end Accounts

/-! ## The ledger -/

def sent (s : I2c) : List I2cTransaction := s.calls.filterMap KernelCall.sent

def removed (s : I2c) : List I2cTransaction := s.calls.filterMap KernelCall.removed

def notified (s : I2c) : List (TaskHandle × BitVec 32) := s.calls.filterMap KernelCall.notified

/-- The notification is the one for the transaction, and goes to its task. -/
def Answers (t : I2cTransaction) (n : TaskHandle × BitVec 32) : Prop := n.1 = t.originTask ∧ t.AnsweredBy n.2

/-- The queue holds what was sent and not removed, in order, and for each removal there is one notification. -/
structure Ledger (s : I2c) : Prop where
  fifo : s.sent = s.removed ++ s.gI2cQueue
  answered : List.Forall₂ Answers s.removed s.notified

theorem Ledger.congr {s s' : I2c} (hl : s.Ledger) (hq : s'.gI2cQueue = s.gI2cQueue)
    (hcalls : s'.calls = s.calls ∨ ∃ task r, s'.calls = s.calls ++ [.ret task r]) : s'.Ledger := by
  obtain ⟨h1, h2⟩ := hl
  unfold sent removed notified at *
  rcases hcalls with hc | ⟨task, r, hc⟩
  · exact ⟨by rw [sent, removed, hc, hq]; exact h1, by rw [removed, notified, hc]; exact h2⟩
  · refine ⟨?_, ?_⟩
    · simp [sent, removed, hc, hq, h1, List.filterMap_cons, KernelCall.sent, KernelCall.removed]
    · simpa [removed, notified, hc, List.filterMap_cons, KernelCall.removed, KernelCall.notified] using h2

theorem Ledger.step {s s' : I2c} {e : I2cEvent} (hl : s.Ledger) (hv : s.Served) (hs : s.step e = some s') :
    s'.Ledger := by
  cases e with
  | call task r =>
    obtain ⟨-, ⟨-, rfl⟩ | ⟨-, rfl⟩⟩ := step_call.mp hs
    · exact hl
    · exact hl.congr rfl (.inl rfl)
  | send task =>
    obtain ⟨t, -, -, rfl⟩ := step_send.mp hs
    obtain ⟨h1, h2⟩ := hl
    unfold sent removed at h1
    unfold removed notified at h2
    refine ⟨?_, ?_⟩
    · simp [sent, removed, goto, h1, List.filterMap_cons, KernelCall.sent, KernelCall.removed]
    · simpa [removed, notified, goto, List.filterMap_cons, KernelCall.removed, KernelCall.notified] using h2
  | test task =>
    obtain ⟨c, -, rfl⟩ := step_test.mp hs
    exact hl.congr rfl (.inl rfl)
  | pend task =>
    obtain ⟨c, -, rfl⟩ := step_pend.mp hs
    exact hl.congr rfl (.inl rfl)
  | wait task =>
    obtain ⟨c, -, rfl⟩ := step_wait.mp hs
    exact hl.congr rfl (.inl rfl)
  | notified task =>
    obtain ⟨c, -, -, rfl⟩ := step_notified.mp hs
    exact hl.congr rfl (.inl rfl)
  | ret task =>
    obtain ⟨r, -, rfl⟩ := step_ret.mp hs
    exact hl.congr rfl (.inr ⟨task, r, rfl⟩)
  | isr i =>
    rcases step_isr_outcome hv hs with ⟨-, rfl⟩ | ⟨t, rest, -, hg⟩ | ⟨t, rest, bits, hr⟩
    · exact hl.congr rfl (.inl rfl)
    · exact hl.congr hg.same.queue (.inl hg.same.calls)
    · obtain ⟨h1, h2⟩ := hl
      unfold sent removed at h1
      unfold removed notified at h2
      have hq : s.gI2cQueue = t :: rest := hr.head
      have hc : s'.calls = s.calls ++ [.xQueueReceive t, .xTaskNotify t.originTask bits] := hr.calls
      refine ⟨?_, ?_⟩
      · simp [sent, removed, hc, hr.queue, h1, hq, List.filterMap_cons, KernelCall.sent, KernelCall.removed]
      · have hlast : List.Forall₂ Answers [t] [(t.originTask, bits)] := .cons ⟨rfl, hr.answer⟩ .nil
        simpa [removed, notified, hc, List.filterMap_cons, KernelCall.removed, KernelCall.notified] using
          List.rel_append h2 hlast

/-! ## Runs -/

section Run

variable {mem : ℕ → BitVec 8} {h : List I2cEvent} {s : I2c}

theorem served (hr : Run step (init mem) h s) : s.Served :=
  hr.inv (I := fun _ s => s.Served) ⟨by simp [init], fun h => absurd rfl h⟩ fun _ _ _ _ _ hv _ hs => hv.step hs

theorem awake (hr : Run step (init mem) h s) : s.Awake :=
  hr.inv (I := fun _ s => s.Awake) (fun _ h => absurd rfl h) fun _ _ _ _ hr ha _ hs => ha.step (served hr) hs

theorem accounted (hr : Run step (init mem) h s) : s.Accounted :=
  hr.inv (I := fun _ s => s.Accounted) (fun _ => ⟨⟨rfl, rfl, by simp [account, init], rfl⟩, rfl⟩)
    fun _ _ _ _ hr ha _ hs => ha.step (served hr) hs

theorem ledger (hr : Run step (init mem) h s) : s.Ledger :=
  hr.inv (I := fun _ s => s.Ledger) ⟨rfl, .nil⟩ fun _ _ _ _ hr hl _ hs => hl.step (served hr) hs

end Run

end I2c

/-- The calls of a task: each one that queued a transaction returns once, with the answer to its own notification, and
at most one is not finished. -/
def Account.Balanced (a : Account) (pc : CallPc) : Prop :=
  ∃ told : List Status, a.answers = a.returned ++ told ∧
    a.sent.length = a.returned.length + told.length + a.queued.length ∧ told.length + a.queued.length ≤ 1 ∧
    (pc = .out → told = [] ∧ a.queued = [])

theorem Account.length_notified {a : Account} {l : List Status} (ha : a.answers = l) : a.notified.length = l.length := by
  rw [← ha, answers, List.length_map]

theorem Account.Quiet.balanced {a : Account} {pc : CallPc} (hq : a.Quiet) (ha : a.answers = a.returned) :
    a.Balanced pc :=
  ⟨[], by rw [ha, List.append_nil], by simp [hq.count, length_notified ha, hq.queued], by simp [hq.queued],
    fun _ => ⟨rfl, hq.queued⟩⟩

theorem Account.Asked.balanced {a : Account} {c : I2cCommand} {pc : CallPc} (ha : a.Asked c) (hpc : pc ≠ .out) :
    a.Balanced pc := by
  obtain ⟨t, ht, -⟩ := ha.queued
  exact ⟨[], by rw [ha.answers, List.append_nil], by simp [ha.count, length_notified ha.answers, ht], by simp [ht],
    fun h => absurd h hpc⟩

theorem Account.balanced_of_told {a : Account} {r : Status} {pc : CallPc} (hq : a.queued = [])
    (hcount : a.sent.length = a.notified.length) (ha : a.answers = a.returned ++ [r]) (hpc : pc ≠ .out) :
    a.Balanced pc :=
  ⟨[r], ha, by simp [hcount, length_notified ha, hq], by simp [hq], fun h => absurd h hpc⟩

theorem Account.Ok.balanced {a : Account} {task : TaskHandle} {pc : CallPc} (hok : a.Ok task pc) : a.Balanced pc := by
  cases pc with
  | out => exact hok.1.balanced hok.2
  | send t => exact hok.2.1.balanced hok.2.2
  | ret r => exact balanced_of_told hok.1.queued hok.1.count hok.2 (by simp)
  | test c | pend c | wait c | blocked c =>
    rcases hok with ha | ht
    · exact ha.balanced (by simp)
    · exact balanced_of_told ht.queued ht.count ht.answers (by simp)

/-- What holds of the driver in every state of a run. -/
structure ExactlyOnce (s : I2c) : Prop where
  /-- Each transaction that was queued is removed once, in the order of the queue, or still there. -/
  fifo : s.sent = s.removed ++ s.gI2cQueue
  /-- For each removal its task gets one notification: an error, or the completion of its command. -/
  answered : List.Forall₂ I2c.Answers s.removed s.notified
  /-- A task's calls return `FAILURE` exactly for an error notification, one for one. -/
  returned : ∀ task, (s.account task).Balanced (s.pc task)
  enabled : s.enabled = true ↔ s.gI2cIsrState ≠ .idle
  awake : s.gI2cIsrState = .idle → s.gI2cQueue ≠ [] → s.pended = true ∨ ∃ task, (s.pc task).triggers = true

/-- **Requests are completed exactly once and never stranded**: for any tasks, calls, interleaving, interrupts and
results of the transfers. -/
theorem i2c_exactly_once {mem : ℕ → BitVec 8} {h : List I2cEvent} {s : I2c}
    (hr : Run I2c.step (I2c.init mem) h s) : ExactlyOnce s :=
  ⟨(I2c.ledger hr).fifo, (I2c.ledger hr).answered, fun task => (I2c.accounted hr task).balanced,
    (I2c.served hr).enabled, I2c.awake hr⟩

/-- Task 1 writes two bytes while task 2 asks for one; the write is completed and the read fails. -/
def writeAndRead : List I2cEvent :=
  [.call 1 (.write 0x44 100 2 1), .send 1, .test 1, .pend 1, .isr ⟨.none, true, 0⟩, .call 2 (.read 0x44 200 1), .send 2,
   .test 2, .wait 2, .isr ⟨.data, true, 0⟩, .wait 1, .isr ⟨.data, true, 0⟩, .isr ⟨.none, true, 0⟩, .isr ⟨.error, true, 0⟩,
   .notified 1, .ret 1, .notified 2, .ret 2]

theorem i2c_exactly_once_writeAndRead : ∃ h s, Run I2c.step (I2c.init fun _ => 0) h s ∧
    s.notified = [(1, i2cNotifyWriteComplete), (2, i2cNotifyErr)] ∧ (s.account 1).returned = [.success] ∧
      (s.account 2).returned = [.failure] ∧ ExactlyOnce s := by
  obtain ⟨h, s, hr, hs⟩ := exists_run I2c.step (I2c.init fun _ => 0) writeAndRead
    (fun r => (r.2.notified, (r.2.account 1).returned, (r.2.account 2).returned))
    (b := ([(1, i2cNotifyWriteComplete), (2, i2cNotifyErr)], [.success], [.failure])) (by decide +kernel)
  obtain ⟨h1, h2, h3⟩ : s.notified = _ ∧ (s.account 1).returned = _ ∧ (s.account 2).returned = _ := by
    simpa using hs
  exact ⟨h, s, hr, h1, h2, h3, i2c_exactly_once hr⟩

end Thronix
