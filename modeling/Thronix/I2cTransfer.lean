import Thronix.I2cQueue

/-!
# Thronix.I2cTransfer — the bytes of a transfer

* `EntriesIf`: a run, with the entries of `I2C_IF_ISR` in it, and a part of the memory that the tasks leave alone.
* `written`: the memory after some stores; `mem_i2cIfIsr`: an entry makes those that `stores` lists and no others.
* `Phase`, `I2cTransaction.phases`: what the entries of one transaction are there for, in order.  `ops` and `stores` are
  what an entry does on the bus and in memory.
* `I2c.Ready`: the routine's variables before each phase.  `entry_outcome` is one entry: it does its phase and readies
  the next one, or the transaction ends.
* `i2c_transfer`: a transfer whose steps succeed does its phases, whatever earlier ones left behind, and leaves the bytes
  it received in the buffer.
-/

namespace Thronix

open Lib

namespace I2c

/-! ## Entries -/

/-- `*tmpptr = MAP_I2CMasterDataGet(I2C_BASE)`, in the two receive states. -/
def stores (s : I2c) (i : IsrInput) : List (ℕ × BitVec 8) :=
  if i.status = .error then []
  else
    match s.gI2cIsrState with
    | .readNext | .readFinal => [(s.tmpptr, i.data)]
    | _ => []

/-- The memory after some stores, oldest first. -/
def written (mem : ℕ → BitVec 8) (l : List (ℕ × BitVec 8)) : ℕ → BitVec 8 :=
  l.foldl (fun m a => Function.update m a.1 a.2) mem

/-- The transactions taken out of the queue. -/
def removals (s : I2c) : List I2cTransaction := s.calls.filterMap KernelCall.removed

/-- A run from `s₀` to `s` whose tasks leave the memory at the addresses `kept` alone, and the entries of the routine in
it: the state that each found, and what the hardware answered. -/
inductive EntriesIf (kept : ℕ → Prop) (s₀ : I2c) : List (I2c × IsrInput) → I2c → Prop
  | start : EntriesIf kept s₀ [] s₀
  | task {es : List (I2c × IsrInput)} {s s' : I2c} {e : I2cEvent} (hr : EntriesIf kept s₀ es s) (he : e.ofTask = true)
      (hs : s.step e = some s') (hkept : ∀ a, kept a → s'.mem a = s.mem a) : EntriesIf kept s₀ es s'
  | isr {es : List (I2c × IsrInput)} {s s' : I2c} {i : IsrInput} (hr : EntriesIf kept s₀ es s)
      (hs : s.step (.isr i) = some s') : EntriesIf kept s₀ (es ++ [(s, i)]) s'

/-- Any run. -/
abbrev Entries : I2c → List (I2c × IsrInput) → I2c → Prop := EntriesIf fun _ => False

/-- Execute a list of events, oldest first, and record the entries. -/
def record : List (I2c × IsrInput) → I2c → List I2cEvent → Option (List (I2c × IsrInput) × I2c)
  | es, s, [] => some (es, s)
  | es, s, e :: h => (s.step e).bind fun s' =>
    match e with
    | .isr i => record (es ++ [(s, i)]) s' h
    | _ => record es s' h

/-- Of what a task does only the copy of a call touches the memory. -/
theorem mem_of_not_call {s s' : I2c} {e : I2cEvent} (he : e.ofTask = true) (hcall : ∀ task r, e ≠ .call task r)
    (hs : s.step e = some s') : s'.mem = s.mem := by
  cases e with
  | isr i => cases he
  | call task r => exact absurd rfl (hcall task r)
  | send task =>
    obtain ⟨t, -, -, rfl⟩ := step_send.mp hs
    rfl
  | test task =>
    obtain ⟨c, -, rfl⟩ := step_test.mp hs
    rfl
  | pend task =>
    obtain ⟨c, -, rfl⟩ := step_pend.mp hs
    rfl
  | wait task =>
    obtain ⟨c, -, rfl⟩ := step_wait.mp hs
    rfl
  | notified task =>
    obtain ⟨c, -, -, rfl⟩ := step_notified.mp hs
    rfl
  | ret task =>
    obtain ⟨r, -, rfl⟩ := step_ret.mp hs
    rfl

theorem entries_of_record {kept : ℕ → Prop} {s₀ : I2c} (h : List I2cEvent) (hcall : ∀ task r, .call task r ∉ h)
    {es es' : List (I2c × IsrInput)} {s s' : I2c} (hr : EntriesIf kept s₀ es s)
    (he : record es s h = some (es', s')) : EntriesIf kept s₀ es' s' := by
  induction h generalizing es s with
  | nil =>
    obtain ⟨rfl, rfl⟩ := Prod.mk.inj (Option.some.inj he)
    exact hr
  | cons e h ih =>
    obtain ⟨s1, hs, hrest⟩ := Option.bind_eq_some_iff.mp he
    have hcall' : ∀ task r, .call task r ∉ h := fun task r hmem => hcall task r (List.mem_cons_of_mem e hmem)
    have hne : ∀ task r, e ≠ .call task r := fun task r heq => hcall task r (heq ▸ List.mem_cons_self)
    cases e with
    | isr i => exact ih hcall' (.isr hr hs) hrest
    | _ => exact ih hcall' (.task hr rfl hs fun a _ => congrFun (mem_of_not_call rfl hne hs) a) hrest

/-- The queue is only added to, and the transfer left alone. -/
structure TaskFrame (s s' : I2c) : Prop where
  state : s'.gI2cIsrState = s.gI2cIsrState
  transaction : s'.transaction = s.transaction
  tmpptr : s'.tmpptr = s.tmpptr
  queue : ∃ ts, s'.gI2cQueue = s.gI2cQueue ++ ts
  bus : s'.bus = s.bus
  removals : s'.removals = s.removals

theorem taskFrame {s s' : I2c} {e : I2cEvent} (he : e.ofTask = true) (hs : s.step e = some s') : TaskFrame s s' := by
  obtain ⟨hst, -, htr, hq⟩ := step_task he hs
  refine ⟨hst, htr, ?_, hq, ?_, ?_⟩
  all_goals
    cases e with
    | isr i => cases he
    | call task r =>
      obtain ⟨-, ⟨-, rfl⟩ | ⟨-, rfl⟩⟩ := step_call.mp hs
      · rfl
      · rfl
    | send task =>
      obtain ⟨t, -, -, rfl⟩ := step_send.mp hs
      simp [goto, I2c.removals, KernelCall.removed]
    | test task =>
      obtain ⟨c, -, rfl⟩ := step_test.mp hs
      rfl
    | pend task =>
      obtain ⟨c, -, rfl⟩ := step_pend.mp hs
      rfl
    | wait task =>
      obtain ⟨c, -, rfl⟩ := step_wait.mp hs
      rfl
    | notified task =>
      obtain ⟨c, -, -, rfl⟩ := step_notified.mp hs
      rfl
    | ret task =>
      obtain ⟨r, -, rfl⟩ := step_ret.mp hs
      simp [goto, I2c.removals, KernelCall.removed]

end I2c

/-! ## Phases -/

/-- What an entry of the routine is there for: sending byte `k`, ending a write, starting to receive, storing byte `k`. -/
inductive Phase
  | send (k : ℕ)
  | stop
  | receive
  | store (k : ℕ)
  deriving DecidableEq, Repr

namespace I2cTransaction

variable (t : I2cTransaction) (tx rx : ℕ)

/-- The phases of a transaction that sends `tx` bytes and receives `rx`. -/
def phases : List Phase :=
  match t.command with
  | .write => (List.range tx).map .send ++ [.stop]
  | .read => .receive :: (List.range rx).map .store
  | .readFrom => (List.range tx).map .send ++ .receive :: (List.range rx).map .store

/-- What a phase does on the bus. -/
def ops (mem : ℕ → BitVec 8) (data : BitVec 8) : Phase → List BusOp
  | .send k =>
    (if k = 0 then [.slaveAddrSet t.devAddress false] else []) ++
      [.dataPut (mem (t.buffer + k)), .control (if k = 0 then .burstSendStart else .burstSendCont)]
  | .stop => [.control .burstSendStop]
  | .receive => [.slaveAddrSet t.devAddress true, .control (if rx = 1 then .singleReceive else .burstReceiveStart)]
  | .store k =>
    .dataGet data :: if k + 1 = rx then [] else
      [.control (if k + 2 = rx then .burstReceiveFinish else .burstReceiveCont)]

/-- What a phase stores. -/
def stores (data : BitVec 8) : Phase → List (ℕ × BitVec 8)
  | .store k => [(t.buffer + k, data)]
  | _ => []

/-- The phase after. -/
def next : Phase → Option Phase
  | .send k => some (if k + 1 < tx then .send (k + 1) else if t.command = .write then .stop else .receive)
  | .stop => none
  | .receive => some (.store 0)
  | .store k => if k + 1 < rx then some (.store (k + 1)) else none

/-- The bytes that the counters stand for: they are counted down before they are tested. -/
def sent : ℕ := (t.txlenght - 1).toNat + 1

def received : ℕ := (t.rxlenght - 1).toNat + 1

variable {t tx rx}

theorem sent_eq (h : t.txlenght ≠ 0) : t.sent = t.txlenght.toNat := by
  rw [sent]
  bv_omega

theorem received_eq (h : t.rxlenght ≠ 0) : t.received = t.rxlenght.toNat := by
  rw [received]
  bv_omega

/-- The phases by their places. -/
theorem getElem?_phases (m : ℕ) : (t.phases tx rx)[m]? =
    match t.command with
    | .write => if m < tx then some (.send m) else if m = tx then some .stop else none
    | .read => if m = 0 then some .receive else if m - 1 < rx then some (.store (m - 1)) else none
    | .readFrom =>
      if m < tx then some (.send m) else if m = tx then some .receive
      else if m - tx - 1 < rx then some (.store (m - tx - 1)) else none := by
  have hrange : ∀ (n j : ℕ) (f : ℕ → Phase), ((List.range n).map f)[j]? = if j < n then some (f j) else none := by
    intro n j f
    by_cases hj : j < n
    · rw [List.getElem?_map, List.getElem?_range hj, if_pos hj]
      rfl
    · rw [if_neg hj]
      exact List.getElem?_eq_none (by simpa using hj)
  have hsend : ∀ l : List Phase, ((List.range tx).map Phase.send ++ l)[m]? =
      if m < tx then some (.send m) else l[m - tx]? := by
    intro l
    rw [List.getElem?_append, List.length_map, List.length_range, hrange]
    by_cases hm : m < tx
    · rw [if_pos hm, if_pos hm, if_pos hm]
    · rw [if_neg hm, if_neg hm]
  cases h : t.command with
  | write =>
    simp only [phases, h, hsend]
    grind
  | read =>
    simp only [phases, h]
    rcases m with _ | m
    · rfl
    · simpa using hrange rx m .store
  | readFrom =>
    simp only [phases, h, hsend]
    rcases hm : m - tx with _ | j
    · grind
    · rw [List.getElem?_cons_succ, hrange]
      grind

/-- Each phase is followed by the next one. -/
theorem phases_next {m : ℕ} {p : Phase} (hrx : t.command ≠ .write → 0 < rx) (hp : (t.phases tx rx)[m]? = some p) :
    (t.phases tx rx)[m + 1]? = t.next tx rx p := by
  rw [getElem?_phases] at hp ⊢
  cases h : t.command with
  | write =>
    simp only [h] at hp ⊢
    split_ifs at hp <;> cases hp <;> simp [next, h] <;> grind
  | read =>
    have := hrx (by rw [h]; simp)
    simp only [h] at hp ⊢
    split_ifs at hp <;> cases hp <;> simp [next] <;> grind
  | readFrom =>
    have := hrx (by rw [h]; simp)
    simp only [h] at hp ⊢
    split_ifs at hp <;> cases hp <;> simp [next, h] <;> grind

end I2cTransaction

namespace I2c

/-- The routine's variables before a phase of the transaction `t` at the head of the queue. -/
def Ready (t : I2cTransaction) (s : I2c) : Phase → Prop
  | .send 0 => s.gI2cIsrState = .idle ∧ t.command ≠ .read
  | .send (k + 1) => s.gI2cIsrState = .writeNext ∧ s.transaction.CopyOf t ∧ t.command ≠ .read ∧
      s.tmpptr = t.buffer + (k + 1) ∧ k + 1 < t.sent ∧ s.transaction.txlenght.toNat = t.sent - (k + 1) ∧
      s.transaction.rxlenght = t.rxlenght
  | .stop => s.gI2cIsrState = .writeFinal ∧ s.transaction.CopyOf t ∧ t.command = .write
  | .receive => s.gI2cIsrState = .idle ∧ t.command = .read ∨ s.gI2cIsrState = .writeFinal ∧
      s.transaction.CopyOf t ∧ t.command = .readFrom ∧ s.transaction.rxlenght = t.rxlenght
  | .store k => s.gI2cIsrState = (if k + 1 = t.received then .readFinal else .readNext) ∧ s.transaction.CopyOf t ∧
      t.command ≠ .write ∧ s.tmpptr = t.buffer + k ∧ k < t.received ∧
      s.transaction.rxlenght.toNat = t.received - 1 - k

/-- The transaction `t` is taken out of the queue and its task notified with `bits`. -/
structure Ended (t : I2cTransaction) (s s' : I2c) (bits : BitVec 32) : Prop where
  idle : s'.gI2cIsrState = .idle
  calls : s'.calls = s.calls ++ [.xQueueReceive t, .xTaskNotify t.originTask bits]

/-- What an entry of the routine comes to, in the phase `p` of `t`. -/
inductive EntryOutcome (t : I2cTransaction) (p : Phase) (s : I2c) (i : IsrInput) (s' : I2c) : Prop
  | goesOn (p' : Phase) (hn : t.next t.sent t.received p = some p') (hr : Ready t s' p')
      (hst : s.stores i = t.stores i.data p) (hq : s'.gI2cQueue = s.gI2cQueue) (hc : s'.calls = s.calls)
  | completed (hn : t.next t.sent t.received p = none) (hst : s.stores i = t.stores i.data p)
      (he : Ended t s s' t.command.completion)
  | failed (hbad : i.status = .error ∨ i.transact = false) (hst : s.stores i = [] ∨ s.stores i = t.stores i.data p)
      (he : Ended t s s' i2cNotifyErr)

section Entry

variable {t : I2cTransaction} {rest : List I2cTransaction} {s u : I2c} {i : IsrInput} {bits : BitVec 32} {k : ℕ}

/-- The outcome speaks of the queue, the calls and the stores of the state before. -/
theorem EntryOutcome.of_eq {p : Phase} {s' : I2c} (h : EntryOutcome t p u i s') (hst : u.stores i = s.stores i)
    (hq : u.gI2cQueue = s.gI2cQueue) (hc : u.calls = s.calls) : EntryOutcome t p s i s' := by
  cases h with
  | goesOn p' hn hr hst' hq' hc' => exact .goesOn p' hn hr (hst ▸ hst') (hq'.trans hq) (hc'.trans hc)
  | completed hn hst' he => exact .completed hn (hst ▸ hst') ⟨he.idle, hc ▸ he.calls⟩
  | failed hbad hst' he => exact .failed hbad (hst ▸ hst') ⟨he.idle, hc ▸ he.calls⟩

theorem ended_finish (hq : u.gI2cQueue = t :: rest) (hidle : u.gI2cIsrState = .idle) (hc : u.calls = s.calls) :
    Ended t s (u.finish bits) bits := by
  rcases rest with _ | ⟨t', rest⟩
  all_goals
    constructor
    · simp [finish, peekPend, xQueueReceiveFromIsr, xTaskNotifyFromIsr, hq, hidle]
    · simp [finish, peekPend, xQueueReceiveFromIsr, xTaskNotifyFromIsr, hq, hc]

theorem ended_stop (hq : u.gI2cQueue = t :: rest) (hc : u.calls = s.calls) : Ended t s (u.stop bits) bits :=
  ended_finish hq rfl hc

theorem ended_onError (hq : s.gI2cQueue = t :: rest) : Ended t s s.onError i2cNotifyErr := by
  rcases rest with _ | ⟨t', rest⟩
  all_goals
    cases hst : s.gI2cIsrState
    all_goals simp [onError, peekPend, xQueueReceiveFromIsr, xTaskNotifyFromIsr, access, hq, hst, Ended.mk]

theorem frame_peekPend : u.peekPend.bus = u.bus ∧ u.peekPend.mem = u.mem := by
  unfold peekPend
  cases u.gI2cQueue <;> exact ⟨rfl, rfl⟩

theorem frame_receive : u.xQueueReceiveFromIsr.bus = u.bus ∧ u.xQueueReceiveFromIsr.mem = u.mem := by
  unfold xQueueReceiveFromIsr
  cases u.gI2cQueue <;> exact ⟨rfl, rfl⟩

/-- The queue and the notifications leave the bus and the memory alone. -/
theorem frame_finish : (u.finish bits).bus = u.bus ∧ (u.finish bits).mem = u.mem := by
  have hpeek := frame_peekPend (u := u.xQueueReceiveFromIsr.xTaskNotifyFromIsr bits)
  exact ⟨hpeek.1.trans frame_receive.1, hpeek.2.trans frame_receive.2⟩

theorem mem_onError : s.onError.mem = s.mem := by
  have hreceive : ({ s with enabled := false }.xQueueReceiveFromIsr).mem = s.mem := frame_receive.2
  unfold onError
  rw [frame_peekPend.2]
  refine Eq.trans ?_ hreceive
  dsimp only
  split <;> rfl

theorem bus_stop : (u.stop bits).bus = u.bus := frame_finish.1

/-! ## One entry -/

theorem toNat_pred {x : BitVec 8} {n : ℕ} (h : x.toNat = n + 1) : (x - 1).toNat = n := by
  bv_omega

theorem pos_iff {x : BitVec 8} {n : ℕ} (h : x.toNat = n) : x > 0 ↔ 0 < n := by
  bv_omega

theorem eq_readFrom (hr : t.command ≠ .read) (hw : t.command ≠ .write) : t.command = .readFrom := by
  cases h : t.command with
  | write => exact absurd h hw
  | read => exact absurd h hr
  | readFrom => rfl

/-- After byte `k` has been put: the counter says whether there is another one. -/
theorem ready_sent (hk : k < t.sent) (hc : t.command ≠ .read) (hcopy : u.transaction.CopyOf t)
    (hptr : u.tmpptr = t.buffer + (k + 1)) (htx : u.transaction.txlenght.toNat = t.sent - (k + 1))
    (hrx : u.transaction.rxlenght = t.rxlenght)
    (hst : u.gI2cIsrState = if u.transaction.txlenght > 0 then .writeNext else .writeFinal) :
    Ready t u (if k + 1 < t.sent then .send (k + 1) else if t.command = .write then .stop else .receive) := by
  by_cases hmore : k + 1 < t.sent
  · rw [if_pos ((pos_iff htx).mpr (by omega))] at hst
    rw [if_pos hmore]
    exact ⟨hst, hcopy, hc, hptr, hmore, htx, hrx⟩
  · rw [if_neg fun h => hmore (by have := (pos_iff htx).mp h; omega)] at hst
    rw [if_neg hmore]
    by_cases hw : t.command = .write
    · rw [if_pos hw]
      exact ⟨hst, hcopy, hw⟩
    · rw [if_neg hw]
      exact .inr ⟨hst, hcopy, eq_readFrom hc hw, hrx⟩

theorem onIdle_send (hq : s.gI2cQueue = t :: rest) (hc : t.command ≠ .read) :
    s.onIdle i = { s with transaction := t }.startSend i := by
  unfold onIdle
  split
  · rename_i h
    rw [hq] at h
    cases h
  · rename_i t' rest' h
    obtain ⟨rfl, -⟩ := List.cons.inj (hq.symm.trans h)
    split
    · rfl
    · rfl
    · rename_i hcmd
      exact absurd hcmd hc

theorem onIdle_receive (hq : s.gI2cQueue = t :: rest) (hc : t.command = .read) :
    s.onIdle i = { s with transaction := t }.startReceive i (finish i2cNotifyErr) := by
  unfold onIdle
  split
  · rename_i h
    rw [hq] at h
    cases h
  · rename_i t' rest' h
    obtain ⟨rfl, -⟩ := List.cons.inj (hq.symm.trans h)
    rw [hc]

/-- The first byte of a write. -/
theorem startSend_entry (hq : u.gI2cQueue = t :: rest) (ht : u.transaction = t) (hc : t.command ≠ .read)
    (hidle : u.gI2cIsrState = .idle) (hi : i.status ≠ .error) :
    EntryOutcome t (.send 0) u i (u.startSend i) := by
  have hstores : u.stores i = [] := by simp [stores, hi, hidle]
  unfold startSend
  by_cases hok : i.transact = true
  · rw [if_pos hok]
    refine .goesOn _ rfl (ready_sent (Nat.succ_pos _) hc ?_ ?_ ?_ ?_ rfl) hstores rfl rfl
    · rw [ht]
      exact ⟨rfl, rfl, rfl, rfl⟩
    · rw [ht]
      rfl
    · rw [ht]
      rfl
    · rw [ht]
  · rw [if_neg hok]
    exact .failed (.inr (Bool.eq_false_iff.mpr hok)) (.inl hstores) (ended_finish hq hidle rfl)

theorem onWriteNext_entry (hq : s.gI2cQueue = t :: rest) (hr : Ready t s (.send (k + 1))) (hi : i.status ≠ .error) :
    EntryOutcome t (.send (k + 1)) s i (s.onWriteNext i) := by
  obtain ⟨hst, hcopy, hc, hptr, hlt, htx, hrx⟩ := hr
  have hstores : s.stores i = [] := by simp [stores, hi, hst]
  unfold onWriteNext
  by_cases hok : i.transact = true
  · rw [if_pos hok]
    refine .goesOn _ rfl (ready_sent hlt hc ⟨hcopy.originTask, hcopy.buffer, hcopy.command, hcopy.devAddress⟩ ?_ ?_
      hrx rfl) hstores rfl rfl
    · show s.tmpptr + 1 = _
      rw [hptr]
      rfl
    · show (s.transaction.txlenght - 1).toNat = _
      exact toNat_pred (by omega)
  · rw [if_neg hok]
    exact .failed (.inr (Bool.eq_false_iff.mpr hok)) (.inl hstores) (ended_stop hq rfl)

theorem onWriteFinal_entry_stop (hq : s.gI2cQueue = t :: rest) (hr : Ready t s .stop) (hi : i.status ≠ .error) :
    EntryOutcome t .stop s i (s.onWriteFinal i) := by
  obtain ⟨hst, hcopy, hw⟩ := hr
  unfold onWriteFinal
  rw [if_pos (by rw [hcopy.command, hw]; simp)]
  refine .completed rfl (by simp [stores, hi, hst, I2cTransaction.stores]) ?_
  rw [show t.command.completion = i2cNotifyWriteComplete by rw [hw]; rfl]
  exact ended_stop hq rfl

/-- The start of a reception; the counter is counted down at once. -/
theorem startReceive_entry {fail : I2c → I2c} (hq : u.gI2cQueue = t :: rest) (hcopy : u.transaction.CopyOf t)
    (hrx : u.transaction.rxlenght = t.rxlenght) (hc : t.command ≠ .write) (hstores : u.stores i = [])
    (hfail : ∀ v : I2c, v.gI2cQueue = t :: rest → v.gI2cIsrState = u.gI2cIsrState → v.calls = u.calls →
      Ended t u (fail v) i2cNotifyErr) :
    EntryOutcome t .receive u i (u.startReceive i fail) := by
  unfold startReceive
  by_cases hok : i.transact = true
  · rw [if_pos hok]
    have hleft : (t.rxlenght - 1).toNat = t.received - 1 := rfl
    have hzero : t.rxlenght - 1 = 0 ↔ 0 + 1 = t.received := by
      rw [I2cTransaction.received]
      bv_omega
    refine .goesOn _ rfl ⟨?_, ⟨hcopy.originTask, hcopy.buffer, hcopy.command, hcopy.devAddress⟩, hc, ?_,
      Nat.succ_pos _, ?_⟩ hstores rfl rfl
    · simp only [hrx, hzero]
    · exact hcopy.buffer
    · show (u.transaction.rxlenght - 1).toNat = _
      rw [hrx]
      exact hleft
  · rw [if_neg hok]
    exact .failed (.inr (Bool.eq_false_iff.mpr hok)) (.inl hstores) (hfail _ hq rfl rfl)

theorem stores_store (hr : Ready t s (.store k)) (hi : i.status ≠ .error) :
    s.stores i = t.stores i.data (.store k) := by
  obtain ⟨hst, -, -, hptr, -, -⟩ := hr
  unfold stores
  rw [if_neg hi, hst, hptr]
  split_ifs <;> rfl

theorem onReadNext_entry (hq : s.gI2cQueue = t :: rest) (hr : Ready t s (.store k)) (hlt : k + 1 < t.received)
    (hi : i.status ≠ .error) : EntryOutcome t (.store k) s i (s.onReadNext i) := by
  have hstores := stores_store hr hi
  obtain ⟨hst, hcopy, hc, hptr, -, hrx⟩ := hr
  rw [if_neg (by omega)] at hst
  have hleft : (s.transaction.rxlenght - 1).toNat = t.received - 1 - (k + 1) := toNat_pred (by omega)
  have hzero : s.transaction.rxlenght - 1 = 0 ↔ k + 1 + 1 = t.received := by
    bv_omega
  have hcopy' : I2cTransaction.CopyOf { s.transaction with rxlenght := s.transaction.rxlenght - 1 } t :=
    ⟨hcopy.originTask, hcopy.buffer, hcopy.command, hcopy.devAddress⟩
  have hptr' : s.tmpptr + 1 = t.buffer + (k + 1) := by rw [hptr, Nat.add_assoc]
  have hnext : t.next t.sent t.received (.store k) = some (.store (k + 1)) := if_pos hlt
  unfold onReadNext
  by_cases hok : i.transact = true
  · rw [if_pos hok]
    by_cases hlast : (s.store i).transaction.rxlenght - 1 = 0
    · have hphase := hzero.mp hlast
      rw [if_pos hlast]
      exact .goesOn _ hnext ⟨by rw [if_pos hphase], hcopy', hc, hptr', hlt, hleft⟩ hstores rfl rfl
    · have hphase := mt hzero.mpr hlast
      rw [if_neg hlast]
      exact .goesOn _ hnext ⟨by rw [if_neg hphase]; exact hst, hcopy', hc, hptr', hlt, hleft⟩ hstores rfl rfl
  · rw [if_neg hok]
    exact .failed (.inr (Bool.eq_false_iff.mpr hok)) (.inr hstores) (ended_stop hq rfl)

theorem onReadFinal_entry (hq : s.gI2cQueue = t :: rest) (hr : Ready t s (.store k)) (hlast : k + 1 = t.received)
    (hi : i.status ≠ .error) : EntryOutcome t (.store k) s i (s.onReadFinal i) := by
  have hstores := stores_store hr hi
  obtain ⟨-, -, hc, -, -, -⟩ := hr
  have hcompletion : t.command.completion = i2cNotifyReadComplete := by
    cases h : t.command with
    | write => exact absurd h hc
    | read => rfl
    | readFrom => rfl
  refine .completed (if_neg (by omega)) hstores ?_
  rw [hcompletion]
  exact ended_stop hq rfl

/-- **One entry of the routine** does the phase that the variables are ready for, or the transaction fails. -/
theorem entry_outcome {p : Phase} (hq : s.gI2cQueue = t :: rest) (hr : Ready t s p) :
    EntryOutcome t p s i (s.i2cIfIsr i) := by
  unfold i2cIfIsr
  by_cases hi : i.status = .error
  · rw [if_pos hi]
    exact .failed (.inl hi) (.inl (by rw [stores, if_pos hi])) (ended_onError hq)
  · rw [if_neg hi]
    cases p with
    | send k =>
      cases k with
      | zero =>
        obtain ⟨hst, hc⟩ := hr
        rw [hst]
        show EntryOutcome t (.send 0) s i (s.onIdle i)
        rw [onIdle_send hq hc]
        exact (startSend_entry (u := { s with transaction := t }) hq rfl hc hst hi).of_eq rfl rfl rfl
      | succ k =>
        have hst := hr.1
        rw [hst]
        exact onWriteNext_entry hq hr hi
    | stop =>
      have hst := hr.1
      rw [hst]
      exact onWriteFinal_entry_stop hq hr hi
    | receive =>
      rcases hr with ⟨hst, hc⟩ | ⟨hst, hcopy, hc, hrx⟩
      · have hstores : s.stores i = [] := by simp [stores, hi, hst]
        rw [hst]
        show EntryOutcome t .receive s i (s.onIdle i)
        rw [onIdle_receive hq hc]
        exact (startReceive_entry (u := { s with transaction := t }) hq .rfl rfl (by rw [hc]; simp) hstores
          fun v hv hvst hvc => ended_finish hv (hvst.trans hst) hvc).of_eq rfl rfl rfl
      · have hstores : s.stores i = [] := by simp [stores, hi, hst]
        rw [hst]
        show EntryOutcome t .receive s i (s.onWriteFinal i)
        unfold onWriteFinal
        rw [if_neg (by rw [hcopy.command, hc]; simp)]
        exact startReceive_entry hq hcopy hrx (by rw [hc]; simp) hstores fun v hv _ hvc => ended_stop hv hvc
    | store k =>
      have hst := hr.1
      by_cases hlast : k + 1 = t.received
      · rw [if_pos hlast] at hst
        rw [hst]
        exact onReadFinal_entry hq hr hlast hi
      · have hlt : k + 1 < t.received := by
          have := hr.2.2.2.2.1
          omega
        rw [if_neg hlast] at hst
        rw [hst]
        exact onReadNext_entry hq hr hlt hi

/-- The pending bit, which the entry takes, plays no part in a phase. -/
theorem Ready.unpend {p : Phase} (hr : Ready t s p) : Ready t { s with pended := false } p := by
  rcases p with k | _ | _ | k
  · rcases k with _ | k <;> exact hr
  all_goals exact hr

theorem entry_step {p : Phase} {s' : I2c} (hq : s.gI2cQueue = t :: rest) (hr : Ready t s p)
    (hs : s.step (.isr i) = some s') : EntryOutcome t p s i s' := by
  obtain ⟨-, rfl⟩ := step_isr.mp hs
  exact (entry_outcome (s := { s with pended := false }) hq hr.unpend).of_eq rfl rfl rfl

/-- What the phase does on the bus, where the step succeeds. -/
theorem entry_bus {p : Phase} (hq : s.gI2cQueue = t :: rest) (hr : Ready t s p) (hi : i.status ≠ .error)
    (hok : i.transact = true) : (s.i2cIfIsr i).bus = s.bus ++ t.ops t.received s.mem i.data p := by
  unfold i2cIfIsr
  rw [if_neg hi]
  cases p with
  | send k =>
    cases k with
    | zero =>
      obtain ⟨hst, hc⟩ := hr
      rw [hst]
      show (s.onIdle i).bus = _
      rw [onIdle_send hq hc]
      simp [startSend, hok, access, i2cTransact, I2cTransaction.ops]
    | succ k =>
      obtain ⟨hst, hcopy, hc, hptr, -, -, -⟩ := hr
      rw [hst]
      show (s.onWriteNext i).bus = _
      simp [onWriteNext, hok, access, i2cTransact, I2cTransaction.ops, hptr]
  | stop =>
    obtain ⟨hst, hcopy, hw⟩ := hr
    rw [hst]
    show (s.onWriteFinal i).bus = _
    unfold onWriteFinal
    rw [if_pos (by rw [hcopy.command, hw]; simp), bus_stop]
    simp [hok, access, i2cTransact, I2cTransaction.ops]
  | receive =>
    have hzero : t.rxlenght - 1#8 = 0#8 ↔ t.received = 1 := by
      rw [I2cTransaction.received]
      bv_omega
    rcases hr with ⟨hst, hc⟩ | ⟨hst, hcopy, hc, hrx⟩
    · rw [hst]
      show (s.onIdle i).bus = _
      rw [onIdle_receive hq hc]
      simp [startReceive, hok, access, i2cTransact, I2cTransaction.ops, hzero]
    · rw [hst]
      show (s.onWriteFinal i).bus = _
      unfold onWriteFinal
      rw [if_neg (by rw [hcopy.command, hc]; simp)]
      simp [startReceive, hok, access, i2cTransact, I2cTransaction.ops, hrx, hzero, hcopy.devAddress]
  | store k =>
    obtain ⟨hst, -, -, -, hlt, hrx⟩ := hr
    by_cases hlast : k + 1 = t.received
    · rw [if_pos hlast] at hst
      rw [hst]
      show (s.onReadFinal i).bus = _
      unfold onReadFinal
      rw [bus_stop]
      simp [store, access, I2cTransaction.ops, hlast]
    · have hzero : s.transaction.rxlenght - 1#8 = 0#8 ↔ k + 2 = t.received := by
        bv_omega
      rw [if_neg hlast] at hst
      rw [hst]
      show (s.onReadNext i).bus = _
      by_cases hleft : s.transaction.rxlenght - 1#8 = 0#8
      · simp [onReadNext, hok, store, access, i2cTransact, I2cTransaction.ops, hlast, hleft, hzero.mp hleft]
      · simp [onReadNext, hok, store, access, i2cTransact, I2cTransaction.ops, hlast, hleft, mt hzero.mpr hleft]

/-- What an entry stores is all that it changes in memory. -/
theorem mem_i2cIfIsr (i : IsrInput) (s : I2c) :
    (s.i2cIfIsr i).mem = written s.mem (s.stores i) := by
  unfold i2cIfIsr stores
  by_cases hi : i.status = .error
  · rw [if_pos hi, if_pos hi]
    exact mem_onError
  · rw [if_neg hi, if_neg hi]
    have hreceive : ∀ (u : I2c) (fail : I2c → I2c), (∀ v, (fail v).mem = v.mem) →
        (u.startReceive i fail).mem = u.mem := by
      intro u fail hfail
      unfold startReceive
      split
      · rfl
      · exact hfail _
    have hsend : ∀ u : I2c, (u.startSend i).mem = u.mem := by
      intro u
      unfold startSend
      split
      · rfl
      · exact frame_finish.2
    cases hst : s.gI2cIsrState with
    | idle =>
      show (s.onIdle i).mem = s.mem
      unfold onIdle
      split
      · rfl
      · split
        · exact hsend _
        · exact hsend _
        · exact hreceive _ _ fun v => frame_finish.2
    | writeNext =>
      show (s.onWriteNext i).mem = s.mem
      unfold onWriteNext
      split
      · rfl
      · exact frame_finish.2
    | writeFinal =>
      show (s.onWriteFinal i).mem = s.mem
      unfold onWriteFinal
      split
      · exact frame_finish.2
      · exact hreceive _ _ fun v => frame_finish.2
    | readNext =>
      show (s.onReadNext i).mem = Function.update s.mem s.tmpptr i.data
      unfold onReadNext
      by_cases hok : i.transact = true
      · rw [if_pos hok]
        split_ifs <;> rfl
      · rw [if_neg hok]
        exact frame_finish.2
    | readFinal => exact frame_finish.2

theorem mem_step_isr {s' : I2c} (hs : s.step (.isr i) = some s') : s'.mem = written s.mem (s.stores i) := by
  obtain ⟨-, rfl⟩ := step_isr.mp hs
  exact mem_i2cIfIsr i { s with pended := false }

end Entry

/-! ## Runs -/

/-- The step of the entry succeeds, and a hardware event caused it unless it starts the transfer. -/
def Succeeds (s : I2c) (i : IsrInput) : Prop :=
  i.status ≠ .error ∧ i.transact = true ∧ (s.gI2cIsrState ≠ .idle → i.status = .data)

/-- The transaction `t` has gone through the phases that the entries `es` were there for; the tasks left the memory at the
addresses `kept` alone. -/
structure Transferred (kept : ℕ → Prop) (t : I2cTransaction) (tx rx : ℕ) (s₀ : I2c) (es : List (I2c × IsrInput))
    (s : I2c) : Prop where
  /-- Each entry did what its phase does on the bus, -/
  bus : s.bus = s₀.bus ++ (List.zipWith (fun p e => t.ops rx e.1.mem e.2.data p) (t.phases tx rx) es).flatten
  /-- and left the memory as it found it but for what its phase stores. -/
  stores : ∀ (j : ℕ) p (u : I2c) i u', (t.phases tx rx)[j]? = some p → es[j]? = some (u, i) → u.step (.isr i) = some u' →
    u'.mem = written u.mem (t.stores i.data p)
  /-- The bytes received are in the buffer, each at its place, -/
  received : ∀ (j : ℕ) k (u : I2c) i, (t.phases tx rx)[j]? = some (.store k) → es[j]? = some (u, i) →
    kept (t.buffer + k) → s.mem (t.buffer + k) = i.data
  /-- and the rest of the memory is as before. -/
  untouched : ∀ a, kept a → (∀ k < rx, a ≠ t.buffer + k) → s.mem a = s₀.mem a
  /-- Up to the last phase the transaction is at the head of the queue. -/
  running : es.length < (t.phases tx rx).length → s.gI2cQueue.head? = some t ∧ s.removals = s₀.removals
  /-- After it, it has been taken out and its task told. -/
  done : es.length = (t.phases tx rx).length → s.gI2cIsrState = .idle ∧ s.removals = s₀.removals ++ [t] ∧
    ∃ u i s', es.getLast? = some (u, i) ∧ u.step (.isr i) = some s' ∧ Ended t u s' t.command.completion

section Runs

variable {kept : ℕ → Prop} {t : I2cTransaction} {rest : List I2cTransaction} {tx rx : ℕ} {s₀ s s' : I2c}
  {es : List (I2c × IsrInput)}

/-- One more place of a list is worked off. -/
theorem zipWith_snoc {α β γ : Type} (f : α → β → γ) {l : List α} {bs : List β} {a : α} (b : β)
    (ha : l[bs.length]? = some a) : List.zipWith f l (bs ++ [b]) = List.zipWith f l bs ++ [f a b] := by
  induction bs generalizing l with
  | nil =>
    rcases l with _ | ⟨a', l⟩
    · cases ha
    · obtain rfl : a' = a := Option.some.inj ha
      simp
  | cons b' bs ih =>
    rcases l with _ | ⟨a', l⟩
    · cases ha
    · rw [List.cons_append, List.zipWith_cons_cons, List.zipWith_cons_cons, List.cons_append]
      exact congrArg _ (ih (by simpa using ha))

/-- The tasks leave what a phase needs alone. -/
theorem Ready.task {p : Phase} (hr : Ready t s p) (hf : TaskFrame s s') : Ready t s' p := by
  have hstate := hf.state
  have htrans := hf.transaction
  have hptr := hf.tmpptr
  rcases p with k | _ | _ | k
  · rcases k with _ | k
    · simpa only [Ready, hstate] using hr
    · simpa only [Ready, hstate, htrans, hptr] using hr
  · simpa only [Ready, hstate, htrans] using hr
  · simpa only [Ready, hstate, htrans] using hr
  · simpa only [Ready, hstate, htrans, hptr] using hr

/-- The first phase starts from `STATE_IDLE`. -/
theorem ready_first (hidle : s.gI2cIsrState = .idle) (htx : t.command ≠ .read → 0 < tx) :
    ∃ p, (t.phases tx rx)[0]? = some p ∧ Ready t s p := by
  cases hc : t.command with
  | read => exact ⟨.receive, by simp [I2cTransaction.getElem?_phases, hc], .inl ⟨hidle, hc⟩⟩
  | _ =>
    have hpos := htx (by rw [hc]; simp)
    exact ⟨.send 0, by simp [I2cTransaction.getElem?_phases, hc, hpos], hidle, by rw [hc]; simp⟩

/-- A phase that is ready is one of its command. -/
theorem Ready.next_eq {p : Phase} (hr : Ready t s p) (htx : t.command ≠ .read → tx = t.sent)
    (hrx : t.command ≠ .write → rx = t.received) : t.next tx rx p = t.next t.sent t.received p := by
  rcases p with k | _ | _ | k
  · have hc : t.command ≠ .read := by
      rcases k with _ | k
      · exact hr.2
      · exact hr.2.2.1
    simp only [I2cTransaction.next, htx hc]
  · rfl
  · rfl
  · simp only [I2cTransaction.next, hrx hr.2.2.1]

theorem Ready.ops_eq {p : Phase} {mem : ℕ → BitVec 8} {data : BitVec 8} (hr : Ready t s p)
    (hrx : t.command ≠ .write → rx = t.received) : t.ops rx mem data p = t.ops t.received mem data p := by
  rcases p with k | _ | _ | k
  · rfl
  · rfl
  · have hc : t.command ≠ .write := by
      rcases hr with ⟨-, hc⟩ | ⟨-, -, hc, -⟩ <;> rw [hc] <;> simp
    simp only [I2cTransaction.ops, hrx hc]
  · simp only [I2cTransaction.ops, hrx hr.2.2.1]

/-- What is before phase number `es.length`. -/
structure Before (kept : ℕ → Prop) (t : I2cTransaction) (tx rx : ℕ) (s₀ : I2c) (es : List (I2c × IsrInput))
    (s : I2c) : Prop where
  bus : s.bus = s₀.bus ++ (List.zipWith (fun p e => t.ops rx e.1.mem e.2.data p) (t.phases tx rx) es).flatten
  stores : ∀ (j : ℕ) p (u : I2c) i u', (t.phases tx rx)[j]? = some p → es[j]? = some (u, i) → u.step (.isr i) = some u' →
    u'.mem = written u.mem (t.stores i.data p)
  received : ∀ (j : ℕ) k (u : I2c) i, (t.phases tx rx)[j]? = some (.store k) → es[j]? = some (u, i) →
    kept (t.buffer + k) → s.mem (t.buffer + k) = i.data
  untouched : ∀ a, kept a → (∀ k < rx, a ≠ t.buffer + k) → s.mem a = s₀.mem a
  phase : (∃ p rest, (t.phases tx rx)[es.length]? = some p ∧ Ready t s p ∧ s.gI2cQueue = t :: rest ∧
      s.removals = s₀.removals) ∨
    (t.phases tx rx)[es.length]? = none ∧ s.gI2cIsrState = .idle ∧ s.removals = s₀.removals ++ [t] ∧
      ∃ u i s', es.getLast? = some (u, i) ∧ u.step (.isr i) = some s' ∧ Ended t u s' t.command.completion

theorem Before.task (hb : Before kept t tx rx s₀ es s) (hf : TaskFrame s s') (hkept : ∀ a, kept a → s'.mem a = s.mem a) :
    Before kept t tx rx s₀ es s' := by
  refine ⟨hf.bus.trans hb.bus, hb.stores, fun j k u i hp he hk => ?_, fun a ha hout => ?_, ?_⟩
  · rw [hkept _ hk]
    exact hb.received j k u i hp he hk
  · rw [hkept a ha]
    exact hb.untouched a ha hout
  · rcases hb.phase with ⟨p, rest, hp, hr, hq, hrem⟩ | ⟨hp, hidle, hrem, hlast⟩
    · obtain ⟨ts, hts⟩ := hf.queue
      exact .inl ⟨p, rest ++ ts, hp, hr.task hf, by rw [hts, hq]; rfl, hf.removals.trans hrem⟩
    · exact .inr ⟨hp, hf.state.trans hidle, hf.removals.trans hrem, hlast⟩

/-- The place of the phase that stores a byte. -/
theorem store_place {j k : ℕ} (hj : (t.phases tx rx)[j]? = some (.store k)) :
    k < rx ∧ j = (if t.command = .read then 0 else tx) + 1 + k := by
  rw [I2cTransaction.getElem?_phases] at hj
  cases hc : t.command with
  | write =>
    simp only [hc] at hj
    split_ifs at hj <;> cases hj
  | read =>
    simp only [hc] at hj
    split_ifs at hj <;> cases hj
    simp
    omega
  | readFrom =>
    simp only [hc] at hj
    split_ifs at hj <;> cases hj
    simp
    omega

/-- The memory after the entry of one more phase. -/
theorem Before.mem_snoc {i : IsrInput} {p : Phase} (hb : Before kept t tx rx s₀ es s)
    (hp : (t.phases tx rx)[es.length]? = some p) (hmem : s'.mem = written s.mem (t.stores i.data p)) :
    (∀ (j : ℕ) k (u : I2c) i', (t.phases tx rx)[j]? = some (.store k) → (es ++ [(s, i)])[j]? = some (u, i') →
      kept (t.buffer + k) → s'.mem (t.buffer + k) = i'.data) ∧
    ∀ a, kept a → (∀ k < rx, a ≠ t.buffer + k) → s'.mem a = s₀.mem a := by
  constructor
  · intro j k u i' hj he hk
    rcases Nat.lt_trichotomy j es.length with hlt | rfl | hgt
    · rw [List.getElem?_append_left hlt] at he
      have hold := hb.received j k u i' hj he hk
      rw [hmem]
      cases p with
      | store k' =>
        have hne : t.buffer + k ≠ t.buffer + k' := by
          intro heq
          obtain rfl : k = k' := by omega
          have hplace := (store_place hj).2.trans (store_place hp).2.symm
          omega
        exact (Function.update_of_ne hne _ _).trans hold
      | _ => exact hold
    · obtain rfl : Phase.store k = p := Option.some.inj (hj.symm.trans hp)
      have hlast : (s, i) = (u, i') := by simpa using he
      obtain ⟨-, rfl⟩ := Prod.mk.inj hlast
      rw [hmem]
      exact Function.update_self _ _ _
    · rw [List.getElem?_eq_none (by rw [List.length_append, List.length_singleton]; omega)] at he
      cases he
  · intro a ha hout
    rw [hmem]
    cases p with
    | store k => exact (Function.update_of_ne (hout k (store_place hp).1) _ _).trans (hb.untouched a ha hout)
    | _ => exact hb.untouched a ha hout

theorem Before.isr {i : IsrInput} (htx : t.command ≠ .read → tx = t.sent)
    (hrx : t.command ≠ .write → rx = t.received) (hb : Before kept t tx rx s₀ es s) (hok : Succeeds s i)
    (hlt : es.length < (t.phases tx rx).length) (hs : s.step (.isr i) = some s') :
    Before kept t tx rx s₀ (es ++ [(s, i)]) s' := by
  obtain ⟨hi, htransact, -⟩ := hok
  rcases hb.phase with ⟨p, rest, hp, hr, hq, hrem⟩ | ⟨hp, -⟩
  swap
  · exact absurd (List.getElem?_eq_none_iff.mp hp) (by omega)
  have hbus : s'.bus = s.bus ++ t.ops t.received s.mem i.data p := by
    obtain ⟨-, rfl⟩ := step_isr.mp hs
    exact entry_bus (s := { s with pended := false }) hq hr.unpend hi htransact
  have hout := entry_step hq hr hs
  have hstores : s.stores i = t.stores i.data p := by
    cases hout with
    | goesOn p' hn hr' hst hq' hc => exact hst
    | completed hn hst he => exact hst
    | failed hbad hst he => rcases hbad with h | h <;> simp_all
  have hnext : (t.phases tx rx)[es.length + 1]? = t.next t.sent t.received p := by
    rw [← hr.next_eq htx hrx]
    exact I2cTransaction.phases_next (fun hc => by rw [hrx hc]; exact Nat.succ_pos _) hp
  have hmem : s'.mem = written s.mem (t.stores i.data p) := hstores ▸ mem_step_isr hs
  obtain ⟨hreceived, huntouched⟩ := hb.mem_snoc hp hmem
  refine ⟨?_, fun j q u i' u' hq he hu => ?_, hreceived, huntouched, ?_⟩
  · rw [zipWith_snoc _ _ hp, List.flatten_append, ← List.append_assoc, ← hb.bus]
    simpa [hr.ops_eq hrx] using hbus
  · by_cases hj : j < es.length
    · rw [List.getElem?_append_left hj] at he
      exact hb.stores j q u i' u' hq he hu
    · obtain rfl : j = es.length := by
        have := (List.getElem?_eq_some_iff.mp he).1
        rw [List.length_append, List.length_singleton] at this
        omega
      obtain rfl : q = p := Option.some.inj (hq.symm.trans hp)
      obtain ⟨rfl, rfl⟩ : s = u ∧ i = i' := by simpa using he
      obtain rfl := Option.some.inj (hs.symm.trans hu)
      exact hmem
  · rw [List.length_append, List.length_singleton, hnext]
    cases hout with
    | goesOn p' hn hr' hst hq' hc =>
      refine .inl ⟨p', rest, hn, hr', hq'.trans hq, ?_⟩
      rw [← hrem, removals, removals, hc]
    | completed hn hst he =>
      refine .inr ⟨hn, he.idle, ?_, s, i, s', by simp, hs, he⟩
      rw [← hrem, removals, removals, he.calls, List.filterMap_append]
      rfl
    | failed hbad hst he => rcases hbad with h | h <;> simp_all

end Runs

end I2c

/-- The lengths that a command uses are not zero. -/
def I2cTransaction.LengthsOk (t : I2cTransaction) : Prop :=
  (t.command ≠ .read → t.txlenght ≠ 0) ∧ (t.command ≠ .write → t.rxlenght ≠ 0)

/-- **A transfer moves the requested bytes.**  From whatever state of an idle driver with `t` at the head of its queue,
and with whatever the tasks do meanwhile: the entries whose steps succeed go through the phases of `t`.  At the addresses
that the tasks leave alone the memory is then what the transfer left there. -/
theorem i2c_transfer {kept : ℕ → Prop} {t : I2cTransaction} {rest : List I2cTransaction} {s₀ s : I2c}
    {es : List (I2c × IsrInput)} (hidle : s₀.gI2cIsrState = .idle) (hq : s₀.gI2cQueue = t :: rest) (hlen : t.LengthsOk)
    (hr : I2c.EntriesIf kept s₀ es s) (hok : ∀ e ∈ es, I2c.Succeeds e.1 e.2)
    (hes : es.length ≤ (t.phases t.txlenght.toNat t.rxlenght.toNat).length) :
    I2c.Transferred kept t t.txlenght.toNat t.rxlenght.toNat s₀ es s := by
  have htx : t.command ≠ .read → t.txlenght.toNat = t.sent := fun hc => (I2cTransaction.sent_eq (hlen.1 hc)).symm
  have hrx : t.command ≠ .write → t.rxlenght.toNat = t.received := fun hc =>
    (I2cTransaction.received_eq (hlen.2 hc)).symm
  have hbefore : I2c.Before kept t t.txlenght.toNat t.rxlenght.toNat s₀ es s := by
    induction hr with
    | start =>
      have hpos : t.command ≠ .read → 0 < t.txlenght.toNat := fun hc => htx hc ▸ Nat.succ_pos _
      obtain ⟨p, hp, hready⟩ := I2c.ready_first hidle hpos
      exact ⟨by simp, by simp, by simp, fun _ _ _ => rfl, .inl ⟨p, rest, hp, hready, hq, rfl⟩⟩
    | task _ he hs hkept ih => exact (ih hok hes).task (I2c.taskFrame he hs) hkept
    | isr _ hs ih =>
      rw [List.length_append, List.length_singleton] at hes
      refine (ih (fun e he => hok e (List.mem_append_left _ he)) (by omega)).isr htx hrx ?_ (by omega) hs
      exact hok _ (List.mem_append_right _ (List.mem_singleton_self _))
  refine ⟨hbefore.bus, hbefore.stores, hbefore.received, hbefore.untouched, fun hlt => ?_, fun heq => ?_⟩
  · rcases hbefore.phase with ⟨p, rest', -, -, hq', hrem⟩ | ⟨hnone, -⟩
    · exact ⟨by rw [hq']; rfl, hrem⟩
    · exact absurd (List.getElem?_eq_none_iff.mp hnone) (by omega)
  · rcases hbefore.phase with ⟨p, -, hp, -⟩ | ⟨-, hdone⟩
    · obtain ⟨hlt, -⟩ := List.getElem?_eq_some_iff.mp hp
      omega
    · exact hdone

/-- Task 1 writes two bytes, and the first one is not acknowledged; then task 2 asks for one byte. -/
def failedThenReadFrom : List I2cEvent :=
  [.call 1 (.write 0x44 100 2 1), .send 1, .test 1, .pend 1, .isr ⟨.none, true, 0⟩,
   .call 2 (.readFrom 0x45 50 1 200 2), .send 2, .test 2, .isr ⟨.error, true, 0⟩]

/-- The transfer of task 2, while task 1 wakes up. -/
def readFromTransfer : List I2cEvent :=
  [.isr ⟨.none, true, 0⟩, .wait 1, .notified 1, .ret 1, .isr ⟨.data, true, 0⟩, .isr ⟨.data, true, 0xA1⟩,
   .isr ⟨.data, true, 0xA2⟩]

def readFromTask2 : I2cTransaction := ⟨2, 200, 2, 1, .readFrom, 0x45⟩

theorem i2c_transfer_afterFailure : ∃ h s₀ es s, Run I2c.step (I2c.init fun _ => 7) h s₀ ∧
    I2c.EntriesIf (fun _ => True) s₀ es s ∧ es.length = 4 ∧
    I2c.Transferred (fun _ => True) readFromTask2 1 2 s₀ es s := by
  have hexec : ((exec I2c.step (fun _ _ _ => true) [] (I2c.init fun _ => 7) failedThenReadFrom).bind fun r =>
      (I2c.record [] r.2 readFromTransfer).map fun q =>
        (r.2.gI2cIsrState, r.2.gI2cQueue, q.1.map fun e => (e.1.gI2cIsrState, e.2))) =
      some (.idle, [readFromTask2], [(.idle, ⟨.none, true, 0⟩), (.writeFinal, ⟨.data, true, 0⟩),
        (.readNext, ⟨.data, true, 0xA1⟩), (.readFinal, ⟨.data, true, 0xA2⟩)]) := by decide +kernel
  obtain ⟨⟨h, s₀⟩, hr, hrest⟩ := Option.bind_eq_some_iff.mp hexec
  obtain ⟨⟨es, s⟩, hes, hshown⟩ := Option.map_eq_some_iff.mp hrest
  obtain ⟨hidle, h2⟩ := Prod.mk.inj hshown
  obtain ⟨hq, hentries⟩ := Prod.mk.inj h2
  have hrun : I2c.EntriesIf (fun _ => True) s₀ es s :=
    I2c.entries_of_record _ (by simp [readFromTransfer]) .start hes
  have hlen : es.length = 4 := by simpa using congrArg List.length hentries
  have hok : ∀ e ∈ es, I2c.Succeeds e.1 e.2 := by
    intro e he
    have hmem := hentries ▸ List.mem_map_of_mem (f := fun e : I2c × IsrInput => (e.1.gI2cIsrState, e.2)) he
    simp only [List.mem_cons, Prod.mk.injEq, List.not_mem_nil, or_false] at hmem
    rcases hmem with ⟨h1, h2⟩ | ⟨h1, h2⟩ | ⟨h1, h2⟩ | ⟨h1, h2⟩ <;> simp [I2c.Succeeds, h1, h2]
  exact ⟨h, s₀, es, s, runIf_of_exec (fun _ _ _ _ => trivial) .start hr, hrun, hlen,
    i2c_transfer hidle hq ⟨fun _ => by decide, fun _ => by decide⟩ hrun hok (by rw [hlen]; decide)⟩

end Thronix
