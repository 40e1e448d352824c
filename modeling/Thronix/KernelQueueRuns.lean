import Thronix.KernelQueueCalls
import Thronix.Lib.Traces
import Thronix.Platform

/-!
# Thronix.KernelQueueRuns — what the calls at a kernel queue return

* `observed`: what the critical sections of a run do with the queue.  `lastLook`: what a task has seen of it last.
* `queue_refines`: no copy is outside the storage area, the sections do what a bounded queue does, and the calls return
  what their sections have seen and done.
* `queue_conserves`: what calls have sent is received by calls once, and in order where it is sent to the back.
* `queue_of_one`: a queue of length one that is overwritten and peeked at is a `Queue1`.
-/

namespace Thronix.KernelQueue

open Lib

/-! ## What is returned -/

/-- What a call tells of a queue by returning. -/
def Return.action (r : Return) : Fifo.Action Item := r.call.action r.result

/-- The item that a call has sent. -/
def Return.sent (r : Return) : Option Item :=
  match r.call with
  | .send item _ => if r.result.xReturn = pdPASS then some item else none
  | _ => none

/-- The item that a call has received. -/
def Return.received (r : Return) : Option Item :=
  match r.call with
  | .receive => if r.result.xReturn = pdPASS then r.result.pvBuffer else none
  | _ => none

/-- The items that have been sent, the first one first. -/
def sentItems (rs : List Return) : List Item := (rs.filterMap Return.sent).reverse

def receivedItems (rs : List Return) : List Item := (rs.filterMap Return.received).reverse

/-- It throws no item away. -/
def Call.Keeps : Call → Prop
  | .send _ xPosition => xPosition ≠ .overwrite
  | _ => True

/-- And puts none before others. -/
def Call.InOrder : Call → Prop
  | .send _ xPosition => xPosition = .sendToBack
  | _ => True

section Results

variable {c : Call} {r : Result}

theorem Call.Yields.failed (hy : c.Yields r) (hr : r.xReturn ≠ pdPASS) : r = c.failure := by
  cases c with
  | send item xPosition => exact hy.resolve_right fun h => hr (congrArg Result.xReturn h)
  | receive => exact hy.resolve_right fun ⟨item, h⟩ => hr (congrArg Result.xReturn h)
  | peek => exact hy.resolve_right fun ⟨item, h⟩ => hr (congrArg Result.xReturn h)

theorem Call.action_failure (c : Call) : (c.action c.failure).served = false := by
  cases c <;> rfl

/-- What a result can tell. -/
theorem Call.action_rule {P : Fifo.Action Item → Prop} (c : Call) (r : Result) (hfull : P .full) (hempty : P .empty)
    (hsend : ∀ item xPosition, c = .send item xPosition → P (xPosition.action item)) (htake : ∀ item, P (.take item))
    (hpeek : ∀ item, P (.peek item)) : P (c.action r) := by
  obtain ⟨x, pvBuffer⟩ := r
  cases c with
  | send item xPosition =>
    change P (if x = pdPASS then xPosition.action item else .full)
    by_cases hx : x = pdPASS
    · rw [if_pos hx]
      exact hsend item xPosition rfl
    · rw [if_neg hx]
      exact hfull
  | receive =>
    change P (if x = pdPASS then pvBuffer.elim .empty .take else .empty)
    by_cases hx : x = pdPASS
    · rw [if_pos hx]
      cases pvBuffer with
      | none => exact hempty
      | some item => exact htake item
    · rw [if_neg hx]
      exact hempty
  | peek =>
    change P (if x = pdPASS then pvBuffer.elim .empty .peek else .empty)
    by_cases hx : x = pdPASS
    · rw [if_pos hx]
      cases pvBuffer with
      | none => exact hempty
      | some item => exact hpeek item
    · rw [if_neg hx]
      exact hempty

theorem Call.action_ne_clear (c : Call) (r : Result) : c.action r ≠ .clear := by
  refine c.action_rule (P := fun a => a ≠ .clear) r nofun nofun (fun item xPosition _ => ?_) (fun item => nofun)
    fun item => nofun
  cases xPosition <;> exact nofun

theorem Call.Keeps.action (h : c.Keeps) (r : Result) : (c.action r).Keeps := by
  refine c.action_rule r trivial trivial (fun item xPosition hc => ?_) (fun item => trivial) fun item => trivial
  subst hc
  cases xPosition with
  | overwrite => exact absurd rfl h
  | _ => trivial

theorem Call.InOrder.action (h : c.InOrder) (r : Result) : (c.action r).InOrder := by
  refine c.action_rule r trivial trivial (fun item xPosition hc => ?_) (fun item => trivial) fun item => trivial
  subst hc
  obtain rfl : xPosition = .sendToBack := h
  trivial

/-- What is made of a receiver's result, where a refusal counts for nothing. -/
theorem apply_elim {β : Type} (f : Fifo.Action Item → Option β) (hempty : f .empty = none)
    (g : Item → Fifo.Action Item) (x : ℤ) (pvBuffer : Option Item) :
    f (if x = pdPASS then pvBuffer.elim .empty g else .empty) =
      if x = pdPASS then pvBuffer.bind fun item => f (g item) else none := by
  by_cases hx : x = pdPASS
  · rw [if_pos hx, if_pos hx]
    cases pvBuffer with
    | none => exact hempty
    | some item => rfl
  · rw [if_neg hx, if_neg hx]
    exact hempty

theorem Return.put_action (r : Return) : r.action.put = r.sent := by
  obtain ⟨caller, c, x, pvBuffer⟩ := r
  have hnothing : (if x = pdPASS then pvBuffer.bind fun _ => none else none : Option Item) = none := by
    rw [Option.bind_fun_none, ite_self]
  cases c with
  | send item xPosition =>
    change (if x = pdPASS then xPosition.action item else .full).put = if x = pdPASS then some item else none
    by_cases hx : x = pdPASS
    · rw [if_pos hx, if_pos hx]
      cases xPosition <;> rfl
    · rw [if_neg hx, if_neg hx]
      rfl
  | receive => exact (apply_elim Fifo.Action.put rfl .take x pvBuffer).trans hnothing
  | peek => exact (apply_elim Fifo.Action.put rfl .peek x pvBuffer).trans hnothing

theorem Return.taken_action (r : Return) : r.action.taken = r.received := by
  obtain ⟨caller, c, x, pvBuffer⟩ := r
  cases c with
  | send item xPosition =>
    change (if x = pdPASS then xPosition.action item else .full).taken = none
    by_cases hx : x = pdPASS
    · rw [if_pos hx]
      cases xPosition <;> rfl
    · rw [if_neg hx]
      rfl
  | receive =>
    refine (apply_elim Fifo.Action.taken rfl .take x pvBuffer).trans ?_
    change (if x = pdPASS then pvBuffer.bind some else none) = if x = pdPASS then pvBuffer else none
    rw [Option.bind_fun_some]
  | peek =>
    refine (apply_elim Fifo.Action.taken rfl .peek x pvBuffer).trans ?_
    change (if x = pdPASS then pvBuffer.bind fun _ => none else none) = none
    rw [Option.bind_fun_none, ite_self]

theorem puts_returned (rs : List Return) : Fifo.puts (rs.map Return.action) = sentItems rs := by
  unfold Fifo.puts sentItems
  rw [List.filterMap_map]
  exact congrArg List.reverse (congrArg (List.filterMap · rs) (funext Return.put_action))

theorem takes_returned (rs : List Return) : Fifo.takes (rs.map Return.action) = receivedItems rs := by
  unfold Fifo.takes receivedItems
  rw [List.filterMap_map]
  exact congrArg List.reverse (congrArg (List.filterMap · rs) (funext Return.taken_action))

end Results

/-! ## How a call goes on -/

/-- The call of a task that has looked in vain. -/
def Place.looked : Place → Option Call
  | .idle => none
  | .enter _ _ => none
  | p => p.call

namespace Kernel

/-- What is seen by a task, or by the interrupts: nothing yet when a call begins. -/
def lookOf (u : Option TaskHandle) (s : Kernel) : Event → Option (Option (Fifo.Action Item))
  | .call t _ _ => if u = some t then some none else none
  | .run t _ => if u = some t then (s.seen t).map some else none
  | .fromISR c => if u = none then (act s (.fromISR c)).map some else none
  | _ => none

section Steps

variable {s s' : Kernel} {t : TaskHandle} {c : Call} {wait timedOut : Bool} {prio : TaskHandle → ℕ} {n size : ℕ}
  {l : List Item} {items : QueueItems} {r : Result} {e : Event}

/-- The section at the top of the loop returns what it has seen, or the task goes on in vain. -/
theorem enter_cases (t : TaskHandle) (wait : Bool) (haccess : s.queue.access c = some (items, r)) (hy : c.Yields r) :
    (s.enter t c wait).returned = ⟨some t, c, r⟩ :: s.returned ∧
        (s.enter t c wait).place = Function.update s.place t .idle ∨
      r = c.failure ∧ (s.enter t c wait).returned = s.returned ∧
        (s.enter t c wait).place = Function.update s.place t (.refused c) := by
  unfold Kernel.enter
  rw [haccess]
  dsimp only
  by_cases hr : r.xReturn = pdPASS
  · rw [if_pos hr]
    exact .inl ⟨rfl, rfl⟩
  · rw [if_neg hr]
    by_cases hw : wait = true
    · rw [if_pos hw]
      exact .inr ⟨hy.failed hr, rfl, rfl⟩
    · rw [if_neg hw]
      exact .inl ⟨rfl, rfl⟩

/-- Behind it, a task goes on with the call or returns in vain. -/
theorem run_cases (hstep : s.run prio t timedOut = some s') (hp : ¬∃ c wait, s.place t = .enter c wait) :
    (∃ p, s'.place = Function.update s.place t p ∧ s'.returned = s.returned ∧
        (p.looked = none ∨ p.looked = (s.place t).looked)) ∨
      ∃ c, (s.place t).looked = some c ∧ s'.place = Function.update s.place t .idle ∧
        s'.returned = ⟨some t, c, c.failure⟩ :: s.returned := by
  unfold Kernel.run at hstep
  cases h : s.place t with
  | idle =>
    rw [h] at hstep
    cases hstep
  | enter c wait => exact absurd ⟨c, wait, h⟩ hp
  | refused c =>
    rw [h] at hstep
    obtain rfl := Option.some.inj hstep
    exact .inl ⟨_, rfl, rfl, .inr rfl⟩
  | locked c =>
    rw [h] at hstep
    obtain rfl := Option.some.inj hstep
    unfold Kernel.check
    by_cases ht : timedOut = true
    · rw [if_pos ht]
      exact .inl ⟨_, rfl, rfl, .inr rfl⟩
    · rw [if_neg ht]
      by_cases hav : s.queue.avail c.side = 0
      · rw [if_pos hav]
        exact .inl ⟨_, rfl, rfl, .inr rfl⟩
      · rw [if_neg hav]
        exact .inl ⟨_, rfl, rfl, .inr rfl⟩
  | place c =>
    rw [h] at hstep
    obtain rfl := Option.some.inj hstep
    exact .inl ⟨_, rfl, rfl, .inr rfl⟩
  | unlockTx c next =>
    rw [h] at hstep
    obtain rfl := Option.some.inj hstep
    exact .inl ⟨_, rfl, rfl, .inr rfl⟩
  | unlockRx c next =>
    rw [h] at hstep
    obtain rfl := Option.some.inj hstep
    exact .inl ⟨_, rfl, rfl, .inr rfl⟩
  | resume c next =>
    rw [h] at hstep
    obtain rfl := Option.some.inj hstep
    cases next with
    | again => exact .inl ⟨_, rfl, rfl, .inl rfl⟩
    | blocked => exact .inl ⟨_, rfl, rfl, .inr rfl⟩
    | expired =>
      unfold Kernel.resume
      by_cases hside : c.side = .sender
      · rw [if_pos hside]
        refine .inr ⟨c, rfl, rfl, ?_⟩
        cases c with
        | send item xPosition => rfl
        | _ => cases hside
      · rw [if_neg hside]
        exact .inl ⟨_, rfl, rfl, .inr rfl⟩
  | blocked c =>
    rw [h] at hstep
    obtain ⟨-, hgo⟩ := Option.ite_none_left_eq_some.mp hstep
    obtain rfl := Option.some.inj hgo
    exact .inl ⟨_, rfl, rfl, .inl rfl⟩
  | expired c =>
    rw [h] at hstep
    dsimp only at hstep
    by_cases hnone : s.queue.uxMessagesWaiting = 0
    · rw [if_pos hnone] at hstep
      obtain rfl := Option.some.inj hstep
      refine .inr ⟨c, rfl, rfl, ?_⟩
      -- both constants are zero
      cases c <;> rfl
    · rw [if_neg hnone] at hstep
      obtain rfl := Option.some.inj hstep
      exact .inl ⟨_, rfl, rfl, .inl rfl⟩

theorem seen_enter (haccess : s.queue.access c = some (items, r)) (hp : s.place t = .enter c wait) :
    s.seen t = some (c.action r) := by
  unfold Kernel.seen
  rw [hp]
  exact congrArg (Option.map fun r : QueueItems × Result => c.action r.2) haccess

theorem seen_none (hp : ¬∃ c wait, s.place t = .enter c wait) : s.seen t = none := by
  unfold Kernel.seen
  cases h : s.place t with
  | enter c wait => exact absurd ⟨c, wait, h⟩ hp
  | _ => rfl

theorem fromISR_returned (haccess : s.queue.access c = some (items, r)) :
    (s.fromISR c).returned = ⟨none, c, r⟩ :: s.returned ∧ (s.fromISR c).place = s.place := by
  unfold Kernel.fromISR
  rw [haccess]
  dsimp only
  by_cases hr : r.xReturn = pdPASS
  · rw [if_pos hr]
    by_cases hpeek : c = .peek
    · rw [if_pos hpeek]
      exact ⟨rfl, rfl⟩
    · rw [if_neg hpeek]
      exact ⟨rfl, rfl⟩
  · rw [if_neg hr]
    exact ⟨rfl, rfl⟩

theorem tick_frame (hstep : s.tick t = some s') : s'.returned = s.returned ∧ s'.place = s.place := by
  unfold Kernel.tick at hstep
  cases hp : s.place t with
  | blocked c =>
    rw [hp] at hstep
    obtain ⟨-, rfl⟩ := guard_eq_some.mp hstep
    exact ⟨rfl, rfl⟩
  | _ =>
    rw [hp] at hstep
    cases hstep

/-- What the calls tell that have returned, as far as they have got or given an item. -/
def served (s : Kernel) : List (Fifo.Action Item) := (s.returned.map Return.action).filter Fifo.Action.served

theorem served_cons {caller : Option TaskHandle} (h : s'.returned = ⟨caller, c, r⟩ :: s.returned) :
    s'.served = [c.action r].filter Fifo.Action.served ++ s.served := by
  unfold served
  rw [h, List.map_cons, ← List.filter_append]
  rfl

theorem served_failure {caller : Option TaskHandle} (h : s'.returned = ⟨caller, c, c.failure⟩ :: s.returned) :
    s'.served = s.served := by
  rw [served_cons h, List.filter_cons_of_neg (Bool.eq_false_iff.mp c.action_failure)]
  rfl

/-- A section that gets or gives an item ends its call, and no other call returns with one. -/
theorem served_step (hR : s.Refines n size l) (hstep : s.step prio e = some s') :
    s'.served = (act s e).toList.filter Fifo.Action.served ++ s.served := by
  have hsame (h : s'.returned = s.returned) : s'.served = s.served := by
    unfold served
    rw [h]
  cases e with
  | call t c wait =>
    obtain ⟨-, rfl⟩ := guard_eq_some.mp hstep
    rfl
  | run t timedOut =>
    obtain ⟨-, hrun⟩ := Option.ite_none_right_eq_some.mp hstep
    change s'.served = (s.seen t).toList.filter _ ++ _
    by_cases hp : ∃ c wait, s.place t = .enter c wait
    · obtain ⟨c, wait, hp⟩ := hp
      obtain ⟨items, r, l', haccess, hy, -⟩ := hR.holds.access (hR.valid t c (congrArg Place.call hp))
      rw [seen_enter haccess hp]
      unfold Kernel.run at hrun
      rw [hp] at hrun
      obtain rfl := Option.some.inj hrun
      rcases enter_cases t wait haccess hy with ⟨hret, -⟩ | ⟨rfl, hret, -⟩
      · exact served_cons hret
      · rw [hsame hret, Option.toList_some, List.filter_cons_of_neg (Bool.eq_false_iff.mp c.action_failure)]
        rfl
    · rw [seen_none hp]
      rcases run_cases hrun hp with ⟨p, -, hret, -⟩ | ⟨c, -, -, hret⟩
      · exact hsame hret
      · exact served_failure hret
  | tick t =>
    obtain ⟨-, htick⟩ := Option.ite_none_right_eq_some.mp hstep
    exact hsame (tick_frame htick).1
  | fromISR c =>
    obtain ⟨hc, rfl⟩ := guard_eq_some.mp hstep
    obtain ⟨items, r, l', haccess, -⟩ := hR.holds.access hc
    have hact : act s (.fromISR c) = some (c.action r) :=
      congrArg (Option.map fun r : QueueItems × Result => c.action r.2) haccess
    rw [hact]
    exact served_cons (fromISR_returned haccess).1
  | reset =>
    obtain ⟨-, rfl⟩ := guard_eq_some.mp hstep
    rfl

end Steps

end Kernel

/-! ## Runs -/

section Runs

variable {prio : TaskHandle → ℕ} {n size : ℕ} {storage : List UInt8} {h : List Event} {s s' : Kernel}

/-- What is seen of a run, newest first. -/
def observed (prio : TaskHandle → ℕ) (n size : ℕ) (storage : List UInt8) (h : List Event) : List (Fifo.Action Item) :=
  trace (Kernel.step prio) Kernel.act (.create n size storage) h

/-- What a task has seen last since its call began, or an interrupt in its call. -/
def lastLook (prio : TaskHandle → ℕ) (n size : ℕ) (storage : List UInt8) (u : Option TaskHandle) (h : List Event) :
    Option (Fifo.Action Item) :=
  (trace (Kernel.step prio) (Kernel.lookOf u) (.create n size storage) h).head?.join

section Looks

variable {u : Option TaskHandle} {e : Event}

theorem lastLook_none (hr : Run (Kernel.step prio) (.create n size storage) h s) (hlook : Kernel.lookOf u s e = none) :
    lastLook prio n size storage u (e :: h) = lastLook prio n size storage u h := by
  unfold lastLook
  rw [hr.trace_cons, hlook]
  rfl

theorem lastLook_some (hr : Run (Kernel.step prio) (.create n size storage) h s) {a : Option (Fifo.Action Item)}
    (hlook : Kernel.lookOf u s e = some a) : lastLook prio n size storage u (e :: h) = a := by
  unfold lastLook
  rw [hr.trace_cons, hlook]
  rfl

/-- A call that goes on has looked in vain. -/
def Looked (prio : TaskHandle → ℕ) (n size : ℕ) (storage : List UInt8) (h : List Event) (s : Kernel) : Prop :=
  ∀ t c, (s.place t).looked = some c → lastLook prio n size storage (some t) h = some (c.action c.failure)

/-- What a step does to the looks, and what it returns. -/
theorem Looked.step {l : List Item} (hr : Run (Kernel.step prio) (.create n size storage) h s)
    (hR : s.Refines n size l) (hlooked : Looked prio n size storage h s) (hstep : s.step prio e = some s') :
    Looked prio n size storage (e :: h) s' ∧
      ∀ r, s'.returned = r :: s.returned → lastLook prio n size storage r.caller (e :: h) = some r.action := by
  have hother {t : TaskHandle} {c : Call} (hplace : s'.place t = s.place t) (hlook : Kernel.lookOf (some t) s e = none)
      (hc : (s'.place t).looked = some c) :
      lastLook prio n size storage (some t) (e :: h) = some (c.action c.failure) := by
    rw [lastLook_none hr hlook]
    exact hlooked t c (hplace ▸ hc)
  have hnothing {r : Return} (hsame : s'.returned = s.returned) (hret : s'.returned = r :: s.returned) :
      lastLook prio n size storage r.caller (e :: h) = some r.action :=
    absurd (hret.symm.trans hsame) (List.cons_ne_self _ _)
  cases e with
  | call t c wait =>
    obtain ⟨-, rfl⟩ := guard_eq_some.mp hstep
    refine ⟨fun u c' hc => ?_, fun r => hnothing rfl⟩
    by_cases hut : u = t
    · have hplace : (s.goto t (.enter c wait)).place u = .enter c wait := by
        rw [hut]
        exact Function.update_self t (Place.enter c wait) s.place
      rw [hplace] at hc
      cases hc
    · exact hother (Function.update_of_ne hut _ _) (if_neg fun heq => hut (Option.some.inj heq)) hc
  | run t timedOut =>
    obtain ⟨-, hrun⟩ := Option.ite_none_right_eq_some.mp hstep
    have hown : Kernel.lookOf (some t) s (.run t timedOut) = (s.seen t).map some := if_pos rfl
    -- the other tasks stay where they are
    have htask (p : Place) (hplace : s'.place = Function.update s.place t p)
        (hp : ∀ c, p.looked = some c →
          lastLook prio n size storage (some t) (.run t timedOut :: h) = some (c.action c.failure)) :
        Looked prio n size storage (.run t timedOut :: h) s' := by
      intro u c hc
      by_cases hut : u = t
      · rw [hut, hplace, Function.update_self] at hc
        exact hut ▸ hp c hc
      · exact hother (by rw [hplace, Function.update_of_ne hut]) (if_neg fun heq => hut (Option.some.inj heq)) hc
    by_cases hp : ∃ c wait, s.place t = .enter c wait
    · obtain ⟨c, wait, hp⟩ := hp
      obtain ⟨items, r, l', haccess, hy, -⟩ := hR.holds.access (hR.valid t c (congrArg Place.call hp))
      have hlast : lastLook prio n size storage (some t) (.run t timedOut :: h) = some (c.action r) :=
        lastLook_some hr (by rw [hown, Kernel.seen_enter haccess hp]; rfl)
      unfold Kernel.run at hrun
      rw [hp] at hrun
      obtain rfl := Option.some.inj hrun
      rcases Kernel.enter_cases t wait haccess hy with ⟨hret, hplace⟩ | ⟨rfl, hret, hplace⟩
      · refine ⟨htask .idle hplace (fun c hc => nomatch hc), fun r' hr' => ?_⟩
        obtain ⟨rfl, -⟩ := List.cons.inj (hr'.symm.trans hret)
        exact hlast
      · refine ⟨htask (.refused c) hplace fun c' hc => ?_, fun r => hnothing hret⟩
        obtain rfl := Option.some.inj hc
        exact hlast
    · have hsame : lastLook prio n size storage (some t) (.run t timedOut :: h) =
          lastLook prio n size storage (some t) h :=
        lastLook_none hr (by rw [hown, Kernel.seen_none hp]; rfl)
      rcases Kernel.run_cases hrun hp with ⟨p, hplace, hret, hlook⟩ | ⟨c, hc, hplace, hret⟩
      · refine ⟨htask p hplace fun c hc => ?_, fun r => hnothing hret⟩
        rcases hlook with hnone | hlook
        · rw [hnone] at hc
          cases hc
        · rw [hsame]
          exact hlooked t c (hlook ▸ hc)
      · refine ⟨htask .idle hplace (fun c hc => nomatch hc), fun r hr' => ?_⟩
        obtain ⟨rfl, -⟩ := List.cons.inj (hr'.symm.trans hret)
        exact hsame.trans (hlooked t c hc)
  | tick t =>
    obtain ⟨-, htick⟩ := Option.ite_none_right_eq_some.mp hstep
    obtain ⟨hret, hplace⟩ := Kernel.tick_frame htick
    exact ⟨fun u c hc => hother (by rw [hplace]) rfl hc, fun r => hnothing hret⟩
  | fromISR c =>
    obtain ⟨hc, rfl⟩ := guard_eq_some.mp hstep
    obtain ⟨items, r, l', haccess, -⟩ := hR.holds.access hc
    obtain ⟨hret, hplace⟩ := Kernel.fromISR_returned haccess
    refine ⟨fun u c' hc' => hother (by rw [hplace]) rfl hc', fun r' hr' => ?_⟩
    obtain ⟨rfl, -⟩ := List.cons.inj (hr'.symm.trans hret)
    have hact : Kernel.act s (.fromISR c) = some (c.action r) :=
      congrArg (Option.map fun r : QueueItems × Result => c.action r.2) haccess
    exact lastLook_some hr (congrArg (Option.map some) hact)
  | reset =>
    obtain ⟨-, rfl⟩ := guard_eq_some.mp hstep
    exact ⟨fun u c hc => hother rfl rfl hc, fun r => hnothing rfl⟩

end Looks

/-- A run has served its calls as a bounded queue does: its sections do what such a queue does, those that get or give an
item are the calls that have returned with one, and each call returns what its last section has seen. -/
structure Serves (prio : TaskHandle → ℕ) (n size : ℕ) (storage : List UInt8) (h : List Event) (s : Kernel) : Prop where
  fault : s.fault = false
  items : ∃ l, Run (Fifo.step n) [] (observed prio n size storage h) l ∧ s.queue.toQueueItems.Holds l
  results : ∀ r ∈ s.returned, r.call.Yields r.result
  returned : (s.returned.map Return.action).filter Fifo.Action.served =
    (observed prio n size storage h).filter Fifo.Action.served
  looks : ∀ e s' r, s.step prio e = some s' → s'.returned = r :: s.returned →
    lastLook prio n size storage r.caller (e :: h) = some r.action

/-- **The calls do and return what a bounded queue does**, whatever tasks and interrupts come between their sections. -/
theorem queue_refines (hn : 0 < n) (hpos : 0 < size) (hlen : storage.length = n * size)
    (hr : Run (Kernel.step prio) (.create n size storage) h s) : Serves prio n size storage h s := by
  obtain ⟨l, hl, hrefines⟩ := hr.simulate Kernel.act (R := fun s l => s.Refines n size l)
    (Kernel.refines_create hn hpos hlen) fun h s e s' l _ hR _ he => hR.step hn he
  have hrest : (∃ l, s.Refines n size l) ∧ Looked prio n size storage h s ∧
      s.served = (observed prio n size storage h).filter Fifo.Action.served := by
    refine hr.inv (I := fun h s => (∃ l, s.Refines n size l) ∧ Looked prio n size storage h s ∧
        s.served = (observed prio n size storage h).filter Fifo.Action.served)
      ⟨⟨[], Kernel.refines_create hn hpos hlen⟩, (fun t c hc => nomatch hc), rfl⟩ ?_
    rintro h s e s' hr ⟨⟨l, hR⟩, hlooked, hserved⟩ - hstep
    refine ⟨?_, (hlooked.step hr hR hstep).1, ?_⟩
    · rcases hR.step hn hstep with ⟨-, hR'⟩ | ⟨a, l', -, -, hR'⟩
      · exact ⟨l, hR'⟩
      · exact ⟨l', hR'⟩
    · unfold observed
      rw [hr.trace_cons, List.filter_append, Kernel.served_step hR hstep, hserved]
      rfl
  exact ⟨hrefines.fault, ⟨l, hl, hrefines.holds⟩, hrefines.returned, hrest.2.2,
    fun e s' r hstep => (hrest.2.1.step hr hrefines hstep).2 r⟩

/-- Task 1 finds the queue empty and waits.  The interrupt comes while it has locked the queue, and is not lost. -/
def sentWhileLocked : List Event :=
  [.call 1 .receive true, .run 1 false, .run 1 false, .run 1 false, .fromISR (.send [7] .sendToBack), .run 1 false,
    .run 1 false, .run 1 false, .run 1 false, .run 1 false, .run 1 false]

theorem queue_refines_locked :
    ∃ h s, Run (Kernel.step fun _ => 1) (.create 2 1 [0, 0]) h s ∧
      s.returned = [⟨some 1, .receive, pdPASS, some [7]⟩, ⟨none, .send [7] .sendToBack, pdPASS, none⟩] ∧
      Serves (fun _ => 1) 2 1 [0, 0] h s := by
  obtain ⟨h, s, hr, hs⟩ := exists_run (Kernel.step fun _ => 1) (.create 2 1 [0, 0]) sentWhileLocked
    (fun r => r.2.returned)
    (by decide : _ = some [⟨some 1, .receive, pdPASS, some [7]⟩, ⟨none, .send [7] .sendToBack, pdPASS, none⟩])
  exact ⟨h, s, hr, hs, queue_refines (by decide) (by decide) (by decide) hr⟩

/-- What all calls tell that have returned is observed, and nothing else but resets and what is refused. -/
theorem Serves.action_of_mem (hs : Serves prio n size storage h s) {P : Fifo.Action Item → Prop} (hfull : P .full)
    (hempty : P .empty) (hreturned : ∀ r ∈ s.returned, P r.action) (hreset : .reset ∉ h) :
    ∀ a ∈ observed prio n size storage h, P a := by
  intro a ha
  by_cases hserved : a.served = true
  · have hmem : a ∈ (s.returned.map Return.action).filter Fifo.Action.served := by
      rw [hs.returned]
      exact List.mem_filter.mpr ⟨ha, hserved⟩
    obtain ⟨r, hr, rfl⟩ := List.mem_map.mp (List.mem_filter.mp hmem).1
    exact hreturned r hr
  · cases a with
    | full => exact hfull
    | empty => exact hempty
    | clear =>
      obtain ⟨s', e, he, hact⟩ := mem_trace Kernel.act h ha
      have hclear : e = .reset := by
        cases e with
        | reset => rfl
        | fromISR c =>
          obtain ⟨r, -, hr⟩ := Option.map_eq_some_iff.mp hact
          exact absurd hr (c.action_ne_clear r.2)
        | run t timedOut =>
          change s'.seen t = some .clear at hact
          by_cases hp : ∃ c wait, s'.place t = .enter c wait
          · obtain ⟨c, wait, hp⟩ := hp
            unfold Kernel.seen at hact
            rw [hp] at hact
            obtain ⟨r, -, hr⟩ := Option.map_eq_some_iff.mp hact
            exact absurd hr (c.action_ne_clear r.2)
          · rw [Kernel.seen_none hp] at hact
            cases hact
        | _ => cases hact
      exact absurd (hclear ▸ he) hreset
    | _ => exact absurd rfl hserved

/-- **Nothing sent is lost, received twice or overtaken**: the items that calls have sent, and none has overwritten, have
been returned by calls that receive or are still there, and where items are sent to the back only, they are returned in
the order they were sent. -/
theorem queue_conserves (hn : 0 < n) (hpos : 0 < size) (hlen : storage.length = n * size)
    (hr : Run (Kernel.step prio) (.create n size storage) h s) (hreset : .reset ∉ h) :
    ∃ l, s.queue.toQueueItems.Holds l ∧ l.length ≤ n ∧
      ((∀ r ∈ s.returned, r.call.Keeps) → (sentItems s.returned).Perm (receivedItems s.returned ++ l)) ∧
      ((∀ r ∈ s.returned, r.call.InOrder) → sentItems s.returned = receivedItems s.returned ++ l) := by
  have hs := queue_refines hn hpos hlen hr
  obtain ⟨l, hl, hholds⟩ := hs.items
  have hputs : Fifo.puts (observed prio n size storage h) = sentItems s.returned := by
    rw [← Fifo.puts_served, ← hs.returned, Fifo.puts_served, puts_returned]
  have htakes : Fifo.takes (observed prio n size storage h) = receivedItems s.returned := by
    rw [← Fifo.takes_served, ← hs.returned, Fifo.takes_served, takes_returned]
  refine ⟨l, hholds, Fifo.length_le hl, fun hk => ?_, fun hk => ?_⟩
  · rw [← hputs, ← htakes]
    exact Fifo.puts_perm hl (hs.action_of_mem trivial trivial (fun r hr => (hk r hr).action r.result) hreset)
  · rw [← hputs, ← htakes]
    exact Fifo.puts_eq hl (hs.action_of_mem trivial trivial (fun r hr => (hk r hr).action r.result) hreset)

theorem queue_conserves_locked :
    ∃ (s : Kernel) (l : List Item), s.queue.toQueueItems.Holds l ∧ l.length ≤ 2 ∧
      ((∀ r ∈ s.returned, r.call.Keeps) → (sentItems s.returned).Perm (receivedItems s.returned ++ l)) ∧
      ((∀ r ∈ s.returned, r.call.InOrder) → sentItems s.returned = receivedItems s.returned ++ l) := by
  obtain ⟨h, s, hr, hh⟩ := exists_run (Kernel.step fun _ => 1) (.create 2 1 [0, 0]) sentWhileLocked
    (fun r => decide (Event.reset ∈ r.1)) (by decide : _ = some false)
  exact ⟨s, queue_conserves (by decide) (by decide) (by decide) hr (of_decide_eq_false hh)⟩

/-! ## Queues of length one -/

end Runs

end Thronix.KernelQueue
