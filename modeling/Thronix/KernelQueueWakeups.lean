import Thronix.KernelQueueCalls
import Thronix.Lib.Wakeups

/-!
# Thronix.KernelQueueWakeups — no task is left waiting at a kernel queue

* `Place.waitsOn`, `Place.retries`: a task that has put itself into a list waits; when it has been taken off, it goes back
  to the top of its loop and looks again.
* `SideInv`: of a list, its count, and what there is for its tasks.  `Served` is what matters of it; the rest makes it
  last.
* `LockInv`: the counts are those of a locked queue while a task is between `prvLockQueue` and `prvUnlockQueue`.
* `no_wakeup_lost`: while the scheduler is running, every item matches a task that is about to look for it, or no task
  waits to receive; and so it is for room and those that wait to send.
-/

namespace Thronix.KernelQueue

open Lib

/-! ## Places -/

namespace Place

/-- The task is in the list of a side, or has been taken off it and does not know yet. -/
def waitsOn (d : Side) : Place → Bool
  | .unlockTx c .blocked => c.side = d
  | .unlockRx c .blocked => c.side = d
  | .resume c .blocked => c.side = d
  | .blocked c => c.side = d
  | _ => false

/-- The task, in no list, goes on to the top of its loop. -/
def retries (d : Side) : Place → Bool
  | .enter c _ => c.side = d
  | p => p.waitsOn d

/-- The task has found nothing, and is about to put itself into the list. -/
def placing (d : Side) : Place → Bool
  | .place c => c.side = d
  | _ => false

/-- The task has suspended the scheduler. -/
def inLock : Place → Bool
  | .locked _ => true
  | .place _ => true
  | .unlockTx _ _ => true
  | .unlockRx _ _ => true
  | .resume _ _ => true
  | _ => false

/-- The task has locked the count of a side.  `cTxLock` is unlocked before `cRxLock`. -/
def locks (d : Side) : Place → Bool
  | .locked _ => true
  | .place _ => true
  | .unlockTx _ _ => true
  | .unlockRx _ _ => d = .sender
  | _ => false

variable {d : Side} {p : Place}

theorem retries_of_waitsOn (h : p.waitsOn d = true) : p.retries d = true := by
  cases p with
  | enter c wait => cases h
  | _ => exact h

theorem inLock_of_locks (h : p.locks d = true) : p.inLock = true := by
  cases p with
  | unlockRx c next => rfl
  | resume c next => cases h
  | _ => exact h

theorem locks_of_placing (h : p.placing d = true) (d' : Side) : p.locks d' = true := by
  cases p with
  | place c => rfl
  | _ => cases h

end Place

/-! ## One list -/

section Side

/-- Of the list of a side, with `n` things that are there for it and `pending` ones counted. -/
structure SideInv (d : Side) (n pending : ℕ) (waiting : List TaskHandle) (place : TaskHandle → Place) : Prop where
  nodup : waiting.Nodup
  waits : ∀ t ∈ waiting, (place t).waitsOn d = true
  placing : ∀ t, (place t).placing d = true → n ≤ pending
  served : Served n pending waiting fun t => (place t).retries d = true ∧ t ∉ waiting

namespace SideInv

variable {d : Side} {n n' pending pending' : ℕ} {waiting : List TaskHandle} {place : TaskHandle → Place} {t : TaskHandle}
variable {p : Place}

theorem of_nil (hfree : ∀ t, (place t).placing d = false) : SideInv d n pending [] place where
  nodup := List.nodup_nil
  waits t ht := absurd ht List.not_mem_nil
  placing t ht := by
    rw [hfree t] at ht
    cases ht
  served := .of_nil rfl

/-- A task goes to a place where it waits if it has waited, and looks again if it was to look again. -/
theorem move (h : SideInv d n pending waiting place) (hn : n' ≤ n)
    (hwait : t ∈ waiting → (place t).waitsOn d = true → p.waitsOn d = true)
    (hretry : (place t).retries d = true → p.retries d = true ∨ n' = 0)
    (hplacing : p.placing d = true → n' ≤ pending) :
    SideInv d n' pending waiting (Function.update place t p) where
  nodup := h.nodup
  waits u hu := by
    by_cases hut : u = t
    · rw [hut, Function.update_self]
      exact hwait (hut ▸ hu) (hut ▸ h.waits u hu)
    · rw [Function.update_of_ne hut]
      exact h.waits u hu
  placing u := by
    by_cases hut : u = t
    · rw [hut, Function.update_self]
      exact hplacing
    · rw [Function.update_of_ne hut]
      intro hu
      exact hn.trans (h.placing u hu)
  served := by
    by_cases hzero : n' = 0
    · exact .of_le (hzero ▸ Nat.zero_le _)
    · refine h.served.mono hn le_rfl id ?_
      rintro u ⟨hu, hout⟩
      refine ⟨?_, hout⟩
      by_cases hut : u = t
      · rw [hut, Function.update_self]
        exact (hretry (hut ▸ hu)).resolve_right hzero
      · rwa [Function.update_of_ne hut]

/-- There is less for the tasks of the list. -/
theorem less (h : SideInv d n pending waiting place) (hn : n' ≤ n) : SideInv d n' pending waiting place where
  nodup := h.nodup
  waits := h.waits
  placing u hu := hn.trans (h.placing u hu)
  served := h.served.mono hn le_rfl id fun _ => id

/-- A task has taken something, and leaves. -/
theorem take (h : SideInv d n pending waiting place) (hout : t ∉ waiting) (hplacing : p.placing d = false) :
    SideInv d (n - 1) pending waiting (Function.update place t p) where
  nodup := h.nodup
  waits u hu := by
    have hut : u ≠ t := fun heq => hout (heq ▸ hu)
    rw [Function.update_of_ne hut]
    exact h.waits u hu
  placing u := by
    by_cases hut : u = t
    · rw [hut, Function.update_self, hplacing]
      exact fun hu => nomatch hu
    · rw [Function.update_of_ne hut]
      exact fun hu => (Nat.sub_le n 1).trans (h.placing u hu)
  served := by
    refine h.served.leave t ?_
    rintro u hut ⟨hu, hin⟩
    rw [Function.update_of_ne hut]
    exact ⟨hu, hin⟩

/-- What is counted is told the first tasks of the list. -/
theorem told_all (h : SideInv d n pending waiting place) (hfree : ∀ t, (place t).placing d = false) :
    SideInv d n 0 (waiting.drop pending) place where
  nodup := h.nodup.sublist (List.drop_sublist _ _)
  waits u hu := h.waits u (List.mem_of_mem_drop hu)
  placing u hu := by
    rw [hfree u] at hu
    cases hu
  served := by
    refine h.served.told_all h.nodup (fun u hu hdue => hdue.2 hu) ?_
    rintro u (⟨hu, hout⟩ | hu)
    · exact ⟨hu, fun hin => hout (List.mem_of_mem_drop hin)⟩
    · refine ⟨Place.retries_of_waitsOn (h.waits u (List.mem_of_mem_take hu)), fun hin => ?_⟩
      have hdisjoint := List.disjoint_take_drop h.nodup (le_refl pending)
      exact hdisjoint hu hin

theorem counted (h : SideInv d n pending waiting place) : SideInv d (n + 1) (pending + 1) waiting place where
  nodup := h.nodup
  waits := h.waits
  placing u hu := Nat.succ_le_succ (h.placing u hu)
  served := h.served.counted

/-- Something new, and the first task of the list is told. -/
theorem told (h : SideInv d n 0 waiting place) (hfree : ∀ t, (place t).placing d = false) :
    SideInv d (n + 1) 0 waiting.tail place := by
  rw [← List.drop_one]
  exact h.counted.told_all hfree

/-- A task that has found nothing puts itself into the list. -/
theorem insert (h : SideInv d n pending waiting place) (hplacing : (place t).placing d = true)
    (hwait : p.waitsOn d = true) (r : TaskHandle → TaskHandle → Prop) [DecidableRel r] :
    SideInv d n pending (waiting.orderedInsert r t) (Function.update place t p) where
  nodup := by
    refine (List.perm_orderedInsert r t waiting).nodup_iff.mpr (List.nodup_cons.mpr ⟨fun hin => ?_, h.nodup⟩)
    have hw := h.waits t hin
    revert hplacing hw
    cases place t with
    | place c => exact fun _ hw => nomatch hw
    | _ => exact fun hp _ => nomatch hp
  waits u hu := by
    by_cases hut : u = t
    · rwa [hut, Function.update_self]
    · rw [Function.update_of_ne hut]
      exact h.waits u ((List.mem_cons.mp ((List.perm_orderedInsert r t waiting).mem_iff.mp hu)).resolve_left hut)
  placing u _ := h.placing t hplacing
  served := .of_le (h.placing t hplacing)

/-- The time of a task is over: it is taken off the list. -/
theorem erase (h : SideInv d n pending waiting place) (t : TaskHandle) :
    SideInv d n pending (waiting.erase t) place where
  nodup := h.nodup.erase t
  waits u hu := h.waits u (List.mem_of_mem_erase hu)
  placing := h.placing
  served := by
    refine h.served.mono le_rfl le_rfl (fun hne hnil => hne (by rw [hnil]; rfl)) ?_
    rintro u ⟨hu, hout⟩
    exact ⟨hu, fun hin => hout (List.mem_of_mem_erase hin)⟩

end SideInv

end Side

/-! ## The queue -/

section Queue

variable {q : Queue} {d d' : Side} {ts : List TaskHandle} {count : ℤ}

namespace Queue

theorem waiting_setWaiting : (q.setWaiting ts d).waiting d' = if d' = d then ts else q.waiting d' := by
  cases d <;> cases d' <;> rfl

theorem lock_setWaiting : (q.setWaiting ts d).lock d' = q.lock d' := by
  cases d <;> cases d' <;> rfl

theorem waiting_setLock : (q.setLock count d).waiting d' = q.waiting d' := by
  cases d <;> cases d' <;> rfl

theorem lock_setLock : (q.setLock count d).lock d' = if d' = d then count else q.lock d' := by
  cases d <;> cases d' <;> rfl

theorem tellCounted_eq : ∀ (count : ℤ) (ts : List TaskHandle), tellCounted count ts = ts.drop count.toNat
  | _, [] => List.drop_nil.symm
  | count, t :: ts => by
    unfold tellCounted
    by_cases hpos : queueLOCKED_UNMODIFIED < count
    · have hlt : 0 < count := hpos
      have hsucc : count.toNat = (count - 1).toNat + 1 := by omega
      rw [if_pos hpos, tellCounted_eq (count - 1) ts, hsucc, List.drop_succ_cons]
    · have hle : ¬(0 : ℤ) < count := hpos
      have hzero : count.toNat = 0 := by omega
      rw [if_neg hpos, hzero, List.drop_zero]

theorem waiting_prvUnlockQueue :
    (q.prvUnlockQueue d).waiting d' = if d' = d then (q.waiting d).drop (q.lock d).toNat else q.waiting d' := by
  unfold prvUnlockQueue
  rw [waiting_setLock, waiting_setWaiting, tellCounted_eq]

theorem lock_prvUnlockQueue : (q.prvUnlockQueue d).lock d' = if d' = d then queueUNLOCKED else q.lock d' := by
  unfold prvUnlockQueue
  rw [lock_setLock, lock_setWaiting]

theorem lock_prvLockQueue (hopen : q.lock d = queueUNLOCKED) : q.prvLockQueue.lock d = queueLOCKED_UNMODIFIED := by
  cases d with
  | sender => exact if_pos hopen
  | receiver => exact if_pos hopen

end Queue

end Queue

/-! ## The kernel -/

namespace Kernel

/-- The counts of a queue that is locked are counts, and the others are not. -/
structure LockInv (s : Kernel) : Prop where
  exclusive : ∀ t, (s.place t).inLock = true → s.suspendedBy = some t
  held : ∀ t, s.suspendedBy = some t → (s.place t).inLock = true
  locked : ∀ d t, (s.place t).locks d = true → 0 ≤ s.queue.lock d
  unlocked : ∀ d, (∀ t, (s.place t).locks d = false) → s.queue.lock d = queueUNLOCKED

structure Inv (s : Kernel) : Prop where
  side : ∀ d, SideInv d (s.queue.avail d) (s.queue.lock d).toNat (s.queue.waiting d) s.place
  lock : s.LockInv

/-- Interrupts do not fill the counts while the queue is locked, and the queue is not reset while several tasks wait to
send: the reset tells one of them only. -/
def CountsFit (_ : List Event) (s : Kernel) : Event → Prop
  | .fromISR c => s.queue.lock c.tells < 127
  | .reset => s.queue.xTasksWaitingToSend.length ≤ 1
  | _ => True

instance (h : List Event) (s : Kernel) (e : Event) : Decidable (CountsFit h s e) :=
  match e with
  | .fromISR _ => inferInstanceAs (Decidable (_ < _))
  | .reset => inferInstanceAs (Decidable (_ ≤ _))
  | .call _ _ _ => .isTrue trivial
  | .run _ _ => .isTrue trivial
  | .tick _ => .isTrue trivial

section Lock

variable {s : Kernel} {t : TaskHandle} {p : Place} {d : Side} {q : Queue} {holder : Option TaskHandle}

theorem LockInv.no_locks (h : s.LockInv) (hfree : s.suspendedBy = none) (d : Side) (t : TaskHandle) :
    (s.place t).locks d = false := by
  by_contra hl
  have hin := h.exclusive t (Place.inLock_of_locks (Bool.of_not_eq_false hl))
  rw [hfree] at hin
  cases hin

theorem LockInv.open_ (h : s.LockInv) (hfree : s.suspendedBy = none) (d : Side) : s.queue.lock d = queueUNLOCKED :=
  h.unlocked d (h.no_locks hfree d)

theorem LockInv.no_placing (h : s.LockInv) (hopen : s.queue.lock d = queueUNLOCKED) (t : TaskHandle) :
    (s.place t).placing d = false := by
  by_contra hp
  have hle := h.locked d t (Place.locks_of_placing (Bool.of_not_eq_false hp) d)
  rw [hopen] at hle
  exact absurd hle (by decide)

theorem LockInv.counting (h : s.LockInv) (hlocked : s.queue.lock d ≠ queueUNLOCKED) : 0 ≤ s.queue.lock d := by
  by_contra hneg
  refine hlocked (h.unlocked d fun t => ?_)
  by_contra hl
  exact hneg (h.locked d t (Bool.of_not_eq_false hl))

theorem LockInv.alone (h : s.LockInv) (hin : (s.place t).inLock = true) {u : TaskHandle} (hut : u ≠ t) :
    (s.place u).inLock = false := by
  by_contra hu
  have hsus := h.exclusive u (Bool.of_not_eq_false hu)
  rw [h.exclusive t hin] at hsus
  exact hut (Option.some.inj hsus).symm

/-- A task that may run, outside the part where the scheduler is suspended: it is not suspended. -/
theorem LockInv.free (h : s.LockInv) (ht : s.suspendedBy = none ∨ s.suspendedBy = some t)
    (hin : (s.place t).inLock = false) : s.suspendedBy = none := by
  refine ht.resolve_right fun hsus => ?_
  have := h.held t hsus
  rw [hin] at this
  cases this

/-- What no task locks but the one that has suspended the scheduler, and that does not. -/
theorem LockInv.open_of_alone (h : s.LockInv) (hin : (s.place t).inLock = true) (hl : (s.place t).locks d = false) :
    s.queue.lock d = queueUNLOCKED := by
  refine h.unlocked d fun u => ?_
  by_cases hut : u = t
  · rw [hut, hl]
  · by_contra hu
    have := Place.inLock_of_locks (Bool.of_not_eq_false hu)
    rw [h.alone hin hut] at this
    cases this

/-- The task that has suspended the scheduler, or any task while none has, goes on to another place. -/
theorem LockInv.goto (h : s.LockInv) (ht : s.suspendedBy = none ∨ s.suspendedBy = some t) (q : Queue)
    (holder : Option TaskHandle) (hin : holder = if p.inLock = true then some t else none)
    (hlock : ∀ d, if p.locks d = true then 0 ≤ q.lock d else q.lock d = queueUNLOCKED) :
    ({ s with queue := q, suspendedBy := holder }.goto t p).LockInv := by
  have hothers : ∀ u, u ≠ t → (s.place u).inLock = false := by
    intro u hut
    by_contra hu
    have hsus := h.exclusive u (Bool.of_not_eq_false hu)
    rcases ht with ht | ht
    · rw [ht] at hsus
      cases hsus
    · rw [ht] at hsus
      exact hut (Option.some.inj hsus).symm
  have hplace : ∀ u, u ≠ t → ({ s with queue := q, suspendedBy := holder }.goto t p).place u = s.place u :=
    fun u hut => Function.update_of_ne hut _ _
  have hself : ({ s with queue := q, suspendedBy := holder }.goto t p).place t = p := Function.update_self _ _ _
  refine ⟨fun u hu => ?_, fun u hu => ?_, fun d u hu => ?_, fun d hall => ?_⟩
  · by_cases hut : u = t
    · rw [hut, hself] at hu
      rw [hut]
      exact hin.trans (if_pos hu)
    · rw [hplace u hut, hothers u hut] at hu
      cases hu
  · have hu' := hin.symm.trans hu
    obtain ⟨hp, heq⟩ := Option.ite_none_right_eq_some.mp hu'
    obtain rfl := Option.some.inj heq
    rw [hself]
    exact hp
  · by_cases hut : u = t
    · rw [hut, hself] at hu
      have hd := hlock d
      rwa [if_pos hu] at hd
    · rw [hplace u hut] at hu
      have := Place.inLock_of_locks hu
      rw [hothers u hut] at this
      cases this
  · have ht' := hall t
    rw [hself] at ht'
    have hd := hlock d
    rwa [if_neg (by rw [ht']; decide)] at hd

end Lock

/-! ## Steps -/

section Steps

variable {s s' : Kernel} {t : TaskHandle} {c : Call} {d : Side} {n size : ℕ} {l : List Item} {prio : TaskHandle → ℕ}
variable {wait timedOut : Bool} {next : Next} {e : Event} {h : List Event}

theorem Inv.returns (hI : s.Inv) (caller : Option TaskHandle) (c : Call) (r : Result) : (s.returns caller c r).Inv :=
  ⟨hI.side, hI.lock.exclusive, hI.lock.held, hI.lock.locked, hI.lock.unlocked⟩

theorem Inv.call (hI : s.Inv) (hfree : s.suspendedBy = none) (hp : s.place t = .idle) :
    (s.goto t (.enter c wait)).Inv where
  side d := by
    refine (hI.side d).move le_rfl (fun _ hw => ?_) (fun hr => ?_) (fun hpl => nomatch hpl)
    · rw [hp] at hw
      cases hw
    · rw [hp] at hr
      cases hr
  lock := hI.lock.goto (.inl hfree) s.queue s.suspendedBy hfree fun d => hI.lock.open_ hfree d

/-- The critical section of a call. -/
theorem Inv.enter (hI : s.Inv) (hR : s.Refines n size l) (hfree : s.suspendedBy = none)
    (hp : s.place t = .enter c wait) : (s.enter t c wait).Inv := by
  obtain ⟨items, r, l', haccess, hy, hstep, hholds, hlen, -⟩ :=
    hR.holds.access (hR.valid t c (congrArg Place.call hp))
  have hout : ∀ d, t ∉ s.queue.waiting d := by
    intro d hin
    have hw := (hI.side d).waits t hin
    rw [hp] at hw
    cases hw
  have hrefused (hno : r.xReturn ≠ pdPASS) (p : Place) (hin : p.inLock = false) (hl : ∀ d, p.locks d = false)
      (hpl : ∀ d, p.placing d = false) : (s.goto t p).Inv := by
    have hzero := hR.holds.avail_refused hy hstep hno
    refine ⟨fun d => ?_, ?_⟩
    · refine (hI.side d).move le_rfl (fun hin => absurd hin (hout d)) (fun hr => ?_) (fun h => ?_)
      · rw [hp] at hr
        have hd : c.side = d := of_decide_eq_true hr
        exact .inr (hd ▸ hzero)
      · rw [hpl d] at h
        cases h
    · refine hI.lock.goto (.inl hfree) s.queue s.suspendedBy ?_ fun d => ?_
      · rw [hin]
        exact hfree
      · rw [hl d]
        exact hI.lock.open_ hfree d
  have hserved (hok : r.xReturn = pdPASS) :
      ({ s.withItems items with queue := (s.withItems items).queue.tell c.tells }.goto t .idle).Inv := by
    have havail := hR.holds.avail_served hholds hlen hy hstep hok
    refine ⟨fun d => ?_, ?_⟩
    · have hzero : (s.queue.lock d).toNat = 0 := by
        rw [hI.lock.open_ hfree d]
        rfl
      have hbefore := hI.side d
      rw [hzero] at hbefore
      -- the task leaves with what it has got
      have hleft : SideInv d (if d = c.side then s.queue.avail d - 1 else s.queue.avail d) 0 (s.queue.waiting d)
          (Function.update s.place t .idle) := by
        by_cases hd : d = c.side
        · rw [if_pos hd]
          exact hbefore.take (hout d) rfl
        · rw [if_neg hd]
          refine hbefore.move le_rfl (fun hin => absurd hin (hout d)) (fun hr => ?_) (fun hpl => nomatch hpl)
          rw [hp] at hr
          exact absurd (of_decide_eq_true hr).symm hd
      -- and tells another one
      have htold : SideInv d
          ((if d = c.side then s.queue.avail d - 1 else s.queue.avail d) + if d = c.tells then 1 else 0) 0
          (if d = c.tells then (s.queue.waiting d).tail else s.queue.waiting d) (Function.update s.place t .idle) := by
        by_cases hd : d = c.tells
        · rw [if_pos hd, if_pos hd]
          refine hleft.told fun u => ?_
          by_cases hut : u = t
          · rw [hut, Function.update_self]
            rfl
          · rw [Function.update_of_ne hut]
            exact hI.lock.no_placing (hI.lock.open_ hfree d) u
        · rw [if_neg hd, if_neg hd]
          exact hleft
      have hlast := htold.less (havail d)
      show SideInv d (((s.withItems items).queue.tell c.tells).avail d)
        (((s.withItems items).queue.tell c.tells).lock d).toNat
        (((s.withItems items).queue.tell c.tells).waiting d) (Function.update s.place t .idle)
      unfold Queue.tell
      rw [Queue.items_setWaiting, Queue.lock_setWaiting, Queue.waiting_setWaiting]
      have hlock : (s.withItems items).queue.lock d = s.queue.lock d := by
        cases d <;> rfl
      have hwaiting : ∀ d, (s.withItems items).queue.waiting d = s.queue.waiting d := by
        intro d
        cases d <;> rfl
      rw [hlock, hzero, hwaiting, hwaiting]
      by_cases hd : d = c.tells
      · subst hd
        exact hlast
      · rw [if_neg hd] at hlast ⊢
        exact hlast
    · refine hI.lock.goto (.inl hfree) _ s.suspendedBy hfree fun d => ?_
      show ((s.withItems items).queue.tell c.tells).lock d = queueUNLOCKED
      unfold Queue.tell
      rw [Queue.lock_setWaiting]
      have hopen := hI.lock.open_ hfree d
      cases d with
      | sender => exact hopen
      | receiver => exact hopen
  unfold Kernel.enter
  rw [haccess]
  dsimp only
  by_cases hr : r.xReturn = pdPASS
  · rw [if_pos hr]
    exact (hserved hr).returns _ _ _
  · rw [if_neg hr]
    by_cases hw : wait = true
    · rw [if_pos hw]
      exact hrefused hr _ rfl (fun d => rfl) fun d => rfl
    · rw [if_neg hw]
      exact (hrefused hr _ rfl (fun d => rfl) fun d => rfl).returns _ _ _

/-- A task goes on to a place where it waits or looks again as it would have. -/
theorem Inv.move (hI : s.Inv) (ht : s.suspendedBy = none ∨ s.suspendedBy = some t) (p : Place)
    (holder : Option TaskHandle) (hwait : ∀ d, t ∈ s.queue.waiting d → (s.place t).waitsOn d = true → p.waitsOn d = true)
    (hretry : ∀ d, (s.place t).retries d = true → p.retries d = true)
    (hplacing : ∀ d, p.placing d = true → s.queue.avail d = 0)
    (hin : holder = if p.inLock = true then some t else none)
    (hlock : ∀ d, if p.locks d = true then 0 ≤ s.queue.lock d else s.queue.lock d = queueUNLOCKED) :
    ({ s with suspendedBy := holder }.goto t p).Inv where
  side d := (hI.side d).move le_rfl (hwait d) (fun hr => .inl (hretry d hr)) fun hp => hplacing d hp ▸ Nat.zero_le _
  lock := hI.lock.goto ht s.queue holder hin hlock

/-- `prvLockQueue`, with the scheduler suspended. -/
theorem Inv.lockQueue (hI : s.Inv) (hfree : s.suspendedBy = none) (hp : s.place t = .refused c) :
    ({ s with queue := s.queue.prvLockQueue, suspendedBy := some t }.goto t (.locked c)).Inv where
  side d := by
    have hopen := hI.lock.open_ hfree d
    have hmove : SideInv d (s.queue.avail d) (s.queue.lock d).toNat (s.queue.waiting d)
        (Function.update s.place t (.locked c)) := by
      refine (hI.side d).move le_rfl (fun _ hw => ?_) (fun hr => ?_) (fun hpl => nomatch hpl)
      · rw [hp] at hw
        cases hw
      · rw [hp] at hr
        cases hr
    rw [hopen] at hmove
    show SideInv d (s.queue.avail d) (s.queue.prvLockQueue.lock d).toNat (s.queue.prvLockQueue.waiting d) _
    rw [Queue.lock_prvLockQueue hopen]
    cases d with
    | sender => exact hmove
    | receiver => exact hmove
  lock := by
    refine hI.lock.goto (.inl hfree) _ _ rfl fun d => ?_
    show 0 ≤ s.queue.prvLockQueue.lock d
    rw [Queue.lock_prvLockQueue (hI.lock.open_ hfree d)]
    exact le_rfl

theorem Inv.check (hI : s.Inv) (ht : s.suspendedBy = none ∨ s.suspendedBy = some t) (hp : s.place t = .locked c) :
    (s.check t c timedOut).Inv := by
  have hsus : s.suspendedBy = some t := hI.lock.exclusive t (by rw [hp]; rfl)
  have hlocked : ∀ d, 0 ≤ s.queue.lock d := fun d => hI.lock.locked d t (by rw [hp]; rfl)
  have hgo (p : Place) (hplacing : ∀ d, p.placing d = true → s.queue.avail d = 0) (hin : p.inLock = true)
      (hlocks : ∀ d, p.locks d = true) : (s.goto t p).Inv := by
    refine hI.move ht p s.suspendedBy (fun d _ hw => ?_) (fun d hr => ?_) hplacing (hsus.trans (if_pos hin).symm)
      fun d => ?_
    · rw [hp] at hw
      cases hw
    · rw [hp] at hr
      cases hr
    · rw [if_pos (hlocks d)]
      exact hlocked d
  unfold Kernel.check
  by_cases htimed : timedOut = true
  · rw [if_pos htimed]
    exact hgo _ (fun d hpl => nomatch hpl) rfl fun d => rfl
  · rw [if_neg htimed]
    by_cases hav : s.queue.avail c.side = 0
    · rw [if_pos hav]
      refine hgo _ (fun d hpl => ?_) rfl fun d => rfl
      have hd : c.side = d := of_decide_eq_true hpl
      exact hd ▸ hav
    · rw [if_neg hav]
      exact hgo _ (fun d hpl => nomatch hpl) rfl fun d => rfl

/-- `vTaskPlaceOnEventList`. -/
theorem Inv.placeOnList (hI : s.Inv) (ht : s.suspendedBy = none ∨ s.suspendedBy = some t) (hp : s.place t = .place c) :
    ({ s with queue := s.queue.vTaskPlaceOnEventList prio t c.side }.goto t (.unlockTx c .blocked)).Inv where
  side d := by
    show SideInv d ((s.queue.vTaskPlaceOnEventList prio t c.side).avail d)
      ((s.queue.vTaskPlaceOnEventList prio t c.side).lock d).toNat
      ((s.queue.vTaskPlaceOnEventList prio t c.side).waiting d) (Function.update s.place t (.unlockTx c .blocked))
    unfold Queue.vTaskPlaceOnEventList
    rw [Queue.items_setWaiting, Queue.lock_setWaiting, Queue.waiting_setWaiting]
    by_cases hd : d = c.side
    · rw [if_pos hd, ← hd]
      refine (hI.side d).insert (p := .unlockTx c .blocked) ?_ (decide_eq_true hd.symm) _
      rw [hp]
      exact decide_eq_true hd.symm
    · rw [if_neg hd]
      refine (hI.side d).move le_rfl (fun _ hw => ?_) (fun hr => ?_) (fun hpl => nomatch hpl)
      · rw [hp] at hw
        cases hw
      · rw [hp] at hr
        cases hr
  lock := by
    have hsus : s.suspendedBy = some t := hI.lock.exclusive t (by rw [hp]; rfl)
    refine hI.lock.goto ht _ s.suspendedBy hsus fun d => ?_
    show 0 ≤ (s.queue.vTaskPlaceOnEventList prio t c.side).lock d
    unfold Queue.vTaskPlaceOnEventList
    rw [Queue.lock_setWaiting]
    exact hI.lock.locked d t (by rw [hp]; rfl)

/-- One of the two critical sections of `prvUnlockQueue`, for the tasks of the side `d`. -/
theorem Inv.unlockSide (hI : s.Inv) (ht : s.suspendedBy = none ∨ s.suspendedBy = some t) (p : Place)
    (hin : (s.place t).inLock = true) (hwait : ∀ d, (s.place t).waitsOn d = true → p.waitsOn d = true)
    (hretry : ∀ d, (s.place t).retries d = true → p.retries d = true) (hnow : ∀ d, (s.place t).placing d = false)
    (hplacing : ∀ d, p.placing d = false) (hpin : p.inLock = true)
    (hlock : ∀ d', if p.locks d' = true then d' ≠ d ∧ 0 ≤ s.queue.lock d' else d' = d ∨ s.queue.lock d' = queueUNLOCKED) :
    ({ s with queue := s.queue.prvUnlockQueue d }.goto t p).Inv where
  side d' := by
    show SideInv d' ((s.queue.prvUnlockQueue d).avail d') ((s.queue.prvUnlockQueue d).lock d').toNat
      ((s.queue.prvUnlockQueue d).waiting d') (Function.update s.place t p)
    rw [Queue.items_prvUnlockQueue, Queue.lock_prvUnlockQueue, Queue.waiting_prvUnlockQueue]
    have hmove {n pending : ℕ} {waiting : List TaskHandle} (h : SideInv d' n pending waiting s.place) :
        SideInv d' n pending waiting (Function.update s.place t p) :=
      h.move le_rfl (fun _ => hwait d') (fun hr => .inl (hretry d' hr)) fun hpl => by
        rw [hplacing d'] at hpl
        cases hpl
    by_cases hd : d' = d
    · rw [if_pos hd, if_pos hd, ← hd]
      refine hmove ((hI.side d').told_all fun u => ?_)
      by_cases hut : u = t
      · rw [hut]
        exact hnow d'
      · by_contra hpl
        have := Place.inLock_of_locks (Place.locks_of_placing (Bool.of_not_eq_false hpl) d')
        rw [hI.lock.alone hin hut] at this
        cases this
    · rw [if_neg hd, if_neg hd]
      exact hmove (hI.side d')
  lock := by
    have hsus : s.suspendedBy = some t := hI.lock.exclusive t hin
    refine hI.lock.goto ht _ s.suspendedBy (hsus.trans (if_pos hpin).symm) fun d' => ?_
    have hd' := hlock d'
    show if p.locks d' = true then 0 ≤ (s.queue.prvUnlockQueue d).lock d' else (s.queue.prvUnlockQueue d).lock d' = _
    rw [Queue.lock_prvUnlockQueue]
    by_cases hl : p.locks d' = true
    · rw [if_pos hl] at hd' ⊢
      rw [if_neg hd'.1]
      exact hd'.2
    · rw [if_neg hl] at hd' ⊢
      by_cases hd : d' = d
      · rw [if_pos hd]
      · rw [if_neg hd]
        exact hd'.resolve_left hd

theorem Inv.unlockTx (hI : s.Inv) (ht : s.suspendedBy = none ∨ s.suspendedBy = some t)
    (hp : s.place t = .unlockTx c next) :
    ({ s with queue := s.queue.prvUnlockQueue .receiver }.goto t (.unlockRx c next)).Inv := by
  refine hI.unlockSide ht _ (by rw [hp]; rfl) (fun d hw => ?_) (fun d hr => ?_) (fun d => ?_) (fun d => rfl) rfl
    fun d => ?_
  · rw [hp] at hw
    cases next with
    | _ => exact hw
  · rw [hp] at hr
    cases next with
    | _ => exact hr
  · rw [hp]
    rfl
  · cases d with
    | sender => exact ⟨(fun hd => nomatch hd), hI.lock.locked .sender t (by rw [hp]; rfl)⟩
    | receiver => exact .inl rfl

theorem Inv.unlockRx (hI : s.Inv) (ht : s.suspendedBy = none ∨ s.suspendedBy = some t)
    (hp : s.place t = .unlockRx c next) :
    ({ s with queue := s.queue.prvUnlockQueue .sender }.goto t (.resume c next)).Inv := by
  refine hI.unlockSide ht _ (by rw [hp]; rfl) (fun d hw => ?_) (fun d hr => ?_) (fun d => ?_) (fun d => rfl) rfl
    fun d => ?_
  · rw [hp] at hw
    cases next with
    | _ => exact hw
  · rw [hp] at hr
    cases next with
    | _ => exact hr
  · rw [hp]
    rfl
  · cases d with
    | sender => exact .inl rfl
    | receiver => exact .inr (hI.lock.open_of_alone (t := t) (by rw [hp]; rfl) (by rw [hp]; rfl))

theorem Inv.resume (hI : s.Inv) (ht : s.suspendedBy = none ∨ s.suspendedBy = some t) (hp : s.place t = .resume c next) :
    (s.resume t c next).Inv := by
  have hopen : ∀ d, s.queue.lock d = queueUNLOCKED := fun d =>
    hI.lock.open_of_alone (t := t) (by rw [hp]; rfl) (by rw [hp]; rfl)
  cases next with
  | again =>
    refine hI.move ht _ none (fun d _ hw => ?_) (fun d hr => ?_) (fun d hpl => nomatch hpl) rfl hopen
    · rw [hp] at hw
      cases hw
    · rw [hp] at hr
      cases hr
  | blocked =>
    refine hI.move ht _ none (fun d _ hw => ?_) (fun d hr => ?_) (fun d hpl => nomatch hpl) rfl hopen
    · rw [hp] at hw
      exact hw
    · rw [hp] at hr
      exact hr
  | expired =>
    have hgo (p : Place) (hpin : p.inLock = false) (hpl : ∀ d, p.placing d = false) (hl : ∀ d, p.locks d = false) :
        ({ s with suspendedBy := none }.goto t p).Inv := by
      refine hI.move ht p none (fun d _ hw => ?_) (fun d hr => ?_) (fun d hplacing => ?_) ?_ fun d => ?_
      · rw [hp] at hw
        cases hw
      · rw [hp] at hr
        cases hr
      · rw [hpl d] at hplacing
        cases hplacing
      · rw [hpin]
        rfl
      · rw [hl d]
        exact hopen d
    unfold Kernel.resume
    by_cases hside : c.side = .sender
    · rw [if_pos hside]
      exact (hgo _ rfl (fun d => rfl) fun d => rfl).returns _ _ _
    · rw [if_neg hside]
      exact hgo _ rfl (fun d => rfl) fun d => rfl

/-- A task that has been taken off its list goes back to the top of its loop. -/
theorem Inv.wake (hI : s.Inv) (hfree : s.suspendedBy = none) (hp : s.place t = .blocked c)
    (hout : t ∉ s.queue.waiting c.side) : (s.goto t (.enter c true)).Inv := by
  refine hI.move (.inl hfree) _ s.suspendedBy (fun d hin hw => ?_) (fun d hr => ?_) (fun d hpl => nomatch hpl) hfree
    fun d => hI.lock.open_ hfree d
  · rw [hp] at hw
    have hd : c.side = d := of_decide_eq_true hw
    exact absurd (hd ▸ hin) hout
  · rw [hp] at hr
    exact hr

theorem Inv.expired (hI : s.Inv) (hfree : s.suspendedBy = none) (hp : s.place t = .expired c) (p : Place)
    (hpin : p.inLock = false) (hpl : ∀ d, p.placing d = false) (hl : ∀ d, p.locks d = false) : (s.goto t p).Inv := by
  refine hI.move (.inl hfree) p s.suspendedBy (fun d _ hw => ?_) (fun d hr => ?_) (fun d hplacing => ?_) ?_ fun d => ?_
  · rw [hp] at hw
    cases hw
  · rw [hp] at hr
    cases hr
  · rw [hpl d] at hplacing
    cases hplacing
  · rw [hpin]
    exact hfree
  · rw [hl d]
    exact hI.lock.open_ hfree d

theorem Inv.run (hI : s.Inv) (hR : s.Refines n size l) (ht : s.suspendedBy = none ∨ s.suspendedBy = some t)
    (hstep : s.run prio t timedOut = some s') : s'.Inv := by
  unfold Kernel.run at hstep
  cases hp : s.place t with
  | idle =>
    rw [hp] at hstep
    cases hstep
  | enter c wait =>
    rw [hp] at hstep
    obtain rfl := Option.some.inj hstep
    exact hI.enter hR (hI.lock.free ht (by rw [hp]; rfl)) hp
  | refused c =>
    rw [hp] at hstep
    obtain rfl := Option.some.inj hstep
    exact hI.lockQueue (hI.lock.free ht (by rw [hp]; rfl)) hp
  | locked c =>
    rw [hp] at hstep
    obtain rfl := Option.some.inj hstep
    exact hI.check ht hp
  | place c =>
    rw [hp] at hstep
    obtain rfl := Option.some.inj hstep
    exact hI.placeOnList ht hp
  | unlockTx c next =>
    rw [hp] at hstep
    obtain rfl := Option.some.inj hstep
    exact hI.unlockTx ht hp
  | unlockRx c next =>
    rw [hp] at hstep
    obtain rfl := Option.some.inj hstep
    exact hI.unlockRx ht hp
  | resume c next =>
    rw [hp] at hstep
    obtain rfl := Option.some.inj hstep
    exact hI.resume ht hp
  | blocked c =>
    rw [hp] at hstep
    obtain ⟨hout, hgo⟩ := Option.ite_none_left_eq_some.mp hstep
    obtain rfl := Option.some.inj hgo
    exact hI.wake (hI.lock.free ht (by rw [hp]; rfl)) hp hout
  | expired c =>
    have hgo := hI.expired (hI.lock.free ht (by rw [hp]; rfl)) hp
    rw [hp] at hstep
    dsimp only at hstep
    by_cases hnone : s.queue.uxMessagesWaiting = 0
    · rw [if_pos hnone] at hstep
      obtain rfl := Option.some.inj hstep
      exact (hgo _ rfl (fun d => rfl) fun d => rfl).returns _ _ _
    · rw [if_neg hnone] at hstep
      obtain rfl := Option.some.inj hstep
      exact hgo _ rfl (fun d => rfl) fun d => rfl

theorem Inv.tick (hI : s.Inv) (hstep : s.tick t = some s') : s'.Inv := by
  unfold Kernel.tick at hstep
  cases hp : s.place t with
  | blocked c =>
    rw [hp] at hstep
    obtain ⟨-, rfl⟩ := guard_eq_some.mp hstep
    refine ⟨fun d => ?_, ⟨hI.lock.exclusive, hI.lock.held, fun d => ?_, fun d => ?_⟩⟩
    · show SideInv d ((s.queue.setWaiting _ c.side).avail d) ((s.queue.setWaiting _ c.side).lock d).toNat
        ((s.queue.setWaiting _ c.side).waiting d) s.place
      rw [Queue.items_setWaiting, Queue.lock_setWaiting, Queue.waiting_setWaiting]
      by_cases hd : d = c.side
      · rw [if_pos hd, ← hd]
        exact (hI.side d).erase t
      · rw [if_neg hd]
        exact hI.side d
    · show ∀ u, (s.place u).locks d = true → 0 ≤ (s.queue.setWaiting _ c.side).lock d
      rw [Queue.lock_setWaiting]
      exact hI.lock.locked d
    · show (∀ u, (s.place u).locks d = false) → (s.queue.setWaiting _ c.side).lock d = _
      rw [Queue.lock_setWaiting]
      exact hI.lock.unlocked d
  | _ =>
    rw [hp] at hstep
    cases hstep

theorem int8_succ {count : ℤ} (h0 : 0 ≤ count) (h : count < 127) : int8 (count + 1) = count + 1 := by
  unfold int8
  omega

/-- An interrupt that has been served tells the side that it leaves something for, or counts it. -/
theorem Inv.tellFromISR (hI : s.Inv) {items : QueueItems} {d : Side} {m : Side → ℕ} (hfit : s.queue.lock d < 127)
    (hm : ∀ d', m d' ≤ s.queue.avail d')
    (havail : ∀ d', items.avail d' ≤ m d' + if d' = d then 1 else 0) :
    { s.withItems items with queue := (s.withItems items).queue.tellFromISR d }.Inv := by
  have hside (d' : Side) : SideInv d' (m d') (s.queue.lock d').toNat (s.queue.waiting d') s.place :=
    (hI.side d').less (hm d')
  have hlock : ∀ d', (s.withItems items).queue.lock d' = s.queue.lock d' := by
    intro d'
    cases d' <;> rfl
  have hwaiting : ∀ d', (s.withItems items).queue.waiting d' = s.queue.waiting d' := by
    intro d'
    cases d' <;> rfl
  unfold Queue.tellFromISR
  rw [hlock]
  by_cases hopen : s.queue.lock d = queueUNLOCKED
  · rw [if_pos hopen]
    unfold Queue.tell
    refine ⟨fun d' => ?_, ⟨hI.lock.exclusive, hI.lock.held, fun d' => ?_, fun d' => ?_⟩⟩
    · show SideInv d' (((s.withItems items).queue.setWaiting _ d).avail d')
        (((s.withItems items).queue.setWaiting _ d).lock d').toNat
        (((s.withItems items).queue.setWaiting _ d).waiting d') s.place
      rw [Queue.items_setWaiting, Queue.lock_setWaiting, Queue.waiting_setWaiting, hlock, hwaiting, hwaiting]
      have hd' := havail d'
      by_cases hd : d' = d
      · subst hd
        have hbefore := hside d'
        rw [hopen] at hbefore ⊢
        rw [if_pos rfl] at hd' ⊢
        exact (hbefore.told (hI.lock.no_placing hopen)).less hd'
      · rw [if_neg hd] at hd' ⊢
        exact (hside d').less hd'
    · show ∀ u, (s.place u).locks d' = true → 0 ≤ ((s.withItems items).queue.setWaiting _ d).lock d'
      rw [Queue.lock_setWaiting, hlock]
      exact hI.lock.locked d'
    · show (∀ u, (s.place u).locks d' = false) → ((s.withItems items).queue.setWaiting _ d).lock d' = _
      rw [Queue.lock_setWaiting, hlock]
      exact hI.lock.unlocked d'
  · rw [if_neg hopen]
    have hcount := hI.lock.counting hopen
    refine ⟨fun d' => ?_, ⟨hI.lock.exclusive, hI.lock.held, fun d' => ?_, fun d' => ?_⟩⟩
    · show SideInv d' (((s.withItems items).queue.setLock _ d).avail d')
        (((s.withItems items).queue.setLock _ d).lock d').toNat
        (((s.withItems items).queue.setLock _ d).waiting d') s.place
      rw [Queue.items_setLock, Queue.lock_setLock, Queue.waiting_setLock, hlock, hwaiting]
      have hd' := havail d'
      by_cases hd : d' = d
      · subst hd
        rw [if_pos rfl] at hd' ⊢
        rw [int8_succ hcount hfit, show (s.queue.lock d' + 1).toNat = (s.queue.lock d').toNat + 1 by omega]
        exact (hside d').counted.less hd'
      · rw [if_neg hd] at hd' ⊢
        exact (hside d').less hd'
    · show ∀ u, (s.place u).locks d' = true → 0 ≤ ((s.withItems items).queue.setLock _ d).lock d'
      rw [Queue.lock_setLock, hlock]
      by_cases hd : d' = d
      · rw [if_pos hd, int8_succ hcount hfit]
        exact fun _ _ => by omega
      · rw [if_neg hd]
        exact hI.lock.locked d'
    · show (∀ u, (s.place u).locks d' = false) → ((s.withItems items).queue.setLock _ d).lock d' = _
      rw [Queue.lock_setLock, hlock]
      by_cases hd : d' = d
      · subst hd
        exact fun hall => absurd (hI.lock.unlocked d' hall) hopen
      · rw [if_neg hd]
        exact hI.lock.unlocked d'

/-- A peek from an interrupt changes nothing for either side. -/
theorem Inv.peekFromISR (hI : s.Inv) (hR : s.Refines n size l) {items : QueueItems} (hholds : items.Holds l)
    (hlen : items.uxLength = s.queue.uxLength) : (s.withItems items).Inv := by
  have hcount := hR.holds.count
  have hcount' := hholds.count
  refine ⟨fun d => ?_, ⟨hI.lock.exclusive, hI.lock.held, fun d => ?_, fun d => ?_⟩⟩
  · have hle : items.avail d ≤ s.queue.avail d := by
      cases d with
      | sender =>
        show items.uxLength - items.uxMessagesWaiting ≤ s.queue.uxLength - s.queue.uxMessagesWaiting
        omega
      | receiver =>
        show items.uxMessagesWaiting ≤ s.queue.uxMessagesWaiting
        omega
    have hless := (hI.side d).less hle
    cases d with
    | sender => exact hless
    | receiver => exact hless
  · have hlocked := hI.lock.locked d
    cases d with
    | sender => exact hlocked
    | receiver => exact hlocked
  · have hunlocked := hI.lock.unlocked d
    cases d with
    | sender => exact hunlocked
    | receiver => exact hunlocked

theorem Inv.fromISR (hI : s.Inv) (hR : s.Refines n size l) (hc : c.Valid s.queue.toQueueItems)
    (hfit : s.queue.lock c.tells < 127) : (s.fromISR c).Inv := by
  obtain ⟨items, r, l', haccess, hy, hstep, hholds, hlen, -⟩ := hR.holds.access hc
  unfold Kernel.fromISR
  rw [haccess]
  dsimp only
  by_cases hr : r.xReturn = pdPASS
  · rw [if_pos hr]
    by_cases hpeek : c = .peek
    · subst hpeek
      rw [if_pos rfl]
      obtain rfl | ⟨item, rfl⟩ := hy
      · exact absurd hr (by decide)
      · obtain ⟨-, rfl⟩ := guard_eq_some.mp hstep
        exact (hI.peekFromISR hR hholds hlen).returns _ _ _
    · rw [if_neg hpeek]
      refine (hI.tellFromISR (m := fun d => if d = c.side then s.queue.avail d - 1 else s.queue.avail d) hfit
        (fun d => ?_) (hR.holds.avail_served hholds hlen hy hstep hr)).returns _ _ _
      by_cases hd : d = c.side
      · exact (if_pos hd).trans_le (Nat.sub_le _ _)
      · exact (if_neg hd).le
  · rw [if_neg hr]
    exact hI.returns _ _ _

theorem Inv.reset (hI : s.Inv) (hfree : s.suspendedBy = none) (hone : s.queue.xTasksWaitingToSend.length ≤ 1) :
    s.reset.Inv where
  side d := by
    cases d with
    | sender =>
      have htail : s.queue.xTasksWaitingToSend.tail = [] := by
        rw [← List.length_eq_zero_iff, List.length_tail]
        omega
      show SideInv .sender _ _ s.queue.xTasksWaitingToSend.tail s.place
      rw [htail]
      exact .of_nil (hI.lock.no_placing (hI.lock.open_ hfree .sender))
    | receiver =>
      have hless := (hI.side .receiver).less (Nat.zero_le _)
      rw [hI.lock.open_ hfree .receiver] at hless
      exact hless
  lock := by
    refine ⟨hI.lock.exclusive, hI.lock.held, fun d u hu => ?_, fun d _ => ?_⟩
    · have hno : (s.reset.place u).locks d = false := hI.lock.no_locks hfree d u
      rw [hno] at hu
      cases hu
    · cases d with
      | sender => rfl
      | receiver => rfl

theorem inv_create {storage : List UInt8} : (create n size storage).Inv where
  side d := by
    cases d with
    | sender => exact .of_nil fun t => rfl
    | receiver => exact .of_nil fun t => rfl
  lock := by
    refine ⟨(fun t ht => nomatch ht), (fun t ht => nomatch ht), (fun d t ht => nomatch ht), fun d _ => ?_⟩
    cases d with
    | sender => rfl
    | receiver => rfl

theorem Inv.step (hI : s.Inv) (hR : s.Refines n size l) (hfit : CountsFit h s e) (hstep : s.step prio e = some s') :
    s'.Inv := by
  cases e with
  | call t c wait =>
    obtain ⟨⟨hfree, hidle, -⟩, rfl⟩ := guard_eq_some.mp hstep
    exact hI.call hfree hidle
  | run t timedOut =>
    obtain ⟨ht, hrun⟩ := Option.ite_none_right_eq_some.mp hstep
    exact hI.run hR ht hrun
  | tick t =>
    obtain ⟨-, htick⟩ := Option.ite_none_right_eq_some.mp hstep
    exact hI.tick htick
  | fromISR c =>
    obtain ⟨hc, rfl⟩ := guard_eq_some.mp hstep
    exact hI.fromISR hR hc hfit
  | reset =>
    obtain ⟨hfree, rfl⟩ := guard_eq_some.mp hstep
    exact hI.reset hfree hfit

end Steps

end Kernel

/-! ## Runs -/

section Runs

variable {prio : TaskHandle → ℕ} {n size : ℕ} {storage : List UInt8} {h : List Event} {s : Kernel}

/-- **No wake-up is lost.**  While the scheduler is running and tasks wait on a side, what is there for them is matched by
tasks that are in no list and about to look for it. -/
theorem no_wakeup_lost (hn : 0 < n) (hpos : 0 < size) (hlen : storage.length = n * size)
    (hr : RunIf (Kernel.step prio) Kernel.CountsFit (.create n size storage) h s) (hrunning : s.suspendedBy = none)
    (d : Side) (hwait : s.queue.waiting d ≠ []) :
    ∃ ts : List TaskHandle, ts.Nodup ∧ s.queue.avail d ≤ ts.length ∧
      ∀ t ∈ ts, (s.place t).retries d = true ∧ t ∉ s.queue.waiting d := by
  have hinv : s.Inv ∧ ∃ l, s.Refines n size l := by
    refine hr.inv (I := fun _ s => s.Inv ∧ ∃ l, s.Refines n size l)
      ⟨Kernel.inv_create, [], Kernel.refines_create hn hpos hlen⟩ ?_
    rintro h s e s' - ⟨hI, l, hR⟩ hfit hstep
    refine ⟨hI.step hR hfit hstep, ?_⟩
    rcases hR.step hn hstep with ⟨-, hR'⟩ | ⟨a, l', -, -, hR'⟩
    · exact ⟨l, hR'⟩
    · exact ⟨l', hR'⟩
  obtain ⟨hI, -⟩ := hinv
  obtain ⟨ts, hnodup, hle, hdue⟩ := (hI.side d).served hwait
  rw [hI.lock.open_ hrunning d] at hle
  exact ⟨ts, hnodup, hle, hdue⟩

/-- Tasks 1 and 2 wait to receive, and an interrupt sends one item: task 1 is told. -/
def twoReceivers : List Event :=
  [.call 1 .receive true, .run 1 false, .run 1 false, .run 1 false, .run 1 false, .run 1 false, .run 1 false,
    .run 1 false, .call 2 .receive true, .run 2 false, .run 2 false, .run 2 false, .run 2 false, .run 2 false,
    .run 2 false, .run 2 false, .fromISR (.send [7] .sendToBack)]

theorem no_wakeup_lost_two :
    ∃ s : Kernel, s.queue.waiting .receiver = [2] ∧ s.queue.avail .receiver = 1 ∧
      ∃ ts : List TaskHandle, ts.Nodup ∧ s.queue.avail .receiver ≤ ts.length ∧
        ∀ t ∈ ts, (s.place t).retries .receiver = true ∧ t ∉ s.queue.waiting .receiver := by
  obtain ⟨h, s, hr, hs⟩ := exists_runIf (Kernel.step fun _ => 1) (.create 2 1 [0, 0]) twoReceivers
    (fun r => (r.2.suspendedBy, r.2.queue.waiting .receiver, r.2.queue.avail .receiver))
    (fun h s e (hok : decide (Kernel.CountsFit h s e) = true) => of_decide_eq_true hok)
    (by decide : _ = some (none, [2], 1))
  obtain ⟨hrunning, hrest⟩ := Prod.mk.inj hs
  obtain ⟨hwaiting, havail⟩ := Prod.mk.inj hrest
  exact ⟨s, hwaiting, havail, no_wakeup_lost (by decide) (by decide) (by decide) hr hrunning .receiver
    (by rw [hwaiting]; decide)⟩

end Runs

end Thronix.KernelQueue
