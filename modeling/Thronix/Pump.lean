import Thronix.Station
import Thronix.Lib.Runs

/-!
# Thronix.Pump — the watering alone

What the watering command and the relay are for, without the rest of the station: a request overwrites the time and
sets the flag, the task waits for the flag, reads the time, runs the pump for it, and clears the flag.

* `Pump.step`: the system; its actions are the calls on the flag, the time and the relay.
* `Placed`, `Timed`, `Asked`, `Credit`, `Reported`, `Owing`: what ties the flag, the relay, the times and the calls made
  so far to the place of the task, in every run.
* `request_served`: in runs whose handlers set the flag `InTime`, no request is lost.
-/

namespace Thronix

open Lib

/-- A handler of a message: not running, running, or between its `xQueueOverwrite` and its `xEventGroupSetBits`. -/
inductive Handler
  | idle
  | busy
  | owing
  deriving DecidableEq, Repr

structure Pump where
  handler : Handler
  waterQueue : Queue1 (BitVec 32)
  flag : Bool
  relay : Bool
  pc : WateringPc
  deriving DecidableEq, Repr

inductive PumpAct
  | recvCall
  | overwrite (v : BitVec 32)
  | commandSet
  | recvReturn
  | reportSet
  | start
  | wait
  | peek
  | relayOn
  | sleep (t : BitVec 32)
  | relayOff
  | report
  | clear
  deriving DecidableEq, Repr

namespace WateringPc

/-- The relay is on. -/
def pumping : WateringPc → Bool
  | .start => false
  | .waitBits => false
  | .blocked => false
  | .peek => false
  | .relayOn _ => false
  | .sleep _ => true
  | .relayOff _ => true
  | .report => false
  | .clear => false

/-- Between the peek and the clear. -/
def active : WateringPc → Bool
  | .start => false
  | .waitBits => false
  | .blocked => false
  | .peek => false
  | .relayOn _ => true
  | .sleep _ => true
  | .relayOff _ => true
  | .report => true
  | .clear => true

/-- The relay is still to go on for a flag that is set. -/
def ready : WateringPc → Bool
  | .start => true
  | .waitBits => true
  | .blocked => true
  | .peek => true
  | .relayOn _ => true
  | .sleep _ => false
  | .relayOff _ => false
  | .report => false
  | .clear => false

/-- The time that was peeked. -/
def time : WateringPc → Option (BitVec 32)
  | .start => none
  | .waitBits => none
  | .blocked => none
  | .peek => none
  | .relayOn t => some t
  | .sleep t => some t
  | .relayOff t => some t
  | .report => none
  | .clear => none

end WateringPc

namespace PumpAct

def isPeek : PumpAct → Bool
  | .peek => true
  | _ => false

def isOn : PumpAct → Bool
  | .relayOn => true
  | _ => false

def isClear : PumpAct → Bool
  | .clear => true
  | _ => false

/-- `xEventGroupSetBits(waterFlag)`, by a handler or by a sensor report. -/
def isSet : PumpAct → Bool
  | .commandSet | .reportSet => true
  | _ => false

def isOverwrite : PumpAct → Bool
  | .overwrite _ => true
  | _ => false

/-- A call of the receiving task. -/
def ofHandler : PumpAct → Bool
  | .recvCall | .overwrite _ | .commandSet | .recvReturn => true
  | _ => false

end PumpAct

namespace Pump

def init : Pump := ⟨.idle, .empty, false, false, .start⟩

/-- The bit set, and the task that waits for it made ready. -/
def set (p : Pump) : Pump := { p with flag := true, pc := if p.pc = .blocked then .peek else p.pc }

/-- What does not tell a waiting task from a woken one does not change with the bit. -/
theorem apply_set_pc {α : Type} (f : WateringPc → α) (hf : f .peek = f .blocked) (p : Pump) : f p.set.pc = f p.pc := by
  by_cases h : p.pc = .blocked
  · rw [show p.set.pc = .peek from if_pos h, hf, h]
  · rw [show p.set.pc = p.pc from if_neg h]

theorem set_pc_ne_blocked (p : Pump) : p.set.pc ≠ .blocked := by
  by_cases h : p.pc = .blocked
  · rw [show p.set.pc = .peek from if_pos h]
    exact WateringPc.noConfusion
  · rwa [show p.set.pc = p.pc from if_neg h]

def step (p : Pump) : PumpAct → Option Pump
  | .recvCall => if p.handler = .idle then some { p with handler := .busy } else none
  | .overwrite v =>
    if p.handler = .busy then some { p with handler := .owing, waterQueue := p.waterQueue.xQueueOverwrite v } else none
  | .commandSet => if p.handler = .owing then some { p.set with handler := .busy } else none
  | .recvReturn => if p.handler = .busy then some { p with handler := .idle } else none
  | .reportSet => some p.set
  | .start => if p.pc = .start then some { p with pc := .waitBits } else none
  | .wait => if p.pc = .waitBits then some { p with pc := if p.flag then .peek else .blocked } else none
  | .peek => if p.pc = .peek then some { p with pc := .relayOn (p.waterQueue.xQueuePeek 5000) } else none
  | .relayOn =>
    match p.pc with
    | .relayOn t => some { p with relay := true, pc := .sleep t }
    | _ => none
  | .sleep t => if p.pc = .sleep t then some { p with pc := .relayOff t } else none
  | .relayOff =>
    match p.pc with
    | .relayOff _ => some { p with relay := false, pc := .report }
    | _ => none
  | .report => if p.pc = .report then some { p with pc := .clear } else none
  | .clear => if p.pc = .clear then some { p with flag := false, pc := .waitBits } else none

/-! ## Steps -/

section Steps

variable {p p' : Pump}

theorem step_recvCall : step p .recvCall = some p' ↔ p.handler = .idle ∧ p' = { p with handler := .busy } :=
  guard_eq_some

theorem step_overwrite {v : BitVec 32} : step p (.overwrite v) = some p' ↔ p.handler = .busy ∧
    p' = { p with handler := .owing, waterQueue := p.waterQueue.xQueueOverwrite v } :=
  guard_eq_some

theorem step_commandSet :
    step p .commandSet = some p' ↔ p.handler = .owing ∧ p' = { p.set with handler := .busy } :=
  guard_eq_some

theorem step_recvReturn : step p .recvReturn = some p' ↔ p.handler = .busy ∧ p' = { p with handler := .idle } :=
  guard_eq_some

theorem step_reportSet : step p .reportSet = some p' ↔ p' = p.set := by
  rw [step, Option.some.injEq, eq_comm]

theorem step_start : step p .start = some p' ↔ p.pc = .start ∧ p' = { p with pc := .waitBits } :=
  guard_eq_some

theorem step_wait : step p .wait = some p' ↔ p.pc = .waitBits ∧
    p' = { p with pc := if p.flag then .peek else .blocked } :=
  guard_eq_some

theorem step_peek : step p .peek = some p' ↔ p.pc = .peek ∧
    p' = { p with pc := .relayOn (p.waterQueue.xQueuePeek 5000) } :=
  guard_eq_some

theorem step_relayOn : step p .relayOn = some p' ↔ ∃ t, p.pc = .relayOn t ∧
    p' = { p with relay := true, pc := .sleep t } := by
  simp only [step]
  split <;> simp_all [eq_comm]

theorem step_sleep {t : BitVec 32} : step p (.sleep t) = some p' ↔ p.pc = .sleep t ∧
    p' = { p with pc := .relayOff t } :=
  guard_eq_some

theorem step_relayOff : step p .relayOff = some p' ↔ ∃ t, p.pc = .relayOff t ∧
    p' = { p with relay := false, pc := .report } := by
  simp only [step]
  split <;> simp_all [eq_comm]

theorem step_report : step p .report = some p' ↔ p.pc = .report ∧ p' = { p with pc := .clear } :=
  guard_eq_some

theorem step_clear : step p .clear = some p' ↔ p.pc = .clear ∧
    p' = { p with flag := false, pc := .waitBits } :=
  guard_eq_some

/-- The two calls that set the flag. -/
theorem step_set {a : PumpAct} (ha : a.isSet = true) (hs : step p a = some p') :
    ∃ handler, p' = { p.set with handler := handler } := by
  cases a with
  | commandSet => exact ⟨_, (step_commandSet.mp hs).2⟩
  | reportSet => exact ⟨_, step_reportSet.mp hs⟩
  | _ => cases ha

theorem step_handler {a : PumpAct} (ha : a.ofHandler = false) (hs : step p a = some p') : p'.handler = p.handler := by
  cases a with
  | recvCall | overwrite v | commandSet | recvReturn => cases ha
  | reportSet =>
    obtain rfl := step_reportSet.mp hs
    rfl
  | relayOn =>
    obtain ⟨_, -, rfl⟩ := step_relayOn.mp hs
    rfl
  | relayOff =>
    obtain ⟨_, -, rfl⟩ := step_relayOff.mp hs
    rfl
  | _ =>
    obtain ⟨-, rfl⟩ := guard_eq_some.mp hs
    rfl

/-- A step that neither sets nor clears the flag leaves it, and makes no task ready. -/
theorem step_flag {a : PumpAct} (ha : a.isSet = false) (hc : a.isClear = false) (hs : step p a = some p') :
    p'.flag = p.flag ∧ (p'.pc.ready = true → p.pc.ready = true) := by
  cases a with
  | commandSet | reportSet => cases ha
  | clear => cases hc
  | relayOn =>
    obtain ⟨_, hpc, rfl⟩ := step_relayOn.mp hs
    exact ⟨rfl, fun h => by cases h⟩
  | relayOff =>
    obtain ⟨_, hpc, rfl⟩ := step_relayOff.mp hs
    exact ⟨rfl, fun h => by cases h⟩
  | recvCall | overwrite v | recvReturn =>
    obtain ⟨-, rfl⟩ := guard_eq_some.mp hs
    exact ⟨rfl, id⟩
  | start | wait | peek =>
    obtain ⟨hpc, rfl⟩ := guard_eq_some.mp hs
    exact ⟨rfl, fun _ => by rw [hpc]; rfl⟩
  | sleep _ | report =>
    obtain ⟨-, rfl⟩ := guard_eq_some.mp hs
    exact ⟨rfl, fun h => by cases h⟩

/-- Only the relay's own call takes the task on from it. -/
theorem step_relayOn_stays {a : PumpAct} {t : BitVec 32} (ha : a.isOn = false) (hs : step p a = some p')
    (hpc : p.pc = .relayOn t) : p'.pc = .relayOn t := by
  cases a with
  | relayOn => cases ha
  | commandSet | reportSet =>
    obtain ⟨_, rfl⟩ := step_set rfl hs
    show p.set.pc = _
    rw [← hpc]
    exact if_neg (by rw [hpc]; exact WateringPc.noConfusion)
  | recvCall | overwrite v | recvReturn =>
    obtain ⟨-, rfl⟩ := guard_eq_some.mp hs
    exact hpc
  | relayOff =>
    obtain ⟨_, h, -⟩ := step_relayOff.mp hs
    cases hpc.symm.trans h
  | _ =>
    obtain ⟨h, -⟩ := guard_eq_some.mp hs
    cases hpc.symm.trans h

end Steps

/-! ## What holds in every run -/

/-- What the task's place says about the relay and the flag. -/
structure Placed (p : Pump) : Prop where
  relay : p.relay = p.pc.pumping
  flag : p.pc = .peek ∨ p.pc.active = true → p.flag = true
  blocked : p.pc = .blocked → p.flag = false

theorem Placed.step {p p' : Pump} {a : PumpAct} (hp : p.Placed) (hs : Pump.step p a = some p') : p'.Placed := by
  obtain ⟨h1, h2, h3⟩ := hp
  cases a with
  | recvCall | overwrite v | recvReturn =>
    obtain ⟨-, rfl⟩ := guard_eq_some.mp hs
    exact ⟨h1, h2, h3⟩
  | commandSet | reportSet =>
    obtain ⟨_, rfl⟩ := step_set rfl hs
    exact ⟨h1.trans (apply_set_pc WateringPc.pumping rfl p).symm, fun _ => rfl, fun hb => absurd hb p.set_pc_ne_blocked⟩
  | wait =>
    obtain ⟨hpc, rfl⟩ := step_wait.mp hs
    rw [hpc] at h1
    by_cases hf : p.flag = true
    · rw [if_pos hf]
      exact ⟨h1, fun _ => hf, fun hb => WateringPc.noConfusion hb⟩
    · rw [if_neg hf]
      refine ⟨h1, ?_, fun _ => Bool.eq_false_iff.mpr hf⟩
      rintro (hb | hb) <;> cases hb
  | relayOn =>
    obtain ⟨t, hpc, rfl⟩ := step_relayOn.mp hs
    exact ⟨rfl, fun _ => h2 (.inr (by rw [hpc]; rfl)), fun hb => WateringPc.noConfusion hb⟩
  | relayOff =>
    obtain ⟨t, hpc, rfl⟩ := step_relayOff.mp hs
    exact ⟨rfl, fun _ => h2 (.inr (by rw [hpc]; rfl)), fun hb => WateringPc.noConfusion hb⟩
  | start | clear =>
    -- the task is on its way to the wait, the relay off
    obtain ⟨hpc, rfl⟩ := guard_eq_some.mp hs
    rw [hpc] at h1
    refine ⟨h1, ?_, fun hb => WateringPc.noConfusion hb⟩
    rintro (hb | hb) <;> cases hb
  | peek =>
    obtain ⟨hpc, rfl⟩ := step_peek.mp hs
    rw [hpc] at h1
    exact ⟨h1, fun _ => h2 (.inl hpc), fun hb => WateringPc.noConfusion hb⟩
  | sleep _ | report =>
    obtain ⟨hpc, rfl⟩ := guard_eq_some.mp hs
    rw [hpc] at h1
    exact ⟨h1, fun _ => h2 (.inr (by rw [hpc]; rfl)), fun hb => WateringPc.noConfusion hb⟩

/-- The time that the newest request asked for. -/
def lastWater : List PumpAct → BitVec 32
  | [] => 5000
  | .overwrite v :: _ => v
  | _ :: h => lastWater h

/-- The times: the queue holds that of the newest request, the task that of the newest request before its peek. -/
structure Timed (h : List PumpAct) (p : Pump) : Prop where
  queue : p.waterQueue.xQueuePeek 5000 = lastWater h
  time : ∀ t, p.pc.time = some t → t = lastWater (before PumpAct.isPeek h)

theorem Timed.step {h : List PumpAct} {p p' : Pump} {a : PumpAct} (hp : Timed h p) (hs : Pump.step p a = some p') :
    Timed (a :: h) p' := by
  obtain ⟨h1, h2⟩ := hp
  cases a with
  | peek =>
    obtain ⟨hpc, rfl⟩ := step_peek.mp hs
    refine ⟨h1, fun t ht => ?_⟩
    rw [before_cons_of_pos rfl, ← h1]
    exact (Option.some.inj ht).symm
  | overwrite v =>
    obtain ⟨-, rfl⟩ := step_overwrite.mp hs
    exact ⟨rfl, by rw [before_cons_of_neg rfl]; exact h2⟩
  | recvCall | recvReturn =>
    obtain ⟨-, rfl⟩ := guard_eq_some.mp hs
    exact ⟨h1, h2⟩
  | commandSet | reportSet =>
    obtain ⟨_, rfl⟩ := step_set rfl hs
    exact ⟨h1, fun t ht => h2 t ((apply_set_pc WateringPc.time rfl p).symm.trans ht)⟩
  | wait =>
    obtain ⟨-, rfl⟩ := step_wait.mp hs
    refine ⟨h1, fun t ht => ?_⟩
    have hnone : (if p.flag then WateringPc.peek else .blocked).time = none := by cases p.flag <;> rfl
    cases hnone.symm.trans ht
  | start | report | clear =>
    obtain ⟨-, rfl⟩ := guard_eq_some.mp hs
    exact ⟨h1, fun t ht => by cases ht⟩
  | relayOn =>
    obtain ⟨t, hpc, rfl⟩ := step_relayOn.mp hs
    rw [hpc] at h2
    exact ⟨h1, h2⟩
  | sleep t =>
    obtain ⟨hpc, rfl⟩ := step_sleep.mp hs
    rw [hpc] at h2
    exact ⟨h1, h2⟩
  | relayOff =>
    obtain ⟨t, hpc, rfl⟩ := step_relayOff.mp hs
    exact ⟨h1, fun t ht => by cases ht⟩

/-- A flag that is set was set after the last clear. -/
def Asked (h : List PumpAct) (p : Pump) : Prop := p.flag = true → ∃ a ∈ since PumpAct.isClear h, a.isSet = true

theorem Asked.step {h : List PumpAct} {p p' : Pump} {a : PumpAct} (hp : Asked h p) (hs : Pump.step p a = some p') :
    Asked (a :: h) p' := by
  intro hf
  cases a with
  | clear =>
    obtain ⟨-, rfl⟩ := step_clear.mp hs
    cases hf
  | commandSet | reportSet =>
    rw [since_cons_of_neg rfl]
    exact ⟨_, List.mem_cons_self, rfl⟩
  | _ =>
    rw [since_cons_of_neg rfl]
    obtain ⟨b, hb, hset⟩ := hp ((step_flag rfl rfl hs).1 ▸ hf)
    exact ⟨b, List.mem_cons_of_mem _ hb, hset⟩

/-- The activations so far, and the one that a set flag is still good for. -/
def Credit (h : List PumpAct) (p : Pump) : Prop :=
  h.countP PumpAct.isOn + (if p.flag = true ∧ p.pc.ready = true then 1 else 0) ≤ h.countP PumpAct.isSet

theorem Credit.step {h : List PumpAct} {p p' : Pump} {a : PumpAct} (hp : Credit h p) (hl : p.Placed)
    (hs : Pump.step p a = some p') : Credit (a :: h) p' := by
  unfold Credit at *
  cases a with
  | relayOn =>
    -- the credit is spent
    obtain ⟨t, hpc, rfl⟩ := step_relayOn.mp hs
    have hf := hl.flag (.inr (by rw [hpc]; rfl))
    rw [hpc, if_pos ⟨hf, rfl⟩] at hp
    rw [List.countP_cons_of_pos rfl, List.countP_cons_of_neg Bool.false_ne_true]
    simpa [WateringPc.ready] using hp
  | commandSet | reportSet =>
    rw [List.countP_cons_of_neg Bool.false_ne_true, List.countP_cons_of_pos rfl]
    split_ifs <;> omega
  | clear =>
    obtain ⟨-, rfl⟩ := step_clear.mp hs
    rw [List.countP_cons_of_neg Bool.false_ne_true, List.countP_cons_of_neg Bool.false_ne_true,
      if_neg fun h => Bool.false_ne_true h.1]
    omega
  | _ =>
    obtain ⟨hflag, hready⟩ := step_flag rfl rfl hs
    rw [List.countP_cons_of_neg Bool.false_ne_true, List.countP_cons_of_neg Bool.false_ne_true, hflag]
    by_cases hc : p.flag = true ∧ p'.pc.ready = true
    · rw [if_pos hc]
      rwa [if_pos ⟨hc.1, hready hc.2⟩] at hp
    · rw [if_neg hc]
      omega

/-- A relay off, and then exactly one report. -/
def ReportedOnce (m : List PumpAct) : Prop :=
  ∃ m1 m2, m = m2 ++ .report :: m1 ∧ .report ∉ m1 ∧ .report ∉ m2 ∧ .relayOff ∈ m1

theorem ReportedOnce.cons {m : List PumpAct} {a : PumpAct} (hm : ReportedOnce m) (ha : .report ≠ a) :
    ReportedOnce (a :: m) := by
  obtain ⟨m1, m2, rfl, h1, h2, h3⟩ := hm
  exact ⟨m1, a :: m2, rfl, h1, List.not_mem_cons_of_ne_of_not_mem ha h2, h3⟩

/-- The reports in `m`, the calls since the relay last went on; `on` says whether it ever did. -/
structure Reported (on : Bool) (m : List PumpAct) (p : Pump) : Prop where
  fresh : p.pc = .start → on = false
  none : p.pc.pumping = true ∨ p.pc = .report → .report ∉ m
  off : p.pc = .report → .relayOff ∈ m
  once : p.pc.pumping = false → p.pc ≠ .report → on = true → ReportedOnce m

/-- A call apart from the relay and the reports. -/
theorem Reported.cons {on : Bool} {m : List PumpAct} {p p' : Pump} {a : PumpAct} (hp : Reported on m p)
    (ha : .report ≠ a) (hpump : p'.pc.pumping = p.pc.pumping) (hrep : p'.pc = .report ↔ p.pc = .report)
    (hstart : p'.pc = .start → p.pc = .start) : Reported on (a :: m) p' where
  fresh h := hp.fresh (hstart h)
  none h := List.not_mem_cons_of_ne_of_not_mem ha (hp.none (by rwa [hpump, hrep] at h))
  off h := List.mem_cons_of_mem _ (hp.off (hrep.mp h))
  once h1 h2 hon := (hp.once (hpump ▸ h1) (mt hrep.mpr h2) hon).cons ha

theorem Reported.step {h : List PumpAct} {p p' : Pump} {a : PumpAct}
    (hp : Reported (h.any PumpAct.isOn) (since PumpAct.isOn h) p) (hs : Pump.step p a = some p') :
    Reported ((a :: h).any PumpAct.isOn) (since PumpAct.isOn (a :: h)) p' := by
  cases a with
  | relayOn =>
    obtain ⟨t, hpc, rfl⟩ := step_relayOn.mp hs
    rw [since_cons_of_pos rfl]
    exact ⟨by simp, by simp, by simp, fun h => by cases h⟩
  | relayOff =>
    obtain ⟨t, hpc, rfl⟩ := step_relayOff.mp hs
    have hnone := hp.none (.inl (by rw [hpc]; rfl))
    rw [since_cons_of_neg rfl]
    exact ⟨by simp, fun _ => by simpa using hnone, fun _ => List.mem_cons_self, fun _ h => absurd rfl h⟩
  | report =>
    obtain ⟨hpc, rfl⟩ := step_report.mp hs
    rw [since_cons_of_neg rfl]
    refine ⟨by simp, fun h => ?_, by simp, fun _ _ _ => ⟨_, [], rfl, hp.none (.inr hpc), by simp, hp.off hpc⟩⟩
    rcases h with h | h <;> cases h
  | recvCall | overwrite v | recvReturn =>
    obtain ⟨-, rfl⟩ := guard_eq_some.mp hs
    exact hp.cons (by simp) rfl Iff.rfl id
  | commandSet | reportSet =>
    obtain ⟨_, rfl⟩ := step_set rfl hs
    exact hp.cons (by simp) (apply_set_pc WateringPc.pumping rfl p)
      (iff_of_eq (apply_set_pc (fun pc => pc = WateringPc.report) (by simp) p))
      (apply_set_pc (fun pc => pc = WateringPc.start) (by simp) p).mp
  | wait =>
    obtain ⟨hpc, rfl⟩ := step_wait.mp hs
    by_cases hf : p.flag = true
    · exact hp.cons (by simp) (by rw [hpc, if_pos hf]; rfl) (by simp [hpc, hf]) (by simp [hf])
    · exact hp.cons (by simp) (by rw [hpc, if_neg hf]; rfl) (by simp [hpc, hf]) (by simp [hf])
  | start | peek | sleep _ | clear =>
    obtain ⟨hpc, rfl⟩ := guard_eq_some.mp hs
    exact hp.cons (by simp) (by rw [hpc]; rfl) (by simp [hpc]) (by simp)

/-- A handler that owes a set has called nothing since its overwrite. -/
def Owing (h : List PumpAct) (p : Pump) : Prop :=
  p.handler = .owing → ∃ v mid pre, h = mid ++ .overwrite v :: pre ∧ ∀ a ∈ mid, a.ofHandler = false

theorem Owing.step {h : List PumpAct} {p p' : Pump} {a : PumpAct} (hp : Owing h p)
    (hs : Pump.step p a = some p') : Owing (a :: h) p' := by
  intro ho
  cases a with
  | overwrite v => exact ⟨v, [], h, rfl, by simp⟩
  | recvCall | commandSet | recvReturn =>
    obtain ⟨-, rfl⟩ := guard_eq_some.mp hs
    cases ho
  | _ =>
    obtain ⟨v, mid, pre, rfl, hmid⟩ := hp (step_handler rfl hs ▸ ho)
    exact ⟨v, _ :: mid, pre, rfl, List.forall_mem_cons.mpr ⟨rfl, hmid⟩⟩

/-! ## Lost requests -/

/-- A request newer than the last peek. -/
def unpeeked (h : List PumpAct) : Bool := (since PumpAct.isPeek h).any PumpAct.isOverwrite

/-- A request newer than the last peek whose handler has set the flag. -/
def owed : List PumpAct → Bool
  | [] => false
  | .peek :: _ => false
  | .commandSet :: h => unpeeked h || owed h
  | _ :: h => owed h

/-- A handler with an unpeeked request does not set the flag of an activation that is about to clear it. -/
def InTime (h : List PumpAct) (p : Pump) (a : PumpAct) : Prop :=
  a = .commandSet → unpeeked h = true → p.pc.active = false

theorem unpeeked_peek (h : List PumpAct) : unpeeked (.peek :: h) = false := by
  rw [unpeeked, since_cons_of_pos rfl]
  rfl

theorem unpeeked_of_mem {mid pre : List PumpAct} {v : BitVec 32} (hm : ∀ a ∈ mid, a.isPeek = false) :
    unpeeked (mid ++ .overwrite v :: pre) = true := by
  rw [unpeeked, since_append hm, since_cons_of_neg rfl]
  exact List.any_eq_true.mpr ⟨_, List.mem_append_right _ List.mem_cons_self, rfl⟩

theorem owed_append {mid pre : List PumpAct} (hm : ∀ a ∈ mid, a.isPeek = false) (ho : owed pre = true) :
    owed (mid ++ pre) = true := by
  induction mid with
  | nil => exact ho
  | cons a mid ih =>
    have hmid := ih fun b hb => hm b (List.mem_cons_of_mem a hb)
    have ha := hm a List.mem_cons_self
    cases a with
    | peek => cases ha
    | commandSet => rw [List.cons_append, owed, hmid, Bool.or_true]
    | _ => exact hmid

structure Served (h : List PumpAct) (p : Pump) : Prop where
  owed : owed h = true → p.flag = true ∧ p.pc.active = false ∧ p.pc ≠ .blocked
  due : unpeeked h = true → Pump.owed h = true ∨ p.handler = .owing
  ran : (∀ t, p.pc ≠ .relayOn t) → (∃ a ∈ h, a.isPeek = true) → .relayOn ∈ since PumpAct.isPeek h

/-- An activation follows its peek before the next one. -/
theorem Served.ran_cons {h : List PumpAct} {p p' : Pump} {a : PumpAct} (hp : Served h p) (hs : Pump.step p a = some p')
    (hpk : a.isPeek = false) (hon : a.isOn = false) (hpc : ∀ t, p'.pc ≠ .relayOn t)
    (hex : ∃ b ∈ a :: h, b.isPeek = true) : .relayOn ∈ since PumpAct.isPeek (a :: h) := by
  obtain ⟨b, hb, hbpk⟩ := hex
  have hmem : b ∈ h := by
    rcases List.mem_cons.mp hb with rfl | hmem
    · cases hpk.symm.trans hbpk
    · exact hmem
  rw [since_cons_of_neg hpk]
  exact List.mem_cons_of_mem _ (hp.ran (fun t ht => hpc t (step_relayOn_stays hon hs ht)) ⟨b, hmem, hbpk⟩)

theorem Served.step {h : List PumpAct} {p p' : Pump} {a : PumpAct} (hp : Served h p) (hok : InTime h p a)
    (hs : Pump.step p a = some p') : Served (a :: h) p' := by
  cases a with
  | peek =>
    obtain ⟨hpc, rfl⟩ := step_peek.mp hs
    refine ⟨fun ho => absurd ho Bool.false_ne_true, fun hu => ?_, fun hn => absurd rfl (hn _)⟩
    rw [unpeeked_peek] at hu
    cases hu
  | commandSet =>
    refine ⟨fun ho => ?_, fun hu => .inl ?_, hp.ran_cons hs rfl rfl⟩
    · obtain ⟨hh, rfl⟩ := step_commandSet.mp hs
      have hactive : p.pc.active = false := by
        rcases Bool.or_eq_true_iff.mp ho with hu | ho
        · exact hok rfl hu
        · exact (hp.owed ho).2.1
      exact ⟨rfl, (apply_set_pc WateringPc.active rfl p).trans hactive, p.set_pc_ne_blocked⟩
    · exact Bool.or_eq_true_iff.mpr (.inl hu)
  | overwrite v =>
    refine ⟨fun ho => ?_, fun _ => .inr ?_, hp.ran_cons hs rfl rfl⟩
    · obtain ⟨-, rfl⟩ := step_overwrite.mp hs
      exact hp.owed ho
    · obtain ⟨-, rfl⟩ := step_overwrite.mp hs
      rfl
  | relayOn =>
    obtain ⟨t, hpc, rfl⟩ := step_relayOn.mp hs
    refine ⟨fun ho => ?_, hp.due, fun _ _ => ?_⟩
    · have hactive := (hp.owed ho).2.1
      rw [hpc] at hactive
      cases hactive
    · rw [since_cons_of_neg rfl]
      exact List.mem_cons_self
  | recvCall | recvReturn =>
    refine ⟨fun ho => ?_, fun hu => .inl ?_, hp.ran_cons hs rfl rfl⟩
    · obtain ⟨-, rfl⟩ := guard_eq_some.mp hs
      exact hp.owed ho
    · obtain ⟨hh, -⟩ := guard_eq_some.mp hs
      exact (hp.due hu).resolve_right fun h => by cases hh.symm.trans h
  | reportSet =>
    refine ⟨fun ho => ?_, fun hu => ?_, hp.ran_cons hs rfl rfl⟩
    · obtain rfl := step_reportSet.mp hs
      exact ⟨rfl, (apply_set_pc WateringPc.active rfl p).trans (hp.owed ho).2.1, p.set_pc_ne_blocked⟩
    · exact (hp.due hu).imp_right (step_handler rfl hs).trans
  | start =>
    refine ⟨fun ho => ?_, fun hu => (hp.due hu).imp_right (step_handler rfl hs).trans, hp.ran_cons hs rfl rfl⟩
    obtain ⟨-, rfl⟩ := step_start.mp hs
    exact ⟨(hp.owed ho).1, rfl, WateringPc.noConfusion⟩
  | wait =>
    refine ⟨fun ho => ?_, fun hu => (hp.due hu).imp_right (step_handler rfl hs).trans, hp.ran_cons hs rfl rfl⟩
    obtain ⟨-, rfl⟩ := step_wait.mp hs
    rw [if_pos (hp.owed ho).1]
    exact ⟨(hp.owed ho).1, rfl, WateringPc.noConfusion⟩
  | relayOff =>
    refine ⟨fun ho => ?_, fun hu => (hp.due hu).imp_right (step_handler rfl hs).trans, hp.ran_cons hs rfl rfl⟩
    obtain ⟨t, hpc, -⟩ := step_relayOff.mp hs
    have hactive := (hp.owed ho).2.1
    rw [hpc] at hactive
    cases hactive
  | sleep _ | report | clear =>
    -- a request that is owed is not seen by a task that is about to clear its flag
    refine ⟨fun ho => ?_, fun hu => (hp.due hu).imp_right (step_handler rfl hs).trans, hp.ran_cons hs rfl rfl⟩
    obtain ⟨hpc, -⟩ := guard_eq_some.mp hs
    have hactive := (hp.owed ho).2.1
    rw [hpc] at hactive
    cases hactive

/-! ## Runs -/

section Run

variable {h : List PumpAct} {p : Pump}

theorem placed (hr : Run Pump.step init h p) : p.Placed :=
  hr.inv (I := fun _ p => p.Placed) ⟨rfl, by simp [init, WateringPc.active], by simp [init]⟩
    fun _ _ _ _ _ hi _ hs => hi.step hs

theorem timed (hr : Run Pump.step init h p) : Timed h p :=
  hr.inv ⟨rfl, fun t ht => by cases ht⟩ fun _ _ _ _ _ hi _ hs => hi.step hs

theorem asked (hr : Run Pump.step init h p) : Asked h p :=
  hr.inv (fun hf => by cases hf) fun _ _ _ _ _ hi _ hs => hi.step hs

theorem credit (hr : Run Pump.step init h p) : Credit h p :=
  hr.inv (by simp [Credit, init]) fun _ _ _ _ hr hi _ hs => hi.step (placed hr) hs

theorem reported (hr : Run Pump.step init h p) : Reported (h.any PumpAct.isOn) (since PumpAct.isOn h) p :=
  hr.inv (I := fun h p => Reported (h.any PumpAct.isOn) (since PumpAct.isOn h) p)
    ⟨fun _ => rfl, by simp, by simp [init], fun _ _ h => absurd h Bool.false_ne_true⟩ fun _ _ _ _ _ hi _ hs => hi.step hs

theorem owing (hr : Run Pump.step init h p) : Owing h p :=
  hr.inv (fun h => by cases h) fun _ _ _ _ _ hi _ hs => hi.step hs

theorem served (hr : RunIf Pump.step InTime init h p) : Served h p :=
  hr.inv ⟨fun h => absurd h Bool.false_ne_true, fun h => absurd h Bool.false_ne_true, by simp⟩
    fun _ _ _ _ _ hi hok hs => hi.step hok hs

/-- An activation follows a request made after the last clear. -/
theorem asked_before_on {post pre : List PumpAct} (hr : Run Pump.step init (post ++ .relayOn :: pre) p) :
    ∃ a ∈ since PumpAct.isClear pre, a.isSet = true := by
  obtain ⟨p1, p2, hr1, -, hs⟩ := hr.split
  obtain ⟨t, hpc, -⟩ := step_relayOn.mp hs
  exact asked hr1 ((placed hr1).flag (.inr (by rw [hpc]; rfl)))

theorem countP_isOn_le (hr : Run Pump.step init h p) : h.countP PumpAct.isOn ≤ h.countP PumpAct.isSet :=
  le_trans (Nat.le_add_right _ _) (credit hr)

/-- The pump runs for the time of the newest request before the peek. -/
theorem sleep_eq_lastWater {post mid pre : List PumpAct} {t : BitVec 32}
    (hr : Run Pump.step init (post ++ .sleep t :: (mid ++ .peek :: pre)) p) (hm : .peek ∉ mid) : t = lastWater pre := by
  obtain ⟨p1, p2, hr1, -, hs⟩ := hr.split
  obtain ⟨hpc, -⟩ := step_sleep.mp hs
  have hmid : ∀ a ∈ mid, a.isPeek = false := by
    intro a ha
    cases a with
    | peek => exact absurd ha hm
    | _ => rfl
  have := (timed hr1).time t (by rw [hpc]; rfl)
  rwa [before_append hmid rfl] at this

theorem lastWater_append (m : List PumpAct) (h : List PumpAct) :
    lastWater (m ++ h) = lastWater h ∨ .overwrite (lastWater (m ++ h)) ∈ m := by
  induction m with
  | nil => exact .inl rfl
  | cons a m ih =>
    cases a with
    | overwrite v => exact .inr List.mem_cons_self
    | _ => exact ih.imp_right (List.mem_cons_of_mem _)

theorem lastWater_skip {m h : List PumpAct} (hm : ∀ a ∈ m, a.ofHandler = false) : lastWater (m ++ h) = lastWater h := by
  rcases lastWater_append m h with heq | hmem
  · exact heq
  · cases hm _ hmem

/-- A handler sets the flag right after its own overwrite. -/
theorem overwrite_before_set {post pre : List PumpAct} (hr : Run Pump.step init (post ++ .commandSet :: pre) p) :
    ∃ v mid pre', pre = mid ++ .overwrite v :: pre' ∧ ∀ a ∈ mid, a.ofHandler = false := by
  obtain ⟨p1, p2, hr1, -, hs⟩ := hr.split
  exact owing hr1 (step_commandSet.mp hs).1

/-- An activation after a handler's set runs for the time of that handler, or for a newer one. -/
theorem sleep_after_set {post mid mid2 pre : List PumpAct} {t : BitVec 32}
    (hr : Run Pump.step init (post ++ .sleep t :: (mid ++ .peek :: (mid2 ++ .commandSet :: pre))) p)
    (hm : .peek ∉ mid) : ∃ v pre1 pre2, pre = pre1 ++ .overwrite v :: pre2 ∧ (∀ a ∈ pre1, a.ofHandler = false) ∧
      (t = v ∨ .overwrite t ∈ mid2) := by
  have ht := sleep_eq_lastWater hr hm
  have hr' : Run Pump.step init ((post ++ .sleep t :: (mid ++ .peek :: mid2)) ++ .commandSet :: pre) p := by
    simpa using hr
  obtain ⟨v, pre1, pre2, rfl, hpre1⟩ := overwrite_before_set hr'
  refine ⟨v, pre1, pre2, rfl, hpre1, ?_⟩
  have hv : lastWater (.commandSet :: (pre1 ++ .overwrite v :: pre2)) = v := by
    show lastWater (pre1 ++ .overwrite v :: pre2) = v
    rw [lastWater_skip hpre1]
    rfl
  rcases lastWater_append mid2 (.commandSet :: (pre1 ++ .overwrite v :: pre2)) with h | h
  · exact .inl (by rw [ht, h, hv])
  · exact .inr (by rwa [← ht] at h)

/-- Between two activations there is one report, after the relay went off. -/
theorem reportedOnce_between {post mid pre : List PumpAct}
    (hr : Run Pump.step init (post ++ .relayOn :: (mid ++ .relayOn :: pre)) p) (hm : .relayOn ∉ mid) :
    ReportedOnce mid := by
  obtain ⟨p1, p2, hr1, -, hs⟩ := hr.split
  obtain ⟨t, hpc, -⟩ := step_relayOn.mp hs
  have hmid : ∀ a ∈ mid, a.isOn = false := by
    intro a ha
    cases a with
    | relayOn => exact absurd ha hm
    | _ => rfl
  have hrep := reported hr1
  rw [since_append_cons hmid rfl] at hrep
  refine hrep.once (by rw [hpc]; rfl) (by rw [hpc]; simp) ?_
  rw [List.any_append, List.any_cons]
  simp [PumpAct.isOn]

/-- An activation whose peek is among the calls too. -/
def Activated (post : List PumpAct) : Prop := ∃ p1 p2 p3, post = p3 ++ .relayOn :: (p2 ++ .peek :: p1) ∧ .peek ∉ p2

/-- **No request is lost** where every handler sets the flag in time: when the task waits, each request whose handler
has returned was followed by an activation that peeked after it. -/
theorem request_served {post pre : List PumpAct} {v : BitVec 32}
    (hr : RunIf Pump.step InTime init (post ++ .overwrite v :: pre) p) (hb : p.pc = .blocked)
    (hc : .recvReturn ∈ post) : Activated post := by
  by_cases hpeek : ∃ a ∈ post, a.isPeek = true
  · -- the newest peek is newer than the request, and the task has gone on from it
    obtain ⟨a, ha, heq⟩ := eq_since_append hpeek
    have hpk : a = .peek := by
      cases a with
      | peek => rfl
      | _ => cases ha
    subst hpk
    have hmid : ∀ a ∈ since PumpAct.isPeek post, a.isPeek = false := fun a => not_mem_since
    have hran := (served hr).ran (by rw [hb]; simp) ⟨.peek, by rw [heq]; simp, rfl⟩
    rw [heq, List.append_assoc, List.cons_append, since_append_cons hmid rfl] at hran
    obtain ⟨p3, p2, hsplit⟩ := List.append_of_mem hran
    refine ⟨before PumpAct.isPeek post, p2, p3, ?_, fun h => ?_⟩
    · calc post = since PumpAct.isPeek post ++ .peek :: before PumpAct.isPeek post := heq
        _ = (p3 ++ .relayOn :: p2) ++ .peek :: before PumpAct.isPeek post := by rw [← hsplit]
        _ = p3 ++ .relayOn :: (p2 ++ .peek :: before PumpAct.isPeek post) := by simp
    · have := hmid .peek (by rw [hsplit]; simp [h])
      cases this
  · -- no peek since: the handler has set the flag, and the task cannot be waiting
    have hno : ∀ a ∈ post, a.isPeek = false := fun a ha => Bool.eq_false_iff.mpr fun h => hpeek ⟨a, ha, h⟩
    obtain ⟨q1, q2, rfl⟩ := List.append_of_mem hc
    rw [List.append_assoc, List.cons_append] at hr
    obtain ⟨p1, p2, hr1, -, hs⟩ := hr.split
    have hidle := (step_recvReturn.mp hs).1
    have hunp : unpeeked (q2 ++ .overwrite v :: pre) = true :=
      unpeeked_of_mem fun a ha => hno a (List.mem_append_right _ (List.mem_cons_of_mem _ ha))
    have howed : owed (q2 ++ .overwrite v :: pre) = true := by
      rcases (served hr1).due hunp with h | h
      · exact h
      · rw [hidle] at h
        cases h
    have hstill : owed (q1 ++ .recvReturn :: (q2 ++ .overwrite v :: pre)) = true :=
      owed_append (fun a ha => hno a (List.mem_append_left _ ha)) howed
    exact absurd hb ((served hr).owed hstill).2.2

end Run

end Pump

end Thronix
