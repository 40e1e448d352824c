import Thronix.Station

/-!
# Thronix.Thresholds — the pair of watering thresholds

One slot holds both thresholds.  A message that carries one of them, or both, overwrites the slot once for each, from a
local pair that is not initialised; `ConnectWiFI` peeks the slot in between.

* `Carried`: what a message asks for, and the local pair its handler writes from.  `carried` reads it off a message.
* `Slot`: the slot alone, with the writes that the running handler has still to make.
* `commanded`: the thresholds last asked for, (0, 0) at the start.
* `thresholds_kept`: in runs that meet `ThresholdsOk` every pair that is peeked is the one last commanded, a message
  counting as a whole or not at all.
-/

namespace Thronix

open Json Lib

/-! ## Messages -/

/-- A threshold in a message: the number asked for, and the `char` stored for it. -/
structure Sent where
  asked : ℤ
  byte : BitVec 8
  deriving DecidableEq, Repr

/-- The thresholds in a message, and `systemThresholds_` before the handler assigns to it. -/
structure Carried where
  temperature : Option Sent
  moisture : Option Sent
  systemThresholds : SystemThresholds
  deriving DecidableEq, Repr

/-- The pairs a handler writes. -/
def Carried.writes (c : Carried) : List SystemThresholds :=
  let th : SystemThresholds :=
    ⟨(c.temperature.map Sent.byte).getD c.systemThresholds.temperature, c.systemThresholds.moisture⟩
  (match c.temperature with
    | none => []
    | some _ => [th]) ++
  (match c.moisture with
    | none => []
    | some v => [{ th with moisture := v.byte }])

/-! ## The slot -/

/-- The calls that concern the slot. -/
inductive SlotAct
  | call (c : Carried)
  | overwrite (th : SystemThresholds)
  | peek (th : SystemThresholds)
  deriving DecidableEq, Repr

structure Slot where
  thresholdsQueue : Queue1 SystemThresholds
  pending : List SystemThresholds
  deriving DecidableEq, Repr

namespace Slot

def init : Slot := ⟨.empty, []⟩

/-- The pair a peek finds. -/
def peeked (q : Slot) : SystemThresholds := q.thresholdsQueue.xQueuePeek noThresholds

def step (q : Slot) : SlotAct → Option Slot
  | .call c => if q.pending = [] then some { q with pending := c.writes } else none
  | .overwrite th =>
    match q.pending with
    | th' :: rest => if th' = th then some ⟨q.thresholdsQueue.xQueueOverwrite th, rest⟩ else none
    | [] => none
  | .peek th => if q.peeked = th then some q else none

theorem step_call {q q' : Slot} {c : Carried} :
    q.step (.call c) = some q' ↔ q.pending = [] ∧ q' = { q with pending := c.writes } :=
  guard_eq_some

theorem step_overwrite {q q' : Slot} {th : SystemThresholds} : q.step (.overwrite th) = some q' ↔
    ∃ rest, q.pending = th :: rest ∧ q' = ⟨q.thresholdsQueue.xQueueOverwrite th, rest⟩ := by
  simp only [step]
  rcases q.pending with _ | ⟨th', rest⟩
  · simp
  · simp only [guard_eq_some, List.cons.injEq]
    constructor
    · rintro ⟨rfl, rfl⟩
      exact ⟨rest, ⟨rfl, rfl⟩, rfl⟩
    · rintro ⟨rest', ⟨rfl, rfl⟩, rfl⟩
      exact ⟨rfl, rfl⟩

theorem step_peek {q q' : Slot} {th : SystemThresholds} :
    q.step (.peek th) = some q' ↔ q.peeked = th ∧ q' = q :=
  guard_eq_some

end Slot

/-! ## What was commanded -/

def SlotAct.isCall : SlotAct → Bool
  | .call _ => true
  | _ => false

/-- The thresholds last asked for. -/
def commanded : List SlotAct → ℤ × ℤ
  | [] => (0, 0)
  | .call c :: h =>
    ((c.temperature.map Sent.asked).getD (commanded h).1, (c.moisture.map Sent.asked).getD (commanded h).2)
  | _ :: h => commanded h

/-- The thresholds asked for before the newest message. -/
def commandedBefore (h : List SlotAct) : ℤ × ℤ := commanded (before SlotAct.isCall h)

/-- The newest message. -/
def newest : List SlotAct → Option Carried
  | [] => none
  | .call c :: _ => some c
  | _ :: h => newest h

/-- The writes that the handler of the newest message has still to make. -/
def pendingWrites : List SlotAct → List SystemThresholds
  | [] => []
  | .call c :: _ => c.writes
  | .overwrite _ :: h => (pendingWrites h).tail
  | .peek _ :: h => pendingWrites h

/-- A stored pair is the pair asked for. -/
def SystemThresholds.Is (th : SystemThresholds) (x : ℤ × ℤ) : Prop :=
  (th.temperature.toNat : ℤ) = x.1 ∧ (th.moisture.toNat : ℤ) = x.2

/-- The pair `th` found after the calls `h` is the one last commanded; the newest message may count as not there yet
while its handler still has a write to make. -/
def SeenWhole (h : List SlotAct) (th : SystemThresholds) : Prop :=
  th.Is (commanded h) ∨ (pendingWrites h ≠ [] ∧ th.Is (commandedBefore h))

/-! ## The conditions -/

/-- A threshold that fits its `char`. -/
def Sent.Fits (v : Sent) : Prop := 0 ≤ v.asked ∧ v.asked < 256

/-- A message: what it carries fits, and where it carries one threshold only, the local pair happens to hold the other
one. -/
structure Carried.Ok (x : ℤ × ℤ) (c : Carried) : Prop where
  temperature : ∀ v, c.temperature = some v → v.Fits
  moisture : ∀ v, c.moisture = some v → v.Fits
  onlyTemperature : c.temperature ≠ none → c.moisture = none → (c.systemThresholds.moisture.toNat : ℤ) = x.2
  onlyMoisture : c.moisture ≠ none → c.temperature = none → (c.systemThresholds.temperature.toNat : ℤ) = x.1

/-- A peek: not between the two writes of a message, unless what the local pair then holds happens to be the moisture
asked for, or the message repeats the temperature and the local pair holds the old moisture. -/
def PeekOk (h : List SlotAct) : Prop :=
  ∀ c t m, newest h = some c → c.temperature = some t → c.moisture = some m → (pendingWrites h).length = 1 →
    (c.systemThresholds.moisture.toNat : ℤ) = m.asked ∨
      (t.asked = (commandedBefore h).1 ∧ (c.systemThresholds.moisture.toNat : ℤ) = (commandedBefore h).2)

/-- The `char` stored is the number asked for. -/
structure Carried.Exact (c : Carried) : Prop where
  temperature : ∀ v, c.temperature = some v → (v.byte.toNat : ℤ) = v.asked
  moisture : ∀ v, c.moisture = some v → (v.byte.toNat : ℤ) = v.asked

namespace Slot

def Admitted (h : List SlotAct) (_q : Slot) : SlotAct → Prop
  | .call c => c.Ok (commanded h) ∧ c.Exact
  | .overwrite _ => True
  | .peek _ => PeekOk h

/-! ## Runs of the slot -/

/-- The pair a message leaves is the one commanded with it. -/
theorem getLast_writes_is {h : List SlotAct} {c : Carried} (hok : c.Ok (commanded h)) (hex : c.Exact)
    (hw : c.writes ≠ []) : ∃ th, c.writes.getLast? = some th ∧ th.Is (commanded (.call c :: h)) := by
  obtain ⟨hT, hM⟩ := hex
  rcases c with ⟨_ | t, _ | m, loc⟩
  · exact absurd rfl hw
  · exact ⟨⟨loc.temperature, m.byte⟩, rfl, hok.onlyMoisture (by simp) rfl, hM m rfl⟩
  · exact ⟨⟨t.byte, loc.moisture⟩, rfl, hT t rfl, hok.onlyTemperature (by simp) rfl⟩
  · exact ⟨⟨t.byte, m.byte⟩, rfl, hT t rfl, hM m rfl⟩

theorem commanded_of_newest {h : List SlotAct} {c : Carried} (hc : newest h = some c) :
    commanded h = ((c.temperature.map Sent.asked).getD (commandedBefore h).1,
      (c.moisture.map Sent.asked).getD (commandedBefore h).2) := by
  induction h with
  | nil => cases hc
  | cons a h ih =>
    cases a with
    | call c' =>
      obtain rfl := Option.some.inj hc
      rw [commandedBefore, before_cons_of_pos rfl]
      rfl
    | _ =>
      rw [commandedBefore, before_cons_of_neg rfl]
      exact ih hc

/-- The slot between two writes of a message. -/
structure Midway (c : Carried) (q : Slot) : Prop where
  both : ∃ t m, c.temperature = some t ∧ c.moisture = some m ∧ q.pending = [⟨t.byte, m.byte⟩] ∧
    q.peeked = ⟨t.byte, c.systemThresholds.moisture⟩

/-- The slot while a handler has writes to make: it has made none, or one of two. -/
structure Running (h : List SlotAct) (q : Slot) (c : Carried) : Prop where
  newest : newest h = some c
  last : ∃ th, q.pending.getLast? = some th ∧ th.Is (commanded h)
  place : (q.pending = c.writes ∧ q.peeked.Is (commandedBefore h)) ∨ Midway c q

structure Inv (h : List SlotAct) (q : Slot) : Prop where
  pending : q.pending = pendingWrites h
  settled : q.pending = [] → q.peeked.Is (commanded h)
  running : q.pending ≠ [] → ∃ c, Running h q c

theorem Inv.step {h : List SlotAct} {q q' : Slot} {a : SlotAct} (hq : Inv h q) (hok : Admitted h q a)
    (hs : q.step a = some q') : Inv (a :: h) q' := by
  cases a with
  | call c =>
    obtain ⟨hp, rfl⟩ := step_call.mp hs
    have hwas := hq.settled hp
    refine ⟨rfl, fun hw => ?_, fun hw => ⟨c, rfl, getLast_writes_is hok.1 hok.2 hw, .inl ⟨rfl, ?_⟩⟩⟩
    · -- a message without thresholds
      have hnone : c.temperature = none ∧ c.moisture = none := by
        rcases c with ⟨_ | t, _ | m, loc⟩
        · exact ⟨rfl, rfl⟩
        all_goals cases hw
      rw [commanded, hnone.1, hnone.2]
      exact hwas
    · rw [commandedBefore, before_cons_of_pos rfl]
      exact hwas
  | overwrite th =>
    obtain ⟨rest, hp, rfl⟩ := step_overwrite.mp hs
    obtain ⟨c, hrun⟩ := hq.running (by rw [hp]; simp)
    obtain ⟨last, hlast, his⟩ := hrun.last
    rw [hp] at hlast
    refine ⟨?_, fun hrest => ?_, fun hrest => ⟨c, hrun.newest, ?_, .inr ?_⟩⟩
    · rw [pendingWrites, ← hq.pending, hp]
      rfl
    · -- the last write
      obtain rfl : rest = [] := hrest
      obtain rfl := Option.some.inj hlast
      exact his
    · rcases List.exists_cons_of_ne_nil hrest with ⟨th', rest', h'⟩
      rw [show rest = th' :: rest' from h'] at hlast ⊢
      exact ⟨last, by rwa [List.getLast?_cons_cons] at hlast, his⟩
    · -- the first of two writes
      rcases hrun.place with ⟨hall, -⟩ | ⟨t, m, -, -, hone, -⟩
      · rw [hp] at hall
        rcases c with ⟨_ | t, _ | m, loc⟩
        · cases hall
        · exact absurd (List.cons.inj hall).2 hrest
        · exact absurd (List.cons.inj hall).2 hrest
        · obtain ⟨rfl, rfl⟩ := List.cons.inj hall
          exact ⟨t, m, rfl, rfl, rfl, rfl⟩
      · rw [hp] at hone
        exact absurd (List.cons.inj hone).2 hrest
  | peek th =>
    obtain ⟨-, rfl⟩ := step_peek.mp hs
    refine ⟨hq.pending, hq.settled, fun hne => ?_⟩
    obtain ⟨c, hrun⟩ := hq.running hne
    exact ⟨c, hrun.newest, hrun.last, hrun.place⟩

theorem inv {h : List SlotAct} {q : Slot} (hr : RunIf step Admitted init h q) : Inv h q :=
  hr.inv ⟨rfl, fun _ => ⟨rfl, rfl⟩, fun hne => absurd rfl hne⟩ fun _ _ _ _ _ hi hok hs => hi.step hok hs

/-- Every admitted peek sees messages whole. -/
theorem seenWhole {h : List SlotAct} {q : Slot} (hq : Inv h q) (hok : PeekOk h) : SeenWhole h q.peeked := by
  by_cases hp : q.pending = []
  · exact .inl (hq.settled hp)
  obtain ⟨c, hrun⟩ := hq.running hp
  rcases hrun.place with ⟨-, hold⟩ | ⟨t, m, ht, hm, hone, hpair⟩
  · exact .inr ⟨by rwa [← hq.pending], hold⟩
  -- the pair of the last write is known to be the one commanded
  obtain ⟨last, hlast, his⟩ := hrun.last
  rw [hone] at hlast
  obtain rfl : last = ⟨t.byte, m.byte⟩ := (Option.some.inj hlast).symm
  have hcmd := commanded_of_newest hrun.newest
  rw [ht, hm] at hcmd
  rw [hpair]
  rcases hok c t m hrun.newest ht hm (by rw [← hq.pending, hone]; rfl) with hnew | ⟨hT, hM⟩
  · refine .inl ⟨his.1, ?_⟩
    rw [hcmd]
    exact hnew
  · refine .inr ⟨by rwa [← hq.pending], ?_, hM⟩
    have htT := his.1
    rw [hcmd] at htT
    rw [← hT]
    exact htT

end Slot

/-! ## The thresholds in a message -/

def Context.sent (cx : Context) (v : ℤ) : Sent := ⟨v, (cx.int v).setWidth 8⟩

theorem Context.sent_exact (cx : Context) {v : ℤ} (hv : (cx.sent v).Fits) :
    ((cx.sent v).byte.toNat : ℤ) = (cx.sent v).asked := by
  have h0 : 0 ≤ v := hv.1
  have h256 : v < 256 := hv.2
  have hint : cx.int v = BitVec.ofInt 32 v := if_pos ⟨by omega, by omega⟩
  show (((cx.int v).setWidth 8).toNat : ℤ) = v
  rw [hint, BitVec.toNat_setWidth, BitVec.toNat_ofInt]
  omega

/-- What `%d` reads under the two keys of an object. -/
def Context.carriedBy (cx : Context) (tail s : Bytes) (th : SystemThresholds) : Carried :=
  ⟨(ints temperaturePath tail s).getLast?.map cx.sent, (ints moisturePath tail s).getLast?.map cx.sent, th⟩

/-- The thresholds in a message on one of the two topics. -/
def carried (cx : Context) (topstr payload : Bytes) : Carried :=
  if topstr = topicLosant then
    match (strs payloadPath payload).getLast? with
    | none => ⟨none, none, cx.losant.thresholds⟩
    | some aux =>
      cx.carriedBy ((auxMemory cx aux).drop payload.length) (auxText cx aux payload.length) cx.losant.thresholds
  else cx.carriedBy cx.tail payload cx.pc.thresholds

def StoreOp.threshold : StoreOp → Option SystemThresholds
  | .overwriteThresholds th => some th
  | _ => none

theorem filterMap_threshold_freqOps (f : Option (BitVec 32)) : (freqOps f).filterMap StoreOp.threshold = [] := by
  rcases f with _ | v <;> rfl

theorem filterMap_threshold_switchOps (b : Option Bool) : (switchOps b).filterMap StoreOp.threshold = [] := by
  rcases b with _ | _ | _ <;> rfl

theorem filterMap_threshold_waterOps (w : Option (BitVec 32)) : (waterOps w).filterMap StoreOp.threshold = [] := by
  rcases w with _ | v <;> rfl

theorem filterMap_threshold_thresholdOps (cx : Context) (tail s : Bytes) (th : SystemThresholds) :
    (thresholdOps th (lastInt cx temperaturePath tail s) (lastInt cx moisturePath tail s)).filterMap StoreOp.threshold =
      (cx.carriedBy tail s th).writes := by
  unfold lastInt Context.carriedBy
  rcases (ints temperaturePath tail s).getLast? with _ | t <;> rcases (ints moisturePath tail s).getLast? with _ | m <;>
    rfl

/-- The pairs the handler writes are those of the message. -/
theorem threshold_mqttRecv {cx : Context} {topstr payload : Bytes} {ops : List StoreOp}
    (htop : topstr = topicPc ∨ topstr = topicLosant) (h : mqttRecv cx topstr payload = some ops) :
    ops.filterMap StoreOp.threshold = (carried cx topstr payload).writes := by
  rcases htop with rfl | rfl
  · have hne : topicPc ≠ topicLosant := by decide
    rw [mqttRecv_topicPc] at h
    obtain rfl := pcBranch_some cx h
    rw [carried, if_neg hne, pcOps, List.filterMap_append, List.filterMap_append, List.filterMap_append,
      filterMap_threshold_freqOps, filterMap_threshold_switchOps, filterMap_threshold_waterOps,
      filterMap_threshold_thresholdOps]
    rfl
  · rw [mqttRecv_topicLosant] at h
    rcases losantBranch_some cx h with ⟨haux, rfl⟩ | ⟨aux, haux, rfl⟩
    · rw [carried, if_pos rfl, haux]
      rfl
    · rw [carried, if_pos rfl, haux, losantOps, List.filterMap_append, List.filterMap_append, List.filterMap_append,
        filterMap_threshold_freqOps, filterMap_threshold_switchOps, filterMap_threshold_waterOps,
        filterMap_threshold_thresholdOps]
      rfl

/-! ## The station as a slot -/

def Station.slot (s : Station) : Slot :=
  ⟨s.stores.thresholdsQueue, (s.recv.getD []).filterMap StoreOp.threshold⟩

def Event.slot : Event → Option SlotAct
  | .recvCall cx topstr payload => some (.call (carried cx topstr payload))
  | .recvOp (.overwriteThresholds th) => some (.overwrite th)
  | .peekThresholds th => some (.peek th)
  | _ => none

/-- The calls of a run that concern the thresholds, newest first. -/
def slotTrace (h : List Event) : List SlotAct := h.filterMap Event.slot

/-- A message arrives on one of the two topics. -/
def OnTopics (_h : List Event) (_s : Station) : Event → Prop
  | .recvCall _ topstr _ => topstr = topicPc ∨ topstr = topicLosant
  | _ => True

/-- A step of the station is invisible to the slot, or one of its steps. -/
theorem Station.step_slot {h : List Event} {s s' : Station} {e : Event} (hok : OnTopics h s e)
    (hs : s.step e = some s') :
    (e.slot = none ∧ s'.slot = s.slot) ∨ ∃ a, e.slot = some a ∧ s.slot.step a = some s'.slot := by
  cases e with
  | recvCall cx topstr payload =>
    obtain ⟨hrecv, ops, hops, rfl⟩ := step_recvCall.mp hs
    refine .inr ⟨_, rfl, Slot.step_call.mpr ⟨by rw [slot, hrecv]; rfl, ?_⟩⟩
    rw [← threshold_mqttRecv hok hops]
    rfl
  | recvOp op =>
    obtain ⟨rest, hrecv, rfl⟩ := step_recvOp.mp hs
    cases op with
    | overwriteThresholds th =>
      exact .inr ⟨_, rfl, Slot.step_overwrite.mpr ⟨_, by rw [slot, hrecv]; rfl, rfl⟩⟩
    | _ => exact .inl ⟨rfl, by rw [slot, slot, hrecv]; rfl⟩
  | recvReturn =>
    obtain ⟨hrecv, rfl⟩ := step_recvReturn.mp hs
    exact .inl ⟨rfl, by rw [slot, slot, hrecv]; rfl⟩
  | peekThresholds th =>
    obtain ⟨d, -, hth, rfl⟩ := step_peekThresholds.mp hs
    exact .inr ⟨_, rfl, Slot.step_peek.mpr ⟨hth, rfl⟩⟩
  | msgQRead =>
    obtain ⟨m, q, -, -, rfl⟩ := step_msgQRead.mp hs
    exact .inl ⟨rfl, by cases m <;> rfl⟩
  | connectSetBits =>
    obtain ⟨d, -, rfl⟩ := step_connectSetBits.mp hs
    exact .inl ⟨rfl, rfl⟩
  | _ => exact .inl ⟨rfl, by grind [slot]⟩

/-- A message on one of the two topics that meets `Carried.Ok`; a peek that meets `PeekOk`. -/
def ThresholdsOk (h : List Event) (_s : Station) : Event → Prop
  | .recvCall cx topstr payload =>
    (topstr = topicPc ∨ topstr = topicLosant) ∧ (carried cx topstr payload).Ok (commanded (slotTrace h))
  | .peekThresholds _ => PeekOk (slotTrace h)
  | _ => True

theorem ThresholdsOk.onTopics {h : List Event} {s : Station} {e : Event} (hok : ThresholdsOk h s e) :
    OnTopics h s e := by
  cases e with
  | recvCall => exact hok.1
  | _ => trivial

theorem Carried.Ok.exact {x : ℤ × ℤ} {cx : Context} {topstr payload : Bytes}
    (hok : (carried cx topstr payload).Ok x) : (carried cx topstr payload).Exact := by
  have hsent : ∀ v, (carried cx topstr payload).temperature = some v ∨ (carried cx topstr payload).moisture = some v →
      ∃ n, v = cx.sent n := by
    intro v hv
    unfold carried at hv
    split_ifs at hv
    · rcases haux : (strs payloadPath payload).getLast? with _ | aux
      · rw [haux] at hv
        rcases hv with hv | hv <;> cases hv
      · rw [haux] at hv
        rcases hv with hv | hv
        all_goals
          obtain ⟨n, -, rfl⟩ := Option.map_eq_some_iff.mp hv
          exact ⟨n, rfl⟩
    · rcases hv with hv | hv
      all_goals
        obtain ⟨n, -, rfl⟩ := Option.map_eq_some_iff.mp hv
        exact ⟨n, rfl⟩
  refine ⟨fun v hv => ?_, fun v hv => ?_⟩
  · obtain ⟨n, rfl⟩ := hsent v (.inl hv)
    exact cx.sent_exact (hok.temperature _ hv)
  · obtain ⟨n, rfl⟩ := hsent v (.inr hv)
    exact cx.sent_exact (hok.moisture _ hv)

theorem ThresholdsOk.admitted {h : List Event} {s : Station} {e : Event} {a : SlotAct} (hok : ThresholdsOk h s e)
    (ha : e.slot = some a) : Slot.Admitted (slotTrace h) s.slot a := by
  cases e with
  | recvCall cx topstr payload =>
    obtain rfl := Option.some.inj ha
    exact ⟨hok.2, hok.2.exact⟩
  | peekThresholds th =>
    obtain rfl := Option.some.inj ha
    exact hok
  | recvOp op =>
    cases op with
    | overwriteThresholds th =>
      obtain rfl := Option.some.inj ha
      trivial
    | _ => cases ha
  | _ => cases ha

/-- Every run of the station that meets the conditions is such a run of the slot. -/
theorem run_slot {h : List Event} {s : Station} (hr : RunIf Station.step ThresholdsOk Station.init h s) :
    RunIf Slot.step Slot.Admitted Slot.init (slotTrace h) s.slot :=
  hr.project fun h s e _ _ (hok : ThresholdsOk h s e) hs =>
    (Station.step_slot hok.onTopics hs).imp_right fun ⟨a, ha, hstep⟩ => ⟨a, ha, hok.admitted ha, hstep⟩

/-! ## Field-wise and atomic updates -/

/-- What holds of the thresholds in the calls made and the state they lead to. -/
structure ThresholdsKept (h : List Event) (s : Station) : Prop where
  /-- A peek finds the pair last commanded, the newest message as a whole or not at all. -/
  seen : ∀ post pre th, slotTrace h = post ++ .peek th :: pre → SeenWhole pre th
  /-- So does the slot hold it when no handler runs. -/
  settled : s.recv = none → s.slot.peeked.Is (commanded (slotTrace h))
  /-- A message without a moisture threshold leaves the moisture threshold as it was. -/
  moistureKept : ∀ post pre c, slotTrace h = post ++ .call c :: pre → (∀ a ∈ post, a.isCall = false) →
    s.recv = none → c.moisture = none → (s.slot.peeked.moisture.toNat : ℤ) = (commanded pre).2
  temperatureKept : ∀ post pre c, slotTrace h = post ++ .call c :: pre → (∀ a ∈ post, a.isCall = false) →
    s.recv = none → c.temperature = none → (s.slot.peeked.temperature.toNat : ℤ) = (commanded pre).1

theorem commanded_append {post pre : List SlotAct} (hp : ∀ a ∈ post, a.isCall = false) :
    commanded (post ++ pre) = commanded pre := by
  induction post with
  | nil => rfl
  | cons a post ih =>
    have hrest := ih fun b hb => hp b (List.mem_cons_of_mem a hb)
    have ha := hp a List.mem_cons_self
    cases a with
    | call c => cases ha
    | _ => exact hrest

/-- **The thresholds** in runs that meet the conditions. -/
theorem thresholds_kept {h : List Event} {s : Station} (hr : RunIf Station.step ThresholdsOk Station.init h s) :
    ThresholdsKept h s := by
  have hq := run_slot hr
  have hsettled : s.recv = none → s.slot.peeked.Is (commanded (slotTrace h)) := fun hrecv =>
    (Slot.inv hq).settled (by rw [Station.slot, hrecv]; rfl)
  refine ⟨fun post pre th ht => ?_, hsettled, fun post pre c ht hpost hrecv hc => ?_,
    fun post pre c ht hpost hrecv hc => ?_⟩
  · rw [ht] at hq
    obtain ⟨q1, q2, hr1, hok, hs⟩ := hq.split
    rw [← (Slot.step_peek.mp hs).1]
    exact Slot.seenWhole (Slot.inv hr1) hok
  · rw [(hsettled hrecv).2, ht, commanded_append hpost, commanded, hc]
    rfl
  · rw [(hsettled hrecv).1, ht, commanded_append hpost, commanded, hc]
    rfl

/-- `ThresholdsOk` away from peeks between two writes, decided. -/
def thresholdsOk (h : List Event) (_s : Station) : Event → Bool
  | .recvCall cx topstr payload =>
    let c := carried cx topstr payload
    let x := commanded (slotTrace h)
    (topstr == topicPc || topstr == topicLosant) &&
      c.temperature.all (fun v => decide (0 ≤ v.asked ∧ v.asked < 256)) &&
      c.moisture.all (fun v => decide (0 ≤ v.asked ∧ v.asked < 256)) &&
      (c.temperature.isNone || c.moisture.isSome || (c.systemThresholds.moisture.toNat : ℤ) == x.2) &&
      (c.moisture.isNone || c.temperature.isSome || (c.systemThresholds.temperature.toNat : ℤ) == x.1)
  | .peekThresholds _ => (pendingWrites (slotTrace h)).length != 1
  | _ => true

theorem thresholdsOk_sound (h : List Event) (s : Station) (e : Event) (hok : thresholdsOk h s e = true) :
    ThresholdsOk h s e := by
  cases e with
  | recvCall cx topstr payload =>
    simp only [thresholdsOk, Bool.and_eq_true, Bool.or_eq_true, beq_iff_eq, Option.all_eq_true, decide_eq_true_eq] at hok
    obtain ⟨⟨⟨⟨htop, hT⟩, hM⟩, honlyT⟩, honlyM⟩ := hok
    refine ⟨htop, hT, hM, fun hne hnone => ?_, fun hne hnone => ?_⟩
    · simpa [hnone, hne] using honlyT
    · simpa [hnone, hne] using honlyM
  | peekThresholds th =>
    intro c t m _ _ _ hlen
    rw [thresholdsOk, hlen] at hok
    cases hok
  | _ => trivial

/-- The thresholds' calls, and what the slot holds. -/
def thresholdsWatched (r : List Event × Station) : List SlotAct × SystemThresholds :=
  (slotTrace r.1, r.2.slot.peeked)

/-- A report that peeks `th`, once a message has switched the measurements on. -/
def reportPeeking (th : SystemThresholds) : List Event :=
  [.measureWait, .measureReport, .msgQRead, .acquire ⟨⟨0, 0⟩, 0⟩ hottest driest, .peekThresholds th]

/-- Both thresholds in one message. -/
def bothThresholds : List Event :=
  [.recvCall .blank topicPc
     (str "\x7b\"measurementSwitch\": 1, \"temperatureThreshold\": 20, \"moistureThreshold\": 50\x7d"),
   .recvOp .setMeasurement, .recvOp (.overwriteThresholds ⟨20, 0⟩), .recvOp (.overwriteThresholds ⟨20, 50⟩), .recvReturn]

theorem thresholds_kept_both : ∃ h s, RunIf Station.step ThresholdsOk Station.init h s ∧
    slotTrace h = [.peek ⟨20, 50⟩, .overwrite ⟨20, 50⟩, .overwrite ⟨20, 0⟩,
      .call ⟨some ⟨20, 20⟩, some ⟨50, 50⟩, ⟨0, 0⟩⟩] ∧ ThresholdsKept h s := by
  obtain ⟨h, s, hr, hw⟩ := exists_runIf Station.step Station.init (bothThresholds ++ reportPeeking ⟨20, 50⟩)
    thresholdsWatched (b := ([.peek ⟨20, 50⟩, .overwrite ⟨20, 50⟩, .overwrite ⟨20, 0⟩,
      .call ⟨some ⟨20, 20⟩, some ⟨50, 50⟩, ⟨0, 0⟩⟩], ⟨20, 50⟩)) thresholdsOk_sound (by decide +kernel)
  exact ⟨h, s, hr, congrArg Prod.fst hw, thresholds_kept hr⟩

/-- A local pair that holds 99 where nothing was stored. -/
def leftOver : Context := { Context.blank with pc := { Context.blank.pc with thresholds := ⟨0, 99⟩ } }

/-- One threshold in a message. -/
def onlyTemperature : List Event :=
  [.recvCall leftOver topicPc (str "\x7b\"measurementSwitch\": 1, \"temperatureThreshold\": 20\x7d"),
   .recvOp .setMeasurement, .recvOp (.overwriteThresholds ⟨20, 99⟩), .recvReturn]

/-- `OnTopics`, decided. -/
def onTopics (_h : List Event) (_s : Station) : Event → Bool
  | .recvCall _ topstr _ => topstr == topicPc || topstr == topicLosant
  | _ => true

theorem onTopics_sound (h : List Event) (s : Station) (e : Event) (hok : onTopics h s e = true) : OnTopics h s e := by
  cases e with
  | recvCall cx topstr payload => simpa [onTopics, OnTopics] using hok
  | _ => trivial

/-- The report after it compares with a moisture threshold that nobody asked for. -/
theorem onlyTemperature_spoils_moisture :
    ¬∀ h s, RunIf Station.step OnTopics Station.init h s → ThresholdsKept h s := by
  intro hall
  obtain ⟨h, s, hr, hw⟩ := exists_runIf Station.step Station.init (onlyTemperature ++ reportPeeking ⟨20, 99⟩)
    thresholdsWatched (b := ([.peek ⟨20, 99⟩, .overwrite ⟨20, 99⟩, .call ⟨some ⟨20, 20⟩, none, ⟨0, 99⟩⟩], ⟨20, 99⟩))
    onTopics_sound (by decide +kernel)
  rcases (hall h s hr).seen [] _ ⟨20, 99⟩ (congrArg Prod.fst hw) with ⟨-, hM⟩ | ⟨hpending, -⟩
  · exact absurd hM (by decide)
  · exact hpending rfl

end Thronix
