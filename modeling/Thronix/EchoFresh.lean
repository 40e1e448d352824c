import Thronix.EchoEnd

/-!
# Thronix.EchoFresh — the values of `readWaterLevel`

Echo edges may come at any time.  `ECHO_DONE` and `timerValue` outlive a call, and `echoInt` may write `timerValue`
between any two reads of the task.

* `Fresh t h`: `t` was captured at a falling edge that came after the last trigger pulse.
* `ReadOk`: the conditions on the bits and the interrupt when a call begins, and on a capture between two reads.
* `readWaterLevel_fresh`: in runs that meet them each value returned is the percentage of a fresh capture, and the
  average of five published by `WATER_REPORT` is in range.
-/

namespace Thronix

open Lib

namespace Echo

/-! ## Fresh captures -/

/-- The newest edge since the last trigger pulse is a falling one. -/
def fallNewest : List EchoEvent → Bool
  | [] => false
  | .triggerEnd :: _ => false
  | .rise :: _ => false
  | .fall :: _ => true
  | _ :: h => fallNewest h

/-- `t` was captured since the last trigger pulse, at a falling edge that came since. -/
inductive Fresh (t : BitVec 32) : List EchoEvent → Prop
  | capture {h : List EchoEvent} (hf : fallNewest h = true) : Fresh t (.isrCapture t :: h)
  | later {h : List EchoEvent} {e : EchoEvent} (he : e ≠ .triggerEnd) (hf : Fresh t h) : Fresh t (e :: h)

/-- The value the call should return for the time `t`. -/
def level (t : BitVec 32) : ℚ := ((min (max t.toNat 3000) 48500 : ℕ) - 3000 : ℚ) * 100 / 45500

/-- What the comparisons make of `timerValue` when nothing writes it in between. -/
def clamp (t : BitVec 32) : BitVec 32 := if t < 3000#32 then 3000#32 else if 48500#32 < t then 48500#32 else t

theorem percentage_of_ge {x : BitVec 32} (hx : 3000 ≤ x.toNat) : percentage x = ((x.toNat : ℚ) - 3000) * 100 / 45500 := by
  have hsub : (x - 3000#32).toNat = x.toNat - 3000 := by
    rw [BitVec.toNat_sub_of_le (by rw [BitVec.le_def]; exact hx)]
    rfl
  rw [percentage, hsub, Nat.cast_sub hx]
  norm_num

theorem percentage_clamp (t : BitVec 32) : percentage (clamp t) = level t := by
  have hlow : (3000#32).toNat = 3000 := rfl
  have hhigh : (48500#32).toNat = 48500 := rfl
  unfold clamp level
  by_cases h1 : t < 3000#32
  · have ht : t.toNat < 3000 := by rwa [BitVec.lt_def, hlow] at h1
    rw [if_pos h1, percentage_of_ge (by omega), hlow, max_eq_right (by omega), min_eq_left (by omega)]
  · have ht : 3000 ≤ t.toNat := by
      rw [BitVec.lt_def, hlow] at h1
      omega
    rw [if_neg h1, max_eq_left ht]
    by_cases h2 : 48500#32 < t
    · have ht2 : 48500 < t.toNat := by rwa [BitVec.lt_def, hhigh] at h2
      rw [if_pos h2, percentage_of_ge (by omega), hhigh, min_eq_right (by omega)]
    · have ht2 : t.toNat ≤ 48500 := by
        rw [BitVec.lt_def, hhigh] at h2
        omega
      rw [if_neg h2, percentage_of_ge ht, min_eq_left ht2]

theorem level_bounds (t : BitVec 32) : 0 ≤ level t ∧ level t ≤ 100 := by
  have h1 : 3000 ≤ min (max t.toNat 3000) 48500 := by omega
  have h2 : min (max t.toNat 3000) 48500 ≤ 48500 := by omega
  unfold level
  generalize min (max t.toNat 3000) 48500 = n at h1 h2
  have h1' : (3000 : ℚ) ≤ n := by exact_mod_cast h1
  have h2' : (n : ℚ) ≤ 48500 := by exact_mod_cast h2
  constructor
  · apply div_nonneg _ (by norm_num)
    nlinarith
  · rw [div_le_iff₀ (by norm_num)]
    linarith

/-! ## The conditions -/

/-- Only the echo pin moves. -/
def EchoOnly (_h : List EchoEvent) (_s : Echo) (e : EchoEvent) : Prop := ∀ pins, e ≠ .otherPins pins

/-- A call begins with `ECHO_WAIT` clear; its trigger pulse ends with `ECHO_DONE` clear and not about to be set, and
no falling edge is left to serve that could be captured; a capture between the comparisons and the subtraction is in
the range that they have already tested. -/
def ReadOk (_h : List EchoEvent) (s : Echo) : EchoEvent → Prop
  | .getBits => s.bit .wait = false
  | .triggerEnd => s.bit .done = false ∧ .setBits .done ∉ s.commands ∧
      (s.gpioA2 = 0 → s.intFlag = true → s.bit .wait = false ∧ .setBits .wait ∉ s.commands)
  | .isrCapture t => (s.reader = .cmpHigh → 3000 ≤ t.toNat) ∧
      (s.reader = .compute → 3000 ≤ t.toNat ∧ t.toNat ≤ 48500)
  | .otherPins _ => False
  | _ => True

/-! ## What holds in these runs -/

/-- An edge that is left to serve and could be captured is a fresh falling edge. -/
def Late (h : List EchoEvent) (s : Echo) : Prop :=
  awaiting s.reader = true → s.gpioA2 = 0 → (s.intFlag = true ∨ s.inIsr = true) →
    (s.bit .wait = true ∨ .setBits .wait ∈ s.commands) → fallNewest h = true

/-- What the reading task holds where it stands. -/
def Holds (h : List EchoEvent) (s : Echo) : ReaderPc → Prop
  | .idle => True
  | .noValue => False
  | .trigger => True
  | .triggerEnd => True
  | .wait => (s.bit .done = true ∨ .setBits .done ∈ s.commands) → Fresh s.timerValue h
  | .cmpLow => Fresh s.timerValue h
  | .setLow => ∃ t, Fresh t h ∧ t < 3000#32
  | .cmpHigh => Fresh s.timerValue h ∧ ¬s.timerValue < 3000#32
  | .setHigh => ∃ t, Fresh t h ∧ ¬t < 3000#32 ∧ 48500#32 < t
  | .compute => ∃ t, Fresh t h ∧ s.timerValue = clamp t
  | .clear v => ∃ t, Fresh t h ∧ v = level t
  | .ret v => ∃ t, Fresh t h ∧ v = level t

structure Read (h : List EchoEvent) (s : Echo) : Prop where
  pin : s.gpioA2 = 0 ∨ s.gpioA2 = 2
  late : Late h s
  holds : Holds h s s.reader

/-- A step that writes neither `timerValue` nor the task's place, and brings no `ECHO_DONE`. -/
theorem Holds.later {h : List EchoEvent} {s s' : Echo} {e : EchoEvent} {pc : ReaderPc} (hp : Holds h s pc)
    (he : e ≠ .triggerEnd) (ht : s'.timerValue = s.timerValue)
    (hd : (s'.bit .done = true ∨ .setBits .done ∈ s'.commands) → (s.bit .done = true ∨ .setBits .done ∈ s.commands)) :
    Holds (e :: h) s' pc := by
  cases pc with
  | idle | trigger | triggerEnd => trivial
  | noValue => exact hp
  | wait => exact fun hd' => ht ▸ (hp (hd hd')).later he
  | cmpLow =>
    show Fresh s'.timerValue (e :: h)
    rw [ht]
    exact Fresh.later he hp
  | setLow =>
    obtain ⟨t, hf, hlow⟩ := hp
    exact ⟨t, hf.later he, hlow⟩
  | cmpHigh => exact ⟨ht ▸ Fresh.later he hp.1, ht ▸ hp.2⟩
  | setHigh =>
    obtain ⟨t, hf, hrange⟩ := hp
    exact ⟨t, hf.later he, hrange⟩
  | compute =>
    obtain ⟨t, hf, hclamp⟩ := hp
    exact ⟨t, hf.later he, ht.trans hclamp⟩
  | clear v | ret v =>
    obtain ⟨t, hf, hv⟩ := hp
    exact ⟨t, hf.later he, hv⟩

/-- A capture of a fresh falling edge. -/
theorem Holds.capture {h : List EchoEvent} {s : Echo} {t : BitVec 32} (hp : Holds h s s.reader)
    (hf : awaiting s.reader = true → fallNewest h = true) (hok : ReadOk h s (.isrCapture t))
    (cs : List TimerCommand) :
    Holds (.isrCapture t :: h) { s with inIsr := false, timerValue := t, commands := cs } s.reader := by
  have hkeep : EchoEvent.isrCapture t ≠ .triggerEnd := by simp
  cases hr : s.reader with
  | idle | trigger | triggerEnd => trivial
  | noValue =>
    rw [hr] at hp
    exact hp
  | wait => exact fun _ => .capture (hf (by rw [hr]; rfl))
  | cmpLow => exact Fresh.capture (hf (by rw [hr]; rfl))
  | cmpHigh =>
    refine ⟨.capture (hf (by rw [hr]; rfl)), ?_⟩
    have := hok.1 hr
    rw [BitVec.lt_def]
    exact Nat.not_lt.mpr this
  | compute =>
    refine ⟨t, .capture (hf (by rw [hr]; rfl)), ?_⟩
    obtain ⟨hlow, hhigh⟩ := hok.2 hr
    rw [clamp, if_neg (by rw [BitVec.lt_def]; exact Nat.not_lt.mpr hlow),
      if_neg (by rw [BitVec.lt_def]; exact Nat.not_lt.mpr hhigh)]
  | setLow =>
    rw [hr] at hp
    obtain ⟨t', hf', hlow⟩ := hp
    exact ⟨t', hf'.later hkeep, hlow⟩
  | setHigh =>
    rw [hr] at hp
    obtain ⟨t', hf', hrange⟩ := hp
    exact ⟨t', hf'.later hkeep, hrange⟩
  | clear v | ret v =>
    rw [hr] at hp
    obtain ⟨t', hf', hv⟩ := hp
    exact ⟨t', hf'.later hkeep, hv⟩

/-- A move of the reading task. -/
theorem Read.move {h : List EchoEvent} {s : Echo} {e : EchoEvent} (hp : Read h s) (a1 : Port) (tv : BitVec 32)
    (pc : ReaderPc) (hfall : fallNewest (e :: h) = fallNewest h)
    (hawait : awaiting pc = true → awaiting s.reader = true)
    (hholds : Holds (e :: h) { s with gpioA1 := a1, timerValue := tv, reader := pc } pc) :
    Read (e :: h) { s with gpioA1 := a1, timerValue := tv, reader := pc } :=
  ⟨hp.pin, fun ha h0 hserve hmark => hfall ▸ hp.late (hawait ha) h0 hserve hmark, hholds⟩

theorem Read.step {h : List EchoEvent} {s s' : Echo} {e : EchoEvent} (hp : Read h s) (hok : ReadOk h s e)
    (hs : s.step e = some s') : Read (e :: h) s' := by
  have hholds := hp.holds
  cases e with
  | getBits =>
    obtain ⟨⟨-, hat⟩, rfl⟩ := step_getBits.mp hs
    rw [if_neg (by rw [show s.bit .wait = false from hok]; simp)]
    exact hp.move _ _ .trigger rfl (fun h => absurd h Bool.false_ne_true) trivial
  | trigger =>
    obtain ⟨⟨-, hat⟩, rfl⟩ := step_trigger.mp hs
    exact hp.move _ _ .triggerEnd rfl (fun h => absurd h Bool.false_ne_true) trivial
  | triggerEnd =>
    obtain ⟨⟨hisr, hat⟩, rfl⟩ := step_triggerEnd.mp hs
    obtain ⟨hdone, hnodone, hserved⟩ := hok
    refine ⟨hp.pin, fun _ h0 hserve hmark => ?_, fun hd => ?_⟩
    · exfalso
      have hflag : s.intFlag = true := hserve.resolve_right fun h => absurd (hisr.symm.trans h) Bool.false_ne_true
      obtain ⟨hwait, hnowait⟩ := hserved h0 hflag
      rcases hmark with h | h
      · exact absurd (hwait.symm.trans h) Bool.false_ne_true
      · exact hnowait h
    · rcases hd with h | h
      · exact absurd (hdone.symm.trans h) Bool.false_ne_true
      · exact absurd h hnodone
  | waitDone =>
    obtain ⟨⟨⟨-, hat⟩, hd⟩, rfl⟩ := step_waitDone.mp hs
    rw [hat] at hholds
    exact hp.move _ _ .cmpLow rfl (fun _ => by rw [hat]; rfl) (Fresh.later (by simp) (hholds (.inl hd)))
  | cmpLow =>
    obtain ⟨⟨-, hat⟩, rfl⟩ := step_cmpLow.mp hs
    rw [hat] at hholds
    by_cases hlow : s.timerValue < 3000#32
    · rw [if_pos hlow]
      exact hp.move _ _ .setLow rfl (fun _ => by rw [hat]; rfl) ⟨_, Fresh.later (by simp) hholds, hlow⟩
    · rw [if_neg hlow]
      exact hp.move _ _ .cmpHigh rfl (fun _ => by rw [hat]; rfl) ⟨Fresh.later (by simp) hholds, hlow⟩
  | setLow =>
    obtain ⟨⟨-, hat⟩, rfl⟩ := step_setLow.mp hs
    rw [hat] at hholds
    obtain ⟨t, hf, hlow⟩ := hholds
    refine hp.move _ _ .compute rfl (fun _ => by rw [hat]; rfl) ⟨t, hf.later (by simp), ?_⟩
    rw [clamp, if_pos hlow]
  | cmpHigh =>
    obtain ⟨⟨-, hat⟩, rfl⟩ := step_cmpHigh.mp hs
    rw [hat] at hholds
    obtain ⟨hf, hlow⟩ := hholds
    by_cases hhigh : 48500#32 < s.timerValue
    · rw [if_pos hhigh]
      exact hp.move _ _ .setHigh rfl (fun _ => by rw [hat]; rfl) ⟨_, hf.later (by simp), hlow, hhigh⟩
    · rw [if_neg hhigh]
      refine hp.move _ _ .compute rfl (fun _ => by rw [hat]; rfl) ⟨_, hf.later (by simp), ?_⟩
      rw [clamp, if_neg hlow, if_neg hhigh]
  | setHigh =>
    obtain ⟨⟨-, hat⟩, rfl⟩ := step_setHigh.mp hs
    rw [hat] at hholds
    obtain ⟨t, hf, hlow, hhigh⟩ := hholds
    refine hp.move _ _ .compute rfl (fun _ => by rw [hat]; rfl) ⟨t, hf.later (by simp), ?_⟩
    rw [clamp, if_neg hlow, if_pos hhigh]
  | compute =>
    obtain ⟨⟨-, hat⟩, rfl⟩ := step_compute.mp hs
    rw [hat] at hholds
    obtain ⟨t, hf, hclamp⟩ := hholds
    refine hp.move _ _ (.clear _) rfl (fun _ => by rw [hat]; rfl) ⟨t, hf.later (by simp), ?_⟩
    rw [hclamp, percentage_clamp]
  | clearDone =>
    obtain ⟨v, ⟨-, hat⟩, rfl⟩ := step_clearDone.mp hs
    rw [hat] at hholds
    obtain ⟨t, hf, hv⟩ := hholds
    exact ⟨hp.pin, fun h => absurd h Bool.false_ne_true, t, hf.later (by simp), hv⟩
  | ret v =>
    obtain ⟨-, rfl⟩ := step_ret.mp hs
    exact hp.move _ _ .idle rfl (fun h => absurd h Bool.false_ne_true) trivial
  | rise =>
    obtain ⟨hlow, rfl⟩ := step_rise.mp hs
    have hpin : s.gpioA2 = 0 := by
      rcases hp.pin with h | h
      · exact h
      · rw [h] at hlow
        exact absurd hlow (by decide)
    have hhigh : s.gpioA2 ||| echoPin = 2 := by rw [hpin]; decide
    refine ⟨.inr hhigh, fun _ h0 => ?_, hholds.later (by simp) rfl id⟩
    exact absurd (hhigh.symm.trans h0) (by decide)
  | fall =>
    obtain ⟨hhigh, rfl⟩ := step_fall.mp hs
    have hpin : s.gpioA2 &&& ~~~echoPin = 0 := by
      rcases hp.pin with h | h <;> rw [h] <;> decide
    exact ⟨.inl hpin, fun _ _ _ _ => rfl, hholds.later (by simp) rfl id⟩
  | otherPins pins => exact absurd hok id
  | isrEnter =>
    obtain ⟨⟨hisr, hflag⟩, rfl⟩ := step_isrEnter.mp hs
    exact ⟨hp.pin, fun ha h0 _ hmark => hp.late ha h0 (.inl hflag) hmark, hholds.later (by simp) rfl id⟩
  | isrRise =>
    obtain ⟨⟨hisr, hhigh⟩, rfl⟩ := step_isrRise.mp hs
    have hpin : s.gpioA2 = 2 := (high_iff hp.pin).mp hhigh
    refine ⟨hp.pin, fun _ h0 => absurd (hpin.symm.trans h0) (by decide), hholds.later (by simp) rfl ?_⟩
    rintro (h | h)
    · exact .inl h
    · rcases List.mem_append.mp h with h | h
      · exact .inr h
      · simp at h
  | isrCapture t =>
    obtain ⟨⟨hisr, hhigh, hwait⟩, rfl⟩ := step_isrCapture.mp hs
    have hpin : s.gpioA2 = 0 := by
      refine hp.pin.resolve_right fun h2 => ?_
      rw [(high_iff hp.pin).mpr h2] at hhigh
      cases hhigh
    exact ⟨hp.pin, fun ha h0 _ _ => hp.late ha h0 (.inr hisr) (.inl hwait),
      hholds.capture (fun ha => hp.late ha hpin (.inr hisr) (.inl hwait)) hok _⟩
  | isrIgnore =>
    obtain ⟨⟨hisr, -, -⟩, rfl⟩ := step_isrIgnore.mp hs
    exact ⟨hp.pin, fun ha h0 _ hmark => hp.late ha h0 (.inr hisr) hmark, hholds.later (by simp) rfl id⟩
  | command =>
    obtain ⟨c, rest, hisr, hcmd, rfl⟩ := step_command.mp hs
    refine ⟨hp.pin, fun ha h0 hserve hmark => hp.late ha h0 hserve ?_, hholds.later (by simp) rfl ?_⟩
    · rw [bit_execute] at hmark
      rw [hcmd]
      rcases c with b | b <;> cases b <;> simp_all
    · rw [bit_execute]
      intro hd
      rw [hcmd]
      rcases c with b | b <;> cases b <;> simp_all

/-! ## Runs -/

theorem read {h : List EchoEvent} {s : Echo} (hr : RunIf Echo.step ReadOk init h s) : Read h s :=
  hr.inv ⟨.inl rfl, fun h => absurd h Bool.false_ne_true, trivial⟩ fun _ _ _ _ _ hi hok hs => hi.step hok hs

/-- What `WATER_REPORT` publishes for five values. -/
def average (vs : List ℚ) : ℚ := vs.sum / 5

/-- The values returned in a run, and what is published of them. -/
structure Returned (h : List EchoEvent) : Prop where
  /-- A value returned is the level for a time captured at a falling edge after the trigger pulse of its call. -/
  fresh : ∀ post pre v, h = post ++ .ret v :: pre → ∃ t, Fresh t pre ∧ v = level t
  range : ∀ v, .ret v ∈ h → 0 ≤ v ∧ v ≤ 100
  average : ∀ vs : List ℚ, vs.length = 5 → (∀ v ∈ vs, .ret v ∈ h) → 0 ≤ average vs ∧ average vs ≤ 100

theorem sum_bounds {vs : List ℚ} (hv : ∀ v ∈ vs, 0 ≤ v ∧ v ≤ 100) : 0 ≤ vs.sum ∧ vs.sum ≤ 100 * vs.length := by
  induction vs with
  | nil => simp
  | cons v vs ih =>
    obtain ⟨h0, h100⟩ := hv v List.mem_cons_self
    obtain ⟨hs0, hs⟩ := ih fun w hw => hv w (List.mem_cons_of_mem v hw)
    rw [List.sum_cons, List.length_cons]
    push_cast
    constructor <;> linarith

/-- **Every value is fresh and in range** in the runs that meet the conditions. -/
theorem readWaterLevel_fresh {h : List EchoEvent} {s : Echo} (hr : RunIf Echo.step ReadOk init h s) : Returned h := by
  have hfresh : ∀ post pre v, h = post ++ .ret v :: pre → ∃ t, Fresh t pre ∧ v = level t := by
    rintro post pre v rfl
    obtain ⟨s1, s2, hr1, -, hs⟩ := hr.split
    have hholds := (read hr1).holds
    rcases (step_ret.mp hs).1 with ⟨-, hat⟩ | ⟨-, hat⟩
    · rw [hat] at hholds
      exact hholds
    · rw [hat] at hholds
      exact hholds.elim
  have hrange : ∀ v, .ret v ∈ h → 0 ≤ v ∧ v ≤ 100 := by
    intro v hv
    obtain ⟨post, pre, hsplit⟩ := List.append_of_mem hv
    obtain ⟨t, -, rfl⟩ := hfresh post pre v hsplit
    exact level_bounds t
  refine ⟨hfresh, hrange, fun vs hlen hvs => ?_⟩
  obtain ⟨h0, h100⟩ := sum_bounds fun v hv => hrange v (hvs v hv)
  rw [hlen] at h100
  unfold Echo.average
  constructor
  · exact div_nonneg h0 (by norm_num)
  · rw [div_le_iff₀ (by norm_num)]
    push_cast at h100
    linarith

/-- `ReadOk` for pulses whose edges are served when the trigger ends, decided. -/
def readOk (_h : List EchoEvent) (s : Echo) : EchoEvent → Bool
  | .getBits => !s.bit .wait
  | .triggerEnd => !s.bit .done && !s.commands.contains (.setBits .done) && !s.intFlag
  | .isrCapture t => (s.reader != .cmpHigh && s.reader != .compute) || (decide (3000 ≤ t.toNat ∧ t.toNat ≤ 48500))
  | .otherPins _ => false
  | _ => true

theorem readOk_sound (h : List EchoEvent) (s : Echo) (e : EchoEvent) (hok : readOk h s e = true) : ReadOk h s e := by
  cases e with
  | getBits => simpa [readOk, ReadOk] using hok
  | triggerEnd =>
    simp only [readOk, Bool.and_eq_true, Bool.not_eq_true'] at hok
    obtain ⟨⟨hdone, hno⟩, hflag⟩ := hok
    refine ⟨hdone, by simpa using hno, fun _ hserve => ?_⟩
    rw [hflag] at hserve
    cases hserve
  | isrCapture t =>
    simp only [readOk, Bool.or_eq_true, Bool.and_eq_true, bne_iff_ne, decide_eq_true_eq] at hok
    rcases hok with ⟨h1, h2⟩ | hrange
    · exact ⟨fun h => absurd h h1, fun h => absurd h h2⟩
    · exact ⟨fun _ => hrange.1, fun _ => hrange⟩
  | otherPins pins => cases hok
  | _ => trivial

/-- `EchoOnly`, decided. -/
def echoOnly (_h : List EchoEvent) (_s : Echo) : EchoEvent → Bool
  | .otherPins _ => false
  | _ => true

theorem echoOnly_sound (h : List EchoEvent) (s : Echo) (e : EchoEvent) (hok : echoOnly h s e = true) :
    EchoOnly h s e := by
  rintro pins rfl
  cases hok

/-- The reading task goes on after `ECHO_DONE`, past its two comparisons. -/
def comparing : List EchoEvent := echoInTime ++ [.waitDone, .cmpLow, .cmpHigh]

/-- The rest of the call, `timerValue` being `t`. -/
def returning (t : BitVec 32) : List EchoEvent := [.compute, .clearDone, .ret (percentage t)]

theorem readWaterLevel_fresh_inTime : ∃ h s, RunIf Echo.step ReadOk init h s ∧
    .ret (percentage 20000#32) ∈ h ∧ Returned h := by
  obtain ⟨h, s, hr, hw⟩ := exists_runIf Echo.step init (comparing ++ returning 20000#32)
    (fun r => decide (.ret (percentage 20000#32) ∈ r.1)) (b := true) readOk_sound (by decide +kernel)
  exact ⟨h, s, hr, of_decide_eq_true hw, readWaterLevel_fresh hr⟩

/-- A second echo, served between the comparisons and the subtraction. -/
def secondEcho : List EchoEvent := [.rise, .isrEnter, .isrRise, .command, .fall, .isrEnter, .isrCapture 1000#32]

/-- The subtraction wraps round, and the call returns more than nine million percent. -/
theorem secondEcho_outOfRange : ¬∀ h s, RunIf Echo.step EchoOnly init h s → Returned h := by
  intro hall
  obtain ⟨h, s, hr, hw⟩ := exists_runIf Echo.step init (comparing ++ secondEcho ++ returning 1000#32)
    (fun r => decide (.ret (percentage 1000#32) ∈ r.1)) (b := true) echoOnly_sound (by decide +kernel)
  have hsub : (1000#32 - 3000#32).toNat = 4294965296 := by decide
  have hrange := ((hall h s hr).range _ (of_decide_eq_true hw)).2
  rw [percentage, hsub] at hrange
  norm_num at hrange

end Echo

end Thronix
