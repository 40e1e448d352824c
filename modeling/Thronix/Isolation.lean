import Thronix.WaterLevel

/-!
# Thronix.Isolation — the water level driver and its neighbouring pins

`waterLevelSensor.c` passes package pin numbers where `driverlib/gpio.c` takes masks: `PIN_08` covers the pins 0 to 2 of
`GPIOA2`, `PIN_64` the pins 0 to 5 of `GPIOA1`.

* `Stimulus`: what `echoInt` can see of its port at one moment, or a step of one of the tasks.  `respond` is the answer
  of the driver, `outputs` the captures and event bit operations of `echoInt` over a list of stimuli.
* `Stimulus.echoOnly`: the stimulus with the other pins silent.  Two runs agree on the echo pin when they are the same
  after it.
* `Harmless`: the other pins do not matter at this moment.  It is exact: `outputs_isolated_iff`.
* `pulse_not_kept`: a trigger pulse never leaves the other outputs alone.
-/

namespace Thronix

open Lib

/-! ## The driver over stimuli -/

/-- What `echoInt` does: a capture into `timerValue`, or an operation on the event bits. -/
inductive EchoOp
  | capture (t : BitVec 32)
  | setBits (b : EchoBit)
  | clearBits (b : EchoBit)
  deriving DecidableEq, Repr

/-- A moment of the driver. -/
inductive Stimulus
  /-- The pins of `edges` have had an edge, the port now reads `port` and the timer `t`. -/
  | gpio (edges port : BitVec 8) (t : BitVec 32)
  /-- `readWaterLevel` or the timer task takes a step. -/
  | task (e : EchoEvent)
  deriving DecidableEq, Repr

/-- The stimulus with every pin but the echo pin silent. -/
def Stimulus.echoOnly : Stimulus → Stimulus
  | gpio edges port t => gpio (edges &&& echoPin) (port &&& echoPin) t
  | task e => task e

/-- A step of `readWaterLevel` or of the timer task. -/
def EchoEvent.isTask : EchoEvent → Bool
  | rise | fall | otherPins _ | isrEnter | isrRise | isrCapture _ | isrIgnore => false
  | _ => true

/-- What a branch of `echoInt` does. -/
def EchoEvent.ops : EchoEvent → List EchoOp
  | isrRise => [.setBits .wait]
  | isrCapture t => [.capture t, .setBits .done, .clearBits .wait]
  | _ => []

namespace Echo

/-- The branch that `echoInt` takes. -/
def branch (s : Echo) (t : BitVec 32) : EchoEvent :=
  if s.high then .isrRise else if s.bit .wait then .isrCapture t else .isrIgnore

/-- The driver at one moment: `echoInt` runs if an enabled pin has had an edge. -/
def respond (s : Echo) : Stimulus → Option (Echo × List EchoOp)
  | .gpio edges port t =>
    let s1 := { s with gpioA2 := port, intFlag := s.intFlag || (edges &&& pin08 != 0) }
    if s1.intFlag then do
      let s2 ← s1.step .isrEnter
      let s3 ← s2.step (s2.branch t)
      return (s3, (s2.branch t).ops)
    else return (s1, [])
  | .task e => if e.isTask then (s.step e).map fun s => (s, []) else none

/-- What `echoInt` does over a list of stimuli. -/
def outputs : Echo → List Stimulus → Option (List EchoOp)
  | _, [] => some []
  | s, m :: ms => do
    let (s, ops) ← s.respond m
    (outputs s ms).map (ops ++ ·)

/-- The other pins do not matter at this moment: at an edge of the echo pin they do not hide its level, and an edge of
their own finds neither a level to report nor a measurement to end. -/
def Harmless (s : Echo) : Stimulus → Prop
  | .gpio edges port _ =>
    if edges &&& echoPin ≠ 0 then port &&& echoPin ≠ 0 → gpioPinRead port pin08 = 2
    else edges &&& pin08 ≠ 0 → gpioPinRead port pin08 ≠ 2 ∧ s.bit .wait = false
  | .task _ => True

/-- The other pins matter at no moment of a run. -/
def HarmlessRun : Echo → List Stimulus → Prop
  | _, [] => True
  | s, m :: ms => s.Harmless m ∧ match s.respond m with
    | none => True
    | some (s', _) => HarmlessRun s' ms

instance (s : Echo) (m : Stimulus) : Decidable (s.Harmless m) :=
  match m with
  | .gpio _ _ _ => by unfold Harmless; infer_instance
  | .task _ => inferInstanceAs (Decidable True)

instance decidableHarmlessRun : ∀ (s : Echo) (ms : List Stimulus), Decidable (s.HarmlessRun ms)
  | _, [] => inferInstanceAs (Decidable True)
  | s, m :: ms =>
    have : Decidable (match s.respond m with | none => True | some (s', _) => HarmlessRun s' ms) :=
      match s.respond m with
      | none => inferInstanceAs (Decidable True)
      | some (s', _) => decidableHarmlessRun s' ms
    inferInstanceAs (Decidable (s.Harmless m ∧ _))

/-- `echoInt` does in every prefix of a run what it does with the other pins silent. -/
def Isolated (s : Echo) (ms : List Stimulus) : Prop :=
  ∀ pre, pre <+: ms → s.outputs pre = s.outputs (pre.map Stimulus.echoOnly)

/-- No entry of `echoInt` is due or under way. -/
def Settled (s : Echo) : Prop := s.inIsr = false ∧ s.intFlag = false

/-! ## One moment -/

section Moment

variable {s : Echo} {edges port : BitVec 8} {t : BitVec 32}

theorem respond_silent (hs : s.Settled) (h : edges &&& pin08 = 0) :
    s.respond (.gpio edges port t) = some ({ s with gpioA2 := port }, []) := by
  simp only [respond, hs.2, h, bne_self_eq_false, Bool.or_false, Bool.false_eq_true, if_false]
  rfl

/-- `echoInt` clears the flag and takes its branch. -/
theorem respond_edge (hs : s.Settled) (h : edges &&& pin08 ≠ 0) :
    s.respond (.gpio edges port t) =
      (step { s with gpioA2 := port, inIsr := true } (branch { s with gpioA2 := port, inIsr := true } t)).map
        fun s' => (s', (branch { s with gpioA2 := port, inIsr := true } t).ops) := by
  have hflag : (s.intFlag || edges &&& pin08 != 0) = true := by
    rw [bne_iff_ne.mpr h, Bool.or_true]
  have henter : step { s with gpioA2 := port, intFlag := true } .isrEnter =
      some { s with gpioA2 := port, inIsr := true, intFlag := s.intFlag } :=
    step_isrEnter.mpr ⟨⟨hs.1, rfl⟩, by rw [hs.2]⟩
  simp only [respond, hflag, if_true, henter, Option.bind_eq_bind, Option.bind_some]
  cases step { s with gpioA2 := port, inIsr := true } (branch { s with gpioA2 := port, inIsr := true } t) <;> rfl

theorem respond_rise (hs : s.Settled) (h : edges &&& pin08 ≠ 0) (hp : gpioPinRead port pin08 = 2) :
    s.respond (.gpio edges port t) =
      some ({ s with gpioA2 := port, commands := s.commands ++ [.setBits .wait] }, [.setBits .wait]) := by
  have hhigh : high { s with gpioA2 := port, inIsr := true } = true := beq_iff_eq.mpr hp
  rw [respond_edge hs h, branch, if_pos hhigh, step_isrRise.mpr ⟨⟨rfl, hhigh⟩, rfl⟩, ← hs.1]
  rfl

theorem respond_capture (hs : s.Settled) (h : edges &&& pin08 ≠ 0) (hp : gpioPinRead port pin08 ≠ 2)
    (hw : s.bit .wait = true) : s.respond (.gpio edges port t) =
      some ({ s with gpioA2 := port, timerValue := t, commands := s.commands ++ [.setBits .done, .clearBits .wait] },
        [.capture t, .setBits .done, .clearBits .wait]) := by
  have hlow : high { s with gpioA2 := port, inIsr := true } = false := beq_eq_false_iff_ne.mpr hp
  have hwait : bit { s with gpioA2 := port, inIsr := true } .wait = true := hw
  rw [respond_edge hs h, branch, if_neg (by rw [hlow]; exact Bool.false_ne_true), if_pos hwait,
    step_isrCapture.mpr ⟨⟨rfl, hlow, hwait⟩, rfl⟩, ← hs.1]
  rfl

theorem respond_ignore (hs : s.Settled) (h : edges &&& pin08 ≠ 0) (hp : gpioPinRead port pin08 ≠ 2)
    (hw : s.bit .wait = false) :
    s.respond (.gpio edges port t) = some ({ s with gpioA2 := port }, []) := by
  have hlow : high { s with gpioA2 := port, inIsr := true } = false := beq_eq_false_iff_ne.mpr hp
  have hwait : bit { s with gpioA2 := port, inIsr := true } .wait = false := hw
  have hbranch : branch { s with gpioA2 := port, inIsr := true } t = .isrIgnore := by
    rw [branch, hlow, hwait]
    rfl
  rw [respond_edge hs h, hbranch, step_isrIgnore.mpr ⟨⟨rfl, hlow, hwait⟩, rfl⟩, ← hs.1]
  rfl

/-- An answer touches the port, the timer value and the commands only. -/
theorem respond_gpio (hs : s.Settled) (edges port : BitVec 8) (t : BitVec 32) : ∃ v cs ops,
    s.respond (.gpio edges port t) = some ({ s with gpioA2 := port, timerValue := v, commands := cs }, ops) := by
  by_cases h : edges &&& pin08 = 0
  · exact ⟨_, _, _, respond_silent hs h⟩
  by_cases hp : gpioPinRead port pin08 = 2
  · exact ⟨_, _, _, respond_rise hs h hp⟩
  by_cases hw : s.bit .wait = true
  · exact ⟨_, _, _, respond_capture hs h hp hw⟩
  · exact ⟨_, _, _, respond_ignore hs h hp (Bool.eq_false_iff.mpr hw)⟩

end Moment

/-! ## The echo pin alone -/

theorem read_echoOnly : ∀ port : BitVec 8, gpioPinRead (port &&& echoPin) pin08 = 2 ↔ port &&& echoPin ≠ 0 := by
  decide +kernel

theorem echoPin_and_pin08 : ∀ edges : BitVec 8, edges &&& echoPin &&& pin08 = edges &&& echoPin := by
  decide +kernel

theorem pin08_of_echoPin : ∀ edges : BitVec 8, edges &&& echoPin ≠ 0 → edges &&& pin08 ≠ 0 := by decide +kernel

theorem echoPin_of_read : ∀ port : BitVec 8, gpioPinRead port pin08 = 2 → port &&& echoPin ≠ 0 := by decide +kernel

section Alone

variable {s s' : Echo} {m : Stimulus} {ops : List EchoOp} {edges port : BitVec 8} {t : BitVec 32}

/-- An edge of the echo pin is answered by the level read. -/
theorem ops_of_echoEdge (hs : s.Settled) (h : edges &&& pin08 ≠ 0) :
    (s.respond (.gpio edges port t)).map Prod.snd = some (if gpioPinRead port pin08 = 2 then [.setBits .wait]
      else if s.bit .wait then [.capture t, .setBits .done, .clearBits .wait] else []) := by
  by_cases hp : gpioPinRead port pin08 = 2
  · rw [respond_rise hs h hp, if_pos hp]
    rfl
  by_cases hw : s.bit .wait = true
  · rw [respond_capture hs h hp hw, if_neg hp, if_pos hw]
    rfl
  · rw [respond_ignore hs h hp (Bool.eq_false_iff.mpr hw), if_neg hp, if_neg hw]
    rfl

theorem ops_of_silent (hs : s.Settled) (h : edges &&& pin08 = 0) :
    (s.respond (.gpio edges port t)).map Prod.snd = some [] := by
  rw [respond_silent hs h]
  rfl

/-- The answer is that of the echo pin alone exactly when the other pins do not matter. -/
theorem ops_echoOnly_iff (hs : s.Settled) :
    (s.respond m).map Prod.snd = (s.respond m.echoOnly).map Prod.snd ↔ s.Harmless m := by
  cases m with
  | task e => exact iff_of_true rfl trivial
  | gpio edges port t =>
    rw [Harmless, Stimulus.echoOnly]
    by_cases hecho : edges &&& echoPin ≠ 0
    · have halone : edges &&& echoPin &&& pin08 ≠ 0 := by rwa [echoPin_and_pin08]
      rw [if_pos hecho, ops_of_echoEdge hs (pin08_of_echoPin edges hecho), ops_of_echoEdge hs halone]
      simp only [read_echoOnly]
      by_cases hp : gpioPinRead port pin08 = 2
      · rw [if_pos hp, if_pos (echoPin_of_read port hp)]
        exact iff_of_true rfl fun _ => hp
      by_cases hb : port &&& echoPin ≠ 0
      · -- the level is hidden: a falling edge is answered instead of a rising one
        rw [if_neg hp, if_pos hb]
        refine iff_of_false (fun heq => ?_) fun hread => hp (hread hb)
        by_cases hw : s.bit .wait = true
        · simp [hw] at heq
        · simp [hw] at heq
      · rw [if_neg hp, if_neg hb]
        exact iff_of_true rfl fun hb' => absurd hb' hb
    · rw [if_neg hecho]
      have halone : edges &&& echoPin &&& pin08 = 0 := by
        rw [echoPin_and_pin08]
        exact not_not.mp hecho
      rw [ops_of_silent hs halone]
      by_cases h : edges &&& pin08 = 0
      · rw [ops_of_silent hs h]
        exact iff_of_true rfl fun hne => absurd h hne
      · rw [ops_of_echoEdge hs h]
        by_cases hp : gpioPinRead port pin08 = 2
        · rw [if_pos hp]
          exact iff_of_false (fun heq => by simp at heq) fun hquiet => (hquiet h).1 hp
        rw [if_neg hp]
        by_cases hw : s.bit .wait = true
        · rw [if_pos hw]
          refine iff_of_false (fun heq => by simp at heq) fun hquiet => ?_
          rw [(hquiet h).2] at hw
          cases hw
        · rw [if_neg hw]
          exact iff_of_true rfl fun _ => ⟨hp, Bool.eq_false_iff.mpr hw⟩

/-- The state after the answer differs in the port only. -/
theorem respond_echoOnly (hs : s.Settled) (hm : s.Harmless m) (hr : s.respond m = some (s', ops)) :
    ∃ g, s.respond m.echoOnly = some ({ s' with gpioA2 := g }, ops) := by
  cases m with
  | task e => exact ⟨s'.gpioA2, hr⟩
  | gpio edges port t =>
    refine ⟨port &&& echoPin, ?_⟩
    rw [Harmless] at hm
    rw [Stimulus.echoOnly]
    by_cases hecho : edges &&& echoPin ≠ 0
    · rw [if_pos hecho] at hm
      have halone : edges &&& echoPin &&& pin08 ≠ 0 := by rwa [echoPin_and_pin08]
      have hedge := pin08_of_echoPin edges hecho
      by_cases hp : gpioPinRead port pin08 = 2
      · rw [respond_rise hs hedge hp] at hr
        obtain ⟨rfl, rfl⟩ := Prod.mk.inj (Option.some.inj hr)
        exact respond_rise hs halone ((read_echoOnly port).mpr (echoPin_of_read port hp))
      have hlow : gpioPinRead (port &&& echoPin) pin08 ≠ 2 := fun h => hp (hm ((read_echoOnly port).mp h))
      by_cases hw : s.bit .wait = true
      · rw [respond_capture hs hedge hp hw] at hr
        obtain ⟨rfl, rfl⟩ := Prod.mk.inj (Option.some.inj hr)
        exact respond_capture hs halone hlow hw
      · have hw' := Bool.eq_false_iff.mpr hw
        rw [respond_ignore hs hedge hp hw'] at hr
        obtain ⟨rfl, rfl⟩ := Prod.mk.inj (Option.some.inj hr)
        exact respond_ignore hs halone hlow hw'
    · rw [if_neg hecho] at hm
      have halone : edges &&& echoPin &&& pin08 = 0 := by
        rw [echoPin_and_pin08]
        exact not_not.mp hecho
      have hquiet : s.respond (.gpio edges port t) = some ({ s with gpioA2 := port }, []) := by
        by_cases h : edges &&& pin08 = 0
        · exact respond_silent hs h
        · exact respond_ignore hs h (hm h).1 (hm h).2
      rw [hquiet] at hr
      obtain ⟨rfl, rfl⟩ := Prod.mk.inj (Option.some.inj hr)
      exact respond_silent hs halone

/-- The tasks do not touch the port and the interrupt. -/
theorem step_of_isTask {e : EchoEvent} (he : e.isTask = true) (h : s.step e = some s') :
    (s'.inIsr = s.inIsr ∧ s'.intFlag = s.intFlag) ∧
      ∀ g, step { s with gpioA2 := g } e = some { s' with gpioA2 := g } := by
  cases e with
  | rise | fall | otherPins _ | isrEnter | isrRise | isrCapture _ | isrIgnore => cases he
  | clearDone =>
    obtain ⟨v, hv, rfl⟩ := step_clearDone.mp h
    exact ⟨⟨rfl, rfl⟩, fun g => step_clearDone.mpr ⟨v, hv, rfl⟩⟩
  | command =>
    obtain ⟨c, rest, hi, hc, rfl⟩ := step_command.mp h
    exact ⟨⟨rfl, rfl⟩, fun g => step_command.mpr ⟨c, rest, hi, hc, rfl⟩⟩
  | _ =>
    obtain ⟨hg, rfl⟩ := guard_eq_some.mp h
    exact ⟨⟨rfl, rfl⟩, fun g => guard_eq_some.mpr ⟨hg, rfl⟩⟩

theorem Settled.respond (hs : s.Settled) (hr : s.respond m = some (s', ops)) : s'.Settled := by
  cases m with
  | gpio edges port t =>
    obtain ⟨v, cs, ops', heq⟩ := respond_gpio hs edges port t
    rw [heq] at hr
    obtain ⟨rfl, -⟩ := Prod.mk.inj (Option.some.inj hr)
    exact hs
  | task e =>
    rw [Echo.respond] at hr
    split_ifs at hr with he
    obtain ⟨s1, hstep, heq⟩ := Option.map_eq_some_iff.mp hr
    obtain ⟨rfl, -⟩ := Prod.mk.inj heq
    obtain ⟨⟨h1, h2⟩, -⟩ := step_of_isTask he hstep
    exact ⟨h1.trans hs.1, h2.trans hs.2⟩

/-- What the port read before does not matter. -/
theorem outputs_gpioA2 (g : BitVec 8) (ms : List Stimulus) : outputs { s with gpioA2 := g } ms = outputs s ms := by
  induction ms generalizing s g with
  | nil => rfl
  | cons m ms ih =>
    cases m with
    | gpio edges port t => rfl
    | task e =>
      by_cases he : e.isTask = true
      · cases hstep : s.step e with
        | some s1 =>
          have hport := (step_of_isTask he hstep).2 g
          simp only [outputs, Echo.respond, if_pos he, hstep, hport, Option.map_some, Option.bind_eq_bind,
            Option.bind_some, ih]
        | none =>
          have hport : step { s with gpioA2 := g } e = none := by
            cases h1 : step { s with gpioA2 := g } e with
            | none => rfl
            | some s1 =>
              have hback : s.step e = some { s1 with gpioA2 := s.gpioA2 } := (step_of_isTask he h1).2 s.gpioA2
              rw [hstep] at hback
              cases hback
          simp only [outputs, Echo.respond, if_pos he, hstep, hport, Option.map_none, Option.bind_eq_bind,
            Option.bind_none]
      · simp only [outputs, Echo.respond, if_neg he]

end Alone

/-! ## Runs -/

section Runs

variable {s : Echo} {ms ms₁ ms₂ : List Stimulus}

theorem outputs_cons {s' : Echo} {m : Stimulus} {ops : List EchoOp} (hr : s.respond m = some (s', ops)) :
    outputs s (m :: ms) = (outputs s' ms).map (ops ++ ·) := by
  rw [outputs, hr]
  rfl

theorem outputs_singleton (m : Stimulus) : outputs s [m] = (s.respond m).map Prod.snd := by
  cases hr : s.respond m with
  | none => rw [outputs, hr]; rfl
  | some r =>
    obtain ⟨s', ops⟩ := r
    rw [outputs_cons hr, outputs, Option.map_some, List.append_nil]
    rfl

theorem outputs_cons_echoOnly {s' : Echo} {m : Stimulus} {ops : List EchoOp} (hs : s.Settled) (hm : s.Harmless m)
    (hr : s.respond m = some (s', ops)) : outputs s (m.echoOnly :: ms) = (outputs s' ms).map (ops ++ ·) := by
  obtain ⟨g, halone⟩ := respond_echoOnly hs hm hr
  rw [outputs_cons halone, outputs_gpioA2]

/-- **Isolation, exactly**: in every prefix `echoInt` does what it does with the other pins silent, if and only if the
other pins matter at no moment. -/
theorem isolated_iff (hs : s.Settled) : s.Isolated ms ↔ s.HarmlessRun ms := by
  induction ms generalizing s with
  | nil =>
    refine iff_of_true (fun pre hpre => ?_) trivial
    rw [List.prefix_nil.mp hpre]
    rfl
  | cons m ms ih =>
    constructor
    · intro hiso
      have hm : s.Harmless m := by
        have hone := hiso [m] (List.cons_prefix_cons.mpr ⟨rfl, List.nil_prefix⟩)
        rw [List.map_singleton, outputs_singleton, outputs_singleton] at hone
        exact (ops_echoOnly_iff hs).mp hone
      refine ⟨hm, ?_⟩
      cases hr : s.respond m with
      | none => trivial
      | some r =>
        obtain ⟨s', ops⟩ := r
        refine (ih (hs.respond hr)).mp fun pre hpre => ?_
        have hcons := hiso (m :: pre) (List.cons_prefix_cons.mpr ⟨rfl, hpre⟩)
        rw [List.map_cons, outputs_cons_echoOnly hs hm hr, outputs_cons hr] at hcons
        exact Option.map_injective (List.append_right_injective ops) hcons
    · rintro ⟨hm, hrest⟩ pre hpre
      cases pre with
      | nil => rfl
      | cons m' pre =>
        obtain ⟨rfl, hrestpre⟩ := List.cons_prefix_cons.mp hpre
        cases hr : s.respond m' with
        | none =>
          cases m' with
          | gpio edges port t =>
            obtain ⟨v, cs, ops, hsome⟩ := respond_gpio hs edges port t
            rw [hr] at hsome
            cases hsome
          | task e => rw [List.map_cons, Stimulus.echoOnly, outputs, outputs, hr]; rfl
        | some r =>
          obtain ⟨s', ops⟩ := r
          rw [hr] at hrest
          rw [List.map_cons, outputs_cons_echoOnly hs hm hr, outputs_cons hr,
            (ih (hs.respond hr)).mpr hrest pre hrestpre]

/-- **Two runs** that agree on the echo pin are answered alike where the other pins matter at no moment. -/
theorem outputs_eq_of_agree (hs : s.Settled) (hagree : ms₁.map Stimulus.echoOnly = ms₂.map Stimulus.echoOnly)
    (h₁ : s.HarmlessRun ms₁) (h₂ : s.HarmlessRun ms₂) : s.outputs ms₁ = s.outputs ms₂ := by
  calc s.outputs ms₁ = s.outputs (ms₁.map Stimulus.echoOnly) := (isolated_iff hs).mpr h₁ ms₁ List.prefix_rfl
    _ = s.outputs (ms₂.map Stimulus.echoOnly) := by rw [hagree]
    _ = s.outputs ms₂ := ((isolated_iff hs).mpr h₂ ms₂ List.prefix_rfl).symm

end Runs

/-! ## The trigger pulse -/

/-- The outputs of `GPIOA1` that `PinMuxConfig` sets up apart from the trigger. -/
def otherOutputs : BitVec 8 := 0x4 ||| 0x8

/-- No step of a run changes them. -/
def OutputsKept (s₀ : Echo) (h : List EchoEvent) : Prop :=
  ∀ post e pre before after, h = post ++ e :: pre → Run step s₀ pre before → before.step e = some after →
    after.gpioA1 &&& otherOutputs = before.gpioA1 &&& otherOutputs

section Pulse

variable {s s' s₀ : Echo} {h : List EchoEvent}

/-- While the trigger is high, so are the other outputs. -/
def PulseHigh (s : Echo) : Prop := s.reader = .triggerEnd → s.gpioA1 &&& otherOutputs = otherOutputs

theorem write_high : ∀ p : Port, gpioPinWrite p pin64 pin64 &&& otherOutputs = otherOutputs := by decide +kernel

theorem write_low : ∀ p : Port, gpioPinWrite p pin64 (~~~pin64) &&& otherOutputs = 0 := by decide +kernel

theorem PulseHigh.step {e : EchoEvent} (hi : s.PulseHigh) (h : s.step e = some s') : s'.PulseHigh := by
  cases e with
  | trigger =>
    obtain ⟨-, rfl⟩ := step_trigger.mp h
    exact fun _ => write_high s.gpioA1
  | otherPins pins =>
    obtain rfl := Option.some.inj h
    exact hi
  | command =>
    obtain ⟨c, rest, -, -, rfl⟩ := step_command.mp h
    exact hi
  | rise | fall | isrEnter | isrRise | isrCapture t | isrIgnore =>
    obtain ⟨-, rfl⟩ := guard_eq_some.mp h
    exact hi
  | getBits =>
    obtain ⟨-, rfl⟩ := step_getBits.mp h
    intro hr
    by_cases hw : s.bit .wait = true
    · simp [hw] at hr
    · simp [hw] at hr
  | cmpLow =>
    obtain ⟨-, rfl⟩ := step_cmpLow.mp h
    intro hr
    by_cases hlow : s.timerValue < 3000#32
    · simp [hlow] at hr
    · simp [hlow] at hr
  | cmpHigh =>
    obtain ⟨-, rfl⟩ := step_cmpHigh.mp h
    intro hr
    by_cases hhigh : 48500#32 < s.timerValue
    · simp [hhigh] at hr
    · simp [hhigh] at hr
  | clearDone =>
    obtain ⟨v, -, rfl⟩ := step_clearDone.mp h
    intro hr
    cases hr
  | triggerEnd | waitDone | setLow | setHigh | compute | ret v =>
    obtain ⟨-, rfl⟩ := guard_eq_some.mp h
    intro hr
    cases hr

/-- A pulse that has ended has changed the other outputs. -/
theorem not_outputsKept (h₀ : s₀.reader = .idle) (hr : Run step s₀ h s) (hend : .triggerEnd ∈ h) :
    ¬OutputsKept s₀ h := by
  intro hkept
  obtain ⟨post, pre, rfl⟩ := List.append_of_mem hend
  obtain ⟨before, after, hpre, -, hstep⟩ := hr.split
  have hhigh : before.PulseHigh := hpre.inv (I := fun _ s => s.PulseHigh)
    (fun h => by rw [h₀] at h; cases h) fun _ _ _ _ _ hi _ hs => hi.step hs
  obtain ⟨⟨-, hreader⟩, rfl⟩ := step_triggerEnd.mp hstep
  have heq := hkept post _ pre before _ rfl hpre hstep
  rw [hhigh hreader, write_low] at heq
  exact absurd heq (by decide)

end Pulse

/-! ## The driver and its neighbours -/

/-- **The neighbouring pins.**  Two runs that agree on the echo pin are answered alike where the other pins matter at no
moment, and only there is `echoInt` isolated from them.  The trigger pulse never is: whatever the outputs of `GPIOA1`
were, a pulse that has ended has changed another one. -/
theorem neighbours (ms₁ ms₂ : List Stimulus) (p : Port) (h : List EchoEvent) (s : Echo) :
    (ms₁.map Stimulus.echoOnly = ms₂.map Stimulus.echoOnly →
      init.HarmlessRun ms₁ → init.HarmlessRun ms₂ → init.outputs ms₁ = init.outputs ms₂) ∧
    (init.Isolated ms₁ ↔ init.HarmlessRun ms₁) ∧
    (Run step { init with gpioA1 := p } h s → .triggerEnd ∈ h → ¬OutputsKept { init with gpioA1 := p } h) := by
  have hs : init.Settled := ⟨rfl, rfl⟩
  exact ⟨outputs_eq_of_agree hs, isolated_iff hs, fun hr => not_outputsKept rfl hr⟩

/-- One echo, with the pins 3 to 7 silent in the first run and noisy in the second. -/
def oneEcho (noise : BitVec 8) : List Stimulus :=
  [.gpio (0x02 ||| noise) (0x02 ||| noise) 0, .task .command, .gpio (0x02 ||| noise) noise 5000]

theorem neighbours_oneEcho : init.outputs (oneEcho 0) = init.outputs (oneEcho 0xF8) ∧
    ¬OutputsKept { init with gpioA1 := 0x0C } [.triggerEnd, .trigger, .getBits] := by
  obtain ⟨s, hr, -⟩ := run_of_exec step { init with gpioA1 := 0x0C } [.getBits, .trigger, .triggerEnd] reader
    (by decide : _ = some ReaderPc.wait)
  obtain ⟨hagree, -, hpulse⟩ := neighbours (oneEcho 0) (oneEcho 0xF8) 0x0C [.triggerEnd, .trigger, .getBits] s
  exact ⟨hagree (by decide) (by decide) (by decide), hpulse hr (by decide)⟩

/-- A high pin 0 hides the rising edge of the echo. -/
theorem neighbour_hides_echo :
    ¬((∀ ms₁ ms₂ : List Stimulus, ms₁.map Stimulus.echoOnly = ms₂.map Stimulus.echoOnly →
        init.outputs ms₁ = init.outputs ms₂) ∧
      ∀ (p : Port) (h : List EchoEvent) (s : Echo), Run step { init with gpioA1 := p } h s →
        OutputsKept { init with gpioA1 := p } h) := by
  rintro ⟨h, -⟩
  have heq := h [.gpio 0x02 0x02 0] [.gpio 0x02 0x03 0] (by decide)
  exact absurd heq (by decide)

end Echo

end Thronix
