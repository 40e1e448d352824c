import Thronix.WaterLevel

/-!
# Thronix.EchoEnd — the end of an echo

`echoInt` marks the rising edge with `ECHO_WAIT`, through the timer task, and takes the falling edge only when it finds
that bit set.

* `Answered`: each trigger pulse is answered by one echo, and no other pin of the port moves.
* `Phase`: where the measurement stands between one trigger and the next, while no run of `echoInt` finds the pin low
  and `ECHO_WAIT` clear.
* `echo_end_kept`: in such runs the end of an echo is never dropped.
-/

namespace Thronix

open Lib

namespace Echo

/-! ## Echoes in answer to triggers -/

/-- A trigger pulse has ended and no rising edge has followed yet. -/
def due : List EchoEvent → Bool
  | [] => false
  | .triggerEnd :: _ => true
  | .rise :: _ => false
  | _ :: h => due h

/-- A falling edge has come since the last trigger pulse. -/
def fallen : List EchoEvent → Bool
  | [] => false
  | .triggerEnd :: _ => false
  | .fall :: _ => true
  | _ :: h => fallen h

/-- The echo pin rises once after each trigger pulse and not otherwise; the other pins stay low. -/
def Answered (h : List EchoEvent) (_s : Echo) (e : EchoEvent) : Prop :=
  match e with
  | .rise => due h = true
  | .otherPins _ => False
  | _ => True

/-- In addition, no run of `echoInt` finds the pin low and `ECHO_WAIT` clear. -/
def Marked (h : List EchoEvent) (s : Echo) (e : EchoEvent) : Prop := Answered h s e ∧ e ≠ .isrIgnore

/-! ## Phases -/

/-- The pin is low and its edges are served. -/
def Quiet (s : Echo) : Prop := s.gpioA2 = 0 ∧ s.intFlag = false ∧ s.inIsr = false

/-- The rising edge is not served yet. -/
def Rising (s : Echo) : Prop :=
  (s.gpioA2 = 2 ∧ s.intFlag = !s.inIsr) ∨ (s.gpioA2 = 0 ∧ (s.intFlag = true ∨ s.inIsr = true))

/-- The rising edge is served, the falling edge is not. -/
def Risen (s : Echo) : Prop :=
  (s.gpioA2 = 2 ∧ s.intFlag = false ∧ s.inIsr = false) ∨ (s.gpioA2 = 0 ∧ s.intFlag = !s.inIsr)

/-- The reading task waits for an echo that has begun. -/
def Waiting (due fallen : Bool) (s : Echo) : Prop :=
  s.reader = .wait ∧ s.bit .done = false ∧ due = false ∧ (s.gpioA2 = 2 → fallen = false)

/-- Between the wait and the clear of `ECHO_DONE`. -/
def awaiting : ReaderPc → Bool
  | .wait | .cmpLow | .setLow | .cmpHigh | .setHigh | .compute | .clear _ => true
  | _ => false

/-- Before the end of the trigger pulse. -/
def starting : ReaderPc → Bool
  | .trigger | .triggerEnd => true
  | _ => false

/-- Nothing is on its way: before the echo, or after its end has been told; then `ECHO_WAIT` may still have to be
cleared. -/
structure Rest (due fallen : Bool) (s : Echo) : Prop where
  pin : Quiet s
  commands : (s.commands = [] ∧ s.bit .wait = false) ∨
    (s.commands = [.clearBits .wait] ∧ s.bit .wait = true ∧ due = false ∧ starting s.reader = false)
  expected : due = true → s.reader = .wait ∧ s.bit .done = false ∧ fallen = false
  told : s.reader = .wait → due = false → s.bit .done = true
  done : s.bit .done = true → awaiting s.reader = true

/-- An echo has begun: its rising edge is not served, noted for the timer task, or marked; or its falling edge is
captured. -/
inductive Begun (s : Echo) : Prop
  | rising (pin : Rising s) (commands : s.commands = []) (wait : s.bit .wait = false)
  | noted (pin : Risen s) (commands : s.commands = [.setBits .wait]) (wait : s.bit .wait = false)
  | marked (pin : Risen s) (commands : s.commands = []) (wait : s.bit .wait = true)
  | captured (pin : Quiet s) (commands : s.commands = [.setBits .done, .clearBits .wait]) (wait : s.bit .wait = true)

def Phase (due fallen : Bool) (s : Echo) : Prop := Rest due fallen s ∨ (Waiting due fallen s ∧ Begun s)

theorem high_iff {s : Echo} (h : s.gpioA2 = 0 ∨ s.gpioA2 = 2) : s.high = true ↔ s.gpioA2 = 2 := by
  unfold high
  rcases h with h | h <;> rw [h] <;> decide

/-! ## Steps -/

section Steps

variable {due fallen : Bool} {s : Echo}

/-- The reading task moves only at rest. -/
theorem Phase.rest_of_reader (hp : Phase due fallen s) (h : s.reader ≠ .wait ∨ s.bit .done = true) :
    Rest due fallen s := by
  rcases hp with hrest | ⟨⟨hr, hd, -, -⟩, -⟩
  · exact hrest
  · rcases h with h | h
    · exact absurd hr h
    · rw [hd] at h
      cases h

/-- No pulse is unanswered once the task has moved on. -/
theorem Rest.not_due (hp : Rest due fallen s) (h : s.reader ≠ .wait ∨ s.bit .done = true) : due = false := by
  refine Bool.eq_false_iff.mpr fun hdue => ?_
  obtain ⟨hr, hd, -⟩ := hp.expected hdue
  rcases h with h | h
  · exact h hr
  · exact Bool.false_ne_true (hd.symm.trans h)

/-- A move of the reading task that leaves the bits alone. -/
theorem Rest.move (hp : Rest due fallen s) (a1 : Port) (tv : BitVec 32) (pc : ReaderPc)
    (hwas : s.reader ≠ .wait ∨ s.bit .done = true) (hpc : pc ≠ .wait)
    (hstart : starting pc = true → starting s.reader = true ∨ s.bit .wait = false)
    (hdone : awaiting pc = awaiting s.reader) :
    Rest due fallen { s with gpioA1 := a1, timerValue := tv, reader := pc } := by
  have hdue := hp.not_due hwas
  refine ⟨hp.pin, ?_, fun h => ?_, fun h => absurd h hpc, fun h => ?_⟩
  · rcases hp.commands with h | ⟨h1, h2, h3, h4⟩
    · exact .inl h
    · refine .inr ⟨h1, h2, h3, ?_⟩
      rcases hs : starting pc with _ | _
      · rfl
      · rcases hstart hs with h | h
        · rw [h] at h4
          cases h4
        · rw [h] at h2
          cases h2
  · rw [hdue] at h
    cases h
  · show awaiting pc = true
    rw [hdone]
    exact hp.done h

theorem Phase.move (hp : Phase due fallen s) (a1 : Port) (tv : BitVec 32) (pc : ReaderPc)
    (hwas : s.reader ≠ .wait ∨ s.bit .done = true) (hpc : pc ≠ .wait)
    (hstart : starting pc = true → starting s.reader = true ∨ s.bit .wait = false)
    (hdone : awaiting pc = awaiting s.reader) :
    Phase due fallen { s with gpioA1 := a1, timerValue := tv, reader := pc } :=
  .inl ((hp.rest_of_reader hwas).move a1 tv pc hwas hpc hstart hdone)

end Steps

theorem Phase.step {h : List EchoEvent} {s s' : Echo} {e : EchoEvent} (hp : Phase (due h) (fallen h) s)
    (hok : Marked h s e) (hs : s.step e = some s') : Phase (due (e :: h)) (fallen (e :: h)) s' := by
  cases e with
  | getBits =>
    obtain ⟨⟨-, hat⟩, rfl⟩ := step_getBits.mp hs
    rcases hw : s.bit .wait with _ | _
    · exact hp.move _ _ .trigger (.inl (by simp [hat])) (by simp) (fun _ => .inr hw) (by rw [hat]; rfl)
    · exact hp.move _ _ .noValue (.inl (by simp [hat])) (by simp) (by simp [starting]) (by rw [hat]; rfl)
  | trigger =>
    obtain ⟨⟨-, hat⟩, rfl⟩ := step_trigger.mp hs
    exact hp.move _ _ .triggerEnd (.inl (by simp [hat])) (by simp) (fun _ => .inl (by rw [hat]; rfl)) (by rw [hat]; rfl)
  | triggerEnd =>
    obtain ⟨⟨-, hat⟩, rfl⟩ := step_triggerEnd.mp hs
    have hrest := hp.rest_of_reader (.inl (by simp [hat]))
    have hdone : s.bit .done = false := by
      rcases hd : s.bit .done with _ | _
      · rfl
      · have := hrest.done hd
        rw [hat] at this
        cases this
    refine .inl ⟨hrest.pin, .inl ?_, fun _ => ⟨rfl, hdone, rfl⟩, fun _ hd => absurd hd.symm Bool.false_ne_true,
      fun _ => rfl⟩
    rcases hrest.commands with h | ⟨-, -, -, h⟩
    · exact h
    · rw [hat] at h
      cases h
  | waitDone =>
    obtain ⟨⟨⟨-, hat⟩, hd⟩, rfl⟩ := step_waitDone.mp hs
    exact hp.move _ _ .cmpLow (.inr hd) (by simp) (by simp [starting]) (by rw [hat]; rfl)
  | cmpLow =>
    obtain ⟨⟨-, hat⟩, rfl⟩ := step_cmpLow.mp hs
    by_cases hlow : s.timerValue < 3000#32
    · rw [if_pos hlow]
      exact hp.move _ _ .setLow (.inl (by simp [hat])) (by simp) (by simp [starting]) (by rw [hat]; rfl)
    · rw [if_neg hlow]
      exact hp.move _ _ .cmpHigh (.inl (by simp [hat])) (by simp) (by simp [starting]) (by rw [hat]; rfl)
  | setLow =>
    obtain ⟨⟨-, hat⟩, rfl⟩ := step_setLow.mp hs
    exact hp.move _ _ .compute (.inl (by simp [hat])) (by simp) (by simp [starting]) (by rw [hat]; rfl)
  | cmpHigh =>
    obtain ⟨⟨-, hat⟩, rfl⟩ := step_cmpHigh.mp hs
    by_cases hhigh : 48500#32 < s.timerValue
    · rw [if_pos hhigh]
      exact hp.move _ _ .setHigh (.inl (by simp [hat])) (by simp) (by simp [starting]) (by rw [hat]; rfl)
    · rw [if_neg hhigh]
      exact hp.move _ _ .compute (.inl (by simp [hat])) (by simp) (by simp [starting]) (by rw [hat]; rfl)
  | setHigh =>
    obtain ⟨⟨-, hat⟩, rfl⟩ := step_setHigh.mp hs
    exact hp.move _ _ .compute (.inl (by simp [hat])) (by simp) (by simp [starting]) (by rw [hat]; rfl)
  | compute =>
    obtain ⟨⟨-, hat⟩, rfl⟩ := step_compute.mp hs
    exact hp.move _ _ (.clear _) (.inl (by simp [hat])) (by simp) (by simp [starting]) (by rw [hat]; rfl)
  | clearDone =>
    obtain ⟨v, ⟨-, hat⟩, rfl⟩ := step_clearDone.mp hs
    have hrest := hp.rest_of_reader (.inl (by simp [hat]))
    have hdue : due h = false := hrest.not_due (.inl (by simp [hat]))
    refine .inl ⟨hrest.pin, ?_, fun h => ?_, fun hw => absurd hw (by simp), fun h => ?_⟩
    · rw [bit, test_clear]
      rcases hrest.commands with h | ⟨h1, h2, h3, -⟩
      · exact .inl h
      · exact .inr ⟨h1, h2, h3, rfl⟩
    · exact absurd (hdue.symm.trans h) Bool.false_ne_true
    · rw [bit, test_clear] at h
      cases h
  | ret v =>
    obtain ⟨hat, rfl⟩ := step_ret.mp hs
    have hpc : s.reader = .ret v ∨ s.reader = .noValue := hat.imp And.right And.right
    refine hp.move _ _ .idle (.inl ?_) (by simp) (by simp [starting]) ?_
    · rcases hpc with h | h <;> simp [h]
    · rcases hpc with h | h <;> rw [h] <;> rfl
  | rise =>
    obtain ⟨hlow, rfl⟩ := step_rise.mp hs
    have hdue : due h = true := hok.1
    rcases hp with hrest | ⟨⟨-, -, hd, -⟩, -⟩
    · obtain ⟨hr, hd, hf⟩ := hrest.expected hdue
      obtain ⟨hpin, -, hisr⟩ := hrest.pin
      obtain ⟨hc, hw⟩ : s.commands = [] ∧ s.bit .wait = false := by
        rcases hrest.commands with hcw | ⟨-, -, hno, -⟩
        · exact hcw
        · rw [hdue] at hno
          cases hno
      exact .inr ⟨⟨hr, hd, rfl, fun _ => hf⟩, .rising (.inl ⟨by simp [hpin, echoPin], by simp [hisr]⟩) hc hw⟩
    · rw [hdue] at hd
      cases hd
  | fall =>
    obtain ⟨hhigh, rfl⟩ := step_fall.mp hs
    have hlow : s.gpioA2 ≠ 0 := by
      intro h0
      exact hhigh (by rw [h0]; rfl)
    rcases hp with hrest | ⟨⟨hr, hd, hdue, -⟩, hb⟩
    · exact absurd hrest.pin.1 hlow
    have hnot : (2 : BitVec 8) &&& ~~~echoPin = 0 := by decide
    have hwaiting : ∀ x : Port, x = 2 → Waiting (due (.fall :: h)) (fallen (.fall :: h))
        { s with gpioA2 := x &&& ~~~echoPin, intFlag := true } := by
      rintro x rfl
      refine ⟨hr, hd, hdue, fun h2 => ?_⟩
      rw [hnot] at h2
      cases h2
    -- the pin was high, so the rising edge was the last one
    rcases hb with ⟨⟨h2, hflag⟩ | ⟨h0, -⟩, hc, hw⟩ | ⟨⟨h2, -, hisr⟩ | ⟨h0, -⟩, hc, hw⟩ |
      ⟨⟨h2, -, hisr⟩ | ⟨h0, -⟩, hc, hw⟩ | ⟨⟨h0, -⟩, hc, hw⟩
    · exact .inr ⟨hwaiting _ h2, .rising (.inr ⟨by rw [h2]; exact hnot, .inl rfl⟩) hc hw⟩
    · exact absurd h0 hlow
    · exact .inr ⟨hwaiting _ h2, .noted (.inr ⟨by rw [h2]; exact hnot, by simp [hisr]⟩) hc hw⟩
    · exact absurd h0 hlow
    · exact .inr ⟨hwaiting _ h2, .marked (.inr ⟨by rw [h2]; exact hnot, by simp [hisr]⟩) hc hw⟩
    · exact absurd h0 hlow
    · exact absurd h0 hlow
  | otherPins pins => exact absurd hok.1 id
  | isrEnter =>
    obtain ⟨⟨hisr, hflag⟩, rfl⟩ := step_isrEnter.mp hs
    rcases hp with hrest | ⟨hwaiting, hb⟩
    · rw [hrest.pin.2.1] at hflag
      cases hflag
    refine .inr ⟨hwaiting, ?_⟩
    rcases hb with ⟨⟨h2, -⟩ | ⟨h0, -⟩, hc, hw⟩ | ⟨⟨-, hno, -⟩ | ⟨h0, -⟩, hc, hw⟩ |
      ⟨⟨-, hno, -⟩ | ⟨h0, -⟩, hc, hw⟩ | ⟨⟨-, hno, -⟩, hc, hw⟩
    · exact .rising (.inl ⟨h2, rfl⟩) hc hw
    · exact .rising (.inr ⟨h0, .inr rfl⟩) hc hw
    · rw [hno] at hflag
      cases hflag
    · exact .noted (.inr ⟨h0, rfl⟩) hc hw
    · rw [hno] at hflag
      cases hflag
    · exact .marked (.inr ⟨h0, rfl⟩) hc hw
    · rw [hno] at hflag
      cases hflag
  | isrRise =>
    obtain ⟨⟨hisr, hhigh⟩, rfl⟩ := step_isrRise.mp hs
    rcases hp with hrest | ⟨hwaiting, hb⟩
    · rw [hrest.pin.2.2] at hisr
      cases hisr
    refine .inr ⟨hwaiting, ?_⟩
    have hno0 : s.gpioA2 ≠ 0 := fun h0 => by
      rw [high_iff (.inl h0), h0] at hhigh
      cases hhigh
    rcases hb with ⟨⟨h2, hflag⟩ | ⟨h0, -⟩, hc, hw⟩ | ⟨⟨-, -, hno⟩ | ⟨h0, -⟩, hc, hw⟩ |
      ⟨⟨-, -, hno⟩ | ⟨h0, -⟩, hc, hw⟩ | ⟨⟨h0, -⟩, hc, hw⟩
    · exact .noted (.inl ⟨h2, by rw [hflag, hisr]; rfl, rfl⟩) (by rw [hc]; rfl) hw
    · exact absurd h0 hno0
    · rw [hno] at hisr
      cases hisr
    · exact absurd h0 hno0
    · rw [hno] at hisr
      cases hisr
    · exact absurd h0 hno0
    · exact absurd h0 hno0
  | isrCapture t =>
    obtain ⟨⟨hisr, -, hwait⟩, rfl⟩ := step_isrCapture.mp hs
    rcases hp with hrest | ⟨hwaiting, hb⟩
    · rw [hrest.pin.2.2] at hisr
      cases hisr
    refine .inr ⟨hwaiting, ?_⟩
    rcases hb with ⟨-, -, hw⟩ | ⟨-, -, hw⟩ | ⟨⟨-, -, hno⟩ | ⟨h0, hflag⟩, hc, hw⟩ | ⟨⟨-, -, hno⟩, -, -⟩
    · rw [hw] at hwait
      cases hwait
    · rw [hw] at hwait
      cases hwait
    · rw [hno] at hisr
      cases hisr
    · exact .captured ⟨h0, by rw [hflag, hisr]; rfl, rfl⟩ (by rw [hc]; rfl) hw
    · rw [hno] at hisr
      cases hisr
  | isrIgnore => exact absurd rfl hok.2
  | command =>
    obtain ⟨c, rest, hisr, hcmd, rfl⟩ := step_command.mp hs
    rcases hp with hrest | ⟨⟨hr, hd, hdue, hf⟩, hb⟩
    · rcases hrest.commands with ⟨hc, -⟩ | ⟨hc, hw, hdue, hstart⟩
      · rw [hc] at hcmd
        cases hcmd
      · rw [hc] at hcmd
        obtain ⟨rfl, rfl⟩ := List.cons.inj hcmd
        refine .inl ⟨hrest.pin, .inl ⟨rfl, by rw [bit_execute]; rfl⟩, fun hd => ?_, fun hr hd => ?_, fun hd => ?_⟩
        · exact absurd (hdue.symm.trans hd) Bool.false_ne_true
        · rw [bit_execute]
          exact hrest.told hr hd
        · rw [bit_execute] at hd
          exact hrest.done hd
    · rcases hb with ⟨-, hc, -⟩ | ⟨hpin, hc, hw⟩ | ⟨-, hc, -⟩ | ⟨hpin, hc, hw⟩
      · rw [hc] at hcmd
        cases hcmd
      · rw [hc] at hcmd
        obtain ⟨rfl, rfl⟩ := List.cons.inj hcmd
        exact .inr ⟨⟨hr, by rw [bit_execute]; exact hd, hdue, hf⟩, .marked hpin rfl (by rw [bit_execute]; rfl)⟩
      · rw [hc] at hcmd
        cases hcmd
      · rw [hc] at hcmd
        obtain ⟨rfl, rfl⟩ := List.cons.inj hcmd
        refine .inl ⟨hpin, .inr ⟨rfl, by rw [bit_execute]; exact hw, hdue, by rw [hr]; rfl⟩, fun hd => ?_, fun _ _ => ?_,
          fun _ => by rw [hr]; rfl⟩
        · exact absurd (hdue.symm.trans hd) Bool.false_ne_true
        · rw [bit_execute]
          rfl

/-! ## Runs -/

theorem phase {h : List EchoEvent} {s : Echo} (hr : RunIf Echo.step Marked init h s) : Phase (due h) (fallen h) s :=
  hr.inv (I := fun h s => Phase (due h) (fallen h) s)
    (.inl ⟨⟨rfl, rfl, rfl⟩, .inl ⟨rfl, by decide⟩, fun h => absurd h Bool.false_ne_true, by simp [init],
      fun h => absurd h (by decide)⟩)
    fun _ _ _ _ _ hi hok hs => hi.step hok hs

/-- The reading task waits, both edges of its pulse have been served and the timer task has nothing left to do. -/
def Ended (h : List EchoEvent) (s : Echo) : Prop :=
  s.reader = .wait ∧ fallen h = true ∧ s.intFlag = false ∧ s.inIsr = false ∧ s.commands = []

instance (h : List EchoEvent) (s : Echo) : Decidable (Ended h s) := inferInstanceAs (Decidable (_ ∧ _))

/-- **The end of an echo is not dropped** in the runs whose falling edges find `ECHO_WAIT` set. -/
theorem echo_end_kept {h : List EchoEvent} {s : Echo} (hr : RunIf Echo.step Marked init h s) (he : Ended h s) :
    s.bit .done = true := by
  obtain ⟨hwait, hfallen, hflag, hisr, hc⟩ := he
  rcases phase hr with hrest | ⟨⟨-, -, -, hf⟩, hb⟩
  · refine hrest.told hwait ?_
    rcases hdue : due h with _ | _
    · rfl
    · exact absurd ((hrest.expected hdue).2.2.symm.trans hfallen) Bool.false_ne_true
  have hup : s.gpioA2 ≠ 2 := fun h2 => absurd ((hf h2).symm.trans hfallen) Bool.false_ne_true
  rcases hb with ⟨⟨h2, -⟩ | ⟨-, hserve⟩, -, -⟩ | ⟨-, hne, -⟩ | ⟨⟨h2, -⟩ | ⟨-, hserve⟩, -, -⟩ | ⟨-, hne, -⟩
  · exact absurd h2 hup
  · rw [hflag, hisr] at hserve
    simp at hserve
  · rw [hc] at hne
    cases hne
  · exact absurd h2 hup
  · rw [hflag, hisr] at hserve
    cases hserve
  · rw [hc] at hne
    cases hne

/-- `Answered`, decided. -/
def answered (h : List EchoEvent) (_s : Echo) : EchoEvent → Bool
  | .rise => due h
  | .otherPins _ => false
  | _ => true

theorem answered_sound (h : List EchoEvent) (s : Echo) (e : EchoEvent) (hok : answered h s e = true) :
    Answered h s e := by
  cases e with
  | rise => exact hok
  | otherPins pins => cases hok
  | _ => trivial

/-- `Marked`, decided. -/
def marked (h : List EchoEvent) (s : Echo) (e : EchoEvent) : Bool := answered h s e && e != .isrIgnore

theorem marked_sound (h : List EchoEvent) (s : Echo) (e : EchoEvent) (hok : marked h s e = true) : Marked h s e := by
  simp only [marked, Bool.and_eq_true, bne_iff_ne] at hok
  exact ⟨answered_sound h s e hok.1, hok.2⟩

/-- A trigger, and the rising edge served. -/
def echoBegins : List EchoEvent := [.getBits, .trigger, .triggerEnd, .rise, .isrEnter, .isrRise]

/-- The timer task marks the edge before the falling one comes. -/
def echoInTime : List EchoEvent := echoBegins ++ [.command, .fall, .isrEnter, .isrCapture 20000, .command, .command]

/-- The falling edge comes first. -/
def echoTooEarly : List EchoEvent := echoBegins ++ [.fall, .isrEnter, .isrIgnore, .command]

theorem echo_end_kept_inTime : ∃ h s, RunIf Echo.step Marked init h s ∧ Ended h s ∧ s.bit .done = true := by
  obtain ⟨h, s, hr, hw⟩ := exists_runIf Echo.step init echoInTime (fun r => decide (Ended r.1 r.2)) (b := true)
    marked_sound (by decide +kernel)
  have he : Ended h s := of_decide_eq_true hw
  exact ⟨h, s, hr, he, echo_end_kept hr he⟩

/-- An echo that ends before the timer task has marked its beginning is dropped, and the reading task waits for ever. -/
theorem echoTooEarly_dropped :
    ¬∀ h s, RunIf Echo.step Answered init h s → Ended h s → s.bit .done = true := by
  intro hall
  obtain ⟨h, s, hr, hw⟩ := exists_runIf Echo.step init echoTooEarly (fun r => (decide (Ended r.1 r.2), r.2.bit .done))
    (b := (true, false)) answered_sound (by decide +kernel)
  obtain ⟨he, hdone⟩ := Prod.mk.inj hw
  exact absurd ((hall h s hr (of_decide_eq_true he)).symm.trans hdone) (by simp)

end Echo

end Thronix
