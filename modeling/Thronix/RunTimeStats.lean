import Thronix.Lib.Runs
import Mathlib.Data.List.Count
import Mathlib.Data.Nat.Bitwise

/-!
# Thronix.RunTimeStats — the counter of the run-time statistics

`utils/RunTimeStatsConfig.c`.  A timer of 32 bits counts down, and `RunTimeStatsTimerHandler` counts how often it has
wrapped.  `GetOverflowCounts` reads the one and the other and puts the value together: the ticks divided by 1024, in 32
bits.

* `State`, `step`: the timer, its interrupt, and a call after the other.  C leaves open which of the two is read first.
* `Result.Accurate`: a value is the one of a moment during the call.
* `Served`: what has been read of the two belongs together.
* `counter_accurate`: calls that read so are accurate and do not jump; of calls that are shorter than a turn of the
  timer, only these.
-/

namespace Thronix

open Lib

namespace RunTimeStats

/-! ## The two parts of the value -/

/-- `MAP_TimerValueGet`, the given number of ticks after `vConfigureTimerForRunTimeStats`. -/
def timerValueGet (ticks : ℕ) : BitVec 32 := 0xFFFFFFFF#32 - BitVec.ofNat 32 ticks

/-- The value that `GetOverflowCounts` makes of the timer and `g_TimerStats`. -/
def getOverflowCounts (timer timerStats : BitVec 32) : BitVec 32 :=
  ((0xFFFFFFFF#32 - timer) >>> 10) ||| (timerStats <<< 22)

theorem getOverflowCounts_toNat (ticks k : ℕ) :
    (getOverflowCounts (timerValueGet ticks) (BitVec.ofNat 32 k)).toNat =
      2 ^ 22 * (k % 1024) + ticks % 2 ^ 32 / 1024 := by
  have hlow : 0xFFFFFFFF#32 - timerValueGet ticks = BitVec.ofNat 32 ticks := by
    unfold timerValueGet
    bv_omega
  have hlt : ticks % 2 ^ 32 / 1024 < 2 ^ 22 := by omega
  have hhigh : k % 2 ^ 32 * 2 ^ 22 % 2 ^ 32 = 2 ^ 22 * (k % 1024) := by omega
  rw [getOverflowCounts, hlow, BitVec.toNat_or, BitVec.toNat_ushiftRight, BitVec.toNat_shiftLeft, BitVec.toNat_ofNat,
    BitVec.toNat_ofNat, Nat.shiftRight_eq_div_pow, Nat.shiftLeft_eq, hhigh, Nat.or_comm]
  exact (Nat.two_pow_add_eq_or_of_lt hlt _).symm

/-! ## The timer, its interrupt and the calls -/

inductive Event
  | tick
  /-- `RunTimeStatsTimerHandler`. -/
  | handler
  /-- `GetOverflowCounts` is called. -/
  | call
  | readTimer
  | readStats
  | ret
  deriving DecidableEq, Repr

/-- A call: when it began, and what it has read. -/
structure Call where
  start : ℕ
  timer : Option (BitVec 32)
  stats : Option (BitVec 32)
  deriving DecidableEq, Repr

structure Result where
  start : ℕ
  finish : ℕ
  value : BitVec 32
  deriving DecidableEq, Repr

structure State where
  /-- Since `vConfigureTimerForRunTimeStats`. -/
  ticks : ℕ
  /-- `g_TimerStats`. -/
  timerStats : BitVec 32
  /-- The timer has wrapped, and the handler has not run yet. -/
  pending : Bool
  /-- The calls do not overlap: they are made by the scheduler, or by a task that has suspended it. -/
  call : Option Call
  /-- What the calls returned, the first one first. -/
  results : List Result
  deriving DecidableEq, Repr

def init : State := ⟨0, 0, false, none, []⟩

/-- The tick after which the timer is at 0xFFFFFFFF again. -/
def Wraps (ticks : ℕ) : Prop := (ticks + 1) % 2 ^ 32 = 0

instance (ticks : ℕ) : Decidable (Wraps ticks) := inferInstanceAs (Decidable ((ticks + 1) % 2 ^ 32 = 0))

def step (s : State) : Event → Option State
  | .tick =>
    -- the handler runs before the next wrap
    if Wraps s.ticks then
      if s.pending then none else some { s with ticks := s.ticks + 1, pending := true }
    else some { s with ticks := s.ticks + 1 }
  | .handler => if s.pending then some { s with timerStats := s.timerStats + 1, pending := false } else none
  | .call => if s.call = none then some { s with call := some ⟨s.ticks, none, none⟩ } else none
  | .readTimer => do
    let c ← s.call
    if c.timer = none then some { s with call := some { c with timer := some (timerValueGet s.ticks) } } else none
  | .readStats => do
    let c ← s.call
    if c.stats = none then some { s with call := some { c with stats := some s.timerStats } } else none
  | .ret => do
    let c ← s.call
    let timer ← c.timer
    let stats ← c.stats
    some { s with call := none, results := s.results ++ [⟨c.start, s.ticks, getOverflowCounts timer stats⟩] }

section Steps

variable {s s' : State}

theorem step_tick (h : step s .tick = some s') :
    s' = { s with ticks := s.ticks + 1, pending := s.pending || decide (Wraps s.ticks) } ∧
      ¬(Wraps s.ticks ∧ s.pending = true) := by
  simp only [step] at h
  by_cases hwraps : Wraps s.ticks
  · rw [if_pos hwraps] at h
    by_cases hpending : s.pending = true
    · rw [if_pos hpending] at h
      cases h
    · rw [if_neg hpending] at h
      cases h
      exact ⟨by simp [hwraps], fun hboth => hpending hboth.2⟩
  · rw [if_neg hwraps] at h
    cases h
    exact ⟨by simp [hwraps], fun hboth => hwraps hboth.1⟩

theorem step_handler (h : step s .handler = some s') :
    s.pending = true ∧ s' = { s with timerStats := s.timerStats + 1, pending := false } := guard_eq_some.mp h

theorem step_call (h : step s .call = some s') :
    s.call = none ∧ s' = { s with call := some ⟨s.ticks, none, none⟩ } := guard_eq_some.mp h

theorem step_readTimer (h : step s .readTimer = some s') :
    ∃ c, s.call = some c ∧ s' = { s with call := some { c with timer := some (timerValueGet s.ticks) } } := by
  simp only [step, Option.bind_eq_bind] at h
  obtain ⟨c, hc, h⟩ := Option.bind_eq_some_iff.mp h
  exact ⟨c, hc, (guard_eq_some.mp h).2⟩

theorem step_readStats (h : step s .readStats = some s') :
    ∃ c, s.call = some c ∧ s' = { s with call := some { c with stats := some s.timerStats } } := by
  simp only [step, Option.bind_eq_bind] at h
  obtain ⟨c, hc, h⟩ := Option.bind_eq_some_iff.mp h
  exact ⟨c, hc, (guard_eq_some.mp h).2⟩

theorem step_ret (h : step s .ret = some s') :
    ∃ c timer stats, s.call = some c ∧ c.timer = some timer ∧ c.stats = some stats ∧
      s' = { s with
        call := none
        results := s.results ++ [⟨c.start, s.ticks, getOverflowCounts timer stats⟩] } := by
  simp only [step, Option.bind_eq_bind] at h
  obtain ⟨c, hc, h⟩ := Option.bind_eq_some_iff.mp h
  obtain ⟨timer, htimer, h⟩ := Option.bind_eq_some_iff.mp h
  obtain ⟨stats, hstats, h⟩ := Option.bind_eq_some_iff.mp h
  exact ⟨c, timer, stats, hc, htimer, hstats, (Option.some.inj h).symm⟩

/-- Only a call that returns has a result. -/
theorem step_results {e : Event} (h : step s e = some s') (he : e ≠ .ret) : s'.results = s.results := by
  cases e with
  | tick => rw [(step_tick h).1]
  | handler => rw [(step_handler h).2]
  | call => rw [(step_call h).2]
  | readTimer =>
    obtain ⟨c, -, rfl⟩ := step_readTimer h
    rfl
  | readStats =>
    obtain ⟨c, -, rfl⟩ := step_readStats h
    rfl
  | ret => exact absurd rfl he

end Steps

/-! ## What is counted and what is read -/

/-- How often the timer has wrapped. -/
def wraps (h : List Event) : ℕ := h.count .tick / 2 ^ 32

/-- What had happened when the call read the timer. -/
def atTimer (h : List Event) : List Event := before (· == .readTimer) h

/-- What had happened when it read `g_TimerStats`. -/
def atStats (h : List Event) : List Event := before (· == .readStats) h

section Reads

variable {h : List Event} {e : Event}

theorem atTimer_read (h : List Event) : atTimer (.readTimer :: h) = h := before_cons_of_pos rfl h

theorem atTimer_cons (he : e ≠ .readTimer) (h : List Event) : atTimer (e :: h) = atTimer h := by
  have hq : (e == Event.readTimer) = false := beq_false_of_ne he
  exact before_cons_of_neg (q := fun a => a == Event.readTimer) hq h

theorem atStats_read (h : List Event) : atStats (.readStats :: h) = h := before_cons_of_pos rfl h

theorem atStats_cons (he : e ≠ .readStats) (h : List Event) : atStats (e :: h) = atStats h := by
  have hq : (e == Event.readStats) = false := beq_false_of_ne he
  exact before_cons_of_neg (q := fun a => a == Event.readStats) hq h

end Reads

structure Counts (h : List Event) (s : State) : Prop where
  ticks_eq : s.ticks = h.count .tick
  stats_eq : s.timerStats = BitVec.ofNat 32 (h.count .handler)
  /-- Every wrap but the one that is pending has been counted. -/
  handler_eq : h.count .handler + s.pending.toNat = wraps h

section Counts

variable {h : List Event} {s s' : State} {e : Event}

theorem wraps_tick (h : List Event) : wraps (.tick :: h) = wraps h + (decide (Wraps (h.count .tick))).toNat := by
  unfold wraps
  rw [List.count_cons_self]
  by_cases hwraps : Wraps (h.count .tick)
  · rw [decide_eq_true hwraps, Bool.toNat_true]
    unfold Wraps at hwraps
    omega
  · rw [decide_eq_false hwraps, Bool.toNat_false]
    unfold Wraps at hwraps
    omega

theorem wraps_cons (he : e ≠ .tick) (h : List Event) : wraps (e :: h) = wraps h := by
  rw [wraps, List.count_cons_of_ne he, wraps]

/-- Neither the timer nor its handler: the call goes on. -/
theorem Counts.keep (hc : Counts h s) (htick : e ≠ .tick) (hhandler : e ≠ .handler) (call : Option Call)
    (results : List Result) : Counts (e :: h) { s with call := call, results := results } where
  ticks_eq := by rw [List.count_cons_of_ne htick, ← hc.ticks_eq]
  stats_eq := by rw [List.count_cons_of_ne hhandler, ← hc.stats_eq]
  handler_eq := by rw [List.count_cons_of_ne hhandler, wraps_cons htick, ← hc.handler_eq]

theorem Counts.step (hc : Counts h s) (he : step s e = some s') : Counts (e :: h) s' := by
  cases e with
  | tick =>
    obtain ⟨rfl, hnext⟩ := step_tick he
    refine ⟨?_, ?_, ?_⟩
    · rw [List.count_cons_self, ← hc.ticks_eq]
    · rw [List.count_cons_of_ne (by decide), ← hc.stats_eq]
    · have hor : (s.pending || decide (Wraps s.ticks)).toNat = s.pending.toNat + (decide (Wraps s.ticks)).toNat := by
        by_cases hwraps : Wraps s.ticks
        · have hserved : s.pending = false := by simpa [hwraps] using hnext
          simp [hserved]
        · simp [hwraps]
      rw [List.count_cons_of_ne (by decide), wraps_tick, ← hc.handler_eq, hor, ← hc.ticks_eq, Nat.add_assoc]
  | handler =>
    obtain ⟨hpending, rfl⟩ := step_handler he
    refine ⟨?_, ?_, ?_⟩
    · rw [List.count_cons_of_ne (by decide), ← hc.ticks_eq]
    · rw [List.count_cons_self, BitVec.ofNat_add, ← hc.stats_eq]
      rfl
    · rw [List.count_cons_self, wraps_cons (by decide), ← hc.handler_eq, hpending]
      rfl
  | call =>
    obtain ⟨-, rfl⟩ := step_call he
    exact hc.keep (by decide) (by decide) _ _
  | readTimer =>
    obtain ⟨c, -, rfl⟩ := step_readTimer he
    exact hc.keep (by decide) (by decide) _ _
  | readStats =>
    obtain ⟨c, -, rfl⟩ := step_readStats he
    exact hc.keep (by decide) (by decide) _ _
  | ret =>
    obtain ⟨c, timer, stats, -, -, -, rfl⟩ := step_ret he
    exact hc.keep (by decide) (by decide) _ _

end Counts

theorem counts {h : List Event} {s : State} (hr : Run step init h s) : Counts h s :=
  RunIf.inv ⟨rfl, rfl, rfl⟩ (fun _ _ _ _ _ hc _ he => hc.step he) hr

/-- What a call has read so far is what there was. -/
structure Call.Reads (h : List Event) (ticks : ℕ) (c : Call) : Prop where
  start_le : c.start ≤ ticks
  timer_eq : ∀ v, c.timer = some v → c.start ≤ (atTimer h).count .tick ∧ (atTimer h).count .tick ≤ ticks ∧
    v = timerValueGet ((atTimer h).count .tick)
  stats_eq : ∀ v, c.stats = some v → v = BitVec.ofNat 32 ((atStats h).count .handler)

namespace Call.Reads

variable {h : List Event} {ticks ticks' : ℕ} {c : Call} {e : Event}

theorem begins (h : List Event) (ticks : ℕ) : Call.Reads h ticks ⟨ticks, none, none⟩ where
  start_le := le_refl ticks
  timer_eq _ hv := by cases hv
  stats_eq _ hv := by cases hv

theorem goesOn (hc : c.Reads h ticks) (hle : ticks ≤ ticks') (htimer : e ≠ .readTimer) (hstats : e ≠ .readStats) :
    c.Reads (e :: h) ticks' where
  start_le := hc.start_le.trans hle
  timer_eq v hv := by
    obtain ⟨hstart, hnow, hread⟩ := hc.timer_eq v hv
    rw [atTimer_cons htimer]
    exact ⟨hstart, hnow.trans hle, hread⟩
  stats_eq v hv := by
    rw [atStats_cons hstats]
    exact hc.stats_eq v hv

theorem readTimer (hc : c.Reads h ticks) (hticks : ticks = h.count .tick) :
    Call.Reads (.readTimer :: h) ticks { c with timer := some (timerValueGet ticks) } where
  start_le := hc.start_le
  timer_eq v hv := by
    rw [atTimer_read, ← hticks]
    exact ⟨hc.start_le, le_refl ticks, (Option.some.inj hv).symm⟩
  stats_eq v hv := by
    rw [atStats_cons (by decide)]
    exact hc.stats_eq v hv

theorem readStats (hc : c.Reads h ticks) {stats : BitVec 32} (hstats : stats = BitVec.ofNat 32 (h.count .handler)) :
    Call.Reads (.readStats :: h) ticks { c with stats := some stats } where
  start_le := hc.start_le
  timer_eq v hv := by
    rw [atTimer_cons (by decide)]
    exact hc.timer_eq v hv
  stats_eq v hv := by
    rw [atStats_read, ← hstats]
    exact (Option.some.inj hv).symm

end Call.Reads

section Runs

variable {h : List Event} {s s' : State} {e : Event}

theorem reads (hr : Run step init h s) : ∀ c, s.call = some c → c.Reads h s.ticks := by
  refine RunIf.inv (I := fun h s => ∀ c, s.call = some c → c.Reads h s.ticks) ?_ ?_ hr
  · intro c hc
    cases hc
  · intro h s e s' hr ih _ he c hc
    have hcounts := counts hr
    cases e with
    | tick =>
      obtain ⟨rfl, -⟩ := step_tick he
      exact (ih c hc).goesOn (Nat.le_succ _) (by decide) (by decide)
    | handler =>
      obtain ⟨-, rfl⟩ := step_handler he
      exact (ih c hc).goesOn (le_refl _) (by decide) (by decide)
    | call =>
      obtain ⟨-, rfl⟩ := step_call he
      obtain rfl := Option.some.inj hc
      exact .begins _ _
    | readTimer =>
      obtain ⟨c, hold, rfl⟩ := step_readTimer he
      obtain rfl := Option.some.inj hc
      exact (ih c hold).readTimer hcounts.ticks_eq
    | readStats =>
      obtain ⟨c, hold, rfl⟩ := step_readStats he
      obtain rfl := Option.some.inj hc
      exact (ih c hold).readStats hcounts.stats_eq
    | ret =>
      obtain ⟨c, timer, stats, -, -, -, rfl⟩ := step_ret he
      cases hc

/-- A call begins after the one before it. -/
structure Ordered (s : State) : Prop where
  finish_le : ∀ r ∈ s.results, r.finish ≤ s.ticks
  le_start : ∀ r ∈ s.results, ∀ c, s.call = some c → r.finish ≤ c.start
  pairwise : s.results.Pairwise fun a b => a.finish ≤ b.start

/-- The call in progress reads something. -/
theorem Ordered.read (ho : Ordered s) {c c' : Call} (hold : s.call = some c) (hstart : c'.start = c.start) :
    Ordered { s with call := some c' } := by
  refine ⟨ho.finish_le, ?_, ho.pairwise⟩
  intro r hr c₁ hc₁
  obtain rfl := Option.some.inj hc₁
  rw [hstart]
  exact ho.le_start r hr c hold

theorem Ordered.step (ho : Ordered s) (he : step s e = some s') : Ordered s' := by
  cases e with
  | tick =>
    obtain ⟨rfl, -⟩ := step_tick he
    exact ⟨fun r hr => Nat.le_succ_of_le (ho.finish_le r hr), ho.le_start, ho.pairwise⟩
  | handler =>
    obtain ⟨-, rfl⟩ := step_handler he
    exact ⟨ho.finish_le, ho.le_start, ho.pairwise⟩
  | call =>
    obtain ⟨-, rfl⟩ := step_call he
    refine ⟨ho.finish_le, ?_, ho.pairwise⟩
    intro r hr c hc
    obtain rfl := Option.some.inj hc
    exact ho.finish_le r hr
  | readTimer =>
    obtain ⟨c, hold, rfl⟩ := step_readTimer he
    exact ho.read hold rfl
  | readStats =>
    obtain ⟨c, hold, rfl⟩ := step_readStats he
    exact ho.read hold rfl
  | ret =>
    obtain ⟨c, timer, stats, hold, -, -, rfl⟩ := step_ret he
    refine ⟨?_, ?_, ?_⟩
    · intro r hr
      rcases List.mem_append.mp hr with hr | hr
      · exact ho.finish_le r hr
      · rw [List.mem_singleton.mp hr]
    · intro r _ c' hc'
      cases hc'
    · refine List.pairwise_append.mpr ⟨ho.pairwise, List.pairwise_singleton _ _, ?_⟩
      intro a ha b hb
      rw [List.mem_singleton.mp hb]
      exact ho.le_start a ha c hold

theorem ordered (hr : Run step init h s) : Ordered s := by
  refine RunIf.inv (I := fun _ s => Ordered s) ?_ (fun _ _ _ _ _ ho _ he => ho.step he) hr
  exact ⟨fun r hr => absurd hr List.not_mem_nil, fun r hr => absurd hr List.not_mem_nil, List.Pairwise.nil⟩

end Runs

/-! ## Accurate results -/

/-- The value is the one of a moment during the call. -/
def Result.Accurate (r : Result) : Prop := ∃ T, r.start ≤ T ∧ T ≤ r.finish ∧ r.value.toNat = T / 1024 % 2 ^ 32

/-- The later value is not less, unless the counter of 32 bits has begun again. -/
def Result.NoJump (a b : Result) : Prop := a.value ≤ b.value ∨ a.start / 2 ^ 42 < b.finish / 2 ^ 42

/-- At the end of a call: as many wraps were counted when it read `g_TimerStats` as there had been when it read the
timer, but for a multiple of 1024. -/
def Served (h : List Event) : Prop := (atStats h).count .handler % 1024 = wraps (atTimer h) % 1024

/-- Every call that returns has read what belongs together. -/
def Serves (h : List Event) (_ : State) (e : Event) : Prop := e = .ret → Served h

instance (h : List Event) (s : State) (e : Event) : Decidable (Serves h s e) :=
  inferInstanceAs (Decidable (e = .ret → (atStats h).count .handler % 1024 = wraps (atTimer h) % 1024))

theorem noJump_of_accurate {a b : Result} (ha : a.Accurate) (hb : b.Accurate) (hab : a.finish ≤ b.start) :
    a.NoJump b := by
  obtain ⟨Ta, hsa, hfa, hva⟩ := ha
  obtain ⟨Tb, hsb, hfb, hvb⟩ := hb
  by_cases hturn : a.start / 2 ^ 42 < b.finish / 2 ^ 42
  · exact .inr hturn
  · left
    have hle : Ta ≤ Tb := by omega
    have hsame : Ta / 2 ^ 42 = Tb / 2 ^ 42 := by omega
    rw [BitVec.le_def, hva, hvb]
    omega

theorem value_eq_iff {ticks k : ℕ} :
    (getOverflowCounts (timerValueGet ticks) (BitVec.ofNat 32 k)).toNat = ticks / 1024 % 2 ^ 32 ↔
      k % 1024 = ticks / 2 ^ 32 % 1024 := by
  rw [getOverflowCounts_toNat]
  omega

section Runs

variable {h : List Event} {s s' : State}

/-- The result of a call is accurate if what it has read belongs together.  A call that is shorter than a turn of the
timer has no other way. -/
theorem step_ret_accurate (hr : Run step init h s) (he : step s .ret = some s') :
    ∃ r : Result, s'.results = s.results ++ [r] ∧ (Served h → r.Accurate) ∧
      (r.finish ≤ r.start + (2 ^ 32 - 1024) → r.Accurate → Served h) := by
  obtain ⟨c, timer, stats, hc, htimer, hstats, rfl⟩ := step_ret he
  have hreads := reads hr c hc
  obtain ⟨hstart, hfinish, rfl⟩ := hreads.timer_eq timer htimer
  obtain rfl := hreads.stats_eq stats hstats
  refine ⟨_, rfl, ?_, ?_⟩
  · intro hserved
    exact ⟨_, hstart, hfinish, value_eq_iff.mpr hserved⟩
  · rintro hshort ⟨T, hT, hT', hvalue⟩
    dsimp only at hshort hT hT' hvalue
    have hparts := hvalue
    rw [getOverflowCounts_toNat] at hparts
    -- less than a turn apart, and the same part of the turn in their values
    have hsame : T / 1024 = (atTimer h).count .tick / 1024 := by omega
    rw [hsame] at hvalue
    exact value_eq_iff.mp hvalue

theorem accurate_of_serves (hr : RunIf step Serves init h s) : ∀ r ∈ s.results, r.Accurate := by
  refine RunIf.inv (I := fun _ s => ∀ r ∈ s.results, r.Accurate) ?_ ?_ hr
  · intro r hr
    cases hr
  · intro h s e s' hr ih hok he r hmem
    by_cases hret : e = .ret
    · rw [hret] at he
      obtain ⟨r', hresults, hacc, -⟩ := step_ret_accurate hr.run he
      rw [hresults] at hmem
      rcases List.mem_append.mp hmem with hmem | hmem
      · exact ih r hmem
      · rw [List.mem_singleton.mp hmem]
        exact hacc (hok hret)
    · rw [step_results he hret] at hmem
      exact ih r hmem

theorem serves_of_accurate (hr : Run step init h s) : (∀ r ∈ s.results, r.finish ≤ r.start + (2 ^ 32 - 1024)) →
    (∀ r ∈ s.results, r.Accurate) → RunIf step Serves init h s := by
  refine RunIf.inv (I := fun h s => (∀ r ∈ s.results, r.finish ≤ r.start + (2 ^ 32 - 1024)) →
    (∀ r ∈ s.results, r.Accurate) → RunIf step Serves init h s) ?_ ?_ hr
  · intro _ _
    exact .start
  · intro h s e s' hr ih _ he hshort hacc
    by_cases hret : e = .ret
    · rw [hret] at he ⊢
      obtain ⟨r', hresults, -, hserved⟩ := step_ret_accurate hr he
      rw [hresults] at hshort hacc
      have hlast : r' ∈ s.results ++ [r'] := List.mem_concat_self
      have hold := ih (fun r hr => hshort r (List.mem_append_left _ hr)) fun r hr => hacc r (List.mem_append_left _ hr)
      exact .snoc hold (fun _ => hserved (hshort r' hlast) (hacc r' hlast)) he
    · rw [step_results he hret] at hshort hacc
      exact .snoc (ih hshort hacc) (fun h => absurd h hret) he

/-- What is read belongs together if no wrap is between the reads, and none is pending when `g_TimerStats` is read. -/
theorem served_of_calm (hr : Run step init (atStats h) s) (hpending : s.pending = false)
    (hwraps : wraps (atStats h) = wraps (atTimer h)) : Served h := by
  have hcounted := (counts hr).handler_eq
  rw [hpending, Bool.toNat_false, Nat.add_zero, hwraps] at hcounted
  rw [Served, hcounted]

/-- **The counter**: in a run whose calls have read what belongs together, the results are those of moments during the
calls, and they do not jump.  If no call takes a turn of the timer, the results of other runs are not. -/
theorem counter_accurate (hr : Run step init h s) :
    (RunIf step Serves init h s → (∀ r ∈ s.results, r.Accurate) ∧ s.results.Pairwise Result.NoJump) ∧
      ((∀ r ∈ s.results, r.finish ≤ r.start + (2 ^ 32 - 1024)) → (∀ r ∈ s.results, r.Accurate) →
        RunIf step Serves init h s) := by
  refine ⟨fun hserves => ?_, serves_of_accurate hr⟩
  have hacc := accurate_of_serves hserves
  refine ⟨hacc, (ordered hr).pairwise.imp_of_mem ?_⟩
  intro a b ha hb hab
  exact noJump_of_accurate (hacc a ha) (hacc b hb) hab

end Runs

/-! ## A wrap between two calls -/

section Calm

variable {h : List Event} {s : State}

/-- Up to its last tick the timer only counts. -/
theorem run_ticks {ok : List Event → State → Event → Prop} (hok : ∀ h s, ok h s .tick) {n : ℕ} (hn : n < 2 ^ 32) :
    RunIf step ok init (List.replicate n .tick) { init with ticks := n } := by
  induction n with
  | zero => exact .start
  | succ n ih =>
    have hwraps : ¬Wraps n := by
      unfold Wraps
      omega
    rw [List.replicate_succ]
    refine .snoc (ih (by omega)) (hok _ _) ?_
    simp only [step, if_neg hwraps]

/-- A call between two ticks reads what belongs together if the handler has counted every wrap. -/
theorem runIf_call (hr : RunIf step Serves init h s) (hpending : s.pending = false) (hcall : s.call = none) :
    RunIf step Serves init (.ret :: .readStats :: .readTimer :: .call :: h)
      { s with
        call := none
        results := s.results ++ [⟨s.ticks, s.ticks, getOverflowCounts (timerValueGet s.ticks) s.timerStats⟩] } := by
  have hbegun : RunIf step Serves init (.call :: h) { s with call := some ⟨s.ticks, none, none⟩ } := by
    refine .snoc hr (fun h => nomatch h) ?_
    simp only [step, if_pos hcall]
  have htimer : RunIf step Serves init (.readTimer :: .call :: h)
      { s with call := some ⟨s.ticks, some (timerValueGet s.ticks), none⟩ } :=
    .snoc hbegun (fun h => nomatch h) rfl
  have hstats := RunIf.snoc htimer (e := .readStats) (fun h => nomatch h) rfl
  have hserved : Served (.readStats :: .readTimer :: .call :: h) := by
    have hread := htimer.run
    rw [← atStats_read (.readTimer :: .call :: h)] at hread
    refine served_of_calm hread hpending ?_
    rw [atStats_read, atTimer_cons (by decide), atTimer_read, wraps_cons (by decide)]
  exact .snoc hstats (fun _ => hserved) rfl

end Calm

theorem counter_accurate_wrapped : ∃ h s, RunIf step Serves init h s ∧
    s.results = [⟨2 ^ 32 - 1, 2 ^ 32 - 1, 0x3FFFFF⟩, ⟨2 ^ 32, 2 ^ 32, 0x400000⟩] ∧
    (∀ r ∈ s.results, r.Accurate) ∧ s.results.Pairwise Result.NoJump := by
  have hlast : RunIf step Serves init _ { init with ticks := 2 ^ 32 - 1 } :=
    run_ticks (fun _ _ h => nomatch h) (by decide)
  have hfirst := runIf_call hlast rfl rfl
  have hwrap := RunIf.snoc hfirst (e := .tick) (fun h => nomatch h) rfl
  have hhandler := RunIf.snoc hwrap (e := .handler) (fun h => nomatch h) rfl
  have hsecond := runIf_call hhandler rfl rfl
  exact ⟨_, _, hsecond, rfl, (counter_accurate hsecond.run).1 hsecond⟩

/-! ## A wrap between the reads -/

/-- The timer is read at its last tick, and `g_TimerStats` when the handler has run.  The value is that of a whole turn
later, and the next one is less. -/
theorem counter_jumps : ∃ h s, Run step init h s ∧
    s.results = [⟨2 ^ 32 - 1, 2 ^ 32, 0x7FFFFF⟩, ⟨2 ^ 32, 2 ^ 32, 0x400000⟩] ∧
    ¬(∀ r ∈ s.results, r.Accurate) ∧ ¬s.results.Pairwise Result.NoJump := by
  have hexec : ∀ h₀ : List Event, ∃ h s, exec step (fun _ _ _ => true) h₀ { init with ticks := 2 ^ 32 - 1 }
      [.call, .readTimer, .tick, .handler, .readStats, .ret, .call, .readTimer, .readStats, .ret] = some (h, s) ∧
      s.results = [⟨2 ^ 32 - 1, 2 ^ 32, 0x7FFFFF⟩, ⟨2 ^ 32, 2 ^ 32, 0x400000⟩] := by
    intro h₀
    exact ⟨_, _, rfl, rfl⟩
  obtain ⟨h, s, he, hresults⟩ := hexec (List.replicate (2 ^ 32 - 1) .tick)
  have hr : Run step init h s := runIf_of_exec (fun _ _ _ _ => trivial) (run_ticks (fun _ _ => trivial) (by decide)) he
  refine ⟨h, s, hr, hresults, ?_, ?_⟩
  · intro hacc
    rw [hresults] at hacc
    obtain ⟨T, hstart, hfinish, hvalue⟩ := hacc _ List.mem_cons_self
    have hnat : (0x7FFFFF : BitVec 32).toNat = 0x7FFFFF := rfl
    dsimp only at hstart hfinish hvalue
    omega
  · intro hpair
    rw [hresults] at hpair
    rcases (List.pairwise_cons.mp hpair).1 _ List.mem_cons_self with hle | hturn
    · revert hle
      decide
    · revert hturn
      decide

end RunTimeStats

end Thronix
