import Thronix.Lib.Runs

/-!
# Thronix.Lib.Traces — what a run does, seen from outside

* `trace step act s₀ h`: what the events of the history `h` do, as `act` tells it from the state each of them meets,
  **newest first**.  `RunIf.trace_cons` takes it one event further.
* `RunIf.simulate`: if every step does nothing that is seen, or a step of a second system, then what a run does is a
  run of that system.
* `Each P l`: every action of `l` is as `P` allows it behind the older ones.
-/

namespace Thronix.Lib

variable {σ ε α : Type}

section Trace

variable (step : σ → ε → Option σ) (act : σ → ε → Option α) (s₀ : σ)

/-- The state that a history leads to. -/
def after : List ε → Option σ
  | [] => some s₀
  | e :: h => (after h).bind fun s => step s e

def trace : List ε → List α
  | [] => []
  | e :: h => ((after step s₀ h).bind fun s => act s e).toList ++ trace h

variable {step s₀} {ok : List ε → σ → ε → Prop} {h : List ε} {s : σ}

theorem RunIf.after (hr : RunIf step ok s₀ h s) : after step s₀ h = some s := by
  induction hr with
  | start => rfl
  | snoc hr hok he ih =>
    rw [Thronix.Lib.after, ih]
    exact he

theorem RunIf.trace_cons (hr : RunIf step ok s₀ h s) (e : ε) :
    trace step act s₀ (e :: h) = (act s e).toList ++ trace step act s₀ h := by
  rw [trace, hr.after]
  rfl

/-- What is seen has been done by one of the events. -/
theorem mem_trace {a : α} (h : List ε) (ha : a ∈ trace step act s₀ h) : ∃ s, ∃ e ∈ h, act s e = some a := by
  induction h with
  | nil => exact absurd ha List.not_mem_nil
  | cons e h ih =>
    rw [trace] at ha
    rcases List.mem_append.mp ha with hnew | hold
    · obtain ⟨s, -, hact⟩ := Option.bind_eq_some_iff.mp (Option.mem_toList.mp hnew)
      exact ⟨s, e, List.mem_cons_self, hact⟩
    · obtain ⟨s, e', he', hact⟩ := ih hold
      exact ⟨s, e', List.mem_cons_of_mem e he', hact⟩

/-- **Simulation rule**. -/
theorem RunIf.simulate {τ : Type} {astep : τ → α → Option τ} {t₀ : τ} {R : σ → τ → Prop} (h0 : R s₀ t₀)
    (hs : ∀ h s e s' t, RunIf step ok s₀ h s → R s t → ok h s e → step s e = some s' →
      (act s e = none ∧ R s' t) ∨ ∃ a t', act s e = some a ∧ astep t a = some t' ∧ R s' t') :
    ∀ {h s}, RunIf step ok s₀ h s → ∃ t, Run astep t₀ (trace step act s₀ h) t ∧ R s t := by
  intro h s hr
  induction hr with
  | start => exact ⟨t₀, .start, h0⟩
  | @snoc h s s' e hr hok he ih =>
    obtain ⟨t, ht, hR⟩ := ih
    rw [hr.trace_cons]
    rcases hs h s e s' t hr hR hok he with ⟨hact, hR'⟩ | ⟨a, t', hact, hstep, hR'⟩
    · rw [hact]
      exact ⟨t, ht, hR'⟩
    · rw [hact]
      exact ⟨t', .snoc ht trivial hstep, hR'⟩

end Trace

section Each

/-- Every action is allowed behind the older ones. -/
def Each (P : List α → α → Prop) : List α → Prop
  | [] => True
  | a :: l => P l a ∧ Each P l

variable {P : List α → α → Prop} {a : α} {l : List α}

theorem Each.of_append {post pre : List α} (h : Each P (post ++ a :: pre)) : P pre a := by
  induction post with
  | nil => exact h.1
  | cons b post ih => exact ih h.2

theorem Each.suffix {post pre : List α} (h : Each P (post ++ a :: pre)) : Each P pre := by
  induction post with
  | nil => exact h.2
  | cons b post ih => exact ih h.2

end Each

end Thronix.Lib
