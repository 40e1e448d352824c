import Mathlib.Data.List.Basic
import Mathlib.Data.List.TakeWhile
import Mathlib.Tactic.SplitIfs

/-!
# Thronix.Lib.Runs — runs of a labelled step function, with their history

A system is an executable step function `step : σ → ε → Option σ`: the event `e` is possible in `s` when
`step s e` is a state.  `RunIf step ok s₀ h s` says that the events of `h`, **newest first**, lead from `s₀` to
`s`, and that every one of them was admitted by `ok` at the history and the state it met.  `Run` is the run with
no condition.

* `RunIf.inv`: the one induction rule.  What holds at the start and is kept by every admitted step holds of every
  history and state reached.
* `RunIf.project`: a run seen through a projection of the states and the events is a run of the smaller system.
* `exec`, `exists_runIf`: a concrete list of events can be executed, so a run can be exhibited by evaluation.
* `since q h`, `before q h`: the events newer and older than the last `q`-event.  Invariants about "after the last
  `q`" are stated with them.
-/

namespace Thronix.Lib

variable {σ ε : Type}

/-- The events of `h` (newest first), each admitted by `ok`, lead from `s₀` to the state. -/
inductive RunIf (step : σ → ε → Option σ) (ok : List ε → σ → ε → Prop) (s₀ : σ) : List ε → σ → Prop
  | start : RunIf step ok s₀ [] s₀
  | snoc {h : List ε} {s s' : σ} {e : ε} (hr : RunIf step ok s₀ h s) (hok : ok h s e)
      (he : step s e = some s') : RunIf step ok s₀ (e :: h) s'

/-- Every event is admitted. -/
abbrev Run (step : σ → ε → Option σ) (s₀ : σ) : List ε → σ → Prop := RunIf step (fun _ _ _ => True) s₀

section Invariant

variable {step : σ → ε → Option σ} {ok : List ε → σ → ε → Prop} {s₀ : σ}

/-- **Invariant rule**: the start and every admitted step. -/
theorem RunIf.inv {I : List ε → σ → Prop} (h0 : I [] s₀)
    (hs : ∀ h s e s', RunIf step ok s₀ h s → I h s → ok h s e → step s e = some s' → I (e :: h) s') :
    ∀ {h s}, RunIf step ok s₀ h s → I h s := by
  intro h s hr
  induction hr with
  | start => exact h0
  | snoc hr hok he ih => exact hs _ _ _ _ hr ih hok he

/-- A weaker condition admits the run too. -/
theorem RunIf.mono {ok' : List ε → σ → ε → Prop} (hok : ∀ h s e, ok h s e → ok' h s e) {h : List ε} {s : σ}
    (hr : RunIf step ok s₀ h s) : RunIf step ok' s₀ h s := by
  induction hr with
  | start => exact .start
  | snoc _ h1 he ih => exact .snoc ih (hok _ _ _ h1) he

theorem RunIf.run {h : List ε} {s : σ} (hr : RunIf step ok s₀ h s) : Run step s₀ h s :=
  hr.mono fun _ _ _ _ => trivial

/-- Any older part of a run's history is the history of a run, which the newest event of the rest continues. -/
theorem RunIf.split {post pre : List ε} {e : ε} {s : σ} (hr : RunIf step ok s₀ (post ++ e :: pre) s) :
    ∃ s1 s2, RunIf step ok s₀ pre s1 ∧ ok pre s1 e ∧ step s1 e = some s2 := by
  induction post generalizing s with
  | nil =>
    cases hr with
    | snoc hr hok he => exact ⟨_, _, hr, hok, he⟩
  | cons a post ih =>
    cases hr with
    | snoc hr _ _ => exact ih hr

/-- The history of a run tells its state. -/
theorem RunIf.det {h : List ε} {s s' : σ} (hr : RunIf step ok s₀ h s) (hr' : RunIf step ok s₀ h s') : s = s' := by
  induction hr generalizing s' with
  | start =>
    cases hr'
    rfl
  | snoc _ _ he ih =>
    cases hr' with
    | snoc hr' _ he' =>
      rw [ih hr', he'] at he
      exact (Option.some.inj he).symm

end Invariant

section Projection

variable {τ α : Type} {step : σ → ε → Option σ} {ok : List ε → σ → ε → Prop} {s₀ : σ}
variable {astep : τ → α → Option τ} {aok : List α → τ → α → Prop}

/-- **Projection rule**: if every admitted event is invisible or an admitted action of the smaller system, then the
visible actions of a run are a run of the smaller system. -/
theorem RunIf.project {π : σ → τ} {act : ε → Option α}
    (hs : ∀ h s e s', RunIf step ok s₀ h s → ok h s e → step s e = some s' →
      (act e = none ∧ π s' = π s) ∨
        ∃ a, act e = some a ∧ aok (h.filterMap act) (π s) a ∧ astep (π s) a = some (π s')) :
    ∀ {h s}, RunIf step ok s₀ h s → RunIf astep aok (π s₀) (h.filterMap act) (π s) := by
  intro h s hr
  induction hr with
  | start => exact .start
  | @snoc h s s' e hr hok he ih =>
    rcases hs _ _ _ _ hr hok he with ⟨ha, hπ⟩ | ⟨a, ha, haok, hstep⟩
    · rw [List.filterMap_cons_none ha, hπ]
      exact ih
    · rw [List.filterMap_cons_some ha]
      exact .snoc ih haok hstep

end Projection

section Exec

variable (step : σ → ε → Option σ)

/-- Execute a list of events, oldest first, on top of the history `h`, each tested by `ok`. -/
def exec (ok : List ε → σ → ε → Bool) : List ε → σ → List ε → Option (List ε × σ)
  | h, s, [] => some (h, s)
  | h, s, e :: es => if ok h s e then (step s e).bind fun s' => exec ok (e :: h) s' es else none

variable {step} {s₀ : σ} {ok : List ε → σ → ε → Prop} {okb : List ε → σ → ε → Bool}

theorem runIf_of_exec (hok : ∀ h s e, okb h s e = true → ok h s e) {es : List ε} :
    ∀ {h s h' s'}, RunIf step ok s₀ h s → exec step okb h s es = some (h', s') → RunIf step ok s₀ h' s' := by
  induction es with
  | nil =>
    intro h s h' s' hr he
    simp only [exec, Option.some.injEq, Prod.mk.injEq] at he
    obtain ⟨rfl, rfl⟩ := he
    exact hr
  | cons e es ih =>
    intro h s h' s' hr he
    simp only [exec] at he
    split_ifs at he with hb
    obtain ⟨s1, h1, h2⟩ := Option.bind_eq_some_iff.mp he
    exact ih (.snoc hr (hok _ _ _ hb) h1) h2

variable (step s₀)

/-- What an execution shows of its history and its last state, shown by a run. -/
theorem exists_runIf {β : Type} (es : List ε) (f : List ε × σ → β) {b : β}
    (hok : ∀ h s e, okb h s e = true → ok h s e) (he : (exec step okb [] s₀ es).map f = some b) :
    ∃ h s, RunIf step ok s₀ h s ∧ f (h, s) = b := by
  obtain ⟨⟨h, s⟩, hexec, hf⟩ := Option.map_eq_some_iff.mp he
  exact ⟨h, s, runIf_of_exec hok .start hexec, hf⟩

theorem exists_run {β : Type} (es : List ε) (f : List ε × σ → β) {b : β}
    (he : (exec step (fun _ _ _ => true) [] s₀ es).map f = some b) : ∃ h s, Run step s₀ h s ∧ f (h, s) = b :=
  exists_runIf step s₀ es f (fun _ _ _ _ => trivial) he

/-- The history of an execution is what was executed. -/
theorem history_of_exec {es : List ε} {h h' : List ε} {s s' : σ} (he : exec step okb h s es = some (h', s')) :
    h' = es.reverse ++ h := by
  induction es generalizing h s with
  | nil =>
    simp only [exec, Option.some.injEq, Prod.mk.injEq] at he
    exact he.1.symm
  | cons e es ih =>
    simp only [exec] at he
    split_ifs at he
    obtain ⟨s1, -, h2⟩ := Option.bind_eq_some_iff.mp he
    rw [ih h2, List.reverse_cons, List.append_assoc]
    rfl

/-- A concrete list of events that can be executed is the history of a run. -/
theorem run_of_exec {β : Type} (es : List ε) (f : σ → β) {b : β}
    (he : (exec step (fun _ _ _ => true) [] s₀ es).map (fun r => f r.2) = some b) :
    ∃ s, Run step s₀ es.reverse s ∧ f s = b := by
  obtain ⟨⟨h, s⟩, hexec, hf⟩ := Option.map_eq_some_iff.mp he
  refine ⟨s, ?_, hf⟩
  have hh := history_of_exec step hexec
  rw [List.append_nil] at hh
  exact hh ▸ runIf_of_exec (fun _ _ _ _ => trivial) .start hexec

end Exec

/-- A guarded step. -/
theorem guard_eq_some {c : Prop} [Decidable c] {a b : σ} : (if c then some a else none) = some b ↔ c ∧ b = a := by
  rw [Option.ite_none_right_eq_some, Option.some.injEq]
  exact and_congr_right fun _ => eq_comm

section Since

variable (q : ε → Bool)

/-- The events of a history (newest first) that are newer than its last `q`-event. -/
def since (h : List ε) : List ε := h.takeWhile fun e => !q e

@[simp] theorem since_nil : since q ([] : List ε) = [] := rfl

variable {q}

theorem since_cons_of_pos {e : ε} (he : q e = true) (h : List ε) : since q (e :: h) = [] := by
  simp [since, he]

theorem since_cons_of_neg {e : ε} (he : q e = false) (h : List ε) : since q (e :: h) = e :: since q h := by
  simp [since, he]

theorem not_mem_since {e : ε} {h : List ε} (he : e ∈ since q h) : q e = false := by
  have := List.mem_takeWhile_imp he
  simpa using this

/-- If nothing in `post` is a `q`-event, all of it is newer than the last one. -/
theorem since_append {post pre : List ε} (hp : ∀ e ∈ post, q e = false) :
    since q (post ++ pre) = post ++ since q pre := by
  unfold since
  exact List.takeWhile_append_of_pos fun e he => by simp [hp e he]

/-- What is newer than the last `q`-event, split at one of its events. -/
theorem exists_of_mem_since {e : ε} {h : List ε} (he : e ∈ since q h) :
    ∃ newer older, h = newer ++ e :: older ∧ ∀ a ∈ newer, q a = false := by
  obtain ⟨newer, rest, hsplit⟩ := List.append_of_mem he
  refine ⟨newer, rest ++ h.dropWhile fun e => !q e, ?_, fun a ha => not_mem_since (hsplit ▸ List.mem_append_left _ ha)⟩
  calc h = since q h ++ h.dropWhile fun e => !q e := List.takeWhile_append_dropWhile.symm
    _ = newer ++ e :: (rest ++ h.dropWhile fun e => !q e) := by rw [hsplit]; simp

/-- The last `q`-event seen through a projection of the events. -/
theorem since_filterMap {α : Type} {f : ε → Option α} {r : α → Bool} (hq : ∀ e, q e = (f e).any r) (h : List ε) :
    since r (h.filterMap f) = (since q h).filterMap f := by
  induction h with
  | nil => rfl
  | cons e h ih =>
    rcases hf : f e with _ | a
    · have he : q e = false := by rw [hq, hf]; rfl
      rw [List.filterMap_cons_none hf, since_cons_of_neg he, List.filterMap_cons_none hf, ih]
    · rw [List.filterMap_cons_some hf]
      rcases hr : r a with _ | _
      · have he : q e = false := by rw [hq, hf]; exact hr
        rw [since_cons_of_neg hr, since_cons_of_neg he, List.filterMap_cons_some hf, ih]
      · have he : q e = true := by rw [hq, hf]; exact hr
        rw [since_cons_of_pos hr, since_cons_of_pos he, List.filterMap_nil]

/-- The events of a history (newest first) that are older than its last `q`-event. -/
def before (q : ε → Bool) (h : List ε) : List ε := (h.dropWhile fun e => !q e).tail

theorem before_cons_of_pos {e : ε} (he : q e = true) (h : List ε) : before q (e :: h) = h := by
  simp [before, he]

theorem before_cons_of_neg {e : ε} (he : q e = false) (h : List ε) : before q (e :: h) = before q h := by
  simp [before, he]

theorem before_append {mid pre : List ε} {e : ε} (hm : ∀ a ∈ mid, q a = false) (he : q e = true) :
    before q (mid ++ e :: pre) = pre := by
  induction mid with
  | nil => exact before_cons_of_pos he pre
  | cons a mid ih =>
    rw [List.cons_append, before_cons_of_neg (hm a List.mem_cons_self)]
    exact ih fun b hb => hm b (List.mem_cons_of_mem a hb)

theorem since_append_cons {mid pre : List ε} {e : ε} (hm : ∀ a ∈ mid, q a = false) (he : q e = true) :
    since q (mid ++ e :: pre) = mid := by
  rw [since_append hm, since_cons_of_pos he, List.append_nil]

/-- A history that holds a `q`-event, split at the last one. -/
theorem eq_since_append {h : List ε} (hq : ∃ e ∈ h, q e = true) :
    ∃ e, q e = true ∧ h = since q h ++ e :: before q h := by
  induction h with
  | nil =>
    obtain ⟨e, he, -⟩ := hq
    cases he
  | cons a h ih =>
    rcases ha : q a with _ | _
    · obtain ⟨e, he, hqe⟩ := hq
      have hmem : e ∈ h := by
        rcases List.mem_cons.mp he with rfl | hmem
        · rw [ha] at hqe
          cases hqe
        · exact hmem
      obtain ⟨e', he', heq⟩ := ih ⟨e, hmem, hqe⟩
      refine ⟨e', he', ?_⟩
      rw [since_cons_of_neg ha, before_cons_of_neg ha, List.cons_append, ← heq]
    · exact ⟨a, ha, by rw [since_cons_of_pos ha, before_cons_of_pos ha]; rfl⟩

end Since

end Thronix.Lib
