import Mathlib.Data.List.Nodup
import Thronix.Lib.Traces

/-!
# Thronix.Lib.Once — handing over once, and answering in order

* `RxAction`: what a receiver makes of what it gets.  `opened l`: what it has handed over and not been told to forget,
  the oldest first.  `mem_opened`: the same, read off the history.
* `TxAction`: what a sender records and what is completed.  `pending l`: what is not, the oldest first.
-/

namespace Thronix.Lib.Once

variable {α : Type}

inductive RxAction (α : Type)
  /-- Handed over. -/
  | delivered (a : α)
  /-- Dropped: it has been handed over before. -/
  | duplicate (a : α)
  /-- There is no room to remember it. -/
  | refused (a : α)
  | released (a : α)
  | closed
  deriving DecidableEq, Repr

/-- It has been handed over, and nothing has made the receiver forget it. -/
def Open (l : List (RxAction α)) (a : α) : Prop :=
  ∃ post pre, l = post ++ .delivered a :: pre ∧ .released a ∉ post ∧ .closed ∉ post

section Open

variable {l : List (RxAction α)} {a : α} {x : RxAction α}

theorem Open.cons (h : Open l a) (hr : x ≠ .released a) (hc : x ≠ .closed) : Open (x :: l) a := by
  obtain ⟨post, pre, rfl, h1, h2⟩ := h
  refine ⟨x :: post, pre, rfl, fun hmem => ?_, fun hmem => ?_⟩
  · rcases List.mem_cons.mp hmem with heq | hmem
    · exact hr heq.symm
    · exact h1 hmem
  · rcases List.mem_cons.mp hmem with heq | hmem
    · exact hc heq.symm
    · exact h2 hmem

theorem Open.of_cons (h : Open (x :: l) a) : x = .delivered a ∨ Open l a ∧ x ≠ .released a ∧ x ≠ .closed := by
  obtain ⟨post, pre, heq, h1, h2⟩ := h
  cases post with
  | nil => exact Or.inl (List.cons.inj heq).1
  | cons y post =>
    obtain ⟨rfl, rfl⟩ := List.cons.inj heq
    exact Or.inr ⟨⟨post, pre, rfl, fun hmem => h1 (List.mem_cons_of_mem x hmem), fun hmem =>
      h2 (List.mem_cons_of_mem x hmem)⟩, fun hx => h1 (hx ▸ List.mem_cons_self), fun hx => h2 (hx ▸ List.mem_cons_self)⟩

end Open

section Receiver

variable [DecidableEq α]

def opened : List (RxAction α) → List α
  | [] => []
  | .delivered a :: l => opened l ++ [a]
  | .duplicate _ :: l => opened l
  | .refused _ :: l => opened l
  | .released a :: l => (opened l).erase a
  | .closed :: _ => []

/-- What a receiver that remembers so many may do. -/
def RxAllowed (cap : ℕ) (l : List (RxAction α)) : RxAction α → Prop
  | .delivered a => a ∉ opened l ∧ (opened l).length < cap
  | .duplicate a => a ∈ opened l
  | .refused a => a ∉ opened l ∧ (opened l).length = cap
  | .released _ => True
  | .closed => True

variable {cap : ℕ} {l : List (RxAction α)} {a : α}

theorem nodup_opened (h : Each (RxAllowed cap) l) : (opened l).Nodup := by
  induction l with
  | nil => exact List.nodup_nil
  | cons x l ih =>
    obtain ⟨hx, hl⟩ := h
    cases x with
    | delivered a => exact List.Nodup.append (ih hl) (List.nodup_singleton a) (List.disjoint_singleton.mpr hx.1)
    | duplicate a => exact ih hl
    | refused a => exact ih hl
    | released a => exact (ih hl).erase a
    | closed => exact List.nodup_nil

/-- **What is remembered** is what has been handed over and not released since. -/
theorem mem_opened (h : Each (RxAllowed cap) l) : a ∈ opened l ↔ Open l a := by
  induction l with
  | nil =>
    refine iff_of_false List.not_mem_nil ?_
    rintro ⟨post, pre, heq, -⟩
    cases post <;> cases heq
  | cons x l ih =>
    obtain ⟨-, hl⟩ := h
    have hsame (h1 : opened (x :: l) = opened l) (hd : x ≠ .delivered a) (hr : x ≠ .released a) (hc : x ≠ .closed) :
        a ∈ opened (x :: l) ↔ Open (x :: l) a := by
      rw [h1, ih hl]
      exact ⟨fun ho => ho.cons hr hc, fun ho => (ho.of_cons.resolve_left hd).1⟩
    cases x with
    | delivered b =>
      rw [opened, List.mem_append, List.mem_singleton, ih hl]
      constructor
      · rintro (ho | rfl)
        · exact ho.cons nofun nofun
        · exact ⟨[], l, rfl, List.not_mem_nil, List.not_mem_nil⟩
      · intro ho
        rcases ho.of_cons with heq | ⟨ho, -⟩
        · exact Or.inr (RxAction.delivered.inj heq).symm
        · exact Or.inl ho
    | duplicate b => exact hsame rfl nofun nofun nofun
    | refused b => exact hsame rfl nofun nofun nofun
    | released b =>
      by_cases hab : a = b
      · subst hab
        exact iff_of_false (nodup_opened hl).not_mem_erase fun ho =>
          ((ho.of_cons.resolve_left nofun).2.1 rfl).elim
      · rw [opened, List.mem_erase_of_ne hab, ih hl]
        exact ⟨fun ho => ho.cons (fun heq => hab (RxAction.released.inj heq).symm) nofun,
          fun ho => (ho.of_cons.resolve_left nofun).1⟩
    | closed =>
      exact iff_of_false List.not_mem_nil fun ho => ((ho.of_cons.resolve_left nofun).2.2 rfl).elim

end Receiver

inductive TxAction (α : Type)
  | recorded (a : α)
  | completed (a : α)
  | closed
  deriving DecidableEq, Repr

def pending : List (TxAction α) → List α
  | [] => []
  | .recorded a :: l => pending l ++ [a]
  | .completed _ :: l => (pending l).tail
  | .closed :: _ => []

/-- What is completed is the oldest of at most so many. -/
def TxAllowed (cap : ℕ) (l : List (TxAction α)) : TxAction α → Prop
  | .recorded _ => (pending l).length < cap
  | .completed a => (pending l).head? = some a
  | .closed => True

end Thronix.Lib.Once
