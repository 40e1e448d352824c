import Mathlib.Data.List.Nodup

/-!
# Thronix.Lib.Wakeups — tasks that wait for things, and are told of them

Tasks in the list `waiting` wait until they are told that there is something for them.  A task that has been told is
not in the list any more, and is `due`: it is about to look itself.

* `Served n pending waiting due`: while tasks wait, every one of the `n` things that are there is matched by a task that
  is due, up to `pending` ones that nobody has been told of yet.
* What keeps it: `told` tells the first task of a new thing, `told_all` makes up for those that are pending, `leave` is a
  task that looks and takes something, and `Served.of_le` starts anew when a task begins to wait.
-/

namespace Thronix.Lib

variable {τ : Type}

def Served (n pending : ℕ) (waiting : List τ) (due : τ → Prop) : Prop :=
  waiting ≠ [] → ∃ ts : List τ, ts.Nodup ∧ n ≤ ts.length + pending ∧ ∀ t ∈ ts, due t

namespace Served

variable {n n' pending pending' : ℕ} {waiting waiting' : List τ} {due due' : τ → Prop} {t : τ}

theorem of_nil (h : waiting = []) : Served n pending waiting due := fun hne => absurd h hne

theorem of_le (h : n ≤ pending) : Served n pending waiting due := by
  intro _
  refine ⟨[], List.nodup_nil, ?_, fun t ht => absurd ht List.not_mem_nil⟩
  rw [List.length_nil, Nat.zero_add]
  exact h

theorem mono (h : Served n pending waiting due) (hn : n' ≤ n) (hp : pending ≤ pending')
    (hw : waiting' ≠ [] → waiting ≠ []) (hd : ∀ t, due t → due' t) : Served n' pending' waiting' due' := by
  intro hne
  obtain ⟨ts, hnodup, hle, hdue⟩ := h (hw hne)
  exact ⟨ts, hnodup, by omega, fun t ht => hd t (hdue t ht)⟩

/-- A new thing that is counted. -/
theorem counted (h : Served n pending waiting due) : Served (n + 1) (pending + 1) waiting due := by
  intro hne
  obtain ⟨ts, hnodup, hle, hdue⟩ := h hne
  exact ⟨ts, hnodup, by omega, hdue⟩

/-- Tasks are told, each of another thing that was pending; all of these, unless no task is left. -/
theorem told_all (h : Served n pending waiting due) (hnodup : waiting.Nodup) (hout : ∀ t ∈ waiting, ¬due t)
    (hd : ∀ t, due t ∨ t ∈ waiting.take pending → due' t) : Served n 0 (waiting.drop pending) due' := by
  intro hleft
  have hlt : pending < waiting.length := by
    by_contra hge
    exact hleft (List.drop_eq_nil_of_le (by omega))
  obtain ⟨ts, hts, hle, hdue⟩ := h fun hnil => by
    rw [hnil] at hlt
    exact absurd hlt (Nat.not_lt_zero _)
  have hdisjoint : ts.Disjoint (waiting.take pending) := fun t ht htold =>
    hout t (List.mem_of_mem_take htold) (hdue t ht)
  refine ⟨ts ++ waiting.take pending, List.nodup_append.mpr ⟨hts, hnodup.sublist (List.take_sublist _ _), ?_⟩, ?_, ?_⟩
  · intro a ha b hb heq
    exact hdisjoint ha (heq ▸ hb)
  · rw [List.length_append, List.length_take_of_le (Nat.le_of_lt hlt)]
    omega
  · intro t ht
    exact hd t ((List.mem_append.mp ht).imp (hdue t) id)

/-- A new thing, and the first task is told of it. -/
theorem told (h : Served n 0 waiting due) (hnodup : waiting.Nodup) (hout : ∀ t ∈ waiting, ¬due t)
    (hd : ∀ t, due t ∨ t ∈ waiting.take 1 → due' t) : Served (n + 1) 0 waiting.tail due' := by
  rw [← List.drop_one]
  exact h.counted.told_all hnodup hout hd

/-- A task that is not due any more has taken something, or leaves the queue without anything. -/
theorem leave [DecidableEq τ] (h : Served n pending waiting due) (t : τ) (hd : ∀ u, u ≠ t → due u → due' u) :
    Served (n - 1) pending waiting due' := by
  intro hne
  obtain ⟨ts, hnodup, hle, hdue⟩ := h hne
  refine ⟨ts.erase t, hnodup.erase t, ?_, ?_⟩
  · have := List.le_length_erase (l := ts) (a := t)
    omega
  · intro u hu
    have hut := (hnodup.mem_erase_iff).mp hu
    exact hd u hut.1 (hdue u hut.2)

end Served

end Thronix.Lib
