import Mathlib.Data.List.Basic

/-!
# Thronix.Lib.Stuffing — escaping of special symbols

A code over an alphabet `α`: some symbols are special, one of them is the escape `esc`, and a special symbol is sent as
`esc` followed by its image under an involution `mask`.

* `Code`: the code, with what makes it one: `esc` is special, a masked special symbol is not.
* `Code.stuff`, `Code.unstuff`: encoder and decoder of lists.
* `Code.Stuffed`: the words of the code, by their form.  They are the values of `stuff` (`stuffed_stuff`,
  `stuff_unstuff`), and the only special symbol in them is `esc` (`eq_esc_of_mem`).
* `Code.Escaped`: the texts that can be decoded, words or not.
-/

namespace Thronix.Lib.Stuffing

variable {α : Type}

structure Code (α : Type) where
  special : α → Bool
  esc : α
  mask : α → α
  special_esc : special esc = true
  mask_mask : ∀ a, mask (mask a) = a
  special_mask : ∀ a, special a = true → special (mask a) = false

namespace Code

variable (c : Code α)

/-- One symbol on the wire. -/
def symbol (a : α) : List α := if c.special a then [c.esc, c.mask a] else [a]

def stuff (l : List α) : List α := l.flatMap c.symbol

/-- The words of the code. -/
inductive Stuffed : List α → Prop
  | nil : Stuffed []
  | plain {a : α} {l : List α} (ha : c.special a = false) (hl : Stuffed l) : Stuffed (a :: l)
  | escaped {a : α} {l : List α} (ha : c.special (c.mask a) = true) (hl : Stuffed l) : Stuffed (c.esc :: a :: l)

/-- After each escape a symbol that is not one. -/
inductive Escaped : List α → Prop
  | nil : Escaped []
  | plain {a : α} {l : List α} (ha : a ≠ c.esc) (hl : Escaped l) : Escaped (a :: l)
  | escaped {a : α} {l : List α} (ha : a ≠ c.esc) (hl : Escaped l) : Escaped (c.esc :: a :: l)

variable {c}

@[simp] theorem stuff_nil : c.stuff [] = [] := rfl

@[simp] theorem stuff_cons (a : α) (l : List α) : c.stuff (a :: l) = c.symbol a ++ c.stuff l := rfl

theorem symbol_plain {a : α} (ha : c.special a = false) : c.symbol a = [a] := by
  simp [symbol, ha]

theorem symbol_special {a : α} (ha : c.special a = true) : c.symbol a = [c.esc, c.mask a] := by
  simp [symbol, ha]

theorem ne_esc {a : α} (ha : c.special a = false) : a ≠ c.esc := by
  rintro rfl
  rw [c.special_esc] at ha
  cases ha

theorem Stuffed.escaped_of {l : List α} (hl : c.Stuffed l) : c.Escaped l := by
  induction hl with
  | nil => exact .nil
  | plain ha _ ih => exact .plain (ne_esc ha) ih
  | @escaped a l ha _ ih =>
    refine .escaped ?_ ih
    rintro rfl
    have := c.special_mask _ c.special_esc
    rw [ha] at this
    cases this

/-- What the encoder writes is a word. -/
theorem stuffed_stuff (l : List α) : c.Stuffed (c.stuff l) := by
  induction l with
  | nil => exact .nil
  | cons a l ih =>
    rcases ha : c.special a with _ | _
    · rw [stuff_cons, symbol_plain ha]
      exact .plain ha ih
    · rw [stuff_cons, symbol_special ha]
      exact .escaped (by rw [c.mask_mask]; exact ha) ih

/-- In a word no special symbol but the escape occurs. -/
theorem Stuffed.eq_esc_of_mem {l : List α} (hl : c.Stuffed l) {a : α} (ha : a ∈ l) (hs : c.special a = true) :
    a = c.esc := by
  induction hl with
  | nil => cases ha
  | plain hb _ ih =>
    rcases List.mem_cons.mp ha with rfl | h
    · rw [hb] at hs
      cases hs
    · exact ih h
  | @escaped b l hb _ ih =>
    rcases List.mem_cons.mp ha with rfl | h
    · rfl
    · rcases List.mem_cons.mp h with rfl | h
      · have := c.special_mask _ hb
        rw [c.mask_mask, hs] at this
        cases this
      · exact ih h

section Decoder

variable [DecidableEq α]

/-- The decoder; what it makes of other lists is not specified. -/
def unstuff (c : Code α) : List α → List α
  | [] => []
  | [a] => [a]
  | a :: b :: l => if a = c.esc then c.mask b :: c.unstuff l else a :: c.unstuff (b :: l)

@[simp] theorem unstuff_nil : c.unstuff [] = [] := rfl

theorem unstuff_cons {a : α} (ha : a ≠ c.esc) (l : List α) : c.unstuff (a :: l) = a :: c.unstuff l := by
  rcases l with _ | ⟨b, l⟩
  · rfl
  · rw [unstuff, if_neg ha]

theorem unstuff_plain {a : α} (ha : c.special a = false) (l : List α) : c.unstuff (a :: l) = a :: c.unstuff l :=
  unstuff_cons (ne_esc ha) l

theorem unstuff_escaped (a : α) (l : List α) : c.unstuff (c.esc :: a :: l) = c.mask a :: c.unstuff l := by
  rw [unstuff, if_pos rfl]

/-- Decoding what was encoded. -/
theorem unstuff_stuff (l : List α) : c.unstuff (c.stuff l) = l := by
  induction l with
  | nil => rfl
  | cons a l ih =>
    rcases ha : c.special a with _ | _
    · rw [stuff_cons, symbol_plain ha, List.singleton_append, unstuff_plain ha, ih]
    · rw [stuff_cons, symbol_special ha]
      show c.unstuff (c.esc :: c.mask a :: c.stuff l) = a :: l
      rw [unstuff_escaped, c.mask_mask, ih]

/-- Encoding what was decoded from a word. -/
theorem Stuffed.stuff_unstuff {l : List α} (hl : c.Stuffed l) : c.stuff (c.unstuff l) = l := by
  induction hl with
  | nil => rfl
  | plain ha _ ih => rw [unstuff_plain ha, stuff_cons, symbol_plain ha, ih, List.singleton_append]
  | escaped ha _ ih =>
    rw [unstuff_escaped, stuff_cons, symbol_special ha, ih, c.mask_mask]
    rfl

/-- Each escape is one symbol less. -/
theorem Escaped.length_unstuff {l : List α} (hl : c.Escaped l) : (c.unstuff l).length + l.count c.esc = l.length := by
  induction hl with
  | nil => rfl
  | plain ha _ ih =>
    rw [unstuff_cons ha, List.count_cons_of_ne ha, List.length_cons, List.length_cons]
    omega
  | escaped ha _ ih =>
    rw [unstuff_escaped, List.count_cons_self, List.count_cons_of_ne ha]
    simp only [List.length_cons]
    omega

end Decoder

end Code

end Thronix.Lib.Stuffing
