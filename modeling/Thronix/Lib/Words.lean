import Mathlib.Data.Nat.Bitwise

/-!
# Thronix.Lib.Words — words of 32 bits as the numbers they stand for

`add32`, `sub32` wrap around; `not32` turns every bit.  `add32_eq`, `sub32_eq` tell when nothing wraps.
-/

namespace Thronix.Lib

def add32 (a b : ℕ) : ℕ := (a + b) % 2 ^ 32

def sub32 (a b : ℕ) : ℕ := (a + 2 ^ 32 - b) % 2 ^ 32

/-- `~a`. -/
def not32 (a : ℕ) : ℕ := 2 ^ 32 - 1 - a

variable {a b : ℕ}

theorem add32_eq (h : a + b < 2 ^ 32) : add32 a b = a + b := Nat.mod_eq_of_lt h

theorem sub32_eq (h : b ≤ a) (ha : a < 2 ^ 32) : sub32 a b = a - b := by
  unfold sub32
  omega

end Thronix.Lib
