import Mathlib.Data.List.Basic
import Mathlib.Data.Rat.Defs
import Mathlib.Algebra.Order.Field.Rat
import Mathlib.Tactic.NormNum
import Mathlib.Tactic.Linarith

/-!
# Thronix.Lib.JsonText — JSON texts as byte strings

The grammar of JSON over bytes, without reference to any parser.

* `JsonNumber`: the parts of a number, each carrying its own well-formedness, with its `text` and its `value` in
  `ℚ`.  Leading zeros are admitted, so the grammar is a little larger than the standard one.
* `StringBody`: what may stand between two quotes: characters of one to four bytes and the escapes.
* `JsonText k s`: `s` is a value, the elements of an array or the members of an object, whitespace included.  The
  three nonterminals are one family, so a fact about texts is one induction.
-/

namespace Thronix.Lib

/-- A decimal digit. -/
def digit (c : UInt8) : Bool := 48 ≤ c && c ≤ 57

/-- The number a string of digits denotes. -/
def natOfDigits (ds : List UInt8) : ℕ := ds.foldl (fun n d => 10 * n + (d.toNat - 48)) 0

/-- A nonempty string of digits. -/
def Digits (ds : List UInt8) : Prop := ds ≠ [] ∧ ∀ c ∈ ds, digit c = true

instance (ds : List UInt8) : Decidable (Digits ds) :=
  decidable_of_iff (ds ≠ [] ∧ ds.all digit = true) (and_congr_right' List.all_eq_true)

/-! ## Numbers -/

/-- The exponent of a number: its letter, its sign (if written) and its digits. -/
structure JsonExp where
  letter : UInt8
  sign : Option UInt8
  digits : List UInt8
  letter_ok : letter = 101 ∨ letter = 69
  sign_ok : sign = none ∨ sign = some 43 ∨ sign = some 45
  digits_ok : Digits digits

/-- A JSON number: sign, integer digits, fraction digits (`[]`: no fraction) and exponent. -/
structure JsonNumber where
  neg : Bool
  int : List UInt8
  frac : List UInt8
  exp : Option JsonExp
  int_ok : Digits int
  frac_ok : ∀ c ∈ frac, digit c = true

namespace JsonExp

def text (x : JsonExp) : List UInt8 := x.letter :: (x.sign.toList ++ x.digits)

/-- The text of an exponent that may be absent. -/
def optText : Option JsonExp → List UInt8
  | none => []
  | some x => x.text

/-- The power of ten. -/
def value (x : JsonExp) : ℤ := if x.sign = some 45 then -(natOfDigits x.digits : ℤ) else natOfDigits x.digits

end JsonExp

namespace JsonNumber

variable (v : JsonNumber)

/-- The fraction and exponent part. -/
def tailText : List UInt8 :=
  (if v.frac = [] then [] else 46 :: v.frac) ++ JsonExp.optText v.exp

def text : List UInt8 := (if v.neg then [45] else []) ++ (v.int ++ v.tailText)

/-- The integer part with its sign: what is read when the text is cut at the first `.` or exponent. -/
def lead : ℤ := if v.neg then -(natOfDigits v.int : ℤ) else natOfDigits v.int

/-- The integer and fraction part, without the sign. -/
def mantissa : ℚ := natOfDigits v.int + (natOfDigits v.frac : ℚ) / 10 ^ v.frac.length

/-- The number the text denotes. -/
def value : ℚ :=
  (if v.neg then -v.mantissa else v.mantissa) * (match v.exp with | none => 1 | some x => (10 : ℚ) ^ x.value)

theorem mantissa_ge : (natOfDigits v.int : ℚ) ≤ v.mantissa := by
  unfold mantissa
  have h : (0 : ℚ) ≤ (natOfDigits v.frac : ℚ) / 10 ^ v.frac.length :=
    div_nonneg (Nat.cast_nonneg _) (pow_nonneg (by norm_num) _)
  linarith

/-- Without an exponent, a number that is not negative is at least its integer part. -/
theorem lead_le_value (he : v.exp = none) (hn : v.neg = false) : (v.lead : ℚ) ≤ v.value := by
  simp only [lead, value, he, hn, Bool.false_eq_true, if_false, mul_one]
  exact_mod_cast v.mantissa_ge

/-- Without an exponent, a negative number is at most its integer part. -/
theorem value_le_lead (he : v.exp = none) (hn : v.neg = true) : v.value ≤ v.lead := by
  simp only [lead, value, he, hn, if_true, mul_one]
  have := v.mantissa_ge
  push_cast
  linarith

end JsonNumber

/-! ## Strings -/

def hexDigit (c : UInt8) : Bool := digit c || (97 ≤ c && c ≤ 102) || (65 ≤ c && c ≤ 70)

/-- The characters that may follow a backslash (`u` apart): `"`, `\`, `/`, `b`, `f`, `n`, `r`, `t`. -/
def simpleEscapes : List UInt8 := [34, 92, 47, 98, 102, 110, 114, 116]

/-- The text between the quotes of a string. -/
inductive StringBody : List UInt8 → Prop
  | nil : StringBody []
  | ascii {b : List UInt8} (c : UInt8) (hc : 32 ≤ c ∧ c < 128 ∧ c ≠ 34 ∧ c ≠ 92) (hb : StringBody b) :
      StringBody (c :: b)
  | two {b : List UInt8} (c d : UInt8) (hc : c &&& 0xe0 = 0xc0) (hb : StringBody b) : StringBody (c :: d :: b)
  | three {b : List UInt8} (c d e : UInt8) (hc : c &&& 0xf0 = 0xe0) (hb : StringBody b) :
      StringBody (c :: d :: e :: b)
  | four {b : List UInt8} (c d e f : UInt8) (hc : c &&& 0xf8 = 0xf0) (hb : StringBody b) :
      StringBody (c :: d :: e :: f :: b)
  | escape {b : List UInt8} (c : UInt8) (hc : c ∈ simpleEscapes) (hb : StringBody b) : StringBody (92 :: c :: b)
  | unicode {b : List UInt8} (c d e f : UInt8) (h : [c, d, e, f].all hexDigit = true) (hb : StringBody b) :
      StringBody (92 :: 117 :: c :: d :: e :: f :: b)

/-- Plain ASCII characters are the body of a string. -/
theorem StringBody.of_ascii {b : List UInt8} (h : b.all (fun c => 32 ≤ c ∧ c < 128 ∧ c ≠ 34 ∧ c ≠ 92) = true) :
    StringBody b := by
  induction b with
  | nil => exact .nil
  | cons c b ih =>
    obtain ⟨hc, hb⟩ := Bool.and_eq_true_iff.mp (List.all_cons ▸ h)
    exact .ascii c (of_decide_eq_true hc) (ih hb)

/-- A string with its quotes. -/
def IsString (s : List UInt8) : Prop := ∃ b, StringBody b ∧ s = 34 :: (b ++ [34])

/-! ## Values -/

def white (c : UInt8) : Bool := c == 32 || c == 9 || c == 13 || c == 10

/-- Whitespace between tokens. -/
def IsWs (w : List UInt8) : Prop := ∀ c ∈ w, white c = true

theorem isWs_nil : IsWs [] := List.forall_mem_nil _

theorem isWs_space : IsWs [32] := List.forall_mem_singleton.mpr rfl

/-- The nonterminals of the grammar. -/
inductive Nonterminal
  | value
  | elements
  | members

/-- The JSON texts of each nonterminal. -/
inductive JsonText : Nonterminal → List UInt8 → Prop
  | null : JsonText .value [110, 117, 108, 108]
  | tru : JsonText .value [116, 114, 117, 101]
  | fls : JsonText .value [102, 97, 108, 115, 101]
  | number (v : JsonNumber) : JsonText .value v.text
  | string {s : List UInt8} (h : IsString s) : JsonText .value s
  | arrayNil {w : List UInt8} (hw : IsWs w) : JsonText .value (91 :: (w ++ [93]))
  | array {s : List UInt8} (h : JsonText .elements s) : JsonText .value (91 :: (s ++ [93]))
  | objectNil {w : List UInt8} (hw : IsWs w) : JsonText .value (123 :: (w ++ [125]))
  | object {s : List UInt8} (h : JsonText .members s) : JsonText .value (123 :: (s ++ [125]))
  | element {w v w' : List UInt8} (hw : IsWs w) (hv : JsonText .value v) (hw' : IsWs w') :
      JsonText .elements (w ++ (v ++ w'))
  | elements {w v w' s : List UInt8} (hw : IsWs w) (hv : JsonText .value v) (hw' : IsWs w')
      (hs : JsonText .elements s) : JsonText .elements (w ++ (v ++ (w' ++ 44 :: s)))
  | member {w k w1 w2 v w3 : List UInt8} (hw : IsWs w) (hk : IsString k) (hw1 : IsWs w1) (hw2 : IsWs w2)
      (hv : JsonText .value v) (hw3 : IsWs w3) : JsonText .members (w ++ (k ++ (w1 ++ 58 :: (w2 ++ (v ++ w3)))))
  | members {w k w1 w2 v w3 s : List UInt8} (hw : IsWs w) (hk : IsString k) (hw1 : IsWs w1) (hw2 : IsWs w2)
      (hv : JsonText .value v) (hw3 : IsWs w3) (hs : JsonText .members s) :
      JsonText .members (w ++ (k ++ (w1 ++ 58 :: (w2 ++ (v ++ (w3 ++ 44 :: s))))))

/-- An object: a value that begins with a brace. -/
def IsObject (s : List UInt8) : Prop := JsonText .value s ∧ s.head? = some 123

theorem isObject_cases {s : List UInt8} (h : IsObject s) :
    (∃ w, IsWs w ∧ s = 123 :: (w ++ [125])) ∨ (∃ t, JsonText .members t ∧ s = 123 :: (t ++ [125])) := by
  obtain ⟨hv, hh⟩ := h
  cases hv with
  | objectNil hw => exact .inl ⟨_, hw, rfl⟩
  | object h => exact .inr ⟨_, h, rfl⟩
  | number v =>
    exfalso
    obtain ⟨hne, hd⟩ := v.int_ok
    obtain ⟨c, t, hc⟩ := List.exists_cons_of_ne_nil hne
    have hcd := hd c (by simp [hc])
    unfold JsonNumber.text at hh
    split_ifs at hh <;> simp [hc] at hh
    subst hh
    simp [digit] at hcd
  | string h =>
    obtain ⟨b, -, rfl⟩ := h
    simp at hh
  | _ => simp at hh

end Thronix.Lib
