import Mathlib.Data.List.Basic

/-!
# Thronix.Json.Walk — `json_walk` of `json/frozen.c`

The callback-driven parser, function by function.  A `Frozen` is the part of `struct frozen` the parser computes
with: the bytes from `cur` to `end`, the path buffer, and the log of the callbacks made so far.  `cur_name` is left
out: `json_scanf_cb` ignores it.

* A parser is a function from the state to a `Code` and the state it leaves.  The log survives an error, as the
  callbacks already made do.
* `path` is the C string in `char path[60]` and `pathLen` is `path_len`.  `snprintf` cuts what does not fit but
  `path_len` counts it, so the two part ways at the end of the buffer.  An append at `path_len ≥ 60` writes outside
  the array: the code `undef`.
* Recursion is bounded by `fuel`; `jsonWalk` gives enough of it (`jsonWalk_ne_fuel`).
-/

namespace Thronix.Json

/-! ## Bytes -/

abbrev Bytes := List UInt8

/-- The byte of an ASCII character. -/
def ch (c : Char) : UInt8 := c.toNat.toUInt8

/-- The bytes of an ASCII string. -/
def str (s : String) : Bytes := s.toList.map ch

def isSpace (c : UInt8) : Bool := c == 32 || c == 9 || c == 13 || c == 10

def isAlpha (c : UInt8) : Bool := (97 ≤ c && c ≤ 122) || (65 ≤ c && c ≤ 90)

def isDigit (c : UInt8) : Bool := 48 ≤ c && c ≤ 57

def isHexDigit (c : UInt8) : Bool := isDigit c || (97 ≤ c && c ≤ 102) || (65 ≤ c && c ≤ 70)

/-- `get_utf8_char_len`. -/
def getUtf8CharLen (c : UInt8) : ℕ :=
  if c &&& 0x80 = 0 then 1
  else if c &&& 0xf0 = 0xf0 then 4
  else if c &&& 0xf0 = 0xe0 then 3
  else 2

/-! ## State -/

/-- What a parser function returns: 0, `JSON_STRING_INVALID`, `JSON_STRING_INCOMPLETE`; or C gives the call no
meaning (`undef`), or the bound of the model is reached (`fuel`). -/
inductive Code
  | ok
  | invalid
  | incomplete
  | undef
  | fuel
  deriving DecidableEq, Repr

/-- The codes of the source for a text that is not JSON. -/
def Code.Negative (c : Code) : Prop := c = .invalid ∨ c = .incomplete

instance (c : Code) : Decidable c.Negative := inferInstanceAs (Decidable (_ ∨ _))

/-- `enum json_token_type`. -/
inductive JsonTokenType
  | string
  | number
  | tru
  | fls
  | null
  | objectStart
  | objectEnd
  | arrayStart
  | arrayEnd
  deriving DecidableEq, Repr

/-- `struct json_token`: `ptr` is the text from the token to the end of the input (`none`: `NULL`). -/
structure JsonToken where
  ptr : Option Bytes
  len : ℕ
  type : JsonTokenType
  deriving DecidableEq, Repr

/-- One call of the callback. -/
structure Event where
  path : Bytes
  token : JsonToken
  deriving DecidableEq, Repr

structure Frozen where
  cur : Bytes
  path : Bytes
  pathLen : ℕ
  log : List Event
  deriving DecidableEq, Repr

/-- A parser function. -/
abbrev Parser := Frozen → Code × Frozen

/-- `TRY(p)` followed by `k`. -/
def andThen (p k : Parser) : Parser := fun f =>
  match p f with
  | (.ok, g) => k g
  | r => r

/-- What `"%.*s"` prints of some bytes: those before the first NUL. -/
def upToNul (s : Bytes) : Bytes := s.takeWhile (· != 0)

/-- `append_to_path`: `snprintf` gets `59 - path_len` bytes of room, the terminator included. -/
def appendToPath (f : Frozen) (s : Bytes) : Option Frozen :=
  let t := upToNul s
  if 60 ≤ f.pathLen then none
  else if f.pathLen = 59 then some { f with pathLen := f.pathLen + t.length }
  else some { f with path := f.path.take f.pathLen ++ t.take (58 - f.pathLen), pathLen := f.pathLen + t.length }

def truncatePath (f : Frozen) (len : ℕ) : Frozen := { f with path := f.path.take len, pathLen := len }

/-- `CALL_BACK`: no callback while the path ends in a dot. -/
def callBack (f : Frozen) (tok : JsonTokenType) (value : Option Bytes) (len : ℕ) : Frozen :=
  if f.pathLen = 0 ∨ f.path[f.pathLen - 1]? ≠ some (ch '.') then
    { f with log := f.log ++ [⟨f.path, ⟨value, len, tok⟩⟩] }
  else f

def skipWhitespaces (f : Frozen) : Frozen := { f with cur := f.cur.dropWhile isSpace }

/-- `test_and_skip`. -/
def testAndSkip (expected : UInt8) : Parser := fun f =>
  match f.cur.dropWhile isSpace with
  | [] => (.incomplete, f)
  | c :: t => if c = expected then (.ok, { f with cur := t }) else (.invalid, f)

/-- `if (cur(f) == ',') f->cur++`. -/
def skipComma (f : Frozen) : Frozen :=
  match f.cur.dropWhile isSpace with
  | [] => { f with cur := [] }
  | c :: t => if c = ch ',' then { f with cur := t } else { f with cur := c :: t }

/-! ## Identifiers and strings -/

def isIdentifierChar (c : UInt8) : Bool := c == ch '_' || isAlpha c || isDigit c

def parseIdentifier : Parser := fun f =>
  let g := skipWhitespaces f
  match g.cur with
  | [] => (.invalid, g)
  | c :: _ =>
    if isAlpha c then
      match appendToPath g [] with
      | none => (.undef, g)
      | some h =>
        let rest := g.cur.dropWhile isIdentifierChar
        (.ok, callBack (truncatePath { h with cur := rest } g.pathLen) .string (some g.cur)
          (g.cur.length - rest.length))
    else (.invalid, g)

/-- `get_escape_len`: `s` is the text after the backslash, `len` what is left from the backslash on. -/
def getEscapeLen (s : Bytes) (len : ℕ) : Except Code ℕ :=
  match s with
  | [] => .error .invalid
  | c :: t =>
    if c = ch 'u' then
      if len < 6 then .error .incomplete
      else if (t.take 4).all isHexDigit then .ok 5
      else .error .invalid
    else if c ∈ str "\"\\/bfnrt" then
      if len < 2 then .error .incomplete else .ok 1
    else .error .invalid

/-- The loop of `parse_string`, up to the closing quote.  `skip` counts the bytes of the current character that
`f->cur += len` still steps over. -/
def stringEnd : ℕ → Bytes → Except Code Bytes
  | _, [] => .error .incomplete
  | k + 1, _ :: t => stringEnd k t
  | 0, c :: t =>
    if c < 32 then .error .invalid
    else if (c :: t).length ≤ getUtf8CharLen c then .error .incomplete
    else if c = ch '\\' then
      match getEscapeLen t (c :: t).length with
      | .error e => .error e
      | .ok n => stringEnd n t
    else if c = ch '"' then .ok (c :: t)
    else stringEnd (getUtf8CharLen c - 1) t

def parseString : Parser :=
  andThen (testAndSkip (ch '"')) fun f =>
    match appendToPath f [] with
    | none => (.undef, f)
    | some h =>
      match stringEnd 0 f.cur with
      | .error e => (e, h)
      | .ok rest =>
        let g := callBack (truncatePath h f.pathLen) .string (some f.cur) (f.cur.length - rest.length)
        (.ok, { g with cur := rest.tail })

/-! ## Numbers and literals -/

/-- `EXPECT(cur < end); EXPECT(is_digit(*cur)); while (is_digit(*cur)) cur++`. -/
def digits1 : Bytes → Except Code Bytes
  | [] => .error .incomplete
  | c :: t => if isDigit c then .ok (t.dropWhile isDigit) else .error .invalid

def fracEnd : Bytes → Except Code Bytes
  | [] => .ok []
  | c :: t => if c = ch '.' then digits1 t else .ok (c :: t)

def expEnd : Bytes → Except Code Bytes
  | [] => .ok []
  | c :: t =>
    if c = ch 'e' ∨ c = ch 'E' then
      match t with
      | [] => .error .incomplete
      | d :: u => if d = ch '+' ∨ d = ch '-' then digits1 u else digits1 (d :: u)
    else .ok (c :: t)

/-- The optional minus sign. -/
def skipMinus : Bytes → Bytes
  | [] => []
  | c :: t => if c = ch '-' then t else c :: t

/-- What `parse_number` leaves of the text at `cur`. -/
def numberEnd (s : Bytes) : Except Code Bytes := do
  let s1 ← digits1 (skipMinus s)
  let s2 ← fracEnd s1
  expEnd s2

def parseNumber : Parser := fun f =>
  let g := skipWhitespaces f
  match appendToPath g [] with
  | none => (.undef, g)
  | some h =>
    match numberEnd g.cur with
    | .error e => (e, h)
    | .ok rest =>
      (.ok, callBack (truncatePath { h with cur := rest } g.pathLen) .number (some g.cur)
        (g.cur.length - rest.length))

/-- The comparison loop of `expect`. -/
def litEnd : Bytes → Bytes → Except Code Bytes
  | [], t => .ok t
  | _ :: _, [] => .error .incomplete
  | a :: s, c :: t => if c = a then litEnd s t else .error .invalid

/-- `expect`. -/
def expect (s : Bytes) (tok : JsonTokenType) : Parser := fun f =>
  match appendToPath f [] with
  | none => (.undef, f)
  | some h =>
    match litEnd s f.cur with
    | .error e => (e, h)
    | .ok rest =>
      (.ok, callBack (truncatePath { h with cur := rest } f.pathLen) tok (some f.cur) (f.cur.length - rest.length))

/-! ## Objects, arrays and values -/

/-- `parse_key`. -/
def parseKey : Parser := fun f =>
  let g := skipWhitespaces f
  match g.cur with
  | [] => (.incomplete, g)
  | c :: _ => if isAlpha c then parseIdentifier g else if c = ch '"' then parseString g else (.invalid, g)

/-- The key between `tok` and `cur`, without its quotes. -/
def keyName (tok cur : Bytes) : Bytes :=
  if tok.head? = some (ch '"') then tok.tail.take (tok.length - cur.length - 2)
  else tok.take (tok.length - cur.length)

section Nested

variable (parseValue : Parser)

def parsePair : Parser := fun f =>
  let g := skipWhitespaces f
  andThen parseKey (fun h =>
    match appendToPath h (keyName g.cur h.cur) with
    | none => (.undef, h)
    | some k => andThen (testAndSkip (ch ':')) (andThen parseValue fun l => (.ok, truncatePath l h.pathLen)) k) g

/-- The loop of `parse_object`. -/
def objectLoop : ℕ → Parser
  | 0 => fun f => (.fuel, f)
  | n + 1 => fun f =>
    let g := skipWhitespaces f
    if g.cur.head? = some (ch '}') then (.ok, g)
    else andThen (parsePair parseValue) (fun h => objectLoop n (skipComma h)) g

def parseObject (n : ℕ) : Parser :=
  andThen (testAndSkip (ch '{')) fun f =>
    let g := callBack f .objectStart none 0
    match appendToPath g (str ".") with
    | none => (.undef, g)
    | some h =>
      andThen (objectLoop parseValue n) (andThen (testAndSkip (ch '}')) fun k =>
        (.ok, callBack (truncatePath k f.pathLen) .objectEnd (some (ch '{' :: f.cur))
          ((ch '{' :: f.cur).length - k.cur.length))) h

/-- `snprintf(buf, sizeof(buf), "[%d]", i)`. -/
def indexName (i : ℕ) : Bytes := ch '[' :: (Nat.toDigits 10 i).map ch ++ [ch ']']

/-- The loop of `parse_array`. -/
def arrayLoop : ℕ → ℕ → Parser
  | 0, _ => fun f => (.fuel, f)
  | n + 1, i => fun f =>
    let g := skipWhitespaces f
    if g.cur.head? = some (ch ']') then (.ok, g)
    else
      match appendToPath g (indexName i) with
      | none => (.undef, g)
      | some h =>
        andThen parseValue (fun k => arrayLoop n (i + 1) (skipComma (truncatePath k g.pathLen))) h

def parseArray (n : ℕ) : Parser :=
  andThen (testAndSkip (ch '[')) fun f =>
    let g := callBack f .arrayStart none 0
    match appendToPath g [] with
    | none => (.undef, g)
    | some h =>
      andThen (arrayLoop parseValue n 0) (andThen (testAndSkip (ch ']')) fun k =>
        (.ok, callBack (truncatePath k f.pathLen) .arrayEnd (some (ch '[' :: f.cur))
          ((ch '[' :: f.cur).length - k.cur.length))) h

end Nested

/-- `parse_value`. -/
def parseValue : ℕ → Parser
  | 0 => fun f => (.fuel, f)
  | n + 1 => fun f =>
    let g := skipWhitespaces f
    match g.cur with
    | [] => (.incomplete, g)
    | c :: _ =>
      if c = ch '"' then parseString g
      else if c = ch '{' then parseObject (parseValue n) n g
      else if c = ch '[' then parseArray (parseValue n) n g
      else if c = ch 'n' then expect (str "null") .null g
      else if c = ch 't' then expect (str "true") .tru g
      else if c = ch 'f' then expect (str "false") .fls g
      else if c = ch '-' ∨ isDigit c then parseNumber g
      else (.invalid, g)

/-- The state `json_walk` starts in. -/
def startState (s : Bytes) : Frozen := ⟨s, [], 0, []⟩

/-- `json_walk` (with `doit`): the code, and the final state with the callbacks made. -/
def jsonWalk (s : Bytes) : Code × Frozen :=
  if s = [] then (.incomplete, startState s) else parseValue (s.length + 1) (startState s)

/-- The callbacks `json_walk` makes, oldest first. -/
def events (s : Bytes) : List Event := (jsonWalk s).2.log

end Thronix.Json
