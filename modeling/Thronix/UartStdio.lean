import Thronix.Lib.Ring

/-!
# Thronix.UartStdio — the console

`UARTgets` of `utils/uartstdio.c` with its command history, as `vUARTTask` of `commands.c` calls it: with the echo on,
which nothing turns off, and with a buffer of 64 bytes.  What is echoed is left out.  An access outside an array makes
the result `none`.

* `UartStdio`: the buffer and the static variables of the history.
* `Gets.read`: a turn of the loop of `UARTgets`, for one character; `Gets.step` with the end of the call.
* `uartGets`: a call that reads the given characters.
* `Console`: `vUARTTask`, a call after the other on a stream of characters.
-/

namespace Thronix

open Lib.Ring

/-! ## Characters -/

namespace Ascii

def backspace : BitVec 8 := 0x08

def lf : BitVec 8 := 0x0A

def cr : BitVec 8 := 0x0D

def esc : BitVec 8 := 0x1B

def bracket : BitVec 8 := 0x5B

/-- The last character of an UP arrow. -/
def up : BitVec 8 := 0x41

/-- The last character of a DOWN arrow. -/
def down : BitVec 8 := 0x42

def del : BitVec 8 := 0x7F

end Ascii

/-! ## The history -/

/-- `g_ubEscMode`: 0, 1 or 2. -/
inductive EscMode
  | off
  | escape
  | bracket
  deriving DecidableEq, Repr

structure UartStdio where
  /-- `pcCmdBuf` of the task. -/
  pcBuf : List (BitVec 8)
  rxHistoryBuffer : List (BitVec 8)
  rxHistoryOffset : List ℕ
  rxHistoryBufIndex : ℕ
  rxHistoryNext : ℤ
  rxHistoryCur : ℤ
  rxHistoryCnt : ℤ
  escMode : EscMode
  deriving DecidableEq, Repr

/-- An index of `g_pcUARTRxHistoryBuffer` after `++` and the test against its size. -/
def bufNext (y : ℕ) : ℕ := if y + 1 ≥ 512 then 0 else y + 1

theorem bufNext_eq {y : ℕ} (h : y < 512) : bufNext y = (y + 1) % 512 := by
  unfold bufNext
  split_ifs <;> omega

theorem bufNext_lt {y : ℕ} (h : y < 512) : bufNext y < 512 := by
  rw [bufNext_eq h]
  omega

namespace UartStdio

/-- The static variables at the start. -/
def init (pcBuf : List (BitVec 8)) : UartStdio :=
  { pcBuf := pcBuf, rxHistoryBuffer := List.replicate 512 0, rxHistoryOffset := List.replicate 16 0
    rxHistoryBufIndex := 0, rxHistoryNext := 0, rxHistoryCur := -1, rxHistoryCnt := 0, escMode := .off }

variable (s : UartStdio)

/-- The loop that compares the command with the last one: `count` characters, from `pcBuf[x]` and from place `y`. -/
def sameAsLast : ℕ → ℕ → ℕ → Option Bool
  | 0, _, y => (get s.rxHistoryBuffer y).map (· == 0)
  | count + 1, x, y => do
    let b ← get s.rxHistoryBuffer y
    let c ← get s.pcBuf x
    if b ≠ c then some false else sameAsLast count (x + 1) (bufNext y)

def duplicateCmd (count : ℕ) : Option Bool :=
  if s.rxHistoryCnt > 0 then do
    let prev := if s.rxHistoryNext - 1 < 0 then 15 else s.rxHistoryNext - 1
    let y ← get s.rxHistoryOffset prev
    s.sameAsLast count 0 y
  else some false

/-- The loop that copies the command to the history, and its terminator. -/
def saveLoop (pcBuf : List (BitVec 8)) : ℕ → ℕ → List (BitVec 8) → ℕ → Option (List (BitVec 8) × ℕ)
  | 0, _, buffer, index => do
    let buffer ← put buffer index 0
    some (buffer, bufNext index)
  | count + 1, x, buffer, index => do
    let c ← get pcBuf x
    let buffer ← put buffer index c
    saveLoop pcBuf count (x + 1) buffer (bufNext index)

def saveCommand (count : ℕ) : Option UartStdio := do
  let offset ← put s.rxHistoryOffset s.rxHistoryNext s.rxHistoryBufIndex
  let (buffer, index) ← saveLoop s.pcBuf count 0 s.rxHistoryBuffer s.rxHistoryBufIndex
  some { s with
    rxHistoryBuffer := buffer
    rxHistoryOffset := offset
    rxHistoryBufIndex := index
    rxHistoryNext := if s.rxHistoryNext + 1 = 16 then 0 else s.rxHistoryNext + 1
    rxHistoryCnt := if s.rxHistoryCnt ≠ 16 then s.rxHistoryCnt + 1 else s.rxHistoryCnt }

variable {s} in
theorem saveCommand_eq {count index : ℕ} {offset : List ℕ} {buffer : List (BitVec 8)}
    (hput : put s.rxHistoryOffset s.rxHistoryNext s.rxHistoryBufIndex = some offset)
    (hloop : saveLoop s.pcBuf count 0 s.rxHistoryBuffer s.rxHistoryBufIndex = some (buffer, index)) :
    s.saveCommand count = some { s with
      rxHistoryBuffer := buffer
      rxHistoryOffset := offset
      rxHistoryBufIndex := index
      rxHistoryNext := if s.rxHistoryNext + 1 = 16 then 0 else s.rxHistoryNext + 1
      rxHistoryCnt := if s.rxHistoryCnt ≠ 16 then s.rxHistoryCnt + 1 else s.rxHistoryCnt } := by
  simp only [saveCommand, hput, hloop, Option.bind_eq_bind, Option.bind_some]

/-- The command is added to the history, unless it is the last one again. -/
def addCommand (count : ℕ) : Option UartStdio := do
  let duplicate ← s.duplicateCmd count
  if duplicate then some s else s.saveCommand count

/-- A CR or LF that ends the line. -/
def endOfLine (count : ℕ) : Option UartStdio := do
  let s ← if count > 0 then s.addCommand count else some s
  some { s with rxHistoryCur := -1 }

end UartStdio

/-! ## `UARTgets` -/

/-- A call of `UARTgets`: `ui32Count` and `bLastWasCR`. -/
structure Gets where
  stdio : UartStdio
  count : ℕ
  bLastWasCR : Bool
  deriving DecidableEq, Repr

/-- The loop that copies an entry of the history to the buffer, up to its terminator.  A 65th turn would store behind
the buffer. -/
def copyHistory (buffer : List (BitVec 8)) : ℕ → List (BitVec 8) → ℕ → ℕ → Option (List (BitVec 8) × ℕ)
  | 0, _, _, _ => none
  | turns + 1, pcBuf, count, copyFrom => do
    let b ← get buffer copyFrom
    if b = 0 then do
      let pcBuf ← put pcBuf count 0
      some (pcBuf, count)
    else do
      let pcBuf ← put pcBuf count b
      copyHistory buffer turns pcBuf (count + 1) (bufNext copyFrom)

namespace Gets

variable (g : Gets)

def start (s : UartStdio) : Gets := ⟨s, 0, false⟩

/-- The line so far. -/
def text : List (BitVec 8) := g.stdio.pcBuf.take g.count

/-- The next character of an escape sequence is `mode`'s. -/
def escape (mode : EscMode) : Gets := { g with stdio := { g.stdio with escMode := mode } }

/-- An entry of the history becomes the line. -/
def showEntry (current : ℤ) : Option Gets := do
  let copyFrom ← get g.stdio.rxHistoryOffset current
  let (pcBuf, count) ← copyHistory g.stdio.rxHistoryBuffer 65 g.stdio.pcBuf 0 copyFrom
  some { g with stdio := { g.stdio with pcBuf := pcBuf, rxHistoryCur := current }, count := count }

def arrowUp : Option Gets :=
  let current := if g.stdio.rxHistoryCur = -1 then g.stdio.rxHistoryNext else g.stdio.rxHistoryCur
  let current := if current - 1 < 0 then 15 else current - 1
  -- at the end of the history only the bell is sent
  if g.stdio.rxHistoryNext = g.stdio.rxHistoryCur ∨ current > g.stdio.rxHistoryCnt then some g
  else g.showEntry current

def arrowDown : Option Gets :=
  if g.stdio.rxHistoryCur = -1 then some g
  else
    let current := if g.stdio.rxHistoryCur + 1 ≥ 16 then 0 else g.stdio.rxHistoryCur + 1
    if current = g.stdio.rxHistoryNext then
      some { g with stdio := { g.stdio with rxHistoryCur := -1 }, count := 0 }
    else g.showEntry current

/-- A turn of the loop, and whether it leaves the loop with `break`. -/
def read (cChar : BitVec 8) : Option (Gets × Bool) :=
  if cChar = Ascii.backspace ∨ cChar = Ascii.del then
    some (if g.count > 0 then { g with count := g.count - 1 } else g, false)
  else if g.stdio.escMode = .escape then
    some (g.escape (if cChar = Ascii.bracket then .bracket else .off), false)
  else if g.stdio.escMode = .bracket then
    if cChar = Ascii.up then (g.escape .off).arrowUp.map fun g => (g, false)
    else if cChar = Ascii.down then (g.escape .off).arrowDown.map fun g => (g, false)
    else some (g.escape .off, false)
  else if cChar = Ascii.lf ∧ g.bLastWasCR then
    some ({ g.escape .off with bLastWasCR := false }, false)
  else if cChar = Ascii.esc then
    some ({ g.escape .escape with bLastWasCR := false }, false)
  else if cChar = Ascii.cr ∨ cChar = Ascii.lf then
    -- the test for an LF behind a CR is made once more here, and is false
    (g.stdio.endOfLine g.count).map fun s =>
      ({ g with stdio := s, bLastWasCR := g.bLastWasCR || cChar == Ascii.cr }, true)
  else if g.count < 63 then
    (put g.stdio.pcBuf g.count cChar).map fun pcBuf =>
      ({ g with stdio := { g.stdio with pcBuf := pcBuf }, count := g.count + 1 }, false)
  else some (g, false)

end Gets

inductive GetsResult
  | reading (g : Gets)
  | returned (s : UartStdio) (count : ℕ)
  deriving DecidableEq, Repr

namespace Gets

/-- A character: the turn, and the return if the loop is left or its condition is false. -/
def step (g : Gets) (cChar : BitVec 8) : Option GetsResult := do
  let (g, left) ← g.read cChar
  if left = true ∨ ¬g.count < 63 then do
    let pcBuf ← put g.stdio.pcBuf g.count 0
    some (.returned { g.stdio with pcBuf := pcBuf } g.count)
  else some (.reading g)

variable {g g' : Gets} {c : BitVec 8} {left : Bool}

theorem read_erase (hc : c = Ascii.backspace ∨ c = Ascii.del) :
    g.read c = some (if g.count > 0 then { g with count := g.count - 1 } else g, false) := by
  rw [read, if_pos hc]

section Plain

variable (hesc : g.stdio.escMode = .off) (hcr : g.bLastWasCR = false)

include hesc hcr

theorem read_end (hc : c = Ascii.cr ∨ c = Ascii.lf) :
    g.read c = (g.stdio.endOfLine g.count).map fun s => ({ g with stdio := s, bLastWasCR := c == Ascii.cr }, true) := by
  have he : ¬(c = Ascii.backspace ∨ c = Ascii.del) := by rcases hc with rfl | rfl <;> decide
  have hx : c ≠ Ascii.esc := by rcases hc with rfl | rfl <;> decide
  simp only [read, if_neg he, hesc, hcr, reduceCtorEq, if_false, Bool.false_eq_true, and_false, if_neg hx, if_pos hc,
    Bool.false_or]

theorem read_store (he : ¬(c = Ascii.backspace ∨ c = Ascii.del)) (hx : c ≠ Ascii.esc)
    (hend : ¬(c = Ascii.cr ∨ c = Ascii.lf)) (hlt : g.count < 63) :
    g.read c = (put g.stdio.pcBuf g.count c).map fun pcBuf =>
      ({ g with stdio := { g.stdio with pcBuf := pcBuf }, count := g.count + 1 }, false) := by
  simp only [read, if_neg he, hesc, hcr, reduceCtorEq, if_false, Bool.false_eq_true, and_false, if_neg hx, if_neg hend,
    if_pos hlt]

end Plain

theorem step_reading (hr : g.read c = some (g', false)) (hlt : g'.count < 63) : g.step c = some (.reading g') := by
  have hgo : ¬(false = true ∨ ¬g'.count < 63) := by simp [hlt]
  simp only [step, hr, Option.bind_eq_bind, Option.bind_some, if_neg hgo]

theorem step_returned (hr : g.read c = some (g', left)) (hend : left = true ∨ ¬g'.count < 63)
    (hbuf : g'.count < g'.stdio.pcBuf.length) :
    g.step c = some (.returned { g'.stdio with pcBuf := g'.stdio.pcBuf.set g'.count 0 } g'.count) := by
  simp only [step, hr, Option.bind_eq_bind, Option.bind_some, if_pos hend, put_natCast hbuf]

/-- Characters in a row; when the call returns there must be no more of them. -/
def feed : Gets → List (BitVec 8) → Option GetsResult
  | g, [] => some (.reading g)
  | g, cChar :: chars => do
    match ← g.step cChar with
    | .reading g => g.feed chars
    | .returned s count => if chars = [] then some (.returned s count) else none

end Gets

/-- A call that reads exactly the given characters: what it leaves, and its result. -/
def uartGets (s : UartStdio) (chars : List (BitVec 8)) : Option (UartStdio × ℕ) := do
  match ← (Gets.start s).feed chars with
  | .reading _ => none
  | .returned s count => some (s, count)

/-! ## `vUARTTask` -/

/-- The contents of `pcCmdBuf` at the start, and what `CmdLineProcess` and the commands make of it. -/
structure CmdLine where
  fresh : List (BitVec 8)
  process : List (BitVec 8) → List (BitVec 8)
  length_fresh : fresh.length = 64
  length_process : ∀ pcBuf, (process pcBuf).length = pcBuf.length

/-- A task whose commands leave the buffer alone. -/
def CmdLine.quiet : CmdLine where
  fresh := List.replicate 64 0
  process pcBuf := pcBuf
  length_fresh := List.length_replicate
  length_process _ := rfl

/-- The call in progress, and the strings that have been returned. -/
structure Console where
  gets : Gets
  lines : List (List (BitVec 8))

namespace Console

variable (cl : CmdLine)

def init : Console := ⟨.start (.init cl.fresh), []⟩

/-- A character from the UART. -/
def step (t : Console) (cChar : BitVec 8) : Option Console := do
  match ← t.gets.step cChar with
  | .reading g => some { t with gets := g }
  | .returned s count =>
    some ⟨.start { s with pcBuf := cl.process s.pcBuf }, t.lines ++ [s.pcBuf.take count]⟩

variable {cl} {t : Console} {c : BitVec 8}

theorem step_of_reading {g : Gets} (h : t.gets.step c = some (.reading g)) :
    t.step cl c = some { t with gets := g } := by
  simp only [step, h, Option.bind_eq_bind, Option.bind_some]

theorem step_of_returned {s : UartStdio} {count : ℕ} (h : t.gets.step c = some (.returned s count)) :
    t.step cl c = some ⟨.start { s with pcBuf := cl.process s.pcBuf }, t.lines ++ [s.pcBuf.take count]⟩ := by
  simp only [step, h, Option.bind_eq_bind, Option.bind_some]

end Console

end Thronix
