import Thronix.Lib.Stuffing
import Mathlib.Data.Int.Basic
import Mathlib.Tactic.SplitIfs

/-!
# Thronix.Protocol — the serial frames of the GUI

`QtWorkspace/GuiMonitoringSystem/protocol.c`.  A pointer to memory is the list of the bytes from there on; an access
outside it makes the result `none`.

* `frameStuffing`, `frameDeStuffing`: the two loops.  The second works in place, its read index `i` ahead of the index
  `w` it writes at.
* `addChecksumAndStuff`, `destuffAndCheckChecksum`, `createFrame`, for any `create_checksum` (`crc.h` is not there).
  `malloc` succeeds or not.
* `frameCode`: the stuffing as a code.
-/

namespace Thronix

open Lib

/-! ## Constants -/

def startFrameChar : BitVec 8 := 0xCF

def stopFrameChar : BitVec 8 := 0xDF

def escapeChar : BitVec 8 := 0xEF

def stuffingMask : BitVec 8 := 0x02

def protErrorBadChecksum : ℤ := -1

def protErrorNoMem : ℤ := -3

def protErrorStuffedFrameTooLong : ℤ := -4

def protErrorCommandTooLong : ℤ := -5

/-! ## Memory -/

/-- `p[i]`. -/
def load (m : List (BitVec 8)) (i : ℤ) : Option (BitVec 8) := if 0 ≤ i then m[i.toNat]? else none

/-- `p[i] = b`. -/
def store (m : List (BitVec 8)) (i : ℤ) (b : BitVec 8) : Option (List (BitVec 8)) :=
  if 0 ≤ i ∧ i < m.length then some (m.set i.toNat b) else none

/-- The `n` bytes at `p`, read. -/
def loadBytes (m : List (BitVec 8)) (n : ℤ) : Option (List (BitVec 8)) :=
  if 0 ≤ n ∧ n ≤ m.length then some (m.take n.toNat) else none

/-- `memcpy(p + i, bytes, ..)`. -/
def storeBytes (m : List (BitVec 8)) (i : ℕ) (bytes : List (BitVec 8)) : Option (List (BitVec 8)) :=
  if i + bytes.length ≤ m.length then some (m.take i ++ bytes ++ m.drop (i + bytes.length)) else none

/-! ## Stuffing -/

/-- `START_FRAME_CHAR`, `STOP_FRAME_CHAR` or `ESCAPE_CHAR`. -/
def isSpecial (b : BitVec 8) : Bool := b == startFrameChar || b == stopFrameChar || b == escapeChar

/-- The loop of `frame_stuffing`, with the bytes that `origen` still has to give. -/
def stuffLoop (longitudMaxima : ℤ) : List (BitVec 8) → List (BitVec 8) → ℕ → Option (List (BitVec 8) × ℕ)
  | [], destino, j => some (destino, j)
  | tmp :: origen, destino, j =>
    if j < longitudMaxima then
      if isSpecial tmp then do
        let destino ← store destino j escapeChar
        let destino ← store destino (j + 1) (tmp ^^^ stuffingMask)
        stuffLoop longitudMaxima origen destino (j + 2)
      else do
        let destino ← store destino j tmp
        stuffLoop longitudMaxima origen destino (j + 1)
    else some (destino, j)

/-- `frame_stuffing` of the `longitud` bytes `origen`: `destino` after the call, and the result. -/
def frameStuffing (origen destino : List (BitVec 8)) (longitudMaxima : ℤ) : Option (List (BitVec 8) × ℤ) := do
  let (destino, j) ← stuffLoop longitudMaxima origen destino 0
  pure (destino, if j > longitudMaxima then protErrorStuffedFrameTooLong else j)

/-- The loop of `frame_DeStuffing`.  Each round reads on, so `longitud` rounds are enough. -/
def deStuffLoop (longitud : ℕ) : ℕ → List (BitVec 8) → ℕ → ℕ → ℕ → Option (List (BitVec 8) × ℕ)
  | 0, frame, _, _, numStuffedBytes => some (frame, numStuffedBytes)
  | rounds + 1, frame, i, w, numStuffedBytes =>
    if i < longitud then do
      let b ← load frame i
      if b = escapeChar then do
        let b ← load frame (i + 1)
        if b ≠ escapeChar then do
          let frame ← store frame w (b ^^^ stuffingMask)
          deStuffLoop longitud rounds frame (i + 2) (w + 1) (numStuffedBytes + 1)
        else deStuffLoop longitud rounds frame (i + 2) w (numStuffedBytes + 1)
      else do
        let frame ← store frame w b
        deStuffLoop longitud rounds frame (i + 1) (w + 1) numStuffedBytes
    else some (frame, numStuffedBytes)

/-- `frame_DeStuffing`. -/
def frameDeStuffing (frame : List (BitVec 8)) (longitud : ℕ) : Option (List (BitVec 8) × ℤ) := do
  let (frame, numStuffedBytes) ← deStuffLoop longitud longitud frame 0 0 0
  pure (frame, longitud - numStuffedBytes)

/-! ## Frames -/

section Frames

-- `create_checksum`, of the bytes it is given
variable (createChecksum : List (BitVec 8) → BitVec 16)

/-- `add_checksum_and_stuff`. -/
def addChecksumAndStuff (malloc : Bool) (frame : List (BitVec 8)) (size maxSize : ℤ) :
    Option (List (BitVec 8) × ℤ) := do
  let bytes ← loadBytes frame size
  let checksum := createChecksum bytes
  let frame ← store frame size (checksum.setWidth 8)
  let frame ← store frame (size + 1) ((checksum >>> 8).setWidth 8)
  let size := size + 2
  if malloc then do
    -- the copy has `maxSize` bytes of room
    let copy ← if size ≤ maxSize then loadBytes frame size else none
    frameStuffing copy frame maxSize
  else pure (frame, protErrorNoMem)

/-- `destuff_and_check_checksum`. -/
def destuffAndCheckChecksum (frame : List (BitVec 8)) (maxSize : ℕ) : Option (List (BitVec 8) × ℤ) := do
  let (frame, size) ← frameDeStuffing frame maxSize
  let bytes ← loadBytes frame (size - 2)
  let high ← load frame (size - 1)
  let low ← load frame (size - 2)
  let checksum : BitVec 16 := (high.setWidth 16 <<< 8) ||| low.setWidth 16
  pure (frame, if checksum ≠ createChecksum bytes then protErrorBadChecksum else size)

/-- The parameters behind the command: `if (param_size > 0) memcpy(auxptr, param, param_size)`. -/
def copyParam (frame param : List (BitVec 8)) (paramSize : Int32) : Option (List (BitVec 8)) :=
  if paramSize > 0 then (loadBytes param paramSize.toInt).bind fun bytes => storeBytes frame 2 bytes else some frame

/-- `create_frame`. -/
def createFrame (malloc : Bool) (frame : List (BitVec 8)) (commandType : BitVec 8) (param : List (BitVec 8))
    (paramSize maxSize : Int32) : Option (List (BitVec 8) × ℤ) := do
  let frame ← store frame 0 startFrameChar
  let minSize := 5 + paramSize
  if minSize ≥ maxSize then pure (frame, protErrorCommandTooLong)
  else do
    let frame ← store frame 1 commandType
    let frame ← copyParam frame param paramSize
    let (body, size) ← addChecksumAndStuff createChecksum malloc (frame.drop 1) (minSize - 4).toInt (maxSize - 2).toInt
    let frame ← store (frame.take 1 ++ body) (size + 1) stopFrameChar
    pure (frame, size + 2)

end Frames

end Thronix
