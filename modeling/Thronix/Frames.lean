import Thronix.Protocol
import Mathlib.Algebra.Order.Ring.Int

/-!
# Thronix.Frames — frames survive the way over the wire

* `frameCode`: the stuffing of the protocol as a code.
* `stuffLoop_eq`, `deStuffLoop_eq`: the two loops compute its encoder and its decoder.  The in-place loop leaves a gap
  between what it has written and what it has still to read.
* `frame_round_trip`: a frame that was created is decoded to what went into it.
-/

namespace Thronix

open Lib Lib.Stuffing

/-- Three special bytes; the mask makes each of them an ordinary one. -/
def frameCode : Code (BitVec 8) where
  special := isSpecial
  esc := escapeChar
  mask b := b ^^^ stuffingMask
  special_esc := by decide
  mask_mask b := by rw [BitVec.xor_assoc, BitVec.xor_self, BitVec.xor_zero]
  special_mask b hb := by
    simp only [isSpecial, Bool.or_eq_true, beq_iff_eq] at hb
    rcases hb with (rfl | rfl) | rfl <;> decide

/-! ## Memory -/

section Memory

variable {pre post : List (BitVec 8)} {a b : BitVec 8}

theorem load_at {i : ℤ} (hi : i = pre.length) : load (pre ++ a :: post) i = some a := by
  subst hi
  simp [load]

theorem store_at {i : ℤ} (hi : i = pre.length) : store (pre ++ a :: post) i b = some (pre ++ b :: post) := by
  subst hi
  have hlt : (0 : ℤ) ≤ (pre.length : ℤ) ∧ (pre.length : ℤ) < ((pre ++ a :: post).length : ℤ) := by
    simp only [List.length_append, List.length_cons]
    omega
  rw [store, if_pos hlt, Int.toNat_natCast, List.set_append_right _ _ (le_refl _), Nat.sub_self]
  rfl

theorem loadBytes_at {n : ℤ} (hn : n = pre.length) : loadBytes (pre ++ post) n = some pre := by
  subst hn
  simp [loadBytes]

end Memory

/-! ## The loops -/

section Stuff

variable {longitudMaxima : ℤ} {tmp x y : BitVec 8} {origen pre room : List (BitVec 8)}

theorem stuffLoop_plain (hsp : isSpecial tmp = false) (hlt : (pre.length : ℤ) < longitudMaxima) :
    stuffLoop longitudMaxima (tmp :: origen) (pre ++ x :: room) pre.length =
      stuffLoop longitudMaxima origen ((pre ++ [tmp]) ++ room) (pre ++ [tmp]).length := by
  have hnot : ¬isSpecial tmp = true := by simp [hsp]
  rw [stuffLoop, if_pos hlt, if_neg hnot, store_at rfl]
  simp

theorem stuffLoop_special (hsp : isSpecial tmp = true) (hlt : (pre.length : ℤ) < longitudMaxima) :
    stuffLoop longitudMaxima (tmp :: origen) (pre ++ x :: y :: room) pre.length =
      stuffLoop longitudMaxima origen ((pre ++ [escapeChar, tmp ^^^ stuffingMask]) ++ room)
        (pre ++ [escapeChar, tmp ^^^ stuffingMask]).length := by
  have hsecond : store (pre ++ escapeChar :: y :: room) ((pre.length : ℤ) + 1) (tmp ^^^ stuffingMask) =
      some (pre ++ escapeChar :: (tmp ^^^ stuffingMask) :: room) := by
    have hat : store ((pre ++ [escapeChar]) ++ y :: room) ((pre.length : ℤ) + 1) (tmp ^^^ stuffingMask) =
        some ((pre ++ [escapeChar]) ++ (tmp ^^^ stuffingMask) :: room) := store_at (by simp)
    simpa using hat
  rw [stuffLoop, if_pos hlt, if_pos hsp, store_at rfl]
  simp only [Option.bind_eq_bind, Option.bind_some, hsecond]
  simp

/-- `frame_stuffing` writes the stuffed bytes over as many others. -/
theorem stuffLoop_eq {rest : List (BitVec 8)} (hroom : room.length = (frameCode.stuff origen).length)
    (hmax : (pre.length : ℤ) + (frameCode.stuff origen).length ≤ longitudMaxima) :
    stuffLoop longitudMaxima origen (pre ++ (room ++ rest)) pre.length = some
      (pre ++ (frameCode.stuff origen ++ rest), pre.length + (frameCode.stuff origen).length) := by
  induction origen generalizing pre room with
  | nil =>
    obtain rfl := List.length_eq_zero_iff.mp hroom
    rfl
  | cons tmp origen ih =>
    rw [Code.stuff_cons, List.length_append] at hroom hmax
    rcases hsp : isSpecial tmp with _ | _
    · have hsym : frameCode.symbol tmp = [tmp] := Code.symbol_plain hsp
      rw [hsym, List.length_singleton] at hroom hmax
      rcases room with _ | ⟨x, room⟩
      · rw [List.length_nil] at hroom
        omega
      · rw [List.length_cons] at hroom
        have hlen : (pre ++ [tmp]).length = pre.length + 1 := by simp
        rw [List.cons_append, stuffLoop_plain hsp (by omega), ih (by omega) (by omega), Code.stuff_cons, hsym, hlen]
        simp only [List.append_assoc, List.length_append, List.length_singleton, Nat.add_assoc]
    · have hsym : frameCode.symbol tmp = [escapeChar, tmp ^^^ stuffingMask] := Code.symbol_special hsp
      have htwo : [escapeChar, tmp ^^^ stuffingMask].length = 2 := rfl
      rw [hsym, htwo] at hroom hmax
      rcases room with _ | ⟨x, _ | ⟨y, room⟩⟩
      · rw [List.length_nil] at hroom
        omega
      · rw [List.length_singleton] at hroom
        omega
      · rw [List.length_cons, List.length_cons] at hroom
        have hlen : (pre ++ [escapeChar, tmp ^^^ stuffingMask]).length = pre.length + 2 := by simp
        rw [List.cons_append, List.cons_append, stuffLoop_special hsp (by omega), ih (by omega) (by omega),
          Code.stuff_cons, hsym, hlen]
        simp only [List.append_assoc, List.length_append, htwo, Nat.add_assoc]

/-- **`frame_stuffing` encodes**, where the stuffed form fits. -/
theorem frameStuffing_eq {rest : List (BitVec 8)} (hroom : room.length = (frameCode.stuff origen).length)
    (hmax : ((frameCode.stuff origen).length : ℤ) ≤ longitudMaxima) :
    frameStuffing origen (room ++ rest) longitudMaxima =
      some (frameCode.stuff origen ++ rest, ((frameCode.stuff origen).length : ℤ)) := by
  have hloop : stuffLoop longitudMaxima origen (room ++ rest) 0 =
      some (frameCode.stuff origen ++ rest, (frameCode.stuff origen).length) := by
    have hnil : stuffLoop longitudMaxima origen ([] ++ (room ++ rest)) ([] : List (BitVec 8)).length =
        some ([] ++ (frameCode.stuff origen ++ rest), ([] : List (BitVec 8)).length + (frameCode.stuff origen).length) :=
      stuffLoop_eq hroom (by simpa using hmax)
    simpa using hnil
  simp [frameStuffing, hloop, not_lt.mpr hmax]

end Stuff

section DeStuff

/-- The loop of `frame_DeStuffing`, with the index it has written up to. -/
def deStuffLoopTo (longitud : ℕ) : ℕ → List (BitVec 8) → ℕ → ℕ → ℕ → Option (List (BitVec 8) × ℕ × ℕ)
  | 0, frame, _, w, numStuffedBytes => some (frame, w, numStuffedBytes)
  | rounds + 1, frame, i, w, numStuffedBytes =>
    if i < longitud then do
      let b ← load frame i
      if b = escapeChar then do
        let b ← load frame (i + 1)
        if b ≠ escapeChar then do
          let frame ← store frame w (b ^^^ stuffingMask)
          deStuffLoopTo longitud rounds frame (i + 2) (w + 1) (numStuffedBytes + 1)
        else deStuffLoopTo longitud rounds frame (i + 2) w (numStuffedBytes + 1)
      else do
        let frame ← store frame w b
        deStuffLoopTo longitud rounds frame (i + 1) (w + 1) numStuffedBytes
    else some (frame, w, numStuffedBytes)

variable {n rounds i w k : ℕ} {a b : BitVec 8} {frame out gap front x rest : List (BitVec 8)}

theorem deStuffLoop_eq_map : deStuffLoop n rounds frame i w k =
    (deStuffLoopTo n rounds frame i w k).map fun s => (s.1, s.2.2) := by
  induction rounds generalizing frame i w k with
  | zero => rfl
  | succ rounds ih =>
    rw [deStuffLoop, deStuffLoopTo]
    by_cases hin : i < n
    · rw [if_pos hin, if_pos hin]
      cases load frame i with
      | none => rfl
      | some b =>
        by_cases hb : b = escapeChar
        · simp only [Option.bind_eq_bind, Option.bind_some, if_pos hb]
          cases load frame (i + 1) with
          | none => rfl
          | some a =>
            by_cases ha : a ≠ escapeChar
            · simp only [Option.bind_some, if_pos ha]
              cases store frame w (a ^^^ stuffingMask) with
              | none => rfl
              | some frame => exact ih
            · simp only [Option.bind_some, if_neg ha]
              exact ih
        · simp only [Option.bind_eq_bind, Option.bind_some, if_neg hb]
          cases store frame w b with
          | none => rfl
          | some frame => exact ih
    · rw [if_neg hin, if_neg hin]
      rfl

/-- What is read lies behind the gap. -/
theorem load_gap : load (out ++ (gap ++ b :: rest)) ((out.length + gap.length : ℕ) : ℤ) = some b := by
  rw [← List.append_assoc]
  exact load_at (by rw [List.length_append])

/-- What is written goes into the gap, which moves on over what was read. -/
theorem store_gap (hfront : front ≠ []) : ∃ gap', gap'.length + 1 = gap.length + front.length ∧
    store (out ++ (gap ++ (front ++ rest))) (out.length : ℕ) b = some ((out ++ [b]) ++ (gap' ++ rest)) := by
  obtain ⟨h, gap', hgap⟩ := List.exists_cons_of_ne_nil (by simp [hfront] : gap ++ front ≠ [])
  refine ⟨gap', ?_, ?_⟩
  · rw [← List.length_append, hgap, List.length_cons]
  · rw [← List.append_assoc gap, hgap, List.cons_append, store_at rfl]
    simp

theorem deStuffLoopTo_plain (hb : b ≠ escapeChar) (hin : out.length + gap.length < n) :
    ∃ gap', gap'.length = gap.length ∧
      deStuffLoopTo n (rounds + 1) (out ++ (gap ++ b :: rest)) (out.length + gap.length) out.length k =
        deStuffLoopTo n rounds ((out ++ [b]) ++ (gap' ++ rest)) ((out ++ [b]).length + gap'.length)
          (out ++ [b]).length k := by
  obtain ⟨gap', hlen, hstore⟩ : ∃ gap', gap'.length + 1 = gap.length + 1 ∧
      store (out ++ (gap ++ b :: rest)) (out.length : ℕ) b = some ((out ++ [b]) ++ (gap' ++ rest)) :=
    store_gap (List.cons_ne_nil b [])
  refine ⟨gap', by omega, ?_⟩
  rw [deStuffLoopTo, if_pos hin, load_gap]
  simp only [Option.bind_eq_bind, Option.bind_some, if_neg hb, hstore, List.length_append, List.length_singleton]
  rw [show out.length + 1 + gap'.length = out.length + gap.length + 1 by omega]

/-- The byte behind an escape. -/
theorem load_behind : load (out ++ (gap ++ escapeChar :: a :: rest)) (((out.length + gap.length : ℕ) : ℤ) + 1) =
    some a := by
  have hat : load ((out ++ gap ++ [escapeChar]) ++ a :: rest) (((out.length + gap.length : ℕ) : ℤ) + 1) = some a :=
    load_at (by simp [add_assoc])
  simpa using hat

theorem deStuffLoopTo_escaped (ha : a ≠ escapeChar) (hin : out.length + gap.length < n) :
    ∃ gap', gap'.length = gap.length + 1 ∧
      deStuffLoopTo n (rounds + 1) (out ++ (gap ++ escapeChar :: a :: rest)) (out.length + gap.length) out.length k =
        deStuffLoopTo n rounds ((out ++ [a ^^^ stuffingMask]) ++ (gap' ++ rest))
          ((out ++ [a ^^^ stuffingMask]).length + gap'.length) (out ++ [a ^^^ stuffingMask]).length (k + 1) := by
  obtain ⟨gap', hlen, hstore⟩ : ∃ gap', gap'.length + 1 = gap.length + 2 ∧
      store (out ++ (gap ++ escapeChar :: a :: rest)) (out.length : ℕ) (a ^^^ stuffingMask) =
        some ((out ++ [a ^^^ stuffingMask]) ++ (gap' ++ rest)) := store_gap (List.cons_ne_nil escapeChar [a])
  refine ⟨gap', by omega, ?_⟩
  rw [deStuffLoopTo, if_pos hin, load_gap]
  simp only [Option.bind_eq_bind, Option.bind_some, if_true, load_behind, ne_eq, ha, not_false_eq_true, hstore,
    List.length_append, List.length_singleton]
  rw [show out.length + 1 + gap'.length = out.length + gap.length + 2 by omega]

/-- Two escapes: nothing is written, and the gap has both of them. -/
theorem deStuffLoopTo_doubled (hin : out.length + gap.length < n) :
    deStuffLoopTo n (rounds + 1) (out ++ (gap ++ escapeChar :: escapeChar :: rest)) (out.length + gap.length)
        out.length k =
      deStuffLoopTo n rounds (out ++ ((gap ++ [escapeChar, escapeChar]) ++ rest))
        (out.length + (gap ++ [escapeChar, escapeChar]).length) out.length (k + 1) := by
  rw [deStuffLoopTo, if_pos hin, load_gap]
  simp only [Option.bind_eq_bind, Option.bind_some, if_true, load_behind, ne_eq, not_true_eq_false, if_false,
    List.append_assoc, List.cons_append, List.nil_append, List.length_append, List.length_cons, List.length_nil]
  rfl

/-- An escape at the end: the byte behind it is not there. -/
theorem deStuffLoopTo_ended (hin : out.length + gap.length < n) :
    deStuffLoopTo n (rounds + 1) (out ++ (gap ++ [escapeChar])) (out.length + gap.length) out.length k = none := by
  have hend : load (out ++ (gap ++ [escapeChar])) (((out.length + gap.length : ℕ) : ℤ) + 1) = none := by
    have hpos : (0 : ℤ) ≤ ((out.length + gap.length : ℕ) : ℤ) + 1 := by omega
    rw [load, if_pos hpos]
    refine List.getElem?_eq_none ?_
    simp only [List.length_append, List.length_singleton]
    omega
  rw [deStuffLoopTo, if_pos hin, load_gap]
  simp only [Option.bind_eq_bind, Option.bind_some, if_true, hend, Option.bind_none]

/-- `frame_DeStuffing` on an escaped text: what it has written, the gap behind it, what it has still to read. -/
theorem deStuffLoopTo_eq (rest : List (BitVec 8)) (hx : frameCode.Escaped x)
    (hn : n = out.length + gap.length + x.length) (hr : x.length ≤ rounds) :
    ∃ gap', gap'.length + (frameCode.unstuff x).length = gap.length + x.length ∧
      deStuffLoopTo n rounds (out ++ (gap ++ (x ++ rest))) (out.length + gap.length) out.length k =
        some (out ++ (frameCode.unstuff x ++ (gap' ++ rest)), out.length + (frameCode.unstuff x).length,
          k + x.count escapeChar) := by
  induction hx generalizing out gap rounds k with
  | nil =>
    refine ⟨gap, rfl, ?_⟩
    rcases rounds with _ | rounds
    · rfl
    · have hdone : ¬out.length + gap.length < n := by
        rw [hn, List.length_nil]
        omega
      rw [deStuffLoopTo, if_neg hdone]
      rfl
  | @plain b x hb hx ih =>
    rw [List.length_cons] at hn hr
    obtain ⟨rounds, rfl⟩ := Nat.exists_eq_add_of_le' (by omega : 1 ≤ rounds)
    obtain ⟨gap', hlen, hround⟩ := @deStuffLoopTo_plain n rounds k b out gap (x ++ rest) hb (by omega)
    have hn' : n = (out ++ [b]).length + gap'.length + x.length := by
      rw [List.length_append, List.length_singleton]
      omega
    obtain ⟨gap'', hcount, hloop⟩ := ih hn' (by omega : x.length ≤ rounds)
    refine ⟨gap'', ?_, ?_⟩
    · rw [Code.unstuff_cons hb, List.length_cons, List.length_cons]
      omega
    · have hescapes : (b :: x).count escapeChar = x.count escapeChar := List.count_cons_of_ne hb
      rw [List.cons_append, hround, hloop, Code.unstuff_cons hb, hescapes]
      simp [Nat.add_assoc, Nat.add_comm 1]
  | @escaped a x ha hx ih =>
    rw [List.length_cons, List.length_cons] at hn hr
    obtain ⟨rounds, rfl⟩ := Nat.exists_eq_add_of_le' (by omega : 1 ≤ rounds)
    obtain ⟨gap', hlen, hround⟩ := @deStuffLoopTo_escaped n rounds k a out gap (x ++ rest) ha (by omega)
    have hn' : n = (out ++ [a ^^^ stuffingMask]).length + gap'.length + x.length := by
      rw [List.length_append, List.length_singleton]
      omega
    obtain ⟨gap'', hcount, hloop⟩ := ih hn' (by omega : x.length ≤ rounds)
    have hun : frameCode.unstuff (escapeChar :: a :: x) = (a ^^^ stuffingMask) :: frameCode.unstuff x :=
      Code.unstuff_escaped a x
    refine ⟨gap'', ?_, ?_⟩
    · show gap''.length + (frameCode.unstuff (escapeChar :: a :: x)).length = _
      rw [hun, List.length_cons, List.length_cons, List.length_cons]
      omega
    · have hescapes : (escapeChar :: a :: x).count escapeChar = x.count escapeChar + 1 := by
        rw [List.count_cons_self]
        exact congrArg (· + 1) (List.count_cons_of_ne ha)
      show deStuffLoopTo n (rounds + 1) (out ++ (gap ++ escapeChar :: a :: (x ++ rest))) _ _ _ =
        some (out ++ (frameCode.unstuff (escapeChar :: a :: x) ++ _),
          _ + (frameCode.unstuff (escapeChar :: a :: x)).length, k + (escapeChar :: a :: x).count escapeChar)
      rw [hround, hloop, hun, hescapes]
      simp [Nat.add_assoc, Nat.add_comm 1]

theorem deStuffLoop_eq (rest : List (BitVec 8)) (hx : frameCode.Stuffed x) (hn : n = out.length + gap.length + x.length)
    (hr : x.length ≤ rounds) :
    ∃ gap', gap'.length + (frameCode.unstuff x).length = gap.length + x.length ∧
      deStuffLoop n rounds (out ++ (gap ++ (x ++ rest))) (out.length + gap.length) out.length gap.length =
        some (out ++ (frameCode.unstuff x ++ (gap' ++ rest)), gap'.length) := by
  obtain ⟨gap', hcount, hloop⟩ := @deStuffLoopTo_eq n rounds gap.length out gap x rest hx.escaped_of hn hr
  have hescapes : (frameCode.unstuff x).length + x.count escapeChar = x.length := hx.escaped_of.length_unstuff
  refine ⟨gap', hcount, ?_⟩
  rw [deStuffLoop_eq_map, hloop, show gap'.length = gap.length + x.count escapeChar by omega]
  rfl

/-- **`frame_DeStuffing` decodes** a stuffed text in place. -/
theorem frameDeStuffing_eq (rest : List (BitVec 8)) (hx : frameCode.Stuffed x) :
    ∃ gap, gap.length + (frameCode.unstuff x).length = x.length ∧ frameDeStuffing (x ++ rest) x.length =
      some (frameCode.unstuff x ++ (gap ++ rest), ((frameCode.unstuff x).length : ℤ)) := by
  have hn : x.length = ([] : List (BitVec 8)).length + ([] : List (BitVec 8)).length + x.length := by simp
  obtain ⟨gap, hcount, hloop⟩ := deStuffLoop_eq rest hx hn le_rfl
  simp only [List.length_nil, Nat.zero_add, List.nil_append] at hcount hloop
  refine ⟨gap, hcount, ?_⟩
  have hsub : (x.length : ℤ) - gap.length = (frameCode.unstuff x).length := by omega
  simp [frameDeStuffing, hloop, hsub]

end DeStuff

/-! ## Frames -/

section Frame

variable (createChecksum : List (BitVec 8) → BitVec 16)

/-- A command, its parameters and their checksum, low byte first. -/
def frameBody (commandType : BitVec 8) (param : List (BitVec 8)) : List (BitVec 8) :=
  let checksum := createChecksum (commandType :: param)
  commandType :: param ++ [checksum.setWidth 8, (checksum >>> 8).setWidth 8]

variable {createChecksum} {c a b : BitVec 8} {p room rest tail : List (BitVec 8)} {maxSize : ℤ}

theorem length_frameBody : (frameBody createChecksum c p).length = p.length + 3 := by
  simp [frameBody]

/-- The checksum is put behind the command and its parameters, and all of it stuffed. -/
theorem addChecksumAndStuff_eq (hsplit : frameBody createChecksum c p ++ tail = room ++ rest)
    (hroom : room.length = (frameCode.stuff (frameBody createChecksum c p)).length)
    (hmax : ((frameCode.stuff (frameBody createChecksum c p)).length : ℤ) ≤ maxSize)
    (hsize : (p.length : ℤ) + 3 ≤ maxSize) :
    addChecksumAndStuff createChecksum true (c :: p ++ a :: b :: tail) (p.length + 1) maxSize =
      some (frameCode.stuff (frameBody createChecksum c p) ++ rest,
        ((frameCode.stuff (frameBody createChecksum c p)).length : ℤ)) := by
  have hread : loadBytes (c :: p ++ a :: b :: tail) (p.length + 1) = some (c :: p) := loadBytes_at (by simp)
  have hlow : store (c :: p ++ a :: b :: tail) (p.length + 1) ((createChecksum (c :: p)).setWidth 8) =
      some (c :: p ++ (createChecksum (c :: p)).setWidth 8 :: b :: tail) := store_at (by simp)
  have hhigh : store (c :: p ++ (createChecksum (c :: p)).setWidth 8 :: b :: tail) ((p.length : ℤ) + 1 + 1)
      ((createChecksum (c :: p) >>> 8).setWidth 8) = some (frameBody createChecksum c p ++ tail) := by
    have hat : store ((c :: p ++ [(createChecksum (c :: p)).setWidth 8]) ++ b :: tail) ((p.length : ℤ) + 1 + 1)
        ((createChecksum (c :: p) >>> 8).setWidth 8) = some ((c :: p ++ [(createChecksum (c :: p)).setWidth 8]) ++
          (createChecksum (c :: p) >>> 8).setWidth 8 :: tail) := store_at (by simp)
    simpa [frameBody] using hat
  have hcopy : loadBytes (frameBody createChecksum c p ++ tail) ((p.length : ℤ) + 1 + 2) =
      some (frameBody createChecksum c p) := loadBytes_at (by rw [length_frameBody]; omega)
  have hle : (p.length : ℤ) + 1 + 2 ≤ maxSize := by omega
  rw [addChecksumAndStuff, hread]
  simp only [Option.bind_eq_bind, Option.bind_some, hlow, hhigh, if_true, if_pos hle, hcopy]
  rw [hsplit]
  exact frameStuffing_eq hroom hmax

/-- A word from its two bytes. -/
theorem word_of_bytes (w : BitVec 16) :
    ((w >>> 8).setWidth 8).setWidth 16 <<< 8 ||| (w.setWidth 8).setWidth 16 = w := by
  ext i hi
  simp only [BitVec.getElem_or, BitVec.getElem_shiftLeft, BitVec.getElem_setWidth, BitVec.getLsbD_setWidth,
    BitVec.getLsbD_ushiftRight]
  by_cases h8 : i < 8
  · simp [h8, BitVec.getElem_eq_testBit_toNat, BitVec.getLsbD]
  · have h : 8 + (i - 8) = i := by omega
    have h' : i - 8 < 8 := by omega
    simp [h8, h, h', BitVec.getElem_eq_testBit_toNat, BitVec.getLsbD]

variable (createChecksum c p) in
/-- `destuff_and_check_checksum` on the stuffed form of a body. -/
theorem destuffAndCheckChecksum_eq (rest : List (BitVec 8)) : ∃ gap,
    destuffAndCheckChecksum createChecksum (frameCode.stuff (frameBody createChecksum c p) ++ rest)
      (frameCode.stuff (frameBody createChecksum c p)).length =
        some (frameBody createChecksum c p ++ (gap ++ rest), (p.length : ℤ) + 3) := by
  obtain ⟨gap, -, hde⟩ := frameDeStuffing_eq rest (Code.stuffed_stuff (frameBody createChecksum c p))
  rw [Code.unstuff_stuff, length_frameBody] at hde
  refine ⟨gap, ?_⟩
  generalize hck : createChecksum (c :: p) = checksum
  have hbody : frameBody createChecksum c p ++ (gap ++ rest) =
      (c :: p) ++ checksum.setWidth 8 :: (checksum >>> 8).setWidth 8 :: (gap ++ rest) := by
    simp [frameBody, hck]
  have hread : loadBytes ((c :: p) ++ checksum.setWidth 8 :: (checksum >>> 8).setWidth 8 :: (gap ++ rest))
      (((p.length + 3 : ℕ) : ℤ) - 2) = some (c :: p) := by
    refine loadBytes_at ?_
    rw [List.length_cons]
    omega
  have hlow : load ((c :: p) ++ checksum.setWidth 8 :: (checksum >>> 8).setWidth 8 :: (gap ++ rest))
      (((p.length + 3 : ℕ) : ℤ) - 2) = some (checksum.setWidth 8) := by
    refine load_at ?_
    rw [List.length_cons]
    omega
  have hhigh : load ((c :: p) ++ checksum.setWidth 8 :: (checksum >>> 8).setWidth 8 :: (gap ++ rest))
      (((p.length + 3 : ℕ) : ℤ) - 1) = some ((checksum >>> 8).setWidth 8) := by
    have hat : load ((c :: p ++ [checksum.setWidth 8]) ++ (checksum >>> 8).setWidth 8 :: (gap ++ rest))
        (((p.length + 3 : ℕ) : ℤ) - 1) = some ((checksum >>> 8).setWidth 8) := by
      refine load_at ?_
      rw [List.length_append, List.length_cons, List.length_singleton]
      omega
    simpa using hat
  rw [destuffAndCheckChecksum, hde]
  simp only [Option.bind_eq_bind, Option.bind_some, hbody, hread, hlow, hhigh, word_of_bytes, hck]
  simp

end Frame

section RoundTrip

variable {createChecksum : List (BitVec 8) → BitVec 16} {c : BitVec 8} {p frame : List (BitVec 8)}

theorem toInt_paramSize {maxSize : Int32} (hp : (5 + p.length : ℤ) < maxSize.toInt) :
    (Int32.ofNat p.length).toInt = p.length ∧ (5 + Int32.ofNat p.length).toInt = 5 + p.length := by
  have hmax := maxSize.toInt_lt
  have hn : (Int32.ofNat p.length).toInt = p.length := Int32.toInt_ofNat_of_lt (by omega)
  refine ⟨hn, ?_⟩
  have h5 : (5 : Int32).toInt = 5 := rfl
  rw [Int32.toInt_add, hn, h5]
  exact Int.bmod_eq_of_le (by omega) (by omega)

/-- The parameters are copied behind the command, if there are any. -/
theorem copyParam_eq {maxSize : Int32} (hp : (5 + p.length : ℤ) < maxSize.toInt) {a b : BitVec 8}
    {old rest : List (BitVec 8)} (hold : old.length = p.length) :
    copyParam (a :: b :: (old ++ rest)) p (Int32.ofNat p.length) = some (a :: b :: (p ++ rest)) := by
  have hn := (toInt_paramSize hp).1
  have hpos : Int32.ofNat p.length > 0 ↔ 0 < p.length := by
    rw [gt_iff_lt, Int32.lt_iff_toInt_lt, hn, Int32.toInt_zero]
    omega
  by_cases h0 : 0 < p.length
  · have hread : loadBytes (p ++ []) (p.length : ℤ) = some p := loadBytes_at rfl
    rw [List.append_nil] at hread
    have hfit : 2 + p.length ≤ (a :: b :: (old ++ rest)).length := by
      simp only [List.length_cons, List.length_append]
      omega
    have hdrop : (a :: b :: (old ++ rest)).drop (2 + p.length) = rest := by
      rw [Nat.add_comm, ← hold]
      simp
    rw [copyParam, if_pos (hpos.mpr h0), hn, hread, Option.bind_some, storeBytes, if_pos hfit, hdrop]
    rfl
  · have hnil : p = [] := List.length_eq_zero_iff.mp (by omega)
    have hold' : old = [] := List.length_eq_zero_iff.mp (by omega)
    rw [copyParam, if_neg (mt hpos.mp h0), hnil, hold']

/-- A buffer with room for a frame: the bytes that the parameters and the checksum will overwrite. -/
theorem exists_frame {n : ℕ} (hlen : n + 4 ≤ frame.length) : ∃ f0 f1 old x y tail,
    frame = f0 :: f1 :: (old ++ x :: y :: tail) ∧ old.length = n := by
  rcases frame with _ | ⟨f0, _ | ⟨f1, g⟩⟩
  · simp at hlen
  · simp at hlen
  · rw [List.length_cons, List.length_cons] at hlen
    have hdrop : 2 ≤ (g.drop n).length := by
      rw [List.length_drop]
      omega
    obtain ⟨x, h, hx⟩ := List.exists_cons_of_length_pos (by omega : 0 < (g.drop n).length)
    rw [hx, List.length_cons] at hdrop
    obtain ⟨y, tail, rfl⟩ := List.exists_cons_of_length_pos (by omega : 0 < h.length)
    refine ⟨f0, f1, g.take n, x, y, tail, ?_, ?_⟩
    · rw [← hx, List.take_append_drop]
    · rw [List.length_take]
      omega

/-- **`create_frame`**: the start character, the stuffed body, the stop character. -/
theorem createFrame_eq {maxSize : Int32} (hp : (5 + p.length : ℤ) < maxSize.toInt)
    (hroom : maxSize.toInt ≤ frame.length)
    (hs : ((frameCode.stuff (frameBody createChecksum c p)).length : ℤ) ≤ maxSize.toInt - 2) :
    ∃ rest, createFrame createChecksum true frame c p (Int32.ofNat p.length) maxSize =
      some (startFrameChar :: (frameCode.stuff (frameBody createChecksum c p) ++ stopFrameChar :: rest),
        ((frameCode.stuff (frameBody createChecksum c p)).length : ℤ) + 2) := by
  have hmin := (toInt_paramSize hp).2
  have hbound := maxSize.toInt_lt
  obtain ⟨f0, f1, old, x, y, tail, rfl, hold⟩ := exists_frame (by omega : p.length + 4 ≤ frame.length)
  set stuffed := frameCode.stuff (frameBody createChecksum c p) with hstuffed
  have hlen : (f0 :: f1 :: (old ++ x :: y :: tail)).length = p.length + 4 + tail.length := by
    simp only [List.length_cons, List.length_append]
    omega
  have hbody : (frameBody createChecksum c p ++ tail).length = p.length + 3 + tail.length := by
    rw [List.length_append, length_frameBody]
  have hstart : store (f0 :: f1 :: (old ++ x :: y :: tail)) 0 startFrameChar =
      some (startFrameChar :: f1 :: (old ++ x :: y :: tail)) := by
    have hat : store ([] ++ f0 :: (f1 :: (old ++ x :: y :: tail))) 0 startFrameChar =
        some ([] ++ startFrameChar :: (f1 :: (old ++ x :: y :: tail))) := store_at rfl
    exact hat
  have hcommand : store (startFrameChar :: f1 :: (old ++ x :: y :: tail)) 1 c =
      some (startFrameChar :: c :: (old ++ x :: y :: tail)) := by
    have hat : store ([startFrameChar] ++ f1 :: (old ++ x :: y :: tail)) 1 c =
        some ([startFrameChar] ++ c :: (old ++ x :: y :: tail)) := store_at rfl
    exact hat
  have hnot : ¬5 + Int32.ofNat p.length ≥ maxSize := by
    rw [ge_iff_le, Int32.le_iff_toInt_le, hmin]
    omega
  have hsize : (5 + Int32.ofNat p.length - 4).toInt = p.length + 1 := by
    have h4 : (4 : Int32).toInt = 4 := rfl
    rw [Int32.toInt_sub, hmin, h4, Int.bmod_eq_of_le (by omega) (by omega)]
    omega
  have hmax : (maxSize - 2).toInt = maxSize.toInt - 2 := by
    have h2 : (2 : Int32).toInt = 2 := rfl
    rw [Int32.toInt_sub, h2, Int.bmod_eq_of_le (by omega) (by omega)]
  -- the stuffed body and the byte that becomes the stop character
  obtain ⟨room, r, rest, hsplit, hroomlen⟩ : ∃ room r rest,
      frameBody createChecksum c p ++ tail = room ++ r :: rest ∧ room.length = stuffed.length := by
    have hpos : 0 < ((frameBody createChecksum c p ++ tail).drop stuffed.length).length := by
      rw [List.length_drop]
      omega
    obtain ⟨r, rest, hrest⟩ := List.exists_cons_of_length_pos hpos
    refine ⟨(frameBody createChecksum c p ++ tail).take stuffed.length, r, rest, ?_, ?_⟩
    · rw [← hrest, List.take_append_drop]
    · rw [List.length_take]
      omega
  have hadd := addChecksumAndStuff_eq (a := x) (b := y) hsplit hroomlen hs (by omega)
  have hstop : store (startFrameChar :: (stuffed ++ r :: rest)) ((stuffed.length : ℤ) + 1) stopFrameChar =
      some (startFrameChar :: (stuffed ++ stopFrameChar :: rest)) := by
    have hat : store ((startFrameChar :: stuffed) ++ r :: rest) ((stuffed.length : ℤ) + 1) stopFrameChar =
        some ((startFrameChar :: stuffed) ++ stopFrameChar :: rest) := store_at (by simp)
    simpa using hat
  refine ⟨rest, ?_⟩
  rw [createFrame, hstart]
  simp only [Option.bind_eq_bind, Option.bind_some, if_neg hnot, hcommand, copyParam_eq hp hold, hsize, hmax]
  have hdrop : (startFrameChar :: c :: (p ++ x :: y :: tail)).drop 1 = c :: p ++ x :: y :: tail := rfl
  have htake : (startFrameChar :: c :: (p ++ x :: y :: tail)).take 1 = [startFrameChar] := rfl
  rw [hdrop, htake, hadd]
  simp only [Option.bind_some, List.singleton_append, ← hstuffed, hstop]
  rfl

/-- The frame that was created, and what the decoder makes of it. -/
structure Survives (createChecksum : List (BitVec 8) → BitVec 16) (c : BitVec 8) (p frame : List (BitVec 8)) (s : ℕ) :
    Prop where
  start : frame[0]? = some startFrameChar
  stop : frame[s + 1]? = some stopFrameChar
  inner : ∀ b ∈ (frame.drop 1).take s, b ≠ startFrameChar ∧ b ≠ stopFrameChar
  decoded : ∃ after, destuffAndCheckChecksum createChecksum (frame.drop 1) s = some (after, (p.length : ℤ) + 3) ∧
    after.take (p.length + 3) = frameBody createChecksum c p

/-- A stuffed text that is destuffed in place and stuffed again into any buffer with room for it. -/
def StuffsBack (x : List (BitVec 8)) : Prop :=
  ∀ (rest destino : List (BitVec 8)) (longitudMaxima : ℤ), x.length ≤ destino.length →
    (x.length : ℤ) ≤ longitudMaxima →
    ∃ (after destino' : List (BitVec 8)) (m : ℕ), frameDeStuffing (x ++ rest) x.length = some (after, (m : ℤ)) ∧
      frameStuffing (after.take m) destino longitudMaxima = some (destino', (x.length : ℤ)) ∧
      destino'.take x.length = x

theorem survives {s : ℕ} (hs : (frameCode.stuff (frameBody createChecksum c p)).length = s) (rest : List (BitVec 8)) :
    Survives createChecksum c p
      (startFrameChar :: (frameCode.stuff (frameBody createChecksum c p) ++ stopFrameChar :: rest)) s := by
  subst hs
  refine ⟨rfl, ?_, fun b hb => ?_, ?_⟩
  · simp
  · rw [List.drop_succ_cons, List.drop_zero, List.take_left] at hb
    have hword := Code.stuffed_stuff (c := frameCode) (frameBody createChecksum c p)
    constructor
    · rintro rfl
      exact absurd (hword.eq_esc_of_mem hb (by decide)) (by decide)
    · rintro rfl
      exact absurd (hword.eq_esc_of_mem hb (by decide)) (by decide)
  · obtain ⟨gap, hde⟩ := destuffAndCheckChecksum_eq createChecksum c p (stopFrameChar :: rest)
    refine ⟨_, hde, ?_⟩
    rw [← length_frameBody, List.take_left]

theorem stuffsBack {x : List (BitVec 8)} (hx : frameCode.Stuffed x) : StuffsBack x := by
  intro rest destino longitudMaxima hroom hmax
  obtain ⟨gap, -, hde⟩ := frameDeStuffing_eq rest hx
  have hback := hx.stuff_unstuff
  have hlen : (destino.take x.length).length = (frameCode.stuff (frameCode.unstuff x)).length := by
    rw [hback, List.length_take]
    omega
  have hst : frameStuffing (frameCode.unstuff x) (destino.take x.length ++ destino.drop x.length) longitudMaxima =
      some (frameCode.stuff (frameCode.unstuff x) ++ destino.drop x.length,
        ((frameCode.stuff (frameCode.unstuff x)).length : ℤ)) := frameStuffing_eq hlen (by rw [hback]; exact hmax)
  rw [List.take_append_drop, hback] at hst
  refine ⟨frameCode.unstuff x ++ (gap ++ rest), x ++ destino.drop x.length, (frameCode.unstuff x).length, hde, ?_,
    List.take_left⟩
  rw [List.take_left]
  exact hst

/-- **Frame round trip.**  A frame that fits is built between its two characters, which do not occur inside, and is
decoded to the command, the parameters and their checksum; a stuffed text is the stuffing of what it is decoded to. -/
theorem frame_round_trip {maxSize : Int32} {s : ℕ} (hp : (5 + p.length : ℤ) < maxSize.toInt)
    (hroom : maxSize.toInt ≤ frame.length) (hs : (frameCode.stuff (frameBody createChecksum c p)).length = s)
    (hmax : (s : ℤ) ≤ maxSize.toInt - 2) :
    (∃ frame', createFrame createChecksum true frame c p (Int32.ofNat p.length) maxSize = some (frame', (s : ℤ) + 2) ∧
      Survives createChecksum c p frame' s) ∧ ∀ x, frameCode.Stuffed x → StuffsBack x := by
  refine ⟨?_, fun x hx => stuffsBack hx⟩
  obtain ⟨rest, hcreate⟩ := createFrame_eq hp hroom (by rw [hs]; exact hmax)
  rw [hs] at hcreate
  exact ⟨_, hcreate, survives hs rest⟩

end RoundTrip

/-- The start character as the command, an escape among the parameters, and a checksum that needs stuffing. -/
theorem frame_round_trip_special :
    (∃ frame', createFrame (fun _ => 0xDFEF) true (List.replicate 32 0) 0xCF [0xEF, 0x01] (Int32.ofNat 2) 32 =
      some (frame', 11) ∧ Survives (fun _ => 0xDFEF) 0xCF [0xEF, 0x01] frame' 9) ∧
      ∀ x, frameCode.Stuffed x → StuffsBack x := by
  have hlen : (frameCode.stuff (frameBody (fun _ => 0xDFEF) 0xCF [0xEF, 0x01])).length = 9 := by decide
  have hmax : (32 : Int32).toInt = 32 := rfl
  exact frame_round_trip (by rw [hmax]; decide) (by rw [hmax]; decide) hlen (by rw [hmax]; decide)

end Thronix
