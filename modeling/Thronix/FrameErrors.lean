import Thronix.Frames
import Thronix.Lib.Runs

/-!
# Thronix.FrameErrors — frames that do not fit

What `frame_stuffing` and `create_frame` do for every size, in buffers of exactly the size they are given.

* `stuffLoop_prefix`: where the loop ends within its bound it has stuffed a prefix of its input.
* `stuffLoop_overrun`: where the stuffed form is too long the loop ends at the bound or one byte behind it.
* `frameErrors_iff`: the two functions report what does not fit only in trivial cases.
-/

namespace Thronix

open Lib Lib.Stuffing

/-! ## Memory -/

section Memory

variable {m m' : List (BitVec 8)} {i : ℤ} {b : BitVec 8}

theorem store_some (h : store m i b = some m') : 0 ≤ i ∧ i < m.length ∧ m' = m.set i.toNat b := by
  obtain ⟨⟨h0, hlt⟩, rfl⟩ := guard_eq_some.mp h
  exact ⟨h0, hlt, rfl⟩

/-- A store behind a prefix, written with the prefix. -/
theorem store_append {pre post : List (BitVec 8)} (hi : i = pre.length) (h : store (pre ++ post) i b = some m') :
    ∃ a rest, post = a :: rest ∧ m' = (pre ++ [b]) ++ rest := by
  obtain ⟨-, hlt, -⟩ := store_some h
  rcases post with _ | ⟨a, rest⟩
  · simp [hi] at hlt
  · rw [store_at hi] at h
    refine ⟨a, rest, rfl, ?_⟩
    rw [← Option.some.inj h]
    simp

end Memory

/-! ## The loop -/

section Loop

variable {max : ℤ} {tmp : BitVec 8} {origen pre post after : List (BitVec 8)} {j : ℕ}

/-- One round of the loop: it is over, or a symbol has been put behind what was written before. -/
theorem stuffLoop_cons (h : stuffLoop max (tmp :: origen) (pre ++ post) pre.length = some (after, j)) :
    (max ≤ pre.length ∧ after = pre ++ post ∧ j = pre.length) ∨
      (pre.length : ℤ) < max ∧ ∃ old rest, post = old ++ rest ∧ old.length = (frameCode.symbol tmp).length ∧
        stuffLoop max origen ((pre ++ frameCode.symbol tmp) ++ rest) (pre ++ frameCode.symbol tmp).length =
          some (after, j) := by
  rw [stuffLoop] at h
  by_cases hlt : (pre.length : ℤ) < max
  · right
    rw [if_pos hlt] at h
    rcases hsp : isSpecial tmp with _ | _
    · have hsym : frameCode.symbol tmp = [tmp] := Code.symbol_plain hsp
      rw [hsp, if_neg (by simp)] at h
      obtain ⟨m, hm, hloop⟩ := Option.bind_eq_some_iff.mp h
      obtain ⟨a, rest, rfl, rfl⟩ := store_append rfl hm
      refine ⟨hlt, [a], rest, rfl, by rw [hsym]; rfl, ?_⟩
      rw [hsym, List.length_append, List.length_singleton]
      exact hloop
    · have hsym : frameCode.symbol tmp = [escapeChar, tmp ^^^ stuffingMask] := Code.symbol_special hsp
      rw [hsp, if_pos rfl] at h
      obtain ⟨m, hm, h⟩ := Option.bind_eq_some_iff.mp h
      obtain ⟨a, rest, rfl, rfl⟩ := store_append rfl hm
      obtain ⟨m', hm', hloop⟩ := Option.bind_eq_some_iff.mp h
      obtain ⟨a', rest', rfl, rfl⟩ := store_append (by simp) hm'
      refine ⟨hlt, [a, a'], rest', rfl, by rw [hsym]; rfl, ?_⟩
      rw [hsym]
      simpa using hloop
  · rw [if_neg hlt] at h
    obtain ⟨rfl, rfl⟩ := Prod.mk.inj (Option.some.inj h)
    exact .inl ⟨not_lt.mp hlt, rfl, rfl⟩

/-- What the loop has written is the stuffing of a prefix of its input. -/
theorem stuffLoop_prefix (h : stuffLoop max origen (pre ++ post) pre.length = some (after, j)) :
    ∃ done rest, done <+: origen ∧ after = pre ++ frameCode.stuff done ++ rest ∧
      j = pre.length + (frameCode.stuff done).length ∧ after.length = (pre ++ post).length := by
  induction origen generalizing pre post with
  | nil =>
    obtain ⟨rfl, rfl⟩ := Prod.mk.inj (Option.some.inj h)
    exact ⟨[], post, List.nil_prefix, by simp, by simp, rfl⟩
  | cons tmp origen ih =>
    rcases stuffLoop_cons h with ⟨-, rfl, rfl⟩ | ⟨-, old, rest, rfl, hold, hloop⟩
    · exact ⟨[], post, List.nil_prefix, by simp, by simp, rfl⟩
    · obtain ⟨done, rest', hdone, rfl, rfl, hlen⟩ := ih hloop
      refine ⟨tmp :: done, rest', (List.prefix_cons_inj tmp).mpr hdone, by simp, ?_, ?_⟩
      · rw [Code.stuff_cons, List.length_append, List.length_append, Nat.add_assoc]
      · rw [hlen]
        simp only [List.length_append]
        omega

/-- A stuffed form that is too long: the loop ends at the bound, or one byte behind it with an escape pair. -/
theorem stuffLoop_overrun (h : stuffLoop max origen (pre ++ post) pre.length = some (after, j))
    (hpre : (pre.length : ℤ) ≤ max + 1) (hlong : max < pre.length + (frameCode.stuff origen).length) :
    max ≤ j ∧ (j : ℤ) ≤ max + 1 ∧ j ≤ (pre ++ post).length := by
  induction origen generalizing pre post with
  | nil =>
    obtain ⟨rfl, rfl⟩ := Prod.mk.inj (Option.some.inj h)
    rw [Code.stuff_nil, List.length_nil] at hlong
    refine ⟨by omega, hpre, ?_⟩
    simp
  | cons tmp origen ih =>
    rcases stuffLoop_cons h with ⟨hge, rfl, rfl⟩ | ⟨hlt, old, rest, rfl, hold, hloop⟩
    · exact ⟨hge, hpre, by simp⟩
    · have hsym : (frameCode.symbol tmp).length ≤ 2 := by
        unfold Code.symbol
        split_ifs <;> simp
      rw [Code.stuff_cons, List.length_append] at hlong
      obtain ⟨h1, h2, h3⟩ := ih hloop (by rw [List.length_append]; omega) (by rw [List.length_append]; omega)
      refine ⟨h1, h2, ?_⟩
      rw [List.length_append, List.length_append] at h3
      rw [List.length_append, List.length_append]
      omega

end Loop

/-! ## `frame_stuffing` -/

/-- `frame_stuffing` encodes all of its input and returns the stuffed length, or reports that it is too long. -/
def StuffingReports (origen destino : List (BitVec 8)) (longitudMaxima : ℤ) : Prop :=
  ∃ after r, frameStuffing origen destino longitudMaxima = some (after, r) ∧
    ((r = (frameCode.stuff origen).length ∧ frameCode.stuff origen <+: after ∧
        ((frameCode.stuff origen).length : ℤ) ≤ longitudMaxima) ∨
      (r = protErrorStuffedFrameTooLong ∧ longitudMaxima < (frameCode.stuff origen).length))

section Stuffing

variable {origen destino after : List (BitVec 8)} {longitudMaxima r : ℤ}

theorem frameStuffing_some (h : frameStuffing origen destino longitudMaxima = some (after, r)) :
    ∃ j, stuffLoop longitudMaxima origen ([] ++ destino) ([] : List (BitVec 8)).length = some (after, j) ∧
      r = if (j : ℤ) > longitudMaxima then protErrorStuffedFrameTooLong else j := by
  obtain ⟨⟨m, j⟩, hloop, h⟩ := Option.bind_eq_some_iff.mp h
  obtain ⟨rfl, rfl⟩ := Prod.mk.inj (Option.some.inj h)
  exact ⟨j, hloop, rfl⟩

/-- A result that is a length: a prefix of the input has been stuffed. -/
theorem frameStuffing_prefix (h : frameStuffing origen destino longitudMaxima = some (after, r)) (hr : 0 ≤ r) :
    ∃ done, done <+: origen ∧ frameCode.stuff done <+: after ∧ r = (frameCode.stuff done).length ∧
      r ≤ longitudMaxima := by
  obtain ⟨j, hloop, rfl⟩ := frameStuffing_some h
  obtain ⟨done, rest, hdone, rfl, hj, -⟩ := stuffLoop_prefix hloop
  rw [List.length_nil, Nat.zero_add] at hj
  by_cases hover : (j : ℤ) > longitudMaxima
  · rw [if_pos hover] at hr
    exact absurd hr (by decide)
  · rw [if_neg hover]
    exact ⟨done, hdone, by simp, by rw [hj], not_lt.mp hover⟩

theorem stuffingReports_iff (hd : (destino.length : ℤ) = max longitudMaxima 0) :
    StuffingReports origen destino longitudMaxima ↔
      ((frameCode.stuff origen).length : ℤ) ≤ longitudMaxima ∨ longitudMaxima < 0 := by
  constructor
  · rintro ⟨after, r, h, hr⟩
    by_contra hnot
    obtain ⟨j, hloop, rfl⟩ := frameStuffing_some h
    obtain ⟨h1, -, h3⟩ := stuffLoop_overrun hloop (by simp; omega) (by simp; omega)
    rw [List.nil_append] at h3
    rcases hr with ⟨-, -, hle⟩ | ⟨hr, -⟩
    · omega
    · rw [if_neg (by omega), protErrorStuffedFrameTooLong] at hr
      omega
  · rintro (hfits | hneg)
    · have hlen : (destino.take (frameCode.stuff origen).length).length = (frameCode.stuff origen).length := by
        rw [List.length_take]
        omega
      have h : frameStuffing origen destino longitudMaxima = some (frameCode.stuff origen ++
          destino.drop (frameCode.stuff origen).length, ((frameCode.stuff origen).length : ℤ)) := by
        rw [← frameStuffing_eq hlen hfits, List.take_append_drop]
      exact ⟨_, _, h, .inl ⟨rfl, List.prefix_append _ _, hfits⟩⟩
    · have hover : (0 : ℤ) > longitudMaxima := hneg
      have hloop : stuffLoop longitudMaxima origen destino 0 = some (destino, 0) := by
        rcases origen with _ | ⟨tmp, origen⟩
        · rfl
        · rw [stuffLoop, if_neg (by omega)]
      refine ⟨destino, protErrorStuffedFrameTooLong, ?_, .inr ⟨rfl, by omega⟩⟩
      simp [frameStuffing, hloop, hover]

end Stuffing

/-! ## `create_frame` -/

section Create

variable (createChecksum : List (BitVec 8) → BitVec 16)

/-- The frame of a command with its parameters. -/
def completeFrame (commandType : BitVec 8) (param : List (BitVec 8)) : List (BitVec 8) :=
  startFrameChar :: (frameCode.stuff (frameBody createChecksum commandType param) ++ [stopFrameChar])

/-- `create_frame` returns the length of the complete frame, or the code of what kept it from building one. -/
def CreateReports (malloc : Bool) (frame : List (BitVec 8)) (commandType : BitVec 8) (param : List (BitVec 8))
    (paramSize maxSize : Int32) : Prop :=
  ∃ after r, createFrame createChecksum malloc frame commandType param paramSize maxSize = some (after, r) ∧
    ((r = (completeFrame createChecksum commandType param).length ∧
        completeFrame createChecksum commandType param <+: after) ∨
      (r = protErrorCommandTooLong ∧ maxSize.toInt ≤ 5 + paramSize.toInt) ∨
      (r = protErrorNoMem ∧ malloc = false) ∨
      (r = protErrorStuffedFrameTooLong ∧
        maxSize.toInt - 2 < (frameCode.stuff (frameBody createChecksum commandType param)).length))

variable {createChecksum} {malloc : Bool} {frame body after param : List (BitVec 8)} {c : BitVec 8} {size maxSize r : ℤ}

theorem addChecksumAndStuff_some (h : addChecksumAndStuff createChecksum malloc body size maxSize = some (after, r)) :
    0 ≤ size ∧ (r = protErrorNoMem ∧ malloc = false ∨ malloc = true ∧ size + 2 ≤ maxSize ∧
      ∃ copy destino, (copy.length : ℤ) = size + 2 ∧ frameStuffing copy destino maxSize = some (after, r)) := by
  obtain ⟨bytes, hbytes, h⟩ := Option.bind_eq_some_iff.mp h
  obtain ⟨⟨hsize, -⟩, -⟩ := guard_eq_some.mp hbytes
  obtain ⟨frame1, -, h⟩ := Option.bind_eq_some_iff.mp h
  obtain ⟨frame2, -, h⟩ := Option.bind_eq_some_iff.mp h
  refine ⟨hsize, ?_⟩
  rcases malloc with _ | _
  · obtain ⟨-, rfl⟩ := Prod.mk.inj (Option.some.inj h)
    exact .inl ⟨rfl, rfl⟩
  · by_cases hle : size + 2 ≤ maxSize
    · simp only [if_true, if_pos hle] at h
      obtain ⟨copy, hload, h⟩ := Option.bind_eq_some_iff.mp h
      obtain ⟨⟨-, hlen⟩, rfl⟩ := guard_eq_some.mp hload
      refine .inr ⟨rfl, hle, _, _, ?_, h⟩
      rw [List.length_take]
      omega
    · simp [hle] at h

/-- The parameters are copied behind the command. -/
theorem take_copyParam {frame' : List (BitVec 8)} {paramSize : Int32}
    (h : copyParam frame param paramSize = some frame') : frame'.take 1 = frame.take 1 := by
  unfold copyParam at h
  split_ifs at h
  · obtain ⟨bytes, -, h⟩ := Option.bind_eq_some_iff.mp h
    obtain ⟨hlen, rfl⟩ := guard_eq_some.mp h
    rw [List.append_assoc, List.take_append_of_le_length (by rw [List.length_take]; omega), List.take_take]
    rfl
  · rw [Option.some.inj h]

/-- The start character is there; the rest is refused, or built from what the callee returns. -/
theorem createFrame_some {paramSize maxSize : Int32}
    (h : createFrame createChecksum malloc frame c param paramSize maxSize = some (after, r)) :
    0 < frame.length ∧ (5 + paramSize ≥ maxSize ∧ r = protErrorCommandTooLong ∨
      ¬5 + paramSize ≥ maxSize ∧ ∃ frame' body' size, addChecksumAndStuff createChecksum malloc frame'
        (5 + paramSize - 4).toInt (maxSize - 2).toInt = some (body', size) ∧
        store (startFrameChar :: body') (size + 1) stopFrameChar = some after ∧ r = size + 2) := by
  obtain ⟨frame1, h1, h⟩ := Option.bind_eq_some_iff.mp h
  obtain ⟨-, hlen, rfl⟩ := store_some h1
  refine ⟨by exact_mod_cast hlen, ?_⟩
  by_cases hlong : 5 + paramSize ≥ maxSize
  · simp only [if_pos hlong] at h
    obtain ⟨-, rfl⟩ := Prod.mk.inj (Option.some.inj h)
    exact .inl ⟨hlong, rfl⟩
  · simp only [if_neg hlong] at h
    obtain ⟨frame2, h2, h⟩ := Option.bind_eq_some_iff.mp h
    obtain ⟨frame3, h3, h⟩ := Option.bind_eq_some_iff.mp h
    obtain ⟨⟨body', size⟩, hadd, h⟩ := Option.bind_eq_some_iff.mp h
    obtain ⟨frame4, h4, h⟩ := Option.bind_eq_some_iff.mp h
    obtain ⟨rfl, rfl⟩ := Prod.mk.inj (Option.some.inj h)
    have htake : frame3.take 1 = [startFrameChar] := by
      obtain ⟨-, -, rfl⟩ := store_some h2
      rw [take_copyParam h3]
      rcases frame with _ | ⟨f0, rest⟩
      · simp at hlen
      · rfl
    rw [htake] at h4
    exact .inr ⟨hlong, _, body', size, hadd, h4, rfl⟩

/-- `min_size` and the size handed on, which wrap only for parameters that no frame can hold. -/
theorem toInt_sizes (paramSize : Int32) :
    ((5 + paramSize).toInt = 5 + paramSize.toInt ∨
      2 ^ 31 ≤ 5 + paramSize.toInt ∧ (5 + paramSize).toInt = 5 + paramSize.toInt - 2 ^ 32) ∧
    ((5 + paramSize - 4).toInt = paramSize.toInt + 1 ∨ (5 + paramSize - 4).toInt < 0) := by
  have hlo := paramSize.le_toInt
  have hhi := paramSize.toInt_lt
  have h5 : (5 : Int32).toInt = 5 := rfl
  have h4 : (4 : Int32).toInt = 4 := rfl
  rw [Int32.toInt_sub, Int32.toInt_add, h5, h4]
  constructor
  · by_cases hfit : 5 + paramSize.toInt < 2 ^ 31
    · exact .inl (Int.bmod_eq_of_le (by omega) (by omega))
    · refine .inr ⟨by omega, ?_⟩
      rw [Int.bmod_def]
      omega
  · rw [Int.sub_bmod, Int.bmod_bmod, ← Int.sub_bmod]
    by_cases hfit : paramSize.toInt + 1 < 2 ^ 31
    · refine .inl ?_
      rw [Int.bmod_eq_of_le (by omega) (by omega)]
      omega
    · refine .inr ?_
      rw [Int.bmod_def]
      omega

theorem toInt_sub_two {maxSize : Int32} (h : 1 ≤ maxSize.toInt) : (maxSize - 2).toInt = maxSize.toInt - 2 := by
  have hhi := maxSize.toInt_lt
  have h2 : (2 : Int32).toInt = 2 := rfl
  rw [Int32.toInt_sub, h2]
  exact Int.bmod_eq_of_le (by omega) (by omega)

/-- A negative code would have the stop character stored before the frame. -/
theorem nonneg_of_stopped {copy destino : List (BitVec 8)} {size : ℤ}
    (hstuff : frameStuffing copy destino maxSize = some (body, size))
    (hstop : store (startFrameChar :: body) (size + 1) stopFrameChar = some after) : 0 ≤ size := by
  obtain ⟨j, -, rfl⟩ := frameStuffing_some hstuff
  have h0 := (store_some hstop).1
  by_cases hover : (j : ℤ) > maxSize
  · rw [if_pos hover] at h0
    exact absurd h0 (by decide)
  · rw [if_neg hover]
    exact Int.natCast_nonneg j

/-- What is stuffed in a complete frame is the command, its parameters and their checksum. -/
theorem body_of_complete {done rest : List (BitVec 8)}
    (hlen : (((frameCode.stuff done).length + 2 : ℕ) : ℤ) = (completeFrame createChecksum c param).length)
    (hstarts : completeFrame createChecksum c param <+:
      (startFrameChar :: frameCode.stuff done ++ [stopFrameChar]) ++ rest) :
    frameBody createChecksum c param = done := by
  have hsame : completeFrame createChecksum c param = startFrameChar :: frameCode.stuff done ++ [stopFrameChar] := by
    have hlen' : (startFrameChar :: frameCode.stuff done ++ [stopFrameChar]).length =
        (completeFrame createChecksum c param).length := by
      simp only [List.length_append, List.length_cons, List.length_nil]
      omega
    exact (List.prefix_of_prefix_length_le hstarts (List.prefix_append _ rest) hlen'.ge).eq_of_length hlen'.symm
  have hstuff : frameCode.stuff (frameBody createChecksum c param) = frameCode.stuff done := by
    simpa [completeFrame] using hsame
  rw [← Code.unstuff_stuff (c := frameCode) (frameBody createChecksum c param), hstuff, Code.unstuff_stuff]

section Sizes

variable {paramSize maxSize : Int32}

theorem fits_of_createReports (hf : (frame.length : ℤ) = max maxSize.toInt 0)
    (hp : (param.length : ℤ) = max paramSize.toInt 0)
    (h : CreateReports createChecksum malloc frame c param paramSize maxSize) :
    (1 ≤ maxSize.toInt ∧ maxSize.toInt ≤ 5 + paramSize.toInt ∧ 5 + paramSize.toInt < 2 ^ 31) ∨
      (malloc = true ∧ 0 ≤ paramSize.toInt ∧ 5 + paramSize.toInt < maxSize.toInt ∧
        ((frameCode.stuff (frameBody createChecksum c param)).length : ℤ) ≤ maxSize.toInt - 2) := by
  obtain ⟨after, r, h, hr⟩ := h
  have hlo := paramSize.le_toInt
  have hlt := paramSize.toInt_lt
  have hhi := maxSize.toInt_lt
  obtain ⟨hmin, hsize⟩ := toInt_sizes paramSize
  obtain ⟨hpos, ⟨hlong, -⟩ | ⟨hshort, frame', body', size, hadd, hstop, rfl⟩⟩ := createFrame_some h
  · have hbound := (5 + paramSize).toInt_lt
    rw [ge_iff_le, Int32.le_iff_toInt_le] at hlong
    left
    omega
  · right
    rw [ge_iff_le, Int32.le_iff_toInt_le] at hshort
    have hone : 1 ≤ maxSize.toInt := by omega
    rw [toInt_sub_two hone] at hadd
    obtain ⟨hsize0, ⟨rfl, -⟩ | ⟨hmalloc, hroom, copy, destino, hcopy, hstuff⟩⟩ := addChecksumAndStuff_some hadd
    · exact absurd (store_some hstop).1 (by decide)
    have hnonneg := nonneg_of_stopped hstuff hstop
    obtain ⟨done, hdone, ⟨tail, rfl⟩, rfl, hle⟩ := frameStuffing_prefix hstuff hnonneg
    obtain ⟨_, rest, -, rfl⟩ : ∃ a rest, tail = a :: rest ∧
        after = (startFrameChar :: frameCode.stuff done ++ [stopFrameChar]) ++ rest := store_append (by simp) hstop
    have hbody : frameBody createChecksum c param = done := by
      rcases hr with ⟨hlen, hstarts⟩ | ⟨h, -⟩ | ⟨h, -⟩ | ⟨h, -⟩
      · exact body_of_complete (by exact_mod_cast hlen) hstarts
      · exact absurd h (by rw [protErrorCommandTooLong]; omega)
      · exact absurd h (by rw [protErrorNoMem]; omega)
      · exact absurd h (by rw [protErrorStuffedFrameTooLong]; omega)
    have hlen : param.length + 3 ≤ copy.length := by
      calc param.length + 3 = (frameBody createChecksum c param).length := length_frameBody.symm
        _ ≤ copy.length := hbody ▸ hdone.length_le
    rw [hbody]
    exact ⟨hmalloc, by omega, by omega, hle⟩

theorem createReports_tooLong (hf : (frame.length : ℤ) = max maxSize.toInt 0) (hone : 1 ≤ maxSize.toInt)
    (hlong : maxSize.toInt ≤ 5 + paramSize.toInt) (hfit : 5 + paramSize.toInt < 2 ^ 31) :
    CreateReports createChecksum malloc frame c param paramSize maxSize := by
  have hmin := (toInt_sizes paramSize).1
  have hlong' : 5 + paramSize ≥ maxSize := by
    rw [ge_iff_le, Int32.le_iff_toInt_le]
    omega
  rcases frame with _ | ⟨f0, rest⟩
  · simp at hf
    omega
  · refine ⟨startFrameChar :: rest, protErrorCommandTooLong, ?_, .inr (.inl ⟨rfl, hlong⟩)⟩
    have hstart : store (f0 :: rest) 0 startFrameChar = some (startFrameChar :: rest) :=
      @store_at [] rest f0 startFrameChar 0 rfl
    rw [createFrame, hstart]
    simp [hlong']

theorem createReports_complete (hf : (frame.length : ℤ) = max maxSize.toInt 0)
    (hp : (param.length : ℤ) = max paramSize.toInt 0) (hpos : 0 ≤ paramSize.toInt)
    (hshort : 5 + paramSize.toInt < maxSize.toInt)
    (hs : ((frameCode.stuff (frameBody createChecksum c param)).length : ℤ) ≤ maxSize.toInt - 2) :
    CreateReports createChecksum true frame c param paramSize maxSize := by
  have hlt := paramSize.toInt_lt
  have hhi := maxSize.toInt_lt
  have hsize : paramSize = Int32.ofNat param.length := by
    rw [← Int32.toInt_inj, Int32.toInt_ofNat_of_lt (by omega)]
    omega
  obtain ⟨rest, hcreate⟩ : ∃ rest, createFrame createChecksum true frame c param paramSize maxSize =
      some (startFrameChar :: (frameCode.stuff (frameBody createChecksum c param) ++ stopFrameChar :: rest),
        ((frameCode.stuff (frameBody createChecksum c param)).length : ℤ) + 2) := by
    rw [hsize]
    exact createFrame_eq (by omega) (by omega) hs
  refine ⟨_, _, hcreate, .inl ⟨?_, rest, ?_⟩⟩
  · simp [completeFrame, add_assoc]
  · simp [completeFrame]

theorem createReports_iff (hf : (frame.length : ℤ) = max maxSize.toInt 0)
    (hp : (param.length : ℤ) = max paramSize.toInt 0) :
    CreateReports createChecksum malloc frame c param paramSize maxSize ↔
      (1 ≤ maxSize.toInt ∧ maxSize.toInt ≤ 5 + paramSize.toInt ∧ 5 + paramSize.toInt < 2 ^ 31) ∨
      (malloc = true ∧ 0 ≤ paramSize.toInt ∧ 5 + paramSize.toInt < maxSize.toInt ∧
        ((frameCode.stuff (frameBody createChecksum c param)).length : ℤ) ≤ maxSize.toInt - 2) := by
  constructor
  · exact fits_of_createReports hf hp
  · rintro (⟨hone, hlong, hfit⟩ | ⟨rfl, hpos, hshort, hs⟩)
    · exact createReports_tooLong hf hone hlong hfit
    · exact createReports_complete hf hp hpos hshort hs

end Sizes

end Create

/-- **Overflow is reported only where nothing overflows.**  `frame_stuffing` keeps to its buffer and reports what is too
long exactly if the stuffed form fits (or the bound is negative).  `create_frame` does exactly if it refuses the
parameters at once, or the whole frame can be built. -/
theorem frameErrors_iff (createChecksum : List (BitVec 8) → BitVec 16) (malloc : Bool) (commandType : BitVec 8)
    {origen destino frame param : List (BitVec 8)} {longitudMaxima : ℤ} {paramSize maxSize : Int32}
    (hd : (destino.length : ℤ) = max longitudMaxima 0) (hf : (frame.length : ℤ) = max maxSize.toInt 0)
    (hp : (param.length : ℤ) = max paramSize.toInt 0) :
    (StuffingReports origen destino longitudMaxima ↔
      ((frameCode.stuff origen).length : ℤ) ≤ longitudMaxima ∨ longitudMaxima < 0) ∧
    (CreateReports createChecksum malloc frame commandType param paramSize maxSize ↔
      (1 ≤ maxSize.toInt ∧ maxSize.toInt ≤ 5 + paramSize.toInt ∧ 5 + paramSize.toInt < 2 ^ 31) ∨
      (malloc = true ∧ 0 ≤ paramSize.toInt ∧ 5 + paramSize.toInt < maxSize.toInt ∧
        ((frameCode.stuff (frameBody createChecksum commandType param)).length : ℤ) ≤ maxSize.toInt - 2)) :=
  ⟨stuffingReports_iff hd, createReports_iff hf hp⟩

/-- Two ordinary bytes for two places, and a frame of eight bytes without room for the escapes. -/
theorem frameErrors_iff_twoBytes :
    StuffingReports [0x01, 0x02] [0, 0] 2 ∧
      ¬CreateReports (fun _ => 0) true (List.replicate 8 0) 0xCF [0xDF, 0xEF] 2 8 := by
  have h := @frameErrors_iff (fun _ => 0) true 0xCF [0x01, 0x02] [0, 0] (List.replicate 8 0) [0xDF, 0xEF] 2 2 8
    (by decide) (by decide) (by decide)
  exact ⟨h.1.mpr (by decide), fun hc => absurd (h.2.mp hc) (by decide)⟩

/-- Two bytes for one place: the loop stops after the first one and its length is returned. -/
theorem stuffing_stops_short :
    ¬∀ (origen destino : List (BitVec 8)) (longitudMaxima : ℤ), (destino.length : ℤ) = max longitudMaxima 0 →
      StuffingReports origen destino longitudMaxima := by
  intro hall
  obtain ⟨after, r, h, hr⟩ := hall [0x01, 0x02] [0] 1 (by decide)
  have hresult : frameStuffing [0x01, 0x02] [0] 1 = some ([0x01], 1) := by decide
  rw [hresult] at h
  obtain ⟨-, rfl⟩ := Prod.mk.inj (Option.some.inj h)
  rcases hr with ⟨-, -, hle⟩ | ⟨hr, -⟩
  · exact absurd hle (by decide)
  · exact absurd hr (by decide)

end Thronix
