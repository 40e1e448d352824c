import Thronix.Frames

/-!
# Thronix.FrameDecoder — the decoder on arbitrary bytes

What `frame_DeStuffing` and `destuff_and_check_checksum` do on every byte string, in a buffer of exactly its length.

* `deStuffLoopTo_lt`: a text with an escape that has no ordinary byte behind it is read outside, or counted wrongly.
* `decoder_safe_iff`: for which texts the two functions keep their promises.
-/

namespace Thronix

open Lib Lib.Stuffing

/-! ## `frame_DeStuffing` -/

/-- `frame_DeStuffing` keeps to the bytes that were received, and returns the number of those it has written. -/
def DeStuffs (frame : List (BitVec 8)) : Prop :=
  ∃ after written numStuffedBytes,
    deStuffLoopTo frame.length frame.length frame 0 0 0 = some (after, written, numStuffedBytes) ∧
      frameDeStuffing frame frame.length = some (after, (written : ℤ))

section DeStuff

variable {n rounds w k k' : ℕ} {frame after out gap x : List (BitVec 8)}

/-- A text that is not escaped: where the loop ends, fewer bytes were taken out or written than there were. -/
theorem deStuffLoopTo_lt (hx : ¬frameCode.Escaped x) (hn : n = out.length + gap.length + x.length)
    (hr : x.length ≤ rounds)
    (h : deStuffLoopTo n rounds (out ++ (gap ++ x)) (out.length + gap.length) out.length k = some (after, w, k')) :
    w + k' < out.length + k + x.length := by
  induction rounds generalizing x out gap k with
  | zero =>
    rw [List.length_eq_zero_iff.mp (Nat.le_zero.mp hr)] at hx
    exact absurd .nil hx
  | succ rounds ih =>
    rcases x with _ | ⟨b, x⟩
    · exact absurd .nil hx
    rw [List.length_cons] at hn hr
    by_cases hb : b = escapeChar
    · subst hb
      rcases x with _ | ⟨a, x⟩
      · rw [deStuffLoopTo_ended (by omega)] at h
        cases h
      rw [List.length_cons] at hn hr
      by_cases ha : a = escapeChar
      · subst ha
        rw [deStuffLoopTo_doubled (by omega)] at h
        have hgap : (gap ++ [escapeChar, escapeChar]).length = gap.length + 2 := List.length_append
        have hn' : n = out.length + (gap ++ [escapeChar, escapeChar]).length + x.length := by omega
        simp only [List.length_cons]
        -- two bytes were passed and one of them counted
        by_cases hrest : frameCode.Escaped x
        · obtain ⟨gap', -, hloop⟩ := @deStuffLoopTo_eq n rounds (k + 1) out (gap ++ [escapeChar, escapeChar]) x []
            hrest hn' (by omega)
          rw [List.append_nil, h] at hloop
          obtain ⟨-, rfl, rfl⟩ := Prod.mk.injEq _ _ _ _ ▸ Option.some.inj hloop
          have hescapes : (frameCode.unstuff x).length + x.count escapeChar = x.length := hrest.length_unstuff
          omega
        · have := ih hrest hn' (by omega) h
          omega
      · obtain ⟨gap', hlen, hround⟩ := @deStuffLoopTo_escaped n rounds k a out gap x ha (by omega)
        rw [hround] at h
        have hout : (out ++ [a ^^^ stuffingMask]).length = out.length + 1 := List.length_append
        have := ih (fun hrest => hx (.escaped ha hrest)) (by omega) (by omega) h
        simp only [List.length_cons]
        omega
    · obtain ⟨gap', hlen, hround⟩ := @deStuffLoopTo_plain n rounds k b out gap x hb (by omega)
      rw [hround] at h
      have hout : (out ++ [b]).length = out.length + 1 := List.length_append
      have := ih (fun hrest => hx (.plain hb hrest)) (by omega) (by omega) h
      simp only [List.length_cons]
      omega

/-- An escaped text is decoded. -/
theorem deStuffs_eq (hx : frameCode.Escaped frame) : ∃ gap,
    deStuffLoopTo frame.length frame.length frame 0 0 0 =
      some (frameCode.unstuff frame ++ gap, (frameCode.unstuff frame).length, frame.count escapeChar) ∧
    frameDeStuffing frame frame.length =
      some (frameCode.unstuff frame ++ gap, ((frameCode.unstuff frame).length : ℤ)) := by
  obtain ⟨gap, -, hloop⟩ := @deStuffLoopTo_eq frame.length frame.length 0 [] [] frame [] hx (by simp) le_rfl
  simp only [List.nil_append, List.append_nil, List.length_nil, Nat.zero_add] at hloop
  have hescapes : (frameCode.unstuff frame).length + frame.count escapeChar = frame.length := hx.length_unstuff
  have hsub : (frame.length : ℤ) - frame.count escapeChar = (frameCode.unstuff frame).length := by omega
  refine ⟨gap, hloop, ?_⟩
  rw [frameDeStuffing, deStuffLoop_eq_map, hloop, ← hsub]
  rfl

theorem deStuffs_iff : DeStuffs frame ↔ frameCode.Escaped frame := by
  constructor
  · rintro ⟨after, written, k, hloop, hres⟩
    by_contra hx
    have hlt := @deStuffLoopTo_lt frame.length frame.length written 0 k after [] [] frame hx (by simp) le_rfl hloop
    rw [frameDeStuffing, deStuffLoop_eq_map, hloop] at hres
    have hsize : (frame.length : ℤ) - k = written := (Prod.mk.inj (Option.some.inj hres)).2
    simp at hlt
    omega
  · intro hx
    obtain ⟨gap, hloop, hres⟩ := deStuffs_eq hx
    exact ⟨_, _, _, hloop, hres⟩

end DeStuff

/-! ## `destuff_and_check_checksum` -/

/-- `destuff_and_check_checksum` keeps to the bytes that were received and to those it has decoded: a checksum and what
it is of, of any length but a negative one. -/
def ChecksChecksum (createChecksum : List (BitVec 8) → BitVec 16) (frame : List (BitVec 8)) : Prop :=
  ∃ body low high rest written numStuffedBytes r,
    deStuffLoopTo frame.length frame.length frame 0 0 0 =
      some (body ++ low :: high :: rest, written, numStuffedBytes) ∧ written = body.length + 2 ∧
    destuffAndCheckChecksum createChecksum frame frame.length = some (body ++ low :: high :: rest, r) ∧
    ((r = written ∧ (high.setWidth 16 <<< 8) ||| low.setWidth 16 = createChecksum body) ∨
      (r = protErrorBadChecksum ∧ (high.setWidth 16 <<< 8) ||| low.setWidth 16 ≠ createChecksum body))

section Check

variable {createChecksum : List (BitVec 8) → BitVec 16} {frame : List (BitVec 8)}

theorem checksChecksum_of (hx : frameCode.Escaped frame) (hlen : 2 ≤ (frameCode.unstuff frame).length) :
    ChecksChecksum createChecksum frame := by
  obtain ⟨gap, hloop, hres⟩ := deStuffs_eq hx
  generalize hdecoded : frameCode.unstuff frame = decoded at hlen hloop hres
  obtain ⟨body, low, high, rfl⟩ : ∃ body low high, decoded = body ++ [low, high] := by
    obtain ⟨init, high, rfl⟩ := List.eq_nil_or_concat' decoded |>.resolve_left (by rintro rfl; simp at hlen)
    obtain ⟨body, low, rfl⟩ := List.eq_nil_or_concat' init |>.resolve_left (by rintro rfl; simp at hlen)
    exact ⟨body, low, high, by simp⟩
  have hsize : (((body ++ [low, high]).length : ℕ) : ℤ) = body.length + 2 := by simp
  have hmem : body ++ [low, high] ++ gap = body ++ low :: high :: gap := by simp
  rw [hmem] at hloop hres
  rw [hsize] at hres
  have hbytes : loadBytes (body ++ low :: high :: gap) ((body.length : ℤ) + 2 - 2) = some body := loadBytes_at (by omega)
  have hlow : load (body ++ low :: high :: gap) ((body.length : ℤ) + 2 - 2) = some low := load_at (by omega)
  have hhigh : load (body ++ low :: high :: gap) ((body.length : ℤ) + 2 - 1) = some high := by
    have hat : load ((body ++ [low]) ++ high :: gap) ((body.length : ℤ) + 2 - 1) = some high :=
      load_at (by rw [List.length_append, List.length_singleton]; omega)
    simpa using hat
  have hcheck : destuffAndCheckChecksum createChecksum frame frame.length = some (body ++ low :: high :: gap,
      if (high.setWidth 16 <<< 8) ||| low.setWidth 16 ≠ createChecksum body then protErrorBadChecksum
      else (body.length : ℤ) + 2) := by
    rw [destuffAndCheckChecksum, hres]
    simp only [Option.bind_eq_bind, Option.bind_some, hbytes, hlow, hhigh]
    rfl
  refine ⟨body, low, high, gap, _, _, _, hloop, by simp, hcheck, ?_⟩
  by_cases hsum : (high.setWidth 16 <<< 8) ||| low.setWidth 16 = createChecksum body
  · rw [if_neg (not_not.mpr hsum)]
    exact .inl ⟨hsize.symm, hsum⟩
  · rw [if_pos hsum]
    exact .inr ⟨rfl, hsum⟩

end Check

/-- **The decoder keeps its promises** exactly on the texts in which each escape has an ordinary byte behind it and that
have room for a checksum. -/
theorem decoder_safe_iff (createChecksum : List (BitVec 8) → BitVec 16) (frame : List (BitVec 8)) :
    (DeStuffs frame ↔ frameCode.Escaped frame) ∧
    (DeStuffs frame ∧ ChecksChecksum createChecksum frame ↔
      frameCode.Escaped frame ∧ frame.count escapeChar + 2 ≤ frame.length) := by
  refine ⟨deStuffs_iff, ⟨?_, ?_⟩⟩
  · rintro ⟨hde, body, low, high, rest, written, k, r, hloop, rfl, -⟩
    have hx := deStuffs_iff.mp hde
    obtain ⟨gap, hloop', -⟩ := deStuffs_eq hx
    rw [hloop'] at hloop
    have hwritten : (frameCode.unstuff frame).length = body.length + 2 :=
      (Prod.mk.inj (Prod.mk.inj (Option.some.inj hloop)).2).1
    have hescapes : (frameCode.unstuff frame).length + frame.count escapeChar = frame.length := hx.length_unstuff
    exact ⟨hx, by omega⟩
  · rintro ⟨hx, hlen⟩
    have hescapes : (frameCode.unstuff frame).length + frame.count escapeChar = frame.length := hx.length_unstuff
    exact ⟨deStuffs_iff.mpr hx, checksChecksum_of hx (by omega)⟩

/-- A single escape: the byte behind it is read, and it is not one of those received. -/
theorem decoder_reads_outside :
    ¬∀ (createChecksum : List (BitVec 8) → BitVec 16) (frame : List (BitVec 8)),
      DeStuffs frame ∧ ChecksChecksum createChecksum frame := by
  intro hall
  obtain ⟨⟨after, written, k, hloop, -⟩, -⟩ := hall (fun _ => 0) [escapeChar]
  have hnone : deStuffLoopTo 1 1 [escapeChar] 0 0 0 = none := by decide
  rw [List.length_singleton, hnone] at hloop
  cases hloop

end Thronix
