import Thronix.UartStdio

/-!
# Thronix.ConsoleBounds — the console inside its arrays

* `UartStdio.InBounds`: the arrays have their lengths and what indexes them is inside.
* `UartStdio.endOfLine_inBounds`: the end of a line stores its command without leaving an array.
-/

namespace Thronix

open Lib.Ring

namespace UartStdio

structure InBounds (s : UartStdio) : Prop where
  length_pcBuf : s.pcBuf.length = 64
  length_buffer : s.rxHistoryBuffer.length = 512
  length_offset : s.rxHistoryOffset.length = 16
  offset_lt : ∀ y ∈ s.rxHistoryOffset, y < 512
  bufIndex_lt : s.rxHistoryBufIndex < 512
  next_nonneg : 0 ≤ s.rxHistoryNext
  next_lt : s.rxHistoryNext < 16
  le_cur : -1 ≤ s.rxHistoryCur
  cur_lt : s.rxHistoryCur < 16

theorem init_inBounds {pcBuf : List (BitVec 8)} (h : pcBuf.length = 64) : (init pcBuf).InBounds where
  length_pcBuf := h
  length_buffer := List.length_replicate
  length_offset := List.length_replicate
  offset_lt y hy := by
    rw [List.eq_of_mem_replicate hy]
    decide
  bufIndex_lt := Nat.zero_lt_succ _
  next_nonneg := Int.le_refl 0
  next_lt := by
    change (0 : ℤ) < 16
    decide
  le_cur := Int.le_refl (-1)
  cur_lt := by
    change (-1 : ℤ) < 16
    decide

variable {s : UartStdio}

theorem InBounds.setPcBuf (h : s.InBounds) {pcBuf : List (BitVec 8)} (hlen : pcBuf.length = 64) :
    InBounds { s with pcBuf := pcBuf } :=
  { h with length_pcBuf := hlen }

theorem sameAsLast_total (h : s.InBounds) (count : ℕ) :
    ∀ {x y : ℕ}, x + count ≤ 64 → y < 512 → ∃ b, s.sameAsLast count x y = some b := by
  induction count with
  | zero =>
    intro x y _ hy
    have hlen := h.length_buffer
    obtain ⟨b, hb⟩ : ∃ b, get s.rxHistoryBuffer y = some b := exists_get_natCast (by omega)
    exact ⟨b == 0, by rw [sameAsLast, hb]; rfl⟩
  | succ count ih =>
    intro x y hx hy
    have hlen := h.length_buffer
    have hlenBuf := h.length_pcBuf
    obtain ⟨b, hb⟩ : ∃ b, get s.rxHistoryBuffer y = some b := exists_get_natCast (by omega)
    obtain ⟨c, hc⟩ : ∃ c, get s.pcBuf x = some c := exists_get_natCast (by omega)
    simp only [sameAsLast, hb, hc, Option.bind_eq_bind, Option.bind_some]
    by_cases hne : b ≠ c
    · exact ⟨false, by rw [if_pos hne]⟩
    · rw [if_neg hne]
      exact ih (by omega) (bufNext_lt hy)

theorem duplicateCmd_total (h : s.InBounds) {count : ℕ} (hcount : count ≤ 64) :
    ∃ b, s.duplicateCmd count = some b := by
  unfold duplicateCmd
  by_cases hcnt : s.rxHistoryCnt > 0
  · rw [if_pos hcnt]
    have hnext := h.next_nonneg
    have hlt := h.next_lt
    have hlen := h.length_offset
    have hprev : 0 ≤ (if s.rxHistoryNext - 1 < 0 then 15 else s.rxHistoryNext - 1) ∧
        (if s.rxHistoryNext - 1 < 0 then 15 else s.rxHistoryNext - 1) < (s.rxHistoryOffset.length : ℤ) := by
      split_ifs <;> omega
    obtain ⟨y, hy, hget⟩ := exists_get hprev.1 hprev.2
    simp only [hget, Option.bind_eq_bind, Option.bind_some]
    exact sameAsLast_total h count (by omega) (h.offset_lt y hy)
  · exact ⟨false, by rw [if_neg hcnt]⟩

theorem saveLoop_total {pcBuf : List (BitVec 8)} (count : ℕ) :
    ∀ {x index : ℕ} {buffer : List (BitVec 8)}, x + count ≤ pcBuf.length → buffer.length = 512 →
      index < 512 → ∃ buffer' index', saveLoop pcBuf count x buffer index = some (buffer', index') ∧
        buffer'.length = 512 ∧ index' < 512 := by
  induction count with
  | zero =>
    intro x index buffer _ hlen hindex
    refine ⟨buffer.set index 0, bufNext index, ?_, ?_, bufNext_lt hindex⟩
    · rw [saveLoop, put_natCast (by omega)]
      rfl
    · rw [List.length_set, hlen]
  | succ count ih =>
    intro x index buffer hx hlen hindex
    obtain ⟨c, hc⟩ : ∃ c, get pcBuf x = some c := exists_get_natCast (by omega)
    have hput : put buffer index c = some (buffer.set index c) := put_natCast (by omega)
    have hlenSet : (buffer.set index c).length = 512 := by rw [List.length_set, hlen]
    have hroom : x + 1 + count ≤ pcBuf.length := by omega
    obtain ⟨buffer', index', hloop, hlen', hindex'⟩ := ih hroom hlenSet (bufNext_lt hindex)
    refine ⟨buffer', index', ?_, hlen', hindex'⟩
    simp only [saveLoop, hc, hput, Option.bind_eq_bind, Option.bind_some, hloop]

theorem saveCommand_inBounds (h : s.InBounds) {count : ℕ} (hcount : count ≤ 64) :
    ∃ s', s.saveCommand count = some s' ∧ s'.InBounds ∧ s'.pcBuf = s.pcBuf ∧ s'.escMode = s.escMode := by
  have hnext := h.next_nonneg
  have hlt := h.next_lt
  have hput : put s.rxHistoryOffset s.rxHistoryNext s.rxHistoryBufIndex = _ :=
    put_of_lt hnext (by rw [h.length_offset]; omega) _
  have hroom : 0 + count ≤ s.pcBuf.length := by rw [h.length_pcBuf]; omega
  obtain ⟨buffer, index, hloop, hlen, hindex⟩ := saveLoop_total count hroom h.length_buffer h.bufIndex_lt
  refine ⟨_, saveCommand_eq hput hloop, ?_, rfl, rfl⟩
  exact
    { h with
      length_buffer := hlen
      length_offset := by rw [List.length_set, h.length_offset]
      offset_lt := by
        intro y hy
        rcases List.mem_or_eq_of_mem_set hy with hold | rfl
        · exact h.offset_lt y hold
        · exact h.bufIndex_lt
      bufIndex_lt := hindex
      next_nonneg := by
        dsimp only
        split_ifs <;> omega
      next_lt := by
        dsimp only
        split_ifs <;> omega }

theorem addCommand_inBounds (h : s.InBounds) {count : ℕ} (hcount : count ≤ 64) :
    ∃ s', s.addCommand count = some s' ∧ s'.InBounds ∧ s'.pcBuf = s.pcBuf ∧ s'.escMode = s.escMode := by
  obtain ⟨duplicate, hdup⟩ := duplicateCmd_total h hcount
  simp only [addCommand, hdup, Option.bind_eq_bind, Option.bind_some]
  by_cases hsame : duplicate = true
  · exact ⟨s, by rw [if_pos hsame], h, rfl, rfl⟩
  · rw [if_neg hsame]
    exact saveCommand_inBounds h hcount

/-- The end of a line leaves no array, and the buffer as it is. -/
theorem endOfLine_inBounds (h : s.InBounds) {count : ℕ} (hcount : count ≤ 64) :
    ∃ s', s.endOfLine count = some s' ∧ s'.InBounds ∧ s'.pcBuf = s.pcBuf ∧ s'.escMode = s.escMode := by
  have hreset : ∀ {s' : UartStdio}, s'.InBounds → InBounds { s' with rxHistoryCur := -1 } := fun hin =>
    { hin with
      le_cur := Int.le_refl (-1)
      cur_lt := by
        dsimp only
        omega }
  by_cases hpos : count > 0
  · obtain ⟨s', hs', hin, hbuf, hesc⟩ := addCommand_inBounds h hcount
    refine ⟨{ s' with rxHistoryCur := -1 }, ?_, hreset hin, hbuf, hesc⟩
    simp only [endOfLine, if_pos hpos, hs', Option.bind_eq_bind, Option.bind_some]
  · refine ⟨{ s with rxHistoryCur := -1 }, ?_, hreset h, rfl, rfl⟩
    simp only [endOfLine, if_neg hpos, Option.bind_eq_bind, Option.bind_some]

end UartStdio

end Thronix
