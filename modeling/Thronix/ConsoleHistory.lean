import Thronix.UartStdio
import Thronix.Lib.Runs
import Mathlib.Data.List.Induction

/-!
# Thronix.ConsoleHistory — the command history

* `Prompt`: `vUARTTask` between two calls of `UARTgets`, a step for every call that returns.
* `stored`: the commands of the lines entered.
* `Recorded`: the history has the commands.  Its text buffer has the last 512 bytes of all commands ever stored, each
  with its terminator, and its table the places where the last 16 began.
* `recorded`: a run keeps the history, if no line fills the buffer.
-/

namespace Thronix

open Lib Lib.Ring

/-! ## Runs of calls -/

/-- Between two calls: the console, and the lines that were returned. -/
structure Prompt where
  stdio : UartStdio
  lines : List (List (BitVec 8))
  deriving DecidableEq

namespace Prompt

variable (cl : CmdLine)

def init : Prompt := ⟨.init cl.fresh, []⟩

/-- A call that reads the given characters and returns a line that is not empty and has no NUL. -/
def call (t : Prompt) (chars : List (BitVec 8)) : Option Prompt := do
  let (s, count) ← uartGets t.stdio chars
  let line := s.pcBuf.take count
  if line ≠ [] ∧ 0 ∉ line then some ⟨{ s with pcBuf := cl.process s.pcBuf }, t.lines ++ [line]⟩ else none

end Prompt

/-- A line equal to the command stored before it is not stored again. -/
def storeLine (cs : List (List (BitVec 8))) (line : List (BitVec 8)) : List (List (BitVec 8)) :=
  if cs.getLast? = some line then cs else cs ++ [line]

/-- The commands of the lines, the oldest one first. -/
def stored (lines : List (List (BitVec 8))) : List (List (BitVec 8)) := lines.foldl storeLine []

theorem stored_concat (lines : List (List (BitVec 8))) (line : List (BitVec 8)) :
    stored (lines ++ [line]) = storeLine (stored lines) line := by
  rw [stored, List.foldl_append]
  rfl

/-! ## What the history has -/

/-- All commands, each with its terminator. -/
def tape (cs : List (List (BitVec 8))) : List (BitVec 8) := cs.flatMap fun c => c ++ [0]

/-- Where they began. -/
def starts (cs : List (List (BitVec 8))) : List ℕ :=
  (List.range cs.length).map fun k => (tape (cs.take k)).length % 512

structure Recorded (s : UartStdio) (cs : List (List (BitVec 8))) : Prop where
  texts : ∀ c ∈ cs, 0 ∉ c ∧ c.length < 63
  length_pcBuf : s.pcBuf.length = 64
  buffer : Holds (List.replicate 512 0) s.rxHistoryBuffer (tape cs)
  bufIndex : s.rxHistoryBufIndex = (tape cs).length % 512
  offset : Holds (List.replicate 16 0) s.rxHistoryOffset (starts cs)
  next : s.rxHistoryNext = (cs.length % 16 : ℕ)
  cnt : s.rxHistoryCnt = (min 16 cs.length : ℕ)

/-- The rest of the console may differ, but for the length of the buffer. -/
structure SameHistory (s s' : UartStdio) : Prop where
  length_pcBuf : s'.pcBuf.length = s.pcBuf.length
  buffer : s'.rxHistoryBuffer = s.rxHistoryBuffer
  offset : s'.rxHistoryOffset = s.rxHistoryOffset
  bufIndex : s'.rxHistoryBufIndex = s.rxHistoryBufIndex
  next : s'.rxHistoryNext = s.rxHistoryNext
  cnt : s'.rxHistoryCnt = s.rxHistoryCnt

section Tape

variable {cs : List (List (BitVec 8))} {k : ℕ}

theorem tape_append (cs ds : List (List (BitVec 8))) : tape (cs ++ ds) = tape cs ++ tape ds := List.flatMap_append

theorem tape_concat (cs : List (List (BitVec 8))) (c : List (BitVec 8)) : tape (cs ++ [c]) = tape cs ++ (c ++ [0]) := by
  rw [tape_append]
  simp [tape]

@[simp] theorem length_starts : (starts cs).length = cs.length := by simp [starts]

theorem starts_getElem? (hk : k < cs.length) : (starts cs)[k]? = some ((tape (cs.take k)).length % 512) := by
  simp [starts, hk]

theorem starts_concat (cs : List (List (BitVec 8))) (c : List (BitVec 8)) :
    starts (cs ++ [c]) = starts cs ++ [(tape cs).length % 512] := by
  unfold starts
  rw [List.length_append, List.length_singleton, List.range_succ, List.map_append, List.map_singleton,
    List.take_left]
  congr 1
  refine List.map_congr_left fun k hk => ?_
  rw [List.take_append_of_le_length (List.mem_range.mp hk).le]

end Tape

theorem bufNext_mod (n : ℕ) : bufNext (n % 512) = (n + 1) % 512 := by
  rw [bufNext_eq (Nat.mod_lt n (by decide)), Nat.mod_add_mod]

/-- The place before the next one, in the table of 16. -/
theorem prev_mod (n : ℕ) :
    (if (((n + 1) % 16 : ℕ) : ℤ) - 1 < 0 then 15 else (((n + 1) % 16 : ℕ) : ℤ) - 1) = ((n % 16 : ℕ) : ℤ) := by
  split_ifs <;> omega

namespace Recorded

variable {s : UartStdio} {cs : List (List (BitVec 8))} {c : List (BitVec 8)} {k : ℕ}

theorem init {pcBuf : List (BitVec 8)} (h : pcBuf.length = 64) : Recorded (.init pcBuf) [] where
  texts _ hc := absurd hc List.not_mem_nil
  length_pcBuf := h
  buffer := holds_nil
  bufIndex := rfl
  offset := holds_nil
  next := rfl
  cnt := rfl

theorem congr {s' : UartStdio} (h : Recorded s cs) (hs : SameHistory s s') : Recorded s' cs where
  texts := h.texts
  length_pcBuf := hs.length_pcBuf.trans h.length_pcBuf
  buffer := by rw [hs.buffer]; exact h.buffer
  bufIndex := hs.bufIndex.trans h.bufIndex
  offset := by rw [hs.offset]; exact h.offset
  next := hs.next.trans h.next
  cnt := hs.cnt.trans h.cnt

theorem length_buffer (h : Recorded s cs) : s.rxHistoryBuffer.length = 512 :=
  h.buffer.length_eq.trans List.length_replicate

theorem length_offset (h : Recorded s cs) : s.rxHistoryOffset.length = 16 :=
  h.offset.length_eq.trans List.length_replicate

theorem cnt_cases (h : Recorded s cs) :
    (cs.length < 16 ∧ s.rxHistoryCnt = cs.length) ∨ (16 ≤ cs.length ∧ s.rxHistoryCnt = 16) := by
  rw [h.cnt]
  by_cases hfull : 16 ≤ cs.length
  · exact .inr ⟨hfull, by rw [Nat.min_eq_left hfull]; rfl⟩
  · exact .inl ⟨Nat.lt_of_not_le hfull, by rw [Nat.min_eq_right (by omega)]⟩

/-- The table has the place of a recent command. -/
theorem get_offset (h : Recorded s cs) (hk : k < cs.length) (hnew : cs.length ≤ k + 16) :
    get s.rxHistoryOffset ((k % 16 : ℕ) : ℤ) = some ((tape (cs.take k)).length % 512) := by
  have hput := h.offset.written k (by rw [length_starts]; exact hk)
    (by rw [length_starts, List.length_replicate]; exact hnew)
  rw [List.length_replicate, starts_getElem? hk] at hput
  rw [get_natCast, hput]

/-- The last command is there. -/
theorem reads_last (h : Recorded s (cs ++ [c])) :
    Reads s.rxHistoryBuffer ((tape cs).length % 512) (c ++ [0]) := by
  have hshort := (h.texts c List.mem_concat_self).2
  have hbuffer := h.buffer
  rw [tape_concat] at hbuffer
  have hlen : (c ++ [0]).length < 64 := by rw [List.length_append, List.length_singleton]; omega
  have hiff := hbuffer.reads_iff (by rw [List.length_replicate]; omega)
  rw [List.length_replicate] at hiff
  refine hiff.mpr fun i hi => ?_
  omega

end Recorded

/-! ## A command is stored -/

section Store

variable {s : UartStdio} {cs : List (List (BitVec 8))}

theorem sameAsLast_eq (hlen : s.rxHistoryBuffer.length = 512) (count : ℕ) :
    ∀ {x y : ℕ} {w : List (BitVec 8)}, x + count ≤ s.pcBuf.length → y < 512 → Reads s.rxHistoryBuffer y (w ++ [0]) →
      0 ∉ w → 0 ∉ (s.pcBuf.drop x).take count →
      s.sameAsLast count x y = some (w == (s.pcBuf.drop x).take count) := by
  induction count with
  | zero =>
    intro x y w _ hy hr hw _
    rw [UartStdio.sameAsLast, get_natCast, List.take_zero]
    cases w with
    | nil =>
      rw [hr.head (by omega)]
      rfl
    | cons a w =>
      have ha : a ≠ 0 := fun h => hw (by rw [h]; exact List.mem_cons_self)
      rw [hr.head (by omega), Option.map_some, beq_false_of_ne ha]
      rfl
  | succ count ih =>
    intro x y w hx hy hr hw hu
    obtain ⟨b, hb⟩ : ∃ b, s.pcBuf[x]? = some b := ⟨_, List.getElem?_eq_getElem (by omega)⟩
    rw [take_succ_drop hb] at hu ⊢
    simp only [UartStdio.sameAsLast, get_natCast, hb, Option.bind_eq_bind]
    cases w with
    | nil =>
      rw [hr.head (by omega), Option.bind_some, Option.bind_some]
      have hb0 : (0 : BitVec 8) ≠ b := fun h => hu (by rw [h]; exact List.mem_cons_self)
      rw [if_pos hb0]
      rfl
    | cons a w =>
      rw [hr.head (by omega), Option.bind_some, Option.bind_some]
      by_cases hab : a = b
      · have hnext := hr.tail
        rw [hlen, ← bufNext_eq hy] at hnext
        rw [if_neg (not_not.mpr hab), ih (by omega) (bufNext_lt hy) hnext (fun h => hw (List.mem_cons_of_mem _ h))
          (fun h => hu (List.mem_cons_of_mem _ h)), hab]
        simp
      · rw [if_pos hab]
        simp [hab]

theorem duplicateCmd_eq (h : Recorded s cs) {count : ℕ} (hcount : count ≤ 64) (hu : 0 ∉ s.pcBuf.take count) :
    s.duplicateCmd count = some (cs.getLast? == some (s.pcBuf.take count)) := by
  have hcnt := h.cnt
  induction cs using List.reverseRecOn with
  | nil =>
    have hnone : ¬s.rxHistoryCnt > 0 := by rw [hcnt]; decide
    rw [UartStdio.duplicateCmd, if_neg hnone]
    rfl
  | append_singleton cs c _ =>
    have hsome : s.rxHistoryCnt > 0 := by
      rw [hcnt, List.length_append, List.length_singleton]
      omega
    have hnext := h.next
    rw [List.length_append, List.length_singleton] at hnext
    have hget := h.get_offset (k := cs.length) (by simp) (by simp)
    rw [List.take_left] at hget
    rw [UartStdio.duplicateCmd, if_pos hsome, hnext, prev_mod]
    simp only [hget, Option.bind_eq_bind, Option.bind_some]
    rw [sameAsLast_eq h.length_buffer count (by rw [h.length_pcBuf]; omega) (Nat.mod_lt _ (by decide)) h.reads_last
      (h.texts c List.mem_concat_self).1 (by rwa [List.drop_zero]), List.drop_zero, List.getLast?_concat]
    rfl

theorem saveLoop_holds {pcBuf init : List (BitVec 8)} (hinit : init.length = 512) (count : ℕ) :
    ∀ {x : ℕ} {buffer t : List (BitVec 8)}, x + count ≤ pcBuf.length → Holds init buffer t →
      ∃ buffer', UartStdio.saveLoop pcBuf count x buffer (t.length % 512) =
          some (buffer', (t ++ ((pcBuf.drop x).take count ++ [0])).length % 512) ∧
        Holds init buffer' (t ++ ((pcBuf.drop x).take count ++ [0])) := by
  induction count with
  | zero =>
    intro x buffer t _ hb
    have hput : put buffer ((t.length % 512 : ℕ) : ℤ) 0 = some (buffer.set (t.length % 512) 0) :=
      put_natCast (by rw [hb.length_eq, hinit]; exact Nat.mod_lt _ (by decide))
    refine ⟨buffer.set (t.length % 512) 0, ?_, ?_⟩
    · rw [UartStdio.saveLoop, hput, List.take_zero, List.nil_append, List.length_append, List.length_singleton,
        ← bufNext_mod]
      rfl
    · rw [← hinit, List.take_zero, List.nil_append]
      exact hb.snoc (by omega) 0
  | succ count ih =>
    intro x buffer t hx hb
    obtain ⟨b, hget⟩ : ∃ b, pcBuf[x]? = some b := ⟨_, List.getElem?_eq_getElem (by omega)⟩
    have hput : put buffer ((t.length % 512 : ℕ) : ℤ) b = some (buffer.set (t.length % 512) b) :=
      put_natCast (by rw [hb.length_eq, hinit]; exact Nat.mod_lt _ (by decide))
    have hsnoc := hb.snoc (by omega) b
    rw [hinit] at hsnoc
    obtain ⟨buffer', hloop, hb'⟩ := ih (x := x + 1) (by omega) hsnoc
    have htape : t ++ ((pcBuf.drop x).take (count + 1) ++ [0]) =
        t ++ [b] ++ ((pcBuf.drop (x + 1)).take count ++ [0]) := by
      rw [take_succ_drop hget, List.append_assoc, List.cons_append, List.singleton_append]
    rw [htape]
    refine ⟨buffer', ?_, hb'⟩
    simp only [UartStdio.saveLoop, get_natCast, hget, hput, Option.bind_eq_bind, Option.bind_some, bufNext_mod]
    rw [← hloop, List.length_append, List.length_singleton]

theorem endOfLine_pcBuf {s' : UartStdio} {count : ℕ} (h : s.endOfLine count = some s') : s'.pcBuf = s.pcBuf := by
  have hadd : ∀ s₁, s.addCommand count = some s₁ → s₁.pcBuf = s.pcBuf := by
    intro s₁ h₁
    simp only [UartStdio.addCommand, UartStdio.saveCommand, Option.bind_eq_bind] at h₁
    obtain ⟨duplicate, -, h₁⟩ := Option.bind_eq_some_iff.mp h₁
    by_cases hsame : duplicate = true
    · rw [if_pos hsame] at h₁
      cases h₁
      rfl
    · rw [if_neg hsame] at h₁
      obtain ⟨offset, -, h₁⟩ := Option.bind_eq_some_iff.mp h₁
      obtain ⟨⟨buffer, index⟩, -, h₁⟩ := Option.bind_eq_some_iff.mp h₁
      cases h₁
      rfl
  by_cases hpos : count > 0
  · simp only [UartStdio.endOfLine, if_pos hpos, Option.bind_eq_bind] at h
    obtain ⟨s₁, h₁, hret⟩ := Option.bind_eq_some_iff.mp h
    cases hret
    exact hadd s₁ h₁
  · simp only [UartStdio.endOfLine, if_neg hpos, Option.bind_eq_bind, Option.bind_some] at h
    cases h
    rfl

theorem saveCommand_recorded (h : Recorded s cs) {count : ℕ} (hcount : count < 63) (hu : 0 ∉ s.pcBuf.take count) :
    ∃ s', s.saveCommand count = some s' ∧ Recorded s' (cs ++ [s.pcBuf.take count]) ∧ s'.pcBuf = s.pcBuf ∧
      s'.escMode = s.escMode := by
  have hlen := h.length_pcBuf
  have hput : put s.rxHistoryOffset s.rxHistoryNext s.rxHistoryBufIndex =
      some (s.rxHistoryOffset.set (cs.length % 16) ((tape cs).length % 512)) := by
    rw [h.next, h.bufIndex]
    exact put_natCast (by rw [h.length_offset]; exact Nat.mod_lt _ (by decide))
  have hroom : 0 + count ≤ s.pcBuf.length := by omega
  obtain ⟨buffer, hloop, hbuffer⟩ := saveLoop_holds List.length_replicate count hroom h.buffer
  rw [← h.bufIndex, List.drop_zero, ← tape_concat] at hloop
  rw [List.drop_zero, ← tape_concat] at hbuffer
  have hoffset := h.offset.snoc (by rw [List.length_replicate]; decide) ((tape cs).length % 512)
  rw [length_starts, List.length_replicate, ← starts_concat cs (s.pcBuf.take count)] at hoffset
  refine ⟨_, UartStdio.saveCommand_eq hput hloop, ?_, rfl, rfl⟩
  have hlength : (cs ++ [s.pcBuf.take count]).length = cs.length + 1 := by simp
  exact
    { texts := by
        intro c hc
        rcases List.mem_append.mp hc with hold | hnew
        · exact h.texts c hold
        · rw [List.mem_singleton.mp hnew]
          exact ⟨hu, by rw [List.length_take]; omega⟩
      length_pcBuf := hlen
      buffer := hbuffer
      bufIndex := rfl
      offset := hoffset
      next := by
        have := h.next
        rw [hlength]
        dsimp only
        split_ifs <;> omega
      cnt := by
        have := h.cnt
        rw [hlength]
        dsimp only
        split_ifs <;> omega }

theorem addCommand_recorded (h : Recorded s cs) {count : ℕ} (hcount : count < 63) (hu : 0 ∉ s.pcBuf.take count) :
    ∃ s', s.addCommand count = some s' ∧ Recorded s' (storeLine cs (s.pcBuf.take count)) ∧ s'.pcBuf = s.pcBuf ∧
      s'.escMode = s.escMode := by
  simp only [UartStdio.addCommand, duplicateCmd_eq h (by omega : count ≤ 64) hu, Option.bind_eq_bind, Option.bind_some,
    beq_iff_eq, storeLine]
  by_cases hsame : cs.getLast? = some (s.pcBuf.take count)
  · rw [if_pos hsame, if_pos hsame]
    exact ⟨s, rfl, h, rfl, rfl⟩
  · rw [if_neg hsame, if_neg hsame]
    exact saveCommand_recorded h hcount hu

theorem endOfLine_recorded (h : Recorded s cs) {count : ℕ} (hpos : 0 < count) (hcount : count < 63)
    (hu : 0 ∉ s.pcBuf.take count) :
    ∃ s', s.endOfLine count = some s' ∧ Recorded s' (storeLine cs (s.pcBuf.take count)) ∧ s'.pcBuf = s.pcBuf ∧
      s'.escMode = s.escMode ∧ s'.rxHistoryCur = -1 := by
  obtain ⟨s', hs', hrec, hbuf, hesc⟩ := addCommand_recorded h hcount hu
  refine ⟨{ s' with rxHistoryCur := -1 }, ?_, hrec.congr ⟨rfl, rfl, rfl, rfl, rfl, rfl⟩, hbuf, hesc, rfl⟩
  simp only [UartStdio.endOfLine, if_pos hpos, hs', Option.bind_eq_bind, Option.bind_some]

end Store

/-! ## The turns of a call -/

section Turns

theorem copyHistory_length {buffer : List (BitVec 8)} (turns : ℕ) :
    ∀ {pcBuf pcBuf' : List (BitVec 8)} {count count' y : ℕ},
      copyHistory buffer turns pcBuf count y = some (pcBuf', count') → pcBuf'.length = pcBuf.length := by
  induction turns with
  | zero =>
    intro _ _ _ _ _ h
    cases h
  | succ turns ih =>
    intro pcBuf pcBuf' count count' y h
    simp only [copyHistory, Option.bind_eq_bind] at h
    obtain ⟨b, -, h⟩ := Option.bind_eq_some_iff.mp h
    by_cases hb : b = 0
    · rw [if_pos hb] at h
      obtain ⟨pcBuf₁, hput, hret⟩ := Option.bind_eq_some_iff.mp h
      cases hret
      rw [(put_some hput).2.2, List.length_set]
    · rw [if_neg hb] at h
      obtain ⟨pcBuf₁, hput, hloop⟩ := Option.bind_eq_some_iff.mp h
      rw [ih hloop, (put_some hput).2.2, List.length_set]

variable {g g' : Gets} {c : BitVec 8} {left : Bool}

theorem Gets.showEntry_same {current : ℤ} (h : g.showEntry current = some g') : SameHistory g.stdio g'.stdio := by
  simp only [Gets.showEntry, Option.bind_eq_bind] at h
  obtain ⟨y, -, h⟩ := Option.bind_eq_some_iff.mp h
  obtain ⟨⟨pcBuf, count⟩, hcopy, hret⟩ := Option.bind_eq_some_iff.mp h
  cases hret
  exact ⟨copyHistory_length _ hcopy, rfl, rfl, rfl, rfl, rfl⟩

theorem Gets.showEntry_cur {current : ℤ} (h : g.showEntry current = some g') : g'.stdio.rxHistoryCur = current := by
  simp only [Gets.showEntry, Option.bind_eq_bind] at h
  obtain ⟨y, -, h⟩ := Option.bind_eq_some_iff.mp h
  obtain ⟨⟨pcBuf, count⟩, hcopy, hret⟩ := Option.bind_eq_some_iff.mp h
  cases hret
  rfl

theorem Gets.arrowUp_same (h : g.arrowUp = some g') : SameHistory g.stdio g'.stdio := by
  simp only [Gets.arrowUp] at h
  split_ifs at h
  all_goals first
    | exact Gets.showEntry_same h
    | exact Option.some.inj h ▸ ⟨rfl, rfl, rfl, rfl, rfl, rfl⟩

theorem Gets.arrowDown_same (h : g.arrowDown = some g') : SameHistory g.stdio g'.stdio := by
  simp only [Gets.arrowDown] at h
  split_ifs at h
  all_goals first
    | exact Gets.showEntry_same h
    | exact Option.some.inj h ▸ ⟨rfl, rfl, rfl, rfl, rfl, rfl⟩

/-- A turn leaves the loop at the end of a line, and otherwise it leaves the history as it is. -/
theorem Gets.read_cases (h : g.read c = some (g', left)) :
    (left = true ∧ g.stdio.escMode = .off ∧ g.stdio.endOfLine g.count = some g'.stdio ∧ g'.count = g.count) ∨
      (left = false ∧ SameHistory g.stdio g'.stdio) := by
  have hgoes : ∀ {g₁ : Gets}, some (g₁, false) = some (g', left) → SameHistory g.stdio g₁.stdio →
      left = false ∧ SameHistory g.stdio g'.stdio := by
    intro g₁ heq hs
    cases heq
    exact ⟨rfl, hs⟩
  simp only [Gets.read] at h
  by_cases he : c = Ascii.backspace ∨ c = Ascii.del
  · rw [if_pos he] at h
    refine .inr (hgoes h ?_)
    split_ifs <;> exact ⟨rfl, rfl, rfl, rfl, rfl, rfl⟩
  rw [if_neg he] at h
  by_cases hm1 : g.stdio.escMode = .escape
  · rw [if_pos hm1] at h
    exact .inr (hgoes h ⟨rfl, rfl, rfl, rfl, rfl, rfl⟩)
  rw [if_neg hm1] at h
  by_cases hm2 : g.stdio.escMode = .bracket
  · rw [if_pos hm2] at h
    by_cases hup : c = Ascii.up
    · rw [if_pos hup] at h
      obtain ⟨g₁, harrow, heq⟩ := Option.map_eq_some_iff.mp h
      have hs := Gets.arrowUp_same harrow
      exact .inr (hgoes (congrArg some heq) ⟨hs.1, hs.2, hs.3, hs.4, hs.5, hs.6⟩)
    rw [if_neg hup] at h
    by_cases hdown : c = Ascii.down
    · rw [if_pos hdown] at h
      obtain ⟨g₁, harrow, heq⟩ := Option.map_eq_some_iff.mp h
      have hs := Gets.arrowDown_same harrow
      exact .inr (hgoes (congrArg some heq) ⟨hs.1, hs.2, hs.3, hs.4, hs.5, hs.6⟩)
    rw [if_neg hdown] at h
    exact .inr (hgoes h ⟨rfl, rfl, rfl, rfl, rfl, rfl⟩)
  rw [if_neg hm2] at h
  have hoff : g.stdio.escMode = .off := by
    cases hmode : g.stdio.escMode with
    | off => rfl
    | escape => exact absurd hmode hm1
    | bracket => exact absurd hmode hm2
  by_cases hpair : c = Ascii.lf ∧ g.bLastWasCR = true
  · rw [if_pos hpair] at h
    exact .inr (hgoes h ⟨rfl, rfl, rfl, rfl, rfl, rfl⟩)
  rw [if_neg hpair] at h
  by_cases hx : c = Ascii.esc
  · rw [if_pos hx] at h
    exact .inr (hgoes h ⟨rfl, rfl, rfl, rfl, rfl, rfl⟩)
  rw [if_neg hx] at h
  by_cases hend : c = Ascii.cr ∨ c = Ascii.lf
  · rw [if_pos hend] at h
    obtain ⟨s, hs, heq⟩ := Option.map_eq_some_iff.mp h
    cases heq
    exact .inl ⟨rfl, hoff, hs, rfl⟩
  rw [if_neg hend] at h
  by_cases hroom : g.count < 63
  · rw [if_pos hroom] at h
    obtain ⟨pcBuf, hput, heq⟩ := Option.map_eq_some_iff.mp h
    have hlen : pcBuf.length = g.stdio.pcBuf.length := by rw [(put_some hput).2.2, List.length_set]
    exact .inr (hgoes (congrArg some heq) ⟨hlen, rfl, rfl, rfl, rfl, rfl⟩)
  · rw [if_neg hroom] at h
    exact .inr (hgoes h ⟨rfl, rfl, rfl, rfl, rfl, rfl⟩)

end Turns

/-! ## Calls -/

/-- Between two calls. -/
structure AtPrompt (s : UartStdio) (cs : List (List (BitVec 8))) : Prop extends Recorded s cs where
  escMode : s.escMode = .off
  cur : s.rxHistoryCur = -1

theorem AtPrompt.congr {s s' : UartStdio} {cs : List (List (BitVec 8))} (h : AtPrompt s cs) (hs : SameHistory s s')
    (hesc : s'.escMode = s.escMode) (hcur : s'.rxHistoryCur = s.rxHistoryCur) : AtPrompt s' cs where
  toRecorded := h.toRecorded.congr hs
  escMode := hesc.trans h.escMode
  cur := hcur.trans h.cur

section Calls

variable {cl : CmdLine} {g : Gets} {s : UartStdio} {cs : List (List (BitVec 8))} {chars : List (BitVec 8)} {count : ℕ}

/-- A call that does not return at its 63rd character stores its line. -/
theorem feed_recorded (h : Recorded g.stdio cs) (hf : g.feed chars = some (.returned s count))
    (hne : s.pcBuf.take count ≠ []) (hnul : 0 ∉ s.pcBuf.take count) (hshort : (s.pcBuf.take count).length < 63) :
    AtPrompt s (storeLine cs (s.pcBuf.take count)) := by
  induction chars generalizing g with
  | nil => cases hf
  | cons c chars ih =>
    simp only [Gets.feed, Gets.step, Option.bind_eq_bind] at hf
    obtain ⟨r, hstep, hrest⟩ := Option.bind_eq_some_iff.mp hf
    obtain ⟨⟨g₁, left⟩, hread, hret⟩ := Option.bind_eq_some_iff.mp hstep
    dsimp only at hret
    by_cases hleft : left = true ∨ ¬g₁.count < 63
    · rw [if_pos hleft] at hret
      obtain ⟨pcBuf, hput, hret⟩ := Option.bind_eq_some_iff.mp hret
      obtain ⟨-, hlt, hset⟩ := put_some hput
      rw [Int.toNat_natCast] at hset
      cases hret
      simp only [Option.ite_none_right_eq_some, Option.some.injEq, GetsResult.returned.injEq] at hrest
      obtain ⟨-, rfl, rfl⟩ := hrest
      have hline : pcBuf.take g₁.count = g₁.stdio.pcBuf.take g₁.count := by
        rw [hset, List.take_set_of_le (le_refl _)]
      dsimp only at hne hnul hshort ⊢
      rw [hline] at hne hnul hshort ⊢
      have hcount : g₁.count < 63 := by
        rw [List.length_take] at hshort
        omega
      rcases Gets.read_cases hread with ⟨-, hoff, hend, hsame⟩ | ⟨rfl, -⟩
      · have hpos : 0 < g₁.count := by
          refine Nat.pos_of_ne_zero fun hzero => hne ?_
          rw [hzero, List.take_zero]
        have hbuf := endOfLine_pcBuf hend
        rw [hbuf, hsame] at hnul ⊢
        rw [hsame] at hpos hcount
        obtain ⟨s', hs', hrec, -, hesc, hcur⟩ := endOfLine_recorded h hpos hcount hnul
        obtain rfl : s' = g₁.stdio := Option.some.inj (hs'.symm.trans hend)
        have hlen : pcBuf.length = g₁.stdio.pcBuf.length := by rw [hset, List.length_set]
        have hat : AtPrompt g₁.stdio (storeLine cs (g.stdio.pcBuf.take g.count)) := ⟨hrec, hesc.trans hoff, hcur⟩
        exact hat.congr ⟨hlen, rfl, rfl, rfl, rfl, rfl⟩ rfl rfl
      · simp [hcount] at hleft
    · rw [if_neg hleft] at hret
      cases hret
      rcases Gets.read_cases hread with ⟨rfl, -⟩ | ⟨-, hsame⟩
      · exact absurd (.inl rfl) hleft
      · exact ih (h.congr hsame) hrest

theorem uartGets_recorded (h : AtPrompt s cs) {s' : UartStdio} (hcall : uartGets s chars = some (s', count))
    (hne : s'.pcBuf.take count ≠ []) (hnul : 0 ∉ s'.pcBuf.take count) (hshort : (s'.pcBuf.take count).length < 63) :
    AtPrompt s' (storeLine cs (s'.pcBuf.take count)) := by
  simp only [uartGets, Option.bind_eq_bind] at hcall
  obtain ⟨r, hf, hret⟩ := Option.bind_eq_some_iff.mp hcall
  cases r with
  | reading g => cases hret
  | returned s₁ n =>
    cases hret
    exact feed_recorded h.toRecorded hf hne hnul hshort

end Calls

theorem Prompt.call_cases {cl : CmdLine} {t t' : Prompt} {chars : List (BitVec 8)} (h : t.call cl chars = some t') :
    ∃ s count, uartGets t.stdio chars = some (s, count) ∧ s.pcBuf.take count ≠ [] ∧ 0 ∉ s.pcBuf.take count ∧
      t' = ⟨{ s with pcBuf := cl.process s.pcBuf }, t.lines ++ [s.pcBuf.take count]⟩ := by
  simp only [Prompt.call, Option.bind_eq_bind] at h
  obtain ⟨⟨s, count⟩, hgets, h⟩ := Option.bind_eq_some_iff.mp h
  dsimp only at h
  by_cases hline : s.pcBuf.take count ≠ [] ∧ 0 ∉ s.pcBuf.take count
  · rw [if_pos hline] at h
    exact ⟨s, count, hgets, hline.1, hline.2, (Option.some.inj h).symm⟩
  · rw [if_neg hline] at h
    cases h

theorem step_recorded {cl : CmdLine} {t t' : Prompt} {chars : List (BitVec 8)} (hcall : t.call cl chars = some t')
    (ih : (∀ line ∈ t.lines, line.length < 63) → AtPrompt t.stdio (stored t.lines))
    (hshort : ∀ line ∈ t'.lines, line.length < 63) : AtPrompt t'.stdio (stored t'.lines) := by
  obtain ⟨s, count, hgets, hne, hnul, rfl⟩ := Prompt.call_cases hcall
  have hold := ih fun line hline => hshort line (List.mem_append_left _ hline)
  have hat := uartGets_recorded hold hgets hne hnul (hshort _ List.mem_concat_self)
  rw [stored_concat]
  exact hat.congr ⟨cl.length_process s.pcBuf, rfl, rfl, rfl, rfl, rfl⟩ rfl rfl

/-- **The history of a run** has the commands of its lines. -/
theorem recorded {cl : CmdLine} {h : List (List (BitVec 8))} {t : Prompt}
    (hr : Run (Prompt.call cl) (Prompt.init cl) h t) :
    (∀ line ∈ t.lines, line.length < 63) → AtPrompt t.stdio (stored t.lines) := by
  refine RunIf.inv (I := fun _ t => (∀ line ∈ t.lines, line.length < 63) → AtPrompt t.stdio (stored t.lines)) ?_ ?_ hr
  · intro _
    exact ⟨.init cl.length_fresh, rfl, rfl⟩
  · intro _ t chars t' _ ih _ hcall
    exact step_recorded hcall ih

end Thronix
