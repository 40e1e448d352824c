import Thronix.ConsoleHistory

/-!
# Thronix.ConsoleRecall — the arrow keys

What UP and DOWN make of the history at a prompt.

* `RecallShows`: the UP arrow shows the last 16 commands one after the other and then nothing more, and DOWN leaves the
  most recent one for an empty line.
* `Shown`: the console after a number of UP arrows.
* `not_recallShows_full`: right after a line of 63 characters, which is not stored, this is never so.
* `recall_shows_iff`: after a run with no line of 63 characters this is so, unless bytes of the last 16 commands have
  been overwritten by different ones or there are 15 commands.  With 15 the entry behind the last one is taken for a
  command.
-/

namespace Thronix

open Lib Lib.Ring

/-! ## The arrows -/

namespace Gets

/-- An arrow key; the call goes on. -/
def press (g : Gets) (key : BitVec 8) : Option Gets := do
  match ← g.feed [Ascii.esc, Ascii.bracket, key] with
  | .reading g => some g
  | .returned _ _ => none

/-- The UP arrow a number of times. -/
def ups (g : Gets) : ℕ → Option Gets
  | 0 => some g
  | j + 1 => (g.ups j).bind fun g => g.press Ascii.up

end Gets

structure RecallShows (s : UartStdio) (cs : List (List (BitVec 8))) : Prop where
  shows : ∀ j, 1 ≤ j → j ≤ min 16 cs.length →
    ∃ g, (Gets.start s).ups j = some g ∧ cs[cs.length - j]? = some g.text
  further : ∀ k, min 16 cs.length ≤ k → (Gets.start s).ups k = (Gets.start s).ups (min 16 cs.length)
  clears : cs ≠ [] → ∃ g, ((Gets.start s).ups 1).bind (fun g => g.press Ascii.down) = some g ∧ g.text = []

/-- The last 16 commands. -/
def recent (cs : List (List (BitVec 8))) : List (List (BitVec 8)) := cs.drop (cs.length - 16)

/-- Where their bytes take more than the 512 of the history, the last ones are the first ones again. -/
def Intact (cs : List (List (BitVec 8))) : Prop :=
  ∀ i, i + 512 < (tape (recent cs)).length → (tape (recent cs))[i]? = (tape (recent cs))[i + 512]?

/-! ## The copy of an entry -/

section Copy

variable {buffer : List (BitVec 8)}

theorem copyHistory_reads (hlen : buffer.length = 512) (w : List (BitVec 8)) :
    ∀ {turns count y : ℕ} {pcBuf : List (BitVec 8)}, y < 512 → Reads buffer y (w ++ [0]) → 0 ∉ w → w.length < turns →
      count + w.length < pcBuf.length → ∃ pcBuf', copyHistory buffer turns pcBuf count y =
          some (pcBuf', count + w.length) ∧ pcBuf'.take (count + w.length) = pcBuf.take count ++ w := by
  induction w with
  | nil =>
    intro turns count y pcBuf hy hr _ hturns hroom
    obtain ⟨turns, rfl⟩ : ∃ n, turns = n + 1 := Nat.exists_eq_succ_of_ne_zero (by omega)
    have hput : put pcBuf count 0 = some (pcBuf.set count 0) := put_natCast (by simpa using hroom)
    refine ⟨pcBuf.set count 0, ?_, ?_⟩
    · simp only [copyHistory, get_natCast, hr.head (hlen ▸ hy), hput, Option.bind_eq_bind, Option.bind_some, if_true]
      rfl
    · rw [List.append_nil, List.length_nil, Nat.add_zero, List.take_set_of_le (le_refl _)]
  | cons a w ih =>
    intro turns count y pcBuf hy hr hnul hturns hroom
    rw [List.length_cons] at hturns hroom
    obtain ⟨turns, rfl⟩ : ∃ n, turns = n + 1 := Nat.exists_eq_succ_of_ne_zero (by omega)
    have ha : a ≠ 0 := fun h => hnul (by rw [h]; exact List.mem_cons_self)
    have hput : put pcBuf count a = some (pcBuf.set count a) := put_natCast (by omega)
    have hnext := hr.tail
    rw [hlen, ← bufNext_eq hy] at hnext
    have hturns' : w.length < turns := by omega
    have hroom' : count + 1 + w.length < (pcBuf.set count a).length := by rw [List.length_set]; omega
    obtain ⟨pcBuf', hcopy, htake⟩ :=
      ih (bufNext_lt hy) hnext (fun h => hnul (List.mem_cons_of_mem _ h)) hturns' hroom'
    have hcount : count + (a :: w).length = count + 1 + w.length := by rw [List.length_cons]; omega
    refine ⟨pcBuf', ?_, ?_⟩
    · simp only [copyHistory, get_natCast, hr.head (hlen ▸ hy), hput, Option.bind_eq_bind, Option.bind_some, if_neg ha,
        hcopy, hcount]
    · rw [hcount, htake, take_succ_set (by omega), List.append_assoc]
      rfl

theorem copyHistory_sound (hlen : buffer.length = 512) (turns : ℕ) :
    ∀ {count n y : ℕ} {pcBuf pcBuf' : List (BitVec 8)}, y < 512 →
      copyHistory buffer turns pcBuf count y = some (pcBuf', n) →
        ∃ w, Reads buffer y (w ++ [0]) ∧ pcBuf'.take n = pcBuf.take count ++ w := by
  induction turns with
  | zero =>
    intro _ _ _ _ _ _ h
    cases h
  | succ turns ih =>
    intro count n y pcBuf pcBuf' hy h
    simp only [copyHistory, get_natCast, Option.bind_eq_bind] at h
    obtain ⟨b, hb, h⟩ := Option.bind_eq_some_iff.mp h
    by_cases hzero : b = 0
    · rw [if_pos hzero] at h
      obtain ⟨pcBuf₁, hput, hret⟩ := Option.bind_eq_some_iff.mp h
      cases hret
      refine ⟨[], ?_, ?_⟩
      · intro i hi
        obtain rfl : i = 0 := by simpa using hi
        rw [Nat.add_zero, hlen, Nat.mod_eq_of_lt hy, hb, hzero]
        rfl
      · rw [(put_some hput).2.2, Int.toNat_natCast, List.take_set_of_le (le_refl _), List.append_nil]
    · rw [if_neg hzero] at h
      obtain ⟨pcBuf₁, hput, hcopy⟩ := Option.bind_eq_some_iff.mp h
      obtain ⟨w, hr, htake⟩ := ih (bufNext_lt hy) hcopy
      obtain ⟨-, hlt, hset⟩ := put_some hput
      rw [Int.toNat_natCast] at hset
      refine ⟨b :: w, ?_, ?_⟩
      · refine Reads.cons ?_ (by omega) hb
        rw [hlen, ← bufNext_eq hy]
        exact hr
      · rw [htake, hset, take_succ_set (by omega), List.append_assoc]
        rfl

end Copy

/-! ## An arrow -/

/-- The call goes on, outside an escape sequence. -/
structure Ready (g : Gets) : Prop where
  escMode : g.stdio.escMode = .off
  bLastWasCR : g.bLastWasCR = false
  count_lt : g.count < 63

section Arrow

variable {g g' : Gets} {key : BitVec 8} {cs : List (List (BitVec 8))} {j k : ℕ}

/-- An escape sequence begun and ended. -/
theorem Ready.restored (h : Ready g) :
    (({ g.escape .escape with bLastWasCR := false } : Gets).escape .bracket).escape .off = g := by
  obtain ⟨⟨_, _, _, _, _, _, _, mode⟩, count, bLastWasCR⟩ := g
  obtain ⟨hesc, hcr, -⟩ := h
  dsimp only at hesc hcr
  rw [hesc, hcr]
  rfl

theorem press_eq (h : Ready g) {arrow : Option Gets}
    (hkey : (({ g.escape .escape with bLastWasCR := false } : Gets).escape .bracket).read key =
      arrow.map fun g => (g, false)) :
    g.press key = arrow.bind fun g => if g.count < 63 then some g else none := by
  have hlt := h.count_lt
  have hesc : g.read Ascii.esc = some ({ g.escape .escape with bLastWasCR := false }, false) := by
    simp [Gets.read, h.escMode, h.bLastWasCR, Ascii.esc, Ascii.backspace, Ascii.del, Ascii.lf]
  have hbracket : ({ g.escape .escape with bLastWasCR := false } : Gets).read Ascii.bracket =
      some (({ g.escape .escape with bLastWasCR := false } : Gets).escape .bracket, false) := by
    simp [Gets.read, Gets.escape, Ascii.bracket, Ascii.backspace, Ascii.del]
  have h1 := Gets.step_reading hesc hlt
  have h2 := Gets.step_reading hbracket hlt
  simp only [Gets.press, Gets.feed, h1, h2, Option.bind_eq_bind, Option.bind_some]
  cases harrow : arrow with
  | none =>
    rw [harrow, Option.map_none] at hkey
    simp only [Gets.step, hkey, Option.bind_eq_bind, Option.bind_none]
  | some g' =>
    rw [harrow, Option.map_some] at hkey
    rw [Option.bind_some]
    by_cases hroom : g'.count < 63
    · rw [Gets.step_reading hkey hroom, if_pos hroom]
      rfl
    · have hend : false = true ∨ ¬g'.count < 63 := .inr hroom
      rw [if_neg hroom]
      simp only [Gets.step, hkey, Option.bind_eq_bind, Option.bind_some, if_pos hend]
      cases put g'.stdio.pcBuf g'.count 0 with
      | none => rfl
      | some pcBuf => rfl

theorem press_up (h : Ready g) :
    g.press Ascii.up = g.arrowUp.bind fun g => if g.count < 63 then some g else none := by
  refine press_eq h ?_
  have hback := h.restored
  simp only [Gets.read, Gets.escape] at hback ⊢
  simp [Ascii.up, Ascii.backspace, Ascii.del, hback]

theorem press_down (h : Ready g) :
    g.press Ascii.down = g.arrowDown.bind fun g => if g.count < 63 then some g else none := by
  refine press_eq h ?_
  have hback := h.restored
  simp only [Gets.read, Gets.escape] at hback ⊢
  simp [Ascii.down, Ascii.up, Ascii.backspace, Ascii.del, hback]

end Arrow

/-! ## After a number of UP arrows -/

structure Shown (s : UartStdio) (cs : List (List (BitVec 8))) (j : ℕ) (g : Gets) : Prop extends Ready g where
  same : SameHistory s g.stdio
  cur : g.stdio.rxHistoryCur = if j = 0 then -1 else (((cs.length - j) % 16 : ℕ) : ℤ)

section Shown

variable {s : UartStdio} {cs : List (List (BitVec 8))} {g g' : Gets} {j k : ℕ}

theorem shown_start (h : AtPrompt s cs) : Shown s cs 0 (Gets.start s) where
  escMode := h.escMode
  bLastWasCR := rfl
  count_lt := Nat.zero_lt_succ _
  same := ⟨rfl, rfl, rfl, rfl, rfl, rfl⟩
  cur := h.cur

theorem showEntry_eq (h : Recorded g.stdio cs) (hk : k < cs.length) (hnew : cs.length ≤ k + 16) :
    g.showEntry ((k % 16 : ℕ) : ℤ) =
      (copyHistory g.stdio.rxHistoryBuffer 65 g.stdio.pcBuf 0 ((tape (cs.take k)).length % 512)).map fun r =>
        { g with stdio := { g.stdio with pcBuf := r.1, rxHistoryCur := ((k % 16 : ℕ) : ℤ) }, count := r.2 } := by
  simp only [Gets.showEntry, h.get_offset hk hnew, Option.bind_eq_bind, Option.bind_some]
  cases copyHistory g.stdio.rxHistoryBuffer 65 g.stdio.pcBuf 0 ((tape (cs.take k)).length % 512) with
  | none => rfl
  | some r => rfl

theorem Shown.arrowUp_eq (h : Shown s cs j g) (hs : Recorded s cs) (hj : j < min 16 cs.length) :
    g.arrowUp = g.showEntry (((cs.length - (j + 1)) % 16 : ℕ) : ℤ) := by
  obtain ⟨m, hm⟩ : ∃ m, cs.length = m + (j + 1) := ⟨cs.length - (j + 1), by omega⟩
  have hnext : g.stdio.rxHistoryNext = (cs.length % 16 : ℕ) := h.same.next.trans hs.next
  have hcur := h.cur
  have hcurrent : (if g.stdio.rxHistoryCur = -1 then g.stdio.rxHistoryNext else g.stdio.rxHistoryCur) =
      (((m + 1) % 16 : ℕ) : ℤ) := by
    by_cases hzero : j = 0
    · rw [if_pos hzero] at hcur
      rw [if_pos hcur, hnext, hm, hzero]
    · rw [if_neg hzero] at hcur
      have hsub : cs.length - j = m + 1 := by omega
      have hset : ¬g.stdio.rxHistoryCur = -1 := by omega
      rw [if_neg hset, hcur, hsub]
  have hgo : ¬(g.stdio.rxHistoryNext = g.stdio.rxHistoryCur ∨ ((m % 16 : ℕ) : ℤ) > g.stdio.rxHistoryCnt) := by
    rw [hnext, hcur]
    rintro (heq | hgt)
    · split_ifs at heq
      omega
    · rcases (hs.congr h.same).cnt_cases with ⟨hpart, hcnt⟩ | ⟨hfull, hcnt⟩ <;> omega
  simp only [Gets.arrowUp, hcurrent, prev_mod, if_neg hgo]
  rw [hm, Nat.add_sub_cancel]

/-- One UP arrow more, on the way to the oldest command. -/
theorem Shown.next (h : Shown s cs j g) (hs : Recorded s cs) (hj : j < min 16 cs.length)
    (hp : g.press Ascii.up = some g') :
    Shown s cs (j + 1) g' ∧
      Reads s.rxHistoryBuffer ((tape (cs.take (cs.length - (j + 1)))).length % 512) (g'.text ++ [0]) := by
  have hrec := hs.congr h.same
  rw [press_up h.toReady, h.arrowUp_eq hs hj, showEntry_eq hrec (by omega) (by omega)] at hp
  obtain ⟨g₁, hmap, hp⟩ := Option.bind_eq_some_iff.mp hp
  obtain ⟨⟨pcBuf, count⟩, hcopy, rfl⟩ := Option.map_eq_some_iff.mp hmap
  by_cases hroom : count < 63
  · rw [if_pos hroom] at hp
    cases hp
    obtain ⟨w, hr, htake⟩ := copyHistory_sound hrec.length_buffer 65 (Nat.mod_lt _ (by decide)) hcopy
    rw [List.take_zero, List.nil_append] at htake
    have hsame : SameHistory s { g.stdio with
        pcBuf := pcBuf, rxHistoryCur := (((cs.length - (j + 1)) % 16 : ℕ) : ℤ) } :=
      ⟨(copyHistory_length _ hcopy).trans h.same.length_pcBuf, h.same.buffer, h.same.offset, h.same.bufIndex,
        h.same.next, h.same.cnt⟩
    refine ⟨⟨⟨h.escMode, h.bLastWasCR, hroom⟩, hsame, (if_neg (Nat.succ_ne_zero j)).symm⟩, ?_⟩
    rw [Gets.text, htake, ← h.same.buffer]
    exact hr
  · rw [if_neg hroom] at hp
    cases hp

/-- An entry that is there is shown. -/
theorem Shown.shows (h : Shown s cs j g) (hs : Recorded s cs) (hj : j < min 16 cs.length) {c : List (BitVec 8)}
    (hc : 0 ∉ c ∧ c.length < 63)
    (hr : Reads s.rxHistoryBuffer ((tape (cs.take (cs.length - (j + 1)))).length % 512) (c ++ [0])) :
    ∃ g', g.press Ascii.up = some g' ∧ g'.text = c := by
  have hrec := hs.congr h.same
  have hlen := hrec.length_pcBuf
  rw [← h.same.buffer] at hr
  have hturns : c.length < 65 := by omega
  have hroom : 0 + c.length < g.stdio.pcBuf.length := by omega
  obtain ⟨pcBuf, hcopy, htake⟩ :=
    copyHistory_reads hrec.length_buffer c (Nat.mod_lt _ (by decide)) hr hc.1 hturns hroom
  rw [Nat.zero_add] at hcopy htake
  rw [press_up h.toReady, h.arrowUp_eq hs hj, showEntry_eq hrec (by omega) (by omega), hcopy, Option.map_some,
    Option.bind_some, if_pos hc.2]
  refine ⟨_, rfl, ?_⟩
  rw [Gets.text, htake, List.take_zero, List.nil_append]

/-- At the oldest command the UP arrow does nothing. -/
theorem Shown.bell (h : Shown s cs (min 16 cs.length) g) (hs : Recorded s cs) (hn : cs.length ≠ 15) :
    g.press Ascii.up = some g := by
  have hnext : g.stdio.rxHistoryNext = (cs.length % 16 : ℕ) := h.same.next.trans hs.next
  have hcur := h.cur
  have hstay : g.arrowUp = some g := by
    simp only [Gets.arrowUp]
    refine if_pos ?_
    rcases (hs.congr h.same).cnt_cases with ⟨hpart, hcnt⟩ | ⟨hfull, hcnt⟩
    · right
      rw [Nat.min_eq_right (by omega), Nat.sub_self] at hcur
      have hfirst : (if g.stdio.rxHistoryCur = -1 then g.stdio.rxHistoryNext else g.stdio.rxHistoryCur) = 0 := by
        by_cases hzero : cs.length = 0
        · rw [if_pos hzero] at hcur
          rw [if_pos hcur, hnext, hzero]
          rfl
        · rw [if_neg hzero] at hcur
          have hset : ¬g.stdio.rxHistoryCur = -1 := by omega
          rw [if_neg hset, hcur]
          rfl
      rw [hfirst, hcnt]
      change (15 : ℤ) > cs.length
      omega
    · left
      rw [Nat.min_eq_left hfull, if_neg (by decide : ¬16 = 0)] at hcur
      omega
  rw [press_up h.toReady, hstay, Option.bind_some, if_pos h.count_lt]

/-- With 15 commands it goes on to the entry behind the last one. -/
theorem Shown.beyond (h : Shown s cs 15 g) (hs : Recorded s cs) (hn : cs.length = 15) :
    g.press Ascii.up ≠ some g := by
  intro hp
  have hnext : g.stdio.rxHistoryNext = (cs.length % 16 : ℕ) := h.same.next.trans hs.next
  have hcnt : g.stdio.rxHistoryCnt = (min 16 cs.length : ℕ) := h.same.cnt.trans hs.cnt
  have hcur := h.cur
  rw [hn] at hnext hcnt hcur
  have hcur0 : g.stdio.rxHistoryCur = 0 := hcur
  have hgo : g.arrowUp = g.showEntry 15 := by
    simp only [Gets.arrowUp, hcur0, hnext, hcnt]
    rfl
  rw [press_up h.toReady, hgo] at hp
  obtain ⟨g₁, hentry, hp⟩ := Option.bind_eq_some_iff.mp hp
  have hcur15 : g₁.stdio.rxHistoryCur = 15 := Gets.showEntry_cur hentry
  split_ifs at hp
  rw [Option.some.inj hp, hcur0] at hcur15
  cases hcur15

/-- The DOWN arrow at the most recent command clears the line. -/
theorem Shown.down (h : Shown s cs 1 g) (hs : Recorded s cs) (hne : cs ≠ []) :
    ∃ g', g.press Ascii.down = some g' ∧ g'.text = [] := by
  have hpos : 0 < cs.length := List.length_pos_iff.mpr hne
  have hnext : g.stdio.rxHistoryNext = (cs.length % 16 : ℕ) := h.same.next.trans hs.next
  have hcur := h.cur
  rw [if_neg (by decide : ¬1 = 0)] at hcur
  have hset : ¬g.stdio.rxHistoryCur = -1 := by omega
  have hlast : (if g.stdio.rxHistoryCur + 1 ≥ 16 then 0 else g.stdio.rxHistoryCur + 1) = g.stdio.rxHistoryNext := by
    rw [hcur, hnext]
    split_ifs <;> omega
  have hcleared : g.arrowDown = some { g with stdio := { g.stdio with rxHistoryCur := -1 }, count := 0 } := by
    simp only [Gets.arrowDown, if_neg hset]
    exact if_pos hlast
  rw [press_down h.toReady, hcleared, Option.bind_some, if_pos (Nat.zero_lt_succ _)]
  exact ⟨_, rfl, List.take_zero⟩

end Shown

/-! ## What is still there -/

section Intact

variable {s : UartStdio} {cs : List (List (BitVec 8))}

theorem reads_tape {ring : List (BitVec 8)} (hlen : ring.length = 512) (ds : List (List (BitVec 8))) :
    ∀ pre, Reads ring ((tape pre).length % 512) (tape ds) ↔
      ∀ k c, ds[k]? = some c → Reads ring ((tape (pre ++ ds.take k)).length % 512) (c ++ [0]) := by
  induction ds with
  | nil =>
    intro pre
    constructor
    · intro _ k c hc
      rw [List.getElem?_nil] at hc
      cases hc
    · intro _ i hi
      exact absurd hi (Nat.not_lt_zero i)
  | cons d ds ih =>
    intro pre
    have hplace : ((tape pre).length % 512 + (d ++ [0]).length) % 512 = (tape (pre ++ [d])).length % 512 := by
      rw [tape_concat, Nat.mod_add_mod, ← List.length_append]
    have htape : tape (d :: ds) = (d ++ [0]) ++ tape ds := List.flatMap_cons
    rw [htape, reads_append, hlen, hplace, ih (pre ++ [d])]
    constructor
    · rintro ⟨hd, hds⟩ k c hc
      cases k with
      | zero =>
        obtain rfl : d = c := by simpa using hc
        simpa using hd
      | succ k =>
        have hrest := hds k c (by simpa using hc)
        rwa [List.append_assoc] at hrest
    · intro hall
      refine ⟨by simpa using hall 0 d rfl, fun k c hc => ?_⟩
      rw [List.append_assoc]
      exact hall (k + 1) c (by simpa using hc)

theorem length_tape_le (hshort : ∀ c ∈ cs, c.length < 63) : (tape cs).length ≤ 63 * cs.length := by
  induction cs with
  | nil => exact Nat.le_refl 0
  | cons c cs ih =>
    have hc := hshort c List.mem_cons_self
    have hrest := ih fun d hd => hshort d (List.mem_cons_of_mem c hd)
    have htape : tape (c :: cs) = (c ++ [0]) ++ tape cs := List.flatMap_cons
    rw [htape, List.length_append, List.length_append, List.length_singleton, List.length_cons]
    omega

/-- The entries of the last 16 commands are there. -/
theorem reads_recent (h : Recorded s cs) : Intact cs ↔
    ∀ j, 1 ≤ j → j ≤ min 16 cs.length → ∀ c, cs[cs.length - j]? = some c →
      Reads s.rxHistoryBuffer ((tape (cs.take (cs.length - j))).length % 512) (c ++ [0]) := by
  have hsplit : cs.take (cs.length - 16) ++ recent cs = cs := List.take_append_drop _ _
  have hbuffer := h.buffer
  rw [← hsplit, tape_append] at hbuffer
  have hbytes : (tape (recent cs)).length ≤ 2 * (List.replicate 512 (0 : BitVec 8)).length := by
    have hle : (tape (recent cs)).length ≤ 63 * (recent cs).length :=
      length_tape_le fun c hc => (h.texts c (List.mem_of_mem_drop hc)).2
    rw [recent, List.length_drop] at hle
    rw [List.length_replicate]
    refine hle.trans ?_
    omega
  have hiff := hbuffer.reads_iff hbytes
  rw [List.length_replicate] at hiff
  rw [Intact, ← hiff, reads_tape h.length_buffer]
  have hget : ∀ k, (recent cs)[k]? = cs[cs.length - 16 + k]? := fun k => List.getElem?_drop
  have htake : ∀ k, cs.take (cs.length - 16) ++ (recent cs).take k = cs.take (cs.length - 16 + k) := fun k => by
    rw [recent, List.take_add]
  constructor
  · intro hall j h1 hj c hc
    have hplace : cs.length - 16 + (min 16 cs.length - j) = cs.length - j := by omega
    have hread := hall (min 16 cs.length - j) c (by rw [hget, hplace]; exact hc)
    rwa [htake, hplace] at hread
  · intro hall k c hc
    rw [hget] at hc
    have hlt : cs.length - 16 + k < cs.length := (List.getElem?_eq_some_iff.mp hc).1
    have hplace : cs.length - (cs.length - (cs.length - 16 + k)) = cs.length - 16 + k := by omega
    have hread := hall (cs.length - (cs.length - 16 + k)) (by omega) (by omega) c (by rw [hplace]; exact hc)
    rwa [hplace, ← htake] at hread

end Intact

/-! ## The keys at a prompt -/

section Recall

variable {s : UartStdio} {cs : List (List (BitVec 8))} {g : Gets} {j : ℕ}

theorem ups_shown (h : AtPrompt s cs) : ∀ {g : Gets}, j ≤ min 16 cs.length → (Gets.start s).ups j = some g →
    Shown s cs j g ∧ (1 ≤ j →
      Reads s.rxHistoryBuffer ((tape (cs.take (cs.length - j))).length % 512) (g.text ++ [0])) := by
  induction j with
  | zero =>
    intro g _ hups
    cases hups
    exact ⟨shown_start h, fun h1 => absurd h1 (by decide)⟩
  | succ j ih =>
    intro g hj hups
    obtain ⟨g₀, hold, hp⟩ := Option.bind_eq_some_iff.mp hups
    obtain ⟨hshown, -⟩ := ih (by omega) hold
    obtain ⟨hnext, hread⟩ := hshown.next h.toRecorded (by omega) hp
    exact ⟨hnext, fun _ => hread⟩

theorem shows_iff (h : AtPrompt s cs) : (∀ j, 1 ≤ j → j ≤ min 16 cs.length →
    ∃ g, (Gets.start s).ups j = some g ∧ cs[cs.length - j]? = some g.text) ↔ Intact cs := by
  rw [reads_recent h.toRecorded]
  constructor
  · intro hshows j h1 hj c hc
    obtain ⟨g, hups, htext⟩ := hshows j h1 hj
    obtain rfl : c = g.text := Option.some.inj (hc.symm.trans htext)
    exact (ups_shown h hj hups).2 h1
  · intro hreads j h1 hj
    induction j with
    | zero => cases h1
    | succ j ih =>
      obtain ⟨g₀, hold⟩ : ∃ g₀, (Gets.start s).ups j = some g₀ := by
        by_cases hzero : j = 0
        · exact ⟨Gets.start s, by rw [hzero]; rfl⟩
        · obtain ⟨g₀, hold, -⟩ := ih (by omega) (by omega)
          exact ⟨g₀, hold⟩
      obtain ⟨c, hc⟩ : ∃ c, cs[cs.length - (j + 1)]? = some c := ⟨_, List.getElem?_eq_getElem (by omega)⟩
      have hshown := (ups_shown h (by omega) hold).1
      obtain ⟨g, hp, htext⟩ := hshown.shows h.toRecorded (by omega) (h.texts c (List.mem_of_getElem? hc))
        (hreads (j + 1) h1 hj c hc)
      refine ⟨g, ?_, htext ▸ hc⟩
      rw [Gets.ups, hold]
      exact hp

theorem further_of (h : AtPrompt s cs) (hups : (Gets.start s).ups (min 16 cs.length) = some g)
    (hn : cs.length ≠ 15) : ∀ k, min 16 cs.length ≤ k → (Gets.start s).ups k = some g := by
  have hbell := (ups_shown h (Nat.le_refl _) hups).1.bell h.toRecorded hn
  intro k hk
  induction k, hk using Nat.le_induction with
  | base => exact hups
  | succ k _ ih =>
    rw [Gets.ups, ih]
    exact hbell

theorem recall_iff (h : AtPrompt s cs) : RecallShows s cs ↔ Intact cs ∧ cs.length ≠ 15 := by
  constructor
  · intro hr
    refine ⟨(shows_iff h).mp hr.shows, fun hn => ?_⟩
    have hmin : min 16 cs.length = 15 := by omega
    obtain ⟨g, hups, -⟩ := hr.shows 15 (by decide) (by omega)
    have hsame := hr.further 16 (by omega)
    rw [hmin, Gets.ups, hups] at hsame
    exact (ups_shown h (by omega) hups).1.beyond h.toRecorded hn hsame
  · rintro ⟨hintact, hn⟩
    have hshows := (shows_iff h).mpr hintact
    obtain ⟨g, hups⟩ : ∃ g, (Gets.start s).ups (min 16 cs.length) = some g := by
      by_cases hzero : min 16 cs.length = 0
      · exact ⟨Gets.start s, by rw [hzero]; rfl⟩
      · obtain ⟨g, hups, -⟩ := hshows (min 16 cs.length) (by omega) (Nat.le_refl _)
        exact ⟨g, hups⟩
    refine ⟨hshows, fun k hk => (further_of h hups hn k hk).trans hups.symm, fun hne => ?_⟩
    have hpos : 0 < cs.length := List.length_pos_iff.mpr hne
    obtain ⟨g₁, hone, -⟩ := hshows 1 (Nat.le_refl 1) (by omega)
    rw [hone]
    exact (ups_shown h (by omega) hone).1.down h.toRecorded hne

end Recall

/-! ## Lines that are typed -/

/-- A character that only goes into the line. -/
def Ordinary (c : BitVec 8) : Prop :=
  c ∉ [0, Ascii.backspace, Ascii.lf, Ascii.cr, Ascii.esc, Ascii.del]

instance : DecidablePred Ordinary := fun c =>
  inferInstanceAs (Decidable (c ∉ [0, Ascii.backspace, Ascii.lf, Ascii.cr, Ascii.esc, Ascii.del]))

section Typing

variable {cs : List (List (BitVec 8))} {w : List (BitVec 8)}

theorem feed_ordinary (hw : ∀ c ∈ w, Ordinary c) (rest : List (BitVec 8)) :
    ∀ {g : Gets}, Ready g → g.stdio.pcBuf.length = 64 → g.count + w.length < 63 →
      ∃ g', g.feed (w ++ rest) = g'.feed rest ∧ Ready g' ∧ SameHistory g.stdio g'.stdio ∧ g'.text = g.text ++ w ∧
        g'.count = g.count + w.length := by
  induction w with
  | nil =>
    intro g hg _ _
    exact ⟨g, rfl, hg, ⟨rfl, rfl, rfl, rfl, rfl, rfl⟩, (List.append_nil _).symm, rfl⟩
  | cons c w ih =>
    intro g hg hlen hroom
    rw [List.length_cons] at hroom
    have hc := hw c List.mem_cons_self
    simp only [Ordinary, List.mem_cons, List.not_mem_nil, or_false, not_or] at hc
    obtain ⟨-, hback, hlf, hcr, hesc, hdel⟩ := hc
    have hread := Gets.read_store hg.escMode hg.bLastWasCR (not_or.mpr ⟨hback, hdel⟩) hesc (not_or.mpr ⟨hcr, hlf⟩)
      hg.count_lt
    rw [put_natCast (by omega), Option.map_some] at hread
    have hcount : g.count + 1 < 63 := by omega
    have hstep := Gets.step_reading hread hcount
    have hsize : (g.stdio.pcBuf.set g.count c).length = g.stdio.pcBuf.length := List.length_set
    have hready : Ready
        { g with stdio := { g.stdio with pcBuf := g.stdio.pcBuf.set g.count c }, count := g.count + 1 } :=
      ⟨hg.escMode, hg.bLastWasCR, hcount⟩
    obtain ⟨g', hfeed, hg', hsame, htext, hcount'⟩ := ih (fun d hd => hw d (List.mem_cons_of_mem c hd)) hready
      (hsize.trans hlen) (by dsimp only; omega)
    refine ⟨g', ?_, hg', ⟨hsame.length_pcBuf.trans hsize, hsame.buffer, hsame.offset, hsame.bufIndex, hsame.next,
      hsame.cnt⟩, ?_, ?_⟩
    · rw [← hfeed, List.cons_append]
      simp only [Gets.feed, hstep, Option.bind_eq_bind, Option.bind_some]
    · rw [htext, Gets.text, Gets.text, take_succ_set (by omega), List.append_assoc]
      rfl
    · rw [hcount', List.length_cons]
      dsimp only
      omega

/-- A line of ordinary characters is returned. -/
theorem call_ordinary (cl : CmdLine) {t : Prompt} (h : AtPrompt t.stdio cs) (hw : ∀ c ∈ w, Ordinary c) (hne : w ≠ [])
    (hshort : w.length < 63) : ∃ t', t.call cl (w ++ [Ascii.cr]) = some t' ∧ t'.lines = t.lines ++ [w] := by
  have hnul : 0 ∉ w := fun h0 => hw 0 h0 List.mem_cons_self
  have hpos : 0 < w.length := List.length_pos_iff.mpr hne
  obtain ⟨g, hfeed, hg, hsame, htext, hcount⟩ := feed_ordinary hw [Ascii.cr] (shown_start h).toReady h.length_pcBuf
    (by rw [Gets.start]; dsimp only; omega)
  have hgcount : g.count = w.length := hcount.trans (Nat.zero_add _)
  have hgtext : g.text = w := htext
  have hrec := h.toRecorded.congr hsame
  have hgpos : 0 < g.count := by omega
  obtain ⟨s', hs', -, hbuf, -⟩ := endOfLine_recorded hrec hgpos hg.count_lt (by rw [← Gets.text, hgtext]; exact hnul)
  have hread := Gets.read_end hg.escMode hg.bLastWasCR (.inl rfl : Ascii.cr = Ascii.cr ∨ Ascii.cr = Ascii.lf)
  rw [hs', Option.map_some] at hread
  have hstep := Gets.step_returned hread (.inl rfl) (by rw [hbuf, hrec.length_pcBuf]; dsimp only; omega)
  have hline : (s'.pcBuf.set g.count 0).take g.count = w := by
    rw [List.take_set_of_le (le_refl _), hbuf]
    exact hgtext
  refine ⟨⟨{ s' with pcBuf := cl.process (s'.pcBuf.set g.count 0) }, t.lines ++ [w]⟩, ?_, rfl⟩
  simp only [Prompt.call, uartGets, hfeed, Gets.feed, hstep, Option.bind_eq_bind, Option.bind_some, if_true, hline]
  rw [if_pos ⟨hne, hnul⟩]

/-- Any lines of ordinary characters can be entered. -/
theorem exists_entered (cl : CmdLine) {ls : List (List (BitVec 8))}
    (hls : ∀ w ∈ ls, w ≠ [] ∧ w.length < 63 ∧ ∀ c ∈ w, Ordinary c) :
    ∃ h t, Run (Prompt.call cl) (Prompt.init cl) h t ∧ t.lines = ls := by
  induction ls using List.reverseRecOn with
  | nil => exact ⟨[], _, .start, rfl⟩
  | append_singleton ls w ih =>
    obtain ⟨h, t, hr, hlines⟩ := ih fun v hv => hls v (List.mem_append_left _ hv)
    obtain ⟨hne, hshort, hw⟩ := hls w List.mem_concat_self
    have hat := recorded hr fun v hv => (hls v (List.mem_append_left _ (hlines ▸ hv))).2.1
    obtain ⟨t', hcall, hlines'⟩ := call_ordinary cl hat hw hne hshort
    exact ⟨_, t', .snoc hr trivial hcall, by rw [hlines', hlines]⟩

end Typing

/-! ## The history of every run -/

section Full

variable {g g' : Gets} {s : UartStdio} {cs lines : List (List (BitVec 8))} {w : List (BitVec 8)}

/-- A call that goes on has room for a character. -/
theorem count_of_feed {c : BitVec 8} {chars : List (BitVec 8)} (h : g.feed (c :: chars) = some (.reading g')) :
    g'.count < 63 := by
  induction chars generalizing g c with
  | nil =>
    simp only [Gets.feed, Gets.step, Option.bind_eq_bind] at h
    obtain ⟨r, hstep, hrest⟩ := Option.bind_eq_some_iff.mp h
    obtain ⟨⟨g₁, left⟩, -, hret⟩ := Option.bind_eq_some_iff.mp hstep
    dsimp only at hret
    by_cases hleft : left = true ∨ ¬g₁.count < 63
    · rw [if_pos hleft] at hret
      obtain ⟨pcBuf, -, hret⟩ := Option.bind_eq_some_iff.mp hret
      cases hret
      cases hrest
    · rw [if_neg hleft] at hret
      cases hret
      cases hrest
      exact not_not.mp fun hfull => hleft (.inr hfull)
  | cons d chars ih =>
    rw [Gets.feed] at h
    obtain ⟨r, -, hrest⟩ := Option.bind_eq_some_iff.mp h
    cases r with
    | reading g₁ => exact ih hrest
    | returned s count => cases hrest

theorem getLast?_stored : (stored lines).getLast? = lines.getLast? := by
  induction lines using List.reverseRecOn with
  | nil => rfl
  | append_singleton lines w ih =>
    rw [stored_concat, storeLine]
    by_cases hsame : (stored lines).getLast? = some w
    · rw [if_pos hsame, hsame, List.getLast?_concat]
    · rw [if_neg hsame, List.getLast?_concat, List.getLast?_concat]

/-- A line of 63 characters ends its call before it is stored, and no entry of the history has so many. -/
theorem not_recallShows_full (hlast : lines.getLast? = some w) (hfull : w.length = 63) :
    ¬RecallShows s (stored lines) := by
  intro hr
  have hget := getLast?_stored.trans hlast
  have hpos : 0 < (stored lines).length := by
    refine List.length_pos_iff.mpr fun hnil => ?_
    rw [hnil] at hget
    cases hget
  obtain ⟨g, hups, htext⟩ := hr.shows 1 (le_refl 1) (by omega)
  rw [← List.getLast?_eq_getElem?, hget, Option.some.injEq] at htext
  obtain ⟨g₀, -, hpress⟩ := Option.bind_eq_some_iff.mp hups
  unfold Gets.press at hpress
  obtain ⟨r, hfeed, hret⟩ := Option.bind_eq_some_iff.mp hpress
  cases r with
  | reading g₁ =>
    cases hret
    have hcount := count_of_feed hfeed
    rw [htext, Gets.text, List.length_take] at hfull
    omega
  | returned s count => cases hret

end Full

/-- **The command history**: after a run with no line of 63 characters the arrow keys show its commands, exactly if the
last 16 have not been overwritten and they are not 15. -/
theorem recall_shows_iff (cl : CmdLine) {h : List (List (BitVec 8))} {t : Prompt}
    (hr : Run (Prompt.call cl) (Prompt.init cl) h t) (hshort : ∀ line ∈ t.lines, line.length < 63) :
    RecallShows t.stdio (stored t.lines) ↔ Intact (stored t.lines) ∧ (stored t.lines).length ≠ 15 :=
  recall_iff (recorded hr hshort)

theorem recall_shows_iff_help : ∃ h t, Run (Prompt.call .quiet) (Prompt.init .quiet) h t ∧ t.lines = [[0x3F]] ∧
    RecallShows t.stdio (stored t.lines) := by
  obtain ⟨h, t, hr, hlines⟩ : ∃ h t, Run (Prompt.call .quiet) (Prompt.init .quiet) h t ∧ t.lines = [[0x3F]] :=
    exists_entered .quiet (by decide)
  have hintact : Intact (stored [[0x3F]]) := by
    intro i hi
    have htwo : (tape (recent (stored [[0x3F]]))).length = 2 := by decide
    omega
  refine ⟨h, t, hr, hlines, (recall_shows_iff .quiet hr ?_).mpr ?_⟩
  · rw [hlines]
    decide
  · rw [hlines]
    exact ⟨hintact, by decide⟩

/-- Nine lines of 62 characters each. -/
def nineLines : List (List (BitVec 8)) :=
  [0x61, 0x62, 0x63, 0x64, 0x65, 0x66, 0x67, 0x68, 0x69].map (List.replicate 62)

theorem nineLines_ordinary : ∀ w ∈ nineLines, w ≠ [] ∧ w.length < 63 ∧ ∀ c ∈ w, Ordinary c := by
  have hletters : ∀ c ∈ [0x61, 0x62, 0x63, 0x64, 0x65, 0x66, 0x67, 0x68, 0x69], Ordinary c := by decide
  intro w hw
  obtain ⟨c, hc, rfl⟩ := List.mem_map.mp hw
  refine ⟨List.cons_ne_nil c _, by rw [List.length_replicate]; decide, ?_⟩
  intro d hd
  rw [List.eq_of_mem_replicate hd]
  exact hletters c hc

/-- The ninth line overwrites the first one. -/
theorem nineLines_overwritten : ∃ h t, Run (Prompt.call .quiet) (Prompt.init .quiet) h t ∧ t.lines = nineLines ∧
    ¬RecallShows t.stdio (stored t.lines) := by
  obtain ⟨h, t, hr, hlines⟩ : ∃ h t, Run (Prompt.call .quiet) (Prompt.init .quiet) h t ∧ t.lines = nineLines :=
    exists_entered .quiet nineLines_ordinary
  refine ⟨h, t, hr, hlines, ?_⟩
  have hshort : ∀ line ∈ t.lines, line.length < 63 := fun line hline =>
    (nineLines_ordinary line (hlines ▸ hline)).2.1
  intro hshows
  have hintact := ((recall_iff (recorded hr hshort)).mp hshows).1
  rw [hlines] at hintact
  exact absurd (hintact 0 (by decide +kernel)) (by decide +kernel)

end Thronix
