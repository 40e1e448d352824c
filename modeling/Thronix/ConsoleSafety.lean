import Thronix.ConsoleHistory
import Thronix.ConsoleLines

/-!
# Thronix.ConsoleSafety — the loop that copies a command of the history

The loop of `UARTgets` that copies an entry of the history has no other end than the terminator.  There is one within
62 characters of every place, also of those where newer commands are written over a part of an older one.

* `Terminated`: the history is full of commands that are short enough, each with its terminator.  At the start they are
  512 empty ones.
* `Gets.Within`: the console is inside its arrays, with such a history.
* `console_keeps_arrays`: it stays so, whatever it reads.
-/

namespace Thronix

open Lib.Ring

/-! ## Terminators -/

section Terminators

variable {s s' : UartStdio} {cs : List (List (BitVec 8))}

theorem tape_cons (c : List (BitVec 8)) (cs : List (List (BitVec 8))) : tape (c :: cs) = c ++ [0] ++ tape cs :=
  List.flatMap_cons

theorem tape_replicate (n : ℕ) : tape (List.replicate n []) = List.replicate n 0 := by
  induction n with
  | zero => rfl
  | succ n ih => rw [List.replicate_succ, List.replicate_succ, tape_cons, ih, List.nil_append, List.singleton_append]

/-- A terminator is never far. -/
theorem exists_zero_tape (hshort : ∀ c ∈ cs, c.length < 63) {p : ℕ} (hp : p < (tape cs).length) :
    ∃ k ≤ 62, (tape cs)[p + k]? = some 0 := by
  induction cs generalizing p with
  | nil => exact absurd hp (Nat.not_lt_zero p)
  | cons c cs ih =>
    have hc := hshort c List.mem_cons_self
    have hlen : (c ++ [0]).length = c.length + 1 := List.length_append
    rw [tape_cons] at hp ⊢
    by_cases hin : p ≤ c.length
    · refine ⟨c.length - p, by omega, ?_⟩
      rw [Nat.add_sub_cancel' hin, List.getElem?_append_left (by omega), List.getElem?_concat_length]
    · rw [List.length_append, hlen] at hp
      have hrest : ∀ c' ∈ cs, c'.length < 63 := fun c' hc' => hshort c' (List.mem_cons_of_mem c hc')
      obtain ⟨k, hk, hzero⟩ := ih hrest (p := p - (c.length + 1)) (by omega)
      refine ⟨k, hk, ?_⟩
      rw [List.getElem?_append_right (by omega), hlen, show p + k - (c.length + 1) = p - (c.length + 1) + k by omega,
        hzero]

/-- The history is full of commands that are short enough. -/
def Terminated (s : UartStdio) : Prop :=
  ∃ cs, (∀ c ∈ cs, c.length < 63) ∧ 512 ≤ (tape cs).length ∧
    Holds (List.replicate 512 0) s.rxHistoryBuffer (tape cs) ∧ s.rxHistoryBufIndex = (tape cs).length % 512

theorem init_terminated (pcBuf : List (BitVec 8)) : Terminated (.init pcBuf) := by
  have hlen : (List.replicate 512 (0 : BitVec 8)).length = 512 := List.length_replicate
  refine ⟨List.replicate 512 [], ?_, ?_⟩
  · intro c hc
    rw [List.eq_of_mem_replicate hc]
    exact Nat.zero_lt_succ _
  · rw [tape_replicate]
    refine ⟨hlen.ge, ⟨rfl, ?_, ?_⟩, by rw [hlen]; rfl⟩
    · intro p hp _
      rw [hlen] at hp ⊢
      rw [Nat.mod_eq_of_lt hp]
      rfl
    · intro p _
      rfl

theorem Terminated.congr (h : Terminated s) (hs : SameHistory s s') : Terminated s' := by
  obtain ⟨cs, hshort, hfull, hbuffer, hindex⟩ := h
  exact ⟨cs, hshort, hfull, by rw [hs.buffer]; exact hbuffer, hs.bufIndex.trans hindex⟩

theorem Terminated.exists_zero (h : Terminated s) {y : ℕ} (hy : y < 512) :
    ∃ k ≤ 62, s.rxHistoryBuffer[(y + k) % 512]? = some 0 := by
  obtain ⟨cs, hshort, hfull, hbuffer, -⟩ := h
  have hlen : (List.replicate 512 (0 : BitVec 8)).length = 512 := List.length_replicate
  obtain ⟨p, hp, hat⟩ := hbuffer.exists_written (by rw [hlen]; exact hfull) (by rw [hlen]; exact hy)
  obtain ⟨k, hk, hzero⟩ := exists_zero_tape hshort hp
  refine ⟨k, hk, ?_⟩
  have hlt : p + k < (tape cs).length := (List.getElem?_eq_some_iff.mp hzero).1
  have hplace := hat k hlt
  rw [hlen, hzero] at hplace
  exact hplace

end Terminators

/-! ## A command is stored -/

section Store

variable {s s' : UartStdio} {count : ℕ}

theorem saveCommand_terminated (h : Terminated s) (hin : s.InBounds) (hcount : count < 63)
    (hs : s.saveCommand count = some s') : Terminated s' := by
  obtain ⟨cs, hshort, hfull, hbuffer, hindex⟩ := h
  have hlen := hin.length_pcBuf
  have hroom : 0 + count ≤ s.pcBuf.length := by omega
  obtain ⟨buffer, hloop, hbuffer'⟩ := saveLoop_holds List.length_replicate count hroom hbuffer
  rw [List.drop_zero, ← tape_concat] at hloop hbuffer'
  rw [← hindex] at hloop
  simp only [UartStdio.saveCommand, hloop, Option.bind_eq_bind, Option.bind_some] at hs
  obtain ⟨offset, -, hs⟩ := Option.bind_eq_some_iff.mp hs
  cases hs
  refine ⟨cs ++ [s.pcBuf.take count], ?_, ?_, hbuffer', rfl⟩
  · intro c hc
    rcases List.mem_append.mp hc with hold | hnew
    · exact hshort c hold
    · rw [List.mem_singleton.mp hnew, List.length_take]
      omega
  · rw [tape_concat, List.length_append]
    omega

theorem addCommand_terminated (h : Terminated s) (hin : s.InBounds) (hcount : count < 63)
    (hs : s.addCommand count = some s') : Terminated s' := by
  simp only [UartStdio.addCommand, Option.bind_eq_bind] at hs
  obtain ⟨duplicate, -, hs⟩ := Option.bind_eq_some_iff.mp hs
  by_cases hsame : duplicate = true
  · rw [if_pos hsame] at hs
    exact Option.some.inj hs ▸ h
  · rw [if_neg hsame] at hs
    exact saveCommand_terminated h hin hcount hs

theorem endOfLine_terminated (h : Terminated s) (hin : s.InBounds) (hcount : count < 63)
    (hs : s.endOfLine count = some s') : Terminated s' := by
  by_cases hpos : count > 0
  · simp only [UartStdio.endOfLine, if_pos hpos, Option.bind_eq_bind] at hs
    obtain ⟨s₁, hadd, hs⟩ := Option.bind_eq_some_iff.mp hs
    cases hs
    have hkept : Terminated s₁ := addCommand_terminated h hin hcount hadd
    exact hkept
  · simp only [UartStdio.endOfLine, if_neg hpos, Option.bind_eq_bind, Option.bind_some] at hs
    cases hs
    exact h

end Store

/-! ## A command is copied -/

/-- The loop copies what stands before a terminator, and ends there. -/
theorem copyHistory_ends {buffer : List (BitVec 8)} (hlen : buffer.length = 512) {k : ℕ} :
    ∀ {turns count y : ℕ} {pcBuf : List (BitVec 8)}, y < 512 → buffer[(y + k) % 512]? = some 0 → k < turns →
      count + k < pcBuf.length →
      ∃ pcBuf' n, copyHistory buffer turns pcBuf count y = some (pcBuf', n) ∧ n ≤ count + k ∧
        pcBuf'.length = pcBuf.length := by
  induction k with
  | zero =>
    intro turns count y pcBuf hy hzero hturns hroom
    obtain ⟨turns, rfl⟩ := Nat.exists_eq_add_one.mpr hturns
    rw [Nat.add_zero, Nat.mod_eq_of_lt hy, ← get_natCast] at hzero
    have hput : put pcBuf count 0 = some (pcBuf.set count 0) := put_natCast hroom
    refine ⟨pcBuf.set count 0, count, ?_, le_refl _, List.length_set⟩
    simp only [copyHistory, hzero, hput, Option.bind_eq_bind, Option.bind_some, if_true]
  | succ k ih =>
    intro turns count y pcBuf hy hzero hturns hroom
    obtain ⟨turns, rfl⟩ := Nat.exists_eq_add_one.mpr (Nat.zero_lt_of_lt hturns)
    obtain ⟨b, hb⟩ : ∃ b, get buffer y = some b := exists_get_natCast (by omega)
    have hput : ∀ c, put pcBuf count c = some (pcBuf.set count c) := fun _ => put_natCast (by omega)
    simp only [copyHistory, hb, hput, Option.bind_eq_bind, Option.bind_some]
    by_cases hend : b = 0
    · rw [if_pos hend]
      exact ⟨pcBuf.set count 0, count, rfl, by omega, List.length_set⟩
    · rw [if_neg hend]
      have hzero' : buffer[(bufNext y + k) % 512]? = some 0 := by
        rw [bufNext_eq hy, Nat.mod_add_mod, show y + 1 + k = y + (k + 1) by omega, hzero]
      have hturns' : k < turns := by omega
      have hroom' : count + 1 + k < (pcBuf.set count b).length := by rw [List.length_set]; omega
      obtain ⟨pcBuf', n, hcopy, hn, hlen'⟩ := ih (bufNext_lt hy) hzero' hturns' hroom'
      exact ⟨pcBuf', n, hcopy, by omega, by rw [hlen', List.length_set]⟩

/-- Every entry of the history is copied to the buffer, and takes at most 62 characters. -/
theorem Terminated.exists_copy {s : UartStdio} (h : Terminated s) (hin : s.InBounds) {y : ℕ}
    (hy : y ∈ s.rxHistoryOffset) :
    ∃ pcBuf n, copyHistory s.rxHistoryBuffer 65 s.pcBuf 0 y = some (pcBuf, n) ∧ n ≤ 62 ∧
      pcBuf.length = 64 := by
  have hlt := hin.offset_lt y hy
  obtain ⟨k, hk, hzero⟩ := h.exists_zero hlt
  have hturns : k < 65 := by omega
  have hroom : 0 + k < s.pcBuf.length := by rw [hin.length_pcBuf]; omega
  obtain ⟨pcBuf, n, hcopy, hn, hlen⟩ := copyHistory_ends hin.length_buffer hlt hzero hturns hroom
  exact ⟨pcBuf, n, hcopy, by omega, hlen.trans hin.length_pcBuf⟩

/-! ## A character -/

namespace Gets

structure Within (g : Gets) : Prop where
  inBounds : g.stdio.InBounds
  terminated : Terminated g.stdio
  count_le : g.count ≤ 63

variable {g : Gets} {c : BitVec 8}

theorem Within.escape (h : g.Within) (mode : EscMode) : (g.escape mode).Within :=
  ⟨{ h.inBounds with }, h.terminated, h.count_le⟩

theorem Within.showEntry (h : g.Within) {current : ℤ} (h0 : 0 ≤ current) (hlt : current < 16) :
    ∃ g', g.showEntry current = some g' ∧ g'.Within ∧ g'.count < 63 := by
  have hslot : current < g.stdio.rxHistoryOffset.length := by rw [h.inBounds.length_offset]; exact hlt
  obtain ⟨y, hy, hget⟩ := exists_get h0 hslot
  obtain ⟨pcBuf, n, hcopy, hn, hlen⟩ := h.terminated.exists_copy h.inBounds hy
  have hshown : g.showEntry current =
      some { g with stdio := { g.stdio with pcBuf := pcBuf, rxHistoryCur := current }, count := n } := by
    simp only [Gets.showEntry, hget, hcopy, Option.bind_eq_bind, Option.bind_some]
  refine ⟨_, hshown, ⟨?_, h.terminated, ?_⟩, ?_⟩
  · exact
      { h.inBounds with
        length_pcBuf := hlen
        le_cur := by dsimp only; omega
        cur_lt := hlt }
  · dsimp only
    omega
  · dsimp only
    omega

theorem Within.arrowUp (h : g.Within) (hlt : g.count < 63) :
    ∃ g', g.arrowUp = some g' ∧ g'.Within ∧ g'.count < 63 := by
  have hnext := h.inBounds.next_nonneg
  have hnext' := h.inBounds.next_lt
  have hcur := h.inBounds.le_cur
  have hcur' := h.inBounds.cur_lt
  unfold Gets.arrowUp
  extract_lets start current
  have hstart : 0 ≤ start ∧ start < 16 := by
    unfold start
    split_ifs <;> omega
  have hcurrent : 0 ≤ current ∧ current < 16 := by
    unfold current
    split_ifs <;> omega
  by_cases hbell : g.stdio.rxHistoryNext = g.stdio.rxHistoryCur ∨ current > g.stdio.rxHistoryCnt
  · exact ⟨g, by rw [if_pos hbell], h, hlt⟩
  · rw [if_neg hbell]
    exact h.showEntry hcurrent.1 hcurrent.2

theorem Within.arrowDown (h : g.Within) (hlt : g.count < 63) :
    ∃ g', g.arrowDown = some g' ∧ g'.Within ∧ g'.count < 63 := by
  have hcur := h.inBounds.le_cur
  have hcur' := h.inBounds.cur_lt
  unfold Gets.arrowDown
  by_cases hnone : g.stdio.rxHistoryCur = -1
  · exact ⟨g, by rw [if_pos hnone], h, hlt⟩
  rw [if_neg hnone]
  extract_lets current
  have hcurrent : 0 ≤ current ∧ current < 16 := by
    unfold current
    split_ifs <;> omega
  by_cases hlast : current = g.stdio.rxHistoryNext
  · rw [if_pos hlast]
    refine ⟨_, rfl, ⟨?_, h.terminated, Nat.zero_le 63⟩, Nat.zero_lt_succ _⟩
    exact
      { h.inBounds with
        le_cur := Int.le_refl (-1)
        cur_lt := by dsimp only; omega }
  · rw [if_neg hlast]
    exact h.showEntry hcurrent.1 hcurrent.2

/-- A turn leaves no array.  Only a character that is stored can fill the line. -/
theorem Within.read (h : g.Within) (hlt : g.count < 63) (c : BitVec 8) :
    ∃ g' left, g.read c = some (g', left) ∧ g'.Within := by
  unfold Gets.read
  by_cases he : c = Ascii.backspace ∨ c = Ascii.del
  · rw [if_pos he]
    refine ⟨_, _, rfl, ?_⟩
    split_ifs
    · exact ⟨h.inBounds, h.terminated, by dsimp only; omega⟩
    · exact h
  rw [if_neg he]
  by_cases hm1 : g.stdio.escMode = .escape
  · rw [if_pos hm1]
    exact ⟨_, _, rfl, h.escape _⟩
  rw [if_neg hm1]
  by_cases hm2 : g.stdio.escMode = .bracket
  · rw [if_pos hm2]
    by_cases hup : c = Ascii.up
    · obtain ⟨g', harrow, hg', -⟩ := (h.escape .off).arrowUp hlt
      exact ⟨g', false, by rw [if_pos hup, harrow]; rfl, hg'⟩
    rw [if_neg hup]
    by_cases hdown : c = Ascii.down
    · obtain ⟨g', harrow, hg', -⟩ := (h.escape .off).arrowDown hlt
      exact ⟨g', false, by rw [if_pos hdown, harrow]; rfl, hg'⟩
    rw [if_neg hdown]
    exact ⟨_, _, rfl, h.escape .off⟩
  rw [if_neg hm2]
  by_cases hpair : c = Ascii.lf ∧ g.bLastWasCR = true
  · rw [if_pos hpair]
    have hoff := h.escape .off
    exact ⟨_, _, rfl, hoff.inBounds, hoff.terminated, hoff.count_le⟩
  rw [if_neg hpair]
  by_cases hx : c = Ascii.esc
  · rw [if_pos hx]
    have hesc := h.escape .escape
    exact ⟨_, _, rfl, hesc.inBounds, hesc.terminated, hesc.count_le⟩
  rw [if_neg hx]
  by_cases hend : c = Ascii.cr ∨ c = Ascii.lf
  · have hcount : g.count ≤ 64 := by omega
    obtain ⟨s, hs, hin, -, -⟩ := UartStdio.endOfLine_inBounds h.inBounds hcount
    have hterm := endOfLine_terminated h.terminated h.inBounds hlt hs
    rw [if_pos hend, hs]
    exact ⟨_, _, rfl, hin, hterm, h.count_le⟩
  rw [if_neg hend, if_pos hlt, put_natCast (by rw [h.inBounds.length_pcBuf]; omega)]
  have hlen : (g.stdio.pcBuf.set g.count c).length = 64 := by rw [List.length_set, h.inBounds.length_pcBuf]
  exact ⟨_, _, rfl, h.inBounds.setPcBuf hlen, h.terminated, by dsimp only; omega⟩

end Gets

/-! ## The console -/

section Console

variable {t : Console} {cl : CmdLine}

/-- A character keeps the console inside its arrays. -/
theorem Console.step_within (h : t.gets.Within) (hlt : t.gets.count < 63) (c : BitVec 8) :
    ∃ t', t.step cl c = some t' ∧ t'.gets.Within ∧ t'.gets.count < 63 := by
  obtain ⟨g, left, hread, hg⟩ := h.read hlt c
  by_cases hend : left = true ∨ ¬g.count < 63
  · have hbuf : g.count < g.stdio.pcBuf.length := by
      have := hg.count_le
      rw [hg.inBounds.length_pcBuf]
      omega
    have hlen : (cl.process (g.stdio.pcBuf.set g.count 0)).length = 64 := by
      rw [cl.length_process, List.length_set, hg.inBounds.length_pcBuf]
    refine ⟨_, step_of_returned (Gets.step_returned hread hend hbuf), ?_, Nat.zero_lt_succ _⟩
    exact ⟨hg.inBounds.setPcBuf hlen, hg.terminated, Nat.zero_le 63⟩
  · rw [not_or, Bool.not_eq_true, not_not] at hend
    obtain ⟨rfl, hroom⟩ := hend
    exact ⟨_, step_of_reading (Gets.step_reading hread hroom), hg, hroom⟩

theorem Console.run_within (cl : CmdLine) (cs : List (BitVec 8)) :
    ∃ t, Console.run cl cs = some t ∧ t.gets.Within ∧ t.gets.count < 63 := by
  induction cs using List.reverseRecOn with
  | nil =>
    exact ⟨_, rfl, ⟨UartStdio.init_inBounds cl.length_fresh, init_terminated cl.fresh, Nat.zero_le 63⟩,
      Nat.zero_lt_succ _⟩
  | append_singleton cs c ih =>
    obtain ⟨t, hrun, ht, hlt⟩ := ih
    rw [Console.run_concat, hrun, Option.bind_some]
    exact Console.step_within ht hlt c

/-- **The console keeps to its arrays**: whatever it reads there is a next state, no access has been outside an array.
Every entry of its history can be copied, up to a terminator after at most 62 characters. -/
theorem console_keeps_arrays (cl : CmdLine) (cs : List (BitVec 8)) :
    ∃ t, Console.run cl cs = some t ∧ t.gets.stdio.pcBuf.length = 64 ∧
      t.gets.stdio.rxHistoryBuffer.length = 512 ∧ t.gets.stdio.rxHistoryOffset.length = 16 ∧
      ∀ y ∈ t.gets.stdio.rxHistoryOffset, ∃ pcBuf n,
        copyHistory t.gets.stdio.rxHistoryBuffer 65 t.gets.stdio.pcBuf 0 y = some (pcBuf, n) ∧ n ≤ 62 := by
  obtain ⟨t, hrun, ht, -⟩ := Console.run_within cl cs
  refine ⟨t, hrun, ht.inBounds.length_pcBuf, ht.inBounds.length_buffer, ht.inBounds.length_offset, ?_⟩
  intro y hy
  obtain ⟨pcBuf, n, hcopy, hn, -⟩ := ht.terminated.exists_copy ht.inBounds hy
  exact ⟨pcBuf, n, hcopy, hn⟩

end Console

end Thronix
