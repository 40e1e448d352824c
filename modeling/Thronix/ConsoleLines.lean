import Thronix.ConsoleBounds
import Mathlib.Data.List.Infix

/-!
# Thronix.ConsoleLines — the lines of the console

`Typed.type` says which lines a stream of characters has, as the comments of `UARTgets` have it: a CR, an LF or the two
of them end a line, and from the 64th character on a line ignores what comes.  `UARTgets` keeps neither promise between
two calls: that the last character was a CR is forgotten, and 63 characters are a line of their own.

* `Console.At`: the console between two characters, with the line so far.
* `console_lines_iff`: the strings returned are the lines typed, unless an LF follows a CR or a line gets its 63rd
  character.
-/

namespace Thronix

open Lib.Ring

/-! ## The lines of a stream -/

structure Typed where
  /-- The characters of the line so far. -/
  kept : List (BitVec 8)
  afterCR : Bool
  lines : List (List (BitVec 8))
  deriving DecidableEq, Repr

def Typed.type (y : Typed) (c : BitVec 8) : Typed :=
  if c = Ascii.lf ∧ y.afterCR then { y with afterCR := false }
  else if c = Ascii.cr ∨ c = Ascii.lf then ⟨[], c == Ascii.cr, y.lines ++ [y.kept]⟩
  else if c = Ascii.backspace ∨ c = Ascii.del then ⟨y.kept.dropLast, false, y.lines⟩
  else ⟨if y.kept.length < 63 then y.kept ++ [c] else y.kept, false, y.lines⟩

def typed (cs : List (BitVec 8)) : Typed := cs.foldl Typed.type ⟨[], false, []⟩

section

variable {y : Typed} {c : BitVec 8}

theorem Typed.type_pair (h : c = Ascii.lf ∧ y.afterCR = true) : y.type c = { y with afterCR := false } := if_pos h

theorem Typed.type_end (h : ¬(c = Ascii.lf ∧ y.afterCR = true)) (hc : c = Ascii.cr ∨ c = Ascii.lf) :
    y.type c = ⟨[], c == Ascii.cr, y.lines ++ [y.kept]⟩ := by
  rw [Typed.type, if_neg h, if_pos hc]

theorem Typed.type_erase (hc : c = Ascii.backspace ∨ c = Ascii.del) :
    y.type c = ⟨y.kept.dropLast, false, y.lines⟩ := by
  have hend : ¬(c = Ascii.cr ∨ c = Ascii.lf) := by rcases hc with rfl | rfl <;> decide
  have hlf : ¬(c = Ascii.lf ∧ y.afterCR = true) := fun h => hend (.inr h.1)
  rw [Typed.type, if_neg hlf, if_neg hend, if_pos hc]

theorem Typed.type_store (he : ¬(c = Ascii.backspace ∨ c = Ascii.del)) (hend : ¬(c = Ascii.cr ∨ c = Ascii.lf)) :
    y.type c = ⟨if y.kept.length < 63 then y.kept ++ [c] else y.kept, false, y.lines⟩ := by
  have hlf : ¬(c = Ascii.lf ∧ y.afterCR = true) := fun h => hend (.inr h.1)
  rw [Typed.type, if_neg hlf, if_neg hend, if_neg he]

end

theorem typed_concat (cs : List (BitVec 8)) (c : BitVec 8) : typed (cs ++ [c]) = (typed cs).type c := by
  rw [typed, List.foldl_append]
  rfl

/-- What the console does with a stream from the start. -/
def Console.run (cl : CmdLine) (cs : List (BitVec 8)) : Option Console := cs.foldlM (Console.step cl) (Console.init cl)

theorem Console.run_concat (cl : CmdLine) (cs : List (BitVec 8)) (c : BitVec 8) :
    Console.run cl (cs ++ [c]) = (Console.run cl cs).bind fun t => t.step cl c := by
  rw [Console.run, List.foldlM_append]
  simp only [List.foldlM_cons, List.foldlM_nil, Option.bind_eq_bind, Console.run, Option.pure_def, Option.bind_fun_some]

/-- No LF follows a CR, and no line ever has 63 characters. -/
def Unbroken (cs : List (BitVec 8)) : Prop :=
  ¬[Ascii.cr, Ascii.lf] <:+: cs ∧ ∀ pre, pre <+: cs → (typed pre).kept.length < 63

/-! ## A character, typed -/

section Typed

variable {cs : List (BitVec 8)} {c : BitVec 8}

theorem afterCR_iff : (typed cs).afterCR = true ↔ cs.getLast? = some Ascii.cr := by
  induction cs using List.reverseRecOn with
  | nil => simp [typed]
  | append_singleton cs c _ =>
    rw [typed_concat, List.getLast?_concat, Option.some.injEq]
    unfold Typed.type
    split_ifs with h1 h2 h3
    · rw [h1.1]
      decide
    · simp
    · simp only [false_iff]
      exact fun h => h2 (.inl h)
    · simp only [false_iff]
      exact fun h => h2 (.inl h)

theorem unbroken_concat : Unbroken (cs ++ [c]) ↔
    Unbroken cs ∧ ¬(c = Ascii.lf ∧ (typed cs).afterCR = true) ∧ (typed (cs ++ [c])).kept.length < 63 := by
  have hpair : [Ascii.cr, Ascii.lf] <:+ cs ++ [c] ↔ c = Ascii.lf ∧ (typed cs).afterCR = true := by
    rw [afterCR_iff, List.getLast?_eq_some_iff]
    constructor
    · rintro ⟨l, hl⟩
      have hl' : (l ++ [Ascii.cr]) ++ [Ascii.lf] = cs ++ [c] := by rw [← hl, List.append_assoc]; rfl
      obtain ⟨h1, h2⟩ := List.append_inj' hl' rfl
      exact ⟨(List.cons.inj h2).1.symm, l, h1.symm⟩
    · rintro ⟨rfl, l, rfl⟩
      exact ⟨l, by rw [List.append_assoc]; rfl⟩
  unfold Unbroken
  rw [List.infix_concat_iff, hpair]
  constructor
  · rintro ⟨hno, hlt⟩
    rw [not_or] at hno
    exact ⟨⟨hno.2, fun pre hpre => hlt pre (hpre.trans (List.prefix_append cs [c]))⟩, hno.1,
      hlt _ (List.prefix_refl _)⟩
  · rintro ⟨⟨hno, hlt⟩, hcr, hlast⟩
    refine ⟨not_or.mpr ⟨hcr, hno⟩, ?_⟩
    intro pre hpre
    rcases List.prefix_concat_iff.mp hpre with rfl | hpre
    · exact hlast
    · exact hlt pre hpre

end Typed

/-! ## A character, received -/

/-- Between two characters: the line so far, and the strings that were returned. -/
structure Console.At (t : Console) (text : List (BitVec 8)) (lines : List (List (BitVec 8))) : Prop where
  inBounds : t.gets.stdio.InBounds
  escMode : t.gets.stdio.escMode = .off
  bLastWasCR : t.gets.bLastWasCR = false
  count_lt : t.gets.count < 63
  text_eq : t.gets.text = text
  lines_eq : t.lines = lines

namespace Console.At

variable {cl : CmdLine} {t : Console} {text : List (BitVec 8)} {lines : List (List (BitVec 8))} {c : BitVec 8}

theorem init (cl : CmdLine) : (Console.init cl).At [] [] where
  inBounds := UartStdio.init_inBounds cl.length_fresh
  escMode := rfl
  bLastWasCR := rfl
  count_lt := Nat.zero_lt_succ _
  text_eq := rfl
  lines_eq := rfl

theorem length_text (h : t.At text lines) : t.gets.count = text.length := by
  have hlen := h.inBounds.length_pcBuf
  have hlt := h.count_lt
  rw [← h.text_eq, Gets.text, List.length_take]
  omega

/-- The call returns, and the next one begins. -/
theorem returned {s : UartStdio} {line : List (BitVec 8)} (hin : s.InBounds) (hesc : s.escMode = .off)
    (hline : s.pcBuf.take line.length = line) :
    (Console.mk (.start { s with pcBuf := cl.process (s.pcBuf.set line.length 0) })
      (lines ++ [(s.pcBuf.set line.length 0).take line.length])).At [] (lines ++ [line]) where
  inBounds := hin.setPcBuf (by rw [cl.length_process, List.length_set, hin.length_pcBuf])
  escMode := hesc
  bLastWasCR := rfl
  count_lt := Nat.zero_lt_succ _
  text_eq := rfl
  lines_eq := by rw [List.take_set_of_le (le_refl _), hline]

variable (cl)

theorem step_erase (h : t.At text lines) (hc : c = Ascii.backspace ∨ c = Ascii.del) :
    ∃ t', t.step cl c = some t' ∧ t'.At text.dropLast lines := by
  have hlen := h.length_text
  have hlt := h.count_lt
  by_cases hpos : t.gets.count > 0
  · have hread : t.gets.read c = some ({ t.gets with count := t.gets.count - 1 }, false) := by
      rw [Gets.read_erase hc, if_pos hpos]
    refine ⟨_, step_of_reading (Gets.step_reading hread (by dsimp only; omega)),
      { h with count_lt := by dsimp only; omega, text_eq := ?_ }⟩
    rw [← h.text_eq, Gets.text, Gets.text, List.dropLast_take (by have := h.inBounds.length_pcBuf; omega)]
  · have hread : t.gets.read c = some (t.gets, false) := by rw [Gets.read_erase hc, if_neg hpos]
    refine ⟨_, step_of_reading (Gets.step_reading hread hlt), ?_⟩
    have hnil : text = [] := List.length_eq_zero_iff.mp (by omega)
    rw [hnil] at h ⊢
    exact h

theorem step_end (h : t.At text lines) (hc : c = Ascii.cr ∨ c = Ascii.lf) :
    ∃ t', t.step cl c = some t' ∧ t'.At [] (lines ++ [text]) := by
  have hlen := h.length_text
  have hlt := h.count_lt
  have hroom : t.gets.count ≤ 64 := by omega
  obtain ⟨s, hs, hin, hbuf, hesc⟩ := UartStdio.endOfLine_inBounds h.inBounds hroom
  have hread := Gets.read_end h.escMode h.bLastWasCR hc
  rw [hs, Option.map_some] at hread
  have hstep := Gets.step_returned hread (.inl rfl) (by rw [hin.length_pcBuf]; dsimp only; omega)
  refine ⟨_, step_of_returned hstep, ?_⟩
  rw [h.lines_eq]
  dsimp only
  rw [hlen]
  refine returned hin (hesc.trans h.escMode) ?_
  rw [hbuf, ← hlen]
  exact h.text_eq

theorem step_store (h : t.At text lines) (he : ¬(c = Ascii.backspace ∨ c = Ascii.del)) (hx : c ≠ Ascii.esc)
    (hend : ¬(c = Ascii.cr ∨ c = Ascii.lf)) :
    ∃ t', t.step cl c = some t' ∧
      if text.length < 62 then t'.At (text ++ [c]) lines else t'.At [] (lines ++ [text ++ [c]]) := by
  have hlen := h.length_text
  have hlt := h.count_lt
  have hsize := h.inBounds.length_pcBuf
  have hread := Gets.read_store h.escMode h.bLastWasCR he hx hend hlt
  rw [put_natCast (by omega), Option.map_some] at hread
  have htext : (t.gets.stdio.pcBuf.set t.gets.count c).take (t.gets.count + 1) = text ++ [c] := by
    rw [take_succ_set (by omega), ← h.text_eq]
    rfl
  have hsizeSet : (t.gets.stdio.pcBuf.set t.gets.count c).length = 64 := by rw [List.length_set, hsize]
  have hin := h.inBounds.setPcBuf hsizeSet
  by_cases hroom : text.length < 62
  · refine ⟨_, step_of_reading (Gets.step_reading hread (by dsimp only; omega)), ?_⟩
    rw [if_pos hroom]
    exact { h with inBounds := hin, count_lt := by dsimp only; omega, text_eq := htext }
  · have hfull : ¬t.gets.count + 1 < 63 := by omega
    have hstep := Gets.step_returned hread (.inr hfull) (by rw [hin.length_pcBuf]; dsimp only; omega)
    refine ⟨_, step_of_returned hstep, ?_⟩
    have hcount : t.gets.count + 1 = (text ++ [c]).length := by rw [List.length_append, List.length_singleton, hlen]
    rw [if_neg hroom, h.lines_eq]
    dsimp only
    rw [hcount]
    refine returned hin h.escMode ?_
    rw [← hcount]
    exact htext

end Console.At

/-! ## The strings returned and the lines typed -/

/-- As long as the stream is unbroken the console has what is typed; from then on it has returned too many strings. -/
def Follows (cs text : List (BitVec 8)) (lines : List (List (BitVec 8))) : Prop :=
  (Unbroken cs ∧ text = (typed cs).kept ∧ lines = (typed cs).lines) ∨
    (¬Unbroken cs ∧ (typed cs).lines.length < lines.length)

section Follows

variable {cs text : List (BitVec 8)} {lines : List (List (BitVec 8))} {c : BitVec 8}

theorem not_unbroken_concat (h : ¬Unbroken cs) (c : BitVec 8) : ¬Unbroken (cs ++ [c]) := fun hc =>
  h (unbroken_concat.mp hc).1

theorem Unbroken.kept_lt (h : Unbroken cs) : (typed cs).kept.length < 63 := h.2 cs (List.prefix_refl cs)

theorem Follows.erase (h : Follows cs text lines) (hc : c = Ascii.backspace ∨ c = Ascii.del) :
    Follows (cs ++ [c]) text.dropLast lines := by
  have htyped : typed (cs ++ [c]) = _ := (typed_concat cs c).trans (Typed.type_erase hc)
  rcases h with ⟨hun, rfl, rfl⟩ | ⟨hbroken, hlt⟩
  · refine .inl ⟨unbroken_concat.mpr ⟨hun, ?_, ?_⟩, by rw [htyped], by rw [htyped]⟩
    · rintro ⟨rfl, -⟩
      revert hc
      decide
    · have := hun.kept_lt
      rw [htyped, List.length_dropLast]
      omega
  · exact .inr ⟨not_unbroken_concat hbroken c, by rw [htyped]; exact hlt⟩

theorem Follows.ended (h : Follows cs text lines) (hc : c = Ascii.cr ∨ c = Ascii.lf) :
    Follows (cs ++ [c]) [] (lines ++ [text]) := by
  by_cases hpair : c = Ascii.lf ∧ (typed cs).afterCR = true
  · have htyped : typed (cs ++ [c]) = _ := (typed_concat cs c).trans (Typed.type_pair hpair)
    refine .inr ⟨fun hun => (unbroken_concat.mp hun).2.1 hpair, ?_⟩
    rw [htyped, List.length_append, List.length_singleton]
    rcases h with ⟨-, -, rfl⟩ | ⟨-, hlt⟩
    · exact Nat.lt_succ_self _
    · exact Nat.lt_succ_of_lt hlt
  · have htyped : typed (cs ++ [c]) = _ := (typed_concat cs c).trans (Typed.type_end hpair hc)
    rcases h with ⟨hun, rfl, rfl⟩ | ⟨hbroken, hlt⟩
    · exact .inl ⟨unbroken_concat.mpr ⟨hun, hpair, by rw [htyped]; exact Nat.zero_lt_succ _⟩, by rw [htyped],
        by rw [htyped]⟩
    · refine .inr ⟨not_unbroken_concat hbroken c, ?_⟩
      rw [htyped, List.length_append, List.length_append]
      exact Nat.succ_lt_succ hlt

theorem Follows.stored (h : Follows cs text lines) (he : ¬(c = Ascii.backspace ∨ c = Ascii.del))
    (hend : ¬(c = Ascii.cr ∨ c = Ascii.lf)) :
    if text.length < 62 then Follows (cs ++ [c]) (text ++ [c]) lines
    else Follows (cs ++ [c]) [] (lines ++ [text ++ [c]]) := by
  have htyped : typed (cs ++ [c]) = _ := (typed_concat cs c).trans (Typed.type_store he hend)
  have hpair : ¬(c = Ascii.lf ∧ (typed cs).afterCR = true) := fun hlf => hend (.inr hlf.1)
  rcases h with ⟨hun, rfl, rfl⟩ | ⟨hbroken, hlt⟩
  · have hkept : (typed (cs ++ [c])).kept = (typed cs).kept ++ [c] := by rw [htyped, if_pos hun.kept_lt]
    by_cases hroom : (typed cs).kept.length < 62
    · rw [if_pos hroom]
      refine .inl ⟨unbroken_concat.mpr ⟨hun, hpair, ?_⟩, hkept.symm, by rw [htyped]⟩
      rw [hkept, List.length_append, List.length_singleton]
      omega
    · rw [if_neg hroom]
      refine .inr ⟨fun hun' => ?_, by rw [htyped, List.length_append]; exact Nat.lt_succ_self _⟩
      have hshort := hun'.kept_lt
      rw [hkept, List.length_append, List.length_singleton] at hshort
      omega
  · have hbroken' := not_unbroken_concat hbroken c
    split_ifs
    · exact .inr ⟨hbroken', by rw [htyped]; exact hlt⟩
    · exact .inr ⟨hbroken', by rw [htyped, List.length_append]; exact Nat.lt_succ_of_lt hlt⟩

end Follows

theorem run_follows (cl : CmdLine) {cs : List (BitVec 8)} (hx : Ascii.esc ∉ cs) :
    ∃ t text lines, Console.run cl cs = some t ∧ t.At text lines ∧ Follows cs text lines := by
  induction cs using List.reverseRecOn with
  | nil =>
    refine ⟨_, [], [], rfl, .init cl, .inl ⟨⟨by decide, ?_⟩, rfl, rfl⟩⟩
    intro pre hpre
    rw [List.prefix_nil.mp hpre]
    decide
  | append_singleton cs c ih =>
    have hold : Ascii.esc ∉ cs := fun h => hx (List.mem_append_left _ h)
    have hc : c ≠ Ascii.esc := fun h => hx (by rw [h]; exact List.mem_concat_self)
    obtain ⟨t, text, lines, hrun, hat, hf⟩ := ih hold
    rw [Console.run_concat, hrun, Option.bind_some]
    by_cases he : c = Ascii.backspace ∨ c = Ascii.del
    · obtain ⟨t', ht', hat'⟩ := hat.step_erase cl he
      exact ⟨t', _, _, ht', hat', hf.erase he⟩
    by_cases hend : c = Ascii.cr ∨ c = Ascii.lf
    · obtain ⟨t', ht', hat'⟩ := hat.step_end cl hend
      exact ⟨t', _, _, ht', hat', hf.ended hend⟩
    obtain ⟨t', ht', hat'⟩ := hat.step_store cl he hc hend
    have hf' := hf.stored he hend
    by_cases hroom : text.length < 62
    · rw [if_pos hroom] at hat' hf'
      exact ⟨t', _, _, ht', hat', hf'⟩
    · rw [if_neg hroom] at hat' hf'
      exact ⟨t', _, _, ht', hat', hf'⟩

/-- **The lines of the console**: the strings returned are the lines typed exactly if no LF follows a CR and no line
gets 63 characters. -/
theorem console_lines_iff (cl : CmdLine) (cs : List (BitVec 8)) (hx : Ascii.esc ∉ cs) :
    (∃ t, Console.run cl cs = some t ∧ t.lines = (typed cs).lines) ↔
      ¬[Ascii.cr, Ascii.lf] <:+: cs ∧ ∀ pre, pre <+: cs → (typed pre).kept.length < 63 := by
  obtain ⟨t, text, lines, hrun, hat, hf⟩ := run_follows cl hx
  constructor
  · rintro ⟨t', hrun', hlines⟩
    obtain rfl : t = t' := Option.some.inj (hrun.symm.trans hrun')
    rcases hf with ⟨hun, -, -⟩ | ⟨-, hlt⟩
    · exact hun
    · rw [← hlines, hat.lines_eq] at hlt
      exact absurd hlt (Nat.lt_irrefl _)
  · intro hun
    rcases hf with ⟨-, -, hlines⟩ | ⟨hbroken, -⟩
    · exact ⟨t, hrun, hat.lines_eq.trans hlines⟩
    · exact absurd hun hbroken

theorem console_lines_iff_help :
    (∃ t, Console.run .quiet [0x3F, Ascii.cr] = some t ∧ t.lines = (typed [0x3F, Ascii.cr]).lines) ↔
      ¬[Ascii.cr, Ascii.lf] <:+: [0x3F, Ascii.cr] ∧
        ∀ pre, pre <+: [0x3F, Ascii.cr] → (typed pre).kept.length < 63 :=
  console_lines_iff .quiet [0x3F, Ascii.cr] (by decide)

/-- A line that ends with CR LF is returned, and an empty line behind it. -/
theorem crlf_returns_twice :
    (typed [0x3F, Ascii.cr, Ascii.lf]).lines = [[0x3F]] ∧
      (Console.run .quiet [0x3F, Ascii.cr, Ascii.lf]).map Console.lines = some [[0x3F], []] := by
  decide +kernel

end Thronix
