import Thronix.Json.Accept
import Thronix.Json.Printf
import Thronix.Json.Scanf

/-!
# Thronix.Json.Strings — what `%Q` prints, read again

* `Characters`: UTF-8 as far as it is looked at, characters of the lengths that `get_utf8_char_len` tells, with the top
  bit set behind their first byte.  The code checks the length only; behind `C3` it copies a backslash too, and
  `json_unescape` takes it for an escape.
* `Readable`: the bytes that come back.
* `quoted_readsBack`: a string printed by `json_encode_string` is found by `parse_string` and given back by
  `json_unescape` exactly if all its bytes are readable.  The others are the vertical tab, for which an escape is
  printed that the parser does not know, and the other control characters, whose `\u` escapes nothing decodes.
-/

namespace Thronix.Json

open Lib

/-- Characters of one to four bytes; all bytes of one that has more than one have the top bit set. -/
inductive Characters : Bytes → Prop
  | nil : Characters []
  | ascii {r : Bytes} (c : UInt8) (hc : c < 128) (hr : Characters r) : Characters (c :: r)
  | multi {r : Bytes} (c : UInt8) (g : Bytes) (hc : 128 ≤ c) (hg : getUtf8CharLen c = g.length + 1)
      (hhigh : ∀ d ∈ g, 128 ≤ d) (hr : Characters r) : Characters (c :: (g ++ r))

/-- A character that is printed as it is, or has an escape that both sides know. -/
def Readable (c : UInt8) : Prop := 32 ≤ c ∧ c ≠ 127 ∨ c = 8 ∨ c = 9 ∨ c = 10 ∨ c = 12 ∨ c = 13

instance (c : UInt8) : Decidable (Readable c) := inferInstanceAs (Decidable (_ ∨ _))

/-! ## Printing -/

/-- What is printed for a character of one byte. -/
def printedChar (c : UInt8) : List Bytes :=
  if c = ch '"' ∨ c = 92 then [[92], [c]]
  else if 8 ≤ c ∧ c ≤ 13 then [[92], [(str "btnvfr").getD (c.toNat - 8) 0]]
  else if isPrint c then [[c]]
  else [92 :: str "u00", [hexDigitOf ((c >>> 4).toNat % 0xf)], [hexDigitOf (c.toNat % 0xf)]]

section Printing

variable {c : UInt8} {r g t : Bytes}

theorem jsonEncodeString_ascii (hc : c < 128) (r : Bytes) :
    jsonEncodeString (c :: r) = (jsonEncodeString r).map (printedChar c ++ ·) := by
  rw [jsonEncodeString]
  unfold printedChar
  by_cases h1 : c = ch '"' ∨ c = 92
  · rw [if_pos h1, if_pos h1]
  · rw [if_neg h1, if_neg h1]
    by_cases h2 : 8 ≤ c ∧ c ≤ 13
    · rw [if_pos h2, if_pos h2]
    · rw [if_neg h2, if_neg h2]
      by_cases h3 : isPrint c = true
      · rw [if_pos h3, if_pos h3]
      · rw [if_neg h3, if_neg h3, if_pos (getUtf8CharLen_ascii c hc)]

/-- A byte with its top bit set takes none of the first branches. -/
theorem high_first : ∀ c : UInt8, 128 ≤ c →
    ¬(c = ch '"' ∨ c = 92) ∧ ¬(8 ≤ c ∧ c ≤ 13) ∧ ¬isPrint c = true ∧ getUtf8CharLen c ≠ 1 ∧ Readable c := by
  refine forall_byte ?_
  decide +kernel

theorem jsonEncodeString_multi (hc : 128 ≤ c) (hg : getUtf8CharLen c = g.length + 1) (r : Bytes) :
    jsonEncodeString (c :: (g ++ r)) = (jsonEncodeString r).map ([c :: g] ++ ·) := by
  obtain ⟨h1, h2, h3, h4, -⟩ := high_first c hc
  have hlen : (g ++ r).length = g.length + r.length := List.length_append
  rw [jsonEncodeString, if_neg h1, if_neg h2, if_neg h3, if_neg h4, if_neg (by omega), hg, List.take_succ_cons,
    List.take_left, Nat.add_sub_cancel, List.drop_left]

/-! ## Reading -/

/-- The second byte printed for a character: that of its escape, if there is one. -/
def escapeOf (c : UInt8) : UInt8 := (printedChar c).flatten.getD 1 0

/-- It is printed as it is. -/
def Plain (c : UInt8) : Prop := (printedChar c).flatten = [c] ∧ ¬c < 32 ∧ c ≠ ch '\\' ∧ c ≠ ch '"'

instance (c : UInt8) : Decidable (Plain c) := inferInstanceAs (Decidable (_ ∧ _))

/-- It is printed with an escape that stands for it. -/
def Escaped (c : UInt8) : Prop :=
  escapeOf c ∈ simpleEscapes ∧ (printedChar c).flatten = [ch '\\', escapeOf c] ∧ unescapeChar (escapeOf c) = some c

instance (c : UInt8) : Decidable (Escaped c) := inferInstanceAs (Decidable (_ ∧ _))

theorem printedChar_readable : ∀ c : UInt8, c < 128 → Readable c → Plain c ∨ Escaped c := by
  refine forall_byte ?_
  decide +kernel

/-- What is printed for another one cannot be decoded. -/
theorem printedChar_unreadable : ∀ c : UInt8, c < 128 → ¬Readable c →
    (printedChar c).flatten.take 2 = [ch '\\', escapeOf c] ∧ unescapeChar (escapeOf c) = none := by
  refine forall_byte ?_
  decide +kernel

theorem jsonUnescape_cons (hc : c ≠ ch '\\') (t : Bytes) : jsonUnescape (c :: t) = (jsonUnescape t).map (c :: ·) := by
  cases t with
  | nil => exact if_neg hc
  | cons d t => rw [jsonUnescape, if_neg hc]

theorem jsonUnescape_escape {e x : UInt8} (he : unescapeChar e = some x) (t : Bytes) :
    jsonUnescape (ch '\\' :: e :: t) = (jsonUnescape t).map (x :: ·) := by
  rw [jsonUnescape, if_pos rfl, he]

theorem jsonUnescape_bad {e : UInt8} (he : unescapeChar e = none) (t : Bytes) :
    jsonUnescape (ch '\\' :: e :: t) = none := by
  rw [jsonUnescape, if_pos rfl, he]

theorem jsonUnescape_high (hg : ∀ d ∈ g, 128 ≤ d) (t : Bytes) :
    jsonUnescape (g ++ t) = (jsonUnescape t).map (g ++ ·) := by
  induction g with
  | nil =>
    change jsonUnescape t = (jsonUnescape t).map id
    rw [Option.map_id_fun, id]
  | cons d g ih =>
    obtain ⟨-, hd, -⟩ := high_byte (hg d List.mem_cons_self)
    rw [List.cons_append, jsonUnescape_cons hd, ih fun x hx => hg x (List.mem_cons_of_mem d hx), Option.map_map]
    rfl

theorem stringEnd_skip (g t : Bytes) : stringEnd g.length (g ++ t) = stringEnd 0 t := by
  induction g with
  | nil => rfl
  | cons d g ih => exact ih

theorem stringEnd_escape {e : UInt8} (he : e ∈ simpleEscapes) (t : Bytes) :
    stringEnd 0 (ch '\\' :: e :: t) = stringEnd 0 t := by
  obtain ⟨hu, hin⟩ := simpleEscape e he
  have hlen : ¬(ch '\\' :: e :: t).length ≤ getUtf8CharLen (ch '\\') := by
    rw [getUtf8CharLen_ascii (ch '\\') (by decide), List.length_cons, List.length_cons]
    omega
  have hesc : getEscapeLen (e :: t) (ch '\\' :: e :: t).length = .ok 1 := by
    have htwo : ¬(ch '\\' :: e :: t).length < 2 := by
      rw [List.length_cons, List.length_cons]
      omega
    exact (if_neg hu).trans ((if_pos hin).trans (if_neg htwo))
  rw [stringEnd, if_neg (by decide), if_neg hlen, if_pos rfl, hesc]
  rfl

end Printing

/-! ## Both -/

/-- `parse_string` finds the closing quote behind a text, and `json_unescape` makes a string of it. -/
def ReadsAs (text p rest : Bytes) : Prop :=
  stringEnd 0 (text ++ ch '"' :: rest) = .ok (ch '"' :: rest) ∧ jsonUnescape text = some p

section Both

variable {p rest : Bytes}

theorem readsAs_of_readable (hp : Characters p) (hread : ∀ c ∈ p, Readable c) (hrest : rest ≠ []) :
    ∃ printed, jsonEncodeString p = some printed ∧ ReadsAs printed.flatten p rest := by
  induction hp with
  | nil =>
    refine ⟨[], by rw [jsonEncodeString], ?_, rfl⟩
    exact stringEnd_of .nil hrest
  | @ascii r c hc _ ih =>
    obtain ⟨printed, henc, hend, hval⟩ := ih fun x hx => hread x (List.mem_cons_of_mem c hx)
    refine ⟨printedChar c ++ printed, by rw [jsonEncodeString_ascii hc, henc, Option.map_some], ?_⟩
    unfold ReadsAs
    rw [List.flatten_append]
    rcases printedChar_readable c hc (hread c List.mem_cons_self) with ⟨hself, h32, hb, hq⟩ | ⟨he, hesc, hun⟩
    · rw [hself, List.append_assoc, List.singleton_append, List.singleton_append, jsonUnescape_cons hb, hval]
      refine ⟨stringEnd_char (n := 0) (getUtf8CharLen_ascii c hc) ?_ h32 hb hq hend, rfl⟩
      rw [List.length_append, List.length_cons]
      omega
    · rw [hesc, List.append_assoc, List.cons_append, List.singleton_append, List.cons_append, List.singleton_append,
        stringEnd_escape he, jsonUnescape_escape hun, hval]
      exact ⟨hend, rfl⟩
  | @multi r c g hc hg hhigh _ ih =>
    obtain ⟨printed, henc, hend, hval⟩ :=
      ih fun x hx => hread x (List.mem_cons_of_mem c (List.mem_append_right g hx))
    refine ⟨[c :: g] ++ printed, by rw [jsonEncodeString_multi hc hg, henc, Option.map_some], ?_⟩
    unfold ReadsAs
    obtain ⟨h32, hb, hq⟩ := high_byte hc
    rw [List.flatten_append, List.flatten_singleton, List.append_assoc, List.cons_append, List.cons_append,
      jsonUnescape_cons hb, jsonUnescape_high hhigh, hval]
    refine ⟨stringEnd_char (n := g.length) hg ?_ h32 hb hq ?_, rfl⟩
    · rw [List.length_append, List.length_append, List.length_cons]
      omega
    · rw [stringEnd_skip]
      exact hend

/-- What is read back is readable. -/
theorem readable_of_unescape (hp : Characters p) {printed : List Bytes} (henc : jsonEncodeString p = some printed)
    (hval : jsonUnescape printed.flatten = some p) : ∀ c ∈ p, Readable c := by
  induction hp generalizing printed with
  | nil => exact fun c hc => absurd hc List.not_mem_nil
  | @ascii r c hc _ ih =>
    rw [jsonEncodeString_ascii hc] at henc
    obtain ⟨printed', henc', rfl⟩ := Option.map_eq_some_iff.mp henc
    rw [List.flatten_append] at hval
    have hrest (hc' : Readable c) (hmap : (jsonUnescape printed'.flatten).map (c :: ·) = some (c :: r)) :
        ∀ x ∈ c :: r, Readable x := by
      obtain ⟨r', hr', heq⟩ := Option.map_eq_some_iff.mp hmap
      intro x hx
      rcases List.mem_cons.mp hx with rfl | hx
      · exact hc'
      · exact ih henc' (by rw [hr', (List.cons.inj heq).2]) x hx
    by_cases hc' : Readable c
    · rcases printedChar_readable c hc hc' with ⟨hself, -, hb, -⟩ | ⟨-, hesc, hun⟩
      · rw [hself, List.singleton_append, jsonUnescape_cons hb] at hval
        exact hrest hc' hval
      · rw [hesc, List.cons_append, List.singleton_append, jsonUnescape_escape hun] at hval
        exact hrest hc' hval
    · obtain ⟨hesc, hun⟩ := printedChar_unreadable c hc hc'
      rw [← List.take_append_drop 2 (printedChar c).flatten, hesc, List.append_assoc, List.cons_append,
        List.singleton_append, jsonUnescape_bad hun] at hval
      cases hval
  | @multi r c g hc hg hhigh _ ih =>
    rw [jsonEncodeString_multi hc hg] at henc
    obtain ⟨printed', henc', rfl⟩ := Option.map_eq_some_iff.mp henc
    obtain ⟨-, hb, -⟩ := high_byte hc
    rw [List.flatten_append, List.flatten_singleton, List.cons_append, jsonUnescape_cons hb, jsonUnescape_high hhigh,
      Option.map_map] at hval
    obtain ⟨r', hr', heq⟩ := Option.map_eq_some_iff.mp hval
    obtain rfl : r' = r := List.append_cancel_left (List.cons.inj heq).2
    intro x hx
    rcases List.mem_cons.mp hx with rfl | hx
    · exact (high_first _ hc).2.2.2.2
    · rcases List.mem_append.mp hx with hx | hx
      · exact (high_first _ (hhigh x hx)).2.2.2.2
      · exact ih henc' hr' x hx

/-- **Round trip of `%Q`**: a string is printed, and if the closing quote is not the last byte of the text it is read
back exactly if all its bytes are readable. -/
theorem quoted_readsBack (hp : Characters p) (hrest : rest ≠ []) :
    ∃ printed, jsonEncodeString p = some printed ∧ (ReadsAs printed.flatten p rest ↔ ∀ c ∈ p, Readable c) := by
  obtain ⟨printed, henc⟩ : ∃ printed, jsonEncodeString p = some printed := by
    clear hrest
    induction hp with
    | nil => exact ⟨[], by rw [jsonEncodeString]⟩
    | @ascii r c hc _ ih =>
      obtain ⟨printed, henc⟩ := ih
      exact ⟨_, by rw [jsonEncodeString_ascii hc, henc, Option.map_some]⟩
    | @multi r c g hc hg _ _ ih =>
      obtain ⟨printed, henc⟩ := ih
      exact ⟨_, by rw [jsonEncodeString_multi hc hg, henc, Option.map_some]⟩
  refine ⟨printed, henc, fun h => readable_of_unescape hp henc h.2, fun hread => ?_⟩
  obtain ⟨printed', henc', h⟩ := readsAs_of_readable hp hread hrest
  obtain rfl : printed' = printed := Option.some.inj (henc'.symm.trans henc)
  exact h

/-- A quote, a line break, a character of two bytes and a vertical tab. -/
theorem quoted_readsBack_tab :
    ∃ printed, jsonEncodeString [0x22, 0x0A, 0xC3, 0xA9, 0x0B] = some printed ∧
      (ReadsAs printed.flatten [0x22, 0x0A, 0xC3, 0xA9, 0x0B] [0x7D] ↔
        ∀ c ∈ ([0x22, 0x0A, 0xC3, 0xA9, 0x0B] : Bytes), Readable c) :=
  quoted_readsBack (.ascii _ (by decide) (.ascii _ (by decide) (.multi _ [0xA9] (by decide) (by decide)
    (List.forall_mem_singleton.mpr (by decide)) (.ascii _ (by decide) .nil)))) (List.cons_ne_nil _ _)

end Both

end Thronix.Json
