import Thronix.Json.Parsed

/-!
# Thronix.Json.Fuel — the fuel of `jsonWalk` suffices

The parser of the source recurses on nothing but the text, so the bound the model adds must never be met.

* `Moves p`: a successful call consumes at least one byte.
* `Halts b p`: on a text shorter than `b` the call does not run out of fuel.
* The loops halt by induction on their fuel: every round moves.  `parseValue` then halts by induction on its own.
-/

namespace Thronix.Json

open Lib

/-- A successful call consumes text. -/
def Moves (p : Parser) : Prop := ∀ f g, Wf f → p f = (.ok, g) → g.cur.length < f.cur.length

/-- No call on a text shorter than `b` runs out of fuel. -/
def Halts (b : ℕ) (p : Parser) : Prop := ∀ f, Wf f → f.cur.length < b → (p f).1 ≠ .fuel

/-! ## What moves -/

theorem appendToPath_cur {f g : Frozen} {s : Bytes} (h : appendToPath f s = some g) : g.cur = f.cur := by
  simp only [appendToPath] at h
  split_ifs at h <;> cases h <;> rfl

theorem moves_testAndSkip (c : UInt8) : Moves (testAndSkip c) := by
  intro f g _ h
  obtain ⟨t, ht, rfl⟩ := testAndSkip_ok h
  have := (dropWhile_white f.cur).length_le
  rw [ht, List.length_cons] at this
  show t.length < f.cur.length
  omega

/-- A call that moves, followed by one that does not go back. -/
theorem Moves.andThen {p k : Parser} (hp : Moves p) (hpp : ∀ f, Wf f → Parsed f (p f))
    (hk : ∀ g h, Wf g → k g = (.ok, h) → h.cur.length ≤ g.cur.length) : Moves (Json.andThen p k) := by
  intro f h hw hr
  obtain ⟨g, hg, hh⟩ := andThen_ok hr
  have hwg : Wf g := Parsed.wf (hg ▸ hpp f hw) hw
  have h1 := hp f g hw hg
  have h2 := hk g h hwg hh
  omega

theorem moves_parseIdentifier : Moves parseIdentifier := by
  intro f h _ hr
  have hs : (skipWhitespaces f).cur.length ≤ f.cur.length := (dropWhile_white f.cur).length_le
  simp only [parseIdentifier] at hr
  split at hr
  · cases hr
  · next c t hc =>
    rw [hc, List.length_cons] at hs
    split_ifs at hr with ha
    · split at hr
      · cases hr
      · next g hg =>
        simp only [Prod.mk.injEq, true_and] at hr
        have hd : ((c :: t).dropWhile isIdentifierChar).length ≤ t.length := by
          have hid : isIdentifierChar c = true := by simp [isIdentifierChar, ha]
          rw [List.dropWhile_cons_of_pos hid]
          exact (List.dropWhile_suffix _).length_le
        rw [← hr, callBack_cur]
        show ((skipWhitespaces f).cur.dropWhile isIdentifierChar).length < _
        rw [hc]
        omega
    · cases hr

theorem moves_parseString : Moves parseString := by
  refine (moves_testAndSkip _).andThen (fun f _ => parsed_testAndSkip _ f) fun g h _ hr => ?_
  split at hr
  · cases hr
  · split at hr
    · next e he =>
      have hne := (stringEnd_error he).ne_ok
      simp only [Prod.mk.injEq] at hr
      exact absurd hr.1 hne
    · next rest hrest =>
      obtain ⟨t, rfl, hs⟩ := stringEnd_spec hrest
      simp only [Prod.mk.injEq, true_and] at hr
      have := hs.length_le
      rw [List.length_cons] at this
      rw [← hr]
      show t.length ≤ _
      omega

theorem moves_parseNumber : Moves parseNumber := by
  intro f h _ hr
  have hs := (dropWhile_white f.cur).length_le
  unfold parseNumber at hr
  simp only at hr
  split at hr
  · cases hr
  · split at hr
    · next e he =>
      have hne := (numberEnd_error he).ne_ok
      simp only [Prod.mk.injEq] at hr
      exact absurd hr.1 hne
    · next rest hrest =>
      obtain ⟨v, hv, -⟩ := numberEnd_spec hrest
      obtain ⟨c, t, hc⟩ := List.exists_cons_of_ne_nil v.int_ok.1
      simp only [Prod.mk.injEq, true_and] at hr
      rw [← hr, callBack_cur]
      show rest.length < _
      have hlen : (f.cur.dropWhile isSpace).length = v.text.length + rest.length := by
        rw [← List.length_append, ← hv]
        rfl
      have hpos : 0 < v.text.length := by
        simp only [JsonNumber.text, hc, List.length_append, List.length_cons]
        omega
      omega

theorem moves_expect {a : UInt8} {s : Bytes} {tok : JsonTokenType} : Moves (expect (a :: s) tok) := by
  intro f h _ hr
  unfold expect at hr
  split at hr
  · cases hr
  · split at hr
    · next e he =>
      have hne := (litEnd_error he).ne_ok
      simp only [Prod.mk.injEq] at hr
      exact absurd hr.1 hne
    · next rest hrest =>
      have hv := litEnd_spec hrest
      simp only [Prod.mk.injEq, true_and] at hr
      rw [← hr, callBack_cur, hv]
      show rest.length < _
      simp only [List.length_append, List.length_cons]
      omega

theorem moves_parseKey : Moves parseKey := by
  intro f h hw hr
  have hs := (dropWhile_white f.cur).length_le
  have hw' : Wf (skipWhitespaces f) := hw
  unfold parseKey at hr
  simp only at hr
  split at hr
  · cases hr
  · split_ifs at hr
    · exact lt_of_lt_of_le (moves_parseIdentifier _ _ hw' hr) hs
    · exact lt_of_lt_of_le (moves_parseString _ _ hw' hr) hs
    · cases hr

/-- Objects and arrays: the opening byte is consumed. -/
theorem moves_bracket {opening closing : UInt8} {name : Bytes} {body : Parser} {startTok endTok : JsonTokenType}
    (hbody : ∀ g, Wf g → Parsed g (body g)) :
    Moves (andThen (testAndSkip opening) fun f =>
      match appendToPath (callBack f startTok none 0) name with
      | none => (.undef, callBack f startTok none 0)
      | some h => andThen body (andThen (testAndSkip closing) fun k =>
          (.ok, callBack (truncatePath k f.pathLen) endTok (some (opening :: f.cur))
            ((opening :: f.cur).length - k.cur.length))) h) := by
  refine (moves_testAndSkip _).andThen (fun f _ => parsed_testAndSkip _ f) fun g r hwg hr => ?_
  split at hr
  · cases hr
  · next h hh =>
    obtain ⟨l, hl, hr⟩ := andThen_ok hr
    obtain ⟨k, hk, hr⟩ := andThen_ok hr
    have hwh : Wf h := (appendToPath_some (hwg.callBack _ _ _) hh).1
    have hch : h.cur = g.cur := by rw [appendToPath_cur hh, callBack_cur]
    have h1 : l.cur <:+ h.cur := by simpa [hl] using (hbody h hwh).cur
    have h2 : k.cur <:+ l.cur := by simpa [hk] using (parsed_testAndSkip closing l).cur
    simp only [Prod.mk.injEq, true_and] at hr
    rw [← hr, callBack_cur, ← hch]
    exact (h2.trans h1).length_le

section Nested

variable {pv : Parser} (hpv : ∀ f, Wf f → Parsed f (pv f))
include hpv

theorem moves_parsePair : Moves (parsePair pv) := by
  intro f r hw hr
  have hw' : Wf (skipWhitespaces f) := hw
  have hs := (dropWhile_white f.cur).length_le
  obtain ⟨h, hh, hr⟩ := andThen_ok hr
  have hm := moves_parseKey _ _ hw' hh
  have hwh : Wf h := Parsed.wf (hh ▸ parsed_parseKey hw') hw'
  split at hr
  · cases hr
  · next k hk =>
    obtain ⟨l, hl, hr⟩ := andThen_ok hr
    obtain ⟨m, hm', hr⟩ := andThen_ok hr
    have hwk : Wf k := (appendToPath_some hwh hk).1
    have hwl : Wf l := Parsed.wf (hl ▸ parsed_testAndSkip _ k) hwk
    have h1 : l.cur <:+ k.cur := by simpa [hl] using (parsed_testAndSkip (ch ':') k).cur
    have h2 : m.cur <:+ l.cur := by simpa [hm'] using (hpv l hwl).cur
    have h3 := (h2.trans h1).length_le
    rw [appendToPath_cur hk] at h3
    simp only [Prod.mk.injEq, true_and] at hr
    rw [← hr]
    show m.cur.length < _
    have : (skipWhitespaces f).cur.length ≤ f.cur.length := hs
    omega

end Nested

theorem moves_parseValue (n : ℕ) : Moves (parseValue n) := by
  intro f r hw hr
  have hw' : Wf (skipWhitespaces f) := hw
  have hs : (skipWhitespaces f).cur.length ≤ f.cur.length := (dropWhile_white f.cur).length_le
  rcases n with _ | n
  · cases hr
  · have hpv : ∀ f, Wf f → Parsed f (parseValue n f) := fun f hf => parsed_parseValue n hf
    unfold parseValue at hr
    simp only at hr
    split at hr
    · cases hr
    · refine lt_of_lt_of_le ?_ hs
      split_ifs at hr
      · exact moves_parseString _ _ hw' hr
      · exact moves_bracket (fun g hg => parsed_objectLoop hpv n hg) _ _ hw' hr
      · exact moves_bracket (fun g hg => parsed_arrayLoop hpv n 0 hg) _ _ hw' hr
      · exact moves_expect _ _ hw' hr
      · exact moves_expect _ _ hw' hr
      · exact moves_expect _ _ hw' hr
      · exact moves_parseNumber _ _ hw' hr
      · cases hr

/-! ## What halts -/

theorem andThen_ne_fuel {p k : Parser} {f : Frozen} (hp : (p f).1 ≠ .fuel)
    (hk : ∀ g, p f = (.ok, g) → (k g).1 ≠ .fuel) : (andThen p k f).1 ≠ .fuel := by
  unfold andThen
  rcases hr : p f with ⟨c, g⟩
  rw [hr] at hp
  cases c with
  | ok => exact hk g hr
  | _ => exact hp

theorem testAndSkip_ne_fuel (c : UInt8) (f : Frozen) : (testAndSkip c f).1 ≠ .fuel := by
  unfold testAndSkip
  split
  · simp
  · split_ifs <;> simp

theorem parseIdentifier_ne_fuel (f : Frozen) : (parseIdentifier f).1 ≠ .fuel := by
  unfold parseIdentifier
  simp only
  split
  · simp
  · split_ifs
    · split <;> simp
    · simp

theorem parseString_ne_fuel (f : Frozen) : (parseString f).1 ≠ .fuel := by
  refine andThen_ne_fuel (testAndSkip_ne_fuel _ _) fun g _ => ?_
  split
  · simp
  · split
    · next e he => exact (stringEnd_error he).ne_fuel
    · simp

theorem parseNumber_ne_fuel (f : Frozen) : (parseNumber f).1 ≠ .fuel := by
  unfold parseNumber
  simp only
  split
  · simp
  · split
    · next e he => exact (numberEnd_error he).ne_fuel
    · simp

theorem expect_ne_fuel (s : Bytes) (tok : JsonTokenType) (f : Frozen) : (expect s tok f).1 ≠ .fuel := by
  unfold expect
  split
  · simp
  · split
    · next e he => exact (litEnd_error he).ne_fuel
    · simp

theorem parseKey_ne_fuel (f : Frozen) : (parseKey f).1 ≠ .fuel := by
  unfold parseKey
  simp only
  split
  · simp
  · split_ifs
    · exact parseIdentifier_ne_fuel _
    · exact parseString_ne_fuel _
    · simp

theorem skipComma_length (f : Frozen) : (skipComma f).cur.length ≤ f.cur.length := by
  have hs := (dropWhile_white f.cur).length_le
  unfold skipComma
  split
  · simp
  · next c t ht =>
    rw [ht, List.length_cons] at hs
    split_ifs
    · show t.length ≤ _
      omega
    · show (c :: t).length ≤ _
      rw [List.length_cons]
      omega

/-- Objects and arrays halt when their loop does. -/
theorem bracket_ne_fuel {opening closing : UInt8} {name : Bytes} {body : Parser} {startTok endTok : JsonTokenType}
    {n : ℕ} (hbody : Halts n body) {f : Frozen} (hw : Wf f) (hn : f.cur.length ≤ n) :
    (andThen (testAndSkip opening) (fun f =>
      match appendToPath (callBack f startTok none 0) name with
      | none => (.undef, callBack f startTok none 0)
      | some h => andThen body (andThen (testAndSkip closing) fun k =>
          (.ok, callBack (truncatePath k f.pathLen) endTok (some (opening :: f.cur))
            ((opening :: f.cur).length - k.cur.length))) h) f).1 ≠ .fuel := by
  refine andThen_ne_fuel (testAndSkip_ne_fuel _ _) fun g hg => ?_
  have hwg : Wf g := Parsed.wf (hg ▸ parsed_testAndSkip _ f) hw
  have hm := moves_testAndSkip _ _ _ hw hg
  split
  · simp
  · next h hh =>
    have hch : h.cur = g.cur := by rw [appendToPath_cur hh, callBack_cur]
    refine andThen_ne_fuel (hbody h (appendToPath_some (hwg.callBack _ _ _) hh).1 (by rw [hch]; omega)) fun l _ => ?_
    exact andThen_ne_fuel (testAndSkip_ne_fuel _ _) fun k _ => by simp

section Nested

variable {pv : Parser} (hpv : ∀ f, Wf f → Parsed f (pv f)) {b : ℕ} (hh : Halts b pv)
include hh

theorem halts_parsePair : Halts b (parsePair pv) := by
  intro f hw hb
  have hw' : Wf (skipWhitespaces f) := hw
  have hs : (skipWhitespaces f).cur.length ≤ f.cur.length := (dropWhile_white f.cur).length_le
  refine andThen_ne_fuel (parseKey_ne_fuel _) fun h hr => ?_
  have hwh : Wf h := Parsed.wf (hr ▸ parsed_parseKey hw') hw'
  have hm := moves_parseKey _ _ hw' hr
  split
  · simp
  · next k hk =>
    have hck := appendToPath_cur hk
    have hwk : Wf k := (appendToPath_some hwh hk).1
    refine andThen_ne_fuel (testAndSkip_ne_fuel _ _) fun l hl => andThen_ne_fuel (hh l ?_ ?_) fun _ _ => by simp
    · exact Parsed.wf (hl ▸ parsed_testAndSkip _ k) hwk
    · have := moves_testAndSkip _ _ _ hwk hl
      rw [hck] at this
      omega

include hpv

theorem halts_objectLoop {n : ℕ} (hn : n ≤ b) : Halts n (objectLoop pv n) := by
  induction n with
  | zero => intro f _ h; simp at h
  | succ n ih =>
    intro f hw hb
    have hw' : Wf (skipWhitespaces f) := hw
    have hs : (skipWhitespaces f).cur.length ≤ f.cur.length := (dropWhile_white f.cur).length_le
    unfold objectLoop
    simp only
    split_ifs
    · simp
    · refine andThen_ne_fuel (halts_parsePair hh _ hw' (by omega)) fun g hg => ?_
      have hm := moves_parsePair hpv _ _ hw' hg
      have hc := skipComma_length g
      have hwg : Wf g := Parsed.wf (hg ▸ parsed_parsePair hpv hw') hw'
      exact ih (by omega) _ hwg.skipComma (by omega)

theorem halts_arrayLoop (hm : Moves pv) {n : ℕ} (hn : n ≤ b) : ∀ i, Halts n (arrayLoop pv n i) := by
  induction n with
  | zero => intro i f _ h; simp at h
  | succ n ih =>
    intro i f hw hb
    have hw' : Wf (skipWhitespaces f) := hw
    have hs : (skipWhitespaces f).cur.length ≤ f.cur.length := (dropWhile_white f.cur).length_le
    unfold arrayLoop
    simp only
    split_ifs
    · simp
    · split
      · simp
      · next h hr =>
        have hch := appendToPath_cur hr
        have hwh : Wf h := (appendToPath_some hw' hr).1
        refine andThen_ne_fuel (hh h hwh (by rw [hch]; omega)) fun k hk => ?_
        have hmk := hm _ _ hwh hk
        have hc := skipComma_length (truncatePath k (skipWhitespaces f).pathLen)
        have hone := parsed_scope pv hw' hr (hpv h hwh)
        rw [andThen_of_ok hk] at hone
        refine ih (by omega) (i + 1) _ (hone.wf hw').skipComma ?_
        rw [hch] at hmk
        change _ ≤ k.cur.length at hc
        omega

end Nested

theorem halts_parseValue (n : ℕ) : Halts n (parseValue n) := by
  induction n with
  | zero => intro f _ h; simp at h
  | succ n ih =>
    intro f hw hb
    have hw' : Wf (skipWhitespaces f) := hw
    have hs : (skipWhitespaces f).cur.length ≤ f.cur.length := (dropWhile_white f.cur).length_le
    have hpv : ∀ f, Wf f → Parsed f (parseValue n f) := fun f hf => parsed_parseValue n hf
    unfold parseValue
    simp only
    split
    · simp
    · split_ifs
      · exact parseString_ne_fuel _
      · exact bracket_ne_fuel (halts_objectLoop hpv ih le_rfl) hw' (by omega)
      · exact bracket_ne_fuel (halts_arrayLoop hpv ih (moves_parseValue n) le_rfl 0) hw' (by omega)
      · exact expect_ne_fuel _ _ _
      · exact expect_ne_fuel _ _ _
      · exact expect_ne_fuel _ _ _
      · exact parseNumber_ne_fuel _
      · simp

/-- **`json_walk` returns**: the fuel is never used up. -/
theorem jsonWalk_ne_fuel (s : Bytes) : (jsonWalk s).1 ≠ .fuel := by
  unfold jsonWalk
  split_ifs
  · simp
  · exact halts_parseValue _ _ (wf_startState s) (Nat.lt_succ_self _)

end Thronix.Json
