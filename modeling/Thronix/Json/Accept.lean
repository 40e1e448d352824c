import Thronix.Json.Extend

/-!
# Thronix.Json.Accept — every JSON text is accepted, unless its path does not fit

`JsonText` is the grammar of the library; the parser was written without it.  A call on a text of the grammar,
followed by a byte that may stand there, leaves exactly what follows, or hits the end of the path buffer (`undef`).

* `Yields r rest`: the outcome of such a call (the fuel of the model apart).
* The scanners first, then one induction over the grammar: `yields_of_jsonText`.
-/

namespace Thronix.Json

open Lib

/-! ## Numbers -/

section Numbers

/-- A byte that no number goes on with. -/
def EndsNumber (r : Bytes) : Prop :=
  ∀ c, r.head? = some c → isDigit c = false ∧ c ≠ ch '.' ∧ c ≠ ch 'e' ∧ c ≠ ch 'E'

theorem dropWhile_digits {ds r : Bytes} (hd : ∀ c ∈ ds, digit c = true)
    (hr : ∀ c, r.head? = some c → isDigit c = false) : (ds ++ r).dropWhile isDigit = r := by
  rw [List.dropWhile_append_of_pos (p := isDigit) fun c hc => hd c hc]
  rcases r with _ | ⟨c, t⟩
  · rfl
  · exact List.dropWhile_cons_of_neg (by simp [hr c rfl])

theorem digits1_of {ds r : Bytes} (hd : Digits ds) (hr : ∀ c, r.head? = some c → isDigit c = false) :
    digits1 (ds ++ r) = .ok r := by
  obtain ⟨c, t, rfl⟩ := List.exists_cons_of_ne_nil hd.1
  have hc : isDigit c = true := hd.2 c (by simp)
  simp only [List.cons_append, digits1, if_pos hc]
  rw [dropWhile_digits (fun d h => hd.2 d (by simp [h])) hr]

theorem expEnd_of (x : Option JsonExp) {r : Bytes} (hr : EndsNumber r) :
    expEnd (JsonExp.optText x ++ r) = .ok r := by
  have hdig : ∀ c, r.head? = some c → isDigit c = false := fun c hc => (hr c hc).1
  rcases x with _ | ⟨l, sign, ds, hl, hs, hd⟩
  · rcases r with _ | ⟨c, t⟩
    · rfl
    · obtain ⟨-, -, h1, h2⟩ := hr c rfl
      exact if_neg (by simp [h1, h2])
  · have hl' : l = ch 'e' ∨ l = ch 'E' := hl
    rcases sign with _ | c
    · obtain ⟨d, t, rfl⟩ := List.exists_cons_of_ne_nil hd.1
      have hdd : digit d = true := hd.2 d (by simp)
      have hnot : ¬ (d = ch '+' ∨ d = ch '-') := by
        rintro (rfl | rfl) <;> exact absurd hdd (by decide)
      show (if l = ch 'e' ∨ l = ch 'E' then _ else _) = _
      rw [if_pos hl']
      show (if d = ch '+' ∨ d = ch '-' then _ else _) = _
      rw [if_neg hnot]
      exact digits1_of hd hdig
    · have hc : c = ch '+' ∨ c = ch '-' := by
        rcases hs with hs | hs | hs
        · cases hs
        · cases hs
          exact .inl rfl
        · cases hs
          exact .inr rfl
      show (if l = ch 'e' ∨ l = ch 'E' then _ else _) = _
      rw [if_pos hl']
      show (if c = ch '+' ∨ c = ch '-' then _ else _) = _
      rw [if_pos hc]
      exact digits1_of hd hdig

/-- What may follow the integer part, or the fraction. -/
theorem endsDigits_expText (x : Option JsonExp) {r : Bytes} (hr : EndsNumber r) :
    ∀ c, (JsonExp.optText x ++ r).head? = some c → isDigit c = false ∧ c ≠ ch '.' := by
  intro c hc
  rcases x with _ | ⟨l, sign, ds, hl, hs, hd⟩
  · exact ⟨(hr c hc).1, (hr c hc).2.1⟩
  · have hlc : l = c := Option.some.inj hc
    subst hlc
    rcases hl with rfl | rfl <;> decide

/-- `numberEnd` takes a number up to a byte that ends it. -/
theorem numberEnd_of (v : JsonNumber) {r : Bytes} (hr : EndsNumber r) : numberEnd (v.text ++ r) = .ok r := by
  obtain ⟨neg, int, frac, x, hi, hf⟩ := v
  have hx := endsDigits_expText x hr
  obtain ⟨e, he⟩ : ∃ e, e = JsonExp.optText x ++ r := ⟨_, rfl⟩
  have hmin : skipMinus (JsonNumber.text ⟨neg, int, frac, x, hi, hf⟩ ++ r) =
      int ++ ((if frac = [] then [] else 46 :: frac) ++ e) := by
    obtain ⟨d, t, rfl⟩ := List.exists_cons_of_ne_nil hi.1
    have hd : digit d = true := hi.2 d (by simp)
    rcases neg with _ | _
    · have hne : d ≠ ch '-' := by
        rintro rfl
        exact absurd hd (by decide)
      simp [JsonNumber.text, JsonNumber.tailText, skipMinus, hne, he]
    · simp [JsonNumber.text, JsonNumber.tailText, skipMinus, ch, he]
  rw [← he] at hx
  have hfrac : fracEnd ((if frac = [] then [] else 46 :: frac) ++ e) = .ok e := by
    by_cases h0 : frac = []
    · rw [if_pos h0, List.nil_append]
      rcases hc : e with _ | ⟨c, t⟩
      · rfl
      · exact if_neg (hx c (by rw [hc]; rfl)).2
    · rw [if_neg h0]
      show (if (46 : UInt8) = ch '.' then digits1 (frac ++ e) else .ok (46 :: (frac ++ e))) = _
      rw [if_pos (by decide)]
      exact digits1_of ⟨h0, hf⟩ fun c hc => (hx c hc).1
  have hint : digits1 (int ++ ((if frac = [] then [] else 46 :: frac) ++ e)) =
      .ok ((if frac = [] then [] else 46 :: frac) ++ e) := by
    refine digits1_of hi fun c hc => ?_
    by_cases h0 : frac = []
    · rw [if_pos h0] at hc
      exact (hx c hc).1
    · rw [if_neg h0] at hc
      cases hc
      decide
  unfold numberEnd
  simp only [hmin, hint, hfrac, bind, Except.bind]
  rw [he]
  exact expEnd_of x hr

end Numbers

/-! ## Strings -/

section Strings

/-- A fact about a byte, by looking at all of them. -/
theorem forall_byte {p : UInt8 → Prop} (h : ∀ n < 256, p n.toUInt8) (c : UInt8) : p c := by
  have := h c.toNat c.toNat_lt
  simpa using this

theorem getUtf8CharLen_ascii : ∀ c : UInt8, c < 128 → getUtf8CharLen c = 1 := by
  refine forall_byte ?_
  decide +kernel

theorem getUtf8CharLen_two : ∀ c : UInt8, c &&& 0xe0 = 0xc0 → getUtf8CharLen c = 2 ∧ 128 ≤ c := by
  refine forall_byte ?_
  decide +kernel

theorem getUtf8CharLen_three : ∀ c : UInt8, c &&& 0xf0 = 0xe0 → getUtf8CharLen c = 3 ∧ 128 ≤ c := by
  refine forall_byte ?_
  decide +kernel

theorem getUtf8CharLen_four : ∀ c : UInt8, c &&& 0xf8 = 0xf0 → getUtf8CharLen c = 4 ∧ 128 ≤ c := by
  refine forall_byte ?_
  decide +kernel

theorem simpleEscape : ∀ c : UInt8, c ∈ simpleEscapes → c ≠ ch 'u' ∧ c ∈ str "\"\\/bfnrt" := by
  refine forall_byte ?_
  decide +kernel

/-- One character that is neither an escape nor the closing quote. -/
theorem stringEnd_char {c : UInt8} {t r : Bytes} {n : ℕ} (hn : getUtf8CharLen c = n + 1) (hlen : n < t.length)
    (h32 : ¬ c < 32) (hb : c ≠ ch '\\') (hq : c ≠ ch '"') (h : stringEnd n t = .ok r) :
    stringEnd 0 (c :: t) = .ok r := by
  have h1 : ¬ (c :: t).length ≤ getUtf8CharLen c := by
    rw [hn, List.length_cons]
    omega
  rw [stringEnd, if_neg h32, if_neg h1, if_neg hb, if_neg hq, hn]
  exact h

/-- A byte of a character of several bytes. -/
theorem high_byte {c : UInt8} (h : 128 ≤ c) : ¬ c < 32 ∧ c ≠ ch '\\' ∧ c ≠ ch '"' := by
  refine ⟨fun h1 => ?_, ?_, ?_⟩
  · exact absurd (UInt8.lt_of_le_of_lt h h1) (by decide)
  · rintro rfl
    exact absurd h (by decide)
  · rintro rfl
    exact absurd h (by decide)

/-- The scan of a string runs to its closing quote, when something follows it. -/
theorem stringEnd_of {b rest : Bytes} (hb : StringBody b) (hr : rest ≠ []) :
    stringEnd 0 (b ++ ch '"' :: rest) = .ok (ch '"' :: rest) := by
  induction hb with
  | nil =>
    obtain ⟨d, t, rfl⟩ := List.exists_cons_of_ne_nil hr
    have h1 : ¬ (ch '"' :: d :: t).length ≤ getUtf8CharLen (ch '"') := by
      rw [show getUtf8CharLen (ch '"') = 1 by decide, List.length_cons, List.length_cons]
      omega
    rw [List.nil_append, stringEnd, if_neg (by decide), if_neg h1, if_neg (by decide), if_pos rfl]
  | @ascii b c hc _ ih =>
    obtain ⟨h1, h2, h3, h4⟩ := hc
    refine stringEnd_char (n := 0) (getUtf8CharLen_ascii c h2) ?_ (UInt8.not_lt.mpr h1) h4 h3 ih
    show 0 < (b ++ ch '"' :: rest).length
    simp only [List.length_append, List.length_cons]
    omega
  | @two b c d hc _ ih =>
    obtain ⟨hl, hhi⟩ := getUtf8CharLen_two c hc
    obtain ⟨h1, h2, h3⟩ := high_byte hhi
    refine stringEnd_char (n := 1) hl ?_ h1 h2 h3 ih
    show 1 < (d :: (b ++ ch '"' :: rest)).length
    simp only [List.length_append, List.length_cons]
    omega
  | @three b c d e hc _ ih =>
    obtain ⟨hl, hhi⟩ := getUtf8CharLen_three c hc
    obtain ⟨h1, h2, h3⟩ := high_byte hhi
    refine stringEnd_char (n := 2) hl ?_ h1 h2 h3 ih
    show 2 < (d :: e :: (b ++ ch '"' :: rest)).length
    simp only [List.length_append, List.length_cons]
    omega
  | @four b c d e f hc _ ih =>
    obtain ⟨hl, hhi⟩ := getUtf8CharLen_four c hc
    obtain ⟨h1, h2, h3⟩ := high_byte hhi
    refine stringEnd_char (n := 3) hl ?_ h1 h2 h3 ih
    show 3 < (d :: e :: f :: (b ++ ch '"' :: rest)).length
    simp only [List.length_append, List.length_cons]
    omega
  | @escape b c hc _ ih =>
    obtain ⟨hu, he⟩ := simpleEscape c hc
    have hlen : ¬ (ch '\\' :: c :: (b ++ ch '"' :: rest)).length ≤ getUtf8CharLen (ch '\\') := by
      rw [show getUtf8CharLen (ch '\\') = 1 by decide]
      simp only [List.length_cons, List.length_append]
      omega
    have hesc : getEscapeLen (c :: (b ++ ch '"' :: rest)) (ch '\\' :: c :: (b ++ ch '"' :: rest)).length = .ok 1 := by
      simp only [getEscapeLen, if_neg hu, if_pos he]
      rw [if_neg]
      simp only [List.length_cons, List.length_append]
      omega
    show stringEnd 0 (ch '\\' :: c :: (b ++ ch '"' :: rest)) = _
    rw [stringEnd, if_neg (by decide), if_neg hlen, if_pos rfl]
    simp only [hesc]
    exact ih
  | @unicode b c d e f hh _ ih =>
    have hlen : ¬ (ch '\\' :: ch 'u' :: c :: d :: e :: f :: (b ++ ch '"' :: rest)).length ≤
        getUtf8CharLen (ch '\\') := by
      rw [show getUtf8CharLen (ch '\\') = 1 by decide]
      simp only [List.length_cons, List.length_append]
      omega
    have hesc : getEscapeLen (ch 'u' :: c :: d :: e :: f :: (b ++ ch '"' :: rest))
        (ch '\\' :: ch 'u' :: c :: d :: e :: f :: (b ++ ch '"' :: rest)).length = .ok 5 := by
      simp only [getEscapeLen, if_true]
      rw [if_neg, if_pos]
      · exact hh
      · simp only [List.length_cons, List.length_append]
        omega
    show stringEnd 0 (ch '\\' :: ch 'u' :: c :: d :: e :: f :: (b ++ ch '"' :: rest)) = _
    rw [stringEnd, if_neg (by decide), if_neg hlen, if_pos rfl]
    simp only [hesc]
    exact ih

end Strings

/-! ## Outcomes -/

/-- The call left `rest`, or did not get to the end (the path buffer, or the fuel of the model). -/
def Yields (r : Code × Frozen) (rest : Bytes) : Prop :=
  r.1 = .fuel ∨ r.1 = .undef ∨ ∃ g, r = (.ok, g) ∧ g.cur = rest

theorem yields_ok {g : Frozen} {rest : Bytes} (h : g.cur = rest) : Yields (.ok, g) rest := .inr (.inr ⟨g, rfl, h⟩)

theorem yields_undef {g : Frozen} {rest : Bytes} : Yields (.undef, g) rest := .inr (.inl rfl)

theorem yields_fuel {g : Frozen} {rest : Bytes} : Yields (.fuel, g) rest := .inl rfl

theorem Yields.andThen {p k : Parser} {f : Frozen} {r q : Bytes} (hp : Yields (p f) r)
    (hk : ∀ g, g.cur = r → Yields (k g) q) : Yields (Json.andThen p k f) q := by
  rcases hp with h | h | ⟨g, h, hc⟩
  · refine .inl ?_
    unfold Json.andThen
    rcases hr : p f with ⟨c, g⟩
    rw [hr] at h
    cases h
    rfl
  · refine .inr (.inl ?_)
    unfold Json.andThen
    rcases hr : p f with ⟨c, g⟩
    rw [hr] at h
    cases h
    rfl
  · rw [andThen_of_ok h]
    exact hk g hc

/-- Whitespace in front of a byte that is none. -/
theorem dropWhile_ws {w : Bytes} (hw : IsWs w) {c : UInt8} {t : Bytes} (hc : isSpace c = false) :
    (w ++ c :: t).dropWhile isSpace = c :: t := by
  rw [List.dropWhile_append_of_pos (p := isSpace) fun c hc => hw c hc]
  exact List.dropWhile_cons_of_neg (by simp [hc])

theorem yields_testAndSkip {c : UInt8} (hc : isSpace c = false) {f : Frozen} {w t : Bytes} (hw : IsWs w)
    (hf : f.cur = w ++ c :: t) : Yields (testAndSkip c f) t := by
  unfold testAndSkip
  rw [hf, dropWhile_ws hw hc]
  simp only [if_true]
  exact yields_ok rfl

/-- What may follow a value inside an object or an array. -/
def Follows (r : Bytes) : Prop :=
  ∃ c t, r = c :: t ∧ (isSpace c = true ∨ c = ch ',' ∨ c = ch ']' ∨ c = ch '}')

theorem follows_append {w : Bytes} (hw : IsWs w) {c : UInt8} {t : Bytes} (hc : c = ch ',' ∨ c = ch ']' ∨ c = ch '}') :
    Follows (w ++ c :: t) := by
  rcases w with _ | ⟨d, w⟩
  · exact ⟨c, t, rfl, .inr hc⟩
  · exact ⟨d, w ++ c :: t, rfl, .inl (hw d (by simp))⟩

theorem ends_space : ∀ c : UInt8, isSpace c = true →
    isDigit c = false ∧ c ≠ ch '.' ∧ c ≠ ch 'e' ∧ c ≠ ch 'E' := by
  refine forall_byte ?_
  decide +kernel

theorem Follows.endsNumber {r : Bytes} (h : Follows r) : EndsNumber r := by
  obtain ⟨c, t, rfl, hc⟩ := h
  intro d hd
  cases hd
  rcases hc with hc | rfl | rfl | rfl
  · exact ends_space _ hc
  · decide
  · decide
  · decide

theorem Follows.ne_nil {r : Bytes} (h : Follows r) : r ≠ [] := by
  obtain ⟨c, t, rfl, -⟩ := h
  simp

theorem yields_parseString {k rest : Bytes} (hk : IsString k) (hr : rest ≠ []) {f : Frozen} (hf : f.cur = k ++ rest) :
    Yields (parseString f) rest := by
  obtain ⟨b, hb, rfl⟩ := hk
  have hq : f.cur = [] ++ ch '"' :: (b ++ ch '"' :: rest) := by
    rw [hf]
    show 34 :: (b ++ [34]) ++ rest = 34 :: (b ++ 34 :: rest)
    simp
  refine (yields_testAndSkip (by decide) isWs_nil hq).andThen fun g hg => ?_
  split
  · exact yields_undef
  · rw [hg, stringEnd_of hb hr]
    exact yields_ok rfl

theorem yields_expect {a rest : Bytes} {tok : JsonTokenType} {f : Frozen} (hf : f.cur = a ++ rest) :
    Yields (expect a tok f) rest := by
  have hl : litEnd a (a ++ rest) = .ok rest := by
    clear hf
    induction a with
    | nil => rfl
    | cons c a ih => simpa [litEnd] using ih
  unfold expect
  split
  · exact yields_undef
  · rw [hf, hl]
    exact yields_ok (by rw [callBack_cur]; rfl)

theorem yields_parseNumber (v : JsonNumber) {rest : Bytes} (hr : EndsNumber rest) {f : Frozen}
    (hf : (skipWhitespaces f).cur = v.text ++ rest) : Yields (parseNumber f) rest := by
  unfold parseNumber
  simp only
  split
  · exact yields_undef
  · rw [hf, numberEnd_of v hr]
    exact yields_ok (by rw [callBack_cur]; rfl)

/-- Objects and arrays, given what their loop does. -/
theorem yields_bracket {opening closing : UInt8} {name : Bytes} {body : Parser} {startTok endTok : JsonTokenType}
    {s rest : Bytes} (ho : isSpace opening = false) (hcl : isSpace closing = false)
    (hbody : ∀ g, g.cur = s ++ closing :: rest → Yields (body g) (closing :: rest)) {f : Frozen}
    (hf : f.cur = opening :: (s ++ closing :: rest)) :
    Yields (andThen (testAndSkip opening) (fun f =>
      match appendToPath (callBack f startTok none 0) name with
      | none => (.undef, callBack f startTok none 0)
      | some h => andThen body (andThen (testAndSkip closing) fun k =>
          (.ok, callBack (truncatePath k f.pathLen) endTok (some (opening :: f.cur))
            ((opening :: f.cur).length - k.cur.length))) h) f) rest := by
  refine (yields_testAndSkip ho (w := []) isWs_nil hf).andThen fun g hg => ?_
  split
  · exact yields_undef
  · next h hh =>
    have hch : h.cur = g.cur := by rw [appendToPath_cur hh, callBack_cur]
    refine (hbody h (hch.trans hg)).andThen fun l hl => ?_
    refine (yields_testAndSkip hcl (w := []) isWs_nil hl).andThen fun k hk => ?_
    exact yields_ok (by rw [callBack_cur]; exact hk)

/-! ## The grammar -/

/-- What the parser does with the texts of a nonterminal. -/
def Accepted : Nonterminal → Bytes → Prop
  | .value, s => ∀ n f w rest, IsWs w → f.cur = w ++ (s ++ rest) → Follows rest → Yields (parseValue n f) rest
  | .elements, s => ∀ n m i f rest, f.cur = s ++ ch ']' :: rest →
      Yields (arrayLoop (parseValue m) n i f) (ch ']' :: rest)
  | .members, s => ∀ n m f rest, f.cur = s ++ ch '}' :: rest →
      Yields (objectLoop (parseValue m) n f) (ch '}' :: rest)

/-- The value at the front of a text, by its first byte. -/
theorem yields_parseValue {n : ℕ} {f : Frozen} {w t rest : Bytes} {c : UInt8} (hw : IsWs w)
    (hf : f.cur = w ++ c :: t) (hc : isSpace c = false)
    (h : ∀ n g, g.cur = c :: t → skipWhitespaces g = g → Yields (
      if c = ch '"' then parseString g
      else if c = ch '{' then parseObject (parseValue n) n g
      else if c = ch '[' then parseArray (parseValue n) n g
      else if c = ch 'n' then expect (str "null") .null g
      else if c = ch 't' then expect (str "true") .tru g
      else if c = ch 'f' then expect (str "false") .fls g
      else if c = ch '-' ∨ isDigit c then parseNumber g
      else (.invalid, g)) rest) : Yields (parseValue n f) rest := by
  rcases n with _ | n
  · exact yields_fuel
  · have hg : (skipWhitespaces f).cur = c :: t := by
      show f.cur.dropWhile isSpace = _
      rw [hf, dropWhile_ws hw hc]
    have hid : skipWhitespaces (skipWhitespaces f) = skipWhitespaces f := by
      show ({ f with cur := (skipWhitespaces f).cur.dropWhile isSpace } : Frozen) = { f with cur := _ }
      rw [hg, List.dropWhile_cons_of_neg (by simp [hc]), ← hg]
      rfl
    unfold parseValue
    simp only [hg]
    exact h n _ hg hid

theorem number_start : ∀ c : UInt8, (c = ch '-' ∨ isDigit c = true) →
    isSpace c = false ∧ c ≠ ch ']' ∧ c ≠ ch '"' ∧ c ≠ ch '{' ∧ c ≠ ch '[' ∧ c ≠ ch 'n' ∧ c ≠ ch 't' ∧ c ≠ ch 'f' := by
  refine forall_byte ?_
  decide +kernel

theorem number_head (v : JsonNumber) : ∃ c t, v.text = c :: t ∧ (c = ch '-' ∨ isDigit c = true) := by
  obtain ⟨d, t, hd⟩ := List.exists_cons_of_ne_nil v.int_ok.1
  rcases hn : v.neg with _ | _
  · exact ⟨d, t ++ v.tailText, by simp [JsonNumber.text, hn, hd], .inr (v.int_ok.2 d (by simp [hd]))⟩
  · exact ⟨45, v.int ++ v.tailText, by simp [JsonNumber.text, hn], .inl rfl⟩

/-- The first byte of a value. -/
theorem value_head {s : Bytes} (h : JsonText .value s) : ∃ c t, s = c :: t ∧ isSpace c = false ∧ c ≠ ch ']' := by
  cases h with
  | number v =>
    obtain ⟨c, t, hv, hc⟩ := number_head v
    exact ⟨c, t, hv, (number_start c hc).1, (number_start c hc).2.1⟩
  | string h =>
    obtain ⟨b, -, rfl⟩ := h
    exact ⟨_, _, rfl, by decide, by decide⟩
  | _ => exact ⟨_, _, rfl, by decide, by decide⟩

theorem skipWhitespaces_cur {f : Frozen} {w : Bytes} (hw : IsWs w) {c : UInt8} {t : Bytes} (hc : isSpace c = false)
    (hf : f.cur = w ++ c :: t) : (skipWhitespaces f).cur = c :: t := by
  show f.cur.dropWhile isSpace = _
  rw [hf, dropWhile_ws hw hc]

theorem skipComma_comma {f : Frozen} {w t : Bytes} (hw : IsWs w) (hf : f.cur = w ++ ch ',' :: t) :
    (skipComma f).cur = t := by
  unfold skipComma
  rw [hf, dropWhile_ws hw (by decide)]
  rfl

theorem skipComma_other {f : Frozen} {w t : Bytes} {c : UInt8} (hw : IsWs w) (hc : isSpace c = false)
    (hne : c ≠ ch ',') (hf : f.cur = w ++ c :: t) : (skipComma f).cur = c :: t := by
  unfold skipComma
  rw [hf, dropWhile_ws hw hc]
  simp only [if_neg hne]

section Loops

variable {pv : Parser} {rest : Bytes}

theorem yields_objectLoop_end {w : Bytes} (hw : IsWs w) (n : ℕ) {f : Frozen} (hf : f.cur = w ++ ch '}' :: rest) :
    Yields (objectLoop pv n f) (ch '}' :: rest) := by
  rcases n with _ | n
  · exact yields_fuel
  · have hg := skipWhitespaces_cur hw (by decide) hf
    unfold objectLoop
    simp only [hg, List.head?_cons, if_true]
    exact yields_ok hg

theorem yields_arrayLoop_end {w : Bytes} (hw : IsWs w) (n i : ℕ) {f : Frozen} (hf : f.cur = w ++ ch ']' :: rest) :
    Yields (arrayLoop pv n i f) (ch ']' :: rest) := by
  rcases n with _ | n
  · exact yields_fuel
  · have hg := skipWhitespaces_cur hw (by decide) hf
    unfold arrayLoop
    simp only [hg, List.head?_cons, if_true]
    exact yields_ok hg

/-- One round of the loop of `parse_array`. -/
theorem yields_arrayLoop_round {w s r : Bytes} (hw : IsWs w) (hs : JsonText .value s)
    (hpv : ∀ f, f.cur = s ++ r → Yields (pv f) r) {n i : ℕ} {f : Frozen} (hf : f.cur = w ++ (s ++ r))
    (hnext : ∀ n i g, g.cur = r → Yields (arrayLoop pv n i (skipComma g)) rest) :
    Yields (arrayLoop pv n i f) rest := by
  rcases n with _ | n
  · exact yields_fuel
  · obtain ⟨c, t, rfl, hc, hne⟩ := value_head hs
    have hg : (skipWhitespaces f).cur = c :: (t ++ r) := skipWhitespaces_cur hw hc hf
    unfold arrayLoop
    simp only [hg, List.head?_cons, Option.some.injEq, if_neg hne]
    split
    · exact yields_undef
    · next h hh =>
      refine (hpv h ?_).andThen fun k hk => hnext n (i + 1) _ hk
      rw [appendToPath_cur hh, hg]
      rfl

/-- One round of the loop of `parse_object`. -/
theorem yields_objectLoop_round {w k w1 s r : Bytes} (hw : IsWs w) (hk : IsString k) (hw1 : IsWs w1)
    (hpv : ∀ f, f.cur = s → Yields (pv f) r) {n : ℕ} {f : Frozen} (hf : f.cur = w ++ (k ++ (w1 ++ ch ':' :: s)))
    (hnext : ∀ n g, g.cur = r → Yields (objectLoop pv n (skipComma g)) rest) :
    Yields (objectLoop pv n f) rest := by
  rcases n with _ | n
  · exact yields_fuel
  · obtain ⟨t, hkt⟩ : ∃ t, k = ch '"' :: t := by
      obtain ⟨b, -, rfl⟩ := hk
      exact ⟨_, rfl⟩
    have hg : (skipWhitespaces f).cur = k ++ (w1 ++ ch ':' :: s) := by
      rw [hkt] at hf ⊢
      exact skipWhitespaces_cur hw (by decide) hf
    have hid : skipWhitespaces (skipWhitespaces (skipWhitespaces f)) = skipWhitespaces f ∧
        skipWhitespaces (skipWhitespaces f) = skipWhitespaces f := by
      have h1 : skipWhitespaces (skipWhitespaces f) = skipWhitespaces f := by
        show ({ f with cur := (skipWhitespaces f).cur.dropWhile isSpace } : Frozen) = { f with cur := _ }
        rw [hg, hkt, List.cons_append, List.dropWhile_cons_of_neg (by decide), ← List.cons_append, ← hkt, ← hg]
        rfl
      exact ⟨by rw [h1, h1], h1⟩
    unfold objectLoop
    have hhead : (skipWhitespaces f).cur.head? = some (ch '"') := by
      rw [hg, hkt]
      rfl
    simp only [hhead, Option.some.injEq]
    rw [if_neg (by decide)]
    refine Yields.andThen (r := r) ?_ fun g hgr => hnext n g hgr
    unfold parsePair
    simp only [hid.2]
    refine Yields.andThen (r := w1 ++ ch ':' :: s) ?_ fun g hgr => ?_
    · unfold parseKey
      simp only [hid.2]
      have hcur : (skipWhitespaces f).cur = ch '"' :: (t ++ (w1 ++ ch ':' :: s)) := by
        rw [hg, hkt]
        rfl
      simp only [hcur]
      rw [if_neg (by decide), if_pos trivial]
      exact yields_parseString hk (by simp) hg
    · split
      · exact yields_undef
      · next h hh =>
        refine (yields_testAndSkip (by decide) hw1 (t := s) ?_).andThen fun l hl => ?_
        · rw [appendToPath_cur hh, hgr]
        · exact (hpv l hl).andThen fun m hm => yields_ok hm

end Loops

/-- **Every text of the grammar is accepted.** -/
theorem accepted_of_jsonText {k : Nonterminal} {s : Bytes} (h : JsonText k s) : Accepted k s := by
  induction h with
  | null =>
    intro n f w rest hw hf _
    refine yields_parseValue (c := ch 'n') (t := str "ull" ++ rest) hw hf (by decide) fun n g hg _ => ?_
    rw [if_neg (by decide), if_neg (by decide), if_neg (by decide), if_pos rfl]
    exact yields_expect hg
  | tru =>
    intro n f w rest hw hf _
    refine yields_parseValue (c := ch 't') (t := str "rue" ++ rest) hw hf (by decide) fun n g hg _ => ?_
    rw [if_neg (by decide), if_neg (by decide), if_neg (by decide), if_neg (by decide), if_pos rfl]
    exact yields_expect hg
  | fls =>
    intro n f w rest hw hf _
    refine yields_parseValue (c := ch 'f') (t := str "alse" ++ rest) hw hf (by decide) fun n g hg _ => ?_
    rw [if_neg (by decide), if_neg (by decide), if_neg (by decide), if_neg (by decide), if_neg (by decide), if_pos rfl]
    exact yields_expect hg
  | number v =>
    intro n f w rest hw hf hr
    obtain ⟨c, t, hv, hc⟩ := number_head v
    obtain ⟨h1, -, h2, h3, h4, h5, h6, h7⟩ := number_start c hc
    rw [hv] at hf
    refine yields_parseValue (c := c) (t := t ++ rest) hw hf h1 fun n g hg hid => ?_
    rw [if_neg h2, if_neg h3, if_neg h4, if_neg h5, if_neg h6, if_neg h7, if_pos hc]
    exact yields_parseNumber v hr.endsNumber (by rw [hid, hg, hv]; rfl)
  | string hs =>
    intro n f w rest hw hf hr
    have hs' := hs
    obtain ⟨b, -, rfl⟩ := hs'
    have hcur : f.cur = w ++ 34 :: (b ++ [34] ++ rest) := by simpa using hf
    refine yields_parseValue hw hcur (by decide) fun n g hg _ => ?_
    rw [if_pos (by decide)]
    exact yields_parseString hs hr.ne_nil hg
  | @arrayNil u hu =>
    intro n f w rest hw hf _
    have hcur : f.cur = w ++ ch '[' :: (u ++ ch ']' :: rest) := by
      show f.cur = w ++ 91 :: (u ++ 93 :: rest)
      simpa using hf
    refine yields_parseValue hw hcur (by decide) fun n g hg _ => ?_
    rw [if_neg (by decide), if_neg (by decide), if_pos rfl]
    exact yields_bracket (by decide) (by decide) (fun l hl => yields_arrayLoop_end hu n 0 hl) hg
  | @array s _ ih =>
    intro n f w rest hw hf _
    have hcur : f.cur = w ++ ch '[' :: (s ++ ch ']' :: rest) := by
      show f.cur = w ++ 91 :: (s ++ 93 :: rest)
      simpa using hf
    refine yields_parseValue hw hcur (by decide) fun n g hg _ => ?_
    rw [if_neg (by decide), if_neg (by decide), if_pos rfl]
    exact yields_bracket (by decide) (by decide) (fun l hl => ih n n 0 l rest hl) hg
  | @objectNil u hu =>
    intro n f w rest hw hf _
    have hcur : f.cur = w ++ ch '{' :: (u ++ ch '}' :: rest) := by
      show f.cur = w ++ 123 :: (u ++ 125 :: rest)
      simpa using hf
    refine yields_parseValue hw hcur (by decide) fun n g hg _ => ?_
    rw [if_neg (by decide), if_pos rfl]
    exact yields_bracket (by decide) (by decide) (fun l hl => yields_objectLoop_end hu n hl) hg
  | @object s _ ih =>
    intro n f w rest hw hf _
    have hcur : f.cur = w ++ ch '{' :: (s ++ ch '}' :: rest) := by
      show f.cur = w ++ 123 :: (s ++ 125 :: rest)
      simpa using hf
    refine yields_parseValue hw hcur (by decide) fun n g hg _ => ?_
    rw [if_neg (by decide), if_pos rfl]
    exact yields_bracket (by decide) (by decide) (fun l hl => ih n n l rest hl) hg
  | @element w v w' hw hv hw' ih =>
    intro n m i f rest hf
    have hcur : f.cur = w ++ (v ++ (w' ++ ch ']' :: rest)) := by
      show f.cur = w ++ (v ++ (w' ++ ch ']' :: rest))
      simpa using hf
    refine yields_arrayLoop_round hw hv (fun g hg => ?_) hcur fun n i g hg => ?_
    · exact ih m g [] _ isWs_nil hg (follows_append hw' (by simp))
    · exact yields_arrayLoop_end (w := []) isWs_nil n i (skipComma_other hw' (by decide) (by decide) hg)
  | @elements w v w' s hw hv hw' _ ih ihs =>
    intro n m i f rest hf
    have hcur : f.cur = w ++ (v ++ (w' ++ ch ',' :: (s ++ ch ']' :: rest))) := by
      show f.cur = w ++ (v ++ (w' ++ 44 :: (s ++ ch ']' :: rest)))
      simpa using hf
    refine yields_arrayLoop_round hw hv (fun g hg => ?_) hcur fun n i g hg => ?_
    · exact ih m g [] _ isWs_nil hg (follows_append hw' (by simp))
    · exact ihs n m i _ rest (skipComma_comma hw' hg)
  | @member w k w1 w2 v w3 hw hk hw1 hw2 hv hw3 ih =>
    intro n m f rest hf
    have hcur : f.cur = w ++ (k ++ (w1 ++ ch ':' :: (w2 ++ (v ++ (w3 ++ ch '}' :: rest))))) := by
      show f.cur = w ++ (k ++ (w1 ++ 58 :: (w2 ++ (v ++ (w3 ++ ch '}' :: rest)))))
      simpa using hf
    refine yields_objectLoop_round (r := w3 ++ ch '}' :: rest) hw hk hw1 (fun g hg => ?_) hcur fun n g hg => ?_
    · exact ih m g w2 _ hw2 hg (follows_append hw3 (by simp))
    · exact yields_objectLoop_end (w := []) isWs_nil n (skipComma_other hw3 (by decide) (by decide) hg)
  | @members w k w1 w2 v w3 s hw hk hw1 hw2 hv hw3 _ ih ihs =>
    intro n m f rest hf
    have hcur : f.cur = w ++ (k ++ (w1 ++ ch ':' :: (w2 ++ (v ++ (w3 ++ ch ',' :: (s ++ ch '}' :: rest)))))) := by
      show f.cur = w ++ (k ++ (w1 ++ 58 :: (w2 ++ (v ++ (w3 ++ 44 :: (s ++ ch '}' :: rest))))))
      simpa using hf
    refine yields_objectLoop_round (r := w3 ++ ch ',' :: (s ++ ch '}' :: rest)) hw hk hw1 (fun g hg => ?_) hcur
      fun n g hg => ?_
    · exact ih m g w2 _ hw2 hg (follows_append hw3 (by simp))
    · exact ihs n m _ rest (skipComma_comma hw3 hg)

/-- An object is accepted whatever follows it. -/
theorem yields_object {s : Bytes} (h : IsObject s) {n : ℕ} {f : Frozen} {w rest : Bytes} (hw : IsWs w)
    (hf : f.cur = w ++ (s ++ rest)) : Yields (parseValue n f) rest := by
  rcases isObject_cases h with ⟨u, hu, rfl⟩ | ⟨t, ht, rfl⟩
  · have hcur : f.cur = w ++ ch '{' :: (u ++ ch '}' :: rest) := by
      show f.cur = w ++ 123 :: (u ++ 125 :: rest)
      simpa using hf
    refine yields_parseValue hw hcur (by decide) fun n g hg _ => ?_
    rw [if_neg (by decide), if_pos rfl]
    exact yields_bracket (by decide) (by decide) (fun l hl => yields_objectLoop_end hu n hl) hg
  · have hcur : f.cur = w ++ ch '{' :: (t ++ ch '}' :: rest) := by
      show f.cur = w ++ 123 :: (t ++ 125 :: rest)
      simpa using hf
    refine yields_parseValue hw hcur (by decide) fun n g hg _ => ?_
    rw [if_neg (by decide), if_pos rfl]
    exact yields_bracket (by decide) (by decide) (fun l hl => accepted_of_jsonText ht n n l rest hl) hg

/-- **`json_walk` accepts every object of the grammar**, unless a path does not fit. -/
theorem jsonWalk_object {s : Bytes} (h : IsObject s) : (jsonWalk s).1 = .ok ∨ (jsonWalk s).1 = .undef := by
  have hne : s ≠ [] := by
    rintro rfl
    cases h.2
  have hf := jsonWalk_ne_fuel s
  have hy : Yields (jsonWalk s) [] := by
    rw [jsonWalk, if_neg hne]
    exact yields_object h (w := []) isWs_nil (by simp [startState])
  rcases hy with h1 | h1 | ⟨g, h1, -⟩
  · exact absurd h1 hf
  · exact .inr h1
  · exact .inl (by rw [h1])

end Thronix.Json
