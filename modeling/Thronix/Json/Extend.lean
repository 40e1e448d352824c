import Thronix.Json.Fuel

/-!
# Thronix.Json.Extend — a text accepted before its end is accepted however it goes on

`f.extend t` is the state `f` with the bytes `t` after the end of its input (and of every text in its log).

* `Extends p q`: where `p` succeeds with input left over, `q` does the same on the extended input.  `q` is `p` with
  more fuel.
* Strings and objects end in a byte of their own, so they need no input left over.
-/

namespace Thronix.Json

open Lib

/-! ## Extended states -/

def JsonToken.extend (t : Bytes) (k : JsonToken) : JsonToken := { k with ptr := k.ptr.map (· ++ t) }

def Event.extend (t : Bytes) (e : Event) : Event := { e with token := e.token.extend t }

def Frozen.extend (t : Bytes) (f : Frozen) : Frozen :=
  { f with cur := f.cur ++ t, log := f.log.map (Event.extend t) }

section State

variable (t : Bytes)

@[simp] theorem extend_cur (f : Frozen) : (f.extend t).cur = f.cur ++ t := rfl

@[simp] theorem extend_path (f : Frozen) : (f.extend t).path = f.path := rfl

@[simp] theorem extend_pathLen (f : Frozen) : (f.extend t).pathLen = f.pathLen := rfl

theorem extend_callBack (f : Frozen) (tok : JsonTokenType) (v : Option Bytes) (n : ℕ) :
    callBack (f.extend t) tok (v.map (· ++ t)) n = (callBack f tok v n).extend t := by
  unfold callBack
  change (if f.pathLen = 0 ∨ f.path[f.pathLen - 1]? ≠ some (ch '.') then _ else _) = _
  split_ifs
  · simp [Frozen.extend, Event.extend, JsonToken.extend]
  · rfl

theorem extend_appendToPath (f : Frozen) (s : Bytes) :
    appendToPath (f.extend t) s = (appendToPath f s).map (Frozen.extend t) := by
  simp only [appendToPath]
  change (if 60 ≤ f.pathLen then _ else if f.pathLen = 59 then _ else _) = _
  split_ifs <;> rfl

theorem extend_truncatePath (f : Frozen) (n : ℕ) :
    truncatePath (f.extend t) n = (truncatePath f n).extend t := rfl

variable {t}

theorem dropWhile_extend {p : UInt8 → Bool} {s : Bytes} (h : s.dropWhile p ≠ []) :
    (s ++ t).dropWhile p = s.dropWhile p ++ t := by
  rw [List.dropWhile_append, if_neg (by simpa using h)]

theorem extend_skipWhitespaces {f : Frozen} (h : (skipWhitespaces f).cur ≠ []) :
    skipWhitespaces (f.extend t) = (skipWhitespaces f).extend t := by
  simp only [skipWhitespaces, Frozen.extend] at h ⊢
  rw [dropWhile_extend h]

theorem skipWhitespaces_nil {f : Frozen} (h : f.cur = []) : (skipWhitespaces f).cur = [] := by
  show f.cur.dropWhile isSpace = []
  rw [h]
  rfl

theorem extend_skipComma {f : Frozen} (h : (skipComma f).cur ≠ []) :
    skipComma (f.extend t) = (skipComma f).extend t := by
  rcases hd : f.cur.dropWhile isSpace with _ | ⟨c, u⟩
  · exact absurd (by simp [skipComma, hd]) h
  · have he : (f.extend t).cur.dropWhile isSpace = c :: (u ++ t) := by
      show (f.cur ++ t).dropWhile isSpace = _
      rw [dropWhile_extend (by simp [hd]), hd]
      rfl
    simp only [skipComma, hd, he]
    by_cases hc : c = ch ','
    · rw [if_pos hc, if_pos hc]
      rfl
    · rw [if_neg hc, if_neg hc]
      rfl

end State

/-! ## The scanners -/

section Scanners

variable {t : Bytes}

theorem getEscapeLen_extend {s : Bytes} {n k m : ℕ} (hn : n ≤ s.length + 1) (hm : n ≤ m)
    (h : getEscapeLen s n = .ok k) : getEscapeLen (s ++ t) m = .ok k := by
  rcases s with _ | ⟨c, u⟩
  · cases h
  · simp only [List.length_cons] at hn
    simp only [getEscapeLen, List.cons_append] at h ⊢
    by_cases hu : c = ch 'u'
    · rw [if_pos hu] at h ⊢
      by_cases h6 : n < 6
      · rw [if_pos h6] at h
        cases h
      · rw [if_neg h6] at h
        rw [if_neg (by omega), List.take_append_of_le_length (by omega)]
        exact h
    · rw [if_neg hu] at h ⊢
      by_cases he : c ∈ str "\"\\/bfnrt"
      · rw [if_pos he] at h ⊢
        by_cases h2 : n < 2
        · rw [if_pos h2] at h
          cases h
        · rw [if_neg h2] at h
          rw [if_neg (by omega)]
          exact h
      · rw [if_neg he] at h
        cases h

theorem stringEnd_extend {k : ℕ} {s r : Bytes} (h : stringEnd k s = .ok r) :
    stringEnd k (s ++ t) = .ok (r ++ t) := by
  fun_induction stringEnd k s with
  | case1 => cases h
  | case2 k c u ih => exact ih h
  | case3 => cases h
  | case4 => cases h
  | case5 => cases h
  | case6 u _ h0 h1 hn ih =>
    have he := getEscapeLen_extend (t := t) (m := u.length + t.length + 1) (by simp) (by simp) hn
    have h1' : ¬ (ch '\\' :: (u ++ t)).length ≤ getUtf8CharLen (ch '\\') := by
      simp only [List.length_cons, List.length_append] at h1 ⊢
      omega
    rw [List.cons_append, stringEnd, if_neg (by decide), if_neg h1', if_pos rfl]
    simp only [List.length_cons, List.length_append, he]
    exact ih h
  | case7 u _ h1 _ =>
    cases h
    have h1' : ¬ (ch '"' :: (u ++ t)).length ≤ getUtf8CharLen (ch '"') := by
      simp only [List.length_cons, List.length_append] at h1 ⊢
      omega
    rw [List.cons_append, stringEnd, if_neg (by decide), if_neg h1', if_neg (by decide), if_pos rfl]
  | case8 c u h0 h1 h2 h3 ih =>
    have h1' : ¬ (c :: (u ++ t)).length ≤ getUtf8CharLen c := by
      simp only [List.length_cons, List.length_append] at h1 ⊢
      omega
    rw [List.cons_append, stringEnd, if_neg h0, if_neg h1', if_neg h2, if_neg h3]
    exact ih h

theorem digits1_extend {s r : Bytes} (h : digits1 s = .ok r) (hr : r ≠ []) : digits1 (s ++ t) = .ok (r ++ t) := by
  rcases s with _ | ⟨c, u⟩
  · cases h
  · simp only [digits1, List.cons_append] at h ⊢
    by_cases hc : isDigit c = true
    · rw [if_pos hc] at h ⊢
      cases h
      rw [dropWhile_extend hr]
    · rw [if_neg hc] at h
      cases h

theorem fracEnd_extend {s r : Bytes} (h : fracEnd s = .ok r) (hr : r ≠ []) : fracEnd (s ++ t) = .ok (r ++ t) := by
  rcases s with _ | ⟨c, u⟩
  · cases h
    exact absurd rfl hr
  · simp only [fracEnd, List.cons_append] at h ⊢
    by_cases hc : c = ch '.'
    · rw [if_pos hc] at h ⊢
      exact digits1_extend h hr
    · rw [if_neg hc] at h ⊢
      cases h
      rfl

theorem expEnd_extend {s r : Bytes} (h : expEnd s = .ok r) (hr : r ≠ []) : expEnd (s ++ t) = .ok (r ++ t) := by
  rcases s with _ | ⟨c, u⟩
  · cases h
    exact absurd rfl hr
  · simp only [expEnd, List.cons_append] at h ⊢
    by_cases hc : c = ch 'e' ∨ c = ch 'E'
    · rw [if_pos hc] at h ⊢
      rcases u with _ | ⟨d, w⟩
      · cases h
      · simp only [List.cons_append] at h ⊢
        by_cases hd : d = ch '+' ∨ d = ch '-'
        · rw [if_pos hd] at h ⊢
          exact digits1_extend h hr
        · rw [if_neg hd] at h ⊢
          exact digits1_extend h hr
    · rw [if_neg hc] at h ⊢
      cases h
      rfl

theorem skipMinus_extend {s : Bytes} (hs : s ≠ []) : skipMinus (s ++ t) = skipMinus s ++ t := by
  rcases s with _ | ⟨c, u⟩
  · exact absurd rfl hs
  · simp only [skipMinus, List.cons_append]
    split_ifs <;> rfl

theorem numberEnd_extend {s r : Bytes} (h : numberEnd s = .ok r) (hr : r ≠ []) :
    numberEnd (s ++ t) = .ok (r ++ t) := by
  have hs : s ≠ [] := by
    rintro rfl
    cases h
  unfold numberEnd at h ⊢
  rw [skipMinus_extend hs]
  cases h1 : digits1 (skipMinus s) with
  | error e =>
    rw [h1] at h
    cases h
  | ok s1 =>
    rw [h1] at h
    cases h2 : fracEnd s1 with
    | error e =>
      simp only [bind, Except.bind, h2] at h
      cases h
    | ok s2 =>
      simp only [bind, Except.bind, h2] at h
      -- nothing is left over after a part when nothing was before it
      have hs2 : s2 ≠ [] := by
        rintro rfl
        cases h
        exact hr rfl
      have hs1 : s1 ≠ [] := by
        rintro rfl
        cases h2
        exact hs2 rfl
      simp only [bind, Except.bind, digits1_extend h1 hs1, fracEnd_extend h2 hs2, expEnd_extend h hr]

theorem litEnd_extend {a s r : Bytes} (h : litEnd a s = .ok r) : litEnd a (s ++ t) = .ok (r ++ t) := by
  induction a generalizing s with
  | nil =>
    cases h
    rfl
  | cons b a ih =>
    rcases s with _ | ⟨c, u⟩
    · cases h
    · simp only [litEnd, List.cons_append] at h ⊢
      by_cases hc : c = b
      · rw [if_pos hc] at h ⊢
        exact ih h
      · rw [if_neg hc] at h
        cases h

end Scanners

/-! ## The parser functions -/

/-- Where `p` succeeds with input left over, `q` does the same on the extended input. -/
def Extends (p q : Parser) : Prop :=
  ∀ f g t, p f = (.ok, g) → g.cur ≠ [] → q (f.extend t) = (.ok, g.extend t)

theorem testAndSkip_extend {c : UInt8} {f g : Frozen} (t : Bytes) (h : testAndSkip c f = (.ok, g)) :
    testAndSkip c (f.extend t) = (.ok, g.extend t) := by
  obtain ⟨u, hu, rfl⟩ := testAndSkip_ok h
  have he : (f.extend t).cur.dropWhile isSpace = c :: (u ++ t) := by
    show (f.cur ++ t).dropWhile isSpace = _
    rw [dropWhile_extend (by simp [hu]), hu]
    rfl
  simp only [testAndSkip, he, if_true]
  rfl

theorem parseString_extend {f g : Frozen} (t : Bytes) (h : parseString f = (.ok, g)) :
    parseString (f.extend t) = (.ok, g.extend t) := by
  obtain ⟨a, ha, h⟩ := andThen_ok h
  unfold parseString
  rw [andThen_of_ok (testAndSkip_extend t ha), extend_appendToPath]
  rcases hb : appendToPath a [] with _ | b
  · rw [hb] at h
    cases h
  · rw [hb] at h
    simp only at h
    rcases hr : stringEnd 0 a.cur with e | r
    · rw [hr] at h
      have := (stringEnd_error hr).ne_ok
      simp only [Prod.mk.injEq] at h
      exact absurd h.1 this
    · rw [hr] at h
      obtain ⟨u, rfl, hs⟩ := stringEnd_spec hr
      simp only [Prod.mk.injEq, true_and] at h
      rw [← h]
      have hr' : stringEnd 0 (a.extend t).cur = .ok (ch '"' :: u ++ t) := stringEnd_extend hr
      simp only [Option.map_some, hr', Prod.mk.injEq, true_and]
      have hlen : (a.extend t).cur.length - (ch '"' :: u ++ t).length = a.cur.length - (ch '"' :: u).length := by
        show (a.cur ++ t).length - _ = _
        simp only [List.length_append]
        omega
      rw [hlen]
      show { callBack ((truncatePath b a.pathLen).extend t) .string ((some a.cur).map (· ++ t)) _ with
        cur := (ch '"' :: u ++ t).tail } = _
      rw [extend_callBack]
      rfl

theorem parseIdentifier_extend : Extends parseIdentifier parseIdentifier := by
  intro f g t h hne
  have hsuf : g.cur <:+ (skipWhitespaces f).cur.dropWhile isIdentifierChar ∧ (skipWhitespaces f).cur ≠ [] := by
    unfold parseIdentifier at h
    simp only at h
    split at h
    · cases h
    · next c u hc =>
      refine ⟨?_, by rw [hc]; simp⟩
      split_ifs at h
      · split at h
        · cases h
        · simp only [Prod.mk.injEq, true_and] at h
          rw [← h, callBack_cur]
          exact List.suffix_refl _
      · cases h
  have hrest : (skipWhitespaces f).cur.dropWhile isIdentifierChar ≠ [] := by
    intro h0
    rw [h0] at hsuf
    exact hne (List.suffix_nil.mp hsuf.1)
  unfold parseIdentifier at h ⊢
  rw [extend_skipWhitespaces hsuf.2]
  generalize skipWhitespaces f = a at h hsuf hrest ⊢
  simp only at h ⊢
  rcases hc : a.cur with _ | ⟨c, u⟩
  · exact absurd hc hsuf.2
  · have he : (a.extend t).cur = c :: (u ++ t) := by
      show a.cur ++ t = _
      rw [hc]
      rfl
    rw [hc] at h hrest
    rw [he]
    simp only at h ⊢
    by_cases ha : isAlpha c = true
    · rw [if_pos ha] at h ⊢
      rw [extend_appendToPath]
      rcases hb : appendToPath a [] with _ | b
      · rw [hb] at h
        cases h
      · rw [hb] at h
        simp only [Prod.mk.injEq, true_and] at h
        rw [← h]
        have hd : (c :: (u ++ t)).dropWhile isIdentifierChar = (c :: u).dropWhile isIdentifierChar ++ t :=
          dropWhile_extend hrest
        simp only [Option.map_some, hd, Prod.mk.injEq, true_and]
        rw [← extend_callBack]
        have hlen : (c :: (u ++ t)).length - ((c :: u).dropWhile isIdentifierChar ++ t).length =
            (c :: u).length - ((c :: u).dropWhile isIdentifierChar).length := by
          simp only [List.length_cons, List.length_append]
          omega
        rw [hlen]
        rfl
    · rw [if_neg ha] at h
      cases h

theorem parseNumber_extend : Extends parseNumber parseNumber := by
  intro f g t h hne
  unfold parseNumber at h
  simp only at h
  rcases hb : appendToPath (skipWhitespaces f) [] with _ | b
  · rw [hb] at h
    cases h
  · rw [hb] at h
    simp only at h
    rcases hr : numberEnd (skipWhitespaces f).cur with e | r
    · rw [hr] at h
      have := (numberEnd_error hr).ne_ok
      simp only [Prod.mk.injEq] at h
      exact absurd h.1 this
    · rw [hr] at h
      simp only [Prod.mk.injEq, true_and] at h
      have hrne : r ≠ [] := by
        rintro rfl
        rw [← h, callBack_cur] at hne
        exact hne rfl
      have hws : (skipWhitespaces f).cur ≠ [] := by
        intro h0
        rw [h0] at hr
        cases hr
      have hr' : numberEnd ((skipWhitespaces f).extend t).cur = .ok (r ++ t) := numberEnd_extend hr hrne
      unfold parseNumber
      rw [extend_skipWhitespaces hws]
      simp only [extend_appendToPath, hb, Option.map_some, hr', Prod.mk.injEq, true_and]
      have hlen : ((skipWhitespaces f).extend t).cur.length - (r ++ t).length =
          (skipWhitespaces f).cur.length - r.length := by
        show ((skipWhitespaces f).cur ++ t).length - _ = _
        simp only [List.length_append]
        omega
      rw [← h, ← extend_callBack, hlen]
      rfl

theorem expect_extend (a : Bytes) (tok : JsonTokenType) : Extends (expect a tok) (expect a tok) := by
  intro f g t h hne
  unfold expect at h ⊢
  rw [extend_appendToPath]
  rcases hb : appendToPath f [] with _ | b
  · rw [hb] at h
    cases h
  · rw [hb] at h
    simp only [Option.map_some] at h ⊢
    rcases hr : litEnd a f.cur with e | r
    · rw [hr] at h
      have := (litEnd_error hr).ne_ok
      simp only [Prod.mk.injEq] at h
      exact absurd h.1 this
    · have hr' : litEnd a (f.extend t).cur = .ok (r ++ t) := litEnd_extend hr
      rw [hr] at h
      simp only [hr', Prod.mk.injEq, true_and] at h ⊢
      have hlen : (f.extend t).cur.length - (r ++ t).length = f.cur.length - r.length := by
        show (f.cur ++ t).length - _ = _
        simp only [List.length_append]
        omega
      rw [← h, ← extend_callBack, hlen]
      rfl

theorem parseKey_ok_ne_nil {f g : Frozen} (h : parseKey f = (.ok, g)) : (skipWhitespaces f).cur ≠ [] := by
  intro h0
  unfold parseKey at h
  simp only [h0] at h
  cases h

theorem parseKey_extend : Extends parseKey parseKey := by
  intro f g t h hne
  have hws := parseKey_ok_ne_nil h
  unfold parseKey at h ⊢
  rw [extend_skipWhitespaces hws]
  generalize skipWhitespaces f = a at h hws ⊢
  rcases hc : a.cur with _ | ⟨c, u⟩
  · exact absurd hc hws
  · have he : (a.extend t).cur = c :: (u ++ t) := by
      show a.cur ++ t = _
      rw [hc]
      rfl
    simp only [hc, he] at h ⊢
    split_ifs at h ⊢
    · exact parseIdentifier_extend a g t h hne
    · exact parseString_extend t h
    · cases h

theorem keyName_extend {tok cur : Bytes} (t : Bytes) (h : tok ≠ []) :
    keyName (tok ++ t) (cur ++ t) = keyName tok cur := by
  obtain ⟨c, u, rfl⟩ := List.exists_cons_of_ne_nil h
  have hlen : (c :: u ++ t).length - (cur ++ t).length = (c :: u).length - cur.length := by
    simp only [List.length_append]
    omega
  have hquoted : (u ++ t).take ((c :: u).length - cur.length - 2) = u.take ((c :: u).length - cur.length - 2) :=
    List.take_append_of_le_length (by rw [List.length_cons]; omega)
  have hplain : (c :: u ++ t).take ((c :: u).length - cur.length) = (c :: u).take ((c :: u).length - cur.length) :=
    List.take_append_of_le_length (Nat.sub_le _ _)
  unfold keyName
  rw [hlen, List.cons_append, List.head?_cons, List.tail_cons, List.tail_cons, hquoted, ← List.cons_append, hplain]
  rfl

theorem parsePair_ok_ne_nil {p : Parser} {f g : Frozen} (hr : parsePair p f = (.ok, g)) :
    (skipWhitespaces f).cur ≠ [] := by
  intro h0
  unfold parsePair at hr
  obtain ⟨b, hb, -⟩ := andThen_ok hr
  exact parseKey_ok_ne_nil hb (skipWhitespaces_nil h0)

theorem objectLoop_ok_ne_nil {p : Parser} {n : ℕ} {f g : Frozen} (hr : objectLoop p n f = (.ok, g)) :
    f.cur ≠ [] := by
  intro h0
  have hw := skipWhitespaces_nil h0
  rcases n with _ | n
  · cases hr
  · unfold objectLoop at hr
    simp only [hw, List.head?_nil, reduceCtorEq, if_false] at hr
    obtain ⟨b, hb, -⟩ := andThen_ok hr
    exact parsePair_ok_ne_nil hb (skipWhitespaces_nil hw)

theorem arrayLoop_ok_ne_nil {p : Parser} (hnil : ∀ f g, p f = (.ok, g) → f.cur ≠ []) {n i : ℕ} {f g : Frozen}
    (hr : arrayLoop p n i f = (.ok, g)) : (skipWhitespaces f).cur ≠ [] := by
  intro h0
  rcases n with _ | n
  · cases hr
  · unfold arrayLoop at hr
    simp only [h0, List.head?_nil, reduceCtorEq, if_false] at hr
    split at hr
    · cases hr
    · next k hk =>
      obtain ⟨b, hb, -⟩ := andThen_ok hr
      apply hnil k b hb
      rw [appendToPath_cur hk, h0]

section Nested

variable {p q : Parser} (h : Extends p q)
include h

theorem parsePair_extend : Extends (parsePair p) (parsePair q) := by
  intro f g t hr hne
  have hws := parsePair_ok_ne_nil hr
  unfold parsePair at hr ⊢
  obtain ⟨b, hb, hr⟩ := andThen_ok hr
  rw [extend_skipWhitespaces hws]
  generalize skipWhitespaces f = a at hb hr hws ⊢
  rcases hk : appendToPath b (keyName a.cur b.cur) with _ | k
  · rw [hk] at hr
    cases hr
  · rw [hk] at hr
    obtain ⟨l, hl, hr⟩ := andThen_ok hr
    obtain ⟨m, hm, hr⟩ := andThen_ok hr
    simp only [Prod.mk.injEq, true_and] at hr
    -- the key is followed by its colon, the value by what is left over
    have hbne : b.cur ≠ [] := by
      intro h0
      obtain ⟨u, hu, -⟩ := testAndSkip_ok hl
      rw [appendToPath_cur hk, h0] at hu
      cases hu
    have hmne : m.cur ≠ [] := by
      rw [← hr] at hne
      exact hne
    rw [andThen_of_ok (parseKey_extend a b t hb hbne)]
    simp only [extend_cur, keyName_extend t hws, extend_appendToPath, hk, Option.map_some]
    rw [andThen_of_ok (testAndSkip_extend t hl), andThen_of_ok (h l m t hm hmne), ← hr]
    rfl

theorem objectLoop_extend {n m : ℕ} (hnm : n ≤ m) {f g : Frozen} (t : Bytes) (hr : objectLoop p n f = (.ok, g)) :
    objectLoop q m (f.extend t) = (.ok, g.extend t) := by
  induction n generalizing m f with
  | zero => cases hr
  | succ n ih =>
    obtain ⟨m, rfl⟩ : ∃ k, m = k + 1 := ⟨m - 1, by omega⟩
    unfold objectLoop at hr ⊢
    simp only at hr ⊢
    split_ifs at hr with hc
    · have hws : (skipWhitespaces f).cur ≠ [] := by
        intro h0
        rw [h0] at hc
        cases hc
      obtain ⟨c, u, hu⟩ := List.exists_cons_of_ne_nil hws
      have hc' : ((skipWhitespaces f).extend t).cur.head? = some (ch '}') := by
        rw [← hc, extend_cur, hu]
        rfl
      rw [extend_skipWhitespaces hws, if_pos hc']
      cases hr
      rfl
    · obtain ⟨b, hb, hr⟩ := andThen_ok hr
      have hws : (skipWhitespaces f).cur ≠ [] := fun h0 => parsePair_ok_ne_nil hb (skipWhitespaces_nil h0)
      have hcomma := objectLoop_ok_ne_nil hr
      have hbne : b.cur ≠ [] := by
        intro h0
        apply hcomma
        simp [skipComma, h0]
      obtain ⟨c, u, hu⟩ := List.exists_cons_of_ne_nil hws
      have hc' : ((skipWhitespaces f).extend t).cur.head? ≠ some (ch '}') := by
        rw [extend_cur, hu]
        rw [hu] at hc
        exact hc
      rw [extend_skipWhitespaces hws, if_neg hc', andThen_of_ok (parsePair_extend h _ b t hb hbne),
        extend_skipComma hcomma]
      exact ih (by omega) hr

theorem arrayLoop_extend (hnil : ∀ f g, p f = (.ok, g) → f.cur ≠ []) {n m : ℕ} (hnm : n ≤ m) {i : ℕ} {f g : Frozen}
    (t : Bytes) (hr : arrayLoop p n i f = (.ok, g)) :
    arrayLoop q m i (f.extend t) = (.ok, g.extend t) := by
  induction n generalizing m i f with
  | zero => cases hr
  | succ n ih =>
    obtain ⟨m, rfl⟩ : ∃ k, m = k + 1 := ⟨m - 1, by omega⟩
    have hws := arrayLoop_ok_ne_nil hnil hr
    obtain ⟨c, u, hu⟩ := List.exists_cons_of_ne_nil hws
    have hhead : ((skipWhitespaces f).extend t).cur.head? = (skipWhitespaces f).cur.head? := by
      rw [extend_cur, hu]
      rfl
    unfold arrayLoop at hr ⊢
    rw [extend_skipWhitespaces hws]
    simp only [hhead] at hr ⊢
    split_ifs at hr ⊢ with hc
    · cases hr
      rfl
    · rw [extend_appendToPath]
      rcases hk : appendToPath (skipWhitespaces f) (indexName i) with _ | k
      · rw [hk] at hr
        cases hr
      · rw [hk] at hr
        simp only [Option.map_some] at hr ⊢
        obtain ⟨b, hb, hr⟩ := andThen_ok hr
        have hcomma := arrayLoop_ok_ne_nil hnil hr
        have hcomma' : (skipComma (truncatePath b (skipWhitespaces f).pathLen)).cur ≠ [] := fun h0 =>
          hcomma (skipWhitespaces_nil h0)
        have hbne : b.cur ≠ [] := by
          intro h0
          apply hcomma'
          simp [skipComma, truncatePath, h0]
        rw [andThen_of_ok (h k b t hb hbne), extend_pathLen, extend_truncatePath, extend_skipComma hcomma']
        exact ih (by omega) hr

end Nested

/-- Objects and arrays end in a byte of their own. -/
theorem bracket_extend {opening closing : UInt8} {name : Bytes} {body body' : Parser} {startTok endTok : JsonTokenType}
    {t : Bytes} (hbody : ∀ f g, body f = (.ok, g) → body' (f.extend t) = (.ok, g.extend t)) {f r : Frozen}
    (hr : andThen (testAndSkip opening) (fun f =>
      match appendToPath (callBack f startTok none 0) name with
      | none => (.undef, callBack f startTok none 0)
      | some h => andThen body (andThen (testAndSkip closing) fun k =>
          (.ok, callBack (truncatePath k f.pathLen) endTok (some (opening :: f.cur))
            ((opening :: f.cur).length - k.cur.length))) h) f = (.ok, r)) :
    andThen (testAndSkip opening) (fun f =>
      match appendToPath (callBack f startTok none 0) name with
      | none => (.undef, callBack f startTok none 0)
      | some h => andThen body' (andThen (testAndSkip closing) fun k =>
          (.ok, callBack (truncatePath k f.pathLen) endTok (some (opening :: f.cur))
            ((opening :: f.cur).length - k.cur.length))) h) (f.extend t) = (.ok, r.extend t) := by
  obtain ⟨g, hg, hr⟩ := andThen_ok hr
  rw [andThen_of_ok (testAndSkip_extend t hg)]
  have hcall : callBack (g.extend t) startTok none 0 = (callBack g startTok none 0).extend t :=
    extend_callBack t g startTok none 0
  simp only [hcall, extend_appendToPath]
  rcases hh : appendToPath (callBack g startTok none 0) name with _ | h
  · rw [hh] at hr
    cases hr
  · rw [hh] at hr
    obtain ⟨l, hl, hr⟩ := andThen_ok hr
    obtain ⟨k, hk, hr⟩ := andThen_ok hr
    simp only [Prod.mk.injEq, true_and] at hr
    simp only [Option.map_some]
    rw [andThen_of_ok (hbody h l hl), andThen_of_ok (testAndSkip_extend t hk), ← hr, ← extend_callBack]
    have hlen : (opening :: (g.extend t).cur).length - (k.extend t).cur.length =
        (opening :: g.cur).length - k.cur.length := by
      simp only [extend_cur, List.length_cons, List.length_append]
      omega
    rw [hlen]
    rfl

theorem parseValue_ok_ne_nil {n : ℕ} {f g : Frozen} (hr : parseValue n f = (.ok, g)) :
    (skipWhitespaces f).cur ≠ [] := by
  intro h0
  rcases n with _ | n
  · cases hr
  · unfold parseValue at hr
    simp only [h0] at hr
    cases hr

theorem parseValue_extend {n m : ℕ} (hnm : n ≤ m) : Extends (parseValue n) (parseValue m) := by
  induction n generalizing m with
  | zero =>
    intro f g t hr
    cases hr
  | succ n ih =>
    obtain ⟨m, rfl⟩ : ∃ k, m = k + 1 := ⟨m - 1, by omega⟩
    intro f g t hr hne
    have hws := parseValue_ok_ne_nil hr
    have hext : Extends (parseValue n) (parseValue m) := ih (by omega)
    unfold parseValue at hr ⊢
    rw [extend_skipWhitespaces hws]
    generalize skipWhitespaces f = a at hr hws ⊢
    rcases hc : a.cur with _ | ⟨c, u⟩
    · exact absurd hc hws
    · have he : (a.extend t).cur = c :: (u ++ t) := by rw [extend_cur, hc]; rfl
      simp only [hc, he] at hr ⊢
      split_ifs at hr ⊢
      · exact parseString_extend t hr
      · exact bracket_extend (fun f g hl => objectLoop_extend hext (by omega) t hl) hr
      · refine bracket_extend (fun f g hl => arrayLoop_extend hext (fun f g hv h0 => ?_) (by omega) t hl) hr
        exact parseValue_ok_ne_nil hv (skipWhitespaces_nil h0)
      · exact expect_extend _ _ a g t hr hne
      · exact expect_extend _ _ a g t hr hne
      · exact expect_extend _ _ a g t hr hne
      · exact parseNumber_extend a g t hr hne
      · cases hr

/-! ## Whole texts -/

/-- A number or literal reports at the path it is parsed at. -/
theorem parseNumber_path {f g : Frozen} (hw : Wf f) (hr : parseNumber f = (.ok, g)) :
    ∃ es, g.log = f.log ++ es ∧ ∀ e ∈ es, e.path = f.path := by
  unfold parseNumber at hr
  have hw' : Wf (skipWhitespaces f) := hw
  simp only [appendToPath_nil hw'] at hr
  split_ifs at hr with h60
  · cases hr
  · simp only at hr
    rcases hn : numberEnd (skipWhitespaces f).cur with e | r
    · rw [hn] at hr
      have := (numberEnd_error hn).ne_ok
      simp only [Prod.mk.injEq] at hr
      exact absurd hr.1 this
    · rw [hn] at hr
      simp only [Prod.mk.injEq, true_and] at hr
      rw [truncatePath_self (f := { skipWhitespaces f with cur := r }) hw'] at hr
      obtain ⟨es, hl, hes⟩ := callBack_log { skipWhitespaces f with cur := r } .number (some (skipWhitespaces f).cur)
        ((skipWhitespaces f).cur.length - r.length)
      refine ⟨es, by rw [← hr]; exact hl, fun e he => ?_⟩
      rw [hes e he]
      rfl

theorem expect_path {a : Bytes} {tok : JsonTokenType} {f g : Frozen} (hw : Wf f) (hr : expect a tok f = (.ok, g)) :
    ∃ es, g.log = f.log ++ es ∧ ∀ e ∈ es, e.path = f.path := by
  unfold expect at hr
  rw [appendToPath_nil hw] at hr
  split_ifs at hr with h60
  · cases hr
  · simp only at hr
    rcases hn : litEnd a f.cur with e | r
    · rw [hn] at hr
      have := (litEnd_error hn).ne_ok
      simp only [Prod.mk.injEq] at hr
      exact absurd hr.1 this
    · rw [hn] at hr
      simp only [Prod.mk.injEq, true_and] at hr
      rw [truncatePath_self (f := { f with cur := r }) hw] at hr
      obtain ⟨es, hl, hes⟩ := callBack_log { f with cur := r } tok (some f.cur) (f.cur.length - r.length)
      refine ⟨es, by rw [← hr]; exact hl, fun e he => ?_⟩
      rw [hes e he]

/-- An accepted value is accepted whatever follows, or it is a number or literal and reports only at its own path. -/
theorem parseValue_extend_or_scalar {n : ℕ} {f g : Frozen} (hw : Wf f) (hr : parseValue n f = (.ok, g)) :
    (∀ m t, n ≤ m → parseValue m (f.extend t) = (.ok, g.extend t)) ∨
      (skipWhitespaces f).cur.head? ≠ some (ch '{') ∧ ∃ es, g.log = f.log ++ es ∧ ∀ e ∈ es, e.path = f.path := by
  rcases n with _ | n
  · cases hr
  · have hws := parseValue_ok_ne_nil hr
    have hw' : Wf (skipWhitespaces f) := hw
    have hnil : ∀ f g, parseValue n f = (.ok, g) → f.cur ≠ [] := fun f g hv h0 =>
      parseValue_ok_ne_nil hv (skipWhitespaces_nil h0)
    obtain ⟨c, u, hc⟩ := List.exists_cons_of_ne_nil hws
    have he : ∀ t, ((skipWhitespaces f).extend t).cur = c :: (u ++ t) := fun t => by rw [extend_cur, hc]; rfl
    unfold parseValue at hr
    simp only [hc] at hr
    -- the first byte decides which function both calls go to
    have hgoal : ∀ m t, parseValue (m + 1) (f.extend t) =
        if c = ch '"' then parseString ((skipWhitespaces f).extend t)
        else if c = ch '{' then parseObject (parseValue m) m ((skipWhitespaces f).extend t)
        else if c = ch '[' then parseArray (parseValue m) m ((skipWhitespaces f).extend t)
        else if c = ch 'n' then expect (str "null") .null ((skipWhitespaces f).extend t)
        else if c = ch 't' then expect (str "true") .tru ((skipWhitespaces f).extend t)
        else if c = ch 'f' then expect (str "false") .fls ((skipWhitespaces f).extend t)
        else if c = ch '-' ∨ isDigit c then parseNumber ((skipWhitespaces f).extend t)
        else (.invalid, (skipWhitespaces f).extend t) := fun m t => by
      rw [parseValue]
      simp only [extend_skipWhitespaces hws, he]
    have hsucc : (∀ m t, n ≤ m → parseValue (m + 1) (f.extend t) = (.ok, g.extend t)) →
        ∀ m t, n + 1 ≤ m → parseValue m (f.extend t) = (.ok, g.extend t) := fun h m t hm => by
      obtain ⟨m, rfl⟩ : ∃ k, m = k + 1 := ⟨m - 1, by omega⟩
      exact h m t (by omega)
    have hhead : c ≠ ch '{' → (skipWhitespaces f).cur.head? ≠ some (ch '{') := fun hne h0 => by
      rw [hc] at h0
      exact hne (Option.some.inj h0)
    split_ifs at hr with h1 h2 h3 h4 h5 h6 h7
    · refine .inl (hsucc fun m t _ => ?_)
      rw [hgoal, if_pos h1]
      exact parseString_extend t hr
    · refine .inl (hsucc fun m t hm => ?_)
      rw [hgoal, if_neg h1, if_pos h2]
      exact bracket_extend (fun _ _ hl => objectLoop_extend (parseValue_extend hm) hm t hl) hr
    · refine .inl (hsucc fun m t hm => ?_)
      rw [hgoal, if_neg h1, if_neg h2, if_pos h3]
      exact bracket_extend (fun _ _ hl => arrayLoop_extend (parseValue_extend hm) hnil hm t hl) hr
    · exact .inr ⟨hhead h2, expect_path (f := skipWhitespaces f) hw' hr⟩
    · exact .inr ⟨hhead h2, expect_path (f := skipWhitespaces f) hw' hr⟩
    · exact .inr ⟨hhead h2, expect_path (f := skipWhitespaces f) hw' hr⟩
    · exact .inr ⟨hhead h2, parseNumber_path (f := skipWhitespaces f) hw' hr⟩
    · cases hr

/-- **An accepted text is accepted whatever follows it**, or it is no object and reports nothing under a path. -/
theorem jsonWalk_append {s : Bytes} (h : (jsonWalk s).1 = .ok) :
    (∀ t, jsonWalk (s ++ t) = (.ok, (jsonWalk s).2.extend t)) ∨
      (s.dropWhile isSpace).head? ≠ some (ch '{') ∧ ∀ e ∈ events s, e.path = [] := by
  have hne : s ≠ [] := by
    rintro rfl
    cases h
  have hw : jsonWalk s = parseValue (s.length + 1) (startState s) := if_neg hne
  have hr : parseValue (s.length + 1) (startState s) = (.ok, (jsonWalk s).2) := by
    rw [← hw, ← h]
  rcases parseValue_extend_or_scalar (wf_startState s) hr with hp | ⟨hhead, es, hl, hes⟩
  · refine .inl fun t => ?_
    have hne' : s ++ t ≠ [] := by simp [hne]
    rw [jsonWalk, if_neg hne']
    exact hp _ t (by rw [List.length_append]; omega)
  · refine .inr ⟨hhead, fun e he => ?_⟩
    unfold events at he
    rw [hl] at he
    exact hes e (by simpa [startState] using he)

end Thronix.Json
