import Thronix.Json.Walk
import Thronix.Lib.JsonText
import Mathlib.Data.List.TakeWhile
import Mathlib.Tactic.Common

/-!
# Thronix.Json.WalkSpec — what the parser functions do to their state

One specification for all of them, `Parsed f r`: the call on `f` with result `r` only appends callbacks to the log,
each about a part of the text at `cur`, and on success it puts the path back and leaves a suffix of the text behind
every token it reported.

* `Wf`: the path buffer holds `min path_len 58` characters.  On such a state the empty append of `SET_STATE` changes
  nothing (`appendToPath_nil`), so the leaf parsers have short equations.
* `Parsed.andThen` composes; `parsed_scope` is an append and the truncation that takes it back.
* `jsonWalk_ne_fuel`: the fuel of `jsonWalk` suffices.
-/

namespace Thronix.Json

open Lib

theorem Code.Negative.ne_ok {c : Code} (h : c.Negative) : c ≠ .ok := by
  rcases h with rfl | rfl <;> simp

theorem Code.Negative.ne_fuel {c : Code} (h : c.Negative) : c ≠ .fuel := by
  rcases h with rfl | rfl <;> simp

theorem Code.Negative.ne_undef {c : Code} (h : c.Negative) : c ≠ .undef := by
  rcases h with rfl | rfl <;> simp

/-! ## The path buffer -/

/-- The string in the buffer has `path_len` characters, or the 58 that fit. -/
def Wf (f : Frozen) : Prop := f.path.length = min f.pathLen 58

theorem Wf.congr {f g : Frozen} (hw : Wf f) (hp : g.path = f.path) (hl : g.pathLen = f.pathLen) : Wf g := by
  unfold Wf at *
  rw [hp, hl, hw]

theorem wf_startState (s : Bytes) : Wf (startState s) := rfl

theorem appendToPath_nil {f : Frozen} (hw : Wf f) :
    appendToPath f [] = if 60 ≤ f.pathLen then none else some f := by
  simp only [appendToPath, upToNul, List.takeWhile_nil]
  split_ifs with h1 h2
  · rfl
  · simp
  · have : f.path.take f.pathLen = f.path := List.take_of_length_le (by rw [hw]; omega)
    simp [this]

/-- An append extends the path, and the truncation to the old length takes it back. -/
theorem appendToPath_some {f g : Frozen} {s : Bytes} (hw : Wf f) (h : appendToPath f s = some g) :
    Wf g ∧ f.path <+: g.path ∧ g.path.take f.pathLen = f.path ∧ g.cur = f.cur ∧ g.log = f.log := by
  have hlen : f.path.length ≤ f.pathLen := by rw [hw]; omega
  simp only [appendToPath] at h
  generalize upToNul s = s at h
  split_ifs at h with h1 h2
  · cases h
    refine ⟨?_, List.prefix_refl _, List.take_of_length_le hlen, rfl, rfl⟩
    unfold Wf at *
    simp only
    omega
  · cases h
    have htk : f.path.take f.pathLen = f.path := List.take_of_length_le hlen
    refine ⟨?_, ?_, ?_, rfl, rfl⟩
    · unfold Wf at *
      simp only [htk, List.length_append, List.length_take]
      omega
    · simp only [htk]
      exact List.prefix_append _ _
    · have hpl : f.path.length = f.pathLen ∨ s.take (58 - f.pathLen) = [] := by
        by_cases h58 : f.pathLen ≤ 58
        · left; rw [hw]; omega
        · right; rw [show 58 - f.pathLen = 0 by omega, List.take_zero]
      simp only [htk]
      rcases hpl with hpl | hpl
      · rw [← hpl, List.take_left]
      · rw [hpl, List.append_nil, htk]

theorem truncatePath_self {f : Frozen} (hw : Wf f) : truncatePath f f.pathLen = f := by
  have : f.path.take f.pathLen = f.path := List.take_of_length_le (by rw [hw]; omega)
  simp [truncatePath, this]

@[simp] theorem callBack_cur (f : Frozen) (tok : JsonTokenType) (v : Option Bytes) (n : ℕ) :
    (callBack f tok v n).cur = f.cur := by unfold callBack; split_ifs <;> rfl

@[simp] theorem callBack_path (f : Frozen) (tok : JsonTokenType) (v : Option Bytes) (n : ℕ) :
    (callBack f tok v n).path = f.path := by unfold callBack; split_ifs <;> rfl

@[simp] theorem callBack_pathLen (f : Frozen) (tok : JsonTokenType) (v : Option Bytes) (n : ℕ) :
    (callBack f tok v n).pathLen = f.pathLen := by unfold callBack; split_ifs <;> rfl

/-- A callback adds at most its own event. -/
theorem callBack_log (f : Frozen) (tok : JsonTokenType) (v : Option Bytes) (n : ℕ) :
    ∃ es, (callBack f tok v n).log = f.log ++ es ∧ ∀ e ∈ es, e = ⟨f.path, ⟨v, n, tok⟩⟩ := by
  unfold callBack
  split_ifs
  · exact ⟨_, rfl, fun e he => by simpa using he⟩
  · exact ⟨[], by simp, by simp⟩

theorem Wf.callBack {f : Frozen} (hw : Wf f) (tok : JsonTokenType) (v : Option Bytes) (n : ℕ) :
    Wf (Json.callBack f tok v n) := hw.congr (callBack_path _ _ _ _) (callBack_pathLen _ _ _ _)

theorem Wf.skipWhitespaces {f : Frozen} (hw : Wf f) : Wf (Json.skipWhitespaces f) := hw

theorem Wf.skipComma {f : Frozen} (hw : Wf f) : Wf (Json.skipComma f) := by
  unfold Json.skipComma
  split
  · exact hw
  · split_ifs <;> exact hw

/-! ## The specification -/

/-- The text of a token begins, after blanks, with a visible byte. -/
def Solid (p : Bytes) : Prop := ∃ k c t, p = List.replicate k 32 ++ c :: t ∧ 32 < c

theorem solid_cons {c : UInt8} (hc : 32 < c) (t : Bytes) : Solid (c :: t) := ⟨0, c, t, rfl, hc⟩

/-- `p` begins with a number of `len` bytes, and no digit follows it. -/
def NumberAt (p : Bytes) (len : ℕ) : Prop :=
  ∃ (v : JsonNumber) (rest : Bytes), p = v.text ++ rest ∧ v.text.length = len ∧
    ∀ c, rest.head? = some c → isDigit c = false

/-- A byte that begins a value other than a number, or ends a string. -/
def Mark (c : UInt8) : Prop := c = ch '"' ∨ c = ch '{' ∨ c = ch '[' ∨ isAlpha c = true

/-- Such a byte is in the value of `len` bytes at `p`, or is the next one. -/
def MarkAt (p : Bytes) (len : ℕ) : Prop := ∃ a c t, p = a ++ c :: t ∧ a.length ≤ len ∧ Mark c

theorem markAt_cons {c : UInt8} (hc : Mark c) (t : Bytes) (len : ℕ) : MarkAt (c :: t) len :=
  ⟨[], c, t, rfl, Nat.zero_le _, hc⟩

/-- The byte a value ends at is such a byte. -/
theorem markAt_of_suffix {s t : Bytes} {c : UInt8} (hs : c :: t <:+ s) (hc : Mark c) :
    MarkAt s (s.length - (c :: t).length) := by
  obtain ⟨a, rfl⟩ := hs
  refine ⟨a, c, t, rfl, ?_, hc⟩
  rw [List.length_append]
  omega

/-- What a parser started in `f` may report. -/
structure EventOk (f : Frozen) (e : Event) : Prop where
  path : f.path <+: e.path
  text : ∀ p, e.token.ptr = some p → p <:+ f.cur ∧ Solid p
  number : e.token.type = .number → ∃ p, e.token.ptr = some p ∧ NumberAt p e.token.len
  mark : e.token.type ≠ .number → ∀ p, e.token.ptr = some p → MarkAt p e.token.len

theorem EventOk.mono {f g : Frozen} {e : Event} (h : EventOk g e) (hp : f.path <+: g.path) (hc : g.cur <:+ f.cur) :
    EventOk f e :=
  ⟨hp.trans h.path, fun p h1 => ⟨(h.text p h1).1.trans hc, (h.text p h1).2⟩, h.number, h.mark⟩

/-- **The specification** of a call on `f` with result `r`. -/
structure Parsed (f : Frozen) (r : Code × Frozen) : Prop where
  log : ∃ es, r.2.log = f.log ++ es ∧ (∀ e ∈ es, EventOk f e) ∧
    (r.1 = .ok → ∀ e ∈ es, ∀ p, e.token.ptr = some p → r.2.cur <:+ p.drop e.token.len)
  cur : r.2.cur <:+ f.cur
  path : r.1 = .ok → r.2.path = f.path ∧ r.2.pathLen = f.pathLen

/-- A call that reports nothing. -/
theorem parsed_of_log_eq {f : Frozen} {r : Code × Frozen} (hl : r.2.log = f.log) (hc : r.2.cur <:+ f.cur)
    (hp : r.1 = .ok → r.2.path = f.path ∧ r.2.pathLen = f.pathLen) : Parsed f r :=
  ⟨⟨[], by simp [hl], by simp, by simp⟩, hc, hp⟩

/-- A failed call that reports nothing. -/
theorem parsed_fail {f g : Frozen} {c : Code} (hl : g.log = f.log) (hc : g.cur <:+ f.cur) (hne : c ≠ .ok) :
    Parsed f (c, g) :=
  parsed_of_log_eq hl hc fun h => absurd h hne

theorem Parsed.wf {f g : Frozen} (h : Parsed f (.ok, g)) (hw : Wf f) : Wf g :=
  hw.congr (h.path rfl).1 (h.path rfl).2

/-- Two calls in a row. -/
theorem Parsed.append {f g : Frozen} {r : Code × Frozen} (h1 : Parsed f (.ok, g)) (h2 : Parsed g r) : Parsed f r := by
  obtain ⟨⟨es1, l1, e1, d1⟩, c1, p1⟩ := h1
  obtain ⟨⟨es2, l2, e2, d2⟩, c2, p2⟩ := h2
  have hpath : f.path <+: g.path := (p1 rfl).1 ▸ List.prefix_refl _
  refine ⟨⟨es1 ++ es2, by rw [l2, l1, List.append_assoc], ?_, ?_⟩, c2.trans c1, fun hr => ?_⟩
  · intro e he
    rcases List.mem_append.mp he with he | he
    · exact e1 e he
    · exact (e2 e he).mono hpath c1
  · intro hr e he p hp
    rcases List.mem_append.mp he with he | he
    · exact c2.trans (d1 rfl e he p hp)
    · exact d2 hr e he p hp
  · exact ⟨(p2 hr).1.trans (p1 rfl).1, (p2 hr).2.trans (p1 rfl).2⟩

/-- The specification of a call that starts further on in the text. -/
theorem Parsed.from_suffix {f g : Frozen} {r : Code × Frozen} (h : Parsed g r) (hl : g.log = f.log)
    (hp : g.path = f.path) (hn : g.pathLen = f.pathLen) (hc : g.cur <:+ f.cur) : Parsed f r :=
  (parsed_of_log_eq (r := (.ok, g)) hl hc fun _ => ⟨hp, hn⟩).append h

theorem Parsed.skipWs {f : Frozen} {r : Code × Frozen} (h : Parsed (skipWhitespaces f) r) : Parsed f r :=
  h.from_suffix rfl rfl rfl (List.dropWhile_suffix _)

theorem Parsed.skipComma {f : Frozen} {r : Code × Frozen} (h : Parsed (Json.skipComma f) r) : Parsed f r := by
  have hs : f.cur.dropWhile isSpace <:+ f.cur := List.dropWhile_suffix _
  unfold Json.skipComma at h
  split at h
  · exact h.from_suffix rfl rfl rfl List.nil_suffix
  · next c t ht =>
    rw [ht] at hs
    split_ifs at h
    · exact h.from_suffix rfl rfl rfl ((List.suffix_cons _ _).trans hs)
    · exact h.from_suffix rfl rfl rfl hs

theorem Parsed.andThen {p k : Parser} {f h : Frozen} (hp : Parsed f (p h))
    (hk : ∀ g, p h = (.ok, g) → Parsed g (k g)) : Parsed f (Json.andThen p k h) := by
  unfold Json.andThen
  cases hr : p h with
  | mk c g =>
    rw [hr] at hp
    cases c with
    | ok => exact hp.append (hk g hr)
    | _ => exact hp

theorem andThen_assoc (p q k : Parser) : andThen (andThen p q) k = andThen p (andThen q k) := by
  funext f
  unfold andThen
  rcases p f with ⟨c, g⟩
  cases c <;> rfl

/-- A successful sequence is two successful calls. -/
theorem andThen_ok {p k : Parser} {f h : Frozen} (hr : andThen p k f = (.ok, h)) :
    ∃ g, p f = (.ok, g) ∧ k g = (.ok, h) := by
  unfold andThen at hr
  rcases hp : p f with ⟨c, g⟩
  rw [hp] at hr
  cases c with
  | ok => exact ⟨g, rfl, hr⟩
  | _ => simp at hr

theorem andThen_of_ok {p k : Parser} {f g : Frozen} (hp : p f = (.ok, g)) : andThen p k f = k g := by
  simp [andThen, hp]

/-- An append to the path, a call, and the truncation that takes the append back. -/
theorem parsed_scope (body : Parser) {f g : Frozen} {s : Bytes} (hw : Wf f) (hg : appendToPath f s = some g)
    (hb : Parsed g (body g)) :
    Parsed f (andThen body (fun l => (.ok, truncatePath l f.pathLen)) g) := by
  obtain ⟨-, hpre, htake, hcur, hlog⟩ := appendToPath_some hw hg
  obtain ⟨⟨es, l1, e1, d1⟩, c1, p1⟩ := hb
  have hev : ∀ e ∈ es, EventOk f e := fun e he => (e1 e he).mono hpre (hcur ▸ List.suffix_refl _)
  unfold andThen
  rcases hr : body g with ⟨c, l⟩
  rw [hr] at l1 d1 c1 p1
  cases c with
  | ok =>
    refine ⟨⟨es, by rw [← hlog]; exact l1, hev, fun _ => d1 rfl⟩, by rw [← hcur]; exact c1, fun _ => ⟨?_, rfl⟩⟩
    show l.path.take f.pathLen = f.path
    rw [(p1 rfl).1, htake]
  | _ => exact ⟨⟨es, by rw [← hlog]; exact l1, hev, fun h => by cases h⟩, by rw [← hcur]; exact c1, fun h => by cases h⟩

/-- A successful call followed by the report of the text from `s` to `rest`. -/
theorem Parsed.callBack {f k : Frozen} {tok : JsonTokenType} {s rest : Bytes} (h : Parsed f (.ok, k))
    (hs : s <:+ f.cur) (hrest : rest <:+ s) (hk : k.cur <:+ rest) (hsol : Solid s)
    (hnum : tok = .number → NumberAt s (s.length - rest.length))
    (hmark : tok ≠ .number → MarkAt s (s.length - rest.length)) :
    Parsed f (.ok, Json.callBack k tok (some s) (s.length - rest.length)) := by
  obtain ⟨⟨es1, l1, e1, d1⟩, c1, p1⟩ := h
  obtain ⟨es, hl, hes⟩ := callBack_log k tok (some s) (s.length - rest.length)
  have hdrop : s.drop (s.length - rest.length) = rest := by
    obtain ⟨a, rfl⟩ := hrest
    simp
  refine ⟨⟨es1 ++ es, ?_, fun e he => ?_, fun _ e he p hp => ?_⟩, by simpa using c1, fun _ => by simpa using p1 rfl⟩
  · show (Json.callBack k tok (some s) (s.length - rest.length)).log = _
    rw [hl, show k.log = f.log ++ es1 from l1, List.append_assoc]
  · rcases List.mem_append.mp he with he | he
    · exact e1 e he
    · rw [hes e he]
      refine ⟨?_, fun p hp => ?_, fun ht => ⟨s, rfl, hnum ht⟩, fun ht p hp => ?_⟩
      · exact (show k.path = f.path from (p1 rfl).1) ▸ List.prefix_refl _
      · cases hp
        exact ⟨hs, hsol⟩
      · cases hp
        exact hmark ht
  · rw [callBack_cur]
    rcases List.mem_append.mp he with he | he
    · exact d1 rfl e he p hp
    · rw [hes e he] at hp ⊢
      cases hp
      show k.cur <:+ s.drop (s.length - rest.length)
      rw [hdrop]
      exact hk

/-- A callback without a text. -/
theorem parsed_callBack_none (f : Frozen) (tok : JsonTokenType) (ht : tok ≠ .number) (n : ℕ) :
    Parsed f (.ok, Json.callBack f tok none n) := by
  obtain ⟨es, hl, hes⟩ := callBack_log f tok none n
  refine ⟨⟨es, hl, fun e he => ?_, fun _ e he p hp => ?_⟩, by simp, fun _ => by simp⟩
  · rw [hes e he]
    exact ⟨List.prefix_refl _, fun p hp => absurd hp (by simp), fun h => absurd h ht,
      fun _ p hp => absurd hp (by simp)⟩
  · rw [hes e he] at hp
    cases hp

theorem callBack_with_cur (f : Frozen) (c : Bytes) (tok : JsonTokenType) (v : Option Bytes) (n : ℕ) :
    Json.callBack { f with cur := c } tok v n = { Json.callBack f tok v n with cur := c } := by
  unfold Json.callBack
  split_ifs <;> rfl

/-! ## The scanners -/

theorem dropWhile_white (s : Bytes) : s.dropWhile isSpace <:+ s := List.dropWhile_suffix _

/-- `stringEnd` stops at a closing quote. -/
theorem stringEnd_spec {k : ℕ} {s r : Bytes} (h : stringEnd k s = .ok r) : ∃ t, r = ch '"' :: t ∧ r <:+ s := by
  fun_induction stringEnd k s with
  | case1 => simp at h
  | case2 k c t ih =>
    obtain ⟨u, rfl, hs⟩ := ih h
    exact ⟨u, rfl, hs.trans (List.suffix_cons _ _)⟩
  | case3 => simp at h
  | case4 => simp at h
  | case5 => simp at h
  | case6 t _ _ n _ ih =>
    obtain ⟨u, rfl, hs⟩ := ih h
    exact ⟨u, rfl, hs.trans (List.suffix_cons _ _)⟩
  | case7 t _ _ _ =>
    simp only [Except.ok.injEq] at h
    exact ⟨t, h.symm, h ▸ List.suffix_refl _⟩
  | case8 c t _ _ _ _ ih =>
    obtain ⟨u, rfl, hs⟩ := ih h
    exact ⟨u, rfl, hs.trans (List.suffix_cons _ _)⟩

/-- The text of an accepted string begins with a visible byte after blanks. -/
theorem stringEnd_solid {s r : Bytes} (h : stringEnd 0 s = .ok r) : Solid s := by
  induction s with
  | nil => simp [stringEnd] at h
  | cons c t ih =>
    by_cases hc : c = 32
    · subst hc
      have h2 : stringEnd 0 t = .ok r := by
        unfold stringEnd at h
        split_ifs at h with h1 h2 h3 h4
        · exact absurd h3 (by decide)
        · exact absurd h4 (by decide)
        · exact h
      obtain ⟨k, d, u, rfl, hd⟩ := ih h2
      exact ⟨k + 1, d, u, by simp [List.replicate_succ], hd⟩
    · refine solid_cons ?_ t
      unfold stringEnd at h
      split_ifs at h with h1
      all_goals exact UInt8.lt_of_le_of_ne (UInt8.not_lt.mp h1) (Ne.symm hc)

theorem head_dropWhile {p : UInt8 → Bool} {s : Bytes} {c : UInt8} (h : (s.dropWhile p).head? = some c) :
    p c = false := by
  have := List.head?_dropWhile_not p s
  rw [h] at this
  simpa using this

/-- `digits1` takes a nonempty, maximal run of digits. -/
theorem digits1_spec {s r : Bytes} (h : digits1 s = .ok r) :
    ∃ ds, s = ds ++ r ∧ Digits ds ∧ ∀ c, r.head? = some c → isDigit c = false := by
  cases s with
  | nil => simp [digits1] at h
  | cons c t =>
    simp only [digits1] at h
    split_ifs at h with hc
    simp only [Except.ok.injEq] at h
    subst h
    refine ⟨c :: t.takeWhile isDigit, by simp, ⟨by simp, fun d hd => ?_⟩, fun d hd => head_dropWhile hd⟩
    rcases List.mem_cons.mp hd with rfl | hd
    · exact hc
    · exact List.mem_takeWhile_imp hd

theorem fracEnd_spec {s r : Bytes} (h : fracEnd s = .ok r) (hs : ∀ c, s.head? = some c → isDigit c = false) :
    ∃ fs, s = (if fs = [] then [] else 46 :: fs) ++ r ∧ (∀ c ∈ fs, digit c = true) ∧
      ∀ c, r.head? = some c → isDigit c = false := by
  cases s with
  | nil =>
    simp only [fracEnd, Except.ok.injEq] at h
    subst h
    exact ⟨[], by simp, by simp, by simp⟩
  | cons c t =>
    simp only [fracEnd] at h
    split_ifs at h with hc
    · obtain ⟨ds, rfl, hd, hr⟩ := digits1_spec h
      exact ⟨ds, by rw [if_neg hd.1, hc]; rfl, hd.2, hr⟩
    · simp only [Except.ok.injEq] at h
      subst h
      exact ⟨[], by simp, by simp, hs⟩

theorem expEnd_spec {s r : Bytes} (h : expEnd s = .ok r) (hs : ∀ c, s.head? = some c → isDigit c = false) :
    ∃ x : Option JsonExp, s = JsonExp.optText x ++ r ∧
      ∀ c, r.head? = some c → isDigit c = false := by
  cases s with
  | nil =>
    simp only [expEnd, Except.ok.injEq] at h
    subst h
    exact ⟨none, by simp [JsonExp.optText], by simp⟩
  | cons c t =>
    simp only [expEnd] at h
    split_ifs at h with hc
    · have hc' : c = 101 ∨ c = 69 := hc
      cases t with
      | nil => simp at h
      | cons d u =>
        simp only at h
        split_ifs at h with hd
        · obtain ⟨ds, rfl, hds, hr⟩ := digits1_spec h
          have hd' : some d = some 43 ∨ some d = some (45 : UInt8) := by
            rcases hd with rfl | rfl
            · exact .inl rfl
            · exact .inr rfl
          exact ⟨some ⟨c, some d, ds, hc', .inr hd', hds⟩, by simp [JsonExp.optText, JsonExp.text], hr⟩
        · obtain ⟨ds, hu, hds, hr⟩ := digits1_spec h
          exact ⟨some ⟨c, none, ds, hc', .inl rfl, hds⟩, by simp [JsonExp.optText, JsonExp.text, hu], hr⟩
    · simp only [Except.ok.injEq] at h
      subst h
      exact ⟨none, by simp [JsonExp.optText], hs⟩

theorem skipMinus_spec (s : Bytes) : ∃ neg : Bool, s = (if neg then [45] else []) ++ skipMinus s := by
  cases s with
  | nil => exact ⟨false, rfl⟩
  | cons c t =>
    simp only [skipMinus]
    split_ifs with hc
    · exact ⟨true, by rw [hc]; rfl⟩
    · exact ⟨false, rfl⟩

/-- `numberEnd` takes a number. -/
theorem numberEnd_spec {s r : Bytes} (h : numberEnd s = .ok r) :
    ∃ v : JsonNumber, s = v.text ++ r ∧ ∀ c, r.head? = some c → isDigit c = false := by
  unfold numberEnd at h
  cases h1 : digits1 (skipMinus s) with
  | error e => rw [h1] at h; cases h
  | ok s1 =>
    rw [h1] at h
    cases h2 : fracEnd s1 with
    | error e => simp only [bind, Except.bind, h2] at h; cases h
    | ok s2 =>
      simp only [bind, Except.bind, h2] at h
      obtain ⟨neg, hneg⟩ := skipMinus_spec s
      obtain ⟨ds, hds, hd, hr1⟩ := digits1_spec h1
      obtain ⟨fs, hfs, hf, hr2⟩ := fracEnd_spec h2 hr1
      obtain ⟨x, hx, hr3⟩ := expEnd_spec h hr2
      refine ⟨⟨neg, ds, fs, x, hd, hf⟩, ?_, hr3⟩
      rw [hneg, hds, hfs, hx]
      simp [JsonNumber.text, JsonNumber.tailText]

/-! The scanners fail with one of the two codes of the source. -/

theorem getEscapeLen_error {s : Bytes} {n : ℕ} {e : Code} (h : getEscapeLen s n = .error e) : e.Negative := by
  rcases s with _ | ⟨c, t⟩
  · simp only [getEscapeLen, Except.error.injEq] at h
    exact .inl h.symm
  · simp only [getEscapeLen] at h
    split_ifs at h <;> simp only [Except.error.injEq] at h <;> subst h <;> simp [Code.Negative]

theorem stringEnd_error {k : ℕ} {s : Bytes} {e : Code} (h : stringEnd k s = .error e) : e.Negative := by
  fun_induction stringEnd k s with
  | case1 => cases h; exact .inr rfl
  | case2 _ _ _ ih => exact ih h
  | case3 => cases h; exact .inl rfl
  | case4 => cases h; exact .inr rfl
  | case5 _ _ _ e' he =>
    cases h
    exact getEscapeLen_error he
  | case6 _ _ _ _ _ ih => exact ih h
  | case7 => cases h
  | case8 _ _ _ _ _ _ ih => exact ih h

theorem digits1_error {s : Bytes} {e : Code} (h : digits1 s = .error e) : e.Negative := by
  rcases s with _ | ⟨c, t⟩
  · cases h; exact .inr rfl
  · simp only [digits1] at h
    split_ifs at h
    cases h; exact .inl rfl

theorem fracEnd_error {s : Bytes} {e : Code} (h : fracEnd s = .error e) : e.Negative := by
  rcases s with _ | ⟨c, t⟩
  · cases h
  · simp only [fracEnd] at h
    split_ifs at h
    exact digits1_error h

theorem expEnd_error {s : Bytes} {e : Code} (h : expEnd s = .error e) : e.Negative := by
  rcases s with _ | ⟨c, _ | ⟨d, u⟩⟩
  · cases h
  · simp only [expEnd] at h
    split_ifs at h
    cases h; exact .inr rfl
  · simp only [expEnd] at h
    split_ifs at h
    · exact digits1_error h
    · exact digits1_error h

theorem numberEnd_error {s : Bytes} {e : Code} (h : numberEnd s = .error e) : e.Negative := by
  unfold numberEnd at h
  cases h1 : digits1 (skipMinus s) with
  | error e1 =>
    rw [h1] at h
    cases h
    exact digits1_error h1
  | ok s1 =>
    cases h2 : fracEnd s1 with
    | error e2 =>
      simp only [bind, Except.bind, h1, h2] at h
      cases h
      exact fracEnd_error h2
    | ok s2 =>
      simp only [bind, Except.bind, h1, h2] at h
      exact expEnd_error h

theorem litEnd_error {a s : Bytes} {e : Code} (h : litEnd a s = .error e) : e.Negative := by
  induction a generalizing s with
  | nil => cases h
  | cons b a ih =>
    rcases s with _ | ⟨c, t⟩
    · cases h; exact .inr rfl
    · simp only [litEnd] at h
      split_ifs at h
      · exact ih h
      · cases h; exact .inl rfl

/-- The text of a number begins with a visible byte. -/
theorem solid_number (v : JsonNumber) (r : Bytes) : Solid (v.text ++ r) := by
  obtain ⟨hne, hd⟩ := v.int_ok
  obtain ⟨c, t, hc⟩ := List.exists_cons_of_ne_nil hne
  have hcd : digit c = true := hd c (by simp [hc])
  unfold JsonNumber.text
  split_ifs with hn
  · exact solid_cons (by decide) _
  · rw [hc]
    refine solid_cons (UInt8.lt_of_lt_of_le (by decide : (32 : UInt8) < 48) ?_) _
    simp only [digit, Bool.and_eq_true, decide_eq_true_eq] at hcd
    exact hcd.1

theorem litEnd_spec {a s r : Bytes} (h : litEnd a s = .ok r) : s = a ++ r := by
  induction a generalizing s with
  | nil => simpa [litEnd] using h
  | cons b a ih =>
    cases s with
    | nil => simp [litEnd] at h
    | cons c t =>
      unfold litEnd at h
      split_ifs at h with hc
      rw [hc, ih h]
      rfl

end Thronix.Json
