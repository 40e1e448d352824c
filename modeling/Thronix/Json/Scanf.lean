import Thronix.Json.Parsed

/-!
# Thronix.Json.Scanf — `json_scanf` of `json/frozen.c`

* `directives`: the loop of `json_vscanf` over its format: the path and the conversion of every `%`.  The
  conversions are the three the application uses, `%d`, `%B` and `%Q`; a format with another one is outside the
  model (`none`).
* `jsonScanfCb`: the callback.  `%d` is a `sscanf` on the text from the token on, which the token's length does not
  bound: it reads up to the first NUL, past the end of the input.  `tail` is what the memory holds there.
* `jsonScanf` counts conversions and ignores what `json_walk` returns, as the source does.
* `scan_eq`: on the events of a parse, the count is the number of `values` and the target holds the last of them.
-/

namespace Thronix.Json

open Lib

/-! ## `sscanf` with `%d` -/

/-- `isspace` in the C locale. -/
def isCSpace (c : UInt8) : Bool := c == 32 || (9 ≤ c && c ≤ 13)

/-- What `sscanf(.., "%d", ..)` does: `EOF`, no match, or the number it read. -/
inductive Sscanf
  | eof
  | fail
  | val (v : ℤ)
  deriving DecidableEq, Repr

/-- The digits of `%d`, after its sign. -/
def sscanfDigits (neg : Bool) (s : Bytes) : Sscanf :=
  if s.takeWhile isDigit = [] then .fail
  else .val (if neg then -(natOfDigits (s.takeWhile isDigit) : ℤ) else natOfDigits (s.takeWhile isDigit))

/-- `sscanf(s, "%d", ..)` on the C string at `s`. -/
def sscanfD (s : Bytes) : Sscanf :=
  match (s.takeWhile (· != 0)).dropWhile isCSpace with
  | [] => .eof
  | c :: t =>
    if c = ch '-' then sscanfDigits true t
    else if c = ch '+' then sscanfDigits false t
    else sscanfDigits false (c :: t)

/-! ## `json_unescape` -/

/-- What `json_unescape` writes for the character after a backslash.  `strchr` also finds the terminator of
`esc1`. -/
def unescapeChar (c : UInt8) : Option UInt8 :=
  if c = ch '"' then some (ch '"')
  else if c = ch '\\' then some (ch '\\')
  else if c = ch '/' then some (ch '/')
  else if c = ch 'b' then some 8
  else if c = ch 'f' then some 12
  else if c = ch 'n' then some 10
  else if c = ch 'r' then some 13
  else if c = ch 't' then some 9
  else if c = 0 then some 0
  else none

/-- `json_unescape`: the bytes written, or `none` for a negative code. -/
def jsonUnescape : Bytes → Option Bytes
  | [] => some []
  | [c] => if c = ch '\\' then none else some [c]
  | c :: d :: t =>
    if c = ch '\\' then
      match unescapeChar d with
      | none => none
      | some x => (jsonUnescape t).map (x :: ·)
    else (jsonUnescape (d :: t)).map (c :: ·)

/-! ## The format -/

/-- The conversions the application uses. -/
inductive Conversion
  | d
  | B
  | Q
  deriving DecidableEq, Repr

/-- One `%` of a format: `info.path` and `info.type`. -/
structure Directive where
  path : Bytes
  conv : Conversion
  deriving DecidableEq, Repr

/-- `strrchr(path, '.')`: the part of the path before its last dot. -/
def beforeDot (path : Bytes) : Option Bytes :=
  match path.reverse.dropWhile (· != ch '.') with
  | [] => none
  | _ :: t => some t.reverse

/-- The loop of `json_vscanf` over the format. -/
def formatLoop : ℕ → Bytes → Bytes → Option (List Directive)
  | 0, _, _ => none
  | _ + 1, _, [] => some []
  | n + 1, path, c :: t =>
    if c = ch '{' then formatLoop n (path ++ str ".") t
    else if c = ch '}' then formatLoop n ((beforeDot path).getD path) t
    else if c = ch '%' then
      match t with
      | [] => none
      | ty :: u =>
        if ty = ch 'B' then (formatLoop n path u).map (⟨path, .B⟩ :: ·)
        else if ty = ch 'Q' then (formatLoop n path u).map (⟨path, .Q⟩ :: ·)
        else if t.takeWhile (· ∉ str ", \t\r\n]\x7d") = str "d" then
          (formatLoop n path (u.dropWhile (· ∈ str ", \t\r\n]\x7d"))).map (⟨path, .d⟩ :: ·)
        else none
    else if isAlpha c ∨ 1 < getUtf8CharLen c then
      formatLoop n
        (((beforeDot path).elim path (· ++ str ".")) ++ (c :: t).takeWhile (· ∉ str ": \r\n\t"))
        (((c :: t).dropWhile (· ∉ str ": \r\n\t")).dropWhile (· ∈ str ": \r\n\t"))
    else formatLoop n path t

def directives (fmt : Bytes) : Option (List Directive) := formatLoop (fmt.length + 1) [] fmt

/-! ## The callback -/

/-- What a conversion leaves in its target. -/
inductive Target
  | int (v : ℤ)
  | bool (b : Bool)
  | str (s : Bytes)
  deriving DecidableEq, Repr

/-- `struct json_scanf_info`: the counter, and what was stored through `target` last. -/
structure JsonScanfInfo where
  numConversions : ℤ
  target : Option Target
  deriving DecidableEq, Repr

/-- `json_scanf_cb`. -/
def jsonScanfCb (dir : Directive) (tail : Bytes) (info : JsonScanfInfo) (e : Event) : JsonScanfInfo :=
  if e.path ≠ dir.path then info
  else
    match e.token.ptr with
    | none => info
    | some p =>
      match dir.conv with
      | .B => ⟨info.numConversions + 1, some (.bool (e.token.type = .tru))⟩
      | .Q =>
        match jsonUnescape (p.take e.token.len) with
        | none => info
        | some s => ⟨info.numConversions + 1, some (.str s)⟩
      | .d =>
        match sscanfD (p ++ tail) with
        | .eof => ⟨info.numConversions - 1, info.target⟩
        | .fail => info
        | .val v => ⟨info.numConversions + 1, some (.int v)⟩

/-- The walk of one directive. -/
def scan (dir : Directive) (tail : Bytes) (es : List Event) : JsonScanfInfo :=
  es.foldl (jsonScanfCb dir tail) ⟨0, none⟩

/-- `json_scanf(s, len, fmt, ..)`: the number of conversions, and what each target holds (`none`: untouched).  `none`
when C gives the call no meaning. -/
def jsonScanf (s tail fmt : Bytes) : Option (ℤ × List (Option Target)) :=
  match directives fmt with
  | none => none
  | some ds =>
    if (jsonWalk s).1 = .undef then none
    else
      let infos := ds.map fun dir => scan dir tail (events s)
      some ((infos.map JsonScanfInfo.numConversions).sum, infos.map JsonScanfInfo.target)

/-! ## What is counted -/

/-- The value a directive gets from a token. -/
def Directive.value (dir : Directive) (tail : Bytes) (e : Event) : Option Target :=
  if e.path ≠ dir.path then none
  else
    match e.token.ptr with
    | none => none
    | some p =>
      match dir.conv with
      | .B => some (.bool (e.token.type = .tru))
      | .Q => (jsonUnescape (p.take e.token.len)).map .str
      | .d =>
        match sscanfD (p ++ tail) with
        | .val v => some (.int v)
        | _ => none

/-- The values of a directive, in the order of the callbacks. -/
def values (dir : Directive) (tail : Bytes) (es : List Event) : List Target := es.filterMap (dir.value tail)

theorem dropWhile_blanks {c : UInt8} (hc : 32 < c) (k : ℕ) (t : Bytes) :
    ((List.replicate k 32 ++ c :: t).takeWhile (· != 0)).dropWhile isCSpace = c :: t.takeWhile (· != 0) := by
  have hc0 : (c != 0) = true := by
    simp only [bne_iff_ne, ne_eq]
    rintro rfl
    exact absurd hc (by decide)
  have hcs : isCSpace c = false := by
    unfold isCSpace
    grind
  induction k with
  | zero =>
    rw [List.replicate_zero, List.nil_append, List.takeWhile_cons_of_pos (by simpa using hc0),
      List.dropWhile_cons_of_neg (by simp [hcs])]
  | succ k ih =>
    rw [List.replicate_succ, List.cons_append, List.takeWhile_cons_of_pos (by decide),
      List.dropWhile_cons_of_pos (by decide), ih]

/-- A token of the parser is never an empty string to `sscanf`. -/
theorem sscanfD_ne_eof {p : Bytes} (hp : Solid p) (tail : Bytes) : sscanfD (p ++ tail) ≠ .eof := by
  obtain ⟨k, c, t, rfl, hc⟩ := hp
  unfold sscanfD
  rw [List.append_assoc, List.cons_append, dropWhile_blanks hc]
  simp only [sscanfDigits]
  split_ifs <;> simp

/-- One callback counts exactly when the token has a value. -/
theorem jsonScanfCb_eq (dir : Directive) (tail : Bytes) (info : JsonScanfInfo) {e : Event}
    (he : ∀ p, e.token.ptr = some p → Solid p) :
    jsonScanfCb dir tail info e =
      match dir.value tail e with
      | none => info
      | some v => ⟨info.numConversions + 1, some v⟩ := by
  unfold jsonScanfCb Directive.value
  split_ifs with hp
  · rfl
  · rcases hptr : e.token.ptr with _ | p
    · rfl
    · rcases dir.conv with _ | _ | _
      · have hne := sscanfD_ne_eof (he p hptr) tail
        rcases hv : sscanfD (p ++ tail) with _ | _ | v
        · exact absurd hv hne
        · simp only [hv]
        · simp only [hv]
      · rfl
      · rcases hv : jsonUnescape (p.take e.token.len) with _ | s
        · simp only [hv, Option.map_none]
        · simp only [hv, Option.map_some]

theorem foldl_jsonScanfCb (dir : Directive) (tail : Bytes) (es : List Event)
    (he : ∀ e ∈ es, ∀ p, e.token.ptr = some p → Solid p) (info : JsonScanfInfo) :
    es.foldl (jsonScanfCb dir tail) info =
      ⟨info.numConversions + (values dir tail es).length, (values dir tail es).getLast?.or info.target⟩ := by
  induction es generalizing info with
  | nil => simp [values]
  | cons e es ih =>
    rw [List.foldl_cons, jsonScanfCb_eq dir tail info (he e (by simp)), ih fun e h => he e (by simp [h])]
    unfold values
    rcases hv : dir.value tail e with _ | v
    · rw [List.filterMap_cons_none hv]
    · rw [List.filterMap_cons_some hv, List.length_cons]
      simp only [JsonScanfInfo.mk.injEq, List.getLast?_cons]
      refine ⟨by omega, ?_⟩
      rcases (es.filterMap (dir.value tail)).getLast? with _ | w <;> rfl

/-- **What `json_scanf` computes** for a format with one conversion. -/
theorem jsonScanf_eq {fmt : Bytes} {dir : Directive} (hf : directives fmt = some [dir]) {s : Bytes}
    (hs : (jsonWalk s).1 ≠ .undef) (tail : Bytes) :
    jsonScanf s tail fmt =
      some (((values dir tail (events s)).length : ℤ), [(values dir tail (events s)).getLast?]) := by
  have h := foldl_jsonScanfCb dir tail (events s) (fun e he p hp => ((eventOk_of_mem_events he).text p hp).2) ⟨0, none⟩
  simp only [jsonScanf, hf, if_neg hs, List.map_cons, List.map_nil, List.sum_cons, List.sum_nil, scan, h, zero_add,
    add_zero, Option.or_none]

/-! ## Values of tokens -/

/-- Text without a backslash unescapes to itself. -/
theorem jsonUnescape_plain {s : Bytes} (hs : ch '\\' ∉ s) : jsonUnescape s = some s := by
  fun_induction jsonUnescape s with
  | case1 => rfl
  | case2 => simp at hs
  | case3 c hc => rfl
  | case4 => simp at hs
  | case5 => simp at hs
  | case6 c d t hc ih =>
    rw [ih fun h => hs (by simp [h])]
    rfl

theorem takeWhile_digits {ds r : Bytes} (hd : ∀ c ∈ ds, digit c = true)
    (hr : ∀ c, r.head? = some c → isDigit c = false) : (ds ++ r).takeWhile isDigit = ds := by
  rw [List.takeWhile_append_of_pos (p := isDigit) fun c hc => hd c hc]
  rcases r with _ | ⟨c, t⟩
  · simp
  · rw [List.takeWhile_cons_of_neg (by simp [hr c rfl]), List.append_nil]

/-- The fraction and exponent part begins with no digit. -/
theorem head_tailText (v : JsonNumber) {r : Bytes} (hr : ∀ c, r.head? = some c → isDigit c = false) :
    ∀ c, (v.tailText ++ r).head? = some c → isDigit c = false := by
  intro c hc
  unfold JsonNumber.tailText at hc
  by_cases hf : v.frac = []
  · rw [if_pos hf, List.nil_append] at hc
    rcases hx : v.exp with _ | x
    · rw [hx] at hc
      exact hr c hc
    · rw [hx] at hc
      have hlc : x.letter = c := Option.some.inj hc
      rcases x.letter_ok with h | h <;> rw [← hlc, h] <;> decide
  · rw [if_neg hf] at hc
    cases hc
    decide

/-- **`%d` reads the integer part of a number**, whatever the memory holds behind it. -/
theorem sscanfD_number (v : JsonNumber) {r : Bytes} (hr : ∀ c, r.head? = some c → isDigit c = false) :
    sscanfD (v.text ++ r) = .val v.lead := by
  obtain ⟨hne, hd⟩ := v.int_ok
  obtain ⟨d, t, hint⟩ := List.exists_cons_of_ne_nil hne
  have hdd : digit d = true := hd d (by simp [hint])
  have hd0 : d ≠ 0 ∧ isCSpace d = false ∧ d ≠ ch '-' ∧ d ≠ ch '+' := by
    unfold digit at hdd
    unfold isCSpace
    refine ⟨?_, ?_, ?_, ?_⟩
    · rintro rfl; simp at hdd
    · grind
    · rintro rfl; exact absurd hdd (by decide)
    · rintro rfl; exact absurd hdd (by decide)
  have hnz : ∀ c ∈ v.int, (c != 0) = true := by
    intro c hc
    have := hd c hc
    simp only [bne_iff_ne, ne_eq]
    rintro rfl
    exact absurd this (by decide)
  -- the C string keeps the digits, and what follows them is no digit
  have hcut : (v.int ++ (v.tailText ++ r)).takeWhile (· != 0) = v.int ++ (v.tailText ++ r).takeWhile (· != 0) :=
    List.takeWhile_append_of_pos hnz
  have hend : ∀ c, ((v.tailText ++ r).takeWhile (· != 0)).head? = some c → isDigit c = false := by
    intro c hc
    apply head_tailText v hr
    rcases h : v.tailText ++ r with _ | ⟨a, u⟩
    · rw [h] at hc
      cases hc
    · rw [h] at hc
      by_cases ha : (a != 0) = true
      · rw [List.takeWhile_cons_of_pos (by simpa using ha)] at hc
        exact hc
      · rw [List.takeWhile_cons_of_neg (by simpa using ha)] at hc
        cases hc
  have hdigits : ∀ neg, sscanfDigits neg (v.int ++ (v.tailText ++ r).takeWhile (· != 0)) =
      .val (if neg then -(natOfDigits v.int : ℤ) else natOfDigits v.int) := by
    intro neg
    unfold sscanfDigits
    rw [takeWhile_digits hd hend, if_neg hne]
  unfold sscanfD JsonNumber.lead
  rcases hn : v.neg with _ | _
  · have htext : (v.text ++ r).takeWhile (· != 0) = d :: (t ++ (v.tailText ++ r).takeWhile (· != 0)) := by
      simp only [JsonNumber.text, hn, Bool.false_eq_true, if_false, List.nil_append, List.append_assoc, hcut]
      rw [hint]
      rfl
    rw [htext, List.dropWhile_cons_of_neg (by simp [hd0.2.1])]
    simp only [if_neg hd0.2.2.1, if_neg hd0.2.2.2]
    have := hdigits false
    rw [hint] at this ⊢
    exact this
  · have htext : (v.text ++ r).takeWhile (· != 0) = ch '-' :: (v.int ++ (v.tailText ++ r).takeWhile (· != 0)) := by
      simp only [JsonNumber.text, hn, if_true, List.append_assoc, List.cons_append, List.nil_append]
      rw [List.takeWhile_cons_of_pos (by decide), hcut]
      rfl
    rw [htext, List.dropWhile_cons_of_neg (by decide)]
    simp only [if_true]
    exact hdigits true

/-- A byte at which `%d` stops for good. -/
def Stops (c : UInt8) : Prop := c ≠ 0 ∧ isCSpace c = false ∧ isDigit c = false ∧ c ≠ ch '-' ∧ c ≠ ch '+'

theorem takeWhile_stop {p : UInt8 → Bool} {a : Bytes} {c : UInt8} (hc : p c = false) (t : Bytes) :
    (a ++ c :: t).takeWhile p = a.takeWhile p := by
  induction a with
  | nil => exact List.takeWhile_cons_of_neg (by simp [hc])
  | cons b a ih =>
    by_cases hb : p b = true
    · rw [List.cons_append, List.takeWhile_cons_of_pos hb, List.takeWhile_cons_of_pos hb, ih]
    · rw [List.cons_append, List.takeWhile_cons_of_neg hb, List.takeWhile_cons_of_neg hb]

theorem sscanfDigits_stops {c : UInt8} (hc : Stops c) (neg : Bool) (a t t' : Bytes) :
    sscanfDigits neg (a ++ c :: t) = sscanfDigits neg (a ++ c :: t') := by
  unfold sscanfDigits
  rw [takeWhile_stop hc.2.2.1, takeWhile_stop hc.2.2.1]

/-- Behind a byte at which it stops, the memory does not matter to `%d`. -/
theorem sscanfD_stops {a : Bytes} {c : UInt8} (hc : Stops c) (t t' : Bytes) :
    sscanfD (a ++ c :: t) = sscanfD (a ++ c :: t') := by
  by_cases h0 : ∀ x ∈ a, (x != 0) = true
  · have hcut : ∀ u, (a ++ c :: u).takeWhile (· != 0) = a ++ c :: u.takeWhile (· != 0) := fun u => by
      rw [List.takeWhile_append_of_pos h0, List.takeWhile_cons_of_pos (by simpa using hc.1)]
    unfold sscanfD
    rw [hcut, hcut]
    generalize t.takeWhile (· != 0) = u
    generalize t'.takeWhile (· != 0) = u'
    rcases hd : a.dropWhile isCSpace with _ | ⟨d, b⟩
    · -- the stop is the first byte that is no space
      have hdrop : ∀ w, (a ++ c :: w).dropWhile isCSpace = c :: w := fun w => by
        rw [List.dropWhile_append, if_pos (by simp [hd]), List.dropWhile_cons_of_neg (by simp [hc.2.1])]
      rw [hdrop, hdrop]
      simp only [if_neg hc.2.2.2.1, if_neg hc.2.2.2.2]
      exact sscanfDigits_stops hc false [] u u'
    · have hdrop : ∀ w, (a ++ c :: w).dropWhile isCSpace = d :: (b ++ c :: w) := fun w => by
        rw [List.dropWhile_append, if_neg (by simp [hd]), hd]
        rfl
      rw [hdrop, hdrop]
      simp only
      rw [sscanfDigits_stops hc true b u u', sscanfDigits_stops hc false b u u',
        show sscanfDigits false (d :: (b ++ c :: u)) = sscanfDigits false (d :: (b ++ c :: u')) from
          sscanfDigits_stops hc false (d :: b) u u']
  · -- a NUL ends the string before the stop
    push Not at h0
    obtain ⟨x, hx, hx0⟩ := h0
    have hx0' : x = 0 := by simpa using hx0
    obtain ⟨b, e, rfl⟩ := List.append_of_mem hx
    have hcut : ∀ u, ((b ++ x :: e) ++ c :: u).takeWhile (· != 0) = b.takeWhile (· != 0) := fun u => by
      rw [List.append_assoc, List.cons_append, takeWhile_stop (by simp [hx0'])]
    unfold sscanfD
    rw [hcut, hcut]

/-- The integer read, if any. -/
def Sscanf.int? : Sscanf → Option ℤ
  | .val v => some v
  | _ => none

/-- A string that ends where `%d` stops is read as if it ended there. -/
theorem sscanfD_stop {a : Bytes} {c : UInt8} (hc : Stops c) (t : Bytes) :
    (sscanfD (a ++ c :: t)).int? = (sscanfD a).int? := by
  have hdigits : ∀ (neg : Bool) (b u : Bytes), sscanfDigits neg (b ++ c :: u) = sscanfDigits neg b := fun neg b u => by
    unfold sscanfDigits
    rw [takeWhile_stop hc.2.2.1]
  by_cases h0 : ∀ x ∈ a, (x != 0) = true
  · have hcut : (a ++ c :: t).takeWhile (· != 0) = a ++ c :: t.takeWhile (· != 0) := by
      rw [List.takeWhile_append_of_pos h0, List.takeWhile_cons_of_pos (by simpa using hc.1)]
    have hcut' : a.takeWhile (· != 0) = a := List.takeWhile_eq_self_iff.mpr h0
    unfold sscanfD
    rw [hcut, hcut']
    generalize t.takeWhile (· != 0) = u
    rcases hd : a.dropWhile isCSpace with _ | ⟨d, b⟩
    · -- nothing but spaces before the stop
      rw [List.dropWhile_append, if_pos (by simp [hd]), List.dropWhile_cons_of_neg (by simp [hc.2.1])]
      simp only [if_neg hc.2.2.2.1, if_neg hc.2.2.2.2]
      rw [show sscanfDigits false (c :: u) = sscanfDigits false [] from hdigits false [] u]
      rfl
    · rw [List.dropWhile_append, if_neg (by simp [hd]), hd, List.cons_append]
      simp only
      rw [hdigits true b u, hdigits false b u,
        show sscanfDigits false (d :: (b ++ c :: u)) = sscanfDigits false (d :: b) from hdigits false (d :: b) u]
  · -- a NUL ends the string before the stop
    push Not at h0
    obtain ⟨x, hx, hx0⟩ := h0
    have hx0' : x = 0 := by simpa using hx0
    obtain ⟨b, e, rfl⟩ := List.append_of_mem hx
    have hcut : ((b ++ x :: e) ++ c :: t).takeWhile (· != 0) = b.takeWhile (· != 0) := by
      rw [List.append_assoc, List.cons_append, takeWhile_stop (by simp [hx0'])]
    have hcut' : (b ++ x :: e).takeWhile (· != 0) = b.takeWhile (· != 0) := takeWhile_stop (by simp [hx0']) e
    unfold sscanfD
    rw [hcut, hcut']

theorem stops_of_mark {c : UInt8} (hc : Mark c) : Stops c := by
  rcases hc with rfl | rfl | rfl | hc
  · refine ⟨?_, ?_, ?_, ?_, ?_⟩ <;> decide
  · refine ⟨?_, ?_, ?_, ?_, ?_⟩ <;> decide
  · refine ⟨?_, ?_, ?_, ?_, ?_⟩ <;> decide
  · unfold isAlpha at hc
    refine ⟨?_, ?_, ?_, ?_, ?_⟩
    · rintro rfl
      exact absurd hc (by decide)
    · unfold isCSpace
      grind
    · unfold isDigit
      grind
    · rintro rfl
      exact absurd hc (by decide)
    · rintro rfl
      exact absurd hc (by decide)

/-- A value other than a number is read to its end, whatever the memory holds behind it. -/
theorem sscanfD_marked {p : Bytes} {len : ℕ} (hm : MarkAt p len) (tail : Bytes) :
    (sscanfD (p ++ tail)).int? = (sscanfD (p.take len)).int? := by
  obtain ⟨a, c, t, rfl, hlen, hc⟩ := hm
  have hs := stops_of_mark hc
  rw [List.append_assoc, List.cons_append, sscanfD_stop hs]
  rcases Nat.eq_or_lt_of_le hlen with h | h
  · rw [← h, List.take_left]
  · obtain ⟨n, rfl⟩ := Nat.exists_eq_add_of_lt h
    rw [List.take_append, List.take_of_length_le hlen, show a.length + n + 1 - a.length = n + 1 by omega,
      List.take_succ_cons, sscanfD_stop hs]

/-! ## The three conversions

`ints`, `bools` and `strs` are the values reported under a path, in the order of the callbacks. -/

section Typed

variable (path tail : Bytes)

/-- The number `%d` reads at an event. -/
def intAt (e : Event) : Option ℤ :=
  if e.path ≠ path then none
  else e.token.ptr.bind fun p => match sscanfD (p ++ tail) with
    | .val v => some v
    | _ => none

/-- The boolean `%B` reads at an event. -/
def boolAt (e : Event) : Option Bool :=
  if e.path ≠ path then none else e.token.ptr.map fun _ => decide (e.token.type = .tru)

/-- The string `%Q` reads at an event. -/
def strAt (e : Event) : Option Bytes :=
  if e.path ≠ path then none else e.token.ptr.bind fun p => jsonUnescape (p.take e.token.len)

def ints (s : Bytes) : List ℤ := (events s).filterMap (intAt path tail)

def bools (s : Bytes) : List Bool := (events s).filterMap (boolAt path)

def strs (s : Bytes) : List Bytes := (events s).filterMap (strAt path)

theorem values_of_value {α : Type} {dir : Directive} {g : Event → Option α} {k : α → Target}
    (h : ∀ e, dir.value tail e = (g e).map k) (es : List Event) : values dir tail es = (es.filterMap g).map k := by
  unfold values
  rw [List.map_filterMap]
  exact congrFun (congrArg _ (funext h)) es

theorem values_d (es : List Event) : values ⟨path, .d⟩ tail es = (es.filterMap (intAt path tail)).map .int := by
  refine values_of_value tail (fun e => ?_) es
  unfold Directive.value intAt
  split_ifs
  · rfl
  · rcases e.token.ptr with _ | p
    · rfl
    · simp only [Option.bind_some]
      rcases sscanfD (p ++ tail) with _ | _ | v <;> rfl

theorem values_B (es : List Event) : values ⟨path, .B⟩ tail es = (es.filterMap (boolAt path)).map .bool := by
  refine values_of_value tail (fun e => ?_) es
  unfold Directive.value boolAt
  split_ifs
  · rfl
  · rcases e.token.ptr with _ | p <;> rfl

theorem values_Q (es : List Event) : values ⟨path, .Q⟩ tail es = (es.filterMap (strAt path)).map .str := by
  refine values_of_value tail (fun e => ?_) es
  unfold Directive.value strAt
  split_ifs
  · rfl
  · rcases e.token.ptr with _ | p <;> rfl

end Typed

end Thronix.Json
