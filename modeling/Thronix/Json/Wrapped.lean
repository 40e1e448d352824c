import Thronix.Json.Accept
import Thronix.Json.Scanf

/-!
# Thronix.Json.Wrapped — a text inside an object

`wrapped P` is the object whose only member, `payload`, is the object `P`.  The parser reports `P` at `.payload`, and
everything inside `P` at longer paths: the string read at `.payload` is `P` itself.
-/

namespace Thronix.Json

open Lib

/-- The object with the member `payload`. -/
def wrapped (p : Bytes) : Bytes := str "\x7b\"payload\": " ++ (p ++ str "\x7d")

theorem isObject_wrapped {p : Bytes} (hp : JsonText .value p) : IsObject (wrapped p) := by
  have hkey : IsString (str "\"payload\"") := ⟨str "payload", .of_ascii (by decide), by decide⟩
  have hm : JsonText .members ([] ++ (str "\"payload\"" ++ ([] ++ 58 :: (str " " ++ (p ++ []))))) :=
    .member isWs_nil hkey isWs_nil isWs_space hp isWs_nil
  refine ⟨?_, rfl⟩
  have h := JsonText.object hm
  simp only [List.append_nil, List.nil_append] at h
  have htext : wrapped p = 123 :: (str "\"payload\"" ++ 58 :: (str " " ++ p) ++ [125]) := by
    show 123 :: (str "\"payload\"" ++ 58 :: (str " " ++ (p ++ [125]))) = _
    simp
  rw [htext]
  exact h

/-- The path does not end in a dot. -/
def NoDot (f : Frozen) : Prop := f.pathLen = 0 ∨ f.path[f.pathLen - 1]? ≠ some (ch '.')

theorem callBack_noDot {f : Frozen} (h : NoDot f) (tok : JsonTokenType) (v : Option Bytes) (n : ℕ) :
    (callBack f tok v n).log = f.log ++ [⟨f.path, ⟨v, n, tok⟩⟩] := by
  unfold NoDot at h
  unfold callBack
  rw [if_pos h]

/-- What an accepted object reports: its start, its members at longer paths, and its text. -/
theorem parseObject_events {pv : Parser} (hpv : ∀ f, Wf f → Parsed f (pv f)) {n : ℕ} {f r : Frozen} (hw : Wf f)
    (hlen : f.pathLen ≤ 57) (hdot : NoDot f) {u : Bytes} (hf : f.cur = ch '{' :: u)
    (hr : parseObject pv n f = (.ok, r)) :
    ∃ es, r.log = f.log ++ (⟨f.path, ⟨none, 0, .objectStart⟩⟩ :: (es ++
        [⟨f.path, ⟨some f.cur, f.cur.length - r.cur.length, .objectEnd⟩⟩])) ∧
      ∀ e ∈ es, f.path ++ str "." <+: e.path := by
  obtain ⟨g, hg, hr⟩ := andThen_ok hr
  obtain ⟨t, ht, rfl⟩ := testAndSkip_ok hg
  have htu : t = u := by
    rw [hf, List.dropWhile_cons_of_neg (by decide)] at ht
    simpa using ht.symm
  subst htu
  have hpl : f.path.length = f.pathLen := by rw [hw]; omega
  have htake : f.path.take f.pathLen = f.path := List.take_of_length_le (by omega)
  have hwg : Wf ({ f with cur := t } : Frozen) := hw
  have happ : appendToPath (callBack { f with cur := t } .objectStart none 0) (str ".") =
      some { callBack { f with cur := t } .objectStart none 0 with
        path := f.path ++ str ".", pathLen := f.pathLen + 1 } := by
    simp only [appendToPath, callBack_pathLen, callBack_path, show upToNul (str ".") = str "." by decide]
    rw [if_neg (by omega), if_neg (by omega), htake, List.take_of_length_le (by simp [str]; omega)]
    simp [str]
  simp only at hr
  rw [happ] at hr
  obtain ⟨l, hl, hr⟩ := andThen_ok hr
  obtain ⟨k, hk, hr⟩ := andThen_ok hr
  have hwh := (appendToPath_some (hwg.callBack .objectStart none 0) happ).1
  have hbody := hl ▸ parsed_objectLoop hpv n hwh
  obtain ⟨es, hlog, hes, -⟩ := hbody.log
  obtain ⟨hpath, hplen⟩ := hbody.path rfl
  obtain ⟨t', ht', rfl⟩ := testAndSkip_ok hk
  simp only [Prod.mk.injEq, true_and] at hr
  refine ⟨es, ?_, fun e he => (hes e he).path⟩
  have hback : (truncatePath { l with cur := t' } f.pathLen).path = f.path := by
    show l.path.take f.pathLen = f.path
    rw [hpath]
    show (f.path ++ str ".").take f.pathLen = f.path
    rw [← hpl, List.take_left]
  have hnd : NoDot (truncatePath { l with cur := t' } f.pathLen) := by
    unfold NoDot
    rw [hback]
    exact hdot
  rw [← hr, callBack_noDot hnd, hback, callBack_cur, hf]
  show l.log ++ _ = _
  rw [hlog, show (callBack { f with cur := t } .objectStart none 0).log = _ from
    callBack_noDot (f := { f with cur := t }) hdot .objectStart none 0]
  simp only [List.append_assoc, List.cons_append, List.nil_append]
  rfl

section Walk

variable {p : Bytes}

theorem skipWhitespaces_self {f : Frozen} {c : UInt8} {t : Bytes} (hf : f.cur = c :: t) (hc : isSpace c = false) :
    skipWhitespaces f = f := by
  unfold skipWhitespaces
  rw [hf, List.dropWhile_cons_of_neg (by simp [hc]), ← hf]

/-- A value that begins with a brace goes to `parse_object`. -/
theorem parseValue_brace {n : ℕ} {f : Frozen} {w t : Bytes} (hw : IsWs w) (hf : f.cur = w ++ ch '{' :: t) :
    parseValue (n + 1) f = parseObject (parseValue n) n { f with cur := ch '{' :: t } := by
  have hcur := skipWhitespaces_cur hw (by decide) hf
  have hst : skipWhitespaces f = { f with cur := ch '{' :: t } := by
    rw [← hcur]
    rfl
  rw [parseValue]
  simp only [hcur]
  rw [if_neg (by decide), if_pos trivial, hst]

/-- What follows the key. -/
def afterKey (p : Bytes) : Bytes := str ": " ++ (p ++ str "\x7d")

/-- The state at the key. -/
def keyState (p : Bytes) : Frozen :=
  ⟨str "\"payload\"" ++ afterKey p, str ".", 1, [⟨[], ⟨none, 0, .objectStart⟩⟩]⟩

theorem skipWhitespaces_keyState (p : Bytes) : skipWhitespaces (keyState p) = keyState p :=
  skipWhitespaces_self (c := ch '"') (t := str "payload\"" ++ afterKey p) rfl (by decide)

theorem parseKey_payload : parseKey (keyState p) = (.ok, { keyState p with cur := afterKey p }) := by
  have hb : StringBody (str "payload") := .of_ascii (by decide)
  have hend : stringEnd 0 (str "payload" ++ ch '"' :: afterKey p) = .ok (ch '"' :: afterKey p) :=
    stringEnd_of hb (by simp [afterKey, str])
  have hskip : testAndSkip (ch '"') (keyState p) =
      (.ok, { keyState p with cur := str "payload" ++ ch '"' :: afterKey p }) := rfl
  have hkey : parseKey (keyState p) = parseString (keyState p) := rfl
  have happ : appendToPath { keyState p with cur := str "payload" ++ ch '"' :: afterKey p } [] =
      some { keyState p with cur := str "payload" ++ ch '"' :: afterKey p } :=
    (appendToPath_nil (by rfl)).trans (if_neg (show ¬ 60 ≤ 1 by decide))
  rw [hkey, parseString, andThen_of_ok hskip, happ]
  simp only [hend]
  rfl

theorem keyName_payload : keyName (keyState p).cur (afterKey p) = str "payload" := by
  have hlen : (keyState p).cur.length - (afterKey p).length - 2 = 7 := by
    show (str "\"payload\"" ++ afterKey p).length - _ - 2 = 7
    rw [List.length_append, show (str "\"payload\"").length = 9 by decide]
    omega
  have hhead : (keyState p).cur.head? = some (ch '"') := rfl
  unfold keyName
  rw [if_pos hhead, hlen]
  rfl

/-- The state at the value. -/
def valueState (p : Bytes) : Frozen :=
  ⟨str " " ++ (p ++ str "\x7d"), str ".payload", 8, [⟨[], ⟨none, 0, .objectStart⟩⟩]⟩

/-- The state after the opening brace. -/
def braceState (p : Bytes) : Frozen := ⟨str "\"payload\"" ++ afterKey p, [], 0, []⟩

theorem startState_brace (p : Bytes) : testAndSkip (ch '{') (startState (wrapped p)) = (.ok, braceState p) := rfl

theorem appendToPath_members (p : Bytes) :
    appendToPath (callBack (braceState p) .objectStart none 0) (str ".") = some (keyState p) := rfl

theorem appendToPath_payload (p : Bytes) : appendToPath { keyState p with cur := afterKey p } (str "payload") =
    some { valueState p with cur := afterKey p } := rfl

theorem testAndSkip_colon (p : Bytes) :
    testAndSkip (ch ':') { valueState p with cur := afterKey p } = (.ok, valueState p) := rfl

/-- The value of the member, parsed. -/
theorem parseValue_payload (hp : IsObject p) {n : ℕ} {d : Frozen} (hd : parseValue n (valueState p) = (.ok, d)) :
    ∃ es, d.log = (valueState p).log ++ (⟨str ".payload", ⟨none, 0, .objectStart⟩⟩ :: (es ++
        [⟨str ".payload", ⟨some (p ++ str "\x7d"), p.length, .objectEnd⟩⟩])) ∧
      (∀ e ∈ es, str ".payload." <+: e.path) ∧ d.cur = str "\x7d" := by
  have hcur : d.cur = str "\x7d" := by
    rcases yields_object hp (n := n) (w := str " ") isWs_space
      (show (valueState p).cur = str " " ++ (p ++ str "\x7d") from rfl) with h | h | ⟨g, h, hg⟩
    · rw [hd] at h
      cases h
    · rw [hd] at h
      cases h
    · rw [hd] at h
      cases h
      exact hg
  obtain ⟨u, rfl⟩ : ∃ u, p = ch '{' :: u := by
    rcases p with _ | ⟨c, u⟩
    · cases hp.2
    · exact ⟨u, by rw [show c = ch '{' from Option.some.inj hp.2]⟩
  rcases n with _ | n
  · cases hd
  · rw [parseValue_brace (w := str " ") (t := u ++ str "\x7d") isWs_space rfl] at hd
    have hwf : Wf { valueState (ch '{' :: u) with cur := ch '{' :: (u ++ str "\x7d") } := by
      show (str ".payload").length = min 8 58
      decide
    obtain ⟨es, hlog, hes⟩ := parseObject_events (fun f hf => parsed_parseValue n hf) hwf (by show 8 ≤ 57; decide)
      (by right; show (str ".payload")[7]? ≠ some (ch '.'); decide) rfl hd
    refine ⟨es, ?_, hes, hcur⟩
    rw [hlog, hcur]
    have hlen : (ch '{' :: (u ++ str "\x7d")).length - (str "\x7d").length = (ch '{' :: u).length := by
      rw [← List.cons_append, List.length_append]
      omega
    rw [hlen]
    rfl

/-- **What the parser reports about `wrapped p`.** -/
theorem events_wrapped (hp : IsObject p) (hok : (jsonWalk (wrapped p)).1 = .ok) :
    ∃ es last, events (wrapped p) =
      ⟨[], ⟨none, 0, .objectStart⟩⟩ :: ⟨str ".payload", ⟨none, 0, .objectStart⟩⟩ :: (es ++
        [⟨str ".payload", ⟨some (p ++ str "\x7d"), p.length, .objectEnd⟩⟩, ⟨[], last⟩]) ∧
      ∀ e ∈ es, str ".payload." <+: e.path := by
  have hne : wrapped p ≠ [] := by simp [wrapped, str]
  obtain ⟨r, hr⟩ : ∃ r, jsonWalk (wrapped p) = (.ok, r) := ⟨(jsonWalk (wrapped p)).2, by rw [← hok]⟩
  have hev : events (wrapped p) = r.log := by rw [events, hr]
  have hcur : (startState (wrapped p)).cur = [] ++ ch '{' :: (str "\"payload\"" ++ afterKey p) := rfl
  have hst : ({ startState (wrapped p) with cur := ch '{' :: (str "\"payload\"" ++ afterKey p) } : Frozen) =
      startState (wrapped p) := rfl
  rw [jsonWalk, if_neg hne, parseValue_brace isWs_nil hcur, hst, parseObject] at hr
  obtain ⟨n, hn⟩ : ∃ n, (wrapped p).length = n + 1 := ⟨_, rfl⟩
  rw [andThen_of_ok (startState_brace p)] at hr
  simp only [appendToPath_members] at hr
  obtain ⟨l, hl, hr⟩ := andThen_ok hr
  obtain ⟨k, hk, hr⟩ := andThen_ok hr
  -- the only member
  have hhead : (keyState p).cur.head? ≠ some (ch '}') := by
    show some (ch '"') ≠ some (ch '}')
    decide
  rw [hn, objectLoop] at hl
  simp only [skipWhitespaces_keyState, if_neg hhead] at hl
  obtain ⟨b, hb, hl⟩ := andThen_ok hl
  rw [parsePair] at hb
  simp only [skipWhitespaces_keyState] at hb
  rw [andThen_of_ok parseKey_payload] at hb
  simp only [keyName_payload, appendToPath_payload] at hb
  rw [andThen_of_ok (testAndSkip_colon p)] at hb
  obtain ⟨d, hd, hb⟩ := andThen_ok hb
  obtain ⟨es, hlog, hes, hdc⟩ := parseValue_payload hp hd
  simp only [Prod.mk.injEq, true_and] at hb
  -- the closing brace
  have hbc : b.cur = str "\x7d" := by rw [← hb]; exact hdc
  have hcomma : skipComma b = b := by
    rw [skipComma, hbc]
    show ({ b with cur := str "\x7d" } : Frozen) = b
    rw [← hbc]
  have hlb : l = b := by
    rw [hcomma] at hl
    rcases n with _ | n
    · cases hl
    · have hws : skipWhitespaces b = b := skipWhitespaces_self (c := ch '}') (t := []) hbc (by decide)
      rw [objectLoop] at hl
      simp only [hws] at hl
      rw [if_pos (by rw [hbc]; rfl)] at hl
      cases hl
      rfl
  obtain ⟨t, -, rfl⟩ := testAndSkip_ok hk
  simp only [Prod.mk.injEq, true_and] at hr
  refine ⟨es, ⟨some (ch '{' :: (braceState p).cur), (ch '{' :: (braceState p).cur).length - t.length, .objectEnd⟩, ?_,
    hes⟩
  rw [hev, ← hr, callBack_noDot (.inl rfl)]
  change l.log ++ _ = _
  rw [hlb, show b.log = d.log by rw [← hb]; rfl, hlog]
  simp only [valueState, List.append_assoc, List.cons_append, List.nil_append]
  rfl

/-- The string read at `.payload` is `p`. -/
theorem strs_wrapped (hp : IsObject p) (hb : ch '\\' ∉ p) (hok : (jsonWalk (wrapped p)).1 = .ok) :
    strs (str ".payload") (wrapped p) = [p] := by
  obtain ⟨es, last, hev, hes⟩ := events_wrapped hp hok
  have hin : es.filterMap (strAt (str ".payload")) = [] := by
    rw [List.filterMap_eq_nil_iff]
    intro e he
    have hne : e.path ≠ str ".payload" := by
      intro h0
      have := (hes e he).length_le
      rw [h0] at this
      exact absurd this (by decide)
    simp [strAt, hne]
  have hval : strAt (str ".payload") ⟨str ".payload", ⟨some (p ++ str "\x7d"), p.length, .objectEnd⟩⟩ = some p := by
    simp [strAt, jsonUnescape_plain hb]
  have hlast : strAt (str ".payload") ⟨[], last⟩ = none :=
    if_pos (show ([] : Bytes) ≠ str ".payload" by decide)
  unfold strs
  rw [hev, List.filterMap_cons_none rfl, List.filterMap_cons_none rfl, List.filterMap_append, hin,
    List.filterMap_cons_some hval, List.filterMap_cons_none hlast]
  rfl

end Walk

end Thronix.Json
