import Thronix.Json.WalkSpec

/-!
# Thronix.Json.Parsed — every parser function meets the specification

One lemma for each function of the parser, in the order of the source.  Objects, arrays and pairs are parametrised
by the parser of the values inside them, so their lemmas assume `∀ f, Wf f → Parsed f (pv f)`, and `parseValue` is
one induction on the fuel.
-/

namespace Thronix.Json

open Lib

/-! ## Leaves -/

theorem testAndSkip_ok {c : UInt8} {f g : Frozen} (h : testAndSkip c f = (.ok, g)) :
    ∃ t, f.cur.dropWhile isSpace = c :: t ∧ g = { f with cur := t } := by
  unfold testAndSkip at h
  split at h
  · simp at h
  · next d t hd =>
    split_ifs at h with hc
    · simp only [Prod.mk.injEq, true_and] at h
      exact ⟨t, hc ▸ hd, h.symm⟩
    · simp at h

theorem parsed_testAndSkip (c : UInt8) (f : Frozen) : Parsed f (testAndSkip c f) := by
  have hs := dropWhile_white f.cur
  unfold testAndSkip
  split
  · exact parsed_fail rfl (List.suffix_refl _) (by simp)
  · next d t hd =>
    rw [hd] at hs
    split_ifs
    · exact parsed_of_log_eq rfl ((List.suffix_cons _ _).trans hs) fun _ => ⟨rfl, rfl⟩
    · exact parsed_fail rfl (List.suffix_refl _) (by simp)

theorem parsed_parseIdentifier {f : Frozen} (hw : Wf f) : Parsed f (parseIdentifier f) := by
  apply Parsed.skipWs
  have hw' : Wf (skipWhitespaces f) := hw
  unfold parseIdentifier
  generalize skipWhitespaces f = g at hw' ⊢
  simp only
  split
  · exact parsed_fail rfl (List.suffix_refl _) (by simp)
  · next c t hc =>
    rw [appendToPath_nil hw']
    split_ifs with ha h60
    · exact parsed_fail rfl (List.suffix_refl _) (by simp)
    · have hs : g.cur.dropWhile isIdentifierChar <:+ g.cur := List.dropWhile_suffix _
      have hsol : Solid g.cur := by
        rw [hc]
        refine solid_cons ?_ t
        unfold isAlpha at ha
        grind
      simp only [truncatePath_self (f := { g with cur := g.cur.dropWhile isIdentifierChar }) hw']
      exact (parsed_of_log_eq (f := g) (r := (.ok, { g with cur := g.cur.dropWhile isIdentifierChar })) rfl hs
        fun _ => ⟨rfl, rfl⟩).callBack (List.suffix_refl _) hs (List.suffix_refl _) hsol (by simp)
        fun _ => hc ▸ markAt_cons (.inr (.inr (.inr ha))) t _
    · exact parsed_fail rfl (List.suffix_refl _) (by simp)

theorem parsed_parseString {f : Frozen} (hw : Wf f) : Parsed f (parseString f) := by
  unfold parseString
  refine (parsed_testAndSkip _ f).andThen fun g hg => ?_
  have hwg : Wf g := Parsed.wf (hg ▸ parsed_testAndSkip _ f) hw
  rw [appendToPath_nil hwg]
  split_ifs with h60
  · exact parsed_fail rfl (List.suffix_refl _) (by simp)
  · simp only [truncatePath_self hwg]
    split
    · next e he =>
      exact parsed_fail rfl (List.suffix_refl _) (stringEnd_error he).ne_ok
    · next rest hr =>
      obtain ⟨t, rfl, hs⟩ := stringEnd_spec hr
      rw [← callBack_with_cur]
      exact (parsed_of_log_eq (f := g) (r := (.ok, { g with cur := t })) rfl ((List.suffix_cons _ _).trans hs)
        fun _ => ⟨rfl, rfl⟩).callBack (List.suffix_refl _) hs (List.suffix_cons _ _) (stringEnd_solid hr) (by simp)
        fun _ => markAt_of_suffix hs (.inl rfl)

theorem parsed_parseNumber {f : Frozen} (hw : Wf f) : Parsed f (parseNumber f) := by
  apply Parsed.skipWs
  have hw' : Wf (skipWhitespaces f) := hw
  unfold parseNumber
  generalize skipWhitespaces f = g at hw' ⊢
  simp only [appendToPath_nil hw']
  split_ifs with h60
  · exact parsed_fail rfl (List.suffix_refl _) (by simp)
  · simp only
    split
    · next e he =>
      exact parsed_fail rfl (List.suffix_refl _) (numberEnd_error he).ne_ok
    · next rest hr =>
      obtain ⟨v, hv, hd⟩ := numberEnd_spec hr
      have hs : rest <:+ g.cur := ⟨v.text, hv.symm⟩
      simp only [truncatePath_self (f := { g with cur := rest }) hw']
      refine (parsed_of_log_eq (f := g) (r := (.ok, { g with cur := rest })) rfl hs fun _ => ⟨rfl, rfl⟩).callBack
        (List.suffix_refl _) hs (List.suffix_refl _) (hv ▸ solid_number v rest) (fun _ => ⟨v, rest, hv, ?_, hd⟩)
        (fun h => absurd rfl h)
      rw [hv, List.length_append]
      omega

theorem parsed_expect {f : Frozen} (hw : Wf f) {a : UInt8} {s : Bytes} (ha : 32 < a) (hm : isAlpha a = true)
    {tok : JsonTokenType} (ht : tok ≠ .number) : Parsed f (expect (a :: s) tok f) := by
  unfold expect
  rw [appendToPath_nil hw]
  split_ifs with h60
  · exact parsed_fail rfl (List.suffix_refl _) (by simp)
  · simp only
    split
    · next e he =>
      exact parsed_fail rfl (List.suffix_refl _) (litEnd_error he).ne_ok
    · next rest hr =>
      have hv := litEnd_spec hr
      have hs : rest <:+ f.cur := ⟨a :: s, hv.symm⟩
      simp only [truncatePath_self (f := { f with cur := rest }) hw]
      exact (parsed_of_log_eq (f := f) (r := (.ok, { f with cur := rest })) rfl hs fun _ => ⟨rfl, rfl⟩).callBack
        (List.suffix_refl _) hs (List.suffix_refl _) (hv ▸ solid_cons ha _) (fun h => absurd h ht)
        fun _ => hv ▸ markAt_cons (.inr (.inr (.inr hm))) _ _

/-! ## Pairs, objects and arrays -/

theorem parsed_parseKey {f : Frozen} (hw : Wf f) : Parsed f (parseKey f) := by
  apply Parsed.skipWs
  have hw' : Wf (skipWhitespaces f) := hw
  unfold parseKey
  generalize skipWhitespaces f = g at hw' ⊢
  simp only
  split
  · exact parsed_fail rfl (List.suffix_refl _) (by simp)
  · split_ifs
    · exact parsed_parseIdentifier hw'
    · exact parsed_parseString hw'
    · exact parsed_fail rfl (List.suffix_refl _) (by simp)

/-- The part that objects and arrays share: the start callback, the scope of the body, the closing byte and the
end callback, which reports the text from the opening byte on. -/
theorem parsed_bracket {f : Frozen} (hw : Wf f) {opening closing : UInt8} {name : Bytes} {body : Parser}
    {startTok endTok : JsonTokenType} (ho : 32 < opening) (hm : Mark opening) (hst : startTok ≠ .number)
    (het : endTok ≠ .number) (hbody : ∀ g, Wf g → Parsed g (body g)) :
    Parsed f (andThen (testAndSkip opening) (fun f =>
      match appendToPath (callBack f startTok none 0) name with
      | none => (.undef, callBack f startTok none 0)
      | some h => andThen body (andThen (testAndSkip closing) fun k =>
          (.ok, callBack (truncatePath k f.pathLen) endTok (some (opening :: f.cur))
            ((opening :: f.cur).length - k.cur.length))) h) f) := by
  cases hg : testAndSkip opening f with
  | mk c g =>
    have hpg := parsed_testAndSkip opening f
    rw [hg] at hpg
    cases c with
    | ok =>
      rw [andThen_of_ok hg]
      have hwg : Wf g := Parsed.wf hpg hw
      obtain ⟨t, ht, hgt⟩ := testAndSkip_ok hg
      have hopen : opening :: g.cur <:+ f.cur := by
        rw [hgt]
        exact ht ▸ dropWhile_white f.cur
      have hcall := hpg.append (parsed_callBack_none g startTok hst 0)
      split
      · exact hcall.append (parsed_fail rfl (List.suffix_refl _) (by simp))
      · next h hh =>
        have hwh : Wf h := (appendToPath_some (hwg.callBack _ _ _) hh).1
        have hscope := parsed_scope (andThen body (testAndSkip closing)) (hwg.callBack startTok none 0) hh
          ((hbody h hwh).andThen fun k hk => parsed_testAndSkip closing k)
        have hall := hcall.append hscope
        rw [andThen_assoc] at hall
        -- the body succeeded and its text is closed, or the error goes up
        cases hb : andThen body (testAndSkip closing) h with
        | mk c k =>
          rw [← andThen_assoc] at hall ⊢
          unfold andThen at hall ⊢
          have hb' := hb
          unfold andThen at hb'
          rw [hb'] at hall ⊢
          cases c with
          | ok =>
            have hsuf : k.cur <:+ g.cur := by
              have := hscope.cur
              unfold andThen at this
              rw [hb'] at this
              simpa [truncatePath] using this
            simp only [callBack_pathLen] at hall
            exact hall.callBack hopen (hsuf.trans (List.suffix_cons _ _)) (List.suffix_refl _) (solid_cons ho _)
              (fun h => absurd h het) fun _ => markAt_cons hm _ _
          | _ => exact hall
    | _ =>
      unfold andThen
      rw [hg]
      exact hpg

section Nested

variable {pv : Parser} (hpv : ∀ f, Wf f → Parsed f (pv f))
include hpv

theorem parsed_parsePair {f : Frozen} (hw : Wf f) : Parsed f (parsePair pv f) := by
  apply Parsed.skipWs
  have hw' : Wf (skipWhitespaces f) := hw
  unfold parsePair
  generalize skipWhitespaces f = g at hw' ⊢
  simp only
  refine (parsed_parseKey hw').andThen fun h hh => ?_
  have hwh : Wf h := Parsed.wf (hh ▸ parsed_parseKey hw') hw'
  split
  · exact parsed_fail rfl (List.suffix_refl _) (by simp)
  · next k hk =>
    rw [← andThen_assoc]
    refine parsed_scope _ hwh hk ((parsed_testAndSkip _ k).andThen fun l hl => hpv l ?_)
    exact Parsed.wf (hl ▸ parsed_testAndSkip _ k) (appendToPath_some hwh hk).1

theorem parsed_objectLoop (n : ℕ) {f : Frozen} (hw : Wf f) : Parsed f (objectLoop pv n f) := by
  induction n generalizing f with
  | zero => exact parsed_fail rfl (List.suffix_refl _) (by simp)
  | succ n ih =>
    apply Parsed.skipWs
    have hw' : Wf (skipWhitespaces f) := hw
    unfold objectLoop
    generalize skipWhitespaces f = g at hw' ⊢
    simp only
    split_ifs
    · exact parsed_of_log_eq rfl (List.suffix_refl _) fun _ => ⟨rfl, rfl⟩
    · refine (parsed_parsePair hpv hw').andThen fun h hh => ?_
      have hwh : Wf h := Parsed.wf (hh ▸ parsed_parsePair hpv hw') hw'
      exact (ih hwh.skipComma).skipComma

theorem parsed_parseObject (n : ℕ) {f : Frozen} (hw : Wf f) : Parsed f (parseObject pv n f) :=
  parsed_bracket hw (by decide) (.inr (.inl rfl)) (by simp) (by simp) fun _ hg => parsed_objectLoop hpv n hg

theorem parsed_arrayLoop (n i : ℕ) {f : Frozen} (hw : Wf f) : Parsed f (arrayLoop pv n i f) := by
  induction n generalizing f i with
  | zero => exact parsed_fail rfl (List.suffix_refl _) (by simp)
  | succ n ih =>
    apply Parsed.skipWs
    have hw' : Wf (skipWhitespaces f) := hw
    unfold arrayLoop
    generalize skipWhitespaces f = g at hw' ⊢
    simp only
    split_ifs
    · exact parsed_of_log_eq rfl (List.suffix_refl _) fun _ => ⟨rfl, rfl⟩
    · split
      · exact parsed_fail rfl (List.suffix_refl _) (by simp)
      · next h hh =>
        have hone := parsed_scope _ hw' hh (hpv h (appendToPath_some hw' hh).1)
        have hall := hone.andThen (k := fun l => arrayLoop pv n (i + 1) (skipComma l)) fun l hl =>
          (ih (i + 1) ((hl ▸ hone).wf hw').skipComma).skipComma
        rwa [andThen_assoc] at hall

theorem parsed_parseArray (n : ℕ) {f : Frozen} (hw : Wf f) : Parsed f (parseArray pv n f) :=
  parsed_bracket hw (by decide) (.inr (.inr (.inl rfl))) (by simp) (by simp) fun _ hg => parsed_arrayLoop hpv n 0 hg

end Nested

theorem parsed_parseValue (n : ℕ) {f : Frozen} (hw : Wf f) : Parsed f (parseValue n f) := by
  induction n generalizing f with
  | zero => exact parsed_fail rfl (List.suffix_refl _) (by simp)
  | succ n ih =>
    apply Parsed.skipWs
    have hw' : Wf (skipWhitespaces f) := hw
    unfold parseValue
    generalize skipWhitespaces f = g at hw' ⊢
    simp only
    split
    · exact parsed_fail rfl (List.suffix_refl _) (by simp)
    · split_ifs
      · exact parsed_parseString hw'
      · exact parsed_parseObject (fun _ h => ih h) n hw'
      · exact parsed_parseArray (fun _ h => ih h) n hw'
      · exact parsed_expect hw' (by decide) (by decide) (by simp)
      · exact parsed_expect hw' (by decide) (by decide) (by simp)
      · exact parsed_expect hw' (by decide) (by decide) (by simp)
      · exact parsed_parseNumber hw'
      · exact parsed_fail rfl (List.suffix_refl _) (by simp)

/-- The events of any text, accepted or not, meet the specification. -/
theorem eventOk_of_mem_events {s : Bytes} {e : Event} (he : e ∈ events s) : EventOk (startState s) e := by
  unfold events jsonWalk at he
  split_ifs at he with h0
  · cases he
  · obtain ⟨es, hl, hes, -⟩ := (parsed_parseValue (s.length + 1) (wf_startState s)).log
    rw [hl] at he
    exact hes e (by simpa [startState] using he)

end Thronix.Json
