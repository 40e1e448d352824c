import Thronix.MqttRecv

/-!
# Thronix.Commands — what a payload commands

* `ReadsInt`, `ReadsBool`, `ReadsStr`: the parser reports a token under a path that the conversion accepts, at any
  point of the text, also before an error.
* A malformed payload changes nothing exactly when nothing of the kind is reported before the error
  (`malformed_changes_nothing_iff`): `json_vscanf` does not look at what `json_walk` returns.
-/

namespace Thronix

open Json

/-! ## What is read -/

section Reads

/-- Some token under the path is a number to `%d`. -/
def ReadsInt (path tail s : Bytes) : Prop :=
  ∃ e ∈ events s, e.path = path ∧ ∃ p v, e.token.ptr = some p ∧ sscanfD (p ++ tail) = .val v

/-- Some value under the path is reported: `%B` accepts every one. -/
def ReadsBool (path s : Bytes) : Prop := ∃ e ∈ events s, e.path = path ∧ e.token.ptr ≠ none

/-- Some value under the path can be unescaped. -/
def ReadsStr (path s : Bytes) : Prop :=
  ∃ e ∈ events s, e.path = path ∧ ∃ p t, e.token.ptr = some p ∧ jsonUnescape (p.take e.token.len) = some t

theorem ints_eq_nil_iff (path tail s : Bytes) : ints path tail s = [] ↔ ¬ ReadsInt path tail s := by
  unfold ints ReadsInt
  rw [List.filterMap_eq_nil_iff]
  constructor
  · rintro h ⟨e, he, hp, p, v, hptr, hv⟩
    have := h e he
    simp [intAt, hp, hptr, hv] at this
  · intro h e he
    unfold intAt
    split_ifs with hp
    · rfl
    · rcases hptr : e.token.ptr with _ | p
      · rfl
      · rcases hv : sscanfD (p ++ tail) with _ | _ | v
        · simp [hv]
        · simp [hv]
        · exact absurd ⟨e, he, not_not.mp hp, p, v, hptr, hv⟩ h

theorem bools_eq_nil_iff (path s : Bytes) : bools path s = [] ↔ ¬ ReadsBool path s := by
  unfold bools ReadsBool
  rw [List.filterMap_eq_nil_iff]
  constructor
  · rintro h ⟨e, he, hp, hptr⟩
    have := h e he
    simp [boolAt, hp] at this
    exact hptr this
  · intro h e he
    unfold boolAt
    split_ifs with hp
    · rfl
    · rcases hptr : e.token.ptr with _ | p
      · rfl
      · exact absurd ⟨e, he, not_not.mp hp, by simp [hptr]⟩ h

theorem strs_eq_nil_iff (path s : Bytes) : strs path s = [] ↔ ¬ ReadsStr path s := by
  unfold strs ReadsStr
  rw [List.filterMap_eq_nil_iff]
  constructor
  · rintro h ⟨e, he, hp, p, t, hptr, ht⟩
    have := h e he
    simp [strAt, hp, hptr, ht] at this
  · intro h e he
    unfold strAt
    split_ifs with hp
    · rfl
    · rcases hptr : e.token.ptr with _ | p
      · rfl
      · rcases ht : jsonUnescape (p.take e.token.len) with _ | t
        · simp [ht]
        · exact absurd ⟨e, he, not_not.mp hp, p, t, hptr, ht⟩ h

end Reads

/-! ## Malformed payloads -/

section Malformed

variable (cx : Context) (s : Bytes)

/-- The handler is defined on the payload and leaves every stores as they were. -/
def Unchanged (topstr payload : Bytes) : Prop :=
  ∃ ops, mqttRecv cx topstr payload = some ops ∧ ∀ st : Stores, st.applyAll ops = st

/-- None of the four numeric commands is read in the text. -/
def NoIntCommand (tail s : Bytes) : Prop :=
  ¬ ReadsInt freqPath tail s ∧ ¬ ReadsInt waterPath tail s ∧ ¬ ReadsInt temperaturePath tail s ∧
    ¬ ReadsInt moisturePath tail s

/-- The text that a Losant payload carries, as the inner calls see it. -/
def innerText : Option Bytes := (strs payloadPath s).getLast?.map fun aux => auxText cx aux s.length

/-- The memory behind the inner text. -/
def innerTail : Bytes := ((strs payloadPath s).getLast?.map fun aux => (auxMemory cx aux).drop s.length).getD []

theorem freqOps_eq_nil_iff (o : Option (BitVec 32)) : freqOps o = [] ↔ o = none := by
  rcases o with _ | v <;> simp [freqOps]

theorem waterOps_eq_nil_iff (o : Option (BitVec 32)) : waterOps o = [] ↔ o = none := by
  rcases o with _ | v <;> simp [waterOps]

theorem switchOps_eq_nil_iff (o : Option Bool) : switchOps o = [] ↔ o = none := by
  rcases o with _ | _ | _ <;> simp [switchOps, switchMeasurement]

theorem thresholdOps_eq_nil_iff (th : SystemThresholds) (t m : Option (BitVec 32)) :
    thresholdOps th t m = [] ↔ t = none ∧ m = none := by
  rcases t with _ | t <;> rcases m with _ | m <;> simp [thresholdOps]

theorem lastInt_eq_none_iff (path tail : Bytes) : lastInt cx path tail s = none ↔ ¬ ReadsInt path tail s := by
  unfold lastInt
  rw [Option.map_eq_none_iff, List.getLast?_eq_none_iff, ints_eq_nil_iff]

theorem unchanged_pc_iff (hs : (jsonWalk s).1 ≠ .undef) :
    Unchanged cx topicPc s ↔ ¬ ReadsInt switchPath cx.tail s ∧ NoIntCommand cx.tail s := by
  have hiff : (∀ st : Stores, st.applyAll (pcOps cx s) = st) ↔
      ¬ ReadsInt switchPath cx.tail s ∧ NoIntCommand cx.tail s := by
    rw [Stores.applyAll_eq_self_iff]
    simp only [pcOps, List.append_eq_nil_iff, freqOps_eq_nil_iff, switchOps_eq_nil_iff, waterOps_eq_nil_iff,
      thresholdOps_eq_nil_iff, Option.map_eq_none_iff, lastInt_eq_none_iff, NoIntCommand]
    exact ⟨fun ⟨⟨⟨a, b⟩, c⟩, d, e⟩ => ⟨b, a, c, d, e⟩, fun ⟨b, a, c, d, e⟩ => ⟨⟨⟨a, b⟩, c⟩, d, e⟩⟩
  unfold Unchanged
  rw [mqttRecv_topicPc, pcBranch_eq cx hs]
  simpa using hiff

theorem unchanged_losant_iff (hs : (jsonWalk s).1 ≠ .undef) :
    Unchanged cx topicLosant s ↔ ∀ t, innerText cx s = some t →
      (jsonWalk t).1 ≠ .undef ∧ ¬ ReadsBool switchPath t ∧ NoIntCommand (innerTail cx s) t := by
  unfold Unchanged innerText innerTail
  rw [mqttRecv_topicLosant]
  rcases h : (strs payloadPath s).getLast? with _ | aux
  · rw [losantBranch_none cx hs (List.getLast?_eq_none_iff.mp h)]
    simp
  · by_cases hi : (jsonWalk (auxText cx aux s.length)).1 = .undef
    · rw [losantBranch_undef_inner cx hs h hi]
      simp [hi]
    · rw [losantBranch_eq cx hs h hi]
      have hiff : (∀ st : Stores, st.applyAll
          (losantOps cx (auxText cx aux s.length) ((auxMemory cx aux).drop s.length)) = st) ↔
          ¬ ReadsBool switchPath (auxText cx aux s.length) ∧
            NoIntCommand ((auxMemory cx aux).drop s.length) (auxText cx aux s.length) := by
        rw [Stores.applyAll_eq_self_iff]
        simp only [losantOps, List.append_eq_nil_iff, freqOps_eq_nil_iff, switchOps_eq_nil_iff, waterOps_eq_nil_iff,
          thresholdOps_eq_nil_iff, lastInt_eq_none_iff, List.getLast?_eq_none_iff, bools_eq_nil_iff, NoIntCommand]
        exact ⟨fun ⟨⟨⟨b, a⟩, c⟩, d, e⟩ => ⟨b, a, c, d, e⟩, fun ⟨b, a, c, d, e⟩ => ⟨⟨⟨b, a⟩, c⟩, d, e⟩⟩
      simpa [hi] using hiff

/-- **A malformed payload changes nothing** exactly when nothing under a command key was reported, in a form that its
conversion reads, before the parser met the error. -/
theorem malformed_changes_nothing_iff :
    ((jsonWalk s).1.Negative →
      (Unchanged cx topicPc s ↔ ¬ ReadsInt switchPath cx.tail s ∧ NoIntCommand cx.tail s)) ∧
    ((jsonWalk s).1.Negative ∨ (jsonWalk s).1 = .ok ∧ (∃ t, innerText cx s = some t ∧ (jsonWalk t).1.Negative) →
      (Unchanged cx topicLosant s ↔ ∀ t, innerText cx s = some t →
        (jsonWalk t).1 ≠ .undef ∧ ¬ ReadsBool switchPath t ∧ NoIntCommand (innerTail cx s) t)) := by
  constructor
  · intro h
    exact unchanged_pc_iff cx s h.ne_undef
  · rintro (h | ⟨h, -⟩)
    · exact unchanged_losant_iff cx s h.ne_undef
    · exact unchanged_losant_iff cx s (by rw [h]; simp)

/-- A payload cut off after its first member. -/
def truncatedPayload : Bytes := str "\x7b\"wateringTime\": 5,"

theorem malformed_changes_nothing_iff_truncated :
    (jsonWalk truncatedPayload).1.Negative ∧
      (Unchanged Context.blank topicPc truncatedPayload ↔
        ¬ ReadsInt switchPath [] truncatedPayload ∧ NoIntCommand [] truncatedPayload) ∧
      (Unchanged Context.blank topicLosant truncatedPayload ↔ ∀ t, innerText Context.blank truncatedPayload = some t →
        (jsonWalk t).1 ≠ .undef ∧ ¬ ReadsBool switchPath t ∧
          NoIntCommand (innerTail Context.blank truncatedPayload) t) :=
  have h : (jsonWalk truncatedPayload).1.Negative := by decide +kernel
  ⟨h, (malformed_changes_nothing_iff Context.blank truncatedPayload).1 h,
    (malformed_changes_nothing_iff Context.blank truncatedPayload).2 (.inl h)⟩

/-- The pump is started by a text that is not JSON. -/
theorem truncatedPayload_waters :
    (jsonWalk truncatedPayload).1 = .incomplete ∧
      mqttRecv Context.blank topicPc truncatedPayload = some [.overwriteWater 5000, .setWater] ∧
      ¬ Unchanged Context.blank topicPc truncatedPayload := by
  have hops : mqttRecv Context.blank topicPc truncatedPayload = some [.overwriteWater 5000, .setWater] := by
    decide +kernel
  refine ⟨by decide +kernel, hops, ?_⟩
  rintro ⟨ops, h, hst⟩
  rw [hops] at h
  cases h
  exact absurd (hst .create) (by decide)

end Malformed

end Thronix
