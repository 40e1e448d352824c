import Thronix.MqttRecv

/-!
# Thronix.Topics — which messages a branch takes

`Mqtt_Recv` compares the copy of the topic with `strncmp`, bounded by the length that was received.

* `isTopic_iff`: the comparison succeeds for the topic, for what it starts with, and for what continues it with a zero.
* `dispatchedExactly_iff`: for which topics the branches take only their own messages.
-/

namespace Thronix

open Json

/-! ## The comparison -/

section Topic

variable (topic topstr : Bytes)

/-- `strncmp(output_str, topic, top_len) == 0`. -/
def isTopic : Bool := strncmpEq (outputStr topstr) topic topstr.length

/-- A proper prefix of the topic, or the topic with a zero behind it. -/
def Mistaken : Prop := (topstr <+: topic ∧ topstr ≠ topic) ∨ ∃ rest, topstr = topic ++ 0 :: rest

variable {topic topstr}

theorem cString_eq_self (h : (0 : UInt8) ∉ topic) : cString topic = topic := by
  rw [cString, List.takeWhile_eq_self_iff]
  intro b hb
  rw [bne_iff_ne]
  rintro rfl
  exact h hb

theorem cString_append (h : (0 : UInt8) ∉ topic) (rest : Bytes) : cString (topic ++ 0 :: rest) = topic := by
  rw [cString, List.takeWhile_append_of_pos, List.takeWhile_cons_of_neg (by simp), List.append_nil]
  intro b hb
  rw [bne_iff_ne]
  rintro rfl
  exact h hb

/-- A C string is all there is, or there is a zero behind it. -/
theorem cString_cases (s : Bytes) : cString s = s ∨ ∃ rest, s = cString s ++ 0 :: rest := by
  induction s with
  | nil => exact .inl rfl
  | cons b s ih =>
    by_cases hb : b = 0
    · subst hb
      exact .inr ⟨s, rfl⟩
    · have hcons : cString (b :: s) = b :: cString s := List.takeWhile_cons_of_pos (by simpa using hb)
      rw [hcons]
      rcases ih with h | ⟨rest, h⟩
      · exact .inl (congrArg (b :: ·) h)
      · exact .inr ⟨rest, congrArg (b :: ·) h⟩

theorem not_mem_cString (s : Bytes) : (0 : UInt8) ∉ cString s := by
  intro h
  simpa using List.mem_takeWhile_imp h

theorem cString_outputStr : cString (outputStr topstr) = cString topstr := by
  have hlen : (cString topstr).length ≤ topstr.length := (List.takeWhile_prefix _).length_le
  obtain ⟨k, hk⟩ := Nat.exists_eq_add_of_le' (by omega : 1 ≤ topstr.length + 1 - (cString topstr).length)
  rw [outputStr, hk, List.replicate_succ, cString_append (not_mem_cString topstr)]

/-- **What the comparison accepts.** -/
theorem isTopic_iff (h0 : (0 : UInt8) ∉ topic) : isTopic topic topstr ↔ topstr = topic ∨ Mistaken topic topstr := by
  have hlen : (cString topstr).length ≤ topstr.length := (List.takeWhile_prefix _).length_le
  rw [isTopic, strncmpEq, cString_outputStr, cString_eq_self h0, List.take_of_length_le hlen, beq_iff_eq]
  constructor
  · intro h
    rcases cString_cases topstr with hall | ⟨rest, hrest⟩
    · rw [hall] at h
      by_cases heq : topstr = topic
      · exact .inl heq
      · exact .inr (.inl ⟨List.prefix_iff_eq_take.mpr h, heq⟩)
    · -- the bound lies behind the zero, so the whole topic was compared
      have hlonger : topic.length ≤ topstr.length := by
        have h1 := congrArg List.length h
        have h2 := congrArg List.length hrest
        rw [List.length_take] at h1
        rw [List.length_append, List.length_cons] at h2
        omega
      rw [List.take_of_length_le hlonger] at h
      rw [h] at hrest
      exact .inr (.inr ⟨rest, hrest⟩)
  · rintro (rfl | ⟨hstarts, -⟩ | ⟨rest, rfl⟩)
    · rw [cString_eq_self h0, List.take_length]
    · have h0' : (0 : UInt8) ∉ topstr := fun hmem => h0 (hstarts.subset hmem)
      rw [cString_eq_self h0']
      exact List.prefix_iff_eq_take.mp hstarts
    · rw [cString_append h0, List.take_of_length_le]
      rw [List.length_append]
      omega

theorem Mistaken.ne (h : Mistaken topic topstr) : topstr ≠ topic := by
  rcases h with ⟨-, hne⟩ | ⟨rest, rfl⟩
  · exact hne
  · simp

end Topic

/-! ## The branches -/

section Branches

variable (cx : Context) (topstr payload : Bytes)

/-- The kernel calls of a message in the PC branch. -/
def pcCalls : Option (List StoreOp) := if isTopic topicPc topstr then pcBranch cx payload else some []

/-- The kernel calls of a message in the Losant branch. -/
def losantCalls : Option (List StoreOp) := if isTopic topicLosant topstr then losantBranch cx payload else some []

theorem mqttRecv_eq_calls : mqttRecv cx topstr payload = (do
    let pc ← pcCalls cx topstr payload
    let losant ← losantCalls cx topstr payload
    return pc ++ losant) := by
  unfold mqttRecv pcCalls losantCalls isTopic
  rcases strncmpEq (outputStr topstr) topicPc topstr.length with _ | _
  · rcases strncmpEq (outputStr topstr) topicLosant topstr.length with _ | _ <;> rfl
  · rcases strncmpEq (outputStr topstr) topicLosant topstr.length with _ | _ <;> rfl

/-- A message on this topic changes the stores only through the branch whose topic it is, and runs one branch at
most; so on another topic it changes none. -/
structure DispatchedExactly : Prop where
  pc : ∀ cx payload calls (st : Stores), pcCalls cx topstr payload = some calls → st.applyAll calls ≠ st →
    topstr = topicPc
  losant : ∀ cx payload calls (st : Stores), losantCalls cx topstr payload = some calls → st.applyAll calls ≠ st →
    topstr = topicLosant
  one : ¬(isTopic topicPc topstr ∧ isTopic topicLosant topstr)
  handler : ∀ cx payload calls (st : Stores), mqttRecv cx topstr payload = some calls → st.applyAll calls ≠ st →
    topstr = topicPc ∨ topstr = topicLosant

variable {cx topstr payload}

/-- Where neither branch changes a store, the handler does not. -/
theorem changed_of_mqttRecv {calls : List StoreOp} {st : Stores} (hcalls : mqttRecv cx topstr payload = some calls)
    (hst : st.applyAll calls ≠ st) :
    (∃ pc, pcCalls cx topstr payload = some pc ∧ st.applyAll pc ≠ st) ∨
      ∃ losant, losantCalls cx topstr payload = some losant ∧ st.applyAll losant ≠ st := by
  rw [mqttRecv_eq_calls] at hcalls
  obtain ⟨pc, hpc, hcalls⟩ := Option.bind_eq_some_iff.mp hcalls
  obtain ⟨losant, hlosant, hcalls⟩ := Option.bind_eq_some_iff.mp hcalls
  obtain rfl := Option.some.inj hcalls
  by_cases hkept : st.applyAll pc = st
  · right
    rw [Stores.applyAll_append, hkept] at hst
    exact ⟨losant, hlosant, hst⟩
  · exact .inl ⟨pc, hpc, hkept⟩

theorem isTopic_pc : isTopic topicPc topstr ↔ topstr = topicPc ∨ Mistaken topicPc topstr := isTopic_iff (by decide)

theorem isTopic_losant : isTopic topicLosant topstr ↔ topstr = topicLosant ∨ Mistaken topicLosant topstr :=
  isTopic_iff (by decide)

/-- A payload that starts the measurements on any topic that the PC branch takes. -/
theorem pcCalls_started (h : isTopic topicPc topstr) :
    pcCalls Context.blank topstr (str "\x7b\"measurementSwitch\": 1\x7d") = some [.setMeasurement] := by
  rw [pcCalls, if_pos h]
  decide +kernel

theorem losantCalls_started (h : isTopic topicLosant topstr) : losantCalls Context.blank topstr
    (str "\x7b\"payload\": \"\x7b\\\"measurementSwitch\\\": true\x7d\"\x7d") = some [.setMeasurement] := by
  rw [losantCalls, if_pos h]
  decide +kernel

end Branches

/-- **The topics that are dispatched exactly** are those that no comparison mistakes. -/
theorem dispatchedExactly_iff (topstr : Bytes) :
    DispatchedExactly topstr ↔ ¬Mistaken topicPc topstr ∧ ¬Mistaken topicLosant topstr := by
  have hchange : Stores.create.applyAll [.setMeasurement] ≠ Stores.create := by decide
  constructor
  · intro h
    constructor
    · intro hm
      exact hm.ne (h.pc _ _ _ _ (pcCalls_started (isTopic_pc.mpr (.inr hm))) hchange)
    · intro hm
      exact hm.ne (h.losant _ _ _ _ (losantCalls_started (isTopic_losant.mpr (.inr hm))) hchange)
  · rintro ⟨hpc, hlosant⟩
    have hpcOnly : ∀ cx payload calls (st : Stores), pcCalls cx topstr payload = some calls → st.applyAll calls ≠ st →
        topstr = topicPc := by
      intro cx payload calls st hcalls hst
      by_cases ht : isTopic topicPc topstr = true
      · exact (isTopic_pc.mp ht).resolve_right hpc
      · rw [pcCalls, if_neg ht] at hcalls
        cases hcalls
        exact absurd rfl hst
    have hlosantOnly : ∀ cx payload calls (st : Stores), losantCalls cx topstr payload = some calls →
        st.applyAll calls ≠ st → topstr = topicLosant := by
      intro cx payload calls st hcalls hst
      by_cases ht : isTopic topicLosant topstr = true
      · exact (isTopic_losant.mp ht).resolve_right hlosant
      · rw [losantCalls, if_neg ht] at hcalls
        cases hcalls
        exact absurd rfl hst
    refine ⟨hpcOnly, hlosantOnly, ?_, ?_⟩
    · rintro ⟨h1, h2⟩
      have e1 := (isTopic_pc.mp h1).resolve_right hpc
      have e2 := (isTopic_losant.mp h2).resolve_right hlosant
      exact absurd (e1.symm.trans e2) (by decide)
    · intro cx payload calls st hcalls hst
      rcases changed_of_mqttRecv hcalls hst with ⟨pc, hcalls, hst⟩ | ⟨losant, hcalls, hst⟩
      · exact .inl (hpcOnly cx payload pc st hcalls hst)
      · exact .inr (hlosantOnly cx payload losant st hcalls hst)

/-- A message on "/P" starts the measurements. -/
theorem prefix_starts_measurements : ¬∀ topstr, DispatchedExactly topstr := by
  intro hall
  have hcalls : pcCalls Context.blank (str "/P") (str "\x7b\"measurementSwitch\": 1\x7d") = some [.setMeasurement] := by
    decide +kernel
  have hchange : Stores.create.applyAll [.setMeasurement] ≠ Stores.create := by decide
  exact absurd ((hall (str "/P")).pc _ _ _ _ hcalls hchange) (by decide)

end Thronix
