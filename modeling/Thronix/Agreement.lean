import Thronix.Commands
import Thronix.Exact
import Thronix.Json.Wrapped

/-!
# Thronix.Agreement — the PC and the Losant paths compared

A command object `p` reaches the handler as the payload on `/PC`, or as the member `payload` of an object on the Losant
topic, where it is copied and parsed again.

* `ints_append`, `bools_append`: the copy has the same values, whatever the memory holds behind it.
* `agree_iff`: the two paths leave the same stores exactly when all paths fit the parser's buffer, the switch means the
  same to `%d` and to `%B`, and the message has both thresholds or none.
-/

namespace Thronix

open Json Lib

/-! ## The copy -/

section Copy

variable {p : Bytes}

/-- A nonempty suffix ends as the text does. -/
theorem suffix_snoc {s q : Bytes} {c : UInt8} (h : q <:+ s ++ [c]) (hq : q ≠ []) : ∃ a, q = a ++ [c] := by
  obtain ⟨a, d, rfl⟩ := List.eq_nil_or_concat q |>.resolve_left hq
  obtain ⟨b, hb⟩ := h
  rw [List.concat_eq_append, ← List.append_assoc] at hb
  have := (List.append_inj' hb rfl).2
  simp only [List.cons.injEq, and_true] at this
  exact ⟨a, by rw [List.concat_eq_append, this]⟩

theorem object_snoc (hp : IsObject p) : ∃ s, p = s ++ [ch '}'] := by
  rcases isObject_cases hp with ⟨w, -, rfl⟩ | ⟨t, -, rfl⟩
  · exact ⟨123 :: w, by rw [List.cons_append]; rfl⟩
  · exact ⟨123 :: t, by rw [List.cons_append]; rfl⟩

/-- An accepted object has the same events in a longer text. -/
theorem events_append (hp : IsObject p) (hok : (jsonWalk p).1 = .ok) (t : Bytes) :
    (jsonWalk (p ++ t)).1 = .ok ∧ events (p ++ t) = (events p).map (Event.extend t) := by
  rcases jsonWalk_append hok with h | ⟨h, -⟩
  · unfold events
    rw [h t]
    exact ⟨rfl, rfl⟩
  · exfalso
    apply h
    obtain ⟨c, u, rfl⟩ := List.exists_cons_of_ne_nil (show p ≠ [] from fun h0 => by rw [h0] at hp; cases hp.2)
    have hc : c = ch '{' := Option.some.inj hp.2
    rw [List.dropWhile_cons_of_neg (by rw [hc]; decide), hc]
    rfl

/-- The numbers in an accepted object do not depend on what follows it. -/
theorem ints_append (hp : IsObject p) (hok : (jsonWalk p).1 = .ok) (path t tail tail' : Bytes) :
    ints path tail (p ++ t) = ints path tail' p := by
  obtain ⟨s, hs⟩ := object_snoc hp
  unfold ints
  rw [(events_append hp hok t).2, List.filterMap_map]
  apply List.filterMap_congr
  intro e he
  simp only [Function.comp_apply, intAt]
  by_cases hpath : e.path ≠ path
  · rw [if_pos hpath, if_pos (show (e.extend t).path ≠ path from hpath)]
  · rw [if_neg hpath, if_neg (show ¬ (e.extend t).path ≠ path from hpath)]
    rcases hq : e.token.ptr with _ | q
    · simp [Event.extend, JsonToken.extend, hq]
    · obtain ⟨hsuf, hsol⟩ := (eventOk_of_mem_events he).text q hq
      have hne : q ≠ [] := by
        rintro rfl
        obtain ⟨k, c, u, h, -⟩ := hsol
        simp at h
      obtain ⟨a, rfl⟩ := suffix_snoc (hs ▸ (show q <:+ p from hsuf)) hne
      have hstop : Stops (ch '}') := by
        refine ⟨?_, ?_, ?_, ?_, ?_⟩ <;> decide
      have heq : sscanfD (a ++ [ch '}'] ++ t ++ tail) = sscanfD (a ++ [ch '}'] ++ tail') := by
        simp only [List.append_assoc, List.cons_append, List.nil_append]
        exact sscanfD_stops hstop _ _
      simp only [Event.extend, JsonToken.extend, hq, Option.map_some, Option.bind_some, heq]

/-- The booleans neither. -/
theorem bools_append (hp : IsObject p) (hok : (jsonWalk p).1 = .ok) (path t : Bytes) :
    bools path (p ++ t) = bools path p := by
  unfold bools
  rw [(events_append hp hok t).2, List.filterMap_map]
  apply List.filterMap_congr
  intro e _
  simp only [Function.comp_apply, boolAt]
  by_cases hpath : e.path ≠ path
  · rw [if_pos hpath, if_pos (show (e.extend t).path ≠ path from hpath)]
  · rw [if_neg hpath, if_neg (show ¬ (e.extend t).path ≠ path from hpath)]
    simp only [Event.extend, JsonToken.extend, Option.map_map, Function.comp_def]
    rfl

theorem ints_tail (hp : IsObject p) (hok : (jsonWalk p).1 = .ok) (path tail tail' : Bytes) :
    ints path tail p = ints path tail' p := by
  have h := ints_append hp hok path [] tail tail'
  rwa [List.append_nil] at h

/-- What the inner calls are given begins with `p`. -/
theorem auxText_append (cx : Context) {n : ℕ} (hn : p.length ≤ n) : ∃ t, auxText cx p n = p ++ t := by
  refine ⟨(0 :: cx.heap ++ List.replicate n 0).take (n - p.length), ?_⟩
  rw [auxText, auxMemory, List.append_assoc, List.take_append, List.take_of_length_le hn]

end Copy

/-! ## Two sets of stores -/

section Compare

variable {f w t m : Option (BitVec 32)} {b b' : Option Bool} {th th' : SystemThresholds}

/-- The flag tells the three commands for it apart. -/
theorem switch_eq_of_commanded (h : ∀ st : Stores, st.commanded f b w th t m = st.commanded f b' w th' t m) :
    b = b' := by
  have h0 := congrArg (fun s => s.measurementFlag.test measurementStart) (h .create)
  have h1 := congrArg (fun s => s.measurementFlag.test measurementStart) (h .flagsSet)
  simp only [Stores.commanded] at h0 h1
  rcases b with _ | _ | _ <;> rcases b' with _ | _ | _ <;> first | rfl | exact absurd h0 (by decide) |
    exact absurd h1 (by decide)

/-- The threshold pair shows the local's other field when one threshold came alone. -/
theorem thresholds_of_commanded (hth : th.temperature ≠ th'.temperature) (hth' : th.moisture ≠ th'.moisture)
    (h : ∀ st : Stores, st.commanded f b w th t m = st.commanded f b' w th' t m) : t = none ↔ m = none := by
  have h0 := congrArg (fun s => s.thresholdsQueue.item) (h .create)
  rcases t with _ | t <;> rcases m with _ | m
  · simp
  · simp only [Stores.commanded, reduceCtorEq, and_false, if_false, Option.map_none, Option.getD_none,
      Option.some.injEq, SystemThresholds.mk.injEq] at h0
    exact absurd h0.1 hth
  · simp only [Stores.commanded, reduceCtorEq, false_and, if_false, Option.map_none, Option.getD_none,
      Option.some.injEq, SystemThresholds.mk.injEq] at h0
    exact absurd h0.2 hth'
  · simp

theorem commanded_congr (hb : b = b') (htm : t = none ↔ m = none) (st : Stores) :
    st.commanded f b w th t m = st.commanded f b' w th' t m := by
  subst hb
  rcases t with _ | t <;> rcases m with _ | m
  · rfl
  · exact absurd (htm.mp rfl) (by simp)
  · exact absurd (htm.mpr rfl) (by simp)
  · rfl

end Compare

/-! ## The comparison -/

section Agree

variable {p : Bytes}

/-- Both messages are handled, and they leave the same stores, whatever the memory and the locals hold. -/
def PathsAgree (p : Bytes) : Prop :=
  ∀ cx, ∃ a b, mqttRecv cx topicPc p = some a ∧ mqttRecv cx topicLosant (wrapped p) = some b ∧
    ∀ st : Stores, st.applyAll a = st.applyAll b

/-- The switch means the same to `%d` and to `%B`: it is not in the message, or the last number read for it fits an
`int` and is zero unless the last value for it is `true`. -/
def SwitchAgrees (p : Bytes) : Prop :=
  ¬ ReadsBool switchPath p ∨ ∃ v, InIntRange v ∧ (ints switchPath [] p).getLast? = some v ∧
    (bools switchPath p).getLast? = some (decide (v ≠ 0))

theorem readsBool_of_readsInt {path tail s : Bytes} (h : ReadsInt path tail s) : ReadsBool path s := by
  obtain ⟨e, he, hp, q, v, hq, -⟩ := h
  exact ⟨e, he, hp, by simp [hq]⟩

/-- The switch of the PC branch, read with the context. -/
def switchD (cx : Context) (p : Bytes) : Option Bool :=
  (ints switchPath [] p).getLast?.map fun v => cx.int v != 0

theorem int_ne_zero (cx : Context) {v : ℤ} (hv : InIntRange v) : (cx.int v != 0) = decide (v ≠ 0) := by
  have hint : cx.int v = BitVec.ofInt 32 v := if_pos hv
  rw [hint, Bool.eq_iff_iff, bne_iff_ne, decide_eq_true_iff]
  refine not_congr ⟨fun h => ?_, fun h => by rw [h]; rfl⟩
  have h0 : (BitVec.ofInt 32 v).toInt = 0 := by rw [h]; rfl
  rw [BitVec.toInt_ofInt] at h0
  obtain ⟨h1, h2⟩ := hv
  rw [Int.bmod_def] at h0
  split_ifs at h0 <;> omega

/-- `%d` and `%B` agree in every context exactly when the switch means the same to both. -/
theorem switch_iff : (∀ cx, switchD cx p = (bools switchPath p).getLast?) ↔ SwitchAgrees p := by
  constructor
  · intro h
    rcases hi : (ints switchPath [] p).getLast? with _ | v
    · have h0 := h Context.blank
      simp only [switchD, hi, Option.map_none] at h0
      exact .inl ((bools_eq_nil_iff _ _).mp (List.getLast?_eq_none_iff.mp h0.symm))
    · refine .inr ⟨v, ?_⟩
      have hcx : ∀ cx : Context, some (cx.int v != 0) = (bools switchPath p).getLast? := fun cx => by
        rw [← h cx, switchD, hi]
        rfl
      by_cases hv : InIntRange v
      · exact ⟨hv, hi, by rw [← hcx Context.blank, int_ne_zero _ hv]⟩
      · exfalso
        have hoor : ∀ oor, Context.int { Context.blank with outOfRange := oor } v = oor v := fun oor => if_neg hv
        have h0 := hcx { Context.blank with outOfRange := fun _ => 0 }
        have h1 := hcx { Context.blank with outOfRange := fun _ => 1 }
        rw [hoor] at h0 h1
        rw [← h1] at h0
        exact absurd h0 (by decide)
  · rintro (h | ⟨v, hv, hi, hb⟩) cx
    · have hb : bools switchPath p = [] := (bools_eq_nil_iff _ _).mpr h
      have hi : ints switchPath [] p = [] := (ints_eq_nil_iff _ _ _).mpr fun hr => h (readsBool_of_readsInt hr)
      simp [switchD, hb, hi]
    · rw [switchD, hi, hb, Option.map_some, int_ne_zero cx hv]

/-- The calls on the two paths, when all paths fit. -/
theorem mqttRecv_paths (hp : IsObject p) (hb : ch '\\' ∉ p) (hok : (jsonWalk p).1 = .ok)
    (hwok : (jsonWalk (wrapped p)).1 = .ok) (cx : Context) :
    ∃ a b, mqttRecv cx topicPc p = some a ∧ mqttRecv cx topicLosant (wrapped p) = some b ∧
      let r := fun path => lastInt cx path [] p
      (∀ st : Stores, st.applyAll a = st.commanded (r freqPath) (switchD cx p) (r waterPath) cx.pc.thresholds
        (r temperaturePath) (r moisturePath)) ∧
      ∀ st : Stores, st.applyAll b = st.commanded (r freqPath) (bools switchPath p).getLast? (r waterPath)
        cx.losant.thresholds (r temperaturePath) (r moisturePath) := by
  have hlen : p.length ≤ (wrapped p).length := by
    simp only [wrapped, List.length_append]
    omega
  obtain ⟨t, ht⟩ := auxText_append cx hlen
  have hlast : (strs payloadPath (wrapped p)).getLast? = some p := by
    rw [show strs payloadPath (wrapped p) = [p] from strs_wrapped hp hb hwok]
    rfl
  have hti : (jsonWalk (auxText cx p (wrapped p).length)).1 = .ok := by
    rw [ht]
    exact (events_append hp hok t).1
  refine ⟨pcOps cx p, losantOps cx (auxText cx p (wrapped p).length) ((auxMemory cx p).drop (wrapped p).length), ?_, ?_,
    fun st => ?_, fun st => ?_⟩
  · rw [mqttRecv_topicPc, pcBranch_eq cx (ne_of_eq_of_ne hok (by simp))]
  · rw [mqttRecv_topicLosant]
    exact losantBranch_eq cx (ne_of_eq_of_ne hwok (by simp)) hlast (ne_of_eq_of_ne hti (by simp))
  · have hr : ∀ path, lastInt cx path cx.tail p = lastInt cx path [] p := fun path => by
      rw [lastInt, lastInt, ints_tail hp hok path cx.tail []]
    have hsw : (lastInt cx switchPath [] p).map (· != 0) = switchD cx p := by
      rw [lastInt, Option.map_map]
      rfl
    rw [pcOps, applyAll_pc_order, hr, hr, hr, hr, hr, hsw]
  · have hr : ∀ path, lastInt cx path ((auxMemory cx p).drop (wrapped p).length) (p ++ t) = lastInt cx path [] p :=
      fun path => by rw [lastInt, lastInt, ints_append hp hok path t _ []]
    rw [losantOps, applyAll_losant_order, ht, hr, hr, hr, hr, bools_append hp hok]

/-- **The two paths agree** exactly when the paths of both texts fit the parser's buffer, the switch means the same to
both branches, and the message has both thresholds or none. -/
theorem agree_iff (hp : IsObject p) (hb : ch '\\' ∉ p) :
    PathsAgree p ↔ (jsonWalk p).1 = .ok ∧ (jsonWalk (wrapped p)).1 = .ok ∧ SwitchAgrees p ∧
      (ReadsInt temperaturePath [] p ↔ ReadsInt moisturePath [] p) := by
  rcases jsonWalk_object hp with hok | hun
  · rcases jsonWalk_object (isObject_wrapped hp.1) with hwok | hwun
    · have hnone : ∀ cx : Context, (lastInt cx temperaturePath [] p = none ↔ lastInt cx moisturePath [] p = none) ↔
          (ReadsInt temperaturePath [] p ↔ ReadsInt moisturePath [] p) := fun cx => by
        rw [lastInt_eq_none_iff, lastInt_eq_none_iff, not_iff_not]
      rw [eq_true hok, eq_true hwok, true_and, true_and, ← switch_iff]
      constructor
      · intro h
        have hst : ∀ (cx : Context) (st : Stores),
            st.commanded (lastInt cx freqPath [] p) (switchD cx p) (lastInt cx waterPath [] p) cx.pc.thresholds
              (lastInt cx temperaturePath [] p) (lastInt cx moisturePath [] p) =
            st.commanded (lastInt cx freqPath [] p) (bools switchPath p).getLast? (lastInt cx waterPath [] p)
              cx.losant.thresholds (lastInt cx temperaturePath [] p) (lastInt cx moisturePath [] p) := fun cx st => by
          obtain ⟨a, b, ha, hb', heq⟩ := h cx
          obtain ⟨a', b', ha', hb'', hca, hcb⟩ := mqttRecv_paths hp hb hok hwok cx
          rw [ha] at ha'
          rw [hb'] at hb''
          cases ha'
          cases hb''
          have := heq st
          rw [hca, hcb] at this
          exact this
        refine ⟨fun cx => switch_eq_of_commanded (hst cx), ?_⟩
        -- locals that differ in both fields
        let cx : Context := { Context.blank with losant := ⟨0, 0, false, ⟨1, 1⟩⟩ }
        exact (hnone cx).mp (thresholds_of_commanded (show (0 : BitVec 8) ≠ 1 by decide)
          (show (0 : BitVec 8) ≠ 1 by decide) (hst cx))
      · rintro ⟨hsw, hth⟩ cx
        obtain ⟨a, b, ha, hb', hca, hcb⟩ := mqttRecv_paths hp hb hok hwok cx
        refine ⟨a, b, ha, hb', fun st => ?_⟩
        rw [hca, hcb]
        exact commanded_congr (hsw cx) ((hnone cx).mpr hth) st
    · refine iff_of_false (fun h => ?_) fun h => by rw [hwun] at h; cases h.2.1
      obtain ⟨a, b, -, hb', -⟩ := h Context.blank
      rw [mqttRecv_topicLosant, losantBranch_undef _ hwun] at hb'
      cases hb'
  · refine iff_of_false (fun h => ?_) fun h => by rw [hun] at h; cases h.1
    obtain ⟨a, b, ha, -⟩ := h Context.blank
    rw [mqttRecv_topicPc, pcBranch_undef _ hun] at ha
    cases ha

/-- The object that switches the measurements on with a number. -/
def switchOn : Bytes := str "\x7b\"measurementSwitch\": 1\x7d"

theorem isObject_switchOn : IsObject switchOn := by
  have hkey : IsString (str "\"measurementSwitch\"") := ⟨str "measurementSwitch", .of_ascii (by decide), by decide⟩
  have hm : JsonText .members ([] ++ (str "\"measurementSwitch\"" ++ ([] ++ 58 :: (str " " ++
      (JsonNumber.text ⟨false, [49], [], none, by decide, by simp⟩ ++ []))))) :=
    .member isWs_nil hkey isWs_nil isWs_space (.number _) isWs_nil
  exact ⟨JsonText.object hm, rfl⟩

theorem agree_iff_switchOn : PathsAgree switchOn ↔
    (jsonWalk switchOn).1 = .ok ∧ (jsonWalk (wrapped switchOn)).1 = .ok ∧ SwitchAgrees switchOn ∧
      (ReadsInt temperaturePath [] switchOn ↔ ReadsInt moisturePath [] switchOn) :=
  agree_iff isObject_switchOn (by decide)

/-- One topic starts the measurements and the other pauses them. -/
theorem switchOn_disagrees : IsObject switchOn ∧ ch '\\' ∉ switchOn ∧
    mqttRecv Context.blank topicPc switchOn = some [.setMeasurement] ∧
    mqttRecv Context.blank topicLosant (wrapped switchOn) = some [.clearMeasurement] ∧ ¬ PathsAgree switchOn := by
  have ha : mqttRecv Context.blank topicPc switchOn = some [.setMeasurement] := by decide +kernel
  have hb : mqttRecv Context.blank topicLosant (wrapped switchOn) = some [.clearMeasurement] := by decide +kernel
  refine ⟨isObject_switchOn, by decide, ha, hb, fun h => ?_⟩
  obtain ⟨a, b, ha', hb', hst⟩ := h Context.blank
  rw [ha] at ha'
  rw [hb] at hb'
  cases ha'
  cases hb'
  exact absurd (hst .create) (by decide)

end Agree

end Thronix
