import Thronix.Commands
import Thronix.Watering
import Thronix.Json.Extend
import Mathlib.Tactic.Ring

/-!
# Thronix.Exact — which numbers a command stores exactly

A number `v` sent under one of the four numeric keys goes through `sscanf("%d")`, a multiplication modulo `2 ^ 32` by
the key's scale, or a narrowing to a `char`.

* `NumericKey`: the four keys with their path, scale and width, and the store each of them writes.
* `lastInt_eq`: of the values under a key, the last that begins with an integer counts, a number with its integer
  part, whatever the memory holds behind the payload.
* `Storable`: the number asked for is a natural number that fits, and its distance to what that integer gives is a
  multiple of the modulus.  For a key given once and without an exponent: `v` is an integer, not negative, and it fits
  (`storable_iff_of_exp_none`).
* `storedExactly_iff`: those are the numbers stored exactly, on either topic; and a watering time among them keeps the
  relay on no longer than asked.
-/

namespace Thronix

open Json Lib

/-! ## The keys -/

/-- The keys whose value is stored as a number. -/
inductive NumericKey
  | measuresFreq
  | wateringTime
  | temperatureThreshold
  | moistureThreshold
  deriving DecidableEq, Repr

namespace NumericKey

def path : NumericKey → Bytes
  | measuresFreq => freqPath
  | wateringTime => waterPath
  | temperatureThreshold => temperaturePath
  | moistureThreshold => moisturePath

/-- What the value is multiplied by: milliseconds of a minute and of a second. -/
def scale : NumericKey → ℕ
  | measuresFreq => 60000
  | wateringTime => 1000
  | temperatureThreshold => 1
  | moistureThreshold => 1

/-- The bits of the stored field. -/
def width : NumericKey → ℕ
  | measuresFreq => 32
  | wateringTime => 32
  | temperatureThreshold => 8
  | moistureThreshold => 8

/-- The number in the key's store. -/
def stored (st : Stores) : NumericKey → Option ℕ
  | measuresFreq => st.freqQueue.item.map BitVec.toNat
  | wateringTime => st.waterQueue.item.map BitVec.toNat
  | temperatureThreshold => st.thresholdsQueue.item.map fun th => th.temperature.toNat
  | moistureThreshold => st.thresholdsQueue.item.map fun th => th.moisture.toNat

/-- What the handler stores for the `uint32_t` it read. -/
def word (x : BitVec 32) : NumericKey → ℕ
  | measuresFreq => (x * 1000 * 60).toNat
  | wateringTime => (x * 1000).toNat
  | temperatureThreshold => (x.setWidth 8).toNat
  | moistureThreshold => (x.setWidth 8).toNat

theorem word_eq (k : NumericKey) (x : BitVec 32) : k.word x = (k.scale * x.toNat) % 2 ^ k.width := by
  rcases k with _ | _ | _ | _
  · show (x * 1000 * 60).toNat = (60000 * x.toNat) % 2 ^ 32
    rw [BitVec.toNat_mul, BitVec.toNat_mul]
    show x.toNat * 1000 % 2 ^ 32 * 60 % 2 ^ 32 = _
    omega
  · show (x * 1000).toNat = (1000 * x.toNat) % 2 ^ 32
    rw [BitVec.toNat_mul]
    show x.toNat * 1000 % 2 ^ 32 = _
    omega
  · show (x.setWidth 8).toNat = (1 * x.toNat) % 2 ^ 8
    rw [BitVec.toNat_setWidth, one_mul]
  · show (x.setWidth 8).toNat = (1 * x.toNat) % 2 ^ 8
    rw [BitVec.toNat_setWidth, one_mul]

theorem width_le (k : NumericKey) : k.width ≤ 32 := by
  rcases k with _ | _ | _ | _ <;> decide

theorem scale_pos (k : NumericKey) : 0 < k.scale := by
  rcases k with _ | _ | _ | _ <;> decide

theorem path_ne_nil (k : NumericKey) : k.path ≠ [] := by
  rcases k with _ | _ | _ | _ <;> decide

/-- The keys' stores after a message: each has the word of the last number under its key. -/
theorem stored_commanded (k : NumericKey) (st : Stores) (b : Option Bool) (th : SystemThresholds)
    (r : Bytes → Option (BitVec 32)) {x : BitVec 32} (hx : r k.path = some x) :
    k.stored (st.commanded (r freqPath) b (r waterPath) th (r temperaturePath) (r moisturePath)) =
      some (k.word x) := by
  rcases k with _ | _ | _ | _
  · simp only [path] at hx
    simp [stored, word, Stores.commanded, hx]
  · simp only [path] at hx
    simp [stored, word, Stores.commanded, hx]
  · simp only [path] at hx
    simp [stored, word, Stores.commanded, hx]
  · simp only [path] at hx
    simp [stored, word, Stores.commanded, hx]

end NumericKey

/-! ## The number read -/

/-- The number `v` is one of the values that the text gives the key. -/
def Sends (path s : Bytes) (v : JsonNumber) : Prop :=
  ∃ e ∈ events s, e.path = path ∧ e.token.type = .number ∧
    ∃ rest, e.token.ptr = some (v.text ++ rest) ∧ e.token.len = v.text.length

/-- The integer a value's own text begins with: the integer part of a number, or that of a string's characters. -/
def integerOf (e : Json.Event) : Option ℤ := e.token.ptr.bind fun p => (sscanfD (p.take e.token.len)).int?

/-- The integer of the last value under the key that begins with one. -/
def lastInteger (path s : Bytes) : Option ℤ := (((events s).filter (·.path = path)).filterMap integerOf).getLast?

theorem sscanfD_text (v : JsonNumber) : sscanfD v.text = .val v.lead := by
  have := sscanfD_number v (r := []) (by simp)
  rwa [List.append_nil] at this

theorem integerOf_number {e : Json.Event} {v : JsonNumber} {rest : Bytes} (hptr : e.token.ptr = some (v.text ++ rest))
    (hlen : e.token.len = v.text.length) : integerOf e = some v.lead := by
  rw [integerOf, hptr, Option.bind_some, hlen, List.take_left, sscanfD_text]
  rfl

/-- A key given a number has an integer. -/
theorem exists_lastInteger {path s : Bytes} {v : JsonNumber} (h : Sends path s v) :
    ∃ l, lastInteger path s = some l := by
  obtain ⟨e, he, hpath, -, rest, hptr, hlen⟩ := h
  have hmem : v.lead ∈ ((events s).filter (·.path = path)).filterMap integerOf :=
    List.mem_filterMap.mpr ⟨e, List.mem_filter.mpr ⟨he, by simpa using hpath⟩, integerOf_number hptr hlen⟩
  rcases hl : lastInteger path s with _ | l
  · rw [lastInteger, List.getLast?_eq_none_iff] at hl
    rw [hl] at hmem
    cases hmem
  · exact ⟨l, rfl⟩

/-- A number that is the last value under its key counts with its integer part. -/
theorem lastInteger_of_last {path s : Bytes} {e : Json.Event} {v : JsonNumber} {rest : Bytes}
    (hlast : ((events s).filter (·.path = path)).getLast? = some e) (hptr : e.token.ptr = some (v.text ++ rest))
    (hlen : e.token.len = v.text.length) : lastInteger path s = some v.lead := by
  obtain ⟨init, hinit⟩ := List.getLast?_eq_some_iff.mp hlast
  rw [lastInteger, hinit, List.filterMap_append, List.filterMap_cons_some (integerOf_number hptr hlen),
    List.filterMap_nil, List.getLast?_concat]

/-- In an accepted text, `%d` reads a value by its own text, whatever the memory holds behind it. -/
theorem sscanfD_of_event {s : Bytes} (hok : (jsonWalk s).1 = .ok) {e : Json.Event} (he : e ∈ events s) (hp : e.path ≠ [])
    {p : Bytes} (hptr : e.token.ptr = some p) (tail : Bytes) :
    (sscanfD (p ++ tail)).int? = (sscanfD (p.take e.token.len)).int? := by
  by_cases ht : e.token.type = .number
  · rcases jsonWalk_append hok with hext | ⟨-, hflat⟩
    · -- the same token of the text that goes on with `tail`
      have he' : e.extend tail ∈ events (s ++ tail) := by
        unfold events
        rw [hext tail]
        exact List.mem_map_of_mem he
      obtain ⟨q, hq, v, r, hv, hvlen, -⟩ := (eventOk_of_mem_events he).number ht
      obtain ⟨q', hq', v', r', hv', hvlen', hdig⟩ := (eventOk_of_mem_events he').number ht
      obtain rfl : p = q := Option.some.inj (hptr.symm.trans hq)
      obtain rfl : p ++ tail = q' := by
        have hpt : (e.extend tail).token.ptr = some (p ++ tail) := by
          show e.token.ptr.map _ = _
          rw [hptr]
          rfl
        exact Option.some.inj (hpt.symm.trans hq')
      have htext : v'.text = v.text := by
        rw [hv, List.append_assoc] at hv'
        exact (List.append_inj hv'.symm (hvlen'.trans hvlen.symm)).1
      have htake : p.take e.token.len = v.text := by rw [hv, ← hvlen, List.take_left]
      rw [htake, hv', sscanfD_number v' hdig, ← htext, sscanfD_text]
    · exact absurd (hflat e he) hp
  · exact sscanfD_marked ((eventOk_of_mem_events he).mark ht p hptr) tail

/-- **What is read under a key** of an accepted text. -/
theorem lastInt_eq {s : Bytes} (hok : (jsonWalk s).1 = .ok) {path : Bytes} (hp : path ≠ []) (cx : Context)
    (tail : Bytes) : lastInt cx path tail s = (lastInteger path s).map cx.int := by
  have hread : ∀ e ∈ events s, intAt path tail e = if e.path = path then integerOf e else none := fun e he => by
    unfold intAt
    by_cases hpath : e.path = path
    · rw [if_neg (not_not.mpr hpath), if_pos hpath, integerOf]
      rcases hptr : e.token.ptr with _ | p
      · rfl
      · have := sscanfD_of_event hok he (hpath ▸ hp) hptr tail
        rw [Option.bind_some, Option.bind_some, ← this]
        rcases sscanfD (p ++ tail) with _ | _ | v <;> rfl
    · rw [if_pos hpath, if_neg hpath]
  have hints : ints path tail s = ((events s).filter (·.path = path)).filterMap integerOf := by
    unfold ints
    rw [List.filterMap_congr hread, List.filterMap_filter]
    refine List.filterMap_congr fun e _ => ?_
    simp
  unfold lastInt lastInteger
  rw [hints]

/-! ## The numbers stored exactly -/

section Storable

/-- The range of `int`. -/
def InIntRange (n : ℤ) : Prop := -2 ^ 31 ≤ n ∧ n < 2 ^ 31

/-- The number asked for, `scale * v`, is a natural number of the key's width, and a multiple of the modulus away from
what the integer `l` gives. -/
def Storable (k : NumericKey) (l : ℤ) (v : JsonNumber) : Prop :=
  InIntRange l ∧ 0 ≤ k.scale * v.value ∧ k.scale * v.value < 2 ^ k.width ∧
    ∃ n : ℤ, k.scale * v.value = k.scale * l + n * 2 ^ k.width

/-- Without an exponent, only an integer that is not negative and fits is stored exactly by its own integer part. -/
theorem storable_iff_of_exp_none (k : NumericKey) {v : JsonNumber} (he : v.exp = none) :
    Storable k v.lead v ↔ v.value = v.lead ∧ 0 ≤ v.lead ∧ k.scale * v.lead < 2 ^ k.width := by
  have hs : (0 : ℚ) < k.scale := by exact_mod_cast k.scale_pos
  have hw : (0 : ℚ) < 2 ^ k.width := by positivity
  constructor
  · rintro ⟨-, h0, hlt, n, hn⟩
    have hv0 : 0 ≤ v.value := nonneg_of_mul_nonneg_right h0 hs
    have heq : v.value = v.lead := by
      rcases hneg : v.neg with _ | _
      · -- the distance is a multiple of the modulus and smaller than it
        have hle := v.lead_le_value he hneg
        have hl0 : (0 : ℚ) ≤ v.lead := by
          simp only [JsonNumber.lead, hneg, Bool.false_eq_true, if_false]
          positivity
        have hmul : (k.scale : ℚ) * v.lead ≤ k.scale * v.value := mul_le_mul_of_nonneg_left hle hs.le
        have hprod : (0 : ℚ) ≤ k.scale * v.lead := mul_nonneg hs.le hl0
        have hn0 : (0 : ℚ) ≤ n * 2 ^ k.width := by linarith
        have hn1 : (n : ℚ) * 2 ^ k.width < 1 * 2 ^ k.width := by linarith
        have h1 : n < 1 := by exact_mod_cast lt_of_mul_lt_mul_right hn1 hw.le
        have h2 : 0 ≤ n := by exact_mod_cast nonneg_of_mul_nonneg_left hn0 hw
        have : n = 0 := by omega
        rw [this] at hn
        have : (k.scale : ℚ) * v.value = k.scale * v.lead := by simpa using hn
        exact mul_left_cancel₀ hs.ne' this
      · have hle := v.value_le_lead he hneg
        have hl0 : (v.lead : ℚ) ≤ 0 := by
          simp only [JsonNumber.lead, hneg, if_true]
          push_cast
          simp
        linarith
    rw [heq] at h0 hlt
    refine ⟨heq, ?_, ?_⟩
    · have : (0 : ℚ) ≤ v.lead := heq ▸ hv0
      exact_mod_cast this
    · exact_mod_cast hlt
  · rintro ⟨heq, h0, hlt⟩
    have hlead : v.lead < 2 ^ 31 := by
      rcases k with _ | _ | _ | _ <;> simp only [NumericKey.scale, NumericKey.width] at hlt <;> push_cast at hlt <;>
        omega
    refine ⟨⟨by omega, hlead⟩, ?_, ?_, 0, by rw [heq]; ring⟩
    · rw [heq]
      have : (0 : ℚ) ≤ v.lead := by exact_mod_cast h0
      positivity
    · rw [heq]
      exact_mod_cast hlt

/-- A residue is a given rational exactly when that is in the range of residues and congruent. -/
theorem emod_eq_iff (x : ℤ) {m : ℤ} (hm : 0 < m) (q : ℚ) :
    ((x % m : ℤ) : ℚ) = q ↔ 0 ≤ q ∧ q < m ∧ ∃ n : ℤ, q = x + n * m := by
  constructor
  · rintro rfl
    refine ⟨?_, ?_, -(x / m), ?_⟩
    · exact_mod_cast Int.emod_nonneg x hm.ne'
    · exact_mod_cast Int.emod_lt_of_pos x hm
    · have := Int.emod_add_mul_ediv x m
      have h2 : x % m = x + -(x / m) * m := by linarith
      exact_mod_cast h2
  · rintro ⟨h0, h1, n, rfl⟩
    have h0' : 0 ≤ x + n * m := by exact_mod_cast h0
    have h1' : x + n * m < m := by exact_mod_cast h1
    have : x % m = x + n * m := by
      rw [← Int.add_mul_emod_self_right x n m]
      exact Int.emod_eq_of_lt h0' h1'
    exact_mod_cast this

/-- The word stored for an integer part in range. -/
theorem word_int (k : NumericKey) (cx : Context) {l : ℤ} (hl : InIntRange l) :
    ((k.word (cx.int l) : ℕ) : ℤ) = (k.scale * l) % 2 ^ k.width := by
  have hint : cx.int l = BitVec.ofInt 32 l := if_pos hl
  have hdvd : (2 : ℤ) ^ k.width ∣ 2 ^ 32 := pow_dvd_pow 2 k.width_le
  rw [NumericKey.word_eq, hint]
  push_cast
  have htn : ((BitVec.ofInt 32 l).toNat : ℤ) = l % 2 ^ 32 := by
    rw [BitVec.toNat_ofInt]
    have : 0 ≤ l % 2 ^ 32 := Int.emod_nonneg _ (by norm_num)
    exact Int.toNat_of_nonneg this
  rw [htn, Int.mul_emod, Int.emod_emod_of_dvd l hdvd, ← Int.mul_emod]

/-- Whatever `sscanf` stores for a number out of range, the word stored for `l` is the number asked for exactly when
`v` is storable by `l`. -/
theorem word_eq_iff_storable (k : NumericKey) (cx : Context) (l : ℤ) (v : JsonNumber) :
    (∀ oor, (k.word (Context.int { cx with outOfRange := oor } l) : ℚ) = k.scale * v.value) ↔ Storable k l v := by
  have hw : (0 : ℤ) < 2 ^ k.width := by positivity
  by_cases hl : InIntRange l
  · have hword : ∀ oor, (k.word (Context.int { cx with outOfRange := oor } l) : ℚ) =
        (((k.scale * l) % 2 ^ k.width : ℤ) : ℚ) := fun oor => by
      rw [← word_int k { cx with outOfRange := oor } hl]
      simp
    simp only [hword, forall_const, emod_eq_iff _ hw, Storable, hl, true_and]
    push_cast
    rfl
  · constructor
    · intro h
      exfalso
      have hoor : ∀ oor, Context.int { cx with outOfRange := oor } l = oor l := fun oor => if_neg hl
      have h0 := h fun _ => 0
      have h1 := h fun _ => 1
      rw [hoor] at h0 h1
      rw [← h1] at h0
      have h2 : k.word 0 = k.word 1 := by exact_mod_cast h0
      rcases k with _ | _ | _ | _ <;> exact absurd h2 (by decide)
    · rintro ⟨h, -⟩
      exact absurd h hl

end Storable

/-! ## Either topic -/

/-- A text the parser does not reject is accepted, or its paths do not fit. -/
theorem jsonWalk_cases {s : Bytes} (h : ¬ (jsonWalk s).1.Negative) : (jsonWalk s).1 = .ok ∨ (jsonWalk s).1 = .undef := by
  have hf := jsonWalk_ne_fuel s
  rcases hc : (jsonWalk s).1 with _ | _ | _ | _ | _
  · exact .inl rfl
  · exact absurd (.inl hc) h
  · exact absurd (.inr hc) h
  · exact .inr rfl
  · exact absurd hc hf

section Topics

variable (cx : Context) (k : NumericKey) (s : Bytes) (v : JsonNumber)

/-- After the message the key's store is unchanged, or it holds the number asked for, whatever `sscanf` stores for
numbers out of range and whatever was stored before. -/
def StoredExactly (topstr payload : Bytes) : Prop :=
  ∀ oor, ∃ ops, mqttRecv { cx with outOfRange := oor } topstr payload = some ops ∧ ∀ st : Stores,
    k.stored (st.applyAll ops) = k.stored st ∨
      ∃ x, k.stored (st.applyAll ops) = some x ∧ (x : ℚ) = k.scale * v.value

/-- In every run, what the task sleeps between its two writes to the relay is at most `v` seconds when the time it
peeked is one that the handler of the message stored. -/
def RelayWithin (topstr payload : Bytes) : Prop :=
  ∀ oor h s, Run Station.step Station.init h s → ∀ post mid mid2 mid3 pre x t,
    h = post ++ .waterSleep t :: (mid ++ .waterPeek :: (mid2 ++ .recvOp (.overwriteWater x) ::
      (mid3 ++ .recvCall { cx with outOfRange := oor } topstr payload :: pre))) →
    .waterPeek ∉ mid → (∀ y, .recvOp (.overwriteWater y) ∉ mid2) → .recvReturn ∉ mid3 →
    (t.toNat : ℚ) ≤ 1000 * v.value

/-- The number is stored exactly, and a watering time keeps the relay on no longer than asked. -/
structure Obeyed (topstr payload : Bytes) : Prop where
  stored : StoredExactly cx k v topstr payload
  relay : k = .wateringTime → RelayWithin cx v topstr payload

variable {cx v} in
/-- The relay keeps to the time when each time the message stores does. -/
theorem relayWithin_of_ops {topstr payload : Bytes}
    (h : ∀ oor ops, mqttRecv { cx with outOfRange := oor } topstr payload = some ops →
      ∀ x, .overwriteWater x ∈ ops → (x.toNat : ℚ) ≤ 1000 * v.value) : RelayWithin cx v topstr payload := by
  intro oor h' s hr post mid mid2 mid3 pre x t hh hm hm2 hm3
  obtain rfl : t = x := sleep_eq_stored hr hh hm hm2
  -- the overwrite is one of the handler's calls
  have hsplit : h' = (post ++ .waterSleep t :: (mid ++ .waterPeek :: mid2)) ++ .recvOp (.overwriteWater t) ::
      (mid3 ++ .recvCall { cx with outOfRange := oor } topstr payload :: pre) := by
    rw [hh]
    simp
  obtain ⟨s1, s2, hr1, -, hs⟩ := RunIf.split (hsplit ▸ hr)
  have hcalled : Run Station.step Station.init
      ((.recvOp (.overwriteWater t) :: mid3) ++ .recvCall { cx with outOfRange := oor } topstr payload :: pre) s2 :=
    .snoc hr1 trivial hs
  obtain ⟨ops, -, hops⟩ := Station.calls_mqttRecv hcalled (by simpa using hm3)
  refine h oor _ hops t (List.mem_append_left _ ?_)
  simp [handlerCalls, Event.handlerCall]

theorem overwriteWater_mem_iff {f w t m : Option (BitVec 32)} {b : Option Bool} {th : SystemThresholds}
    {x : BitVec 32} : (.overwriteWater x ∈ freqOps f ∨ .overwriteWater x ∈ switchOps b ∨ .overwriteWater x ∈ waterOps w ∨
      .overwriteWater x ∈ thresholdOps th t m) ↔ ∃ y, w = some y ∧ x = y * 1000 := by
  have hf : .overwriteWater x ∉ freqOps f := by rcases f with _ | _ <;> simp [freqOps]
  have hb : .overwriteWater x ∉ switchOps b := by rcases b with _ | _ | _ <;> simp [switchOps, switchMeasurement]
  have ht : .overwriteWater x ∉ thresholdOps th t m := by
    rcases t with _ | _ <;> rcases m with _ | _ <;> simp [thresholdOps]
  rcases w with _ | y
  · simp [hf, hb, ht, waterOps]
  · simp [hf, hb, ht, waterOps]

/-- A message that leaves the word of `l` in the key's store, and stores no other time. -/
theorem obeyed_of_word {topstr payload : Bytes} {l : ℤ}
    (h : ∀ oor, ∃ ops, mqttRecv { cx with outOfRange := oor } topstr payload = some ops ∧
      (∀ st : Stores, k.stored (st.applyAll ops) = some (k.word (Context.int { cx with outOfRange := oor } l))) ∧
      (k = .wateringTime → ∀ x, .overwriteWater x ∈ ops →
        x.toNat = k.word (Context.int { cx with outOfRange := oor } l))) :
    Obeyed cx k v topstr payload ↔ Storable k l v := by
  rw [← word_eq_iff_storable k cx l v]
  constructor
  · rintro ⟨hx, -⟩ oor
    obtain ⟨ops, hops, hst, -⟩ := h oor
    obtain ⟨ops', hops', hex⟩ := hx oor
    rw [hops] at hops'
    cases hops'
    have hcreate : k.stored Stores.create = none := by rcases k with _ | _ | _ | _ <;> rfl
    rcases hex .create with he | ⟨x, he, hxv⟩
    · rw [hst, hcreate] at he
      cases he
    · rw [hst] at he
      cases he
      exact hxv
  · intro hx
    constructor
    · intro oor
      obtain ⟨ops, hops, hst, -⟩ := h oor
      exact ⟨ops, hops, fun st => .inr ⟨_, hst st, hx oor⟩⟩
    · intro hk
      refine relayWithin_of_ops fun oor ops hops x hmem => ?_
      obtain ⟨ops', hops', -, hword⟩ := h oor
      rw [hops] at hops'
      cases hops'
      rw [hword hk x hmem, hx oor, hk]
      exact le_of_eq (by norm_num [NumericKey.scale])

theorem not_obeyed_of_none {topstr payload : Bytes}
    (h : ∀ cx : Context, mqttRecv { cx with outOfRange := fun _ => 0 } topstr payload = none) :
    ¬ Obeyed cx k v topstr payload := by
  rintro ⟨hx, -⟩
  obtain ⟨ops, hops, -⟩ := hx fun _ => 0
  rw [h] at hops
  cases hops

/-- **The numbers stored exactly**, on the PC topic and on the Losant topic, in a payload that the parser does not
reject: the paths of the payload fit the buffer, and the number is storable by the integer that its key is given last. -/
theorem storedExactly_iff :
    (¬ (jsonWalk s).1.Negative → Sends k.path s v →
      (Obeyed cx k v topicPc s ↔
        (jsonWalk s).1 = .ok ∧ ∃ l, lastInteger k.path s = some l ∧ Storable k l v)) ∧
    (∀ t, ¬ (jsonWalk s).1.Negative → innerText cx s = some t → ¬ (jsonWalk t).1.Negative → Sends k.path t v →
      (Obeyed cx k v topicLosant s ↔
        (jsonWalk s).1 = .ok ∧ (jsonWalk t).1 = .ok ∧ ∃ l, lastInteger k.path t = some l ∧ Storable k l v)) := by
  constructor
  · intro hs hsend
    obtain ⟨l, hl⟩ := exists_lastInteger hsend
    rcases jsonWalk_cases hs with hok | hun
    · have hread : ∀ (cx : Context) (k : NumericKey) (tail : Bytes),
          lastInt cx k.path tail s = (lastInteger k.path s).map cx.int :=
        fun cx k tail => lastInt_eq hok k.path_ne_nil cx tail
      simp only [hok, hl, Option.some.injEq, exists_eq_left', true_and]
      refine obeyed_of_word cx k v fun oor => ⟨pcOps { cx with outOfRange := oor } s, ?_, fun st => ?_, ?_⟩
      · rw [mqttRecv_topicPc, pcBranch_eq _ (by rw [hok]; simp)]
      · unfold pcOps
        rw [applyAll_pc_order]
        exact k.stored_commanded st _ _ (fun p => lastInt _ p _ s) (by rw [hread, hl]; rfl)
      · rintro rfl x hx
        simp only [pcOps, List.mem_append, or_assoc] at hx
        obtain ⟨y, hy, rfl⟩ := overwriteWater_mem_iff.mp hx
        rw [show waterPath = NumericKey.path .wateringTime from rfl, hread, hl] at hy
        rw [← Option.some.inj hy]
        rfl
    · refine iff_of_false (not_obeyed_of_none cx k v fun cx => ?_) fun h => by rw [hun] at h; cases h.1
      rw [mqttRecv_topicPc, pcBranch_undef _ hun]
  · intro t hs hin ht hsend
    obtain ⟨l, hl⟩ := exists_lastInteger hsend
    obtain ⟨aux, haux, rfl⟩ := Option.map_eq_some_iff.mp hin
    rcases jsonWalk_cases hs with hok | hun
    · rcases jsonWalk_cases ht with hokt | hunt
      · have hread : ∀ (cx : Context) (k : NumericKey) (tail t : Bytes), (jsonWalk t).1 = .ok →
            lastInt cx k.path tail t = (lastInteger k.path t).map cx.int :=
          fun cx k tail t ht => lastInt_eq ht k.path_ne_nil cx tail
        simp only [hok, hokt, hl, Option.some.injEq, exists_eq_left', true_and]
        refine obeyed_of_word cx k v fun oor =>
          ⟨losantOps { cx with outOfRange := oor } (auxText cx aux s.length) ((auxMemory cx aux).drop s.length), ?_,
            fun st => ?_, ?_⟩
        · rw [mqttRecv_topicLosant]
          exact losantBranch_eq { cx with outOfRange := oor } (by rw [hok]; simp) haux (ne_of_eq_of_ne hokt (by simp))
        · unfold losantOps
          rw [applyAll_losant_order]
          exact k.stored_commanded st _ _ (fun p => lastInt _ p _ _) (by rw [hread _ _ _ _ hokt, hl]; rfl)
        · rintro rfl x hx
          simp only [losantOps, List.mem_append, or_assoc] at hx
          obtain ⟨y, hy, rfl⟩ := overwriteWater_mem_iff.mp (or_left_comm.mp hx)
          rw [show waterPath = NumericKey.path .wateringTime from rfl, hread _ _ _ _ hokt, hl] at hy
          rw [← Option.some.inj hy]
          rfl
      · refine iff_of_false (fun hx => ?_) fun h => by rw [hunt] at h; cases h.2.1
        obtain ⟨ops, hops, -⟩ := hx.stored cx.outOfRange
        rw [mqttRecv_topicLosant] at hops
        have := losantBranch_undef_inner cx (ne_of_eq_of_ne hok (by simp)) haux hunt
        rw [show ({ cx with outOfRange := cx.outOfRange } : Context) = cx from rfl, this] at hops
        cases hops
    · refine iff_of_false (not_obeyed_of_none cx k v fun cx => ?_) fun h => by rw [hun] at h; cases h.1
      rw [mqttRecv_topicLosant, losantBranch_undef _ hun]

/-- The number `-1`. -/
def minusOne : JsonNumber := ⟨true, [49], [], none, by decide, by simp⟩

/-- Minus one second of watering. -/
def negativeTime : Bytes := str "\x7b\"wateringTime\": -1\x7d"

/-- Minus one second of watering, as the Losant broker sends it. -/
def negativeTimeLosant : Bytes := str "\x7b\"payload\": \x7b\"wateringTime\": -1\x7d\x7d"

theorem sends_negativeTime : Sends waterPath negativeTime minusOne :=
  ⟨⟨waterPath, ⟨some (str "-1\x7d"), 2, .number⟩⟩, by decide +kernel, rfl, rfl, str "\x7d", by decide +kernel, rfl⟩

/-- The theorem at minus one second, on both topics. -/
theorem storedExactly_iff_negativeTime :
    (Obeyed Context.blank .wateringTime minusOne topicPc negativeTime ↔
      (jsonWalk negativeTime).1 = .ok ∧
        ∃ l, lastInteger waterPath negativeTime = some l ∧ Storable .wateringTime l minusOne) ∧
    (Obeyed Context.blank .wateringTime minusOne topicLosant negativeTimeLosant ↔
      (jsonWalk negativeTimeLosant).1 = .ok ∧
        (jsonWalk (auxText Context.blank negativeTime negativeTimeLosant.length)).1 = .ok ∧
        ∃ l, lastInteger waterPath (auxText Context.blank negativeTime negativeTimeLosant.length) = some l ∧
          Storable .wateringTime l minusOne) := by
  refine ⟨(storedExactly_iff Context.blank .wateringTime negativeTime minusOne).1 (by decide +kernel)
    sends_negativeTime, (storedExactly_iff Context.blank .wateringTime negativeTimeLosant minusOne).2
      (auxText Context.blank negativeTime negativeTimeLosant.length) (by decide +kernel) (by decide +kernel)
      (by decide +kernel) ?_⟩
  exact ⟨⟨waterPath, ⟨some (str "-1\x7d" ++ List.replicate 13 0), 2, .number⟩⟩, by decide +kernel, rfl, rfl,
    str "\x7d" ++ List.replicate 13 0, by decide +kernel, rfl⟩

/-- Minus one second waters for 4294966296 milliseconds, more than 49 days. -/
theorem negativeTime_not_exact :
    (jsonWalk negativeTime).1 = .ok ∧ Sends waterPath negativeTime minusOne ∧
      mqttRecv Context.blank topicPc negativeTime = some [.overwriteWater 4294966296, .setWater] ∧
      ¬ StoredExactly Context.blank .wateringTime minusOne topicPc negativeTime := by
  have hops : mqttRecv Context.blank topicPc negativeTime = some [.overwriteWater 4294966296, .setWater] := by
    decide +kernel
  refine ⟨by decide +kernel, sends_negativeTime, hops, fun h => ?_⟩
  obtain ⟨ops, hops', hex⟩ := h Context.blank.outOfRange
  rw [show ({ Context.blank with outOfRange := Context.blank.outOfRange } : Context) = Context.blank from rfl, hops]
    at hops'
  cases hops'
  rcases hex .create with h0 | ⟨x, hx, hv⟩
  · exact absurd h0 (by decide)
  · have hx' : x = 4294966296 := (Option.some.inj hx).symm
    have hdig : natOfDigits minusOne.int = 1 := by decide
    have hval : minusOne.value = -1 := by
      simp only [JsonNumber.value, JsonNumber.mantissa, hdig]
      norm_num [minusOne, natOfDigits]
    rw [hx', hval] at hv
    norm_num [NumericKey.scale] at hv

end Topics

end Thronix
