import Thronix.Commands
import Thronix.Lib.Runs
import Mathlib.Data.Finset.Basic

/-!
# Thronix.MqttHeap — the heap blocks of the handler

What `Mqtt_Recv` obtains from the heap and gives back.

* `HeapOp`: one call of `pvPortMalloc` or `vPortFree`.  A `pvPortMalloc` that fails ends in the endless loop of
  `vApplicationMallocFailedHook`, so one that returns has obtained a block that was not live.
* `mqttRecvHeap`: the operations of one call, with the blocks that the heap hands out.  `Report` is taken to return what
  it obtains (`Thronix.UartIf`) and is left out.
* `heap_kept_iff`: the set of live blocks is the same after every call exactly when no message of the run makes the
  scanner allocate for `payload`.
-/

namespace Thronix

open Json Lib

/-! ## Heap operations -/

inductive HeapOp
  | pvPortMalloc (p : ℕ)
  | vPortFree (p : ℕ)
  deriving DecidableEq, Repr

namespace HeapOp

/-- The live blocks after an operation: what the heap hands out was not live. -/
def step (live : Finset ℕ) : HeapOp → Option (Finset ℕ)
  | pvPortMalloc p => if p ∉ live then some (insert p live) else none
  | vPortFree p => some (live.erase p)

/-- The live blocks after a list of operations. -/
def run : Finset ℕ → List HeapOp → Option (Finset ℕ)
  | live, [] => some live
  | live, op :: ops => (step live op).bind fun live => run live ops

end HeapOp

/-- Every block is freed as often as it is obtained. -/
def FreedOnce (ops : List HeapOp) : Prop := ∀ p, ops.count (.pvPortMalloc p) = ops.count (.vPortFree p)

/-! ## The handler -/

/-- The `%Q` case of `json_scanf_cb` over the callbacks of a walk: the blocks it obtains, and the blocks left. -/
def scanQHeap (path : Bytes) : List Event → List ℕ → Option (List ℕ × List ℕ)
  | [], blocks => some ([], blocks)
  | e :: es, blocks =>
    match strAt path e with
    | none => scanQHeap path es blocks
    | some _ => do
      let dst ← blocks.head?
      (scanQHeap path es blocks.tail).map fun (dsts, blocks) => (dst :: dsts, blocks)

/-- `json_scanf((const char *)payload, pay_len, "{ payload: %Q }", &aux)`, where the topic asks for it. -/
def auxHeap (topstr payload : Bytes) (blocks : List ℕ) : Option (List ℕ × List ℕ) :=
  if strncmpEq (outputStr topstr) topicLosant topstr.length then scanQHeap payloadPath (events payload) blocks
  else some ([], blocks)

/-- `Mqtt_Recv`: its heap operations; `blocks` is what the calls of `pvPortMalloc` return. -/
def mqttRecvHeap (cx : Context) (topstr payload : Bytes) (blocks : List ℕ) : Option (List HeapOp) := do
  let _ ← mqttRecv cx topstr payload
  let outputTopic ← blocks.head?
  -- `aux` is overwritten with every value and never freed
  let (aux, blocks) ← auxHeap topstr payload blocks.tail
  let outputPayload ← blocks.head?
  return .pvPortMalloc outputTopic :: (aux.map .pvPortMalloc ++
    [.vPortFree outputTopic, .pvPortMalloc outputPayload, .vPortFree outputPayload])

/-- One call of the handler. -/
structure Received where
  cx : Context
  topstr : Bytes
  payload : Bytes
  /-- The blocks that the heap hands out during the call. -/
  blocks : List ℕ

namespace Received

variable (m : Received)

def heapOps : Option (List HeapOp) := mqttRecvHeap m.cx m.topstr m.payload m.blocks

/-- The live blocks after the call. -/
def step (live : Finset ℕ) : Option (Finset ℕ) := m.heapOps.bind (HeapOp.run live)

/-- The Losant branch runs and some value under `payload` can be unescaped. -/
def Allocates : Prop :=
  strncmpEq (outputStr m.topstr) topicLosant m.topstr.length = true ∧ ReadsStr payloadPath m.payload

/-- Each block that the call obtains it frees once. -/
def Frees : Prop := ∀ ops, m.heapOps = some ops → FreedOnce ops

end Received

/-! ## One call -/

section Scan

variable {path : Bytes} {es : List Event} {blocks dsts rest : List ℕ}

/-- The scanner allocates once for every value it can unescape. -/
theorem length_scanQHeap (h : scanQHeap path es blocks = some (dsts, rest)) :
    dsts.length = (es.filterMap (strAt path)).length := by
  induction es generalizing blocks dsts rest with
  | nil =>
    obtain ⟨rfl, -⟩ := Prod.mk.inj (Option.some.inj h)
    rfl
  | cons e es ih =>
    rw [scanQHeap] at h
    rcases he : strAt path e with _ | t
    · rw [he] at h
      rw [List.filterMap_cons_none he]
      exact ih h
    · rw [he] at h
      obtain ⟨dst, -, hrest⟩ := Option.bind_eq_some_iff.mp h
      obtain ⟨⟨dsts', rest'⟩, hscan, heq⟩ := Option.map_eq_some_iff.mp hrest
      obtain ⟨rfl, -⟩ := Prod.mk.inj heq
      rw [List.filterMap_cons_some he, List.length_cons, List.length_cons, ih hscan]

end Scan

section Heap

variable {live live' : Finset ℕ} {ps : List ℕ} {ops : List HeapOp}

/-- Blocks obtained in a row are live and new. -/
theorem HeapOp.run_mallocs (h : run live (ps.map pvPortMalloc ++ ops) = some live') :
    ∃ mid, run mid ops = some live' ∧ live ⊆ mid ∧ (∀ p ∈ ps, p ∈ mid ∧ p ∉ live) ∧ (ps = [] → mid = live) := by
  induction ps generalizing live with
  | nil => exact ⟨live, h, subset_rfl, List.forall_mem_nil _, fun _ => rfl⟩
  | cons p ps ih =>
    obtain ⟨live1, hp, hrest⟩ := Option.bind_eq_some_iff.mp h
    obtain ⟨hnew, rfl⟩ := guard_eq_some.mp hp
    obtain ⟨mid, hrun, hsub, hmem, -⟩ := ih hrest
    refine ⟨mid, hrun, (Finset.subset_insert p live).trans hsub, ?_, fun hps => absurd hps (List.cons_ne_nil p ps)⟩
    refine List.forall_mem_cons.mpr ⟨⟨hsub (Finset.mem_insert_self p live), hnew⟩, fun q hq => ?_⟩
    obtain ⟨h1, h2⟩ := hmem q hq
    exact ⟨h1, fun hl => h2 (Finset.mem_insert_of_mem hl)⟩

end Heap

namespace Received

variable {m : Received} {live live' : Finset ℕ} {ops : List HeapOp}

/-- The operations of a call: two texts, each freed, and the values of `payload` in between. -/
theorem heapOps_eq (h : m.heapOps = some ops) : ∃ outputTopic aux outputPayload,
    ops = .pvPortMalloc outputTopic :: (aux.map .pvPortMalloc ++
      [.vPortFree outputTopic, .pvPortMalloc outputPayload, .vPortFree outputPayload]) ∧
    (aux = [] ↔ ¬m.Allocates) := by
  obtain ⟨-, -, h⟩ := Option.bind_eq_some_iff.mp h
  obtain ⟨outputTopic, -, h⟩ := Option.bind_eq_some_iff.mp h
  obtain ⟨⟨aux, blocks⟩, haux, h⟩ := Option.bind_eq_some_iff.mp h
  obtain ⟨outputPayload, -, h⟩ := Option.bind_eq_some_iff.mp h
  refine ⟨outputTopic, aux, outputPayload, (Option.some.inj h).symm, ?_⟩
  unfold auxHeap at haux
  by_cases htopic : strncmpEq (outputStr m.topstr) topicLosant m.topstr.length = true
  · rw [if_pos htopic] at haux
    have hlen : aux.length = (strs payloadPath m.payload).length := length_scanQHeap haux
    rw [Allocates, and_iff_right htopic, ← strs_eq_nil_iff, ← List.length_eq_zero_iff, hlen, List.length_eq_zero_iff]
  · rw [if_neg htopic] at haux
    obtain ⟨rfl, -⟩ := Prod.mk.inj (Option.some.inj haux)
    exact iff_of_true rfl fun ha => htopic ha.1

/-- The live blocks are the same after a call exactly when it does not allocate for `payload`. -/
theorem step_kept_iff (h : m.step live = some live') : live' = live ↔ ¬m.Allocates := by
  obtain ⟨ops, hops, hrun⟩ := Option.bind_eq_some_iff.mp h
  obtain ⟨a, aux, b, rfl, haux⟩ := heapOps_eq hops
  obtain ⟨live1, ha, hrun⟩ := Option.bind_eq_some_iff.mp hrun
  obtain ⟨hanew, rfl⟩ := guard_eq_some.mp ha
  obtain ⟨mid, hrun, -, hmem, hnil⟩ := HeapOp.run_mallocs hrun
  -- the two texts are gone again: what is left are the values of `payload`
  have hlive : live' = mid.erase a := by
    have hafter : HeapOp.run (mid.erase a) [.pvPortMalloc b, .vPortFree b] = some live' := hrun
    obtain ⟨live2, hb, hrun⟩ := Option.bind_eq_some_iff.mp hafter
    obtain ⟨hbnew, rfl⟩ := guard_eq_some.mp hb
    rw [← Option.some.inj hrun, Finset.erase_insert hbnew]
  rw [← haux, hlive]
  constructor
  · intro hkept
    refine List.eq_nil_iff_forall_not_mem.mpr fun p hp => ?_
    obtain ⟨hmid, hnew⟩ := hmem p hp
    have hne : p ≠ a := fun hpa => hnew (hpa ▸ Finset.mem_insert_self a live)
    have hold : p ∈ live := hkept ▸ Finset.mem_erase.mpr ⟨hne, hmid⟩
    exact hnew (Finset.mem_insert_of_mem hold)
  · intro hempty
    rw [hnil hempty, Finset.erase_insert hanew]

/-- A call that does not allocate for `payload` frees each of its blocks once. -/
theorem frees_of_not_allocates (h : ¬m.Allocates) : m.Frees := by
  intro ops hops p
  obtain ⟨a, aux, b, rfl, haux⟩ := heapOps_eq hops
  rw [haux.mpr h]
  simp [List.count_cons]

end Received

/-! ## Every sequence of messages -/

section Runs

variable {live₀ live : Finset ℕ} {h : List Received}

/-- The live blocks after each call of a run are those before it, and each block is freed once. -/
def HeapKept (live₀ : Finset ℕ) (h : List Received) : Prop :=
  (∀ post m pre before after, h = post ++ m :: pre → Run (fun l m => m.step l) live₀ pre before →
    m.step before = some after → after = before) ∧ ∀ m ∈ h, m.Frees

/-- **The heap over a run.**  The handler keeps the heap exactly in the runs without a message on the Losant topic
that holds a string under `payload`; after such a run the live blocks are those before it. -/
theorem heap_kept_iff (hr : Run (fun l m => m.step l) live₀ h live) :
    (HeapKept live₀ h ↔ ∀ m ∈ h, ¬m.Allocates) ∧ ((∀ m ∈ h, ¬m.Allocates) → live = live₀) := by
  refine ⟨⟨?_, ?_⟩, ?_⟩
  · rintro ⟨hkept, -⟩ m hm
    obtain ⟨post, pre, rfl⟩ := List.append_of_mem hm
    obtain ⟨before, after, hpre, -, hstep⟩ := hr.split
    exact (Received.step_kept_iff hstep).mp (hkept post m pre before after rfl hpre hstep)
  · intro hquiet
    refine ⟨?_, fun m hm => Received.frees_of_not_allocates (hquiet m hm)⟩
    rintro post m pre before after rfl - hstep
    exact (Received.step_kept_iff hstep).mpr (hquiet m (List.mem_append_right _ List.mem_cons_self))
  · refine hr.inv (I := fun h live => (∀ m ∈ h, ¬m.Allocates) → live = live₀) (fun _ => rfl) ?_
    intro h before m after _ ih _ hstep hquiet
    obtain ⟨hm, hold⟩ := List.forall_mem_cons.mp hquiet
    rw [(Received.step_kept_iff hstep).mpr hm, ih hold]

end Runs

/-- A new measuring interval from the GUI. -/
def measuresFreqReceived : Received := ⟨.blank, topicPc, str "\x7b\"measuresFreq\": 5\x7d", [0, 1]⟩

/-- A string from Losant. -/
def payloadReceived : Received := ⟨.blank, topicLosant, str "\x7b\"payload\": \"x\"\x7d", [0, 1, 2]⟩

theorem heap_kept_iff_measuresFreq : HeapKept ∅ [measuresFreqReceived] := by
  have hstep : measuresFreqReceived.step ∅ = some ∅ := by decide +kernel
  have htopic : strncmpEq (outputStr measuresFreqReceived.topstr) topicLosant measuresFreqReceived.topstr.length =
      false := by decide
  have hquiet : ¬measuresFreqReceived.Allocates := by
    rintro ⟨h, -⟩
    rw [htopic] at h
    cases h
  exact (heap_kept_iff (.snoc .start trivial hstep)).1.mpr (List.forall_mem_singleton.mpr hquiet)

/-- The block for `x` is live after the call. -/
theorem payload_leaks :
    ¬∀ (live₀ live : Finset ℕ) (h : List Received), Run (fun l m => m.step l) live₀ h live → HeapKept live₀ h := by
  intro hall
  have hstep : payloadReceived.step ∅ = some {1} := by decide +kernel
  have hkept := (hall ∅ {1} [payloadReceived] (.snoc .start trivial hstep)).1
  exact absurd (hkept [] _ [] ∅ {1} rfl .start hstep) (by decide)

end Thronix
