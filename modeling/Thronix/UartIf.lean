import Thronix.MqttHeap

/-!
# Thronix.UartIf — `Report`

`Report` of `common/uart_if.c` with `mem_Malloc`, `mem_Realloc` and `mem_Free` of `osal/osi_freertos.c`.  Each attempt to
allocate succeeds or fails; the text is what the format and its arguments give, without its terminator.

* `Pointer`: a pointer variable, which holds no block before it is set.
* `ReportState`: the blocks that `Report` holds, their contents, and what it has done so far.  What C gives no meaning
  to is `none`: a pointer that is no live block freed, moved, read or written, and an overflow of `iSize`.
* `report_keeps_iff`: for which texts `Report` prints what it was given and returns what it obtained.
-/

namespace Thronix

open Json

/-! ## Heap -/

inductive Pointer
  | uninitialised
  | null
  | block (p : ℕ)
  deriving DecidableEq, Repr

structure ReportState where
  owned : Finset ℕ
  contents : ℕ → Bytes
  /-- Calls of `pvPortMalloc`, failed ones included; the one that succeeds as number `p` gives block `p`. -/
  attempts : ℕ
  ops : List HeapOp
  /-- What `mem_Realloc` and `mem_Free` were given, and the blocks that were held. -/
  given : List (Pointer × Finset ℕ)
  messages : List Bytes

namespace ReportState

def start : ReportState := ⟨∅, fun _ => [], 0, [], [], []⟩

variable (s : ReportState)

def memMalloc (alloc : ℕ → Bool) : Pointer × ReportState :=
  if alloc s.attempts then
    (.block s.attempts, { s with
      owned := insert s.attempts s.owned
      attempts := s.attempts + 1
      ops := s.ops ++ [.pvPortMalloc s.attempts] })
  else (.null, { s with attempts := s.attempts + 1 })

/-- `vPortFree` of a block. -/
def vPortFree (p : ℕ) : Option ReportState :=
  if p ∈ s.owned then some { s with owned := s.owned.erase p, ops := s.ops ++ [.vPortFree p] } else none

/-- The call is noted with what is held at that moment. -/
def note (ptr : Pointer) : ReportState := { s with given := s.given ++ [(ptr, s.owned)] }

/-- `mem_Realloc`: a new block, the contents copied, and the old block freed even if there is no new one. -/
def memRealloc (alloc : ℕ → Bool) (ptr : Pointer) (size : ℤ) : Option (Pointer × ReportState) :=
  match ptr with
  | .uninitialised => none
  | .null => some ((s.note ptr).memMalloc alloc)
  | .block p =>
    match (s.note ptr).memMalloc alloc with
    | (.block q, s) =>
      let s := { s with contents := Function.update s.contents q ((s.contents p).take size.toNat) }
      (s.vPortFree p).map fun s => (.block q, s)
    | (new, s) => (s.vPortFree p).map fun s => (new, s)

def memFree (ptr : Pointer) : Option ReportState :=
  match ptr with
  | .uninitialised => none
  | .null => some (s.note ptr)
  | .block p => (s.note ptr).vPortFree p

/-- `Message`: nothing is printed for a null pointer. -/
def message (ptr : Pointer) : Option ReportState :=
  match ptr with
  | .uninitialised => none
  | .null => some s
  | .block p => if p ∈ s.owned then some { s with messages := s.messages ++ [s.contents p] } else none

/-- `vsnprintf`: what fits, and the length of the whole text; there is no result for one that no `int` holds. -/
def vsnprintf (ptr : Pointer) (size : ℤ) (text : Bytes) : Option (ℤ × ReportState) :=
  match ptr with
  | .block p =>
    if p ∈ s.owned then
      some (if text.length < 2 ^ 31 then text.length else -1,
        { s with contents := Function.update s.contents p (text.take (size - 1).toNat) })
    else none
  | _ => none

end ReportState

/-! ## `Report` -/

namespace UartIf

variable (text : Bytes) (alloc : ℕ → Bool)

def couldNotReallocate : Bytes := str "Could not reallocate memory\n\r"

/-- The loop of `Report`: `pcBuff` and `iRet` where it is left.  `iSize` is an `int` that doubles, so that it
overflows before the rounds are used up. -/
def reportLoop : ℕ → Pointer → Pointer → ℤ → ReportState → Option (Pointer × ℤ × ReportState)
  | 0, _, _, _, _ => none
  | rounds + 1, pcBuff, pcTemp, iSize, s => do
    let (iRet, s) ← s.vsnprintf pcBuff iSize text
    if iRet > -1 ∧ iRet < iSize then some (pcBuff, iRet, s)
    else if iSize * 2 < 2 ^ 31 then do
      let (pcTemp, s) ← s.memRealloc alloc pcTemp (iSize * 2)
      if pcTemp = .null then
        some (pcBuff, -1, { s with messages := s.messages ++ [couldNotReallocate] })
      else reportLoop rounds pcTemp pcTemp (iSize * 2) s
    else none

/-- `Report`: its result and the state it leaves. -/
def report : Option (ℤ × ReportState) :=
  match ReportState.start.memMalloc alloc with
  | (.null, s) => some (-1, s)
  | (pcBuff, s) => do
    let (pcBuff, iRet, s) ← reportLoop text alloc 32 pcBuff .uninitialised 256 s
    let s ← s.message pcBuff
    let s ← s.memFree pcBuff
    return (iRet, s)

/-- `Report` prints the text and keeps its buffer straight. -/
def ReportKeeps : Prop :=
  ∃ iRet s, report text alloc = some (iRet, s) ∧
    (∀ ptr held, (ptr, held) ∈ s.given → ∃ p, ptr = .block p ∧ held = {p}) ∧
    ((∀ n, alloc n = true) → s.messages = [text]) ∧ s.owned = ∅ ∧ FreedOnce s.ops

variable {text alloc}

theorem report_failed (h : alloc 0 = false) :
    report text alloc = some (-1, { ReportState.start with attempts := 1 }) := by
  have hfail : ReportState.start.memMalloc alloc = (.null, { ReportState.start with attempts := 1 }) := by
    rw [ReportState.memMalloc, if_neg]
    · rfl
    · simp [ReportState.start, h]
  rw [report, hfail]

/-- The text fits: the loop is left with all of it in the buffer. -/
theorem reportLoop_fits {rounds p : ℕ} {pcTemp : Pointer} {iSize : ℤ} {s : ReportState} (hp : p ∈ s.owned)
    (hlen : text.length < iSize) (hint : iSize < 2 ^ 31) :
    reportLoop text alloc (rounds + 1) (.block p) pcTemp iSize s =
      some (.block p, (text.length : ℤ), { s with contents := Function.update s.contents p text }) := by
  have htake : text.take (iSize - 1).toNat = text := List.take_of_length_le (by omega)
  have hret : text.length < 2 ^ 31 := by omega
  have hleft : (text.length : ℤ) > -1 ∧ (text.length : ℤ) < iSize := by omega
  simp only [reportLoop, ReportState.vsnprintf, if_pos hp, if_pos hret, htake, Option.bind_eq_bind, Option.bind_some,
    if_pos hleft]

/-- The text does not fit, and `pcTemp` was not set. -/
theorem reportLoop_uninitialised {rounds p : ℕ} {iSize : ℤ} {s : ReportState} (hp : p ∈ s.owned)
    (hlen : iSize ≤ text.length) : reportLoop text alloc (rounds + 1) (.block p) .uninitialised iSize s = none := by
  have hstay : ¬((if text.length < 2 ^ 31 then (text.length : ℤ) else -1) > -1 ∧
      (if text.length < 2 ^ 31 then (text.length : ℤ) else -1) < iSize) := by
    by_cases hret : text.length < 2 ^ 31
    · rw [if_pos hret]
      omega
    · rw [if_neg hret]
      omega
  simp only [reportLoop, ReportState.vsnprintf, if_pos hp, Option.bind_eq_bind, Option.bind_some, if_neg hstay,
    ReportState.memRealloc, Option.bind_none, ite_self]

/-- With its first buffer. -/
def allocated : ReportState := ⟨{0}, fun _ => [], 1, [.pvPortMalloc 0], [], []⟩

theorem memMalloc_start (h : alloc 0 = true) : ReportState.start.memMalloc alloc = (.block 0, allocated) := by
  have h0 : alloc ReportState.start.attempts = true := h
  rw [ReportState.memMalloc, if_pos h0]
  rfl

theorem report_fits (h : alloc 0 = true) (hlen : text.length < 256) : report text alloc =
    some ((text.length : ℤ), ⟨∅, Function.update (fun _ => []) 0 text, 1, [.pvPortMalloc 0, .vPortFree 0],
      [(.block 0, {0})], [text]⟩) := by
  have hloop : reportLoop text alloc (31 + 1) (.block 0) .uninitialised 256 allocated =
      some (.block 0, (text.length : ℤ),
        { allocated with contents := Function.update (fun _ => []) 0 text }) :=
    reportLoop_fits (Finset.mem_singleton_self 0) (by omega) (by decide)
  rw [report, memMalloc_start h]
  simp only [hloop, Option.bind_eq_bind, Option.bind_some]
  simp [allocated, ReportState.message, ReportState.memFree, ReportState.note, ReportState.vPortFree]

theorem report_long (h : alloc 0 = true) (hlen : 256 ≤ text.length) : report text alloc = none := by
  have hloop : reportLoop text alloc (31 + 1) (.block 0) .uninitialised 256 allocated = none :=
    reportLoop_uninitialised (Finset.mem_singleton_self 0) (by omega)
  rw [report, memMalloc_start h]
  simp only [hloop, Option.bind_eq_bind, Option.bind_none]

/-- **`Report` keeps its buffer straight** exactly for the texts that fit the first one, and when there is none. -/
theorem report_keeps_iff (text : Bytes) (alloc : ℕ → Bool) :
    ReportKeeps text alloc ↔ text.length < 256 ∨ alloc 0 = false := by
  constructor
  · rintro ⟨iRet, s, hreport, -⟩
    rcases h0 : alloc 0 with _ | _
    · exact .inr rfl
    · refine .inl (not_le.mp fun hlong => ?_)
      rw [report_long h0 hlong] at hreport
      cases hreport
  · intro hcond
    rcases h0 : alloc 0 with _ | _
    · refine ⟨_, _, report_failed h0, ?_, ?_, rfl, fun p => rfl⟩
      · intro ptr held hmem
        cases hmem
      · intro hall
        rw [hall 0] at h0
        cases h0
    · have hlen : text.length < 256 := hcond.resolve_right (by simp [h0])
      refine ⟨_, _, report_fits h0 hlen, ?_, fun _ => rfl, rfl, ?_⟩
      · intro ptr held hmem
        obtain ⟨rfl, rfl⟩ := Prod.mk.inj (List.mem_singleton.mp hmem)
        exact ⟨0, rfl, rfl⟩
      · intro p
        simp [List.count_cons]

/-- A received payload of 256 bytes: `mem_Realloc` is given what `pcTemp` was before it was set. -/
theorem report_moves_uninitialised : ¬∀ text alloc, ReportKeeps text alloc := by
  intro hall
  obtain ⟨iRet, s, hreport, -⟩ := hall (List.replicate 256 (ch 'x')) fun _ => true
  rw [report_long rfl (by rw [List.length_replicate])] at hreport
  cases hreport

end UartIf

end Thronix
