import Thronix.I2cTransfer

/-!
# Thronix.I2cReadFrom — one buffer for both directions

`I2C_IF_ReadFrom` copies what is to be written into the buffer for what is to be read, and the routine receives into it.

* `I2cRequest.copyStores`: the stores of the copy.
* `Serving`: what the entries that serve a reading transaction have stored, whatever the hardware answered.
* `readFrom_safe_iff`: all of it lies in the read buffer exactly when `ucWrLen` is at most `ucRdLen`, which is what the
  last check of the function is there for.
-/

namespace Thronix

open Lib

/-! ## The copy -/

/-- The stores of `memcpy(pucRdDataBuf, pucWrDataBuf, ucWrLen)`. -/
def I2cRequest.copyStores (mem : ℕ → BitVec 8) : I2cRequest → List (ℕ × BitVec 8)
  | .readFrom _ pucWrDataBuf ucWrLen pucRdDataBuf _ =>
    (List.range ucWrLen.toNat).map fun k => (pucRdDataBuf + k, mem (pucWrDataBuf + k))
  | _ => []

/-- They are all that the call changes in memory. -/
theorem I2cRequest.copied_eq (r : I2cRequest) (mem : ℕ → BitVec 8) :
    r.copied mem = I2c.written mem (r.copyStores mem) := by
  rcases r with ⟨_, _, _, _⟩ | ⟨_, _, _⟩ | ⟨_, src, len, dst, _⟩
  · rfl
  · rfl
  have hcopy : ∀ n : ℕ, memcpy mem dst src n =
      I2c.written mem ((List.range n).map fun k => (dst + k, mem (src + k))) := by
    intro n
    unfold I2c.written
    induction n with
    | zero =>
      funext a
      exact if_neg (by omega)
    | succ n ih =>
      rw [List.range_succ, List.map_append, List.foldl_append, ← ih]
      funext a
      by_cases ha : a = dst + n
      · subst ha
        simp [memcpy]
      · have hsame : dst ≤ a ∧ a < dst + (n + 1) ↔ dst ≤ a ∧ a < dst + n := by omega
        simp [memcpy, ha, hsame]
  exact hcopy len.toNat

/-! ## What is received -/

/-- The bytes received before a phase. -/
def Phase.stored : Phase → ℕ
  | .store k => k
  | _ => 0

namespace I2c

/-- The addresses stored at by the entries, in order. -/
def storedAt (es : List (I2c × IsrInput)) : List ℕ := es.flatMap fun e => (e.1.stores e.2).map Prod.fst

/-- The first `n` addresses of the buffer. -/
def firstBytes (t : I2cTransaction) (n : ℕ) : List ℕ := (List.range n).map (t.buffer + ·)

/-- The entries `es` serve the transaction `t`: it runs, or it was taken out by the last of them. -/
inductive Serving (t : I2cTransaction) (s₀ : I2c) (es : List (I2c × IsrInput)) (s : I2c) : Prop
  | running (p : Phase) (rest : List I2cTransaction) (hr : Ready t s p) (hq : s.gI2cQueue = t :: rest)
      (hrem : s.removals = s₀.removals) (hst : storedAt es = firstBytes t p.stored)
      (hlast : ∀ u i s', es.getLast? = some (u, i) → u.step (.isr i) = some s' → s'.removals = s₀.removals)
  | taken (n : ℕ) (hn : n ≤ t.received) (hrem : s.removals = s₀.removals ++ [t]) (hst : storedAt es = firstBytes t n)
      (u : I2c) (i : IsrInput) (s' : I2c) (bits : BitVec 32) (hlast : es.getLast? = some (u, i))
      (hs : u.step (.isr i) = some s') (he : Ended t u s' bits)
      (hall : bits = i2cNotifyReadComplete → n = t.received)

section Serving

variable {t : I2cTransaction} {s₀ s s' : I2c} {es : List (I2c × IsrInput)}

theorem Serving.task (h : Serving t s₀ es s) (hf : TaskFrame s s') : Serving t s₀ es s' := by
  cases h with
  | running p rest hr hq hrem hst hlast =>
    obtain ⟨ts, hts⟩ := hf.queue
    exact .running p (rest ++ ts) (hr.task hf) (by rw [hts, hq]; rfl) (hf.removals.trans hrem) hst hlast
  | taken n hn hrem hst u i s1 bits hlast hs he hall =>
    exact .taken n hn (hf.removals.trans hrem) hst u i s1 bits hlast hs he hall

theorem storedAt_snoc (e : I2c × IsrInput) :
    storedAt (es ++ [e]) = storedAt es ++ (e.1.stores e.2).map Prod.fst := by
  simp [storedAt]

theorem firstBytes_succ (n : ℕ) : firstBytes t (n + 1) = firstBytes t n ++ [t.buffer + n] := by
  simp [firstBytes, List.range_succ]

theorem firstBytes_next {p p' : Phase} (data : BitVec 8) (hn : t.next t.sent t.received p = some p') :
    firstBytes t p.stored ++ (t.stores data p).map Prod.fst = firstBytes t p'.stored := by
  cases p with
  | send k =>
    obtain rfl := Option.some.inj hn
    split_ifs <;> simp [I2cTransaction.stores, Phase.stored]
  | stop => cases hn
  | receive =>
    obtain rfl := Option.some.inj hn
    simp [I2cTransaction.stores, Phase.stored]
  | store k =>
    obtain ⟨-, rfl⟩ := guard_eq_some.mp hn
    exact (firstBytes_succ k).symm

/-- A store may be left out when the entry fails. -/
theorem firstBytes_some {p : Phase} {l : List (ℕ × BitVec 8)} {data : BitVec 8} (hr : Ready t s p)
    (hl : l = [] ∨ l = t.stores data p) :
    ∃ n ≤ t.received, firstBytes t p.stored ++ l.map Prod.fst = firstBytes t n := by
  have hlt : p.stored ≤ t.received ∧ ∀ k, p = .store k → k < t.received := by
    cases p with
    | store k => exact ⟨hr.2.2.2.2.1.le, fun k' hk => by cases hk; exact hr.2.2.2.2.1⟩
    | _ => exact ⟨Nat.zero_le _, nofun⟩
  rcases hl with rfl | rfl
  · exact ⟨p.stored, hlt.1, by simp⟩
  · cases p with
    | store k => exact ⟨k + 1, hlt.2 k rfl, (firstBytes_succ k).symm⟩
    | _ => exact ⟨0, Nat.zero_le _, by simp [I2cTransaction.stores, Phase.stored]⟩

theorem Serving.isr {i : IsrInput} (hc : t.command ≠ .write) (h : Serving t s₀ es s) (hrem₀ : s.removals = s₀.removals)
    (hs : s.step (.isr i) = some s') : Serving t s₀ (es ++ [(s, i)]) s' := by
  cases h with
  | taken n hn hrem hst u j s1 bits hlast hs1 he hall =>
    rw [hrem] at hrem₀
    simp at hrem₀
  | running p rest hr hq hrem hst hlast =>
    have hout := entry_step hq hr hs
    have hended : ∀ bits, Ended t s s' bits → s'.removals = s₀.removals ++ [t] := fun bits he => by
      rw [← hrem, removals, removals, he.calls, List.filterMap_append]
      rfl
    cases hout with
    | goesOn p' hn hr' hst' hq' hcalls =>
      have hrem' : s'.removals = s₀.removals := by rw [← hrem, removals, removals, hcalls]
      refine .running p' rest hr' (hq'.trans hq) hrem' ?_ fun u j s1 hlast' hs1 => ?_
      · rw [storedAt_snoc, hst, hst', firstBytes_next i.data hn]
      · obtain ⟨rfl, rfl⟩ : s = u ∧ i = j := by simpa using hlast'
        obtain rfl := Option.some.inj (hs.symm.trans hs1)
        exact hrem'
    | completed hn hst' he =>
      refine .taken t.received le_rfl (hended _ he) ?_ s i s' _ (by simp) hs he fun _ => rfl
      rw [storedAt_snoc, hst, hst']
      cases p with
      | store k =>
        have hlast : t.received = k + 1 := by
          have := hr.2.2.2.2.1
          have hnot : ¬k + 1 < t.received := fun hlt => by
            rw [I2cTransaction.next, if_pos hlt] at hn
            cases hn
          omega
        rw [hlast]
        exact (firstBytes_succ k).symm
      | stop => exact absurd hr.2.2 hc
      | _ => cases hn
    | failed hbad hst' he =>
      obtain ⟨n, hn, hfirst⟩ := firstBytes_some (l := s.stores i) hr hst'
      refine .taken n hn (hended _ he) ?_ s i s' _ (by simp) hs he fun h => absurd h (by decide)
      rw [storedAt_snoc, hst, hfirst]

end Serving

/-- Every run that serves a reading transaction from `STATE_IDLE` on. -/
theorem serving {t : I2cTransaction} {rest : List I2cTransaction} {s₀ s : I2c} {es : List (I2c × IsrInput)}
    (hc : t.command ≠ .write) (hidle : s₀.gI2cIsrState = .idle) (hq : s₀.gI2cQueue = t :: rest)
    (hr : Entries s₀ es s) (hserves : ∀ e ∈ es, e.1.removals = s₀.removals) : Serving t s₀ es s := by
  induction hr with
  | start =>
    obtain ⟨p, hp, hready⟩ : ∃ p, (t.phases t.sent t.received)[0]? = some p ∧ Ready t s₀ p :=
      ready_first hidle fun _ => Nat.succ_pos _
    refine .running p rest hready hq rfl ?_ (fun _ _ _ h => by cases h)
    cases p with
    | store k =>
      have hstate := hready.1
      rw [hidle] at hstate
      split_ifs at hstate
    | _ => rfl
  | task _ he hs _ ih => exact (ih hserves).task (taskFrame he hs)
  | isr _ hs ih =>
    refine (ih fun e he => hserves e (List.mem_append_left _ he)).isr hc ?_ hs
    exact hserves _ (List.mem_append_right _ (List.mem_singleton_self _))

section Served

variable {t : I2cTransaction} {s₀ s : I2c} {es : List (I2c × IsrInput)}

/-- At every time the first bytes of the buffer have been stored, in order. -/
theorem Serving.exists_firstBytes (h : Serving t s₀ es s) : ∃ n ≤ t.received, storedAt es = firstBytes t n := by
  cases h with
  | running p rest hr hq hrem hst hlast =>
    refine ⟨p.stored, ?_, hst⟩
    cases p with
    | store k => exact hr.2.2.2.2.1.le
    | _ => exact Nat.zero_le _
  | taken n hn hrem hst u i s' bits hlast hs he hall => exact ⟨n, hn, hst⟩

/-- A transaction that is told complete has stored all of them. -/
theorem Serving.completed {u s' : I2c} {i : IsrInput} (h : Serving t s₀ es s)
    (hserves : ∀ e ∈ es, e.1.removals = s₀.removals) (hlast : es.getLast? = some (u, i))
    (hs : u.step (.isr i) = some s') (he : Ended t u s' i2cNotifyReadComplete) :
    storedAt es = firstBytes t t.received := by
  cases h with
  | running p rest hr hq hrem hst hkeeps =>
    have hkept := hkeeps u i s' hlast hs
    rw [removals, he.calls, List.filterMap_append, ← hserves _ (List.mem_of_getLast? hlast)] at hkept
    simp [removals, KernelCall.removed] at hkept
  | taken n hn hrem hst u₁ i₁ s₁ bits hlast₁ hs₁ he₁ hall =>
    obtain ⟨rfl, rfl⟩ := Prod.mk.inj (Option.some.inj (hlast₁.symm.trans hlast))
    obtain rfl : s₁ = s' := Option.some.inj (hs₁.symm.trans hs)
    have hbits : bits = i2cNotifyReadComplete := by simpa using he₁.calls.symm.trans he.calls
    rw [hst, hall hbits]

end Served

end I2c

/-! ## The buffer -/

/-- The addresses `pucRdDataBuf[0..ucRdLen-1]`. -/
def InBuffer (pucRdDataBuf : ℕ) (ucRdLen : BitVec 8) (a : ℕ) : Prop :=
  pucRdDataBuf ≤ a ∧ a < pucRdDataBuf + ucRdLen.toNat

theorem inBuffer_add {pucRdDataBuf k : ℕ} {ucRdLen : BitVec 8} (hk : k < ucRdLen.toNat) :
    InBuffer pucRdDataBuf ucRdLen (pucRdDataBuf + k) :=
  ⟨Nat.le_add_right _ _, Nat.add_lt_add_left hk _⟩

/-- What a caller of `I2C_IF_ReadFrom` may rely on for its read buffer. -/
structure ReadFromSafe (ucDevAddr : BitVec 8) (pucWrDataBuf : ℕ) (ucWrLen : BitVec 8) (pucRdDataBuf : ℕ)
    (ucRdLen : BitVec 8) : Prop where
  /-- A request that is rejected has queued and copied nothing. -/
  rejected : (I2cRequest.readFrom ucDevAddr pucWrDataBuf ucWrLen pucRdDataBuf ucRdLen).rejected = true →
    ∀ (s s' : I2c) (task : TaskHandle),
      s.step (.call task (.readFrom ucDevAddr pucWrDataBuf ucWrLen pucRdDataBuf ucRdLen)) = some s' → s' = s
  /-- The copy of one that is accepted changes the memory by its stores, and these are in the buffer, -/
  copied : (I2cRequest.readFrom ucDevAddr pucWrDataBuf ucWrLen pucRdDataBuf ucRdLen).rejected = false →
    ∀ (s s' : I2c) (task : TaskHandle),
      s.step (.call task (.readFrom ucDevAddr pucWrDataBuf ucWrLen pucRdDataBuf ucRdLen)) = some s' →
      s'.mem = I2c.written s.mem
          ((I2cRequest.readFrom ucDevAddr pucWrDataBuf ucWrLen pucRdDataBuf ucRdLen).copyStores s.mem) ∧
        ∀ a ∈ (I2cRequest.readFrom ucDevAddr pucWrDataBuf ucWrLen pucRdDataBuf ucRdLen).copyStores s.mem,
          InBuffer pucRdDataBuf ucRdLen a.1
  /-- and so are those of every run of the routine that serves it; with success it has received all of the bytes. -/
  served : (I2cRequest.readFrom ucDevAddr pucWrDataBuf ucWrLen pucRdDataBuf ucRdLen).rejected = false →
    ∀ (task : TaskHandle) (t : I2cTransaction),
      t = (I2cRequest.readFrom ucDevAddr pucWrDataBuf ucWrLen pucRdDataBuf ucRdLen).transaction task →
    ∀ (rest : List I2cTransaction) (s₀ s : I2c) (es : List (I2c × IsrInput)), s₀.gI2cIsrState = .idle →
      s₀.gI2cQueue = t :: rest → I2c.Entries s₀ es s → (∀ e ∈ es, e.1.removals = s₀.removals) →
      (∀ e ∈ es, ∀ s', e.1.step (.isr e.2) = some s' → s'.mem = I2c.written e.1.mem (e.1.stores e.2)) ∧
      (∀ a ∈ I2c.storedAt es, InBuffer pucRdDataBuf ucRdLen a) ∧
      ∀ u i s', es.getLast? = some (u, i) → u.step (.isr i) = some s' → I2c.Ended t u s' i2cNotifyReadComplete →
        I2c.storedAt es = (List.range ucRdLen.toNat).map (pucRdDataBuf + ·)

/-- The first call of a task copies and goes on to the queue. -/
theorem step_call_init (mem : ℕ → BitVec 8) {r : I2cRequest} (hr : r.rejected = false) :
    (I2c.init mem).step (.call 0 r) =
      some ({ I2c.init mem with mem := r.copied mem }.goto 0 (.send (r.transaction 0))) :=
  I2c.step_call.mpr ⟨rfl, .inr ⟨hr, rfl⟩⟩

/-- **The check that compares `ucWrLen` with itself.**  The buffer is kept exactly for requests that are rejected for
another reason, or that write no more than they read. -/
theorem readFrom_safe_iff (ucDevAddr : BitVec 8) (pucWrDataBuf : ℕ) (ucWrLen : BitVec 8) (pucRdDataBuf : ℕ)
    (ucRdLen : BitVec 8) :
    ReadFromSafe ucDevAddr pucWrDataBuf ucWrLen pucRdDataBuf ucRdLen ↔
      pucRdDataBuf = 0 ∨ pucWrDataBuf = 0 ∨ ucWrLen = 0 ∨ ucWrLen ≤ ucRdLen := by
  have hrejected : (I2cRequest.readFrom ucDevAddr pucWrDataBuf ucWrLen pucRdDataBuf ucRdLen).rejected = true ↔
      pucRdDataBuf = 0 ∨ pucWrDataBuf = 0 ∨ ucWrLen = 0 := by
    simp [I2cRequest.rejected, or_assoc]
  constructor
  · intro hsafe
    by_contra hnot
    simp only [not_or] at hnot
    obtain ⟨h1, h2, h3, hlt⟩ := hnot
    have haccepted := Bool.eq_false_iff.mpr (mt hrejected.mp (by tauto))
    -- the last byte of the copy
    have hlast : (pucRdDataBuf + (ucWrLen.toNat - 1), (0 : BitVec 8)) ∈
        (I2cRequest.readFrom ucDevAddr pucWrDataBuf ucWrLen pucRdDataBuf ucRdLen).copyStores fun _ => 0 := by
      refine List.mem_map.mpr ⟨ucWrLen.toNat - 1, List.mem_range.mpr ?_, rfl⟩
      bv_omega
    have hin := ((hsafe.copied haccepted _ _ 0 (step_call_init (fun _ => 0) haccepted)).2 _ hlast).2
    have hin' : pucRdDataBuf + (ucWrLen.toNat - 1) < pucRdDataBuf + ucRdLen.toNat := hin
    bv_omega
  · intro hcond
    refine ⟨fun hrej s s' task hs => ?_, fun haccepted s s' task hs => ⟨?_, fun a ha => ?_⟩, ?_⟩
    · obtain ⟨-, ⟨-, rfl⟩ | ⟨hno, -⟩⟩ := I2c.step_call.mp hs
      · rfl
      · rw [hrej] at hno
        cases hno
    · obtain ⟨-, ⟨hrej, -⟩ | ⟨-, rfl⟩⟩ := I2c.step_call.mp hs
      · rw [haccepted] at hrej
        cases hrej
      · exact I2cRequest.copied_eq (.readFrom ucDevAddr pucWrDataBuf ucWrLen pucRdDataBuf ucRdLen) s.mem
    · have hle : ucWrLen ≤ ucRdLen := by
        have := mt hrejected.mpr (by rw [haccepted]; simp)
        tauto
      obtain ⟨k, hk, rfl⟩ := List.mem_map.mp ha
      have hk' := List.mem_range.mp hk
      exact inBuffer_add (by bv_omega)
    · rintro haccepted task t rfl rest s₀ s es hidle hq hr hserves
      set t := (I2cRequest.readFrom ucDevAddr pucWrDataBuf ucWrLen pucRdDataBuf ucRdLen).transaction task with ht
      have hreceived : t.received = ucRdLen.toNat := by
        have hno := mt hrejected.mpr (by rw [haccepted]; simp)
        have hne : t.rxlenght ≠ 0 := by
          show ucRdLen ≠ 0
          have hle : ucWrLen ≤ ucRdLen := by tauto
          have hpos : ucWrLen ≠ 0 := by tauto
          bv_omega
        exact I2cTransaction.received_eq hne
      have hserving := I2c.serving (by simp [ht, I2cRequest.transaction]) hidle hq hr hserves
      refine ⟨fun e _ s' hs => I2c.mem_step_isr hs, ?_, ?_⟩
      · obtain ⟨n, hn, hst⟩ := hserving.exists_firstBytes
        intro a ha
        rw [hst] at ha
        obtain ⟨k, hk, rfl⟩ := List.mem_map.mp ha
        have hk' := List.mem_range.mp hk
        exact inBuffer_add (by omega)
      · intro u i s' hlast hs he
        rw [hserving.completed hserves hlast hs he, hreceived]
        rfl

/-- Nothing to read: the counter wraps around. -/
example : ((I2cRequest.readFrom 0x44 100 1 200 0).transaction 1).received = 256 := by decide

/-- One byte to write and none to read: already the copy leaves the buffer. -/
theorem readFrom_nothing_overruns :
    ¬∀ (ucDevAddr : BitVec 8) (pucWrDataBuf : ℕ) (ucWrLen : BitVec 8) (pucRdDataBuf : ℕ) (ucRdLen : BitVec 8),
      ReadFromSafe ucDevAddr pucWrDataBuf ucWrLen pucRdDataBuf ucRdLen := by
  intro hall
  have haccepted : (I2cRequest.readFrom 0x44 100 1 200 0).rejected = false := by decide
  have hcopied := ((hall 0x44 100 1 200 0).copied haccepted _ _ 0 (step_call_init (fun _ => 0) haccepted)).2 (200, 0)
    (by decide)
  exact absurd hcopied.2 (by decide)

end Thronix
