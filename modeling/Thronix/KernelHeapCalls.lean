import Thronix.KernelHeapSpec

/-!
# Thronix.KernelHeapCalls — what a call does to the heap

* `Inv L h bs`: the heap has been initialised and holds the blocks of `bs`.
* `pvPortMalloc_spec`: the first free block that is large enough is handed out, cut to the size required; without one the
  heap stays as it is.
* `vPortFree_spec`: a used block becomes free, and one with its free neighbours.
-/

namespace Thronix.KernelHeap

open Thronix.Lib
open Thronix.Lib.Tiling

/-- The heap holds the blocks of `bs`. -/
structure Inv (L : Layout) (h : Heap) (bs : List Block) : Prop where
  end_eq : h.pxEnd = endAddress L
  bit_eq : h.xBlockAllocatedBit = 1 <<< 31
  tiles : Tiles (pucAlignedHeap L) bs (endAddress L)
  coalesced : Coalesced bs
  aligned : ∀ b ∈ bs, Aligned b
  free : FreeList L h.mem (endAddress L) bs
  header : ∀ b ∈ bs, b.used = true → h.mem b.addr = ⟨0, b.size + 2 ^ 31⟩
  count : h.xFreeBytesRemaining = space false bs

/-- The block a request takes: with the header, a multiple of the alignment. -/
def need (n : ℕ) : ℕ := (n + 8 + 7) / 8 * 8

/-- `m'` has in the used blocks of `bs` what `m` has there. -/
def Keeps (m m' : Memory) (bs : List Block) : Prop :=
  ∀ c ∈ bs, c.used = true → ∀ a, c.addr ≤ a → a < c.addr + c.size → m' a = m a

section Calls

variable {L : Layout} {h : Heap} {bs A B : List Block} {b : Block} {n w : ℕ}

theorem prvHeapInit_inv (L : Layout) (h : Heap) :
    Inv L (prvHeapInit L h) [⟨pucAlignedHeap L, endAddress L - pucAlignedHeap L, false⟩] := by
  have ha := area L
  obtain ⟨hpos, hlo8, he8, hlt, hsize, -, htop, hst, hsp, hapart⟩ := ha
  unfold xHeapStructSize at htop hst hapart
  have hsub : sub32 (endAddress L) (pucAlignedHeap L) = endAddress L - pucAlignedHeap L :=
    sub32_eq (by omega) (by omega)
  have hstart : (prvHeapInit L h).mem L.xStart = ⟨pucAlignedHeap L, 0⟩ := by
    unfold prvHeapInit
    dsimp only
    rw [Function.update_of_ne (by omega), Function.update_of_ne (by omega), Function.update_self]
  have hfirst : (prvHeapInit L h).mem (pucAlignedHeap L) = ⟨endAddress L, endAddress L - pucAlignedHeap L⟩ := by
    unfold prvHeapInit
    dsimp only
    rw [Function.update_self, hsub]
  have htail : (prvHeapInit L h).mem (endAddress L) = ⟨0, 0⟩ := by
    unfold prvHeapInit
    dsimp only
    rw [Function.update_of_ne (by omega), Function.update_self]
  refine ⟨rfl, rfl, ⟨rfl, by dsimp only; omega, ?_⟩, List.isChain_singleton _, ?_, ⟨⟨?_, ?_, trivial⟩, ?_, htail⟩, ?_, ?_⟩
  · unfold Tiles
    dsimp only
    omega
  · intro b hb
    rw [List.mem_singleton.mp hb]
    exact ⟨hlo8, by dsimp only; omega⟩
  · intro _
    exact congrArg BlockLink.pxNextFreeBlock hstart
  · intro _
    exact congrArg BlockLink.pxNextFreeBlock hfirst
  · intro b hb _
    rcases List.mem_cons.mp hb with rfl | hb
    · exact congrArg BlockLink.xBlockSize hstart
    · rw [List.mem_singleton.mp hb]
      exact congrArg BlockLink.xBlockSize hfirst
  · intro b hb hused
    rw [List.mem_singleton.mp hb] at hused
    cases hused
  · have hspace : space false [⟨pucAlignedHeap L, endAddress L - pucAlignedHeap L, false⟩] =
        endAddress L - pucAlignedHeap L := by
      rw [space_cons, if_pos rfl, space_nil]
      rfl
    rw [hspace, ← hsub]
    rfl

theorem Inv.length_lt (hI : Inv L h bs) : bs.length < walk := by
  have := hI.tiles.length_le
  have := (area L).size_lt
  have := (area L).lt
  unfold walk
  omega

theorem blockSize_eq (hn : 0 < n) (hlt : n < 2 ^ 31) : blockSize n = some (need n) := by
  unfold blockSize need
  rw [if_pos hn, add32_eq (by unfold xHeapStructSize; omega)]
  unfold xHeapStructSize portBYTE_ALIGNMENT
  dsimp only
  rw [and_mask]
  by_cases h8 : (n + 8) % 8 = 0
  · rw [if_neg (not_not.mpr h8)]
    congr 1
    omega
  · rw [if_pos h8, add32_eq (by omega), configASSERT_of (by rw [and_mask]; omega)]
    congr 1
    omega

/-- A used block whose header is written. -/
theorem handOut_inv {a size : ℕ} (hend : h.pxEnd = endAddress L) (hbit : h.xBlockAllocatedBit = 1 <<< 31)
    (ht : Tiles (pucAlignedHeap L) bs (endAddress L)) (hc : Coalesced bs) (hal : ∀ c ∈ bs, Aligned c)
    (hf : FreeList L h.mem (endAddress L) bs) (hb : (⟨a, size, true⟩ : Block) ∈ bs)
    (hsize : (h.mem a).xBlockSize = size)
    (hother : ∀ c ∈ bs, c.used = true → c.addr ≠ a → h.mem c.addr = ⟨0, c.size + 2 ^ 31⟩)
    (hcount : h.xFreeBytesRemaining = space false bs + size) : Inv L (handOut h a) bs := by
  have ha := area L
  have hapart := ha.apart
  have hlt := ha.size_lt
  unfold xHeapStructSize at hapart
  unfold configTOTAL_HEAP_SIZE at hlt
  have hba := ht.bounds hb
  dsimp only at hba
  have hspace := ht.space_add
  have htop := ha.top
  unfold handOut
  refine ⟨hend, hbit, ht, hc, hal, hf.congr (fun c hc hfree => ?_) ?_, fun c hc hused => ?_, ?_⟩
  · refine Function.update_of_ne (fun heq => ?_) _ _
    rcases List.mem_cons.mp hc with rfl | hc
    · have : (startBlock L).addr = L.xStart := rfl
      omega
    · have hsame := ht.eq_of_addr hc hb heq
      rw [hsame] at hfree
      cases hfree
  · exact Function.update_of_ne (by omega) _ _
  · dsimp only
    by_cases heq : c.addr = a
    · have hsame := ht.eq_of_addr hc hb heq
      rw [heq, Function.update_self, hsize, hbit, or_bit (by omega), hsame]
    · rw [Function.update_of_ne heq]
      exact hother c hc hused heq
  · dsimp only
    rw [hsize, sub32_eq (by omega) (by omega)]
    omega

theorem handOut_min (h : Heap) (a : ℕ) : (handOut h a).xMinimumEverFreeBytesRemaining =
    min (handOut h a).xFreeBytesRemaining h.xMinimumEverFreeBytesRemaining := by
  unfold handOut
  dsimp only
  generalize sub32 h.xFreeBytesRemaining (h.mem a).xBlockSize = left
  by_cases hmin : left < h.xMinimumEverFreeBytesRemaining
  · rw [if_pos hmin, min_eq_left (le_of_lt hmin)]
  · rw [if_neg hmin, min_eq_right (not_lt.mp hmin)]

/-- A cell that is not in a used block. -/
theorem Inv.not_used {a : ℕ} (hI : Inv L h bs) (ha : a = L.xStart ∨ ∃ d ∈ bs, d.used = false ∧ d.addr = a) :
    ∀ c ∈ bs, c.used = true → a < c.addr ∨ c.addr + c.size ≤ a := by
  intro c hc hused
  have hcin := hI.tiles.bounds hc
  rcases ha with rfl | ⟨d, hd, hfree, rfl⟩
  · have hapart := (area L).apart
    unfold xHeapStructSize at hapart
    omega
  · have hcd : c ≠ d := by
      rintro rfl
      rw [hused] at hfree
      cases hfree
    have := (hI.tiles.bounds hd).2.2
    have := hI.tiles.disjoint hc hd hcd
    omega

/-- The search, and the block found. -/
theorem allocate_spec (hI : Inv L h bs) (hw : 0 < w) (hw8 : w % 8 = 0) :
    (∃ A b B size h' bs', bs = A ++ b :: B ∧ b.used = false ∧ w ≤ b.size ∧
        (∀ a ∈ A, a.used = false → a.size < w) ∧ allocate L h w = some (h', .returned (b.addr + 8)) ∧ Inv L h' bs' ∧
        bs'.filter Block.used = A.filter Block.used ++ ⟨b.addr, size, true⟩ :: B.filter Block.used ∧
        (w ≤ size ∧ size ≤ w + 16) ∧
        h'.xMinimumEverFreeBytesRemaining = min h'.xFreeBytesRemaining h.xMinimumEverFreeBytesRemaining ∧
        Keeps h.mem h'.mem bs) ∨
      (∀ b ∈ bs, b.used = false → b.size < w) ∧ allocate L h w = some (h, .failed) := by
  have ha := area L
  have htop := ha.top
  unfold xHeapStructSize at htop
  have hstart : (h.mem L.xStart).pxNextFreeBlock = firstFree (endAddress L) bs := hI.free.threaded.1 rfl
  unfold allocate
  rw [hstart]
  rcases fit_cases (w := w) (p := L.xStart) hI.free.threaded.2 (fun b hb => hI.free.size_eq b (List.mem_cons_of_mem _ hb))
      hI.free.tail (fun b hb => lt_of_lt_of_le ha.pos (hI.tiles.bounds hb).1) (lt_trans ha.pos ha.lt)
      hI.length_lt with
    ⟨A, b, B, rfl, hfree, hfit, hA, hfound⟩ | ⟨hall, p, hfound⟩
  · left
    obtain ⟨htA, hpos, htB⟩ := tiles_split.mp hI.tiles
    have hbhi := htB.le
    rw [hfound, Option.bind_some]
    dsimp only
    rw [if_pos (by rw [hI.end_eq]; omega)]
    -- the link that is followed leads to the block found
    have hlink : (h.mem (lastFree L.xStart A)).pxNextFreeBlock = b.addr := by
      have hth := (threaded_append.mp (show Threaded _ _ ((startBlock L :: A) ++ b :: B) from hI.free.threaded)).1
      have hlast := hth.next_lastFree (p := L.xStart) ⟨startBlock L, List.mem_cons_self, rfl⟩
      rwa [firstFree_cons_of_free hfree] at hlast
    have hne : b.addr ≠ lastFree L.xStart A := (lastFree_ne ha htA (by omega)).symm
    have hsize : (h.mem b.addr).xBlockSize = b.size :=
      hI.free.size_eq b (List.mem_cons_of_mem _ (by simp)) hfree
    set m1 := setNext h.mem (lastFree L.xStart A) (h.mem b.addr).pxNextFreeBlock with hm1
    have hsize1 : (m1 b.addr).xBlockSize = b.size := by rw [hm1, setNext_eq, Function.update_of_ne hne, hsize]
    obtain ⟨m', bs', size, hsplit, ht', hc', hf', hal', hused, hle, hspace, hsize', hframe⟩ :=
      splitBlock_spec (h := { h with mem := m1 }) ha hI.end_eq hI.tiles
        (fun us hus => hI.free.cut ha hI.tiles hfree hus) hfree hsize1 hI.coalesced.of_append_cons.1
        hI.coalesced.of_append_cons.2 hI.aligned hw hw8 hfit
    have hb' : (⟨b.addr, size, true⟩ : Block) ∈ bs' := by
      have hmem : (⟨b.addr, size, true⟩ : Block) ∈ bs'.filter Block.used := by
        rw [hused]
        simp
      exact (List.mem_filter.mp hmem).1
    have hpv : (b.addr + 8) &&& portBYTE_ALIGNMENT_MASK = 0 := by
      have hbal := (hI.aligned b (by simp)).1
      rw [and_mask]
      omega
    -- the used blocks have not been written to
    have hkeep : Keeps h.mem m' (A ++ b :: B) := by
      intro c hc hcused a h1 h2
      have hAB : c ∈ A ++ B := by
        rcases List.mem_append.mp hc with hc | hc
        · exact List.mem_append_left _ hc
        · rcases List.mem_cons.mp hc with rfl | hc
          · rw [hfree] at hcused
            cases hcused
          · exact List.mem_append_right _ hc
      have hout : a ≠ lastFree L.xStart A := by
        have hnot := hI.not_used (a := lastFree L.xStart A) ?_ c hc hcused
        · omega
        · exact (lastFree_cases L.xStart A).imp And.left
            fun ⟨d, hd, hdfree, heq⟩ => ⟨d, List.mem_append_left _ hd, hdfree, heq.symm⟩
      rw [hframe c hAB hcused a h1 h2]
      dsimp only
      rw [hm1, setNext_eq, Function.update_of_ne hout]
    have hother : ∀ c ∈ bs', c.used = true → c.addr ≠ b.addr → m' c.addr = ⟨0, c.size + 2 ^ 31⟩ := by
      intro c hc hcused hcne
      have hcmem : c ∈ bs'.filter Block.used := List.mem_filter.mpr ⟨hc, hcused⟩
      rw [hused] at hcmem
      have hold : c ∈ A ++ b :: B := by
        rcases List.mem_append.mp hcmem with hc | hc
        · exact List.mem_append_left _ (List.mem_filter.mp hc).1
        · rcases List.mem_cons.mp hc with rfl | hc
          · exact absurd rfl hcne
          · exact List.mem_append_right _ (List.mem_cons_of_mem _ (List.mem_filter.mp hc).1)
      have hcpos := (hI.tiles.bounds hold).2.2
      rw [hkeep c hold hcused c.addr (le_refl _) (by omega)]
      exact hI.header c hold hcused
    have hinv : Inv L (handOut { h with mem := m' } b.addr) bs' :=
      handOut_inv hI.end_eq hI.bit_eq ht' hc' hal' hf' hb' hsize' hother (by rw [hspace]; exact hI.count)
    refine ⟨A, b, B, size, handOut { h with mem := m' } b.addr, bs', rfl, hfree, hfit, hA, ?_, hinv, hused, hle,
      handOut_min _ _, ?_⟩
    · rw [hsplit, Option.bind_some, hlink, xHeapStructSize, add32_eq (by omega), configASSERT_of hpv]
    · intro c hc hcused a h1 h2
      have hnot := hI.not_used (Or.inr ⟨b, by simp, hfree, rfl⟩) c hc hcused
      unfold handOut
      dsimp only
      rw [Function.update_of_ne (by omega)]
      exact hkeep c hc hcused a h1 h2
  · right
    refine ⟨hall, ?_⟩
    rw [hfound, Option.bind_some]
    dsimp only
    rw [if_neg (by rw [hI.end_eq]; exact not_not.mpr rfl)]

/-- The heap a call of `pvPortMalloc` works on: the first one initialises it. -/
def ready (L : Layout) (h : Heap) : Heap := if h.pxEnd = 0 then prvHeapInit L h else h

theorem ready_of_inv (hI : Inv L h bs) : ready L h = h := by
  have := (area L).pos
  have := (area L).lt
  exact if_neg (by rw [hI.end_eq]; omega)

theorem and_bit_zero (hn : n < 2 ^ 32) (hI : Inv L h bs) : n &&& h.xBlockAllocatedBit = 0 ↔ n < 2 ^ 31 := by
  rw [hI.bit_eq]
  exact and_bit hn

/-- **`pvPortMalloc`**: the first free block that is large enough, cut to the size required, or no block. -/
theorem pvPortMalloc_spec (hI : Inv L (ready L h) bs) (hn : n < 2 ^ 32) :
    (0 < n ∧ n < 2 ^ 31 ∧ ∃ A b B size h' bs', bs = A ++ b :: B ∧ b.used = false ∧ need n ≤ b.size ∧
        (∀ a ∈ A, a.used = false → a.size < need n) ∧ pvPortMalloc L h n = some (h', .returned (b.addr + 8)) ∧
        Inv L h' bs' ∧ bs'.filter Block.used = A.filter Block.used ++ ⟨b.addr, size, true⟩ :: B.filter Block.used ∧
        (need n ≤ size ∧ size ≤ need n + 16) ∧
        h'.xMinimumEverFreeBytesRemaining =
          min h'.xFreeBytesRemaining (ready L h).xMinimumEverFreeBytesRemaining ∧
        Keeps (ready L h).mem h'.mem bs) ∨
      (0 < n → n < 2 ^ 31 → ∀ b ∈ bs, b.used = false → b.size < need n) ∧
        pvPortMalloc L h n = some (ready L h, .failed) := by
  have hcall : pvPortMalloc L h n = if n &&& (ready L h).xBlockAllocatedBit = 0 then
      (blockSize n).bind fun size =>
        if 0 < size ∧ size ≤ (ready L h).xFreeBytesRemaining then allocate L (ready L h) size
        else some (ready L h, Malloc.failed)
      else some (ready L h, Malloc.failed) := rfl
  rw [hcall]
  simp only [and_bit_zero hn hI]
  by_cases hlt : n < 2 ^ 31
  · rw [if_pos hlt]
    rcases Nat.eq_zero_or_pos n with rfl | hpos
    · right
      refine ⟨fun h => absurd h (lt_irrefl 0), ?_⟩
      rw [blockSize, if_neg (lt_irrefl 0), Option.bind_some, if_neg (fun h => lt_irrefl 0 h.1)]
    · have hneed : 0 < need n ∧ need n % 8 = 0 := by
        unfold need
        omega
      rw [blockSize_eq hpos hlt, Option.bind_some]
      by_cases hroom : need n ≤ (ready L h).xFreeBytesRemaining
      · rw [if_pos ⟨hneed.1, hroom⟩]
        rcases allocate_spec hI hneed.1 hneed.2 with hfound | ⟨hall, hfailed⟩
        · exact Or.inl ⟨hpos, hlt, hfound⟩
        · exact Or.inr ⟨fun _ _ => hall, hfailed⟩
      · rw [if_neg (fun h => hroom h.2)]
        refine Or.inr ⟨fun _ _ b hb hfree => ?_, rfl⟩
        have := le_space hb
        rw [hfree, ← hI.count] at this
        omega
  · rw [if_neg hlt]
    exact Or.inr ⟨fun _ h => absurd h hlt, rfl⟩

/-- **`vPortFree`**: a used block becomes free. -/
theorem vPortFree_spec (hI : Inv L h (A ++ b :: B)) (hb : b.used = true) :
    ∃ h' bs', vPortFree L h (b.addr + 8) = some h' ∧ Inv L h' bs' ∧
      bs'.filter Block.used = A.filter Block.used ++ B.filter Block.used ∧
      h'.xMinimumEverFreeBytesRemaining = h.xMinimumEverFreeBytesRemaining ∧ Keeps h.mem h'.mem (A ++ B) := by
  have ha := area L
  have htop := ha.top
  have hlt := ha.size_lt
  have hapart := ha.apart
  unfold xHeapStructSize at htop hapart
  unfold configTOTAL_HEAP_SIZE at hlt
  obtain ⟨htA, hpos, htB⟩ := tiles_split.mp hI.tiles
  have hblo := htA.le
  have hbhi := htB.le
  have hmem : b ∈ A ++ b :: B := by simp
  have hlink : sub32 (b.addr + 8) xHeapStructSize = b.addr := by
    unfold xHeapStructSize
    rw [sub32_eq (by omega) (by omega)]
    omega
  have hsmall : b.size < 2 ^ 31 := by omega
  have hbit : (b.size + 2 ^ 31) &&& 1 <<< 31 ≠ 0 := by
    rw [Ne, and_bit (by omega)]
    omega
  set m1 := setSize h.mem b.addr b.size with hm1
  have hne : ∀ c ∈ startBlock L :: (A ++ b :: B), c.used = false → c.addr ≠ b.addr := by
    intro c hc hfree heq
    rcases List.mem_cons.mp hc with rfl | hc
    · have : (startBlock L).addr = L.xStart := rfl
      omega
    · rw [hI.tiles.eq_of_addr hc hmem heq, hb] at hfree
      cases hfree
  have hf1 : FreeList L m1 (endAddress L) (A ++ b :: B) := by
    refine hI.free.congr (fun c hc hfree => ?_) ?_
    · rw [hm1, setSize_of_ne (hne c hc hfree)]
    · rw [hm1, setSize_of_ne (by omega)]
  obtain ⟨m', bs', hins, ht', hc', hf', hal', hused, hspace, hframe⟩ :=
    prvInsertBlockIntoFreeList_spec
      (h := { h with mem := m1, xFreeBytesRemaining := add32 h.xFreeBytesRemaining b.size }) ha hI.end_eq hI.tiles hf1
      hb (setSize_self _ _ _) hI.coalesced.of_append_cons.1 hI.coalesced.of_append_cons.2 hI.aligned
  have hkeep : Keeps h.mem m' (A ++ B) := by
    intro c hc hcused a h1 h2
    have hout : a ≠ b.addr := by
      rcases List.mem_append.mp hc with hc | hc
      · have := htA.bounds hc
        omega
      · have := htB.bounds hc
        omega
    rw [hframe c hc hcused a h1 h2]
    dsimp only
    rw [hm1, setSize_of_ne hout]
  refine ⟨{ h with mem := m', xFreeBytesRemaining := add32 h.xFreeBytesRemaining b.size }, bs', ?_,
    ⟨hI.end_eq, hI.bit_eq, ht', hc', hal', hf', fun c hc hcused => ?_, ?_⟩, hused, rfl, hkeep⟩
  · have hsize : (h.mem b.addr).xBlockSize = b.size + 2 ^ 31 := by rw [hI.header b hmem hb]
    have hnext : (h.mem b.addr).pxNextFreeBlock = 0 := by rw [hI.header b hmem hb]
    unfold vPortFree
    dsimp only
    rw [if_pos (by omega : b.addr + 8 ≠ 0), hlink, hsize, hI.bit_eq, configASSERT_of hbit, Option.bind_some,
      configASSERT_of hnext, Option.bind_some, if_pos hbit, if_pos hnext, and_not_bit hsmall, ← hI.bit_eq]
    exact hins
  · have hcmem : c ∈ bs'.filter Block.used := List.mem_filter.mpr ⟨hc, hcused⟩
    rw [hused, ← List.filter_append] at hcmem
    have hold := (List.mem_filter.mp hcmem).1
    have holdbs : c ∈ A ++ b :: B := by
      rcases List.mem_append.mp hold with hc | hc
      · exact List.mem_append_left _ hc
      · exact List.mem_append_right _ (List.mem_cons_of_mem _ hc)
    have := (hI.tiles.bounds holdbs).2.2
    dsimp only
    rw [hkeep c hold hcused c.addr (le_refl _) (by omega)]
    exact hI.header c holdbs hcused
  · have htotal := hI.tiles.space_add
    have hbspace := le_space hmem
    rw [hb] at hbspace
    have hold : space false (A ++ b :: B) = space false (A ++ B) := by
      have hnot : ¬b.used = false := by
        rw [hb]
        exact Bool.true_eq_false.mp
      rw [space_append, space_append, space_cons, if_neg hnot]
      omega
    dsimp only
    rw [hspace, hI.count, add32_eq (by omega), hold]

end Calls

end Thronix.KernelHeap
