import Thronix.KernelHeap

/-!
# Thronix.KernelHeapSpec — what the functions of the heap do to its blocks

The heap is an area of blocks (`Tiles`), used and free in turn, with the free ones linked from `xStart` to `pxEnd`.

* `area`: where `prvHeapInit` puts the ends of the area, however `ucHeap` is aligned.
* `FreeList`: the memory holds the links and the sizes of the free blocks of a list of blocks.
* `insertPlace_eq`, `fit_cases`: the two walks.
* `FreeList.insert`: a block becomes free, and one with its free neighbours.
* `FreeList.cut`: a free block is taken out.
-/

namespace Thronix.KernelHeap

open Thronix.Lib
open Thronix.Lib.Tiling

/-! ## Words -/

section Words

variable {n : ℕ}

theorem and_mask (n : ℕ) : n &&& portBYTE_ALIGNMENT_MASK = n % 8 := Nat.and_two_pow_sub_one_eq_mod n 3

theorem and_not_mask (h : n < 2 ^ 32) : n &&& not32 portBYTE_ALIGNMENT_MASK = n / 8 * 8 := by
  have hval : n / 8 * 8 = n >>> 3 <<< 3 := by rw [Nat.shiftRight_eq_div_pow, Nat.shiftLeft_eq]
  have hnot : not32 portBYTE_ALIGNMENT_MASK = 2 ^ 32 - (7 + 1) := rfl
  apply Nat.eq_of_testBit_eq
  intro i
  rw [hval, hnot, Nat.testBit_and, Nat.testBit_two_pow_sub_succ (by decide), Nat.testBit_shiftLeft,
    Nat.testBit_shiftRight]
  by_cases h3 : 3 ≤ i
  · have hlt : (7 : ℕ) < 2 ^ i := lt_of_lt_of_le (by decide) (Nat.pow_le_pow_right (by decide) h3)
    have hadd : 3 + (i - 3) = i := by omega
    by_cases hi : i < 32
    · simp [Nat.testBit_lt_two_pow hlt, hadd, hi, h3]
    · have hn : n.testBit i = false :=
        Nat.testBit_lt_two_pow (lt_of_lt_of_le h (Nat.pow_le_pow_right (by decide) (by omega)))
      simp [hadd, hn]
  · have h7 : (7 : ℕ).testBit i = true := by
      have hi : i = 0 ∨ i = 1 ∨ i = 2 := by omega
      rcases hi with rfl | rfl | rfl <;> rfl
    simp [h3, h7]

/-- The top bit of a word. -/
theorem and_bit (h : n < 2 ^ 32) : n &&& 1 <<< 31 = 0 ↔ n < 2 ^ 31 := by
  have hiff : (decide (n / 2 ^ 31 % 2 = 1)).toNat * 2 ^ 31 = 0 ↔ n / 2 ^ 31 % 2 = 0 := by simp
  rw [Nat.one_shiftLeft, Nat.and_two_pow, Nat.testBit_eq_decide_div_mod_eq, hiff]
  omega

theorem or_bit (h : n < 2 ^ 31) : n ||| 1 <<< 31 = n + 2 ^ 31 := by
  have := Nat.two_pow_add_eq_or_of_lt h 1
  rw [Nat.mul_one] at this
  rw [Nat.one_shiftLeft, Nat.or_comm, ← this, Nat.add_comm]

theorem and_not_bit (h : n < 2 ^ 31) : (n + 2 ^ 31) &&& not32 (1 <<< 31) = n := by
  have hnot : not32 (1 <<< 31) = 2 ^ 31 - 1 := rfl
  rw [hnot, Nat.and_two_pow_sub_one_eq_mod]
  omega

theorem configASSERT_of {α : Type} {c : Prop} [Decidable c] (h : c) (x : α) : configASSERT c x = some x := if_pos h

end Words

/-! ## The area -/

/-- The area of the blocks and the cell of `pxEnd` behind it. -/
structure Area (L : Layout) (lo e : ℕ) : Prop where
  pos : 0 < lo
  lo_mod : lo % 8 = 0
  e_mod : e % 8 = 0
  lt : lo < e
  size_lt : e - lo < configTOTAL_HEAP_SIZE
  inside : L.ucHeap ≤ lo ∧ e + xHeapStructSize ≤ L.ucHeap + configTOTAL_HEAP_SIZE
  top : e + xHeapStructSize < 2 ^ 32
  start_top : L.xStart + xHeapStructSize < 2 ^ 32
  start_pos : 0 < L.xStart
  apart : L.xStart + xHeapStructSize ≤ lo ∨ e + xHeapStructSize ≤ L.xStart

/-- Where the area begins and ends: at multiples of eight, with less than sixteen bytes of `ucHeap` lost beside
`pxEnd`. -/
theorem area_values (L : Layout) :
    (pucAlignedHeap L % 8 = 0 ∧ L.ucHeap ≤ pucAlignedHeap L ∧ pucAlignedHeap L < L.ucHeap + 8) ∧
      endAddress L % 8 = 0 ∧ endAddress L + 8 ≤ L.ucHeap + configTOTAL_HEAP_SIZE ∧
        L.ucHeap + configTOTAL_HEAP_SIZE < endAddress L + 16 := by
  have hlt := L.ucHeap_lt
  unfold configTOTAL_HEAP_SIZE at hlt
  have hbegin : pucAlignedHeap L = (L.ucHeap + 7) / 8 * 8 := by
    unfold pucAlignedHeap
    rw [and_mask]
    by_cases hmod : L.ucHeap % 8 = 0
    · rw [if_neg (not_not.mpr hmod)]
      omega
    · rw [if_pos hmod, add32_eq (by unfold portBYTE_ALIGNMENT; omega),
        and_not_mask (by unfold portBYTE_ALIGNMENT; omega)]
      rfl
  have htotal : pucAlignedHeap L + xTotalHeapSize L = L.ucHeap + configTOTAL_HEAP_SIZE := by
    unfold xTotalHeapSize
    rw [and_mask]
    by_cases hmod : L.ucHeap % 8 = 0
    · rw [if_neg (not_not.mpr hmod)]
      omega
    · rw [if_pos hmod]
      unfold sub32 configTOTAL_HEAP_SIZE
      omega
  have hend : endAddress L = (L.ucHeap + configTOTAL_HEAP_SIZE - 8) / 8 * 8 := by
    unfold endAddress
    have hsum : pucAlignedHeap L + xTotalHeapSize L < 2 ^ 32 := by
      rw [htotal]
      exact L.ucHeap_lt
    rw [add32_eq hsum, htotal, sub32_eq (by unfold configTOTAL_HEAP_SIZE xHeapStructSize; omega) L.ucHeap_lt,
      and_not_mask (by unfold configTOTAL_HEAP_SIZE; omega)]
    rfl
  unfold configTOTAL_HEAP_SIZE at hend ⊢
  omega

theorem area (L : Layout) : Area L (pucAlignedHeap L) (endAddress L) := by
  obtain ⟨⟨h1, h2, h3⟩, h4, h5, h6⟩ := area_values L
  have hpos := L.ucHeap_pos
  have hlt := L.ucHeap_lt
  have hapart := L.apart
  unfold configTOTAL_HEAP_SIZE at h5 h6 hlt hapart
  unfold xHeapStructSize at hapart
  exact {
    pos := by omega
    lo_mod := h1
    e_mod := h4
    lt := by omega
    size_lt := by unfold configTOTAL_HEAP_SIZE; omega
    inside := by unfold configTOTAL_HEAP_SIZE xHeapStructSize; omega
    top := by unfold xHeapStructSize; omega
    start_top := L.xStart_lt
    start_pos := L.xStart_pos
    apart := by unfold xHeapStructSize; omega }

/-! ## The free list -/

/-- `xStart`, seen as a free block of no bytes. -/
def startBlock (L : Layout) : Block := ⟨L.xStart, 0, false⟩

/-- The memory holds the links and the sizes of the free blocks. -/
structure FreeList (L : Layout) (m : Memory) (e : ℕ) (bs : List Block) : Prop where
  threaded : Threaded (fun a => (m a).pxNextFreeBlock) e (startBlock L :: bs)
  size_eq : ∀ b ∈ startBlock L :: bs, b.used = false → (m b.addr).xBlockSize = b.size
  tail : m e = ⟨0, 0⟩

section Walks

variable {L : Layout} {m : Memory} {lo e blk w : ℕ} {A B bs : List Block}

/-- The walk of `prvInsertBlockIntoFreeList` ends at the last free block below the address. -/
theorem insertPlace_eq (ht : Threaded (fun a => (m a).pxNextFreeBlock) e (A ++ B))
    (hA : ∀ a ∈ A, a.addr < blk) (hB : blk ≤ firstFree e B) {fuel it : ℕ}
    (hit : (m it).pxNextFreeBlock = firstFree e (A ++ B)) (hfuel : A.length < fuel) :
    insertPlace m blk fuel it = some (lastFree it A) := by
  induction A generalizing it fuel with
  | nil =>
    obtain ⟨fuel, rfl⟩ : ∃ k, fuel = k + 1 := Nat.exists_eq_succ_of_ne_zero (by omega)
    rw [List.nil_append] at hit
    rw [insertPlace, hit, if_neg (by omega), lastFree]
  | cons a A ih =>
    rw [List.length_cons] at hfuel
    obtain ⟨fuel, rfl⟩ : ∃ k, fuel = k + 1 := Nat.exists_eq_succ_of_ne_zero (by omega)
    have hA' : ∀ c ∈ A, c.addr < blk := fun c hc => hA c (List.mem_cons_of_mem a hc)
    rcases ha : a.used with _ | _
    · rw [List.cons_append, firstFree_cons_of_free ha] at hit
      rw [insertPlace, hit, if_pos (hA a List.mem_cons_self), lastFree, ha, if_neg Bool.false_ne_true]
      exact ih ht.2 hA' (ht.1 ha) (by omega)
    · rw [List.cons_append, firstFree_cons_of_used ha] at hit
      rw [lastFree, if_pos ha]
      exact ih ht.2 hA' hit (by omega)

/-- The walk of `pvPortMalloc` ends at the first free block that is large enough, or at `pxEnd`. -/
theorem fit_cases (ht : Threaded (fun a => (m a).pxNextFreeBlock) e bs)
    (hs : ∀ b ∈ bs, b.used = false → (m b.addr).xBlockSize = b.size) (htail : m e = ⟨0, 0⟩)
    (hpos : ∀ b ∈ bs, 0 < b.addr) (he : 0 < e) {fuel p : ℕ} (hfuel : bs.length < fuel) :
    (∃ A b B, bs = A ++ b :: B ∧ b.used = false ∧ w ≤ b.size ∧ (∀ a ∈ A, a.used = false → a.size < w) ∧
        fit m w fuel p (firstFree e bs) = some (lastFree p A, b.addr)) ∨
      (∀ b ∈ bs, b.used = false → b.size < w) ∧ ∃ q, fit m w fuel p (firstFree e bs) = some (q, e) := by
  induction bs generalizing p fuel with
  | nil =>
    right
    obtain ⟨fuel, rfl⟩ : ∃ k, fuel = k + 1 := Nat.exists_eq_succ_of_ne_zero (by omega)
    refine ⟨fun b hb => absurd hb List.not_mem_nil, p, ?_⟩
    rw [firstFree, fit, htail, if_neg (fun h => h.2 rfl)]
  | cons b bs ih =>
    rw [List.length_cons] at hfuel
    have hs' : ∀ c ∈ bs, c.used = false → (m c.addr).xBlockSize = c.size :=
      fun c hc => hs c (List.mem_cons_of_mem b hc)
    have hpos' : ∀ c ∈ bs, 0 < c.addr := fun c hc => hpos c (List.mem_cons_of_mem b hc)
    rcases hb : b.used with _ | _
    · obtain ⟨fuel, rfl⟩ : ∃ k, fuel = k + 1 := Nat.exists_eq_succ_of_ne_zero (by omega)
      have hnext : (m b.addr).pxNextFreeBlock = firstFree e bs := ht.1 hb
      rw [firstFree_cons_of_free hb, fit, hnext, hs b List.mem_cons_self hb]
      by_cases hlt : b.size < w
      · have hne : firstFree e bs ≠ 0 := by
          rcases firstFree_cases e bs with ⟨hf, -⟩ | ⟨c, hc, -, hf⟩
          · rw [hf]
            exact he.ne'
          · rw [hf]
            exact (hpos' c hc).ne'
        rw [if_pos ⟨hlt, hne⟩]
        rcases ih ht.2 hs' hpos' (p := b.addr) (show bs.length < fuel by omega) with
          ⟨A, c, B, rfl, hc, hle, hA, hfit⟩ | ⟨hall, q, hfit⟩
        · refine Or.inl ⟨b :: A, c, B, rfl, hc, hle, ?_, ?_⟩
          · intro a ha hfree
            rcases List.mem_cons.mp ha with rfl | ha
            · exact hlt
            · exact hA a ha hfree
          · rw [hfit, lastFree, hb, if_neg Bool.false_ne_true]
        · refine Or.inr ⟨fun c hc hfree => ?_, q, hfit⟩
          rcases List.mem_cons.mp hc with rfl | hc
          · exact hlt
          · exact hall c hc hfree
      · rw [if_neg (fun h => hlt h.1)]
        exact Or.inl ⟨[], b, bs, rfl, hb, by omega, fun a ha => absurd ha List.not_mem_nil, rfl⟩
    · rw [firstFree_cons_of_used hb]
      rcases ih ht.2 hs' hpos' (p := p) (show bs.length < fuel by omega) with
        ⟨A, c, B, rfl, hc, hle, hA, hfit⟩ | ⟨hall, q, hfit⟩
      · refine Or.inl ⟨b :: A, c, B, rfl, hc, hle, ?_, ?_⟩
        · intro a ha hfree
          rcases List.mem_cons.mp ha with rfl | ha
          · rw [hb] at hfree
            cases hfree
          · exact hA a ha hfree
        · rw [hfit, lastFree, if_pos hb]
      · refine Or.inr ⟨fun c hc hfree => ?_, q, hfit⟩
        rcases List.mem_cons.mp hc with rfl | hc
        · rw [hb] at hfree
          cases hfree
        · exact hall c hc hfree

end Walks

/-! ## A block becomes free -/

theorem setNext_eq (m : Memory) (a next : ℕ) : setNext m a next = Function.update m a ⟨next, (m a).xBlockSize⟩ := rfl

@[simp] theorem setSize_next (m : Memory) (a size x : ℕ) :
    (setSize m a size x).pxNextFreeBlock = (m x).pxNextFreeBlock := by
  unfold setSize
  by_cases h : x = a
  · rw [h, Function.update_self]
  · rw [Function.update_of_ne h]

theorem setSize_of_ne {m : Memory} {a size x : ℕ} (h : x ≠ a) : setSize m a size x = m x := Function.update_of_ne h _ _

theorem setSize_self (m : Memory) (a size : ℕ) : (setSize m a size a).xBlockSize = size := by
  unfold setSize
  rw [Function.update_self]

theorem setNext_setSize (m : Memory) (a size next : ℕ) :
    setNext (setSize m a size) a next = Function.update m a ⟨next, size⟩ := by
  unfold setNext setSize
  rw [Function.update_self, Function.update_idem]

section Insert

variable {L : Layout} {m : Memory} {lo e : ℕ} {A A' B B' : List Block} {b M M' : Block}

/-- The free block before an address ends before it, unless it is the one right before it. -/
theorem joinBefore_eq (ha : Area L lo e) (ht : Tiles lo (A ++ b :: B) e)
    (hs : ∀ c ∈ startBlock L :: A, c.used = false → (m c.addr).xBlockSize = c.size)
    (hsize : (m b.addr).xBlockSize = b.size) (hM : Before A b A' M) :
    joinBefore m (lastFree L.xStart A) b.addr = (setSize m M.addr M.size, M.addr) := by
  obtain ⟨hA, hpos, hB⟩ := tiles_split.mp ht
  have hblo := hA.le
  have hbhi := hB.le
  obtain ⟨-, -, -, -, -, -, htop, hstart, -, hapart⟩ := ha
  unfold xHeapStructSize at htop hstart hapart
  have hstartsize : (m L.xStart).xBlockSize = 0 := hs (startBlock L) List.mem_cons_self rfl
  unfold joinBefore
  cases hM with
  | apart h =>
    have hne : add32 (lastFree L.xStart A) (m (lastFree L.xStart A)).xBlockSize ≠ b.addr := by
      rcases lastFree_cases L.xStart A with ⟨heq, -⟩ | ⟨c, hc, hfree, heq⟩
      · rw [heq, hstartsize, add32_eq (by omega)]
        omega
      · rw [heq, hs c (List.mem_cons_of_mem _ hc) hfree]
        obtain ⟨A0, x, rfl⟩ := (List.eq_nil_or_concat' A).resolve_left (List.ne_nil_of_mem hc)
        have hx : x.used = true := h x (by rw [List.getLast?_concat]; rfl)
        obtain ⟨h0, hxpos, hxend⟩ := tiles_split.mp hA
        have hxb : x.addr + x.size = b.addr := hxend
        have hc0 : c ∈ A0 := by
          rcases List.mem_append.mp hc with hc | hc
          · exact hc
          · rw [List.mem_singleton.mp hc, hx] at hfree
            cases hfree
        have := (h0.bounds hc0).2.1
        rw [add32_eq (by omega)]
        omega
    rw [if_neg hne, ← hsize]
    exact congrArg (fun m' => (m', b.addr)) (Function.update_eq_self b.addr m).symm
  | @joined A' f h hf =>
    subst h
    obtain ⟨-, hfpos, hfend⟩ := tiles_split.mp hA
    have hfb : f.addr + f.size = b.addr := hfend
    have hfsize : (m f.addr).xBlockSize = f.size :=
      hs f (List.mem_cons_of_mem _ List.mem_concat_self) hf
    rw [lastFree_concat_of_free hf, hfsize, hsize, add32_eq (by omega), if_pos hfb, add32_eq (by omega)]

theorem firstFree_bound (ht : Tiles lo B e) : lo ≤ firstFree e B ∧ firstFree e B ≤ e := by
  rcases firstFree_cases e B with ⟨heq, -⟩ | ⟨c, hc, -, heq⟩
  · rw [heq]
    exact ⟨ht.le, le_refl e⟩
  · rw [heq]
    have := ht.bounds hc
    omega

theorem joinAfter_eq {it : ℕ} (htop : e < 2 ^ 32) (ht : Tiles lo (A ++ M :: B) e)
    (hB : Threaded (fun a => (m a).pxNextFreeBlock) e B)
    (hs : ∀ c ∈ B, c.used = false → (m c.addr).xBlockSize = c.size) (hsize : (m M.addr).xBlockSize = M.size)
    (hit : (m it).pxNextFreeBlock = firstFree e B) (hM : After M B M' B') :
    joinAfter m e it M.addr = Function.update m M.addr ⟨firstFree e B', M'.size⟩ := by
  obtain ⟨-, hpos, htB⟩ := tiles_split.mp ht
  have hend := htB.le
  unfold joinAfter
  simp only [hit, hsize]
  cases hM with
  | apart h =>
    have hset : setNext m M.addr (firstFree e B) = Function.update m M.addr ⟨firstFree e B, M.size⟩ := by
      rw [setNext_eq, hsize]
    rw [add32_eq (by omega)]
    by_cases hadj : M.addr + M.size = firstFree e B
    · have hlast : firstFree e B = e := by
        cases B with
        | nil => rfl
        | cons g B =>
          have hg : g.used = true := h g rfl
          rw [firstFree_cons_of_used hg] at hadj
          obtain ⟨-, hgpos, hrest⟩ := htB
          have := (firstFree_bound hrest).1
          omega
      rw [if_pos hadj, if_neg (not_not.mpr hlast), ← hset, hlast]
    · rw [if_neg hadj, hset]
  | @joined g B' h hg =>
    subst h
    obtain ⟨hgaddr, hgpos, hrest⟩ := htB
    have hgend := hrest.le
    have hgsize : (m g.addr).xBlockSize = g.size := hs g List.mem_cons_self hg
    have hne : g.addr ≠ M.addr := by omega
    have hnext : (setSize m M.addr (M.size + g.size) it).pxNextFreeBlock = g.addr := by
      rw [setSize_next, hit, firstFree_cons_of_free hg]
    have hlink : (setSize m M.addr (M.size + g.size) g.addr).pxNextFreeBlock = firstFree e B' := by
      rw [setSize_next]
      exact hB.1 hg
    rw [firstFree_cons_of_free hg, add32_eq (by omega), if_pos hgaddr.symm, if_pos (by omega), hgsize,
      add32_eq (by omega), hnext, hlink, setNext_setSize]

theorem lastFree_ne (ha : Area L lo e) (ht : Tiles lo A b.addr) (hend : b.addr < e) :
    lastFree L.xStart A ≠ b.addr := by
  have hlo := ht.le
  have hapart := ha.apart
  unfold xHeapStructSize at hapart
  rcases lastFree_cases L.xStart A with ⟨heq, -⟩ | ⟨c, hc, -, heq⟩
  · rw [heq]
    omega
  · rw [heq]
    have := ht.bounds hc
    omega

/-- The memory behind `prvInsertBlockIntoFreeList`: the block, and the link to it. -/
theorem insertAt_spec (ha : Area L lo e) (ht : Tiles lo (A ++ b :: B) e) (hf : FreeList L m e (A ++ b :: B))
    (hb : b.used = true) (hsize : (m b.addr).xBlockSize = b.size) (hM : Before A b A' M) (hM' : After M B M' B') :
    insertAt m e (lastFree L.xStart A) b.addr M.addr = ⟨firstFree e B', M'.size⟩ ∧
      insertAt m e (lastFree L.xStart A) b.addr (lastFree L.xStart A') =
        ⟨M.addr, (m (lastFree L.xStart A')).xBlockSize⟩ ∧
      ∀ a, a ≠ M.addr → a ≠ lastFree L.xStart A' → insertAt m e (lastFree L.xStart A) b.addr a = m a := by
  have htM := hM.tiles ht
  obtain ⟨htA', hpos, htB⟩ := tiles_split.mp htM
  have hMe : M.addr < e := by
    have := htB.le
    omega
  have htop := ha.top
  unfold xHeapStructSize at htop
  obtain ⟨hthA, hthB⟩ := threaded_append.mp (show Threaded _ e ((startBlock L :: A) ++ b :: B) from hf.threaded)
  have hnext : (m (lastFree L.xStart A)).pxNextFreeBlock = firstFree e B := by
    have hlast := hthA.next_lastFree (p := L.xStart) ⟨startBlock L, List.mem_cons_self, rfl⟩
    rwa [firstFree_cons_of_used hb] at hlast
  have hsA : ∀ c ∈ startBlock L :: A, c.used = false → (m c.addr).xBlockSize = c.size := by
    intro c hc
    apply hf.size_eq c
    rcases List.mem_cons.mp hc with rfl | hc
    · exact List.mem_cons_self
    · exact List.mem_cons_of_mem _ (List.mem_append_left _ hc)
  have hbefore := joinBefore_eq ha ht hsA hsize hM
  have hafter : joinAfter (setSize m M.addr M.size) e (lastFree L.xStart A) M.addr =
      Function.update m M.addr ⟨firstFree e B', M'.size⟩ := by
    have hth : Threaded (fun a => (setSize m M.addr M.size a).pxNextFreeBlock) e B := by
      simp only [setSize_next]
      exact hthB.2
    have hsB : ∀ c ∈ B, c.used = false → (setSize m M.addr M.size c.addr).xBlockSize = c.size := by
      intro c hc hfree
      have := htB.bounds hc
      rw [setSize_of_ne (by omega)]
      exact hf.size_eq c (List.mem_cons_of_mem _ (List.mem_append_right _ (List.mem_cons_of_mem _ hc))) hfree
    rw [joinAfter_eq (by omega) htM hth hsB (setSize_self m M.addr M.size) (by rw [setSize_next, hnext]) hM', setSize,
      Function.update_idem]
  have hp : lastFree L.xStart A' ≠ M.addr := lastFree_ne ha htA' hMe
  unfold insertAt
  simp only [hbefore, hafter]
  cases hM with
  | apart h =>
    rw [if_pos hp, setNext_eq]
    refine ⟨?_, ?_, fun a h1 h2 => ?_⟩
    · rw [Function.update_of_ne hp.symm, Function.update_self]
    · rw [Function.update_self, Function.update_of_ne hp]
    · rw [Function.update_of_ne h2, Function.update_of_ne h1]
  | @joined A' f h hfree =>
    subst h
    rw [lastFree_concat_of_free hfree, if_neg (not_not.mpr rfl)]
    refine ⟨Function.update_self _ _ _, ?_, fun a h1 _ => Function.update_of_ne h1 _ _⟩
    -- the block before it was linked to the block it is now part of
    have hth : Threaded (fun a => (m a).pxNextFreeBlock) (firstFree e (b :: B)) ((startBlock L :: A') ++ [f]) := hthA
    have hlink := (threaded_append.mp hth).1.next_lastFree (p := L.xStart) ⟨startBlock L, List.mem_cons_self, rfl⟩
    rw [firstFree_cons_of_free hfree] at hlink
    rw [Function.update_of_ne hp]
    exact congrArg (fun n => BlockLink.mk n _) hlink

/-- A part of the list is replaced: the memory changes between its ends, and in the link to it. -/
theorem FreeList.splice {m' : Memory} {D N : List Block} {x y : ℕ} (ha : Area L lo e)
    (hf : FreeList L m e (A ++ (D ++ B))) (htA : Tiles lo A x) (hxy : x ≤ y) (htB : Tiles y B e)
    (hprev : m' (lastFree L.xStart A) = ⟨firstFree e (N ++ B), (m (lastFree L.xStart A)).xBlockSize⟩)
    (hrest : ∀ a, a < x ∨ y ≤ a → a ≠ lastFree L.xStart A → m' a = m a)
    (hth : Threaded (fun a => (m' a).pxNextFreeBlock) (firstFree e B) N)
    (hs : ∀ c ∈ N, c.used = false → (m' c.addr).xBlockSize = c.size) : FreeList L m' e (A ++ (N ++ B)) := by
  have hend := htB.le
  have hlo := htA.le
  have hapart := ha.apart
  unfold xHeapStructSize at hapart
  have hstart : (startBlock L).addr = L.xStart := rfl
  -- behind the part nothing has changed
  have hB : ∀ a, y ≤ a → a ≤ e → m' a = m a := by
    intro a h1 h2
    apply hrest a (Or.inr h1)
    rcases lastFree_cases L.xStart A with ⟨heq, -⟩ | ⟨c, hc, -, heq⟩
    · rw [heq]
      omega
    · rw [heq]
      have := htA.bounds hc
      omega
  -- before it only the link of the last free block
  have hA : ∀ c ∈ startBlock L :: A, c.addr ≠ lastFree L.xStart A → m' c.addr = m c.addr := by
    intro c hc hne
    apply hrest c.addr _ hne
    rcases List.mem_cons.mp hc with rfl | hc
    · omega
    · have := htA.bounds hc
      omega
  have hnd : ((startBlock L :: A).map Block.addr).Nodup := by
    rw [List.map_cons, List.nodup_cons]
    refine ⟨fun hmem => ?_, htA.nodup⟩
    obtain ⟨c, hc, heq⟩ := List.mem_map.mp hmem
    have := htA.bounds hc
    omega
  obtain ⟨hthA, hthB⟩ := threaded_append.mp (show Threaded _ e ((startBlock L :: A) ++ (D ++ B)) from hf.threaded)
  refine ⟨?_, ?_, ?_⟩
  · rw [← List.cons_append]
    refine threaded_append.mpr ⟨?_, threaded_append.mpr ⟨hth, ?_⟩⟩
    · refine hthA.relink (p := L.xStart) hnd (fun c hc _ hne => ?_) ?_
      · exact congrArg BlockLink.pxNextFreeBlock (hA c hc hne)
      · exact congrArg BlockLink.pxNextFreeBlock hprev
    · refine (threaded_append.mp hthB).2.congr fun c hc _ => ?_
      have := htB.bounds hc
      exact congrArg BlockLink.pxNextFreeBlock (hB c.addr (by omega) (by omega))
  · intro c hc hfree
    rw [← List.cons_append] at hc
    rcases List.mem_append.mp hc with hc | hc
    · have hold : (m c.addr).xBlockSize = c.size := by
        apply hf.size_eq c _ hfree
        rw [← List.cons_append]
        exact List.mem_append_left _ hc
      by_cases hlast : c.addr = lastFree L.xStart A
      · rw [hlast, hprev, ← hlast, hold]
      · rw [hA c hc hlast, hold]
    · rcases List.mem_append.mp hc with hc | hc
      · exact hs c hc hfree
      · have := htB.bounds hc
        rw [hB c.addr (by omega) (by omega)]
        apply hf.size_eq c _ hfree
        exact List.mem_cons_of_mem _ (List.mem_append_right _ (List.mem_append_right _ hc))
  · rw [hB e hend (le_refl e)]
    exact hf.tail

theorem FreeList.congr {m' : Memory} {bs : List Block} (hf : FreeList L m e bs)
    (hm : ∀ c ∈ startBlock L :: bs, c.used = false → m' c.addr = m c.addr) (he : m' e = m e) :
    FreeList L m' e bs where
  threaded := hf.threaded.congr fun c hc hfree => congrArg BlockLink.pxNextFreeBlock (hm c hc hfree)
  size_eq c hc hfree := by rw [hm c hc hfree, hf.size_eq c hc hfree]
  tail := by rw [he, hf.tail]

end Insert

/-! ## The functions -/

/-- A block begins and ends at multiples of eight. -/
def Aligned (b : Block) : Prop := b.addr % 8 = 0 ∧ b.size % 8 = 0

section Functions

variable {L : Layout} {h : Heap} {lo e : ℕ} {A B bs : List Block} {b : Block}

theorem before_aligned {A' : List Block} {M : Block} (hM : Before A b A' M) (hb : Aligned b)
    (hA : ∀ c ∈ A, Aligned c) : Aligned M ∧ ∀ c ∈ A', Aligned c := by
  cases hM with
  | apart h => exact ⟨hb, hA⟩
  | @joined A' f h hf =>
    subst h
    have hfa := hA f List.mem_concat_self
    refine ⟨⟨hfa.1, ?_⟩, fun c hc => hA c (List.mem_append_left _ hc)⟩
    have h1 := hfa.2
    have h2 := hb.2
    dsimp only
    omega

theorem after_aligned {B' : List Block} {M : Block} (hM : After b B M B') (hb : Aligned b)
    (hB : ∀ c ∈ B, Aligned c) : Aligned M ∧ ∀ c ∈ B', Aligned c := by
  cases hM with
  | apart h => exact ⟨hb, hB⟩
  | @joined g B' h hg =>
    subst h
    have hga := (hB g List.mem_cons_self).2
    refine ⟨⟨hb.1, ?_⟩, fun c hc => hB c (List.mem_cons_of_mem g hc)⟩
    have h2 := hb.2
    dsimp only
    omega

/-- **`prvInsertBlockIntoFreeList`**: the block is free, and one with its free neighbours. -/
theorem prvInsertBlockIntoFreeList_spec (ha : Area L lo e) (hend : h.pxEnd = e) (ht : Tiles lo (A ++ b :: B) e)
    (hf : FreeList L h.mem e (A ++ b :: B)) (hb : b.used = true) (hsize : (h.mem b.addr).xBlockSize = b.size)
    (hcA : Coalesced A) (hcB : Coalesced B) (hal : ∀ c ∈ A ++ b :: B, Aligned c) :
    ∃ m' bs', prvInsertBlockIntoFreeList L h b.addr = some { h with mem := m' } ∧ Tiles lo bs' e ∧ Coalesced bs' ∧
      FreeList L m' e bs' ∧ (∀ c ∈ bs', Aligned c) ∧
      bs'.filter Block.used = A.filter Block.used ++ B.filter Block.used ∧
      space false bs' = space false (A ++ B) + b.size ∧
      ∀ c ∈ A ++ B, c.used = true → ∀ a, c.addr ≤ a → a < c.addr + c.size → m' a = h.mem a := by
  obtain ⟨A', M, hM⟩ := exists_before A b
  obtain ⟨M', B', hM'⟩ := exists_after M B
  obtain ⟨htA, hpos, htB⟩ := tiles_split.mp ht
  have hblo := htA.le
  have hbhi := htB.le
  have hplace : insertPlace h.mem b.addr walk L.xStart = some (lastFree L.xStart A) := by
    have hfirst : firstFree e (b :: B) = firstFree e B := firstFree_cons_of_used hb
    have hlen := ht.length_le
    have hwalk := ha.size_lt
    rw [List.length_append, List.length_cons] at hlen
    refine insertPlace_eq hf.threaded.2 (fun c hc => ?_) ?_ (hf.threaded.1 rfl) ?_
    · have := htA.bounds hc
      omega
    · rw [hfirst]
      have := (firstFree_bound htB).1
      omega
    · unfold walk
      omega
  have htM : Tiles lo (A' ++ M' :: B') e := hM'.tiles (hM.tiles ht)
  obtain ⟨htA', hMpos, htB'⟩ := tiles_split.mp htM
  have hfree : M'.used = false := hM'.free hM.free
  have haddr : M'.addr = M.addr := hM'.addr
  obtain ⟨hblock, hprev, hrest⟩ := insertAt_spec ha ht hf hb hsize hM hM'
  rw [← haddr] at hblock hprev hrest
  have hal' : Aligned M' ∧ (∀ c ∈ A', Aligned c) ∧ ∀ c ∈ B', Aligned c := by
    have hMal := before_aligned hM (hal b (by simp)) fun c hc => hal c (List.mem_append_left _ hc)
    have hMal' := after_aligned hM' hMal.1 fun c hc => hal c (List.mem_append_right _ (List.mem_cons_of_mem _ hc))
    exact ⟨hMal'.1, hMal.2, hMal'.2⟩
  refine ⟨insertAt h.mem e (lastFree L.xStart A) b.addr, A' ++ M' :: B', ?_, htM, coalesced_join hM hM' hcA hcB, ?_,
    ?_, ?_, ?_, ?_⟩
  · rw [prvInsertBlockIntoFreeList, hplace, hend]
    rfl
  · obtain ⟨fs, hfs⟩ := hM.split
    obtain ⟨gs, hgs⟩ := hM'.split
    have hlist : A ++ b :: B = A' ++ ((fs ++ b :: gs) ++ B') := by
      rw [hfs, hgs]
      simp
    refine (hlist ▸ hf).splice ha (N := [M']) htA' (Nat.le_add_right _ _) htB' ?_ (fun a hout hne => ?_) ?_ ?_
    · rw [hprev, List.singleton_append, firstFree_cons_of_free hfree]
    · exact hrest a (by omega) hne
    · exact ⟨fun _ => congrArg BlockLink.pxNextFreeBlock hblock, trivial⟩
    · intro c hc _
      rw [List.mem_singleton.mp hc, hblock]
  · intro c hc
    rcases List.mem_append.mp hc with hc | hc
    · exact hal'.2.1 c hc
    · rcases List.mem_cons.mp hc with rfl | hc
      · exact hal'.1
      · exact hal'.2.2 c hc
  · rw [List.filter_append, List.filter_cons_of_neg (by rw [hfree]; exact Bool.false_ne_true), hM.filter_used,
      hM'.filter_used]
  · rw [hM'.space hM.free, hM.space]
  · intro c hc hused a h1 h2
    have hc' : c ∈ A' ++ M' :: B' := by
      have hmem : c ∈ A'.filter Block.used ++ B'.filter Block.used := by
        rw [hM.filter_used, hM'.filter_used, ← List.filter_append]
        exact List.mem_filter.mpr ⟨hc, hused⟩
      rcases List.mem_append.mp hmem with hc | hc
      · exact List.mem_append_left _ (List.mem_filter.mp hc).1
      · exact List.mem_append_right _ (List.mem_cons_of_mem _ (List.mem_filter.mp hc).1)
    have hcin := htM.bounds hc'
    -- what is written is outside the used blocks
    have hout : ∀ d ∈ A' ++ M' :: B', d.used = false → a ≠ d.addr := by
      intro d hd hdfree heq
      have hne : c ≠ d := by
        rintro rfl
        rw [hused] at hdfree
        cases hdfree
      have := (htM.bounds hd).2.2
      have := htM.disjoint hc' hd hne
      omega
    have hapart := ha.apart
    unfold xHeapStructSize at hapart
    apply hrest a (hout M' (by simp) hfree)
    rcases lastFree_cases L.xStart A' with ⟨heq, -⟩ | ⟨d, hd, hdfree, heq⟩
    · rw [heq]
      omega
    · rw [heq]
      exact hout d (List.mem_append_left _ hd) hdfree

/-- A free block is taken out of the list. -/
theorem FreeList.cut {m : Memory} {us : List Block} (ha : Area L lo e) (ht : Tiles lo (A ++ b :: B) e)
    (hf : FreeList L m e (A ++ b :: B)) (hb : b.used = false) (hus : ∀ c ∈ us, c.used = true) :
    FreeList L (setNext m (lastFree L.xStart A) (m b.addr).pxNextFreeBlock) e (A ++ (us ++ B)) := by
  obtain ⟨htA, hpos, htB⟩ := tiles_split.mp ht
  obtain ⟨-, hthB⟩ := threaded_append.mp (show Threaded _ e ((startBlock L :: A) ++ b :: B) from hf.threaded)
  have hnext : (m b.addr).pxNextFreeBlock = firstFree e B := hthB.1 hb
  have hfirst : firstFree e (us ++ B) = firstFree e B := by
    rw [firstFree_append]
    rcases firstFree_cases (firstFree e B) us with ⟨heq, -⟩ | ⟨c, hc, hfree, -⟩
    · exact heq
    · rw [hus c hc] at hfree
      cases hfree
  refine hf.splice (D := [b]) ha htA (Nat.le_add_right _ _) htB ?_ (fun a _ hne => ?_) ?_ ?_
  · rw [setNext_eq, Function.update_self, hnext, hfirst]
  · rw [setNext_eq, Function.update_of_ne hne]
  · induction us with
    | nil => trivial
    | cons u us ih =>
      refine ⟨fun hu => ?_, ih (fun c hc => hus c (List.mem_cons_of_mem u hc)) ?_⟩
      · rw [hus u List.mem_cons_self] at hu
        cases hu
      · rwa [List.cons_append, firstFree_cons_of_used (hus u List.mem_cons_self)] at hfirst
  · intro c hc hfree
    rw [hus c hc] at hfree
    cases hfree

/-- The block found is cut to the size required, if that leaves enough. -/
theorem splitBlock_spec {w : ℕ} (ha : Area L lo e) (hend : h.pxEnd = e) (ht : Tiles lo (A ++ b :: B) e)
    (hf : ∀ us : List Block, (∀ c ∈ us, c.used = true) → FreeList L h.mem e (A ++ (us ++ B)))
    (hfree : b.used = false) (hsize : (h.mem b.addr).xBlockSize = b.size) (hcA : Coalesced A) (hcB : Coalesced B)
    (hal : ∀ c ∈ A ++ b :: B, Aligned c) (hw : 0 < w) (hw8 : w % 8 = 0) (hfit : w ≤ b.size) :
    ∃ m' bs' size, splitBlock L h b.addr w = some { h with mem := m' } ∧ Tiles lo bs' e ∧ Coalesced bs' ∧
      FreeList L m' e bs' ∧ (∀ c ∈ bs', Aligned c) ∧
      bs'.filter Block.used = A.filter Block.used ++ ⟨b.addr, size, true⟩ :: B.filter Block.used ∧
      (w ≤ size ∧ size ≤ w + 16) ∧ space false bs' + size = space false (A ++ b :: B) ∧
      (m' b.addr).xBlockSize = size ∧
      ∀ c ∈ A ++ B, c.used = true → ∀ a, c.addr ≤ a → a < c.addr + c.size → m' a = h.mem a := by
  obtain ⟨htA, hpos, htB⟩ := tiles_split.mp ht
  have hblo := htA.le
  have hbhi := htB.le
  have htop := ha.top
  have hapart := ha.apart
  unfold xHeapStructSize at htop hapart
  have halb : Aligned b := hal b (by simp)
  unfold splitBlock
  rw [hsize, sub32_eq hfit (by omega)]
  have hmin : heapMINIMUM_BLOCK_SIZE = 16 := rfl
  rw [hmin]
  by_cases hlarge : b.size - w > 16
  · rw [if_pos hlarge, add32_eq (by omega)]
    have hal8 : (b.addr + w) &&& portBYTE_ALIGNMENT_MASK = 0 := by
      rw [and_mask]
      have := halb.1
      omega
    dsimp only
    rw [configASSERT_of hal8, Option.bind_some]
    set m1 := setSize (setSize h.mem (b.addr + w) (b.size - w)) b.addr w with hm1
    -- the two parts, neither of them in the list yet
    have ht1 : Tiles lo ((A ++ [⟨b.addr, w, true⟩]) ++ ⟨b.addr + w, b.size - w, true⟩ :: B) e := by
      refine tiles_split.mpr ⟨tiles_split.mpr ⟨htA, hw, rfl⟩, by dsimp only; omega, ?_⟩
      dsimp only
      rwa [show b.addr + w + (b.size - w) = b.addr + b.size by omega]
    have hf1 : FreeList L m1 e ((A ++ [⟨b.addr, w, true⟩]) ++ ⟨b.addr + w, b.size - w, true⟩ :: B) := by
      have hus : ∀ c ∈ [(⟨b.addr, w, true⟩ : Block), ⟨b.addr + w, b.size - w, true⟩], c.used = true := by simp
      have hf0 := hf _ hus
      rw [List.append_assoc]
      refine hf0.congr (fun c hc hcfree => ?_) ?_
      · have hne : c.addr ≠ b.addr ∧ c.addr ≠ b.addr + w := by
          rcases List.mem_cons.mp hc with rfl | hc
          · have : (startBlock L).addr = L.xStart := rfl
            omega
          · rcases List.mem_append.mp hc with hc | hc
            · have := htA.bounds hc
              omega
            · rcases List.mem_append.mp hc with hc | hc
              · rw [hus c hc] at hcfree
                cases hcfree
              · have := htB.bounds hc
                omega
        rw [hm1, setSize_of_ne hne.1, setSize_of_ne hne.2]
      · rw [hm1, setSize_of_ne (by omega), setSize_of_ne (by omega)]
    have hsize1 : (m1 (b.addr + w)).xBlockSize = b.size - w := by
      rw [hm1, setSize_of_ne (by omega), setSize_self]
    have hal1 : ∀ c ∈ (A ++ [⟨b.addr, w, true⟩]) ++ ⟨b.addr + w, b.size - w, true⟩ :: B, Aligned c := by
      have h1 := halb.1
      have h2 := halb.2
      intro c hc
      rcases List.mem_append.mp hc with hc | hc
      · rcases List.mem_append.mp hc with hc | hc
        · exact hal c (List.mem_append_left _ hc)
        · rw [List.mem_singleton.mp hc]
          exact ⟨h1, hw8⟩
      · rcases List.mem_cons.mp hc with rfl | hc
        · exact ⟨by dsimp only; omega, by dsimp only; omega⟩
        · exact hal c (List.mem_append_right _ (List.mem_cons_of_mem _ hc))
    have hcA1 : Coalesced (A ++ [⟨b.addr, w, true⟩]) := coalesced_of_used hcA rfl List.isChain_nil
    obtain ⟨m', bs', hins, ht', hc', hf', hal', hused, hspace, hframe⟩ :=
      prvInsertBlockIntoFreeList_spec (h := { h with mem := m1 }) ha hend ht1 hf1 rfl hsize1 hcA1 hcB hal1
    have hb' : m' b.addr = m1 b.addr :=
      hframe ⟨b.addr, w, true⟩ (by simp) rfl b.addr (le_refl _) (Nat.lt_add_of_pos_right hw)
    refine ⟨m', bs', w, hins, ht', hc', hf', hal', ?_, ⟨le_refl w, Nat.le_add_right w 16⟩, ?_, ?_, ?_⟩
    · rw [hused, List.filter_append, List.append_assoc]
      rfl
    · rw [hspace, space_append, space_append, space_append, space_cons, space_cons, if_pos hfree, space_nil]
      simp only [Bool.true_eq_false, if_false]
      omega
    · rw [hb', hm1, setSize_self]
    · intro c hc hcused a h1 h2
      have hmem : c ∈ (A ++ [⟨b.addr, w, true⟩]) ++ B := by
        rw [List.append_assoc]
        rcases List.mem_append.mp hc with hc | hc
        · exact List.mem_append_left _ hc
        · exact List.mem_append_right _ (List.mem_append_right _ hc)
      have hne : a ≠ b.addr ∧ a ≠ b.addr + w := by
        rcases List.mem_append.mp hc with hc | hc
        · have := htA.bounds hc
          omega
        · have := htB.bounds hc
          omega
      rw [hframe c hmem hcused a h1 h2]
      dsimp only
      rw [hm1, setSize_of_ne hne.1, setSize_of_ne hne.2]
  · rw [if_neg hlarge]
    have hus : ∀ c ∈ [(⟨b.addr, b.size, true⟩ : Block)], c.used = true := by simp
    refine ⟨h.mem, A ++ ⟨b.addr, b.size, true⟩ :: B, b.size, rfl, tiles_split.mpr ⟨htA, hpos, htB⟩,
      coalesced_of_used hcA rfl hcB, hf _ hus, ?_, ?_, by omega, ?_, hsize, fun _ _ _ _ _ _ => rfl⟩
    · intro c hc
      rcases List.mem_append.mp hc with hc | hc
      · exact hal c (List.mem_append_left _ hc)
      · rcases List.mem_cons.mp hc with rfl | hc
        · exact halb
        · exact hal c (List.mem_append_right _ (List.mem_cons_of_mem _ hc))
    · rw [List.filter_append, List.filter_cons_of_pos rfl]
    · rw [space_append, space_append, space_cons, space_cons, if_pos hfree]
      simp only [Bool.true_eq_false, if_false]
      omega

end Functions

end Thronix.KernelHeap
