import Mathlib.Order.Bounds.Basic
import Thronix.KernelHeapCalls

/-!
# Thronix.KernelHeapRuns — programs that allocate and free

Whatever a program has asked for and given back before:

* `heap_safe`: every call ends, in the caller or in `vApplicationMallocFailedHook`; what is handed out is aligned, inside
  `ucHeap`, and apart from everything else that is handed out, headers included.
* `heap_contents`: what is written stays until it is overwritten or freed.
* `heap_accounts`: `xFreeBytesRemaining` and the blocks handed out make up the whole area, and
  `xMinimumEverFreeBytesRemaining` is the least that was ever free.
* `malloc_first_fit`: a request is served exactly if there is a gap for it between the blocks handed out, at the lowest
  address where there is one.
* `heap_whole`: when everything has been freed the free list is the one of `prvHeapInit` again.
-/

namespace Thronix.KernelHeap

open Thronix.Lib
open Thronix.Lib.Tiling

/-- The blocks behind the state of a program. -/
structure StateInv (L : Layout) (s : State) (bs : List Block) : Prop where
  inv : Inv L (ready L s.heap) bs
  cold : s.heap.pxEnd = 0 → s.live = []
  perm : (s.live.map Prod.fst).Perm ((bs.filter Block.used).map fun b => b.addr + 8)
  room : ∀ x ∈ s.live, 0 < x.2 ∧ ∃ b ∈ bs, b.used = true ∧ b.addr + 8 = x.1 ∧ need x.2 ≤ b.size

section Steps

variable {L : Layout} {s s' : State} {bs : List Block} {mem : Memory} {n a : ℕ} {c : BlockLink} {x : ℕ × ℕ}

theorem init_inv (L : Layout) (mem : Memory) : ∃ bs, StateInv L (init mem) bs := by
  refine ⟨_, prvHeapInit_inv L (Heap.start mem), fun _ => rfl, List.Perm.refl _, ?_⟩
  intro x hx
  cases hx

theorem StateInv.warm (hS : StateInv L s bs) (hx : x ∈ s.live) : ready L s.heap = s.heap := by
  refine if_neg fun h => ?_
  rw [hS.cold h] at hx
  cases hx

/-- A block in use is in the list of what the program has got. -/
theorem StateInv.exists_live {b : Block} (hS : StateInv L s bs) (hb : b ∈ bs) (hused : b.used = true) :
    ∃ x ∈ s.live, x.1 = b.addr + 8 := by
  have hmem : b.addr + 8 ∈ s.live.map Prod.fst :=
    hS.perm.mem_iff.mpr (List.mem_map_of_mem (List.mem_filter.mpr ⟨hb, hused⟩))
  exact List.mem_map.mp hmem

/-- The cells of what is handed out lie in its block, behind the header. -/
theorem StateInv.cell_in (hS : StateInv L s bs) (hx : x ∈ s.live) (h1 : x.1 ≤ a) (h2 : a < x.1 + x.2) :
    ∃ b ∈ bs, b.used = true ∧ b.addr + 8 = x.1 ∧ x.1 ≤ cellOf a ∧ cellOf a < b.addr + b.size := by
  obtain ⟨-, b, hb, hused, haddr, hneed⟩ := hS.room x hx
  have hal := (hS.inv.aligned b hb).1
  unfold need at hneed
  unfold cellOf
  exact ⟨b, hb, hused, haddr, by omega, by omega⟩

theorem step_malloc (hn : n < 2 ^ 32) : step L s (.malloc n) = (pvPortMalloc L s.heap n).map (afterMalloc s n) :=
  if_pos hn

theorem step_free {pv : ℕ} (h : pv = 0 ∨ pv ∈ s.live.map Prod.fst) : step L s (.free pv) =
    (vPortFree L s.heap pv).map fun h => ⟨h, s.live.filter fun x => x.1 ≠ pv⟩ :=
  if_pos h

theorem malloc_inv (hS : StateInv L s bs) (hn : n < 2 ^ 32) :
    (∃ A b B s', bs = A ++ b :: B ∧ b.used = false ∧ need n ≤ b.size ∧ (0 < n ∧ n < 2 ^ 31) ∧
        (∀ c ∈ A, c.used = false → c.size < need n) ∧ step L s (.malloc n) = some s' ∧
        s'.live = (b.addr + 8, n) :: s.live ∧ (∃ bs', StateInv L s' bs') ∧ s'.heap.pxEnd ≠ 0 ∧
        s'.heap.xMinimumEverFreeBytesRemaining =
          min s'.heap.xFreeBytesRemaining (ready L s.heap).xMinimumEverFreeBytesRemaining ∧
        Keeps (ready L s.heap).mem s'.heap.mem bs) ∨
      (0 < n → n < 2 ^ 31 → ∀ b ∈ bs, b.used = false → b.size < need n) ∧
        step L s (.malloc n) = some ⟨ready L s.heap, s.live⟩ ∧ StateInv L ⟨ready L s.heap, s.live⟩ bs := by
  rw [step_malloc hn]
  have hend : ∀ {h bs}, Inv L h bs → h.pxEnd ≠ 0 := by
    intro h bs hI
    have := (area L).pos
    have := (area L).lt
    rw [hI.end_eq]
    omega
  rcases pvPortMalloc_spec hS.inv hn with
    ⟨h0, h31, A, b, B, size, h', bs', rfl, hfree, hfit, hA, hcall, hI', hused, hsize, hmin, hkeep⟩ | ⟨hall, hcall⟩
  · left
    have hperm : (bs'.filter Block.used).Perm (⟨b.addr, size, true⟩ :: (A ++ b :: B).filter Block.used) := by
      rw [hused, List.filter_append, List.filter_cons_of_neg (by rw [hfree]; exact Bool.false_ne_true)]
      exact List.perm_middle
    refine ⟨A, b, B, ⟨h', (b.addr + 8, n) :: s.live⟩, rfl, hfree, hfit, ⟨h0, h31⟩, hA, ?_, rfl, ⟨bs', ?_⟩, hend hI',
      hmin, hkeep⟩
    · rw [hcall]
      rfl
    · refine ⟨by rw [ready_of_inv hI']; exact hI', fun h => absurd h (hend hI'), ?_, ?_⟩
      · refine List.Perm.trans ?_ (hperm.map _).symm
        exact hS.perm.cons _
      · intro x hx
        rcases List.mem_cons.mp hx with rfl | hx
        · refine ⟨h0, ⟨b.addr, size, true⟩, ?_, rfl, rfl, hsize.1⟩
          exact (List.mem_filter.mp (hperm.mem_iff.mpr List.mem_cons_self)).1
        · obtain ⟨hpos, c, hc, hcused, haddr, hneed⟩ := hS.room x hx
          refine ⟨hpos, c, ?_, hcused, haddr, hneed⟩
          have hcmem := List.mem_cons_of_mem (⟨b.addr, size, true⟩ : Block) (List.mem_filter.mpr ⟨hc, hcused⟩)
          exact (List.mem_filter.mp (hperm.mem_iff.mpr hcmem)).1
  · right
    refine ⟨hall, by rw [hcall]; rfl, ?_, fun h => absurd h (hend hS.inv), hS.perm, hS.room⟩
    rw [ready_of_inv hS.inv]
    exact hS.inv

theorem free_inv (hS : StateInv L s bs) (hx : x ∈ s.live) :
    ∃ s' bs', step L s (.free x.1) = some s' ∧ s'.live = s.live.filter (fun y => y.1 ≠ x.1) ∧ StateInv L s' bs' ∧
      s'.heap.xMinimumEverFreeBytesRemaining = s.heap.xMinimumEverFreeBytesRemaining ∧
      (∀ b ∈ bs, b.used = true → b.addr + 8 ≠ x.1 →
        ∀ a, b.addr ≤ a → a < b.addr + b.size → s'.heap.mem a = s.heap.mem a) ∧
      s.heap.xFreeBytesRemaining ≤ s'.heap.xFreeBytesRemaining ∧ s'.heap.pxEnd ≠ 0 := by
  have hready := hS.warm hx
  have hI := hS.inv
  rw [hready] at hI
  obtain ⟨hpos, b, hb, hused, haddr, hneed⟩ := hS.room x hx
  obtain ⟨A, B, rfl⟩ := List.append_of_mem hb
  obtain ⟨h', bs', hcall, hI', hfilter, hmin, hkeep⟩ := vPortFree_spec hI hused
  have hend : h'.pxEnd ≠ 0 := by
    have := (area L).pos
    have := (area L).lt
    rw [hI'.end_eq]
    omega
  -- the other blocks have other addresses
  have hne : ∀ c ∈ A.filter Block.used ++ B.filter Block.used, c.addr + 8 ≠ x.1 := by
    obtain ⟨htA, hbpos, htB⟩ := tiles_split.mp hI.tiles
    intro c hc
    rcases List.mem_append.mp hc with hc | hc
    · have := htA.bounds (List.mem_filter.mp hc).1
      omega
    · have := htB.bounds (List.mem_filter.mp hc).1
      omega
  have hperm : ((s.live.filter fun y => y.1 ≠ x.1).map Prod.fst).Perm
      ((bs'.filter Block.used).map fun b => b.addr + 8) := by
    have hright : (((A ++ b :: B).filter Block.used).map fun b => b.addr + 8).filter (fun p => p ≠ x.1) =
        (bs'.filter Block.used).map fun b => b.addr + 8 := by
      rw [hfilter, List.filter_append, List.filter_cons_of_pos hused, List.map_append, List.map_cons,
        List.filter_append, List.filter_cons_of_neg (by simp [haddr]), ← List.filter_append, ← List.map_append]
      refine List.filter_eq_self.mpr fun p hp => ?_
      obtain ⟨c, hc, rfl⟩ := List.mem_map.mp hp
      simpa using hne c hc
    have hleft : (s.live.filter fun y => y.1 ≠ x.1).map Prod.fst = (s.live.map Prod.fst).filter fun p => p ≠ x.1 := by
      rw [List.filter_map]
      rfl
    rw [hleft, ← hright]
    exact hS.perm.filter _
  refine ⟨⟨h', s.live.filter fun y => y.1 ≠ x.1⟩, bs', ?_, rfl, ⟨?_, fun h => absurd h hend, hperm, ?_⟩, hmin, ?_, ?_,
    hend⟩
  · rw [step_free (Or.inr (List.mem_map_of_mem hx)), ← haddr, hcall]
    rfl
  · rw [ready_of_inv hI']
    exact hI'
  · intro y hy
    obtain ⟨hy, hyx⟩ := List.mem_filter.mp hy
    obtain ⟨hypos, c, hc, hcused, hcaddr, hcneed⟩ := hS.room y hy
    refine ⟨hypos, c, ?_, hcused, hcaddr, hcneed⟩
    have hcb : c ∈ (A ++ B).filter Block.used := by
      rcases List.mem_append.mp hc with hc | hc
      · exact List.mem_filter.mpr ⟨List.mem_append_left _ hc, hcused⟩
      · rcases List.mem_cons.mp hc with rfl | hc
        · have hyx : y.1 ≠ x.1 := by simpa using hyx
          omega
        · exact List.mem_filter.mpr ⟨List.mem_append_right _ hc, hcused⟩
    rw [List.filter_append, ← hfilter] at hcb
    exact (List.mem_filter.mp hcb).1
  · intro c hc hcused hcne a h1 h2
    refine hkeep c ?_ hcused a h1 h2
    rcases List.mem_append.mp hc with hc | hc
    · exact List.mem_append_left _ hc
    · rcases List.mem_cons.mp hc with rfl | hc
      · exact absurd haddr hcne
      · exact List.mem_append_right _ hc
  · have h1 := hI.tiles.space_add
    have h2 := hI'.tiles.space_add
    have hspace : space true bs' ≤ space true (A ++ b :: B) := by
      rw [space_true, space_true, hfilter, List.filter_append, List.filter_cons_of_pos hused, List.map_append,
        List.map_append, List.map_cons, List.sum_append, List.sum_append, List.sum_cons]
      omega
    have := hI.count
    have := hI'.count
    dsimp only
    omega

theorem write_inv (hS : StateInv L s bs) (hstep : step L s (.write a c) = some s') :
    s' = ⟨poke s.heap a c, s.live⟩ ∧ StateInv L s' bs := by
  obtain ⟨⟨x, hx, h1, h2⟩, rfl⟩ := guard_eq_some.mp hstep
  refine ⟨rfl, ?_⟩
  have hready := hS.warm hx
  have hI := hS.inv
  rw [hready] at hI
  obtain ⟨b, hb, hused, haddr, hlo, hhi⟩ := hS.cell_in hx h1 h2
  -- the cell is no header of a block, and neither `xStart` nor `pxEnd`
  have hne : ∀ d ∈ startBlock L :: bs, d.addr ≠ cellOf a := by
    intro d hd heq
    rcases List.mem_cons.mp hd with rfl | hd
    · have hin := hI.tiles.bounds hb
      have hapart := (area L).apart
      unfold xHeapStructSize at hapart
      have : (startBlock L).addr = L.xStart := rfl
      omega
    · by_cases hdb : d = b
      · subst hdb
        omega
      · have := (hI.tiles.bounds hd).2.2
        have := hI.tiles.disjoint hd hb hdb
        omega
  have hend : endAddress L ≠ cellOf a := by
    have := (hI.tiles.bounds hb).2.1
    omega
  have hI' : Inv L (poke s.heap a c) bs := by
    refine ⟨hI.end_eq, hI.bit_eq, hI.tiles, hI.coalesced, hI.aligned, hI.free.congr (fun d hd _ => ?_) ?_,
      fun d hd hdused => ?_, hI.count⟩
    · exact Function.update_of_ne (hne d hd) _ _
    · exact Function.update_of_ne hend _ _
    · unfold poke
      dsimp only
      rw [Function.update_of_ne (hne d (List.mem_cons_of_mem _ hd)), hI.header d hd hdused]
  exact ⟨by rw [ready_of_inv hI']; exact hI', hS.cold, hS.perm, hS.room⟩

/-- Freeing `NULL` does nothing. -/
theorem free_null (hS : StateInv L s bs) : step L s (.free 0) = some s := by
  have hlive : s.live.filter (fun x => x.1 ≠ 0) = s.live := by
    refine List.filter_eq_self.mpr fun x hx => ?_
    obtain ⟨-, b, -, -, haddr, -⟩ := hS.room x hx
    have hne : x.1 ≠ 0 := by omega
    simpa using hne
  rw [step_free (Or.inl rfl), hlive]
  rfl

/-- What a free is about. -/
theorem free_cases {pv : ℕ} (h : step L s (.free pv) = some s') : pv = 0 ∨ ∃ x ∈ s.live, x.1 = pv := by
  by_cases hpv : pv = 0 ∨ pv ∈ s.live.map Prod.fst
  · exact hpv.imp id List.mem_map.mp
  · have hnone : step L s (.free pv) = none := if_neg hpv
    rw [hnone] at h
    cases h

theorem malloc_lt (h : step L s (.malloc n) = some s') : n < 2 ^ 32 := by
  by_contra hn
  have hnone : step L s (.malloc n) = none := if_neg hn
  rw [hnone] at h
  cases h

theorem step_inv {e : Event} (hS : StateInv L s bs) (hstep : step L s e = some s') : ∃ bs', StateInv L s' bs' := by
  cases e with
  | malloc n =>
    rcases malloc_inv hS (malloc_lt hstep) with ⟨A, b, B, t, -, -, -, -, -, hcall, -, hinv, -⟩ | ⟨-, hcall, hinv⟩
    · rw [hcall, Option.some.injEq] at hstep
      exact hstep ▸ hinv
    · rw [hcall, Option.some.injEq] at hstep
      exact ⟨bs, hstep ▸ hinv⟩
  | free pv =>
    rcases free_cases hstep with rfl | ⟨x, hx, rfl⟩
    · rw [free_null hS, Option.some.injEq] at hstep
      exact ⟨bs, hstep ▸ hS⟩
    · obtain ⟨t, bs', hcall, -, hinv, -⟩ := free_inv hS hx
      rw [hcall, Option.some.injEq] at hstep
      exact ⟨bs', hstep ▸ hinv⟩
  | write a c => exact ⟨bs, (write_inv hS hstep).2⟩

variable {hist : List Event}

theorem run_inv (hr : Run (step L) (init mem) hist s) : ∃ bs, StateInv L s bs :=
  hr.inv (I := fun _ s => ∃ bs, StateInv L s bs) (init_inv L mem) fun _ _ _ _ _ ⟨_, hS⟩ _ he => step_inv hS he

end Steps

section Safety

variable {L : Layout} {s : State} {mem : Memory} {hist : List Event}

/-- **The heap is safe**: the calls end, and what is handed out is aligned, inside `ucHeap` and apart. -/
theorem heap_safe (hr : Run (step L) (init mem) hist s) :
    (∀ n < 2 ^ 32, (step L s (.malloc n)).isSome) ∧ (∀ x ∈ s.live, (step L s (.free x.1)).isSome) ∧
      (∀ x ∈ s.live, x.1 % 8 = 0 ∧ L.ucHeap + 8 ≤ x.1 ∧ x.1 + x.2 ≤ L.ucHeap + configTOTAL_HEAP_SIZE) ∧
      s.live.Pairwise fun x y => x.1 + x.2 + 8 ≤ y.1 ∨ y.1 + y.2 + 8 ≤ x.1 := by
  obtain ⟨bs, hS⟩ := run_inv hr
  refine ⟨fun n hn => ?_, fun x hx => ?_, fun x hx => ?_, ?_⟩
  · rcases malloc_inv hS hn with ⟨A, b, B, t, -, -, -, -, -, hcall, -⟩ | ⟨-, hcall, -⟩
    · rw [hcall]
      rfl
    · rw [hcall]
      rfl
  · obtain ⟨t, bs', hcall, -⟩ := free_inv hS hx
    rw [hcall]
    rfl
  · obtain ⟨-, b, hb, -, haddr, hneed⟩ := hS.room x hx
    have hal := (hS.inv.aligned b hb).1
    have hin := hS.inv.tiles.bounds hb
    have hinside := (area L).inside
    unfold need at hneed
    unfold xHeapStructSize at hinside
    omega
  · have hnd : (s.live.map Prod.fst).Nodup := by
      refine hS.perm.nodup_iff.mpr ?_
      have hsub : ((bs.filter Block.used).map Block.addr).Nodup :=
        hS.inv.tiles.nodup.sublist (List.filter_sublist.map _)
      rw [List.nodup_iff_pairwise_ne, List.pairwise_map] at hsub ⊢
      exact hsub.imp fun hne heq => hne (Nat.add_right_cancel heq)
    rw [List.nodup_iff_pairwise_ne, List.pairwise_map] at hnd
    refine hnd.imp_of_mem fun {x y} hx hy hne => ?_
    obtain ⟨-, b, hb, -, hbaddr, hbneed⟩ := hS.room x hx
    obtain ⟨-, c, hc, -, hcaddr, hcneed⟩ := hS.room y hy
    have hbc : b ≠ c := by
      rintro rfl
      omega
    have := hS.inv.tiles.disjoint hb hc hbc
    unfold need at hbneed hcneed
    omega

/-- A program that has got two pointers. -/
theorem exists_run_two : ∃ L : Layout, ∃ s, Run (step L) (init fun _ => ⟨1, 2⟩) [.malloc 20, .malloc 3] s ∧
    s.live = [(0x20000120, 20), (0x20000110, 3)] :=
  ⟨⟨0x20000104, 0x20000004, by decide, by decide, by decide, by decide, by decide⟩,
    run_of_exec _ _ [Event.malloc 3, Event.malloc 20] State.live (by decide +kernel)⟩

theorem heap_safe_two : ∃ L s, Run (step L) (init fun _ => ⟨1, 2⟩) [.malloc 20, .malloc 3] s ∧
    (step L s (.free 0x20000110)).isSome ∧ (step L s (.malloc 0)).isSome := by
  obtain ⟨L, s, hr, hlive⟩ := exists_run_two
  obtain ⟨hmalloc, hfree, -, -⟩ := heap_safe hr
  exact ⟨L, s, hr, hfree (0x20000110, 3) (by rw [hlive]; simp), hmalloc 0 (by decide)⟩

end Safety

/-! ## Contents -/

section Contents

variable {L : Layout} {s s0 s1 s' : State} {mem : Memory} {hist : List Event} {bs : List Block} {a : ℕ} {c : BlockLink}
  {x : ℕ × ℕ}

/-- A step that neither frees what is handed out nor writes to its cell. -/
theorem step_keeps {e : Event} (hS : StateInv L s bs) (hstep : step L s e = some s') (hx : x ∈ s.live)
    (h1 : x.1 ≤ a) (h2 : a < x.1 + x.2) (hfree : e ≠ .free x.1)
    (hwrite : ∀ b d, e = .write b d → cellOf b ≠ cellOf a) :
    x ∈ s'.live ∧ s'.heap.mem (cellOf a) = s.heap.mem (cellOf a) := by
  obtain ⟨b, hb, hused, haddr, hlo, hhi⟩ := hS.cell_in hx h1 h2
  have hready := hS.warm hx
  cases e with
  | malloc n =>
    rcases malloc_inv hS (malloc_lt hstep) with
      ⟨A, d, B, t, -, -, -, -, -, hcall, hlive, -, -, -, hkeep⟩ | ⟨-, hcall, -⟩
    · rw [hcall, Option.some.injEq] at hstep
      subst hstep
      rw [hready] at hkeep
      exact ⟨hlive ▸ List.mem_cons_of_mem _ hx, hkeep b hb hused _ (by omega) hhi⟩
    · rw [hcall, hready, Option.some.injEq] at hstep
      subst hstep
      exact ⟨hx, rfl⟩
  | free pv =>
    rcases free_cases hstep with rfl | ⟨y, hy, rfl⟩
    · rw [free_null hS, Option.some.injEq] at hstep
      subst hstep
      exact ⟨hx, rfl⟩
    · have hne : x.1 ≠ y.1 := fun heq => hfree (congrArg Event.free heq.symm)
      obtain ⟨t, bs', hcall, hlive, -, -, hkeep, -⟩ := free_inv hS hy
      rw [hcall, Option.some.injEq] at hstep
      subst hstep
      refine ⟨?_, hkeep b hb hused (by omega) _ (by omega) hhi⟩
      rw [hlive]
      exact List.mem_filter.mpr ⟨hx, by simpa using hne⟩
  | write a' d =>
    obtain ⟨rfl, -⟩ := write_inv hS hstep
    exact ⟨hx, Function.update_of_ne (hwrite a' d rfl).symm _ _⟩

/-- **What is written stays**: until its cell is written again or what it is in is freed. -/
theorem heap_contents {post : List Event} (h0 : Run (step L) (init mem) hist s0)
    (hwrite : step L s0 (.write a c) = some s1) (hr : Run (step L) s1 post s)
    (hfree : ∀ x ∈ s0.live, x.1 ≤ a → a < x.1 + x.2 → Event.free x.1 ∉ post)
    (hother : ∀ b d, Event.write b d ∈ post → cellOf b ≠ cellOf a) : s.heap.mem (cellOf a) = c := by
  obtain ⟨bs, hS⟩ := run_inv h0
  obtain ⟨x, hx, h1, h2⟩ := (guard_eq_some.mp hwrite).1
  obtain ⟨hs1, hS1⟩ := write_inv hS hwrite
  have hstart : s1.heap.mem (cellOf a) = c := by
    rw [hs1]
    exact Function.update_self _ _ _
  have hfx := hfree x hx h1 h2
  -- what is handed out stays handed out, with its cell
  have hall : (∃ bs, StateInv L s bs) ∧
      (Event.free x.1 ∉ post → (∀ b d, Event.write b d ∈ post → cellOf b ≠ cellOf a) →
        x ∈ s.live ∧ s.heap.mem (cellOf a) = c) := by
    refine hr.inv (I := fun post s => (∃ bs, StateInv L s bs) ∧
      (Event.free x.1 ∉ post → (∀ b d, Event.write b d ∈ post → cellOf b ≠ cellOf a) →
        x ∈ s.live ∧ s.heap.mem (cellOf a) = c)) ⟨⟨bs, hS1⟩, fun _ _ => ⟨?_, hstart⟩⟩ ?_
    · rw [hs1]
      exact hx
    · rintro h t e t' - ⟨⟨bs, hT⟩, ih⟩ - he
      refine ⟨step_inv hT he, fun hf ho => ?_⟩
      obtain ⟨hlive, hcell⟩ := ih (fun hm => hf (List.mem_cons_of_mem e hm)) fun b d hm =>
        ho b d (List.mem_cons_of_mem e hm)
      obtain ⟨hlive', hcell'⟩ := step_keeps hT he hlive h1 h2 (fun heq => hf (heq ▸ List.mem_cons_self)) fun b d heq =>
        ho b d (heq ▸ List.mem_cons_self)
      exact ⟨hlive', hcell'.trans hcell⟩
  exact (hall.2 hfx hother).2

theorem heap_contents_two : ∃ (L : Layout) (s : State),
    Run (step L) (init fun _ => ⟨1, 2⟩) [.malloc 5, .write 0x20000121 ⟨8, 9⟩, .malloc 20, .malloc 3] s ∧
      s.heap.mem 0x20000120 = ⟨8, 9⟩ := by
  obtain ⟨L, s0, h0, hlive⟩ := exists_run_two
  have hwrite : step L s0 (.write 0x20000121 ⟨8, 9⟩) = some ⟨poke s0.heap 0x20000121 ⟨8, 9⟩, s0.live⟩ :=
    if_pos (by rw [hlive]; simp)
  have h1 := RunIf.snoc h0 trivial hwrite
  obtain ⟨s, hs⟩ := Option.isSome_iff_exists.mp ((heap_safe h1).1 5 (by decide))
  exact ⟨L, s, .snoc h1 trivial hs,
    heap_contents h0 hwrite (.snoc .start trivial hs) (by simp) (by simp)⟩

end Contents

/-! ## The counters -/

/-- The size in the header of what is handed out. -/
def headerSize (h : Heap) (p : ℕ) : ℕ := (h.mem (p - xHeapStructSize)).xBlockSize &&& not32 (1 <<< 31)

section Counters

variable {L : Layout} {s s' : State} {mem : Memory} {hist : List Event} {bs : List Block} {x : ℕ × ℕ}

theorem StateInv.headerSize_eq {b : Block} (hS : StateInv L s bs) (hx : x ∈ s.live) (hb : b ∈ bs)
    (hused : b.used = true) (haddr : b.addr + 8 = x.1) : headerSize s.heap x.1 = b.size := by
  have hI := hS.inv
  rw [hS.warm hx] at hI
  have hlt := (area L).size_lt
  have := hI.tiles.bounds hb
  unfold configTOTAL_HEAP_SIZE at hlt
  unfold headerSize xHeapStructSize
  rw [← haddr, Nat.add_sub_cancel, hI.header b hb hused, and_not_bit (by omega)]

/-- The blocks handed out are the used ones. -/
theorem StateInv.sum_headerSize (hS : StateInv L s bs) (hwarm : s.heap.pxEnd ≠ 0) :
    (s.live.map fun x => headerSize s.heap x.1).sum = space true bs := by
  have hI := hS.inv
  rw [ready, if_neg hwarm] at hI
  have hlt := (area L).size_lt
  unfold configTOTAL_HEAP_SIZE at hlt
  have hmap : (s.live.map fun x => headerSize s.heap x.1) = (s.live.map Prod.fst).map (headerSize s.heap) := by
    rw [List.map_map]
    rfl
  rw [hmap, (hS.perm.map _).sum_eq, List.map_map, space_true]
  congr 1
  refine List.map_congr_left fun b hb => ?_
  obtain ⟨hb, hbu⟩ := List.mem_filter.mp hb
  have := hI.tiles.bounds hb
  unfold headerSize xHeapStructSize
  rw [Function.comp, Nat.add_sub_cancel, hI.header b hb hbu, and_not_bit (by omega)]

theorem cold_counters (h : Heap) (hcold : h.pxEnd = 0) :
    (ready L h).xMinimumEverFreeBytesRemaining = (ready L h).xFreeBytesRemaining ∧
      (ready L h).xFreeBytesRemaining = endAddress L - pucAlignedHeap L := by
  have htop := (area L).top
  have hlt := (area L).lt
  rw [ready, if_pos hcold]
  exact ⟨rfl, sub32_eq (by omega) (by omega)⟩

/-- `xMinimumEverFreeBytesRemaining` goes down to what is free now, or stays. -/
structure MinimumMoves (h h' : Heap) : Prop where
  le_free : h'.xMinimumEverFreeBytesRemaining ≤ h'.xFreeBytesRemaining
  down : h.pxEnd ≠ 0 → h'.xMinimumEverFreeBytesRemaining ≤ h.xMinimumEverFreeBytesRemaining
  now_or_before : h'.xMinimumEverFreeBytesRemaining = h'.xFreeBytesRemaining ∨
    h.pxEnd ≠ 0 ∧ h'.xMinimumEverFreeBytesRemaining = h.xMinimumEverFreeBytesRemaining

theorem step_counters {e : Event} (hS : StateInv L s bs) (hstep : step L s e = some s') (hwarm' : s'.heap.pxEnd ≠ 0)
    (hmin : s.heap.pxEnd ≠ 0 → s.heap.xMinimumEverFreeBytesRemaining ≤ s.heap.xFreeBytesRemaining) :
    MinimumMoves s.heap s'.heap := by
  have hsame : s'.heap.xMinimumEverFreeBytesRemaining = s.heap.xMinimumEverFreeBytesRemaining →
      s.heap.xFreeBytesRemaining ≤ s'.heap.xFreeBytesRemaining → s.heap.pxEnd ≠ 0 → MinimumMoves s.heap s'.heap :=
    fun h1 h2 h3 => ⟨(h1.le.trans (hmin h3)).trans h2, fun _ => h1.le, Or.inr ⟨h3, h1⟩⟩
  cases e with
  | malloc n =>
    rcases malloc_inv hS (malloc_lt hstep) with
      ⟨A, d, B, t, -, -, -, -, -, hcall, -, ⟨bs', hS'⟩, -, hcount, -⟩ | ⟨-, hcall, -⟩
    · rw [hcall, Option.some.injEq] at hstep
      subst hstep
      refine ⟨hcount.trans_le (min_le_left _ _), fun hwarm => ?_, ?_⟩
      · rw [ready, if_neg hwarm] at hcount
        exact hcount.trans_le (min_le_right _ _)
      · by_cases hcold : s.heap.pxEnd = 0
        · -- the first block is taken from the whole area
          obtain ⟨h1, h2⟩ := cold_counters (L := L) s.heap hcold
          have hI' := hS'.inv
          rw [ready, if_neg hwarm'] at hI'
          have hspace := hI'.tiles.space_add
          have hfree := hI'.count
          left
          rw [hcount]
          exact min_eq_left (by omega)
        · rw [ready, if_neg hcold] at hcount
          rw [hcount]
          exact (min_choice _ _).imp id fun h => ⟨hcold, h⟩
    · rw [hcall, Option.some.injEq] at hstep
      subst hstep
      by_cases hcold : s.heap.pxEnd = 0
      · have heq := (cold_counters (L := L) s.heap hcold).1
        exact ⟨heq.le, fun h => absurd hcold h, Or.inl heq⟩
      · have hready : ready L s.heap = s.heap := if_neg hcold
        exact hsame (by rw [hready]) (by rw [hready]) hcold
  | free pv =>
    rcases free_cases hstep with rfl | ⟨x, hx, rfl⟩
    · rw [free_null hS, Option.some.injEq] at hstep
      subst hstep
      exact hsame rfl (le_refl _) hwarm'
    · obtain ⟨t, bs', hcall, -, -, heq, -, hle, -⟩ := free_inv hS hx
      rw [hcall, Option.some.injEq] at hstep
      subst hstep
      refine hsame heq hle fun hcold => ?_
      rw [hS.cold hcold] at hx
      cases hx
  | write a c =>
    obtain ⟨rfl, -⟩ := write_inv hS hstep
    exact hsame rfl (le_refl _) hwarm'

/-- A heap that has been initialised stays so. -/
theorem step_warm {e : Event} (hS : StateInv L s bs) (hstep : step L s e = some s') (hwarm : s.heap.pxEnd ≠ 0) :
    s'.heap.pxEnd ≠ 0 := by
  cases e with
  | malloc n =>
    rcases malloc_inv hS (malloc_lt hstep) with ⟨A, d, B, t, -, -, -, -, -, hcall, -, -, hwarm', -⟩ | ⟨-, hcall, -⟩
    · rw [hcall, Option.some.injEq] at hstep
      exact hstep ▸ hwarm'
    · rw [hcall, Option.some.injEq] at hstep
      have hready : ready L s.heap = s.heap := if_neg hwarm
      rw [← hstep, hready]
      exact hwarm
  | free pv =>
    rcases free_cases hstep with rfl | ⟨x, hx, rfl⟩
    · rw [free_null hS, Option.some.injEq] at hstep
      exact hstep ▸ hwarm
    · obtain ⟨t, bs', hcall, -, -, -, -, -, hwarm'⟩ := free_inv hS hx
      rw [hcall, Option.some.injEq] at hstep
      exact hstep ▸ hwarm'
  | write a c =>
    obtain ⟨rfl, -⟩ := write_inv hS hstep
    exact hwarm

theorem warm_of_earlier {post pre : List Event} {s1 : State} (h1 : Run (step L) (init mem) pre s1)
    (hwarm : s1.heap.pxEnd ≠ 0) (hr : Run (step L) (init mem) (post ++ pre) s) : s.heap.pxEnd ≠ 0 := by
  induction post generalizing s with
  | nil =>
    rw [hr.det h1]
    exact hwarm
  | cons e post ih =>
    cases hr with
    | snoc hr _ he =>
      obtain ⟨bs, hS⟩ := run_inv hr
      exact step_warm hS he (ih hr)

/-- The least that was ever free, and when. -/
theorem run_minimum (hr : Run (step L) (init mem) hist s) (hwarm : s.heap.pxEnd ≠ 0) :
    s.heap.xMinimumEverFreeBytesRemaining ≤ s.heap.xFreeBytesRemaining ∧
      (∃ post pre s1, hist = post ++ pre ∧ Run (step L) (init mem) pre s1 ∧ s1.heap.pxEnd ≠ 0 ∧
        s1.heap.xFreeBytesRemaining = s.heap.xMinimumEverFreeBytesRemaining) ∧
      ∀ post pre s1, hist = post ++ pre → Run (step L) (init mem) pre s1 → s1.heap.pxEnd ≠ 0 →
        s.heap.xMinimumEverFreeBytesRemaining ≤ s1.heap.xFreeBytesRemaining := by
  induction hr with
  | start => exact absurd rfl hwarm
  | @snoc h s s' e hr hok he ih =>
    obtain ⟨bs, hS⟩ := run_inv hr
    obtain ⟨hle, hdown, hcase⟩ := step_counters hS he hwarm fun h => (ih h).1
    refine ⟨hle, ?_, ?_⟩
    · rcases hcase with heq | ⟨hw, heq⟩
      · exact ⟨[], e :: h, s', rfl, .snoc hr hok he, hwarm, heq.symm⟩
      · obtain ⟨post, pre, s1, hsplit, hr1, hw1, h1⟩ := (ih hw).2.1
        exact ⟨e :: post, pre, s1, by rw [hsplit, List.cons_append], hr1, hw1, h1.trans heq.symm⟩
    · intro post pre s1 hsplit hr1 hw1
      cases post with
      | nil =>
        rw [List.nil_append] at hsplit
        subst hsplit
        rw [hr1.det (.snoc hr hok he)]
        exact hle
      | cons d post =>
        rw [List.cons_append, List.cons.injEq] at hsplit
        obtain ⟨-, hsplit⟩ := hsplit
        have hw : s.heap.pxEnd ≠ 0 := warm_of_earlier hr1 hw1 (hsplit ▸ hr)
        exact (hdown hw).trans ((ih hw).2.2 post pre s1 hsplit hr1 hw1)

/-- **The counters**: what is free and what is handed out make up the area, and the minimum is the least that was
ever free. -/
theorem heap_accounts (hr : Run (step L) (init mem) hist s) (hwarm : s.heap.pxEnd ≠ 0) :
    s.heap.xFreeBytesRemaining + (s.live.map fun x => headerSize s.heap x.1).sum =
        endAddress L - pucAlignedHeap L ∧
      (∃ post pre s1, hist = post ++ pre ∧ Run (step L) (init mem) pre s1 ∧ s1.heap.pxEnd ≠ 0 ∧
        s1.heap.xFreeBytesRemaining = s.heap.xMinimumEverFreeBytesRemaining) ∧
      ∀ post pre s1, hist = post ++ pre → Run (step L) (init mem) pre s1 → s1.heap.pxEnd ≠ 0 →
        s.heap.xMinimumEverFreeBytesRemaining ≤ s1.heap.xFreeBytesRemaining := by
  refine ⟨?_, (run_minimum hr hwarm).2⟩
  obtain ⟨bs, hS⟩ := run_inv hr
  have hI := hS.inv
  rw [ready, if_neg hwarm] at hI
  have hspace := hI.tiles.space_add
  rw [hS.sum_headerSize hwarm, hI.count]
  omega

theorem warm_of_live (hr : Run (step L) (init mem) hist s) (hx : x ∈ s.live) : s.heap.pxEnd ≠ 0 := by
  obtain ⟨bs, hS⟩ := run_inv hr
  intro hcold
  rw [hS.cold hcold] at hx
  cases hx

theorem heap_accounts_two : ∃ L s, Run (step L) (init fun _ => ⟨1, 2⟩) [.malloc 20, .malloc 3] s ∧
    s.heap.xFreeBytesRemaining + (s.live.map fun x => headerSize s.heap x.1).sum =
      endAddress L - pucAlignedHeap L := by
  obtain ⟨L, s, hr, hlive⟩ := exists_run_two
  exact ⟨L, s, hr, (heap_accounts hr (warm_of_live hr (by rw [hlive]; exact List.mem_cons_self))).1⟩

end Counters

/-! ## First fit -/

/-- From `a` on there are `w` bytes of the area between the blocks handed out. -/
def Gap (L : Layout) (s : State) (w a : ℕ) : Prop :=
  pucAlignedHeap L ≤ a ∧ a + w ≤ endAddress L ∧
    ∀ x ∈ s.live, a + w ≤ x.1 - xHeapStructSize ∨ x.1 - xHeapStructSize + headerSize s.heap x.1 ≤ a

section FirstFit

variable {L : Layout} {s : State} {mem : Memory} {hist : List Event} {bs : List Block} {n w a : ℕ}

/-- A gap lies in a free block. -/
theorem StateInv.gap_in_free (hS : StateInv L s bs) (hw : 0 < w) (hgap : Gap L s w a) :
    ∃ b ∈ bs, b.used = false ∧ b.addr ≤ a ∧ a + w ≤ b.addr + b.size := by
  obtain ⟨hlo, hhi, hlive⟩ := hgap
  refine hS.inv.tiles.exists_free_of_gap hS.inv.coalesced hlo (by omega) hhi fun b hb hused => ?_
  obtain ⟨x, hx, haddr⟩ := hS.exists_live hb hused
  have hout := hlive x hx
  rw [hS.headerSize_eq hx hb hused haddr.symm] at hout
  unfold xHeapStructSize at hout
  omega

/-- A free block that is large enough begins with a gap. -/
theorem StateInv.gap_of_free {b : Block} (hS : StateInv L s bs) (hb : b ∈ bs) (hfree : b.used = false)
    (hw : w ≤ b.size) : Gap L s w b.addr := by
  have hin := hS.inv.tiles.bounds hb
  refine ⟨hin.1, by omega, fun x hx => ?_⟩
  obtain ⟨-, c, hc, hcused, haddr, -⟩ := hS.room x hx
  have hbc : b ≠ c := by
    rintro rfl
    rw [hfree] at hcused
    cases hcused
  have := hS.inv.tiles.disjoint hb hc hbc
  rw [hS.headerSize_eq hx hc hcused haddr]
  unfold xHeapStructSize
  omega

/-- **First fit**: a request is served exactly if there is a gap for its block, at the lowest one. -/
theorem malloc_first_fit (hr : Run (step L) (init mem) hist s) (hn : n < 2 ^ 32) :
    (∃ p s', step L s (.malloc n) = some s' ∧ s'.live = (p, n) :: s.live ∧ (0 < n ∧ n < 2 ^ 31) ∧
        IsLeast {a | Gap L s (need n) a} (p - xHeapStructSize)) ∨
      (∃ s', step L s (.malloc n) = some s' ∧ s'.live = s.live) ∧
        ¬(0 < n ∧ n < 2 ^ 31 ∧ ∃ a, Gap L s (need n) a) := by
  obtain ⟨bs, hS⟩ := run_inv hr
  have hneed : 0 < need n := by
    unfold need
    omega
  rcases malloc_inv hS hn with ⟨A, b, B, s', rfl, hfree, hfit, h0, hA, hcall, hlive, -⟩ | ⟨hall, hcall, -⟩
  · refine Or.inl ⟨b.addr + 8, s', hcall, hlive, h0, ?_, ?_⟩
    · exact hS.gap_of_free (by simp) hfree hfit
    · intro a hgap
      obtain ⟨c, hc, hcfree, hca, hcend⟩ := hS.gap_in_free hneed hgap
      obtain ⟨-, -, htB⟩ := tiles_split.mp hS.inv.tiles
      unfold xHeapStructSize
      rcases List.mem_append.mp hc with hc | hc
      · have := hA c hc hcfree
        omega
      · rcases List.mem_cons.mp hc with rfl | hc
        · omega
        · have := htB.bounds hc
          omega
  · refine Or.inr ⟨⟨_, hcall, rfl⟩, ?_⟩
    rintro ⟨h0, h31, a, hgap⟩
    obtain ⟨c, hc, hcfree, hca, hcend⟩ := hS.gap_in_free hneed hgap
    have := hall h0 h31 c hc hcfree
    omega

theorem malloc_first_fit_two : ∃ L s, Run (step L) (init fun _ => ⟨1, 2⟩) [.malloc 20, .malloc 3] s ∧
    ((∃ p s', step L s (.malloc 9) = some s' ∧ s'.live = (p, 9) :: s.live ∧ ((0 : ℕ) < 9 ∧ 9 < 2 ^ 31) ∧
        IsLeast {a | Gap L s (need 9) a} (p - xHeapStructSize)) ∨
      (∃ s', step L s (.malloc 9) = some s' ∧ s'.live = s.live) ∧
        ¬((0 : ℕ) < 9 ∧ 9 < 2 ^ 31 ∧ ∃ a, Gap L s (need 9) a)) := by
  obtain ⟨L, s, hr, -⟩ := exists_run_two
  exact ⟨L, s, hr, malloc_first_fit hr (by decide)⟩

/-- **Nothing is lost**: when everything has been freed the free list is the one block `prvHeapInit` makes. -/
theorem heap_whole (hr : Run (step L) (init mem) hist s) (hwarm : s.heap.pxEnd ≠ 0) (hnone : s.live = []) :
    s.heap.xFreeBytesRemaining = (prvHeapInit L (Heap.start mem)).xFreeBytesRemaining ∧
      ∀ a ∈ [L.xStart, pucAlignedHeap L, endAddress L], s.heap.mem a = (prvHeapInit L (Heap.start mem)).mem a := by
  obtain ⟨bs, hS⟩ := run_inv hr
  have hI := hS.inv
  rw [ready, if_neg hwarm] at hI
  have hall : ∀ b ∈ bs, b.used = false := by
    intro b hb
    by_contra hused
    obtain ⟨x, hx, -⟩ := hS.exists_live hb (by simpa using hused)
    rw [hnone] at hx
    cases hx
  have hbs := hI.tiles.eq_singleton hI.coalesced (area L).lt hall
  subst hbs
  have hI0 := prvHeapInit_inv L (Heap.start mem)
  refine ⟨hI.count.trans hI0.count.symm, fun a ha => ?_⟩
  -- the links and the sizes of the one free block
  have hcell : ∀ {m m' : Memory} {a : ℕ}, (m a).pxNextFreeBlock = (m' a).pxNextFreeBlock →
      (m a).xBlockSize = (m' a).xBlockSize → m a = m' a := by
    intro m m' a h1 h2
    calc m a = ⟨(m a).pxNextFreeBlock, (m a).xBlockSize⟩ := rfl
      _ = ⟨(m' a).pxNextFreeBlock, (m' a).xBlockSize⟩ := by rw [h1, h2]
      _ = m' a := rfl
  simp only [List.mem_cons, List.not_mem_nil, or_false] at ha
  rcases ha with rfl | rfl | rfl
  · refine hcell ((hI.free.threaded.1 rfl).trans (hI0.free.threaded.1 rfl).symm) ?_
    exact (hI.free.size_eq _ List.mem_cons_self rfl).trans (hI0.free.size_eq _ List.mem_cons_self rfl).symm
  · refine hcell ((hI.free.threaded.2.1 rfl).trans (hI0.free.threaded.2.1 rfl).symm) ?_
    exact (hI.free.size_eq _ (List.mem_cons_of_mem _ List.mem_cons_self) rfl).trans
      (hI0.free.size_eq _ (List.mem_cons_of_mem _ List.mem_cons_self) rfl).symm
  · exact hI.free.tail.trans hI0.free.tail.symm

theorem heap_whole_again : ∃ L s, Run (step L) (init fun _ => ⟨1, 2⟩) [.free 0x20000110, .malloc 3] s ∧
    s.heap.mem L.xStart = ⟨pucAlignedHeap L, 0⟩ := by
  obtain ⟨s, hr, hs⟩ := run_of_exec (step ⟨0x20000104, 0x20000004, by decide, by decide, by decide, by decide, by decide⟩)
    (init fun _ => ⟨1, 2⟩) [Event.malloc 3, Event.free 0x20000110] (fun s => (s.live, s.heap.pxEnd != 0))
    (b := ([], true)) (by decide +kernel)
  obtain ⟨hlive, hwarm⟩ := Prod.mk.inj hs
  have hstart := (heap_whole hr (by simpa using hwarm) hlive).2 _ List.mem_cons_self
  exact ⟨_, s, hr, hstart.trans (by decide +kernel)⟩

end FirstFit

end Thronix.KernelHeap
