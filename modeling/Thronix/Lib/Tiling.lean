import Mathlib.Algebra.BigOperators.Group.List.Basic
import Mathlib.Algebra.Ring.Nat
import Mathlib.Data.List.Basic
import Mathlib.Data.List.Chain
import Mathlib.Tactic.SplitIfs

/-!
# Thronix.Lib.Tiling — an area cut into blocks, and the list of its free blocks

* `Tiles lo bs hi`: the blocks of `bs` cover the area from `lo` to `hi`, one behind the other.
* `Coalesced bs`: no free block stands behind a free one.  Then a gap between the used blocks lies in one free block
  (`Tiles.exists_free_of_gap`), and an area with no used block is one free block (`Tiles.eq_singleton`).
* `firstFree`, `lastFree`: the free block a list of blocks starts and ends with.  `Threaded next e bs`: each free
  block of `bs` is linked to the one behind it, the last one to `e`.
* `space u bs`: the bytes of the used (`u = true`) or of the free (`u = false`) blocks.
-/

namespace Thronix.Lib.Tiling

structure Block where
  addr : ℕ
  size : ℕ
  used : Bool
  deriving DecidableEq, Repr

/-- The blocks cover the area from `lo` to `hi`. -/
def Tiles : ℕ → List Block → ℕ → Prop
  | lo, [], hi => lo = hi
  | lo, b :: bs, hi => b.addr = lo ∧ 0 < b.size ∧ Tiles (lo + b.size) bs hi

section Tiles

variable {lo hi : ℕ} {b c : Block} {as bs : List Block}

theorem Tiles.le (h : Tiles lo bs hi) : lo ≤ hi := by
  induction bs generalizing lo with
  | nil => exact le_of_eq h
  | cons b bs ih =>
    have := ih h.2.2
    omega

theorem tiles_append : Tiles lo (as ++ bs) hi ↔ ∃ mid, Tiles lo as mid ∧ Tiles mid bs hi := by
  induction as generalizing lo with
  | nil =>
    constructor
    · intro h
      exact ⟨lo, rfl, h⟩
    · rintro ⟨mid, rfl, h⟩
      exact h
  | cons a as ih =>
    constructor
    · rintro ⟨ha, hpos, hrest⟩
      obtain ⟨mid, h1, h2⟩ := ih.mp hrest
      exact ⟨mid, ⟨ha, hpos, h1⟩, h2⟩
    · rintro ⟨mid, ⟨ha, hpos, h1⟩, h2⟩
      exact ⟨ha, hpos, ih.mpr ⟨mid, h1, h2⟩⟩

/-- What stands around a block. -/
theorem tiles_split : Tiles lo (as ++ b :: bs) hi ↔ Tiles lo as b.addr ∧ 0 < b.size ∧ Tiles (b.addr + b.size) bs hi := by
  rw [tiles_append]
  constructor
  · rintro ⟨mid, h1, rfl, hpos, h2⟩
    exact ⟨h1, hpos, h2⟩
  · rintro ⟨h1, hpos, h2⟩
    exact ⟨b.addr, h1, rfl, hpos, h2⟩

theorem Tiles.bounds (h : Tiles lo bs hi) (hb : b ∈ bs) : lo ≤ b.addr ∧ b.addr + b.size ≤ hi ∧ 0 < b.size := by
  obtain ⟨as, cs, rfl⟩ := List.append_of_mem hb
  obtain ⟨h1, hpos, h2⟩ := tiles_split.mp h
  exact ⟨h1.le, h2.le, hpos⟩

/-- Two blocks in their order. -/
theorem Tiles.pairwise (h : Tiles lo bs hi) : bs.Pairwise fun a b => a.addr + a.size ≤ b.addr := by
  induction bs generalizing lo with
  | nil => exact List.Pairwise.nil
  | cons b bs ih =>
    obtain ⟨rfl, hpos, hrest⟩ := h
    exact List.pairwise_cons.mpr ⟨fun c hc => (hrest.bounds hc).1, ih hrest⟩

theorem Tiles.disjoint (h : Tiles lo bs hi) (hb : b ∈ bs) (hc : c ∈ bs) (hne : b ≠ c) :
    b.addr + b.size ≤ c.addr ∨ c.addr + c.size ≤ b.addr := by
  obtain ⟨as, ds, rfl⟩ := List.append_of_mem hb
  obtain ⟨h1, -, h2⟩ := tiles_split.mp h
  rcases List.mem_append.mp hc with hc | hc
  · exact Or.inr (h1.bounds hc).2.1
  · rcases List.mem_cons.mp hc with rfl | hc
    · exact absurd rfl hne
    · exact Or.inl (h2.bounds hc).1

/-- A block is told by its address. -/
theorem Tiles.eq_of_addr (h : Tiles lo bs hi) (hb : b ∈ bs) (hc : c ∈ bs) (heq : b.addr = c.addr) : b = c := by
  by_contra hne
  have hb' := h.bounds hb
  have hc' := h.bounds hc
  have := h.disjoint hb hc hne
  omega

theorem Tiles.nodup (h : Tiles lo bs hi) : (bs.map Block.addr).Nodup := by
  rw [List.nodup_iff_pairwise_ne, List.pairwise_map]
  refine h.pairwise.imp_of_mem ?_
  intro a b ha hb hab
  have := (h.bounds ha).2.2
  omega

theorem Tiles.length_le (h : Tiles lo bs hi) : lo + bs.length ≤ hi := by
  induction bs generalizing lo with
  | nil => exact le_of_eq h
  | cons b bs ih =>
    obtain ⟨rfl, hpos, hrest⟩ := h
    have := ih hrest
    rw [List.length_cons]
    omega

end Tiles

/-! ## Bytes in use -/

/-- The bytes of the blocks that are used, or of those that are not. -/
def space (u : Bool) : List Block → ℕ
  | [] => 0
  | b :: bs => (if b.used = u then b.size else 0) + space u bs

section Space

variable {u : Bool} {lo hi : ℕ} {b : Block} {as bs : List Block}

@[simp] theorem space_nil : space u [] = 0 := rfl

theorem space_cons : space u (b :: bs) = (if b.used = u then b.size else 0) + space u bs := rfl

theorem space_append : space u (as ++ bs) = space u as + space u bs := by
  induction as with
  | nil => exact (Nat.zero_add _).symm
  | cons a as ih => rw [List.cons_append, space_cons, space_cons, ih, Nat.add_assoc]

theorem space_true : space true bs = ((bs.filter Block.used).map Block.size).sum := by
  induction bs with
  | nil => rfl
  | cons b bs ih =>
    by_cases h : b.used = true
    · rw [space_cons, if_pos h, List.filter_cons_of_pos h, List.map_cons, List.sum_cons, ih]
    · rw [space_cons, if_neg h, List.filter_cons_of_neg h, Nat.zero_add, ih]

/-- Every byte is used or free. -/
theorem Tiles.space_add (h : Tiles lo bs hi) : lo + (space true bs + space false bs) = hi := by
  induction bs generalizing lo with
  | nil => exact h
  | cons b bs ih =>
    obtain ⟨rfl, hpos, hrest⟩ := h
    have := ih hrest
    rw [space_cons, space_cons]
    cases b.used <;> simp <;> omega

theorem le_space (hb : b ∈ bs) : b.size ≤ space b.used bs := by
  obtain ⟨as, cs, rfl⟩ := List.append_of_mem hb
  rw [space_append, space_cons, if_pos rfl]
  omega

end Space

/-! ## Coalesced areas -/

/-- No free block stands behind a free one. -/
def Coalesced (bs : List Block) : Prop := bs.IsChain fun a b => a.used = true ∨ b.used = true

section Coalesced

variable {lo hi x y : ℕ} {bs : List Block}

/-- A gap between the used blocks lies in one free block. -/
theorem Tiles.exists_free_of_gap (h : Tiles lo bs hi) (hc : Coalesced bs) (hx : lo ≤ x) (hxy : x < y) (hy : y ≤ hi)
    (hgap : ∀ b ∈ bs, b.used = true → y ≤ b.addr ∨ b.addr + b.size ≤ x) :
    ∃ b ∈ bs, b.used = false ∧ b.addr ≤ x ∧ y ≤ b.addr + b.size := by
  induction bs generalizing lo with
  | nil =>
    have : lo = hi := h
    omega
  | cons b bs ih =>
    obtain ⟨rfl, hpos, hrest⟩ := h
    by_cases hin : x < b.addr + b.size
    · have hfree : b.used = false := by
        by_contra hu
        have := hgap b List.mem_cons_self (by simpa using hu)
        omega
      refine ⟨b, List.mem_cons_self, hfree, hx, ?_⟩
      cases bs with
      | nil =>
        have : b.addr + b.size = hi := hrest
        omega
      | cons c cs =>
        -- the block behind it is in use, so the gap ends before it
        have hused : c.used = true := by
          rcases (List.isChain_cons_cons.mp hc).1 with hb | hc
          · rw [hfree] at hb
            cases hb
          · exact hc
        have := hgap c (List.mem_cons_of_mem b List.mem_cons_self) hused
        have := hrest.1
        omega
    · obtain ⟨c, hmem, hc⟩ := ih hrest hc.tail (by omega)
        fun c hmem => hgap c (List.mem_cons_of_mem b hmem)
      exact ⟨c, List.mem_cons_of_mem b hmem, hc⟩

/-- An area with no used block is one free block. -/
theorem Tiles.eq_singleton (h : Tiles lo bs hi) (hc : Coalesced bs) (hlt : lo < hi)
    (hfree : ∀ b ∈ bs, b.used = false) : bs = [⟨lo, hi - lo, false⟩] := by
  match bs with
  | [] => exact absurd h (by unfold Tiles; omega)
  | [b] =>
    obtain ⟨ha, -, hend⟩ := h
    have hb := hfree b List.mem_cons_self
    have hsize : b.size = hi - lo := by
      unfold Tiles at hend
      omega
    rw [← ha, ← hb, ha, ← hsize, ← ha]
  | b :: c :: bs =>
    have hb := hfree b List.mem_cons_self
    have hc' := hfree c (List.mem_cons_of_mem b List.mem_cons_self)
    rcases (List.isChain_cons_cons.mp hc).1 with h1 | h1
    · rw [hb] at h1
      cases h1
    · rw [hc'] at h1
      cases h1

end Coalesced

section Used

variable {as bs : List Block} {b : Block}

theorem Coalesced.of_append_cons (h : Coalesced (as ++ b :: bs)) : Coalesced as ∧ Coalesced bs :=
  ⟨h.left_of_append, h.right_of_append.tail⟩

theorem coalesced_of_used (has : Coalesced as) (hb : b.used = true) (hbs : Coalesced bs) : Coalesced (as ++ b :: bs) := by
  refine has.append (hbs.cons fun c _ => Or.inl hb) fun a _ c hc => Or.inr ?_
  rw [List.head?_cons, Option.mem_some_iff] at hc
  rw [← hc, hb]

end Used

/-! ## The free blocks as a linked list -/

/-- The address of the first free block, `e` if there is none. -/
def firstFree (e : ℕ) : List Block → ℕ
  | [] => e
  | b :: bs => if b.used then firstFree e bs else b.addr

/-- The address of the last free block, `p` if there is none. -/
def lastFree (p : ℕ) : List Block → ℕ
  | [] => p
  | b :: bs => lastFree (if b.used then p else b.addr) bs

/-- Each free block is linked to the one behind it, the last one to `e`. -/
def Threaded (next : ℕ → ℕ) (e : ℕ) : List Block → Prop
  | [] => True
  | b :: bs => (b.used = false → next b.addr = firstFree e bs) ∧ Threaded next e bs

section Threaded

variable {e e' p lo hi : ℕ} {b : Block} {as bs : List Block} {next next' : ℕ → ℕ}

theorem firstFree_append : firstFree e (as ++ bs) = firstFree (firstFree e bs) as := by
  induction as with
  | nil => rfl
  | cons a as ih =>
    rw [List.cons_append, firstFree, ih, firstFree]

theorem lastFree_append : lastFree p (as ++ bs) = lastFree (lastFree p as) bs := by
  induction as generalizing p with
  | nil => rfl
  | cons a as ih =>
    rw [List.cons_append, lastFree, ih, lastFree]

theorem firstFree_cons_of_used (hb : b.used = true) : firstFree e (b :: bs) = firstFree e bs := by
  rw [firstFree, if_pos hb]

theorem firstFree_cons_of_free (hb : b.used = false) : firstFree e (b :: bs) = b.addr := by
  rw [firstFree, hb, if_neg Bool.false_ne_true]

theorem lastFree_concat_of_used (hb : b.used = true) : lastFree p (bs ++ [b]) = lastFree p bs := by
  rw [lastFree_append, lastFree, if_pos hb, lastFree]

theorem lastFree_concat_of_free (hb : b.used = false) : lastFree p (bs ++ [b]) = b.addr := by
  rw [lastFree_append, lastFree, hb, if_neg Bool.false_ne_true, lastFree]

theorem firstFree_cases (e : ℕ) (bs : List Block) :
    firstFree e bs = e ∧ (∀ b ∈ bs, b.used = true) ∨ ∃ b ∈ bs, b.used = false ∧ firstFree e bs = b.addr := by
  induction bs with
  | nil => exact Or.inl ⟨rfl, fun b hb => absurd hb List.not_mem_nil⟩
  | cons b bs ih =>
    rcases hb : b.used with _ | _
    · exact Or.inr ⟨b, List.mem_cons_self, hb, firstFree_cons_of_free hb⟩
    · rw [firstFree_cons_of_used hb]
      rcases ih with ⟨he, hall⟩ | ⟨c, hc, hfree, hf⟩
      · refine Or.inl ⟨he, fun c hc => ?_⟩
        rcases List.mem_cons.mp hc with rfl | hc
        · exact hb
        · exact hall c hc
      · exact Or.inr ⟨c, List.mem_cons_of_mem b hc, hfree, hf⟩

theorem lastFree_cases (p : ℕ) (bs : List Block) :
    lastFree p bs = p ∧ (∀ b ∈ bs, b.used = true) ∨ ∃ b ∈ bs, b.used = false ∧ lastFree p bs = b.addr := by
  induction bs using List.reverseRecOn with
  | nil => exact Or.inl ⟨rfl, fun b hb => absurd hb List.not_mem_nil⟩
  | append_singleton bs b ih =>
    rcases hb : b.used with _ | _
    · exact Or.inr ⟨b, List.mem_concat_self, hb, lastFree_concat_of_free hb⟩
    · rw [lastFree_concat_of_used hb]
      rcases ih with ⟨he, hall⟩ | ⟨c, hc, hfree, hf⟩
      · refine Or.inl ⟨he, fun c hc => ?_⟩
        rcases List.mem_append.mp hc with hc | hc
        · exact hall c hc
        · rw [List.mem_singleton.mp hc, hb]
      · exact Or.inr ⟨c, List.mem_append_left _ hc, hfree, hf⟩

/-- A free block in front hides what the list ends with. -/
theorem firstFree_congr (hb : ∃ b ∈ bs, b.used = false) : firstFree e bs = firstFree e' bs := by
  induction bs with
  | nil =>
    obtain ⟨b, hb, -⟩ := hb
    cases hb
  | cons b bs ih =>
    unfold firstFree
    split_ifs with hu
    · apply ih
      obtain ⟨c, hc, hfree⟩ := hb
      rcases List.mem_cons.mp hc with rfl | hc
      · rw [hu] at hfree
        cases hfree
      · exact ⟨c, hc, hfree⟩
    · rfl

theorem threaded_append : Threaded next e (as ++ bs) ↔ Threaded next (firstFree e bs) as ∧ Threaded next e bs := by
  induction as with
  | nil => exact ⟨fun h => ⟨trivial, h⟩, fun h => h.2⟩
  | cons a as ih =>
    rw [List.cons_append, Threaded, ih, firstFree_append, Threaded, and_assoc]

theorem Threaded.congr (h : Threaded next e bs) (hn : ∀ b ∈ bs, b.used = false → next' b.addr = next b.addr) :
    Threaded next' e bs := by
  induction bs with
  | nil => trivial
  | cons b bs ih =>
    refine ⟨fun hb => ?_, ih h.2 fun c hc => hn c (List.mem_cons_of_mem b hc)⟩
    rw [hn b List.mem_cons_self hb, h.1 hb]

/-- What the last free block is linked to. -/
theorem Threaded.next_lastFree (h : Threaded next e bs) (hfree : ∃ b ∈ bs, b.used = false) :
    next (lastFree p bs) = e := by
  induction bs generalizing p with
  | nil =>
    obtain ⟨b, hb, -⟩ := hfree
    cases hb
  | cons b bs ih =>
    unfold lastFree
    by_cases hrest : ∃ c ∈ bs, c.used = false
    · exact ih h.2 hrest
    · have hall : ∀ c ∈ bs, c.used = true := fun c hc => by
        by_contra hu
        exact hrest ⟨c, hc, by simpa using hu⟩
      have hb : b.used = false := by
        obtain ⟨c, hc, hfc⟩ := hfree
        rcases List.mem_cons.mp hc with rfl | hc
        · exact hfc
        · exact absurd ⟨c, hc, hfc⟩ hrest
      rw [hb, if_neg Bool.false_ne_true]
      rcases lastFree_cases b.addr bs with ⟨heq, -⟩ | ⟨c, hc, hfc, -⟩
      · rw [heq, h.1 hb]
        rcases firstFree_cases e bs with ⟨hf, -⟩ | ⟨c, hc, hfc, -⟩
        · exact hf
        · exact absurd ⟨c, hc, hfc⟩ hrest
      · exact absurd ⟨c, hc, hfc⟩ hrest

/-- The last free block is linked to something else. -/
theorem Threaded.relink (h : Threaded next e bs) (hnd : (bs.map Block.addr).Nodup)
    (hn : ∀ b ∈ bs, b.used = false → b.addr ≠ lastFree p bs → next' b.addr = next b.addr)
    (hlast : next' (lastFree p bs) = e') : Threaded next' e' bs := by
  induction bs generalizing p with
  | nil => trivial
  | cons b bs ih =>
    rw [List.map_cons, List.nodup_cons] at hnd
    unfold lastFree at hn hlast
    refine ⟨fun hb => ?_, ih h.2 hnd.2 (fun c hc => hn c (List.mem_cons_of_mem b hc)) hlast⟩
    rw [hb, if_neg Bool.false_ne_true] at hn hlast
    rcases lastFree_cases b.addr bs with ⟨heq, hall⟩ | ⟨c, hc, hfree, heq⟩
    · rw [heq] at hlast
      rcases firstFree_cases e' bs with ⟨hf, -⟩ | ⟨c, hc, hfree, -⟩
      · rw [hf, hlast]
      · rw [hall c hc] at hfree
        cases hfree
    · have hne : b.addr ≠ lastFree b.addr bs := by
        rw [heq]
        intro hbc
        exact hnd.1 (hbc ▸ List.mem_map_of_mem hc)
      rw [hn b List.mem_cons_self hb hne, h.1 hb]
      exact firstFree_congr ⟨c, hc, hfree⟩

end Threaded

/-! ## A block becomes free -/

/-- A block that becomes free behind `as`: it stays apart, or it is one with the free block before it. -/
inductive Before (as : List Block) (b : Block) : List Block → Block → Prop
  | apart (h : ∀ a ∈ as.getLast?, a.used = true) : Before as b as ⟨b.addr, b.size, false⟩
  | joined {as' : List Block} {f : Block} (h : as = as' ++ [f]) (hf : f.used = false) :
    Before as b as' ⟨f.addr, f.size + b.size, false⟩

/-- A free block in front of `bs`: it stays apart, or it is one with the free block behind it. -/
inductive After (b : Block) (bs : List Block) : Block → List Block → Prop
  | apart (h : ∀ c ∈ bs.head?, c.used = true) : After b bs b bs
  | joined {g : Block} {bs' : List Block} (h : bs = g :: bs') (hg : g.used = false) :
    After b bs ⟨b.addr, b.size + g.size, false⟩ bs'

section Join

variable {lo hi : ℕ} {b m m' : Block} {as as' bs bs' : List Block}

theorem exists_before (as : List Block) (b : Block) : ∃ as' m, Before as b as' m := by
  rcases List.eq_nil_or_concat' as with rfl | ⟨as', f, rfl⟩
  · refine ⟨_, _, .apart ?_⟩
    intro a ha
    cases ha
  · rcases hf : f.used with _ | _
    · exact ⟨_, _, .joined rfl hf⟩
    · refine ⟨_, _, .apart ?_⟩
      intro a ha
      rw [List.getLast?_concat, Option.mem_some_iff] at ha
      rw [← ha, hf]

theorem exists_after (b : Block) (bs : List Block) : ∃ m bs', After b bs m bs' := by
  cases bs with
  | nil => exact ⟨_, _, .apart fun c hc => by cases hc⟩
  | cons g bs =>
    rcases hg : g.used with _ | _
    · exact ⟨_, _, .joined rfl hg⟩
    · refine ⟨_, _, .apart ?_⟩
      intro c hc
      rw [List.head?_cons, Option.mem_some_iff] at hc
      rw [← hc, hg]

theorem Before.free (h : Before as b as' m) : m.used = false := by
  cases h <;> rfl

theorem After.free (h : After b bs m bs') (hb : b.used = false) : m.used = false := by
  cases h with
  | apart h => exact hb
  | joined h hg => rfl

theorem Before.split (h : Before as b as' m) : ∃ fs, as = as' ++ fs := by
  cases h with
  | apart h => exact ⟨[], (List.append_nil as).symm⟩
  | joined h hf => exact ⟨_, h⟩

theorem After.split (h : After b bs m bs') : ∃ gs, bs = gs ++ bs' := by
  cases h with
  | apart h => exact ⟨[], rfl⟩
  | joined h hg => exact ⟨[_], h⟩

theorem After.addr (h : After b bs m bs') : m.addr = b.addr := by
  cases h <;> rfl

theorem Before.tiles (h : Before as b as' m) (ht : Tiles lo (as ++ b :: bs) hi) : Tiles lo (as' ++ m :: bs) hi := by
  obtain ⟨h1, hpos, h2⟩ := tiles_split.mp ht
  cases h with
  | apart h => exact tiles_split.mpr ⟨h1, hpos, h2⟩
  | joined h hf =>
    subst h
    obtain ⟨h0, hfpos, hend⟩ := tiles_split.mp h1
    have hnext : _ + _ = b.addr := hend
    refine tiles_split.mpr ⟨h0, Nat.add_pos_left hfpos _, ?_⟩
    rw [← Nat.add_assoc, hnext]
    exact h2

theorem After.tiles (h : After b bs m bs') (ht : Tiles lo (as ++ b :: bs) hi) : Tiles lo (as ++ m :: bs') hi := by
  obtain ⟨h1, hpos, h2⟩ := tiles_split.mp ht
  cases h with
  | apart h => exact ht
  | joined h hg =>
    subst h
    obtain ⟨hg, hgpos, h3⟩ := h2
    refine tiles_split.mpr ⟨h1, Nat.add_pos_left hpos _, ?_⟩
    rw [← Nat.add_assoc]
    exact h3

theorem Before.last_used (h : Before as b as' m) (hc : Coalesced as) : ∀ a ∈ as'.getLast?, a.used = true := by
  cases h with
  | apart h => exact h
  | joined h hf =>
    subst h
    intro a ha
    have hlast := (List.isChain_append.mp hc).2.2 a ha _ rfl
    rw [hf] at hlast
    simpa using hlast

theorem After.head_used (h : After b bs m bs') (hc : Coalesced bs) : ∀ c ∈ bs'.head?, c.used = true := by
  cases h with
  | apart h => exact h
  | joined h hg =>
    subst h
    intro c hc'
    have hhead := (List.isChain_cons.mp hc).1 c hc'
    rw [hg] at hhead
    simpa using hhead

theorem Before.coalesced (h : Before as b as' m) (hc : Coalesced as) : Coalesced as' := by
  cases h with
  | apart h => exact hc
  | joined h hf => exact (h ▸ hc).left_of_append

theorem After.coalesced (h : After b bs m bs') (hc : Coalesced bs) : Coalesced bs' := by
  cases h with
  | apart h => exact hc
  | joined h hg => exact (h ▸ hc).tail

/-- A block that has become one with its free neighbours has none. -/
theorem coalesced_join (hB : Before as b as' m) (hA : After m bs m' bs') (hcas : Coalesced as)
    (hcbs : Coalesced bs) : Coalesced (as' ++ m' :: bs') := by
  refine (hB.coalesced hcas).append ((hA.coalesced hcbs).cons fun c hc => Or.inr (hA.head_used hcbs c hc)) ?_
  intro a ha c hc
  exact Or.inl (hB.last_used hcas a ha)

theorem Before.space (h : Before as b as' m) : space false (as' ++ m :: bs) = space false (as ++ bs) + b.size := by
  cases h with
  | apart h =>
    rw [space_append, space_append, space_cons, if_pos rfl]
    dsimp only
    omega
  | joined h hf =>
    subst h
    rw [space_append, space_append, space_append, space_cons, space_cons, if_pos rfl, if_pos hf, space_nil]
    dsimp only
    omega

theorem After.space (h : After b bs m bs') (hb : b.used = false) :
    space false (as ++ m :: bs') = space false (as ++ b :: bs) := by
  cases h with
  | apart h => rfl
  | joined h hg =>
    subst h
    rw [space_append, space_append, space_cons, space_cons, space_cons, if_pos rfl, if_pos hb, if_pos hg]
    dsimp only
    omega

theorem Before.filter_used (h : Before as b as' m) : as'.filter Block.used = as.filter Block.used := by
  cases h with
  | apart h => rfl
  | joined h hf =>
    subst h
    rw [List.filter_append, List.filter_cons_of_neg (by rw [hf]; exact Bool.false_ne_true), List.filter_nil,
      List.append_nil]

theorem After.filter_used (h : After b bs m bs') : bs'.filter Block.used = bs.filter Block.used := by
  cases h with
  | apart h => rfl
  | joined h hg =>
    subst h
    rw [List.filter_cons_of_neg (by rw [hg]; exact Bool.false_ne_true)]

end Join

end Thronix.Lib.Tiling
