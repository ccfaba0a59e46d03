import Apfmalloc.AnchorCas
import Apfmalloc.AnchorRun
import Mathlib.Tactic.MkIffOfInductiveProp

/-!
# Taking a count of blocks from a partial superblock

`flush_cache` leaves the free blocks of a superblock on a list: `avail` is the index of its
head, each block links to the next. `malloc_count_from_partial` reads `avail` as the first
of a stretch of free blocks, takes the `count` blocks from there on in address order, marks
the superblock FULL and does not put its descriptor back. It agrees with the list only if
the free blocks are that stretch and the count takes all of them
(`count_from_partial_iff`). Else it hands out blocks that are in use, or drops free ones.
-/

namespace Apfmalloc

open Base

/-! ## Pushing a stretch of blocks -/

/-- The bin's counter is a `u32`. -/
theorem pushBlocks_overflow {noMet : Bool} {bs : Nat} :
    ∀ {n block : Nat} {bin : ThreadCacheBin} {m : Mem}, 0 < n → u32Size ≤ bin.blockNum + n →
      pushBlocks noMet block bs n (bin, m) = none := by
  intro n
  induction n with
  | zero => intro block bin m h _; exact absurd h (Nat.lt_irrefl 0)
  | succ n ih =>
    intro block bin m _ hov
    rw [pushBlocks, ThreadCacheBin.pushBlock]
    by_cases hroom : bin.blockNum + 1 < u32Size
    · rw [if_pos hroom]
      exact ih (by omega) (by simp only; omega)
    · rw [if_neg hroom]
      rfl

/-- **A stretch is pushed block by block**, so its last block is on top. -/
theorem Holds.pushBlocks {noMet : Bool} {bs : Nat} (hbs : 8 ≤ bs) :
    ∀ {n block : Nat} {bin : ThreadCacheBin} {m : Mem} {l : List Nat}, Holds noMet m bin l →
      (∀ y ∈ l, BlockAddr y ∧ y + 8 ≤ block) → 0 < block → block + n * bs ≤ usizeSize →
      bin.blockNum + n < u32Size →
      ∃ bin' m', Apfmalloc.pushBlocks noMet block bs n (bin, m) = some (bin', m') ∧
        Holds noMet m' bin' (((List.range n).map fun i => block + i * bs).reverse ++ l) := by
  intro n
  induction n with
  | zero => intro block bin m l h _ _ _ _; exact ⟨bin, m, rfl, h⟩
  | succ n ih =>
    intro block bin m l h hl hpos hfit hroom
    rw [Nat.succ_mul] at hfit
    obtain ⟨⟨bin₁, m₁⟩, hpush⟩ := Option.isSome_iff_exists.mp
      (@pushBlock_isSome noMet m bin block (by omega))
    obtain ⟨h₁, -, -, -⟩ := h.pushBlock (fun y hy => (hl y hy).1)
      (fun y hy => Or.inr (hl y hy).2) hpush
    have hnum : bin₁.blockNum = bin.blockNum + 1 := by rw [h₁.num, h.num, List.length_cons]
    have hl₁ : ∀ y ∈ block :: l, BlockAddr y ∧ y + 8 ≤ block + bs := by
      intro y hy
      rcases List.mem_cons.mp hy with rfl | hy
      · exact ⟨⟨hpos, by omega⟩, by omega⟩
      · have := hl y hy
        exact ⟨this.1, by omega⟩
    obtain ⟨bin', m', hrest, h'⟩ := ih h₁ hl₁ (by omega) (by omega) (by omega)
    refine ⟨bin', m', by rw [Apfmalloc.pushBlocks, hpush]; exact hrest, ?_⟩
    rw [List.range_succ_eq_map, List.map_cons, List.map_map, List.reverse_cons,
      List.append_assoc, Nat.zero_mul, Nat.add_zero, List.singleton_append]
    have hmap : (List.range n).map ((fun i => block + i * bs) ∘ Nat.succ) =
        (List.range n).map fun i => block + bs + i * bs := by
      refine List.map_congr_left fun i _ => ?_
      rw [Function.comp_apply, Nat.succ_mul]
      omega
    rw [hmap]
    exact h'

/-! ## How many blocks -/

theorem blocksTaken_eq {avail count maxCount : Nat} (havail : avail < maxCount)
    (hmax : maxCount < 2 ^ 30) (h : avail + count < 2 ^ 63) :
    blocksTaken avail count maxCount = min count (maxCount - avail) := by
  unfold blocksTaken newAvail Int.bmod
  rw [usizeSize_eq]
  simp only
  split <;> split <;> omega

/-- A count that is negative as an `isize` takes nothing. -/
theorem blocksTaken_negative {avail count maxCount : Nat} (havail : avail < maxCount)
    (hmax : maxCount < 2 ^ 30) (h : 2 ^ 63 ≤ count) (hcount : count < usizeSize) :
    blocksTaken avail count maxCount = 0 := by
  unfold blocksTaken newAvail Int.bmod
  rw [usizeSize_eq] at *
  simp only
  split <;> split <;> omega

/-- The sum overflows, and the difference comes out as the count again. -/
theorem blocksTaken_overflow {avail count maxCount : Nat} (havail : avail < maxCount)
    (hmax : maxCount < 2 ^ 30) (h : 2 ^ 63 ≤ avail + count) (hcount : count < 2 ^ 63) :
    blocksTaken avail count maxCount = count := by
  unfold blocksTaken newAvail Int.bmod
  rw [usizeSize_eq]
  simp only
  split <;> split <;> omega

/-! ## The free list of a superblock -/

/-- The free blocks of the superblock of `d`, in the order of its list: from the block that
`avail` names, by the links, to the end mark that the first flush found. -/
@[mk_iff]
structure PartlyFree (cfg : Cfg) (s : State) (c d : Nat) (seg : Segment) (free : List Nat) :
    Prop where
  super : (s.descs d).superBlock = some seg
  valid : seg.Valid
  length : seg.length = (cfg.sizeClass c).sbSize
  blockSize : (s.descs d).blockSize = (cfg.sizeClass c).blockSize
  maxCount : (s.descs d).maxCount = (cfg.sizeClass c).blockNum
  state : (s.descs d).anchor.state = .partly
  chain : ChainTo (nextBlock cfg.noMetStack (some (cfg.sizeClass c).blockSize) s.mem)
    (seg.ptr + (s.descs d).anchor.avail * (cfg.sizeClass c).blockSize) free
    (seg.ptr + (cfg.sizeClass c).blockNum * (cfg.sizeClass c).blockSize)
  some_free : free ≠ []
  blocks : ∀ x ∈ free, ∃ i < (cfg.sizeClass c).blockNum,
    x = seg.ptr + i * (cfg.sizeClass c).blockSize
  nodup : free.Nodup

instance (cfg : Cfg) (s : State) (c d : Nat) (seg : Segment) (free : List Nat) :
    Decidable (PartlyFree cfg s c d seg free) :=
  decidable_of_iff _ (partlyFree_iff cfg s c d seg free).symm

/-- The call returns, what it puts into the bin was free, and what it leaves is still free
and can be found. -/
def TakesFree (cfg : Cfg) (t c d count : Nat) (free : List Nat) (s : State) : Prop :=
  ∃ n s' l, mallocCountFromPartial cfg t c count s = some (n, s') ∧
    Holds cfg.noMetStack s'.mem (s'.threadCache t c) l ∧ (∀ x ∈ l, x ∈ free) ∧
    ∀ x ∈ free, x ∉ l → (∃ seg free', PartlyFree cfg s' c d seg free' ∧ x ∈ free') ∧
      ∃ P, PartialLinked s' (s'.partialList c) P ∧ d ∈ P

/-- The blocks from index `avail` on. -/
def stretch (seg : Segment) (bs avail n : Nat) : List Nat :=
  (List.range n).map fun i => seg.ptr + avail * bs + i * bs

theorem mem_stretch {seg : Segment} {bs avail n j : Nat} (hbs : 0 < bs) :
    seg.ptr + j * bs ∈ stretch seg bs avail n ↔ avail ≤ j ∧ j < avail + n := by
  unfold stretch
  rw [List.mem_map]
  constructor
  · intro ⟨i, hi, heq⟩
    rw [Nat.add_assoc, ← Nat.add_mul] at heq
    have := Nat.eq_of_mul_eq_mul_right hbs (Nat.add_left_cancel heq)
    rw [List.mem_range] at hi
    omega
  · intro ⟨hle, hlt⟩
    refine ⟨j - avail, List.mem_range.mpr (by omega), ?_⟩
    rw [Nat.add_assoc, ← Nat.add_mul]
    congr 2
    omega

section
variable {cfg : Cfg} {s s' : State} {t c d count n : Nat} {seg : Segment} {free l P : List Nat}

theorem PartlyFree.head_mem (h : PartlyFree cfg s c d seg free) :
    seg.ptr + (s.descs d).anchor.avail * (cfg.sizeClass c).blockSize ∈ free := by
  obtain ⟨x, rest, rfl⟩ := List.exists_cons_of_ne_nil h.some_free
  rw [h.chain.1]
  exact List.mem_cons_self ..

/-- `avail` is the index of a block. -/
theorem PartlyFree.avail_lt (h : PartlyFree cfg s c d seg free) (h1 : 1 ≤ c) (h2 : c < maxSzIdx) :
    (s.descs d).anchor.avail < (cfg.sizeClass c).blockNum := by
  have hbs := (cfg.classSpec h1 h2).blockSize_ge
  obtain ⟨i, hi, hx⟩ := h.blocks _ h.head_mem
  rw [Nat.eq_of_mul_eq_mul_right (by omega) (Nat.add_left_cancel hx)]
  exact hi

/-- The call, after the descriptor is popped and its anchor exchanged. -/
theorem PartlyFree.call (h : PartlyFree cfg s c d seg free) (t count : Nat)
    (hlist : PartialLinked s (s.partialList c) (d :: P)) (haddr : ∀ x ∈ P, DescAddr x) :
    ∃ s₁, (s₁.descs d).anchor.state = .full ∧ (s₁.descs d).superBlock = some seg ∧
      (s₁.descs d).blockSize = (cfg.sizeClass c).blockSize ∧
      (s₁.descs d).maxCount = (cfg.sizeClass c).blockNum ∧ s₁.threadCache = s.threadCache ∧
      mallocCountFromPartial cfg t c count s =
        takeCount cfg t c d count (s.descs d).anchor s₁ := by
  obtain ⟨head, hpop, -⟩ := hlist.pop haddr
  have hstate : ((s.setPartialList c head).descs d).anchor.state ≠ .empty := by
    show (s.descs d).anchor.state ≠ .empty
    rw [h.state]
    exact SuperBlockState.noConfusion
  have hcall := @mallocCountFromPartial_take cfg t c d count _ _ hpop hstate
  rw [setPartialList_descs] at hcall
  refine ⟨_, ?_, ?_, ?_, ?_, ?_, hcall⟩
  · rw [State.setAnchor, setDesc_same]
    rfl
  · rw [State.setAnchor, setDesc_same]
    exact h.super
  · rw [State.setAnchor, setDesc_same]
    exact h.blockSize
  · rw [State.setAnchor, setDesc_same]
    exact h.maxCount
  · rfl

theorem PartlyFree.call_overflow (h : PartlyFree cfg s c d seg free) (h1 : 1 ≤ c)
    (h2 : c < maxSzIdx) (hlist : PartialLinked s (s.partialList c) (d :: P))
    (haddr : ∀ x ∈ P, DescAddr x)
    (hn : blocksTaken (s.descs d).anchor.avail count (cfg.sizeClass c).blockNum = n)
    (hbig : u32Size ≤ n) : mallocCountFromPartial cfg t c count s = none := by
  obtain ⟨s₁, -, hsuper, hbsz, hmax, -, hcall⟩ := h.call t count hlist haddr
  have havail := h.avail_lt h1 h2
  rw [hcall, takeCount, hmax, hbsz, hn, if_neg (by omega), hsuper, Option.bind_eq_bind,
    Option.bind_some, pushBlocks_overflow (by rw [u32Size_eq] at hbig; omega) (by omega),
    Option.bind_eq_bind, Option.bind_none]

/-- **What the call does**: the stretch from `avail` on is in the bin, and the superblock is
marked FULL. -/
theorem PartlyFree.takes (h : PartlyFree cfg s c d seg free) (h1 : 1 ≤ c) (h2 : c < maxSzIdx)
    (hlist : PartialLinked s (s.partialList c) (d :: P)) (haddr : ∀ x ∈ P, DescAddr x)
    (hempty : (s.threadCache t c).blockNum = 0)
    (hn : blocksTaken (s.descs d).anchor.avail count (cfg.sizeClass c).blockNum = n)
    (hfit : (s.descs d).anchor.avail + n ≤ (cfg.sizeClass c).blockNum) :
    ∃ s', mallocCountFromPartial cfg t c count s = some (n, s') ∧
      Holds cfg.noMetStack s'.mem (s'.threadCache t c)
        (stretch seg (cfg.sizeClass c).blockSize (s.descs d).anchor.avail n).reverse ∧
      (s'.descs d).anchor.state = .full := by
  obtain ⟨s₁, hfull, hsuper, hbsz, hmax, hbins, hcall⟩ := h.call t count hlist haddr
  have hspec := cfg.classSpec h1 h2
  have hbs := hspec.blockSize_ge
  have hpos := h.valid.pos
  -- the stretch ends with the superblock, which ends inside the address space
  have hend : seg.ptr + (s.descs d).anchor.avail * (cfg.sizeClass c).blockSize +
      n * (cfg.sizeClass c).blockSize ≤ usizeSize := by
    have hbound := h.valid.bound
    have hreg := (regionLen_bounds seg.length).1
    have hmul := Nat.mul_le_mul_right (cfg.sizeClass c).blockSize hfit
    rw [Nat.add_mul, Nat.mul_comm (cfg.sizeClass c).blockNum, ← hspec.sbSize_eq, ← h.length] at hmul
    rw [addrSpace] at hbound
    rw [usizeSize_eq]
    omega
  have hlt := hspec.blockNum_lt
  have hempty₁ : (s₁.threadCache t c).blockNum = 0 := by rw [hbins]; exact hempty
  obtain ⟨bin, m, hpush, hholds⟩ := (holds_empty cfg.noMetStack s₁.mem hempty₁).pushBlocks hbs
    (fun y hy => absurd hy List.not_mem_nil) (Nat.add_pos_left hpos _) hend
    (by rw [hempty₁, u32Size_eq]; omega)
  rw [List.append_nil] at hholds
  refine ⟨{ s₁ with mem := m }.setBin t c bin, ?_, ?_, hfull⟩
  · rw [hcall]
    rw [takeCount, hmax, hbsz, hn, if_neg (by omega), hsuper, Option.bind_eq_bind,
      Option.bind_some, hpush, Option.bind_eq_bind, Option.bind_some]
  · rw [setBin_same]
    exact hholds

/-- Since the superblock is FULL afterwards, the call keeps its promise only by taking every
free block. -/
theorem PartlyFree.takesFree_iff (h : PartlyFree cfg s c d seg free) (h1 : 1 ≤ c)
    (h2 : c < maxSzIdx) (hlist : PartialLinked s (s.partialList c) (d :: P))
    (haddr : ∀ x ∈ P, DescAddr x) (hempty : (s.threadCache t c).blockNum = 0)
    (hn : blocksTaken (s.descs d).anchor.avail count (cfg.sizeClass c).blockNum = n)
    (hfit : (s.descs d).anchor.avail + n ≤ (cfg.sizeClass c).blockNum) :
    TakesFree cfg t c d count free s ↔
      ∀ i < (cfg.sizeClass c).blockNum, (seg.ptr + i * (cfg.sizeClass c).blockSize ∈ free ↔
        (s.descs d).anchor.avail ≤ i ∧ i < (s.descs d).anchor.avail + n) := by
  have hbs := (cfg.classSpec h1 h2).blockSize_ge
  have hmem : ∀ {i}, seg.ptr + i * (cfg.sizeClass c).blockSize ∈
      (stretch seg (cfg.sizeClass c).blockSize (s.descs d).anchor.avail n).reverse ↔
      (s.descs d).anchor.avail ≤ i ∧ i < (s.descs d).anchor.avail + n := by
    intro i
    rw [List.mem_reverse, mem_stretch (by omega)]
  obtain ⟨s', hcall, hholds, hfull⟩ := h.takes h1 h2 hlist haddr hempty hn hfit
  constructor
  · intro ⟨n', s₂, l, hcall₂, hholds₂, hsub, hrest⟩ i hi
    obtain ⟨rfl, rfl⟩ := Prod.mk.injEq .. ▸ Option.some.inj (hcall.symm.trans hcall₂)
    obtain rfl := hholds.unique hholds₂
    rw [← hmem]
    refine ⟨fun hx => Classical.byContradiction fun hnot => ?_, hsub _⟩
    obtain ⟨⟨seg', free', hfree', -⟩, -⟩ := hrest _ hx hnot
    exact SuperBlockState.noConfusion (hfull.symm.trans hfree'.state)
  · intro hiff
    refine ⟨n, s', _, hcall, hholds, fun x hx => ?_, fun x hx hnot => ?_⟩
    · obtain ⟨i, hi, rfl⟩ := List.mem_map.mp (List.mem_reverse.mp hx)
      have hlt := List.mem_range.mp hi
      rw [Nat.add_assoc, ← Nat.add_mul]
      exact (hiff _ (by omega)).mpr ⟨by omega, by omega⟩
    · obtain ⟨i, hi, rfl⟩ := h.blocks x hx
      exact absurd (hmem.mpr ((hiff i hi).mp hx)) hnot

/-- **When the count is right.** The call takes free blocks only and loses none exactly if
the free blocks of the superblock are those from index `avail` on, as many as the count
asks for or up to the end of the superblock. -/
theorem count_from_partial_iff (h1 : 1 ≤ c) (h2 : c < maxSzIdx) (hcount : count < usizeSize)
    (hfree : PartlyFree cfg s c d seg free)
    (hlist : PartialLinked s (s.partialList c) (d :: P)) (haddr : ∀ x ∈ P, DescAddr x)
    (hempty : (s.threadCache t c).blockNum = 0) :
    TakesFree cfg t c d count free s ↔
      (s.descs d).anchor.avail + count < 2 ^ 63 ∧
      ∀ i < (cfg.sizeClass c).blockNum, (seg.ptr + i * (cfg.sizeClass c).blockSize ∈ free ↔
        (s.descs d).anchor.avail ≤ i ∧ i < (s.descs d).anchor.avail + count) := by
  have havail := hfree.avail_lt h1 h2
  have hmax := (cfg.classSpec h1 h2).blockNum_lt
  by_cases hsum : (s.descs d).anchor.avail + count < 2 ^ 63
  · have hn := blocksTaken_eq havail hmax hsum
    rw [hfree.takesFree_iff h1 h2 hlist haddr hempty hn (by omega)]
    -- the end of the superblock cuts both stretches
    refine ⟨fun h => ⟨hsum, fun i hi => ?_⟩, fun h i hi => ?_⟩
    · rw [h i hi]
      omega
    · rw [h.2 i hi]
      omega
  · refine iff_of_false (fun htakes => ?_) fun h => hsum h.1
    by_cases hneg : 2 ^ 63 ≤ count
    · -- nothing is taken, and the head of the free list is lost
      have hn := blocksTaken_negative havail hmax hneg hcount
      rw [hfree.takesFree_iff h1 h2 hlist haddr hempty hn (by omega)] at htakes
      have := (htakes _ havail).mp hfree.head_mem
      omega
    · -- more blocks than the counter of the bin has room for
      have hn := blocksTaken_overflow havail hmax (Nat.not_lt.mp hsum) (Nat.not_le.mp hneg)
      obtain ⟨n, s', l, hcall, -⟩ := htakes
      rw [hfree.call_overflow h1 h2 hlist haddr hn (by rw [u32Size_eq]; omega)] at hcall
      cases hcall

end

/-- One block of four is taken and the other three go back: they are a stretch, and a count
of three takes them all. -/
theorem count_from_partial_iff_rest :
    ∃ (s : State) (d : Nat) (seg : Segment) (p : Nat),
      PartlyFree Cfg.smallNoMet s 24 d seg [p + 1024, p + 2048, p + 3072] ∧
      PartialLinked s (s.partialList 24) [d] ∧
      TakesFree Cfg.smallNoMet 1 24 d 3 [p + 1024, p + 2048, p + 3072] s := by
  have h : ((initMalloc Os.bump).any fun s₀ =>
      (allocateToCache Cfg.smallNoMet Os.bump none 0 1024 24 s₀).any fun r =>
      (flushCache Cfg.smallNoMet 0 24 r.2).any fun s =>
      (s.partialList 24).any fun node => node.getDesc.any fun d =>
      (s.descs d).superBlock.any fun seg =>
      PartlyFree Cfg.smallNoMet s 24 d seg [r.1 + 1024, r.1 + 2048, r.1 + 3072] ∧
        PartialLinked s (s.partialList 24) [d] ∧ (s.threadCache 1 24).blockNum = 0 ∧
        (s.descs d).anchor.avail = 1 ∧
        ∀ i < (Cfg.smallNoMet.sizeClass 24).blockNum,
          (seg.ptr + i * (Cfg.smallNoMet.sizeClass 24).blockSize ∈
            [r.1 + 1024, r.1 + 2048, r.1 + 3072] ↔ 1 ≤ i ∧ i < 1 + 3)) = true := by
    decide +kernel
  simp only [Option.any_eq_true, decide_eq_true_eq, Prod.exists] at h
  obtain ⟨s₀, -, p, s₁, -, s, -, node, -, d, -, seg, -, hc⟩ := h
  obtain ⟨hfree, hlist, hempty, havail, hstretch⟩ := hc
  refine ⟨s, d, seg, p, hfree, hlist, ?_⟩
  rw [count_from_partial_iff (by decide) (by decide) (by decide) hfree hlist
    (fun x hx => absurd hx List.not_mem_nil) hempty, havail]
  exact ⟨by decide, hstretch⟩

/-- Of the first two blocks of four the client gives back the first and keeps the second,
then its thread flushes. Another thread that takes three blocks gets the one in use, and the
last block is lost. -/
theorem count_from_partial_takes_live :
    ∃ (s₀ s₁ s₂ s₃ s : State) (d p q : Nat) (seg : Segment),
      initMalloc Os.bump = some s₀ ∧
      doMalloc Cfg.smallNoMet Os.bump none 0 1024 s₀ = some (p, s₁) ∧
      doMalloc Cfg.smallNoMet Os.bump none 0 1024 s₁ = some (q, s₂) ∧
      doFree Cfg.smallNoMet none 0 p s₂ = some s₃ ∧ flushCache Cfg.smallNoMet 0 24 s₃ = some s ∧
      PartlyFree Cfg.smallNoMet s 24 d seg [p, q + 1024, q + 2048] ∧
      PartialLinked s (s.partialList 24) [d] ∧ q ∉ [p, q + 1024, q + 2048] ∧
      (∃ s', mallocCountFromPartial Cfg.smallNoMet 1 24 3 s = some (3, s') ∧
        Holds true s'.mem (s'.threadCache 1 24) [q + 1024, q, p]) ∧
      ¬TakesFree Cfg.smallNoMet 1 24 d 3 [p, q + 1024, q + 2048] s := by
  have h : ((initMalloc Os.bump).any fun s₀ =>
      (allocateToCache Cfg.smallNoMet Os.bump none 0 1024 24 s₀).any fun r₁ =>
      (allocateToCache Cfg.smallNoMet Os.bump none 0 1024 24 r₁.2).any fun r₂ =>
      (getPageInfoForPtr r₂.2 r₁.1).getDesc.any fun d =>
      (freeSmall Cfg.smallNoMet none 0 24 r₁.1 r₂.2).any fun s₃ =>
      (flushCache Cfg.smallNoMet 0 24 s₃).any fun s =>
      (s.descs d).superBlock.any fun seg =>
      (mallocCountFromPartial Cfg.smallNoMet 1 24 3 s).any fun r =>
      (r₁.1 ≠ 0 ∧ (r₂.2.descs d).blockSize = 1024) ∧
        PartlyFree Cfg.smallNoMet s 24 d seg [r₁.1, r₂.1 + 1024, r₂.1 + 2048] ∧
        PartialLinked s (s.partialList 24) [d] ∧ r₂.1 ∉ [r₁.1, r₂.1 + 1024, r₂.1 + 2048] ∧
        r.1 = 3 ∧ (r.2.threadCache 1 24).blockNum = 3 ∧
        ChainTo (nextBlock true (r.2.threadCache 1 24).blockSize r.2.mem)
          (r.2.threadCache 1 24).block [r₂.1 + 1024, r₂.1, r₁.1] 0) = true := by
    decide +kernel
  simp only [Option.any_eq_true, decide_eq_true_eq, Prod.exists] at h
  obtain ⟨s₀, hinit, p, s₁, hp, q, s₂, hq, d, hd, s₃, hsmall, s, hflush, seg, -, n, s', hcall,
    hc⟩ := h
  obtain ⟨⟨hp₀, hbs⟩, hpart, hlist, hnot, hn, hnum, hchain⟩ := hc
  have hclass : getSizeClass 1024 = 24 :=
    getSizeClass_classBlockSize (c := 24) (by decide) (by decide)
  have hmalloc : ∀ s, doMalloc Cfg.smallNoMet Os.bump none 0 1024 s =
      allocateToCache Cfg.smallNoMet Os.bump none 0 1024 24 s := fun s => by
    rw [doMalloc, if_neg (by decide), hclass]
  have hfree : doFree Cfg.smallNoMet none 0 p s₂ = some s₃ := by
    rw [doFree_eq_freeSmall hp₀ hd (by rw [hbs]; decide), hbs, hclass]
    exact hsmall
  have hholds : Holds true s'.mem (s'.threadCache 1 24) [q + 1024, q, p] := ⟨hnum, _, hchain⟩
  subst hn
  refine ⟨s₀, s₁, s₂, s₃, s, d, p, q, seg, hinit, (hmalloc _).trans hp, (hmalloc _).trans hq,
    hfree, hflush, hpart, hlist, hnot, ⟨s', hcall, hholds⟩, fun htakes => ?_⟩
  obtain ⟨n', s₄, l, hcall', hholds', hsub, -⟩ := htakes
  obtain ⟨-, rfl⟩ := Prod.mk.injEq .. ▸ Option.some.inj (hcall.symm.trans hcall')
  obtain rfl := hholds.unique hholds'
  exact hnot (hsub q (by simp))

end Apfmalloc
