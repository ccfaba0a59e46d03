import Apfmalloc.BinRefine
import Apfmalloc.Malloc

/-!
# The heap invariant

Everything the allocator's data structures promise each other between two
operations, in three layers:

- `DescInv` (`DescList.lean`): the descriptors;
- `RegionInv`: a descriptor that owns a segment describes it, the segments do
  not overlap, and the page map names the descriptor on every page of a
  superblock;
- `BlockInv`: each block of a superblock is in one place, a client's hands, the
  bin of one thread or the free list of its superblock, and the links in memory
  are those lists.

`Heap` is the ghost state the code does not keep. The lemmas here are the
geometry (two blocks are the same or do not overlap) and the frames; what the
operations do to the invariant is in `HeapOps.lean` and later files.
-/

namespace Apfmalloc

open Base

/-! ## Segments and blocks -/

/-- Descriptor `d` owns the segment `seg`. -/
def Owns (s : State) (d : Nat) (seg : Segment) : Prop := (s.descs d).superBlock = some seg

theorem Owns.unique {s : State} {d : Nat} {seg seg' : Segment} (h : Owns s d seg)
    (h' : Owns s d seg') : seg = seg' :=
  Option.some.inj (h.symm.trans h')

/-- `x` is a block of the superblock of descriptor `d`, of class `c`. -/
def BlockOf (cfg : Cfg) (s : State) (d c x : Nat) : Prop :=
  ∃ seg, Owns s d seg ∧ (s.descs d).procHeap = some c ∧
    ∃ i < (cfg.sizeClass c).blockNum, x = seg.ptr + i * (cfg.sizeClass c).blockSize

def IsBlock (cfg : Cfg) (s : State) (c x : Nat) : Prop := ∃ d, BlockOf cfg s d c x

/-- Descriptor `d` describes its superblock of class `c`. -/
structure SuperOk (cfg : Cfg) (s : State) (d : Nat) (seg : Segment) (c : Nat) : Prop where
  one_le : 1 ≤ c
  lt : c < maxSzIdx
  length : seg.length = (cfg.sizeClass c).sbSize
  blockSize : (s.descs d).blockSize = (cfg.sizeClass c).blockSize
  maxCount : (s.descs d).maxCount = (cfg.sizeClass c).blockNum
  pages : ∀ k, PageOf seg.ptr (cfg.sizeClass c).sbSize k → s.pageMap k = ⟨d⟩

structure RegionInv (cfg : Cfg) (s : State) (alloced : List Nat) : Prop where
  alloced : ∀ {d seg}, Owns s d seg → d ∈ alloced
  valid : ∀ {d seg}, Owns s d seg → seg.Valid
  mapped : ∀ {d seg}, Owns s d seg → seg ∈ s.mapped
  apart : ∀ {d seg d' seg'}, Owns s d seg → Owns s d' seg' → d ≠ d' → seg.Apart seg'
  carved : ∀ {d seg}, Owns s d seg → ∀ x ∈ s.carved,
    x < seg.ptr ∨ seg.ptr + regionLen seg.length ≤ x
  small : ∀ {d seg c}, Owns s d seg → (s.descs d).procHeap = some c → SuperOk cfg s d seg c
  large : ∀ {d seg}, Owns s d seg → (s.descs d).procHeap = none →
    maxSz < seg.length ∧ (s.descs d).blockSize = seg.length

/-- A live block: where it is, how much was asked for, how much there is. -/
structure Live where
  ptr : Nat
  size : Nat
  len : Nat
  deriving DecidableEq, Repr

/-- The bytes of two live blocks do not overlap. -/
def Live.Apart (e e' : Live) : Prop := e.ptr + e.len ≤ e'.ptr ∨ e'.ptr + e'.len ≤ e.ptr

/-- Where a block is. -/
inductive Place
  | live
  | bin (t : Nat)
  | free
  deriving DecidableEq, Repr

structure Heap where
  alloced : List Nat
  freeDescs : List Nat
  place : Nat → Place
  /-- the blocks in a bin, by thread and class, top first -/
  bins : Nat → Nat → List Nat
  /-- the free list of a superblock, by descriptor -/
  frees : Nat → List Nat

/-- A live block is a block of a superblock, or what is left of a large segment
from its pointer on, and its page names the descriptor. -/
inductive LiveOk (cfg : Cfg) (s : State) (place : Nat → Place) (e : Live) : Prop
  | small {d c : Nat} : BlockOf cfg s d c e.ptr → place e.ptr = .live →
      e.len = (cfg.sizeClass c).blockSize → e.size ≤ e.len → LiveOk cfg s place e
  | large {d : Nat} {seg : Segment} : Owns s d seg → (s.descs d).procHeap = none →
      seg.ptr ≤ e.ptr → 0 < e.len → e.ptr + e.len = seg.ptr + seg.length → e.size ≤ e.len →
      s.pageMap (addrToKey e.ptr) = ⟨d⟩ → LiveOk cfg s place e

structure BlockInv (cfg : Cfg) (s : State) (H : Heap) (live : List Live) : Prop where
  holds : ∀ t c, Holds cfg.noMetStack s.mem (s.threadCache t c) (H.bins t c)
  binNodup : ∀ t c, (H.bins t c).Nodup
  binMem : ∀ t c x, x ∈ H.bins t c ↔ H.place x = .bin t ∧ IsBlock cfg s c x
  freeChain : ∀ {d seg c}, Owns s d seg → (s.descs d).procHeap = some c →
    ChainTo (readWord s.mem) (seg.ptr + (s.descs d).anchor.avail * (cfg.sizeClass c).blockSize)
      (H.frees d) (seg.ptr + (cfg.sizeClass c).blockNum * (cfg.sizeClass c).blockSize)
  freeNodup : ∀ {d seg c}, Owns s d seg → (s.descs d).procHeap = some c → (H.frees d).Nodup
  freeMem : ∀ {d seg c}, Owns s d seg → (s.descs d).procHeap = some c →
    ∀ x, x ∈ H.frees d ↔ H.place x = .free ∧ BlockOf cfg s d c x
  liveOk : ∀ e ∈ live, LiveOk cfg s H.place e
  liveAll : ∀ c x, IsBlock cfg s c x → H.place x = .live → ∃ e ∈ live, e.ptr = x
  liveApart : live.Pairwise Live.Apart

structure HeapInv (cfg : Cfg) (s : State) (H : Heap) (live : List Live) : Prop where
  desc : DescInv s H.alloced H.freeDescs
  region : RegionInv cfg s H.alloced
  block : BlockInv cfg s H live

/-! ## Geometry -/

/-- What is known of a block. -/
structure BlockFacts (cfg : Cfg) (s : State) (d c x : Nat) (seg : Segment) : Prop where
  owns : Owns s d seg
  heap : (s.descs d).procHeap = some c
  super : SuperOk cfg s d seg c
  spec : ClassSpec (cfg.sizeClass c) c
  valid : seg.Valid
  index : ∃ i < (cfg.sizeClass c).blockNum, x = seg.ptr + i * (cfg.sizeClass c).blockSize
  lo : seg.ptr ≤ x
  hi : x + (cfg.sizeClass c).blockSize ≤ seg.ptr + (cfg.sizeClass c).sbSize

theorem mul_succ_le {i n b : Nat} (h : i < n) : i * b + b ≤ b * n := by
  rw [← Nat.succ_mul, Nat.mul_comm]
  exact Nat.mul_le_mul_left _ h

theorem RegionInv.blockFacts {cfg : Cfg} {s : State} {alloced : List Nat}
    (h : RegionInv cfg s alloced) {d c x : Nat} (hb : BlockOf cfg s d c x) :
    ∃ seg, BlockFacts cfg s d c x seg := by
  obtain ⟨seg, howns, hheap, i, hi, rfl⟩ := hb
  have hsuper := h.small howns hheap
  have hspec := cfg.classSpec hsuper.one_le hsuper.lt
  have hmul := mul_succ_le (b := (cfg.sizeClass c).blockSize) hi
  rw [← hspec.sbSize_eq] at hmul
  exact ⟨seg, howns, hheap, hsuper, hspec, h.valid howns, ⟨i, hi, rfl⟩, Nat.le_add_right _ _,
    by omega⟩

theorem SuperOk.regionLen {cfg : Cfg} {s : State} {d c : Nat} {seg : Segment}
    (h : SuperOk cfg s d seg c) : regionLen seg.length = (cfg.sizeClass c).sbSize := by
  rw [h.length]
  exact regionLen_of_mod (cfg.classSpec h.one_le h.lt).sbSize_page

theorem BlockFacts.end_le {cfg : Cfg} {s : State} {d c x : Nat} {seg : Segment}
    (h : BlockFacts cfg s d c x seg) : x + (cfg.sizeClass c).blockSize ≤ addrSpace := by
  have hb := h.valid.bound
  rw [h.super.regionLen] at hb
  exact Nat.le_trans h.hi hb

theorem BlockFacts.addr {cfg : Cfg} {s : State} {d c x : Nat} {seg : Segment}
    (h : BlockFacts cfg s d c x seg) : BlockAddr x := by
  have hend := h.end_le
  have hpos := h.valid.pos
  have hlo := h.lo
  have hbs := h.spec.blockSize_ge
  rw [addrSpace] at hend
  exact ⟨by omega, by rw [usizeSize_eq]; omega⟩

/-- A block's page names its descriptor. -/
theorem BlockFacts.page {cfg : Cfg} {s : State} {d c x : Nat} {seg : Segment}
    (h : BlockFacts cfg s d c x seg) : getPageInfoForPtr s x = ⟨d⟩ := by
  have hbs := h.spec.blockSize_ge
  have hhi := h.hi
  exact h.super.pages _ ⟨x, h.lo, by omega, rfl⟩

theorem BlockFacts.index_apart {cfg : Cfg} {s : State} {d c x y : Nat} {seg : Segment}
    (hx : BlockFacts cfg s d c x seg) (hy : BlockFacts cfg s d c y seg) :
    x = y ∨ BlocksApart (cfg.sizeClass c).blockSize x y := by
  obtain ⟨i, -, rfl⟩ := hx.index
  obtain ⟨j, -, rfl⟩ := hy.index
  unfold BlocksApart
  rcases Nat.lt_trichotomy i j with hij | hij | hij
  · have := mul_succ_le (b := (cfg.sizeClass c).blockSize) hij
    rw [Nat.mul_comm _ j] at this
    omega
  · exact Or.inl (by rw [hij])
  · have := mul_succ_le (b := (cfg.sizeClass c).blockSize) hij
    rw [Nat.mul_comm _ i] at this
    omega

/-- **Two blocks are the same or do not overlap.** -/
theorem RegionInv.block_cases {cfg : Cfg} {s : State} {alloced : List Nat}
    (h : RegionInv cfg s alloced) {d c x d' c' y : Nat} (hx : BlockOf cfg s d c x)
    (hy : BlockOf cfg s d' c' y) :
    (d = d' ∧ c = c' ∧ x = y) ∨ x + (cfg.sizeClass c).blockSize ≤ y ∨
      y + (cfg.sizeClass c').blockSize ≤ x := by
  obtain ⟨seg, fx⟩ := h.blockFacts hx
  obtain ⟨seg', fy⟩ := h.blockFacts hy
  by_cases hd : d = d'
  · subst hd
    obtain rfl := fx.owns.unique fy.owns
    obtain rfl : c = c' := Option.some.inj (fx.heap.symm.trans fy.heap)
    exact (fx.index_apart fy).imp (fun he => ⟨rfl, rfl, he⟩) id
  · have hap := h.apart fx.owns fy.owns hd
    rw [Segment.Apart, fx.super.regionLen, fy.super.regionLen] at hap
    have := fx.lo
    have := fx.hi
    have := fy.lo
    have := fy.hi
    exact Or.inr (by omega)

/-- A block belongs to one superblock. -/
theorem RegionInv.block_unique {cfg : Cfg} {s : State} {alloced : List Nat}
    (h : RegionInv cfg s alloced) {d c d' c' x : Nat} (hx : BlockOf cfg s d c x)
    (hx' : BlockOf cfg s d' c' x) : d = d' ∧ c = c' := by
  obtain ⟨seg, fx⟩ := h.blockFacts hx
  obtain ⟨seg', fx'⟩ := h.blockFacts hx'
  have := fx.spec.blockSize_ge
  have := fx'.spec.blockSize_ge
  rcases h.block_cases hx hx' with he | he
  · exact ⟨he.1, he.2.1⟩
  · omega

/-- A block lies outside the segment of another descriptor. -/
theorem RegionInv.block_outside {cfg : Cfg} {s : State} {alloced : List Nat}
    (h : RegionInv cfg s alloced) {d c x d' : Nat} {seg' : Segment} (hx : BlockOf cfg s d c x)
    (ho : Owns s d' seg') (hne : d ≠ d') : 0 < (cfg.sizeClass c).blockSize ∧
      (x + (cfg.sizeClass c).blockSize ≤ seg'.ptr ∨ seg'.ptr + seg'.length ≤ x) := by
  obtain ⟨seg, f⟩ := h.blockFacts hx
  have hap := h.apart f.owns ho hne
  rw [Segment.Apart, f.super.regionLen] at hap
  have := (regionLen_bounds seg'.length).1
  have := f.lo
  have := f.hi
  have := f.spec.blockSize_ge
  omega

/-- The descriptor of a block is not that of a large segment. -/
theorem BlockOf.ne_large {cfg : Cfg} {s : State} {d c x d' : Nat} (hx : BlockOf cfg s d c x)
    (hheap : (s.descs d').procHeap = none) : d ≠ d' := by
  obtain ⟨seg, -, hheap', -⟩ := hx
  intro hd
  subst hd
  rw [hheap'] at hheap
  cases hheap

/-- The first words of two blocks are the same word or apart. -/
theorem RegionInv.words_apart {cfg : Cfg} {s : State} {alloced : List Nat}
    (h : RegionInv cfg s alloced) {d c x d' c' y : Nat} (hx : BlockOf cfg s d c x)
    (hy : BlockOf cfg s d' c' y) (hne : x ≠ y) : WordsApart x y := by
  obtain ⟨seg, fx⟩ := h.blockFacts hx
  obtain ⟨seg', fy⟩ := h.blockFacts hy
  have := fx.spec.blockSize_ge
  have := fy.spec.blockSize_ge
  unfold WordsApart
  rcases h.block_cases hx hy with he | he
  · exact absurd he.2.2 hne
  · omega

/-- A live block lies in the segment of its descriptor and its page says so. -/
theorem RegionInv.live_seg {cfg : Cfg} {s : State} {alloced : List Nat}
    (h : RegionInv cfg s alloced) {place : Nat → Place} {e : Live} (he : LiveOk cfg s place e) :
    ∃ d seg, Owns s d seg ∧ getPageInfoForPtr s e.ptr = ⟨d⟩ ∧ seg.ptr ≤ e.ptr ∧ 0 < e.len ∧
      e.ptr + e.len ≤ seg.ptr + seg.length ∧ e.size ≤ e.len := by
  cases he with
  | @small d c hb hplace hlen hsize =>
    obtain ⟨seg, f⟩ := h.blockFacts hb
    have := f.spec.blockSize_ge
    have := f.hi
    refine ⟨d, seg, f.owns, f.page, f.lo, by omega, ?_, hsize⟩
    rw [f.super.length]
    omega
  | @large d seg howns hheap hlo hpos hend hsize hpage =>
    exact ⟨d, seg, howns, hpage, hlo, hpos, Nat.le_of_eq hend, hsize⟩

/-- A live block is not empty. -/
theorem RegionInv.live_pos {cfg : Cfg} {s : State} {alloced : List Nat}
    (h : RegionInv cfg s alloced) {place : Nat → Place} {e : Live} (he : LiveOk cfg s place e) :
    0 < e.len := by
  obtain ⟨-, -, -, -, -, hpos, -⟩ := h.live_seg he
  exact hpos

end Apfmalloc
