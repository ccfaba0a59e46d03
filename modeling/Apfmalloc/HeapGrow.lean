import Apfmalloc.HeapOps

/-!
# New segments and released ones keep the heap invariant

A refill and a large allocation both take a descriptor, map a segment, and let
the descriptor describe it (`AddsRegion`); they differ in what the new segment
becomes, the stack of a bin or one live block. Freeing a large block is the way
back. In each case the point is that the new segment touches no other: the
kernel mapped it apart from everything.
-/

namespace Apfmalloc

open Base

/-! ## Taking a descriptor and mapping a segment -/

theorem AllocFrame.sameOwners {s s' : State} (hf : AllocFrame s s')
    (hown : ∀ {d seg}, Owns s d seg → d ∈ s.carved) : SameOwners s s' := by
  have hsame : ∀ {d seg}, Owns s d seg → s'.descs d = s.descs d := fun hd => hf.descs _ (hown hd)
  refine ⟨fun d seg => ⟨fun hd => ?_, fun hd => ?_⟩, fun hd => by rw [hsame hd],
    fun hd => by rw [hsame hd], fun hd => by rw [hsame hd]⟩
  · by_cases hc : d ∈ s.carved
    · rw [Owns, hf.descs d hc] at hd
      exact hd
    · rcases hf.fresh d hc with he | he
      · rw [Owns, he] at hd
        exact hd
      · rw [Owns, he] at hd
        cases hd
  · rw [Owns, hsame hd]
    exact hd

/-- **`Descriptor::alloc`** changes nothing about the heap but the two lists of
descriptors. -/
theorem HeapInv.allocDesc {cfg : Cfg} {os : Os} {s s' : State} {H : Heap} {live : List Live}
    {d : Nat} (h : HeapInv cfg s H live) (halloc : Descriptor.alloc cfg os s = some (d, s')) :
    ∃ free', HeapInv cfg s' { H with alloced := d :: H.alloced, freeDescs := free' } live ∧
      d ∉ H.alloced ∧ AllocFrame s s' ∧ SameOwners s s' := by
  obtain ⟨hd, hf, free', hdesc⟩ := h.desc.alloc halloc
  have hcarved : ∀ {d seg}, Owns s d seg → d ∈ s.carved := fun ho =>
    h.desc.alloced_carved (h.region.alloced ho)
  have ho := hf.sameOwners hcarved
  refine ⟨free', ⟨hdesc, ?_, ?_⟩, hd, hf, ho⟩
  · refine h.region.frame ho hf.pageMap (fun _ hx => List.mem_cons_of_mem _ hx)
      (fun hd => hf.mapped _ (h.region.mapped hd)) fun x hx => ?_
    exact (hf.carvedOut x hx).imp id fun hout _ _ hd => hout _ (h.region.mapped hd)
  · refine h.block.frame ho rfl rfl rfl hf.threadCache
      (fun hd => by rw [hf.descs _ (hcarved hd)]) (fun _ _ _ _ => by rw [hf.pageMap]) ?_
    intro c x hb _
    obtain ⟨d', hb⟩ := hb
    obtain ⟨seg, f⟩ := h.region.blockFacts hb
    have hbs := f.spec.blockSize_ge
    have hlo := f.lo
    have hhi := f.hi
    rw [← f.super.regionLen] at hhi
    exact readWord_congr fun i hi =>
      hf.mem seg (h.region.mapped f.owns) (x + i) (by omega) (by omega)

/-- **A new mapping** is apart from every segment, so zeroing it changes no
list. -/
theorem HeapInv.map {cfg : Cfg} {s : State} {H : Heap} {live : List Live} {seg : Segment}
    (h : HeapInv cfg s H live) (hapart : ∀ sg ∈ s.mapped, seg.Apart sg) :
    HeapInv cfg { s with mapped := seg :: s.mapped,
                         mem := zeroFill s.mem seg.ptr (regionLen seg.length) } H live := by
  refine ⟨h.desc.frame rfl (fun _ _ => rfl) rfl fun d _ hm => ?_,
    h.region.frame (.of_eq rfl) rfl (fun _ hd => hd)
      (fun hd => List.mem_cons_of_mem _ (h.region.mapped hd)) fun _ hx => Or.inl hx,
    h.block.frame (.of_eq rfl) rfl rfl rfl rfl (fun _ => rfl) (fun _ _ _ _ => rfl) ?_⟩
  · obtain ⟨sg, hsg, hin⟩ := hm
    exact ⟨sg, List.mem_cons_of_mem _ hsg, hin⟩
  · intro c x hb _
    obtain ⟨d, hb⟩ := hb
    obtain ⟨sg, f⟩ := h.region.blockFacts hb
    have hbs := f.spec.blockSize_ge
    have hlo := f.lo
    have hhi := f.hi
    have hap := hapart sg (h.region.mapped f.owns)
    rw [Segment.Apart, f.super.regionLen] at hap
    exact readWord_zeroFill_ne (by omega)

/-! ## A descriptor comes to own a segment -/

/-- From `s` to `s'` descriptor `d` came to own the mapped segment `seg`, which no
other descriptor owns and no descriptor lies in; only entries of its pages and
bytes of it changed. -/
structure AddsRegion (s s' : State) (d : Nat) (seg : Segment) : Prop where
  new : ∀ sg, ¬Owns s d sg
  owns : Owns s' d seg
  descs : ∀ d', d' ≠ d → s'.descs d' = s.descs d'
  nextFree : (s'.descs d).nextFree = (s.descs d).nextFree
  valid : seg.Valid
  segMapped : seg ∈ s.mapped
  apart : ∀ {d' sg}, Owns s d' sg → seg.Apart sg
  carvedOut : ∀ x ∈ s.carved, x < seg.ptr ∨ seg.ptr + regionLen seg.length ≤ x
  mapped : s'.mapped = s.mapped
  carved : s'.carved = s.carved
  availableDesc : s'.availableDesc = s.availableDesc
  pageMap : ∀ k, ¬PageOf seg.ptr (regionLen seg.length) k → s'.pageMap k = s.pageMap k
  mem : ∀ a, a < seg.ptr ∨ seg.ptr + regionLen seg.length ≤ a → s'.mem a = s.mem a

theorem AddsRegion.owns_cases {s s' : State} {d : Nat} {seg : Segment} (h : AddsRegion s s' d seg)
    {d' : Nat} {sg : Segment} (ho : Owns s' d' sg) : (d' = d ∧ sg = seg) ∨ (d' ≠ d ∧ Owns s d' sg) := by
  by_cases hd : d' = d
  · subst hd
    exact Or.inl ⟨rfl, ho.unique h.owns⟩
  · rw [Owns, h.descs d' hd] at ho
    exact Or.inr ⟨hd, ho⟩

theorem AddsRegion.owns_old {s s' : State} {d : Nat} {seg : Segment} (h : AddsRegion s s' d seg)
    {d' : Nat} {sg : Segment} (ho : Owns s d' sg) : d' ≠ d ∧ Owns s' d' sg := by
  have hd : d' ≠ d := fun he => h.new sg (he ▸ ho)
  rw [Owns, h.descs d' hd]
  exact ⟨hd, ho⟩

/-- The page of an address in another segment keeps its entry. -/
theorem AddsRegion.pageMap_out {s s' : State} {d : Nat} {seg : Segment}
    (h : AddsRegion s s' d seg) {d' : Nat} {sg : Segment} (ho : Owns s d' sg) (hv : sg.Valid)
    {k : Nat} (hk : PageOf sg.ptr (regionLen sg.length) k) : s'.pageMap k = s.pageMap k :=
  h.pageMap k fun hk' => pageOf_disjoint h.valid.aligned hv.aligned (regionLen_mod _)
    (regionLen_mod _) h.valid.bound hv.bound (h.apart ho) hk' hk

theorem AddsRegion.descInv {s s' : State} {d : Nat} {seg : Segment} (h : AddsRegion s s' d seg)
    {alloced free : List Nat} (hd : DescInv s alloced free) : DescInv s' alloced free := by
  refine hd.frame h.availableDesc (fun d' _ => ?_) h.carved fun d' _ hm => ?_
  · by_cases he : d' = d
    · subst he
      exact h.nextFree
    · rw [h.descs d' he]
  · unfold InMapped
    rw [h.mapped]
    exact hm

theorem AddsRegion.regionInv {cfg : Cfg} {s s' : State} {d : Nat} {seg : Segment}
    (h : AddsRegion s s' d seg) {alloced : List Nat} (hr : RegionInv cfg s alloced)
    (hd : d ∈ alloced)
    (hsmall : ∀ c, (s'.descs d).procHeap = some c → SuperOk cfg s' d seg c)
    (hlarge : (s'.descs d).procHeap = none →
      maxSz < seg.length ∧ (s'.descs d).blockSize = seg.length) :
    RegionInv cfg s' alloced := by
  refine ⟨?_, ?_, ?_, ?_, ?_, ?_, ?_⟩
  · intro d' sg ho
    rcases h.owns_cases ho with ⟨rfl, rfl⟩ | ⟨-, ho⟩
    · exact hd
    · exact hr.alloced ho
  · intro d' sg ho
    rcases h.owns_cases ho with ⟨rfl, rfl⟩ | ⟨-, ho⟩
    · exact h.valid
    · exact hr.valid ho
  · intro d' sg ho
    rw [h.mapped]
    rcases h.owns_cases ho with ⟨rfl, rfl⟩ | ⟨-, ho⟩
    · exact h.segMapped
    · exact hr.mapped ho
  · intro d₁ sg₁ d₂ sg₂ h₁ h₂ hne
    rcases h.owns_cases h₁ with ⟨rfl, rfl⟩ | ⟨-, h₁⟩
    · rcases h.owns_cases h₂ with ⟨rfl, rfl⟩ | ⟨-, h₂⟩
      · exact absurd rfl hne
      · exact h.apart h₂
    · rcases h.owns_cases h₂ with ⟨rfl, rfl⟩ | ⟨-, h₂⟩
      · exact (h.apart h₁).symm
      · exact hr.apart h₁ h₂ hne
  · intro d' sg ho
    rw [h.carved]
    rcases h.owns_cases ho with ⟨rfl, rfl⟩ | ⟨-, ho⟩
    · exact h.carvedOut
    · exact hr.carved ho
  · intro d' sg c ho hheap
    rcases h.owns_cases ho with ⟨rfl, rfl⟩ | ⟨hne, ho⟩
    · exact hsmall c hheap
    · rw [h.descs d' hne] at hheap
      have hs := hr.small ho hheap
      refine ⟨hs.one_le, hs.lt, hs.length, ?_, ?_, fun k hk => ?_⟩
      · rw [h.descs d' hne]
        exact hs.blockSize
      · rw [h.descs d' hne]
        exact hs.maxCount
      · rw [h.pageMap_out ho (hr.valid ho) (by rw [hs.regionLen]; exact hk)]
        exact hs.pages k hk
  · intro d' sg ho hheap
    rcases h.owns_cases ho with ⟨rfl, rfl⟩ | ⟨hne, ho⟩
    · exact hlarge hheap
    · rw [h.descs d' hne] at hheap ⊢
      exact hr.large ho hheap

/-- Blocks of other superblocks are what they were. -/
theorem AddsRegion.blockOf_other {cfg : Cfg} {s s' : State} {d : Nat} {seg : Segment}
    (h : AddsRegion s s' d seg) {d' c x : Nat} (hne : d' ≠ d) :
    BlockOf cfg s' d' c x ↔ BlockOf cfg s d' c x := by
  unfold BlockOf Owns
  rw [h.descs d' hne]

theorem AddsRegion.blockOf_old {cfg : Cfg} {s s' : State} {d : Nat} {seg : Segment}
    (h : AddsRegion s s' d seg) {d' c x : Nat} (hb : BlockOf cfg s d' c x) :
    d' ≠ d ∧ BlockOf cfg s' d' c x := by
  have hb' := hb
  obtain ⟨sg, ho, -⟩ := hb'
  have hne := (h.owns_old ho).1
  exact ⟨hne, (h.blockOf_other hne).mpr hb⟩

/-- A block of another superblock is outside the new segment, and so is its word. -/
theorem AddsRegion.block_out {cfg : Cfg} {s s' : State} {d : Nat} {seg : Segment}
    (h : AddsRegion s s' d seg) {alloced : List Nat} (hr : RegionInv cfg s alloced) {d' c x : Nat}
    (hb : BlockOf cfg s d' c x) :
    (x + (cfg.sizeClass c).blockSize ≤ seg.ptr ∨ seg.ptr + regionLen seg.length ≤ x) ∧
      readWord s'.mem x = readWord s.mem x := by
  obtain ⟨sg, f⟩ := hr.blockFacts hb
  have hbs := f.spec.blockSize_ge
  have hlo := f.lo
  have hhi := f.hi
  have hap := h.apart f.owns
  rw [Segment.Apart, f.super.regionLen] at hap
  have hout : x + (cfg.sizeClass c).blockSize ≤ seg.ptr ∨ seg.ptr + regionLen seg.length ≤ x := by
    omega
  exact ⟨hout, readWord_congr fun i hi => h.mem (x + i) (by omega)⟩

/-- Live blocks stay live, outside the new segment. -/
theorem AddsRegion.liveOk {cfg : Cfg} {s s' : State} {d : Nat} {seg : Segment}
    (h : AddsRegion s s' d seg) {alloced : List Nat} (hr : RegionInv cfg s alloced)
    {place place' : Nat → Place} {e : Live} (he : LiveOk cfg s place e)
    (hplace : ∀ c, IsBlock cfg s c e.ptr → place' e.ptr = place e.ptr) :
    LiveOk cfg s' place' e ∧
      (e.ptr + e.len ≤ seg.ptr ∨ seg.ptr + regionLen seg.length ≤ e.ptr) := by
  cases he with
  | @small d' c hb hp hlen hsize =>
    refine ⟨.small (h.blockOf_old hb).2 ((hplace c ⟨d', hb⟩).trans hp) hlen hsize, ?_⟩
    rw [hlen]
    exact (h.block_out hr hb).1
  | @large d' sg ho hheap hlo hpos hend hsize hpage =>
    obtain ⟨hne, ho'⟩ := h.owns_old ho
    have hb := (regionLen_bounds sg.length).1
    refine ⟨.large ho' (by rw [h.descs d' hne]; exact hheap) hlo hpos hend hsize ?_, ?_⟩
    · rw [h.pageMap_out ho (hr.valid ho) ⟨e.ptr, hlo, by omega, rfl⟩]
      exact hpage
    · have hap := h.apart ho
      unfold Segment.Apart at hap
      omega

/-! ## A new superblock -/

def Heap.addSuper (H : Heap) (t c d : Nat) (blocks : List Nat) : Heap :=
  { H.setBin t c blocks with
    place := fun y => if y ∈ blocks then .bin t else H.place y
    frees := fun d' => if d' = d then [] else H.frees d' }

/-- The blocks of the superblock of `d`, in address order. -/
theorem blockOf_stride {cfg : Cfg} {s : State} {d c x : Nat} {seg : Segment} (ho : Owns s d seg)
    (hheap : (s.descs d).procHeap = some c) :
    BlockOf cfg s d c x ↔
      x ∈ strideList seg.ptr (cfg.sizeClass c).blockSize (cfg.sizeClass c).blockNum := by
  rw [mem_strideList]
  constructor
  · intro hb
    obtain ⟨sg, ho', -, hi⟩ := hb
    rw [← ho'.unique ho]
    exact hi
  · intro hi
    exact ⟨seg, ho, hheap, hi⟩

/-- The blocks of the new state are the old ones and the new superblock's. -/
theorem AddsRegion.isBlock_iff {cfg : Cfg} {s s' : State} {d c c' x : Nat} {seg : Segment}
    (ha : AddsRegion s s' d seg) (hheap : (s'.descs d).procHeap = some c) :
    IsBlock cfg s' c' x ↔ IsBlock cfg s c' x ∨
      (c' = c ∧ x ∈ strideList seg.ptr (cfg.sizeClass c).blockSize (cfg.sizeClass c).blockNum) := by
  constructor
  · intro hb
    obtain ⟨d', hb⟩ := hb
    by_cases hne : d' = d
    · subst hne
      have hb' := hb
      obtain ⟨sg, -, hheap', -⟩ := hb'
      rw [hheap] at hheap'
      cases hheap'
      exact Or.inr ⟨rfl, (blockOf_stride ha.owns hheap).mp hb⟩
    · exact Or.inl ⟨d', (ha.blockOf_other hne).mp hb⟩
  · intro hb
    rcases hb with ⟨d', hb⟩ | ⟨rfl, hx⟩
    · exact ⟨d', (ha.blockOf_old hb).2⟩
    · exact ⟨d, (blockOf_stride ha.owns hheap).mpr hx⟩

theorem HeapInv.addSuper {cfg : Cfg} {s s' : State} {H : Heap} {live : List Live} {t c d : Nat}
    {seg : Segment} (h : HeapInv cfg s H live) (hd : d ∈ H.alloced) (ha : AddsRegion s s' d seg)
    (hheap : (s'.descs d).procHeap = some c) (hsuper : SuperOk cfg s' d seg c)
    (hav : (s'.descs d).anchor.avail = (cfg.sizeClass c).blockNum) (hbin : H.bins t c = [])
    (htc : ∀ t' c', ¬(t' = t ∧ c' = c) → s'.threadCache t' c' = s.threadCache t' c')
    (hholds : Holds cfg.noMetStack s'.mem (s'.threadCache t c)
      (strideList seg.ptr (cfg.sizeClass c).blockSize (cfg.sizeClass c).blockNum)) :
    HeapInv cfg s' (H.addSuper t c d
      (strideList seg.ptr (cfg.sizeClass c).blockSize (cfg.sizeClass c).blockNum)) live := by
  have hspec := cfg.classSpec hsuper.one_le hsuper.lt
  have hr' : RegionInv cfg s' H.alloced := ha.regionInv h.region hd
    (fun c' hc' => by rw [hheap] at hc'; cases hc'; exact hsuper)
    (fun hn => by rw [hheap] at hn; cases hn)
  generalize hbs : strideList seg.ptr (cfg.sizeClass c).blockSize (cfg.sizeClass c).blockNum =
    blocks at hholds
  have hnew : ∀ x, BlockOf cfg s' d c x ↔ x ∈ blocks := fun x => hbs ▸ blockOf_stride ha.owns hheap
  have hold : ∀ {c' x}, IsBlock cfg s c' x → x ∉ blocks := by
    intro c' x hb hx
    obtain ⟨d', hb⟩ := hb
    obtain ⟨hne, hb'⟩ := ha.blockOf_old hb
    exact hne (hr'.block_unique hb' ((hnew x).mpr hx)).1
  have hblock : ∀ c' x, IsBlock cfg s' c' x ↔ IsBlock cfg s c' x ∨ (c' = c ∧ x ∈ blocks) :=
    fun c' x => hbs ▸ ha.isBlock_iff hheap
  have hplace : ∀ {c' x}, IsBlock cfg s c' x →
      (H.addSuper t c d blocks).place x = H.place x := fun hb => if_neg (hold hb)
  -- The old blocks are where they were, the new ones are in the bin.
  refine ⟨ha.descInv h.desc, hr', ?_, ?_, ?_, ?_, ?_, ?_, ?_, ?_, h.block.liveApart⟩
  · refine Heap.setBin_forall hholds fun t' c' htc' => ?_
    rw [htc t' c' htc']
    refine (h.block.holds t' c').frame fun x hx => ?_
    obtain ⟨-, d', hb⟩ := (h.block.binMem t' c' x).mp hx
    exact (ha.block_out h.region hb).2.symm
  · refine Heap.setBin_forall ?_ fun t' c' _ => h.block.binNodup t' c'
    rw [← hbs]
    exact strideList_nodup (Nat.lt_of_lt_of_le (by decide) hspec.blockSize_ge) _
  · refine h.block.binMem_fill hbin (fun x hx => ?_) fun x hx c' => ?_
    · refine ⟨fun c' => ?_, fun t' c' hm => hold ((h.block.binMem t' c' x).mp hm).2 hx⟩
      rw [hblock]
      exact ⟨fun hb => hb.elim (fun hb => absurd hx (hold hb)) And.left, fun hc => Or.inr ⟨hc, hx⟩⟩
    · rw [hblock]
      exact or_iff_left fun hm => hx hm.2
  · intro d' sg c' ho hheap'
    show ChainTo _ _ (if d' = d then [] else H.frees d') _
    rcases ha.owns_cases ho with ⟨rfl, rfl⟩ | ⟨hne, ho⟩
    · rw [hheap] at hheap'
      cases hheap'
      rw [if_pos rfl, hav]
      exact rfl
    · rw [ha.descs d' hne] at hheap' ⊢
      rw [if_neg hne]
      refine (h.block.freeChain ho hheap').congr fun x hx => ?_
      exact (ha.block_out h.region ((h.block.freeMem ho hheap' x).mp hx).2).2.symm
  · intro d' sg c' ho hheap'
    show (if d' = d then [] else H.frees d').Nodup
    rcases ha.owns_cases ho with ⟨rfl, rfl⟩ | ⟨hne, ho⟩
    · rw [if_pos rfl]
      exact List.nodup_nil
    · rw [ha.descs d' hne] at hheap'
      rw [if_neg hne]
      exact h.block.freeNodup ho hheap'
  · intro d' sg c' ho hheap' x
    show x ∈ (if d' = d then [] else H.frees d') ↔ _
    rcases ha.owns_cases ho with ⟨rfl, rfl⟩ | ⟨hne, ho⟩
    · rw [hheap] at hheap'
      cases hheap'
      rw [if_pos rfl, hnew]
      refine ⟨fun hm => absurd hm List.not_mem_nil, fun hp => ?_⟩
      obtain ⟨hp, hm⟩ := hp
      rw [show (H.addSuper t c d' blocks).place x = .bin t from if_pos hm] at hp
      cases hp
    · rw [ha.descs d' hne] at hheap'
      rw [if_neg hne, ha.blockOf_other hne, h.block.freeMem ho hheap' x]
      refine ⟨fun hp => ⟨(hplace ⟨d', hp.2⟩).trans hp.1, hp.2⟩,
        fun hp => ⟨(hplace ⟨d', hp.2⟩).symm.trans hp.1, hp.2⟩⟩
  · intro e he
    exact (ha.liveOk h.region (h.block.liveOk e he) fun _ hb => hplace hb).1
  · intro c' x hb hp
    rcases (hblock c' x).mp hb with hb | ⟨-, hx⟩
    · rw [hplace hb] at hp
      exact h.block.liveAll c' x hb hp
    · rw [show (H.addSuper t c d blocks).place x = .bin t from if_pos hx] at hp
      cases hp

/-! ## A new large block -/

/-- A large segment has no blocks. -/
theorem AddsRegion.blockOf_large {cfg : Cfg} {s s' : State} {d : Nat} {seg : Segment}
    (h : AddsRegion s s' d seg) (hheap : (s'.descs d).procHeap = none) (d' c x : Nat) :
    BlockOf cfg s' d' c x ↔ BlockOf cfg s d' c x := by
  constructor
  · intro hb
    by_cases hne : d' = d
    · subst hne
      obtain ⟨sg, -, hheap', -⟩ := hb
      rw [hheap] at hheap'
      cases hheap'
    · exact (h.blockOf_other hne).mp hb
  · exact fun hb => (h.blockOf_old hb).2

theorem AddsRegion.isBlock_large {cfg : Cfg} {s s' : State} {d : Nat} {seg : Segment}
    (h : AddsRegion s s' d seg) (hheap : (s'.descs d).procHeap = none) (c x : Nat) :
    IsBlock cfg s' c x ↔ IsBlock cfg s c x := by
  unfold IsBlock
  simp only [h.blockOf_large hheap]

theorem HeapInv.addLarge {cfg : Cfg} {s s' : State} {H : Heap} {live : List Live} {d : Nat}
    {seg : Segment} {e : Live} (h : HeapInv cfg s H live) (hd : d ∈ H.alloced)
    (ha : AddsRegion s s' d seg) (hheap : (s'.descs d).procHeap = none)
    (hlen : maxSz < seg.length) (hbs : (s'.descs d).blockSize = seg.length)
    (htc : s'.threadCache = s.threadCache) (hlo : seg.ptr ≤ e.ptr) (hpos : 0 < e.len)
    (hend : e.ptr + e.len = seg.ptr + seg.length) (hsize : e.size ≤ e.len)
    (hpage : s'.pageMap (addrToKey e.ptr) = ⟨d⟩) : HeapInv cfg s' H (e :: live) := by
  have hr' : RegionInv cfg s' H.alloced := ha.regionInv h.region hd
    (fun c' hc' => by rw [hheap] at hc'; cases hc') (fun _ => ⟨hlen, hbs⟩)
  have hblockOf : ∀ d' c x, BlockOf cfg s' d' c x ↔ BlockOf cfg s d' c x :=
    fun d' c x => ha.blockOf_large hheap d' c x
  have hblock : ∀ c x, IsBlock cfg s' c x ↔ IsBlock cfg s c x := ha.isBlock_large hheap
  refine ⟨ha.descInv h.desc, hr', ?_, h.block.binNodup, ?_, ?_, ?_, ?_, ?_, ?_, ?_⟩
  · intro t c
    rw [htc]
    refine (h.block.holds t c).frame fun x hx => ?_
    obtain ⟨-, d', hb⟩ := (h.block.binMem t c x).mp hx
    exact (ha.block_out h.region hb).2.symm
  · intro t c x
    rw [hblock]
    exact h.block.binMem t c x
  · intro d' sg c ho hheap'
    rcases ha.owns_cases ho with ⟨rfl, rfl⟩ | ⟨hne, ho⟩
    · rw [hheap] at hheap'
      cases hheap'
    · rw [ha.descs d' hne] at hheap' ⊢
      refine (h.block.freeChain ho hheap').congr fun x hx => ?_
      exact (ha.block_out h.region ((h.block.freeMem ho hheap' x).mp hx).2).2.symm
  · intro d' sg c ho hheap'
    rcases ha.owns_cases ho with ⟨rfl, rfl⟩ | ⟨hne, ho⟩
    · rw [hheap] at hheap'
      cases hheap'
    · rw [ha.descs d' hne] at hheap'
      exact h.block.freeNodup ho hheap'
  · intro d' sg c ho hheap' x
    rcases ha.owns_cases ho with ⟨rfl, rfl⟩ | ⟨hne, ho⟩
    · rw [hheap] at hheap'
      cases hheap'
    · rw [ha.descs d' hne] at hheap'
      rw [hblockOf]
      exact h.block.freeMem ho hheap' x
  · intro e' he'
    rcases List.mem_cons.mp he' with rfl | he'
    · exact .large ha.owns hheap hlo hpos hend hsize hpage
    · exact (ha.liveOk h.region (h.block.liveOk e' he') fun _ _ => rfl).1
  · intro c x hb hp
    obtain ⟨e', he', hptr⟩ := h.block.liveAll c x ((hblock c x).mp hb) hp
    exact ⟨e', List.mem_cons_of_mem _ he', hptr⟩
  · refine List.pairwise_cons.mpr ⟨fun e' he' => ?_, h.block.liveApart⟩
    have hout := (ha.liveOk h.region (h.block.liveOk e' he') fun _ _ => rfl).2
    have hreg := (regionLen_bounds seg.length).1
    unfold Live.Apart
    omega

end Apfmalloc
