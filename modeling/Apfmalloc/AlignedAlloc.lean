import Apfmalloc.LargeAlloc
import Apfmalloc.Refill
import Apfmalloc.Kernel

/-!
# `do_aligned_alloc` aligns

Nothing in the code checks that a block is aligned. For a request of at most a page it
is so because of the size classes: the least class that holds a multiple of `2^k` has a
block size that is a multiple of `2^k`, and superblocks start at pages. For a larger
one the segment is long enough to move the pointer up to the alignment.
-/

namespace Apfmalloc

open Base

/-! ## The classes respect alignments -/

/-- Between a class and the class before it there is no multiple of `2^k` unless the block
size is one itself. -/
theorem classBlockSize_step : ∀ c < 40, 1 ≤ c → ∀ k < 13,
    classBlockSize c % 2 ^ k = 0 ∨
      classBlockSize c / 2 ^ k * 2 ^ k ≤ if c = 1 then 0 else classBlockSize (c - 1) := by
  decide +kernel

/-- **The class of a multiple of `2^k`** has blocks of such a size. -/
theorem classBlockSize_dvd {size k : Nat} (hk : k ≤ 12) (hsize : size ≤ maxSz) (hpos : 0 < size)
    (hmod : size % 2 ^ k = 0) : 2 ^ k ∣ classBlockSize (getSizeClass size) := by
  obtain ⟨⟨h1, hle, hleast⟩, h2⟩ := getSizeClass_least hsize
  generalize getSizeClass size = c at *
  have hprev : c ≠ 1 → classBlockSize (c - 1) < size :=
    fun hc => hleast (c - 1) (by omega) (by omega)
  rcases classBlockSize_step c h2 h1 k (by omega) with hz | hstep
  · exact Nat.dvd_of_mod_eq_zero hz
  · -- the request is a multiple in between
    have hge : size ≤ classBlockSize c / 2 ^ k * 2 ^ k := by
      obtain ⟨q, rfl⟩ := Nat.dvd_of_mod_eq_zero hmod
      rw [Nat.mul_comm _ q] at hle ⊢
      exact Nat.mul_le_mul_right _ ((Nat.le_div_iff_mul_le (Nat.two_pow_pos k)).mpr hle)
    split at hstep
    next => omega
    next hc =>
      have := hprev hc
      omega

/-! ## Blocks of the cache -/

/-- `p` is a block of class `c` at a multiple of the block size from its superblock, and
the block is inside the superblock. -/
def BlockIn (cfg : Cfg) (mapped : List Segment) (c p : Nat) : Prop :=
  ∃ seg ∈ mapped, seg.Valid ∧ ∃ i, p = seg.ptr + i * (cfg.sizeClass c).blockSize ∧
    i * (cfg.sizeClass c).blockSize + (cfg.sizeClass c).blockSize ≤ seg.length

/-- A descriptor on the partial list of class `c` that has not been emptied: its free list
starts at a block. -/
structure Usable (cfg : Cfg) (s : State) (c d : Nat) (seg : Segment) : Prop where
  superBlock : (s.descs d).superBlock = some seg
  mapped : seg ∈ s.mapped
  valid : seg.Valid
  blockSize : (s.descs d).blockSize = (cfg.sizeClass c).blockSize
  avail : (s.descs d).anchor.avail ≤ (s.descs d).maxCount
  inside : (s.descs d).anchor.avail * (cfg.sizeClass c).blockSize +
    (cfg.sizeClass c).blockSize ≤ seg.length
  count : (s.descs d).anchor.count ≠ 0

structure ListOk (cfg : Cfg) (s : State) (c : Nat) (P : List Nat) : Prop where
  linked : PartialLinked s (s.partialList c) P
  nodup : P.Nodup
  addr : ∀ d ∈ P, DescAddr d
  usable : ∀ d ∈ P, (s.descs d).anchor.state ≠ .empty → ∃ seg, Usable cfg s c d seg

/-- The bin of thread `t` for class `c`, and what a refill of it may find, are blocks. -/
structure CacheOk (cfg : Cfg) (s : State) (t c : Nat) : Prop where
  bin : (s.threadCache t c).blockNum ≠ 0 → BlockIn cfg s.mapped c (s.threadCache t c).block
  list : ∃ P, ListOk cfg s c P ∧ P.length ≤ s.carved.length

section
variable {cfg : Cfg} {os : Os} {s s' : State} {t c : Nat}

theorem BlockOf.blockIn {H : Heap} {live : List Live} {d p : Nat} (h : HeapInv cfg s H live)
    (hb : BlockOf cfg s d c p) : BlockIn cfg s.mapped c p := by
  obtain ⟨seg, f⟩ := h.region.blockFacts hb
  obtain ⟨i, -, hp⟩ := f.index
  refine ⟨seg, h.region.mapped f.owns, f.valid, i, hp, ?_⟩
  have := f.hi
  have := f.super.length
  omega

/-- **The heap and the anchors keep the cache in order.** -/
theorem PartialInv.cacheOk {H : Heap} {live : List Live} {P : Nat → List Nat}
    (h : PartialInv cfg s H P) (hi : HeapInv cfg s H live) (t c : Nat) : CacheOk cfg s t c := by
  refine ⟨fun hne => ?_, P c, ⟨h.linked c, h.nodup c, fun d hd => h.addr hi hd,
    fun d hd hst => ?_⟩, h.length_le hi c⟩
  · have hholds := hi.block.holds t c
    cases hl : H.bins t c with
    | nil =>
      rw [hl] at hholds
      exact absurd hholds.num hne
    | cons x l =>
      rw [hl] at hholds
      obtain ⟨-, d, hb⟩ := (hi.block.binMem t c x).mp (by rw [hl]; exact List.mem_cons_self ..)
      rw [hholds.block_eq]
      exact hb.blockIn hi
  · have hl := h.listed c d hd
    rcases hl.state with ⟨hpart, seg, ho⟩ | ⟨hempty, -⟩
    · have hs := hi.region.small ho hl.heap
      have hspec := cfg.classSpec hs.one_le hs.lt
      have hex := h.owner ho hl.heap
      have hfne : H.frees d ≠ [] := by
        rcases hex.state with ⟨hf, -⟩ | ⟨-, hf, -⟩
        · rw [hpart] at hf
          cases hf
        · exact hf
      -- the head of the free list is a block, which ends inside the superblock
      have hlt := hi.avail_block ho hl.heap hfne
      have hmul := mul_succ_le (b := (cfg.sizeClass c).blockSize) hlt
      refine ⟨seg, ho, hi.region.mapped ho, hi.region.valid ho, hs.blockSize, ?_, ?_, ?_⟩
      · rw [hs.maxCount]
        omega
      · rw [hs.length, hspec.sbSize_eq]
        exact hmul
      · rw [hex.count]
        exact fun h0 => hfne (List.length_eq_zero_iff.mp h0)
    · exact absurd hempty hst

/-- What a refill from the partial list ends with. -/
structure FromPartial (cfg : Cfg) (t c n : Nat) (s s' : State) : Prop where
  mapped : s'.mapped = s.mapped
  none : n = 0 → s'.threadCache = s.threadCache
  some : n ≠ 0 → (s'.threadCache t c).blockNum ≠ 0 ∧
    BlockIn cfg s'.mapped c (s'.threadCache t c).block

/-- Taking an emptied descriptor off the list leaves the rest of it alone. -/
theorem ListOk.retire {d : Nat} {l : List Nat} {head : Option DescriptorNode}
    (h : ListOk cfg s c (d :: l)) (hhead : PartialLinked s head l) :
    ListOk cfg (Descriptor.retire d (s.setPartialList c head)) c l := by
  obtain ⟨hd, hnd⟩ := List.nodup_cons.mp h.nodup
  -- the list has no descriptor twice, so the rest does not see the retired one change
  have hsame : ∀ d' ∈ l, (Descriptor.retire d (s.setPartialList c head)).descs d' = s.descs d' := by
    intro d' hd'
    have hne : d' ≠ d := fun he => hd (he ▸ hd')
    rw [retire_other _ hne, setPartialList_descs]
  refine ⟨?_, hnd, fun d' hd' => h.addr d' (List.mem_cons_of_mem _ hd'), fun d' hd' hne => ?_⟩
  · have hlist : (Descriptor.retire d (s.setPartialList c head)).partialList c = head := by
      exact if_pos rfl
    rw [hlist]
    exact hhead.congr fun d' hd' => by rw [hsame d' hd']
  · rw [hsame d' hd'] at hne
    obtain ⟨seg, hu⟩ := h.usable d' (List.mem_cons_of_mem _ hd') hne
    exact ⟨seg, by rw [hsame d' hd']; exact hu.superBlock, hu.mapped, hu.valid,
      by rw [hsame d' hd']; exact hu.blockSize, by rw [hsame d' hd']; exact hu.avail,
      by rw [hsame d' hd']; exact hu.inside, by rw [hsame d' hd']; exact hu.count⟩

/-- The loop of `malloc_from_partial`, by induction on the list: emptied descriptors are
retired, the first other one gives a block. -/
theorem ListOk.loop : ∀ (P : List Nat) {s : State} (fuel : Nat), ListOk cfg s c P →
    (s.threadCache t c).blockNum = 0 → P.length < fuel →
    ∃ n s', mallocFromPartialLoop t c fuel s = some (n, s') ∧ FromPartial cfg t c n s s' := by
  intro P
  induction P with
  | nil =>
    intro s fuel h _ hlt
    rw [List.length_nil] at hlt
    obtain ⟨fuel, rfl⟩ : ∃ k, fuel = k + 1 := ⟨fuel - 1, by omega⟩
    refine ⟨0, s, mallocFromPartialLoop_none (listPopPartial_none h.linked), rfl, fun _ => rfl,
      fun hne => absurd rfl hne⟩
  | cons d l ih =>
    intro s fuel h hnum hlt
    obtain ⟨fuel, rfl⟩ : ∃ k, fuel = k + 1 := ⟨fuel - 1, by omega⟩
    rw [List.length_cons] at hlt
    obtain ⟨head, hpop, hhead⟩ := h.linked.pop fun x hx => h.addr x (List.mem_cons_of_mem _ hx)
    -- an EMPTY descriptor costs a round and no block
    by_cases hempty : (s.descs d).anchor.state = .empty
    · obtain ⟨n, s', hloop, hf⟩ := ih fuel (h.retire hhead) hnum (by omega)
      exact ⟨n, s', (mallocFromPartialLoop_retire hpop hempty).trans hloop, hf.mapped, hf.none,
        hf.some⟩
    · obtain ⟨seg, hu⟩ := h.usable d (List.mem_cons_self ..) hempty
      refine ⟨1, _, mallocFromPartialLoop_takes hpop hempty hu.superBlock hu.avail hnum, rfl,
        fun he => absurd he Nat.one_ne_zero, fun _ => ?_⟩
      rw [setBin_same]
      refine ⟨hu.count, seg, hu.mapped, hu.valid, (s.descs d).anchor.avail, ?_, hu.inside⟩
      rw [← hu.blockSize]
      rfl

/-- A new superblock is full of blocks. -/
theorem mallocFromNewSb_blockIn {n : Nat} (h1 : 1 ≤ c) (h2 : c < maxSzIdx)
    (h : mallocFromNewSb cfg os t c s = some (n, s')) :
    n ≠ 0 ∧ (∀ seg ∈ s.mapped, seg ∈ s'.mapped) ∧ (s'.threadCache t c).blockNum ≠ 0 ∧
      BlockIn cfg s'.mapped c (s'.threadCache t c).block := by
  have hspec := cfg.classSpec h1 h2
  have hnum := hspec.blockNum_ge
  obtain ⟨d, s₁, seg, halloc, rfl, hlen, hvalid, -, -, -, rfl⟩ := newSuperBlock_cases h
  obtain ⟨-, -, hmapped⟩ := alloc_pageMap halloc
  refine ⟨by omega, fun sg hsg => List.mem_cons_of_mem _ (hmapped sg hsg), ?_, ?_⟩
  · simp only [and_self, if_true]
    omega
  · simp only [and_self, if_true]
    refine ⟨seg, List.mem_cons_self .., hvalid, 0, by omega, ?_⟩
    rw [hlen, hspec.sbSize_eq, Nat.zero_mul, Nat.zero_add]
    exact Nat.le_mul_of_pos_right _ (by omega)

/-- **A fill** leaves a block on top. -/
theorem CacheOk.fill (h : CacheOk cfg s t c) (h1 : 1 ≤ c) (h2 : c < maxSzIdx)
    (hnum : (s.threadCache t c).blockNum = 0) :
    (∀ s', fillCache cfg os t c s = some s' → (∀ seg ∈ s.mapped, seg ∈ s'.mapped) ∧
      (s'.threadCache t c).blockNum ≠ 0 ∧ BlockIn cfg s'.mapped c (s'.threadCache t c).block) ∧
    (os.grants s.mapped [descriptorBlockSz, (cfg.sizeClass c).sbSize] = true →
      (fillCache cfg os t c s).isSome) := by
  obtain ⟨P, hlist, hlen⟩ := h.list
  obtain ⟨n, s₁, hpart, hf⟩ := hlist.loop P (s.carved.length + 1) hnum (by omega)
  have hmp : mallocFromPartial t c s = some (n, s₁) := hpart
  unfold fillCache
  rw [hmp]
  simp only [Option.bind_eq_bind, Option.bind_some]
  by_cases hz : n = 0
  · -- nothing usable on the list
    subst hz
    have htc := hf.none rfl
    simp only [if_true]
    constructor
    · intro s' hs'
      obtain ⟨⟨n', s₂⟩, hnew, hs'⟩ := Option.bind_eq_some_iff.mp hs'
      obtain ⟨hn, hmapped, hbn, hblock⟩ := mallocFromNewSb_blockIn h1 h2 hnew
      simp only [hn, hbn, or_self, if_false, Option.some.injEq] at hs'
      subst hs'
      rw [hf.mapped] at hmapped
      rw [setBin_same]
      exact ⟨hmapped, hbn, hblock⟩
    · intro hgrants
      have hserve : (os.serve s₁.mapped (descLens s₁ ++ [(cfg.sizeClass c).sbSize])).isSome := by
        rw [hf.mapped]
        refine os.grants_serve ?_ hgrants
        unfold descLens
        split
        next => exact List.Sublist.refl _
        next => exact List.sublist_cons_self _ _
      have hnum₁ : (s₁.threadCache t c).blockNum = 0 := by
        rw [htc]
        exact hnum
      have hsome : (mallocFromNewSb cfg os t c s₁).isSome :=
        (newSuperBlock_serve h1 h2).mpr ⟨hnum₁, hserve⟩
      obtain ⟨⟨n', s₂⟩, hnew⟩ := Option.isSome_iff_exists.mp hsome
      obtain ⟨hn, -, hbn, -⟩ := mallocFromNewSb_blockIn h1 h2 hnew
      rw [hnew, Option.bind_some]
      simp only [hn, hbn, or_self, if_false, Option.isSome_some]
  · -- the list gave a block, and the kernel was not asked
    obtain ⟨hbn, hblock⟩ := hf.some hz
    simp only [hz, if_false, hbn, or_self, Option.some.injEq, Option.isSome_some,
      implies_true, and_true]
    intro s' hs'
    subst hs'
    rw [setBin_same, setBin_mapped, hf.mapped]
    rw [hf.mapped] at hblock
    exact ⟨fun _ hsg => hsg, hbn, hblock⟩

/-! ## A fetch unmaps nothing -/

theorem listPopPartial_mapped {d : Option Nat} (h : listPopPartial c s = some (d, s')) :
    s'.mapped = s.mapped := by
  unfold listPopPartial at h
  split at h
  next =>
    cases h
    rfl
  next =>
    simp only [Option.bind_eq_bind, Option.bind_eq_some_iff, Option.some.injEq, Prod.mk.injEq] at h
    obtain ⟨d', -, head, -, -, rfl⟩ := h
    rfl

theorem mallocFromPartialLoop_mapped :
    ∀ (fuel : Nat) {s s' : State} {n : Nat}, mallocFromPartialLoop t c fuel s = some (n, s') →
      s'.mapped = s.mapped := by
  intro fuel
  induction fuel with
  | zero => intro s s' n h; cases h
  | succ fuel ih =>
    intro s s' n h
    cases hpop : listPopPartial c s with
    | none =>
      rw [mallocFromPartialLoop, hpop] at h
      cases h
    | some r =>
      obtain ⟨d, s₁⟩ := r
      rw [← listPopPartial_mapped hpop]
      cases d with
      | none =>
        rw [mallocFromPartialLoop_none hpop] at h
        cases h
        rfl
      | some d =>
        by_cases hempty : (s₁.descs d).anchor.state = .empty
        · rw [mallocFromPartialLoop_retire hpop hempty] at h
          exact (ih h).trans rfl
        · rw [mallocFromPartialLoop_take hpop hempty] at h
          obtain ⟨seg, bin, -, -, -, -, rfl⟩ := takeList_cases h
          rfl

theorem mallocCountFromPartial_mapped {count n : Nat}
    (h : mallocCountFromPartial cfg t c count s = some (n, s')) : s'.mapped = s.mapped := by
  simp only [mallocCountFromPartial, Option.bind_eq_bind, Option.bind_eq_some_iff,
    Prod.exists] at h
  obtain ⟨d, s₁, hpop, h⟩ := h
  rw [← listPopPartial_mapped hpop]
  cases d with
  | none =>
    cases h
    rfl
  | some d =>
    simp only at h
    split at h
    next => exact (mallocFromPartialLoop_mapped _ h).trans rfl
    next =>
      split at h
      next => cases h
      next =>
        simp only [Option.bind_eq_some_iff, Prod.exists, Option.some.injEq, Prod.mk.injEq] at h
        obtain ⟨seg, -, bin, m, -, -, rfl⟩ := h
        rfl

theorem fetchLoop_mapped {count : Nat} :
    ∀ (fuel : Nat) {n : Nat} {s s' : State}, fetchLoop cfg os t c count fuel n s = some s' →
      ∀ seg ∈ s.mapped, seg ∈ s'.mapped := by
  intro fuel
  induction fuel with
  | zero => intro n s s' h; cases h
  | succ fuel ih =>
    intro n s s' h seg hseg
    rw [fetchLoop] at h
    split at h
    next =>
      simp only [Option.bind_eq_bind, Option.bind_eq_some_iff, Prod.exists] at h
      obtain ⟨n', s₁, hnew, h⟩ := h
      obtain ⟨d, s₂, sg, halloc, -, -, -, -, -, -, rfl⟩ := newSuperBlock_cases hnew
      exact ih h seg (List.mem_cons_of_mem _ ((alloc_pageMap halloc).2.2 seg hseg))
    next =>
      cases h
      exact hseg

theorem fetch_mapped {count : Nat} (h : fetch cfg os t c count s = some s') :
    ∀ seg ∈ s.mapped, seg ∈ s'.mapped := by
  simp only [fetch, Option.bind_eq_bind, Option.bind_eq_some_iff, Prod.exists] at h
  obtain ⟨n, s₁, hpart, h⟩ := h
  rw [← mallocCountFromPartial_mapped hpart]
  exact fetchLoop_mapped _ h

/-! ## The two paths -/

theorem BlockIn.mono {mapped mapped' : List Segment} {p : Nat} (h : BlockIn cfg mapped c p)
    (hsub : ∀ seg ∈ mapped, seg ∈ mapped') : BlockIn cfg mapped' c p := by
  obtain ⟨seg, hseg, hrest⟩ := h
  exact ⟨seg, hsub seg hseg, hrest⟩

theorem BlockIn.pos {mapped : List Segment} {p : Nat} (h : BlockIn cfg mapped c p) : p ≠ 0 := by
  obtain ⟨seg, -, hv, i, rfl, -⟩ := h
  have := hv.pos
  omega

/-- What `allocate_to_cache` does once the bin is not empty. -/
def popTop (cfg : Cfg) (os : Os) (tuner : Option Nat) (t c : Nat) (s : State) :
    Option (Nat × State) :=
  if (s.threadCache t c).blockNum = 0 then none
  else do
    let (ptr, bin) ← (s.threadCache t c).popBlock cfg.noMetStack s.mem
    let s := s.setBin t c bin
    match tuner with
    | some n =>
      if cfg.useApf ∧ (s.threadCache t c).blockNum = 0 then do
        let s ← fetch cfg os t c n s
        some (ptr, s)
      else some (ptr, s)
    | none => some (ptr, s)

theorem allocateToCache_eq {tuner : Option Nat} {size : Nat}
    (hmode : ¬(s.panicking t = true ∨ s.useBootstrap = true)) :
    allocateToCache cfg os tuner t size c s =
      (if (s.threadCache t c).blockNum = 0 then fillCache cfg os t c s else some s).bind
        (popTop cfg os tuner t c) := by
  unfold allocateToCache
  rw [if_neg hmode]
  by_cases hz : (s.threadCache t c).blockNum = 0
  · simp only [hz, if_true]
    rfl
  · simp only [hz, if_false, Option.bind_some]
    rfl

/-- The answer is the top block, and nothing is unmapped. -/
theorem popTop_cases {tuner : Option Nat} {p : Nat} (hn : (s.threadCache t c).blockNum ≠ 0)
    (hb : (s.threadCache t c).block ≠ 0) (h : popTop cfg os tuner t c s = some (p, s')) :
    p = (s.threadCache t c).block ∧ ∀ seg ∈ s.mapped, seg ∈ s'.mapped := by
  rw [popTop, if_neg hn, popBlock_eq _ _ hn hb] at h
  simp only [Option.bind_eq_bind, Option.bind_some] at h
  cases tuner with
  | none =>
    cases h
    exact ⟨rfl, fun _ hseg => hseg⟩
  | some n =>
    simp only at h
    split at h
    next =>
      obtain ⟨s₂, hfetch, h⟩ := Option.bind_eq_some_iff.mp h
      cases h
      exact ⟨rfl, fun seg hseg => fetch_mapped hfetch seg hseg⟩
    next =>
      cases h
      exact ⟨rfl, fun _ hseg => hseg⟩

/-- **A request served from the cache** gets a block of the class, whatever the tuner
fetches afterwards. -/
theorem CacheOk.allocate (h : CacheOk cfg s t c) (h1 : 1 ≤ c) (h2 : c < maxSzIdx)
    (hmode : ¬(s.panicking t = true ∨ s.useBootstrap = true)) (size : Nat) :
    (∀ tuner p s', allocateToCache cfg os tuner t size c s = some (p, s') →
      BlockIn cfg s'.mapped c p) ∧
    (os.grants s.mapped [descriptorBlockSz, (cfg.sizeClass c).sbSize] = true →
      (allocateToCache cfg os none t size c s).isSome) := by
  obtain ⟨hfill, hsome⟩ : (∀ s₁, (if (s.threadCache t c).blockNum = 0 then fillCache cfg os t c s
        else some s) = some s₁ → (s₁.threadCache t c).blockNum ≠ 0 ∧
        BlockIn cfg s₁.mapped c (s₁.threadCache t c).block) ∧
      (os.grants s.mapped [descriptorBlockSz, (cfg.sizeClass c).sbSize] = true →
        (if (s.threadCache t c).blockNum = 0 then fillCache cfg os t c s else some s).isSome) := by
    by_cases hz : (s.threadCache t c).blockNum = 0
    · rw [if_pos hz]
      exact ⟨fun s₁ hs₁ => ((h.fill h1 h2 hz).1 s₁ hs₁).2, (h.fill h1 h2 hz).2⟩
    · rw [if_neg hz]
      refine ⟨fun s₁ hs₁ => ?_, fun _ => rfl⟩
      cases hs₁
      exact ⟨hz, h.bin hz⟩
  constructor
  · intro tuner p s' hres
    rw [allocateToCache_eq hmode] at hres
    obtain ⟨s₁, hs₁, hres⟩ := Option.bind_eq_some_iff.mp hres
    obtain ⟨hn, hblock⟩ := hfill s₁ hs₁
    obtain ⟨rfl, hmapped⟩ := popTop_cases hn hblock.pos hres
    exact hblock.mono hmapped
  · intro hgrants
    obtain ⟨s₁, hs₁⟩ := Option.isSome_iff_exists.mp (hsome hgrants)
    obtain ⟨hn, hblock⟩ := hfill s₁ hs₁
    rw [allocateToCache_eq hmode, hs₁, Option.bind_some, popTop, if_neg hn,
      popBlock_eq _ _ hn hblock.pos]
    rfl

/-- Changing the page map unmaps nothing. -/
theorem updatePageMap_mapped {heap desc : Option Nat} {ptr i : Nat}
    (h : updatePageMap cfg heap ptr desc i s = some s') : s'.mapped = s.mapped := by
  unfold updatePageMap at h
  split at h
  next => cases h
  next =>
    cases heap with
    | none =>
      cases h
      rfl
    | some c' =>
      simp only at h
      split at h
      next => cases h
      next =>
        cases h
        rfl

/-- **A large aligned request** is answered from a new segment of the right length, or
with NULL. The alignment may be anything that `is_power_of_two` lets through. -/
theorem doAlignedAlloc_segment {tuner : Option Nat} {align size p : Nat}
    (hpow : isPowerOfTwo align = true) (hbig : page < alignSize size align)
    (h : doAlignedAlloc cfg os tuner t align size s = some (p, s')) :
    (p = 0 ∧ s' = s ∧ os.mmap s.mapped (alignedPages align (alignSize size align)) = none) ∨
      ∃ seg ∈ s'.mapped, seg ∉ s.mapped ∧ seg.Valid ∧
        seg.length = alignedPages align (alignSize size align) ∧
        p = alignedPtr align seg.ptr := by
  rw [doAlignedAlloc, if_neg (by rw [hpow]; decide)] at h
  simp only [gt_iff_lt, hbig, if_true] at h
  cases hseg : segAllocate os (alignedPages align (alignSize size align)) s with
  | none =>
    rw [hseg] at h
    cases h
    refine .inl ⟨rfl, rfl, ?_⟩
    unfold segAllocate at hseg
    split at hseg
    next hnone => exact hnone
    next => cases hseg
  | some r =>
    obtain ⟨seg, s₁⟩ := r
    obtain ⟨hlen, hvalid, hapart, rfl⟩ := segAllocate_cases hseg
    rw [hseg] at h
    simp only [Option.bind_eq_bind, Option.bind_eq_some_iff, Prod.exists] at h
    obtain ⟨d, s₂, halloc, s₃, hreg, h⟩ := h
    have hmapped : seg ∈ s₂.mapped := (alloc_pageMap halloc).2.2 seg (List.mem_cons_self ..)
    have hnew : seg ∉ s.mapped := fun hin => hvalid.not_apart_self (hapart seg hin)
    rw [registerDesc_setLarge (Nat.ne_of_gt hvalid.pos), Option.some.injEq] at hreg
    subst hreg
    refine .inr ⟨seg, ?_⟩
    unfold alignedPtr
    by_cases hov : page < align
    · simp only [hov, if_true, Option.bind_eq_some_iff, Option.some.injEq, Prod.mk.injEq] at h ⊢
      obtain ⟨s₄, hupd, rfl, rfl⟩ := h
      rw [updatePageMap_mapped hupd]
      exact ⟨hmapped, hnew, hvalid, hlen, rfl⟩
    · simp only [hov, if_false, Option.some.injEq, Prod.mk.injEq] at h ⊢
      obtain ⟨rfl, rfl⟩ := h
      exact ⟨hmapped, hnew, hvalid, hlen, rfl⟩

/-- **A large aligned request** returns unless the kernel grants the segment and refuses
the descriptors. -/
theorem doAlignedAlloc_segment_isSome_iff {tuner : Option Nat} {k size : Nat} (hk : k < 64)
    (hbig : page < alignSize size (2 ^ k)) :
    (doAlignedAlloc cfg os tuner t (2 ^ k) size s).isSome ↔
      os.mmap s.mapped (alignedPages (2 ^ k) (alignSize size (2 ^ k))) = none ∨
      (os.serve s.mapped
        (alignedPages (2 ^ k) (alignSize size (2 ^ k)) :: descLens s)).isSome := by
  rw [doAlignedAlloc, if_neg (by rw [isPowerOfTwo_pow hk]; decide), Os.serve]
  simp only [gt_iff_lt, hbig, if_true]
  cases hmap : os.mmap s.mapped (alignedPages (2 ^ k) (alignSize size (2 ^ k))) with
  | none =>
    rw [segAllocate, hmap]
    exact iff_of_true rfl (Or.inl rfl)
  | some q =>
    have hv := os.valid hmap
    have hpos := hv.pos
    rw [segAllocate, hmap]
    simp only [reduceCtorEq, false_or]
    have hserve := alloc_serve cfg os { s with
      mapped := ⟨q, alignedPages (2 ^ k) (alignSize size (2 ^ k))⟩ :: s.mapped
      mem := zeroFill s.mem q (regionLen (alignedPages (2 ^ k) (alignSize size (2 ^ k)))) }
    rw [show descLens s = descLens { s with
      mapped := ⟨q, alignedPages (2 ^ k) (alignSize size (2 ^ k))⟩ :: s.mapped
      mem := zeroFill s.mem q (regionLen (alignedPages (2 ^ k) (alignSize size (2 ^ k)))) } from rfl,
      ← hserve, Option.isSome_map]
    cases halloc : Descriptor.alloc cfg os _ with
    | none => exact Iff.rfl
    | some r =>
      obtain ⟨d, s₂⟩ := r
      refine iff_of_true ?_ rfl
      simp only [Option.bind_eq_bind, Option.bind_some,
        @registerDesc_setLarge _ _ _ _ ⟨q, _⟩ (Nat.ne_of_gt hpos)]
      by_cases hov : page < 2 ^ k
      · have hle := le_alignedPtr hk (Nat.le_trans (Nat.le_add_right _ _) hv.bound)
        rw [alignedPtr, if_pos hov] at hle
        simp only at hle hpos
        simp only [hov, if_true, updatePageMap,
          if_neg (show alignAddr q (2 ^ k) ≠ 0 by omega), Option.bind_some, Option.isSome_some]
      · simp only [hov, if_false, Option.isSome_some]

/-- It is answered with memory if the kernel grants the segment and a block of
descriptors. -/
theorem doAlignedAlloc_segment_isSome {tuner : Option Nat} {k size : Nat} (hk : k < 64)
    (hbig : page < alignSize size (2 ^ k))
    (hgrants : os.grants s.mapped
      [alignedPages (2 ^ k) (alignSize size (2 ^ k)), descriptorBlockSz] = true) :
    ∃ p s', doAlignedAlloc cfg os tuner t (2 ^ k) size s = some (p, s') ∧ p ≠ 0 := by
  have hserve : (os.serve s.mapped
      (alignedPages (2 ^ k) (alignSize size (2 ^ k)) :: descLens s)).isSome := by
    refine os.grants_serve (List.Sublist.cons_cons _ ?_) hgrants
    unfold descLens
    split
    next => exact List.Sublist.refl _
    next => exact List.nil_sublist _
  obtain ⟨⟨p, s'⟩, hres⟩ := Option.isSome_iff_exists.mp
    ((doAlignedAlloc_segment_isSome_iff hk hbig).mpr (Or.inr hserve))
  refine ⟨p, s', hres, ?_⟩
  rcases doAlignedAlloc_segment (isPowerOfTwo_pow hk) hbig hres with
    ⟨-, -, hnone⟩ | ⟨seg, -, -, hv, -, rfl⟩
  · rw [Os.serve, hnone] at hserve
    cases hserve
  · have hle := le_alignedPtr hk (Nat.le_trans (Nat.le_add_right _ _) hv.bound)
    have := hv.pos
    omega

/-! ## Aligned, and inside -/

theorem alignedPtr_mod {k ptr : Nat} (hk : k < 64) (hal : ptr % page = 0) (hle : ptr ≤ addrSpace) :
    alignedPtr (2 ^ k) ptr % 2 ^ k = 0 := by
  unfold alignedPtr
  by_cases hov : 2 ^ k > page
  · have hpow : 2 ^ k ≤ 2 ^ 63 := Nat.pow_le_pow_right (by omega) (by omega)
    rw [if_pos hov, alignAddr_eq_alignVal]
    refine alignVal_mod hk ?_
    rw [addrSpace] at hle
    rw [usizeSize_eq]
    omega
  · rw [if_neg hov]
    refine Nat.mod_eq_zero_of_dvd (Nat.dvd_trans (pow_dvd_page (Nat.not_lt.mp hov)) ?_)
    exact Nat.dvd_of_mod_eq_zero hal

/-- A block of a class for multiples of `2^k` starts at one. -/
theorem BlockIn.mod {mapped : List Segment} {k p : Nat} (h : BlockIn cfg mapped c p)
    (hpage : 2 ^ k ≤ page) (hbs : 2 ^ k ∣ (cfg.sizeClass c).blockSize) : p % 2 ^ k = 0 := by
  obtain ⟨seg, -, hv, i, rfl, -⟩ := h
  refine Nat.mod_eq_zero_of_dvd (Nat.dvd_add ?_ (Nat.dvd_mul_left_of_dvd hbs i))
  exact Nat.dvd_trans (pow_dvd_page hpage) (Nat.dvd_of_mod_eq_zero hv.aligned)

end

/-- After `init_malloc` bins and partial lists are empty. -/
theorem cacheOk_init {cfg : Cfg} {os : Os} {s : State} (h : initMalloc os = some s) (t c : Nat) :
    CacheOk cfg s t c := by
  obtain ⟨seg, -, rfl⟩ := initMalloc_cases h
  exact ⟨fun hne => absurd rfl hne, [], ⟨rfl, List.nodup_nil,
    fun _ hd => (List.not_mem_nil hd).elim, fun _ hd => (List.not_mem_nil hd).elim⟩,
    Nat.zero_le _⟩

/-- The bytes from `p` to `p + size` are inside the block or the segment `p` was had
from. -/
inductive Backed (cfg : Cfg) (mapped : List Segment) (p size : Nat) : Prop
  | block {c : Nat} : BlockIn cfg mapped c p → size ≤ (cfg.sizeClass c).blockSize →
      Backed cfg mapped p size
  | segment {seg : Segment} : seg ∈ mapped → seg.Valid → seg.ptr ≤ p →
      p + size ≤ seg.ptr + seg.length → Backed cfg mapped p size

/-- What an aligned request may ask of the kernel, in this order. -/
def alignedRequests (cfg : Cfg) (align size : Nat) : List Nat :=
  if page < alignSize size align then
    [alignedPages align (alignSize size align), descriptorBlockSz]
  else [descriptorBlockSz, (cfg.sizeClass (getSizeClass (alignSize size align))).sbSize]

section
variable {cfg : Cfg} {os : Os} {s : State} {t size k : Nat}

/-- Rounded up, a request of at most a page is for a class of multiples of the
alignment. -/
theorem alignSize_small (hk : k < 64) (hwrap : 2 ^ k < size → size + 2 ^ k ≤ usizeSize)
    (hsmall : ¬page < alignSize size (2 ^ k)) :
    size ≤ alignSize size (2 ^ k) ∧ 2 ^ k ≤ page ∧
      2 ^ k ∣ classBlockSize (getSizeClass (alignSize size (2 ^ k))) := by
  have hge : size ≤ alignSize size (2 ^ k) ∧ 2 ^ k ≤ alignSize size (2 ^ k) ∧
      alignSize size (2 ^ k) % 2 ^ k = 0 := by
    unfold alignSize
    by_cases hlt : 2 ^ k < size
    · have hb := alignVal_bounds hk (hwrap hlt)
      rw [if_pos hlt]
      exact ⟨hb.1, by omega, alignVal_mod hk (hwrap hlt)⟩
    · rw [if_neg hlt]
      exact ⟨Nat.not_lt.mp hlt, Nat.le_refl _, Nat.mod_self _⟩
  obtain ⟨hsz, hpk, hmod⟩ := hge
  have hpage : 2 ^ k ≤ page := by omega
  have hpos := Nat.two_pow_pos k
  have h12 : k ≤ 12 := (Nat.pow_le_pow_iff_right (by omega : 1 < 2)).mp hpage
  exact ⟨hsz, hpage, classBlockSize_dvd h12 (le_maxSz_of_page hsmall) (by omega) hmod⟩

/-- **What an aligned request returns** is aligned and backed, or NULL for a segment that
was refused. -/
theorem doAlignedAlloc_backed (hk : k < 64) (hsize : size < usizeSize)
    (hwrap : 2 ^ k < size → size + 2 ^ k ≤ usizeSize)
    (hmode : ¬(s.panicking t = true ∨ s.useBootstrap = true))
    (hcache : ∀ c, 1 ≤ c → c < maxSzIdx → CacheOk cfg s t c) {tuner : Option Nat} {p : Nat}
    {s' : State} (hres : doAlignedAlloc cfg os tuner t (2 ^ k) size s = some (p, s')) :
    (p = 0 ∧ s' = s ∧ page < alignSize size (2 ^ k) ∧
      os.mmap s.mapped (alignedPages (2 ^ k) (alignSize size (2 ^ k))) = none) ∨
    (p % 2 ^ k = 0 ∧ Backed cfg s'.mapped p size) := by
  by_cases hbig : page < alignSize size (2 ^ k)
  · rcases doAlignedAlloc_segment (isPowerOfTwo_pow hk) hbig hres with
      ⟨h0, hs, hnone⟩ | ⟨seg, hseg, -, hv, hlen, rfl⟩
    · exact .inl ⟨h0, hs, hbig, hnone⟩
    · have hl : (LargeReq.aligned (2 ^ k) size).Large := ⟨hsize, ⟨k, hk, rfl⟩, hbig⟩
      obtain ⟨hlo, -, hhi⟩ := hl.inside hv hlen
      have hle := Nat.le_trans (Nat.le_add_right _ _) hv.bound
      exact .inr ⟨alignedPtr_mod hk hv.aligned hle, .segment hseg hv hlo hhi⟩
  · obtain ⟨hsz, hpage, hdvd⟩ := alignSize_small hk hwrap hbig
    obtain ⟨h1, h2, hbs⟩ := getSizeClass_spec cfg (le_maxSz_of_page hbig)
    rw [doAlignedAlloc_small (isPowerOfTwo_pow hk) hbig] at hres
    have hin := ((hcache _ h1 h2).allocate h1 h2 hmode _).1 tuner p s' hres
    refine .inr ⟨hin.mod hpage ?_, .block hin (Nat.le_trans hsz hbs)⟩
    rw [(cfg.classSpec h1 h2).blockSize_eq]
    exact hdvd

end

end Apfmalloc
