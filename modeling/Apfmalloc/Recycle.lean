import Apfmalloc.AnchorRun
import Apfmalloc.AlignedAlloc
import Apfmalloc.DescAccount

/-!
# The allocator without tuners

With `USE_APF` off the bins are bounded: a free into a full bin flushes it first, superblocks
get their blocks back, join the partial list of their heap and are unmapped when all blocks
are home, and a malloc on an empty bin takes what the partial list has before it maps
anything. This is the whole cycle of a block, from the kernel to the kernel, and here it
turns under any order of mallocs, aligned mallocs, frees and client writes of any threads,
small and large, one operation at a time, in the `no_met_stack` build.

What a flush has to meet is the condition of `anchors_exact`. Under it nothing is lost in
any run: every block of every superblock is live, or in one bin, or on the free list of its
superblock, whose anchor counts it, and a malloc maps a new superblock only if no block of
its class is free (`recycling_sound`).
-/

namespace Apfmalloc

open Base

section Partial

variable {cfg : Cfg} {s s' : State} {H : Heap} {P : Nat → List Nat} {live : List Live}

/-! ## Large blocks and the partial lists -/

/-- Descriptors that are in use are as they were, but for `d`, which gets a large segment. -/
theorem PartialInv.addLarge (h : PartialInv cfg s H P) (hi : HeapInv cfg s H live) {d : Nat}
    {free' : List Nat} (hnew : d ∉ H.alloced) (hlist : s'.partialList = s.partialList)
    (hdescs : ∀ d' ∈ s.carved, d' ≠ d → s'.descs d' = s.descs d')
    (howns : ∀ {d' sg}, Owns s' d' sg → d' ≠ d → Owns s d' sg)
    (hheap : (s'.descs d).procHeap = none) :
    PartialInv cfg s' { H with alloced := d :: H.alloced, freeDescs := free' } P := by
  have hold : ∀ d' ∈ H.alloced, s'.descs d' = s.descs d' := fun d' hd' =>
    hdescs d' (hi.desc.alloced_carved hd') fun he => hnew (he ▸ hd')
  refine ⟨fun c => ?_, h.nodup, fun c d' hd' => ?_, fun {d' sg c} ho hc => ?_⟩
  · rw [hlist]
    exact (h.linked c).congr fun d' hd' => by rw [hold d' (h.listed c d' hd').alloced]
  · have hl := h.listed c d' hd'
    have hd := hold d' hl.alloced
    refine ⟨List.mem_cons_of_mem _ hl.alloced, by rw [hd]; exact hl.heap, ?_⟩
    unfold Owns
    rw [hd]
    exact hl.state
  · have hne : d' ≠ d := by
      rintro rfl
      rw [hheap] at hc
      cases hc
    have ho' := howns ho hne
    have hd := hold d' (hi.region.alloced ho')
    rw [hd] at hc
    have he := h.owner ho' hc
    exact ⟨by rw [hd]; exact he.count, he.lt, by rw [hd]; exact he.state⟩

/-- A large segment goes, and its descriptor with it. -/
theorem PartialInv.dropLarge (h : PartialInv cfg s H P) (hi : HeapInv cfg s H live) {d : Nat}
    {seg : Segment} (ho : Owns s d seg) (hheap : (s.descs d).procHeap = none) :
    PartialInv cfg (Descriptor.retire d (s.dropLarge d seg))
      { H with alloced := H.alloced.erase d, freeDescs := d :: H.freeDescs } P := by
  have hrem := removes_dropLarge ho (hi.region.valid ho)
  have hne : ∀ {c d'}, d' ∈ P c → d' ≠ d := by
    rintro c d' hd' rfl
    rw [(h.listed c d' hd').heap] at hheap
    cases hheap
  refine ⟨fun c => ?_, h.nodup, fun c d' hd' => ?_, fun {d' sg c} ho' hc => ?_⟩
  · exact (h.linked c).congr fun d' hd' => by rw [hrem.descs d' (hne hd')]
  · have hl := h.listed c d' hd'
    have hd := hrem.descs d' (hne hd')
    refine ⟨(List.mem_erase_of_ne (hne hd')).mpr hl.alloced, by rw [hd]; exact hl.heap, ?_⟩
    unfold Owns
    rw [hd]
    exact hl.state
  · obtain ⟨hd', ho'⟩ := hrem.owns_iff.mp ho'
    have hd := hrem.descs d' hd'
    rw [hd] at hc
    have he := h.owner ho' hc
    exact ⟨by rw [hd]; exact he.count, he.lt, by rw [hd]; exact he.state⟩

end Partial

/-! ## One bin at a time -/

/-- A fill or a flush leaves alone what is not the bin of class `c` of thread `t`. -/
structure OnlyBin (t c : Nat) (s s' : State) : Prop where
  bins : ∀ t' c', ¬(t' = t ∧ c' = c) → s'.threadCache t' c' = s.threadCache t' c'
  useBootstrap : s'.useBootstrap = s.useBootstrap
  panicking : s'.panicking = s.panicking

section Frame

variable {cfg : Cfg} {os : Os} {s s₁ s' : State} {t c : Nat}

theorem OnlyBin.trans (h : OnlyBin t c s s₁) (h' : OnlyBin t c s₁ s') : OnlyBin t c s s' :=
  ⟨fun t' c' hne => (h'.bins t' c' hne).trans (h.bins t' c' hne),
    h'.useBootstrap.trans h.useBootstrap, h'.panicking.trans h.panicking⟩

theorem OnlyBin.of_same (hbins : s'.threadCache = s.threadCache)
    (hboot : s'.useBootstrap = s.useBootstrap) (hpanic : s'.panicking = s.panicking) :
    OnlyBin t c s s' :=
  ⟨fun _ _ _ => by rw [hbins], hboot, hpanic⟩

theorem onlyBin_setBin (s : State) (t c : Nat) (bin : ThreadCacheBin) :
    OnlyBin t c s (s.setBin t c bin) :=
  ⟨fun _ _ hne => setBin_other s t c bin hne, rfl, rfl⟩

theorem listPopPartial_only {d : Option Nat} (h : listPopPartial c s = some (d, s')) :
    OnlyBin t c s s' := by
  unfold listPopPartial at h
  split at h
  next =>
    cases h
    exact .of_same rfl rfl rfl
  next =>
    simp only [Option.bind_eq_bind, Option.bind_eq_some_iff, Option.some.injEq, Prod.mk.injEq] at h
    obtain ⟨d', -, head, -, -, rfl⟩ := h
    exact .of_same rfl rfl rfl

theorem mallocFromPartialLoop_only :
    ∀ (fuel : Nat) {s : State} {n : Nat}, mallocFromPartialLoop t c fuel s = some (n, s') →
      OnlyBin t c s s' := by
  intro fuel
  induction fuel with
  | zero => intro s n h; cases h
  | succ fuel ih =>
    intro s n h
    cases hpop : listPopPartial c s with
    | none =>
      rw [mallocFromPartialLoop, hpop] at h
      cases h
    | some r =>
      obtain ⟨d, s₁⟩ := r
      refine (listPopPartial_only hpop).trans ?_
      cases d with
      | none =>
        rw [mallocFromPartialLoop_none hpop] at h
        cases h
        exact .of_same rfl rfl rfl
      | some d =>
        by_cases hempty : (s₁.descs d).anchor.state = .empty
        · rw [mallocFromPartialLoop_retire hpop hempty] at h
          have hretire : OnlyBin t c s₁ (Descriptor.retire d s₁) := .of_same rfl rfl rfl
          exact hretire.trans (ih h)
        · rw [mallocFromPartialLoop_take hpop hempty] at h
          obtain ⟨seg, bin, -, -, -, -, rfl⟩ := takeList_cases h
          have hanchor : OnlyBin t c s₁ (s₁.setAnchor d (listAnchor (s₁.descs d).maxCount
            (s₁.descs d).anchor)) := .of_same rfl rfl rfl
          exact hanchor.trans (onlyBin_setBin ..)

theorem flushIter_only {more : Bool} (h : flushIter cfg t c s = some (more, s')) :
    OnlyBin t c s s' := by
  unfold flushIter at h
  split at h
  next =>
    cases h
    exact onlyBin_setBin ..
  next =>
    split at h
    next =>
      cases h
      exact .of_same rfl rfl rfl
    next d hd =>
      obtain ⟨s₁, hround, he⟩ := Option.map_eq_some_iff.mp h
      cases he
      obtain ⟨seg, i, bin, tail, next, ho, hrel⟩ := flushRound_cases hround
      refine (onlyBin_setBin s t c bin).trans (.of_same ?_ ?_ ?_) <;>
        rcases flushRelease_cases hrel with ⟨-, pm, rfl⟩ | ⟨-, -, c', -, rfl⟩ | ⟨-, -, rfl⟩ <;> rfl

theorem flushLoop_only :
    ∀ (fuel : Nat) {s : State}, flushLoop cfg t c fuel s = some s' → OnlyBin t c s s' := by
  intro fuel
  induction fuel with
  | zero => intro s h; cases h
  | succ fuel ih =>
    intro s h
    simp only [flushLoop, Option.bind_eq_bind, Option.bind_eq_some_iff, Prod.exists] at h
    obtain ⟨more, s₁, hiter, h⟩ := h
    refine (flushIter_only hiter).trans ?_
    split at h
    next => exact ih h
    next =>
      cases h
      exact .of_same rfl rfl rfl

end Frame

/-! ## Refills -/

/-- What a refill does: it takes the free list of a superblock and maps nothing, or there
is no free block of the class and it carves a superblock. -/
inductive Refilled (cfg : Cfg) (t c : Nat) (s s' : State) (H : Heap) : Prop
  | reused {d : Nat} {seg : Segment} : Owns s d seg → (s.descs d).procHeap = some c →
      (s'.threadCache t c).blockNum = (H.frees d).length → s'.mapped = s.mapped →
      Refilled cfg t c s s' H
  | carved : (∀ d seg, Owns s d seg → (s.descs d).procHeap = some c → H.frees d = []) →
      (s'.threadCache t c).blockNum = (cfg.sizeClass c).blockNum → Refilled cfg t c s s' H

section Refill

variable {cfg : Cfg} {os : Os} {s s' : State} {H : Heap} {P : Nat → List Nat} {live : List Live}
  {t c : Nat}

/-- A bin that counts no blocks has none. -/
theorem HeapInv.bins_nil (hi : HeapInv cfg s H live) (hnum : (s.threadCache t c).blockNum = 0) :
    H.bins t c = [] := by
  rw [(hi.block.holds t c).num] at hnum
  exact List.length_eq_zero_iff.mp hnum

theorem PartialInv.refilled (hnomet : cfg.noMetStack = true) (h : PartialInv cfg s H P)
    (hi : HeapInv cfg s H live) (hnum : (s.threadCache t c).blockNum = 0)
    (hfill : fillCache cfg os t c s = some s') :
    Refilled cfg t c s s' H ∧ OnlyBin t c s s' := by
  obtain ⟨n, s₁, H₁, P₁, hpart, hi₁, h₁, -, htaken⟩ :=
    mallocFromPartial_spec hnomet hi h (hi.bins_nil hnum)
  have honly : OnlyBin t c s s₁ := mallocFromPartialLoop_only _ hpart
  cases htaken with
  | none hlist _ _ _ _ hall =>
    have hfill₁ : fillCache cfg os t c s₁ = some s' := by
      rw [fillCache, mallocFromPartial_none hlist]
      rw [fillCache, hpart] at hfill
      exact hfill
    obtain ⟨d, s₂, seg, halloc, -, -, -, -, hsb⟩ := fillCache_fresh hlist hfill₁
    have hf := (hi₁.allocDesc halloc).choose_spec.2.2.1
    refine ⟨.carved (fun d seg ho hheap => hall ho hheap) (by rw [hsb.bin]),
      honly.trans ⟨?_, ?_, ?_⟩⟩
    · intro t' c' hne
      rw [hsb.bins t' c' hne, hf.threadCache]
    · rw [hsb.mode.useBootstrap, hf.useBootstrap]
    · rw [hsb.mode.panicking, hf.panicking]
  | @some d seg ho hheap hne hbins hfrees ho' hanchor =>
    have hlen : (s₁.threadCache t c).blockNum = (H.frees d).length := by
      rw [(hi₁.block.holds t c).num, hbins]
    have hpos : (s₁.threadCache t c).blockNum ≠ 0 := by
      rw [hlen]
      exact Nat.ne_of_gt (List.length_pos_iff.mpr hne)
    rw [fillCache, hpart] at hfill
    simp only [Option.bind_eq_bind, Option.bind_some, Nat.one_ne_zero, if_false, hpos, or_self,
      Option.some.injEq] at hfill
    subst hfill
    have hmapped : s₁.mapped = s.mapped := mallocFromPartialLoop_mapped _ hpart
    refine ⟨.reused ho hheap ?_ hmapped, honly.trans (onlyBin_setBin ..)⟩
    rw [setBin_same]
    exact hlen

end Refill

/-- The heap and the partial lists, bins within their bounds, and no thread on the reserve. -/
structure RecycleInv (cfg : Cfg) (s : State) (live : List Live) (H : Heap) (P : Nat → List Nat) :
    Prop where
  heap : HeapInv cfg s H live
  lists : PartialInv cfg s H P
  bound : ∀ t c, (s.threadCache t c).blockNum ≤ (cfg.sizeClass c).cacheBlockNum
  useBootstrap : s.useBootstrap = false
  panicking : ∀ t, s.panicking t = false

theorem RecycleInv.off {cfg : Cfg} {s : State} {live : List Live} {H : Heap} {P : Nat → List Nat}
    (h : RecycleInv cfg s live H P) (t : Nat) :
    ¬(s.panicking t = true ∨ s.useBootstrap = true) := by
  rw [h.panicking, h.useBootstrap]
  simp

/-- Only one bin changed, and it is within its bound. -/
theorem RecycleInv.of_bin {cfg : Cfg} {s s' : State} {live live' : List Live} {H H' : Heap}
    {P P' : Nat → List Nat} {t c : Nat} (h : RecycleInv cfg s live H P) (ho : OnlyBin t c s s')
    (heap : HeapInv cfg s' H' live') (lists : PartialInv cfg s' H' P')
    (hb : (s'.threadCache t c).blockNum ≤ (cfg.sizeClass c).cacheBlockNum) :
    RecycleInv cfg s' live' H' P' := by
  refine ⟨heap, lists, fun t' c' => ?_, ho.useBootstrap.trans h.useBootstrap, fun t' => ?_⟩
  · by_cases hne : t' = t ∧ c' = c
    · obtain ⟨rfl, rfl⟩ := hne
      exact hb
    · rw [ho.bins t' c' hne]
      exact h.bound t' c'
  · rw [ho.panicking]
    exact h.panicking t'

theorem RecycleInv.of_same {cfg : Cfg} {s s' : State} {live live' : List Live} {H H' : Heap}
    {P P' : Nat → List Nat} (h : RecycleInv cfg s live H P) (heap : HeapInv cfg s' H' live')
    (lists : PartialInv cfg s' H' P') (hbins : s'.threadCache = s.threadCache)
    (hboot : s'.useBootstrap = s.useBootstrap) (hpanic : s'.panicking = s.panicking) :
    RecycleInv cfg s' live' H' P' := by
  refine h.of_bin (t := 0) (c := 0) (.of_same hbins hboot hpanic) heap lists ?_
  rw [hbins]
  exact h.bound 0 0

/-- A bin holds a superblock. -/
theorem Cfg.cacheBlockNum_eq (cfg : Cfg) {c : Nat} (h1 : 1 ≤ c) (h2 : c < maxSzIdx) :
    (cfg.sizeClass c).cacheBlockNum = (cfg.sizeClass c).blockNum := by
  obtain ⟨sc, hf⟩ := cfg.target.classFrom h1 h2
  exact hf.cacheBlockNum.trans hf.blockNum.symm

theorem Refilled.bound {cfg : Cfg} {s s' : State} {H : Heap} {P : Nat → List Nat} {t c : Nat}
    (hr : Refilled cfg t c s s' H) (h : PartialInv cfg s H P) (h1 : 1 ≤ c) (h2 : c < maxSzIdx) :
    (s'.threadCache t c).blockNum ≤ (cfg.sizeClass c).cacheBlockNum := by
  rw [cfg.cacheBlockNum_eq h1 h2]
  cases hr with
  | reused ho hheap hnum _ =>
    rw [hnum]
    exact Nat.le_of_lt (h.owner ho hheap).lt
  | carved _ hnum => exact Nat.le_of_eq hnum

/-! ## Allocations -/

section Alloc

variable {cfg : Cfg} {os : Os} {s s' : State} {H : Heap} {P : Nat → List Nat} {live : List Live}
  {t size p : Nat}

theorem addLarge_other (s : State) {d d' pages ptr : Nat} {seg : Segment} (hne : d' ≠ d) :
    (s.addLarge d pages seg ptr).descs d' = s.descs d' := if_neg hne

/-- A large allocation on top of a state that has the lists and bins of `s`. -/
theorem RecycleInv.addLarge {s₁ : State} {d pages ptr : Nat} {seg : Segment} {free' : List Nat}
    {live' : List Live} (h : RecycleInv cfg s live H P) (hnew : d ∉ H.alloced)
    (hlist : s₁.partialList = s.partialList) (hcache : s₁.threadCache = s.threadCache)
    (hmode : s₁.useBootstrap = s.useBootstrap ∧ s₁.panicking = s.panicking)
    (hdescs : ∀ d' ∈ s.carved, s₁.descs d' = s.descs d')
    (howns : ∀ d' sg, Owns s₁ d' sg ↔ Owns s d' sg)
    (hheap : HeapInv cfg (s₁.addLarge d pages seg ptr)
      { H with alloced := d :: H.alloced, freeDescs := free' } live') :
    RecycleInv cfg (s₁.addLarge d pages seg ptr) live'
      { H with alloced := d :: H.alloced, freeDescs := free' } P := by
  refine h.of_same hheap (h.lists.addLarge h.heap hnew hlist (fun d' hd' hne => ?_)
    (fun ho hne => ?_) (addLarge_procHeap ..)) hcache hmode.1 hmode.2
  · rw [addLarge_other _ hne]
    exact hdescs d' hd'
  · rw [Owns, addLarge_other _ hne] at ho
    exact (howns _ _).mp ho

/-- A request served from the cache, filled from the partial list or from the kernel. -/
theorem RecycleInv.allocateToCache (h : RecycleInv cfg s live H P) (hnomet : cfg.noMetStack = true)
    {c : Nat} (h1 : 1 ≤ c) (h2 : c < maxSzIdx) (req : Nat)
    (hreq : req ≤ (cfg.sizeClass c).blockSize)
    (hres : allocateToCache cfg os none t size c s = some (p, s')) :
    ∃ H' P', RecycleInv cfg s' (⟨p, req, (cfg.sizeClass c).blockSize⟩ :: live) H' P' := by
  obtain ⟨s₁, bin, hs₁, hne, hpop, rfl⟩ := allocateToCache_cases (h.off t) hres
  obtain ⟨H₁, P₁, h₁⟩ : ∃ H₁ P₁, RecycleInv cfg s₁ live H₁ P₁ := by
    rcases hs₁ with rfl | ⟨hnum, hfill⟩
    · exact ⟨H, P, h⟩
    · obtain ⟨hr, ho⟩ := h.lists.refilled hnomet h.heap hnum hfill
      obtain ⟨H₁, P₁, hi, hp⟩ := h.lists.fill hnomet h.heap h1 h2 hnum hfill
      exact ⟨H₁, P₁, h.of_bin ho hi hp (hr.bound h.lists h1 h2)⟩
  obtain ⟨x, l, bin', hbins, -, hpop', -, hpopped⟩ := h₁.heap.pop req hne hreq
  rw [hpop', Option.some.injEq, Prod.mk.injEq] at hpop
  obtain ⟨rfl, rfl⟩ := hpop
  refine ⟨_, P₁, h₁.of_bin (onlyBin_setBin ..) hpopped (h₁.lists.congr rfl rfl rfl rfl) ?_⟩
  -- one block less
  have hle := h₁.bound t c
  have hlen : ((s₁.setBin t c bin').threadCache t c).blockNum = l.length :=
    (hpopped.block.holds t c).num.trans (congrArg List.length (Heap.setBin_same ..))
  rw [(h₁.heap.block.holds t c).num, hbins, List.length_cons] at hle
  omega

theorem RecycleInv.doMalloc (h : RecycleInv cfg s live H P) (hnomet : cfg.noMetStack = true)
    (hfit : regionLen size < u32Size)
    (hres : doMalloc cfg os none t size s = some (p, s')) :
    ∃ H' P', RecycleInv cfg s' (⟨p, size, mallocLen cfg size⟩ :: live) H' P' := by
  unfold mallocLen
  by_cases hsize : maxSz < size
  · obtain ⟨d, s₁, free', seg, -, hf, h₁, ho, hd, hlen, hvalid, hapart, rfl, rfl⟩ :=
      doMalloc_large h.heap hsize hres
    obtain ⟨hown, hcarved⟩ := h₁.fresh_seg hapart
    have hpages : pageCeiling size = regionLen size := regionLen_pageCeiling (fits_usize hfit)
    have hge := (regionLen_bounds size).1
    have hnotown : ∀ sg, ¬Owns s₁ d sg := fun sg hsg =>
      hd (h.heap.region.alloced ((ho.owns d sg).mp hsg))
    obtain ⟨hl, -⟩ := (h₁.map hapart).large (List.mem_cons_self ..) hvalid
      (List.mem_cons_self ..) hnotown hown hcarved hlen (by omega) (by omega) (Nat.le_refl _)
      (by omega) size (by omega)
    rw [show seg.ptr + seg.length - seg.ptr = pageCeiling size by omega] at hl
    rw [if_pos hsize]
    exact ⟨_, P, h.addLarge hd hf.partialList hf.threadCache ⟨hf.useBootstrap, hf.panicking⟩
      hf.descs ho.owns hl⟩
  · rw [Apfmalloc.doMalloc, if_neg hsize] at hres
    obtain ⟨h1, h2, hbs⟩ := getSizeClass_spec cfg (Nat.not_lt.mp hsize)
    rw [if_neg hsize]
    exact h.allocateToCache hnomet h1 h2 size hbs hres

theorem RecycleInv.doAlignedAlloc {align : Nat} (h : RecycleInv cfg s live H P)
    (hnomet : cfg.noMetStack = true) (hfit : AlignFits align size)
    (hres : doAlignedAlloc cfg os none t align size s = some (p, s')) :
    (p = 0 ∧ s' = s) ∨ ∃ H' P' len, RecycleInv cfg s' (⟨p, size, len⟩ :: live) H' P' := by
  obtain ⟨k, hk, rfl⟩ := hfit.pow
  by_cases hbig : page < alignSize size (2 ^ k)
  · refine (doAlignedAlloc_large h.heap (isPowerOfTwo_pow hk) hbig
      (fun ptr _ hend => (hfit.large hbig hend).2.2.1) hres).imp id ?_
    intro hex
    obtain ⟨d, s₂, free', seg, h₂, hf, ho, hd, hlen, hvalid, hapart, rfl, rfl⟩ := hex
    obtain ⟨hmax, hu32, hlo, hpos, hsize⟩ := hfit.large hbig (hlen ▸ hvalid.bound)
    have hown : ∀ {d' sg}, Owns s₂ d' sg → seg.Apart sg := fun hd' =>
      hapart _ (h.heap.region.mapped ((ho.owns _ _).mp hd'))
    have hcarved : ∀ x ∈ s₂.carved, x < seg.ptr ∨ seg.ptr + regionLen seg.length ≤ x := by
      intro x hx
      rcases hf.carvedOut x hx with hx | hx
      · exact (h.heap.fresh_seg hapart).2 x hx
      · exact hx seg (List.mem_cons_self ..)
    have hnotown : ∀ sg, ¬Owns s₂ d sg := fun sg hsg =>
      hd (h.heap.region.alloced ((ho.owns d sg).mp hsg))
    obtain ⟨hl, -⟩ := h₂.large (List.mem_cons_self ..) hvalid
      (hf.mapped seg (List.mem_cons_self ..)) hnotown hown hcarved rfl
      (hlen ▸ hmax) (hlen ▸ hu32) hlo (hlen ▸ hpos) size (hlen ▸ hsize)
    exact ⟨_, P, _, h.addLarge hd hf.partialList hf.threadCache ⟨hf.useBootstrap, hf.panicking⟩
      hf.descs ho.owns hl⟩
  · rw [doAlignedAlloc_small (isPowerOfTwo_pow hk) hbig] at hres
    obtain ⟨h1, h2, hbs⟩ := getSizeClass_spec cfg (le_maxSz_of_page hbig)
    obtain ⟨H', P', h'⟩ := h.allocateToCache hnomet h1 h2 size
      (Nat.le_trans hfit.le_alignSize hbs) hres
    exact Or.inr ⟨H', P', _, h'⟩

end Alloc

/-! ## Frees -/

section Free

variable {cfg : Cfg} {s s' : State} {H : Heap} {P : Nat → List Nat} {live : List Live}
  {t c d : Nat} {e : Live}

/-- If the bin is full, its flush counts right. -/
def BinOk (cfg : Cfg) (s : State) (t c : Nat) : Prop :=
  (cfg.sizeClass c).cacheBlockNum ≤ (s.threadCache t c).blockNum →
    ∀ l, Holds cfg.noMetStack s.mem (s.threadCache t c) l → FlushOk s l

/-- The page of a block names its descriptor, which knows the class. -/
theorem HeapInv.blockPage {x : Nat} (h : HeapInv cfg s H live) (hb : BlockOf cfg s d c x) :
    (getPageInfoForPtr s x).getDesc = some d ∧ (s.descs d).blockSize ≤ maxSz ∧
      getSizeClass (s.descs d).blockSize = c := by
  obtain ⟨seg, f⟩ := h.region.blockFacts hb
  have hd := (h.desc.addr d (h.desc.alloced_carved (h.region.alloced f.owns))).pos
  have hbs : (s.descs d).blockSize = classBlockSize c := f.super.blockSize.trans f.spec.blockSize_eq
  rw [hbs]
  exact ⟨PageInfo.getDesc_eq_some.mpr ⟨f.page, Nat.ne_of_gt hd⟩,
    classBlockSize_le_maxSz f.super.one_le f.super.lt,
    getSizeClass_classBlockSize f.super.one_le f.super.lt⟩

theorem HeapInv.getSizeClassIndex {x : Nat} (h : HeapInv cfg s H live)
    (hb : BlockOf cfg s d c x) :
    Apfmalloc.getSizeClassIndex s (getPageInfoForPtr s x) = some c := by
  obtain ⟨hdesc, hle, hclass⟩ := h.blockPage hb
  rw [getSizeClassIndex_class hdesc hle, hclass]

/-- A small block goes to the bin of its class, flushed first if it is full. -/
theorem HeapInv.doFree_flushed {x : Nat} (h : HeapInv cfg s H live) (hapf : cfg.useApf = false)
    (hb : BlockOf cfg s d c x) (hres : Apfmalloc.doFree cfg none t x s = some s') :
    ∃ s₁ bin m,
      (if (cfg.sizeClass c).cacheBlockNum ≤ (s.threadCache t c).blockNum then
        flushCache cfg t c s else some s) = some s₁ ∧
      (s₁.threadCache t c).pushBlock cfg.noMetStack s₁.mem x = some (bin, m) ∧
      s' = { s₁ with mem := m }.setBin t c bin := by
  obtain ⟨seg, f⟩ := h.region.blockFacts hb
  obtain ⟨hdesc, hle, hclass⟩ := h.blockPage hb
  rw [doFree_eq_freeSmall (Nat.ne_of_gt f.addr.pos) hdesc hle, hclass, freeSmall] at hres
  by_cases hfull : (cfg.sizeClass c).cacheBlockNum ≤ (s.threadCache t c).blockNum
  · simp only [hapf, hfull, ge_iff_le, and_self, if_true, Option.bind_eq_bind, Option.bind_some,
      Option.bind_eq_some_iff, Prod.exists, Option.some.injEq] at hres
    obtain ⟨s₁, hflush, bin, m, hpush, rfl⟩ := hres
    exact ⟨s₁, bin, m, by rw [if_pos hfull, hflush], hpush, rfl⟩
  · simp only [hfull, ge_iff_le, and_false, if_false, Option.bind_eq_bind, Option.bind_some,
      Option.bind_eq_some_iff, Prod.exists, Option.some.injEq] at hres
    obtain ⟨bin, m, hpush, rfl⟩ := hres
    exact ⟨s, bin, m, if_neg hfull, hpush, rfl⟩

/-- A flush leaves a live block where it is, in a superblock of its class. -/
theorem FlushExact.isBlock {H' : Heap} (hf : FlushExact cfg t c s s' H H')
    (hi : HeapInv cfg s H live) (hi' : HeapInv cfg s' H' live) (he : e ∈ live)
    (hb : IsBlock cfg s c e.ptr) : IsBlock cfg s' c e.ptr := by
  cases hi'.block.liveOk e he with
  | @small d' c' hb' _ _ _ =>
    obtain ⟨sg, ho, hheap, hx⟩ := hb'
    obtain ⟨ho₀, hh⟩ := hf.owns ho
    obtain ⟨d, hb⟩ := hb
    obtain ⟨rfl, rfl⟩ := hi.region.block_unique ⟨sg, ho₀, hh.symm.trans hheap, hx⟩ hb
    exact ⟨d', sg, ho, hheap, hx⟩
  | @large d' sg ho hheap hlo hpos hend _ _ =>
    -- its segment was large before, and no block starts in it
    obtain ⟨ho₀, hh⟩ := hf.owns ho
    obtain ⟨d, hb⟩ := hb
    have hout := hi.region.block_outside hb ho₀ (hb.ne_large (hh ▸ hheap))
    obtain ⟨seg, f⟩ := hi.region.blockFacts hb
    have := f.spec.blockSize_ge
    omega

theorem pushBlock_blockNum {noMet : Bool} {bin bin' : ThreadCacheBin} {m m' : Mem} {x : Nat}
    (h : bin.pushBlock noMet m x = some (bin', m')) : bin'.blockNum = bin.blockNum + 1 := by
  unfold ThreadCacheBin.pushBlock at h
  split at h
  next =>
    cases h
    rfl
  next => cases h

/-- **`do_free`** of a live block, with the flush of a full bin. -/
theorem RecycleInv.doFree (h : RecycleInv cfg s live H P) (hnomet : cfg.noMetStack = true)
    (hapf : cfg.useApf = false) (he : e ∈ live)
    (hok : ∀ c, getSizeClassIndex s (getPageInfoForPtr s e.ptr) = some c → BinOk cfg s t c)
    (hres : doFree cfg none t e.ptr s = some s') :
    ∃ H' P', RecycleInv cfg s' (live.erase e) H' P' := by
  cases h.heap.block.liveOk e he with
  | @small d c hb hplace hlen hsize =>
    obtain ⟨s₁, bin, m, hflush, hpush, rfl⟩ := h.heap.doFree_flushed hapf hb hres
    obtain ⟨seg, f⟩ := h.heap.region.blockFacts hb
    have hcache := cfg.cacheBlockNum_eq f.super.one_le f.super.lt
    have hge := f.spec.blockNum_ge
    obtain ⟨H₁, P₁, h₁, hblock, hlt⟩ : ∃ H₁ P₁, RecycleInv cfg s₁ live H₁ P₁ ∧
        IsBlock cfg s₁ c e.ptr ∧
        (s₁.threadCache t c).blockNum < (cfg.sizeClass c).cacheBlockNum := by
      split at hflush
      next hfull =>
        obtain ⟨H₁, P₁, hi₁, h₁, hf⟩ := flushCache_exact hnomet h.heap h.lists
          (hok c (h.heap.getSizeClassIndex hb) hfull _ (h.heap.block.holds t c)) hflush
        have hnum : (s₁.threadCache t c).blockNum = 0 := by
          rw [(hi₁.block.holds t c).num, hf.nil]
          rfl
        exact ⟨H₁, P₁, h.of_bin (flushLoop_only _ hflush) hi₁ h₁ (by omega),
          hf.isBlock h.heap hi₁ he ⟨d, hb⟩, by omega⟩
      next hfull =>
        obtain rfl : s = s₁ := Option.some.inj hflush
        exact ⟨H, P, h, ⟨d, hb⟩, Nat.lt_of_not_le hfull⟩
    have hnum := pushBlock_blockNum hpush
    have honly : OnlyBin t c s₁ ({ s₁ with mem := m }.setBin t c bin) :=
      ⟨fun _ _ hne => setBin_other _ t c bin hne, rfl, rfl⟩
    refine ⟨_, P₁, h₁.of_bin honly (h₁.heap.push he hblock hpush)
      (h₁.lists.congr rfl rfl rfl rfl) ?_⟩
    rw [setBin_same]
    omega
  | @large d seg ho hheap hlo hpos hend hsize hpage =>
    have hv := (h.heap.region.valid ho).pos
    rw [h.heap.doFree_large ho hheap (by omega) hpage, Option.some.injEq] at hres
    subst hres
    exact ⟨_, P, h.of_same (h.heap.freeLarge he ho hheap ⟨hlo, by omega⟩)
      (h.lists.dropLarge h.heap ho hheap) rfl rfl rfl⟩

end Free

/-! ## Runs -/

/-- A free into a full bin flushes it: the flush has to count right. -/
def RecycleOk (cfg : Cfg) (s : State) : AllocOp → Prop
  | .free t ptr => ∀ c, getSizeClassIndex s (getPageInfoForPtr s ptr) = some c → BinOk cfg s t c
  | _ => True

def RecycleStep (cfg : Cfg) (p : State × List Live) (op : AllocOp) (p' : State × List Live) :
    Prop :=
  AllocStep cfg p op p' ∧ RecycleOk cfg p.1 op

section Runs

variable {cfg : Cfg} {s : State} {live : List Live}

theorem recycleStep_inv (hnomet : cfg.noMetStack = true) (hapf : cfg.useApf = false)
    {p p' : State × List Live} {op : AllocOp} (h : ∃ H P, RecycleInv cfg p.1 p.2 H P)
    (hstep : RecycleStep cfg p op p') : ∃ H P, RecycleInv cfg p'.1 p'.2 H P := by
  obtain ⟨H, P, h⟩ := h
  obtain ⟨hstep, hok⟩ := hstep
  cases hstep with
  | malloc hfit hres =>
    obtain ⟨H', P', h'⟩ := h.doMalloc hnomet hfit hres
    rw [h'.heap.addLive_eq]
    exact ⟨H', P', h'⟩
  | alignedAlloc hfit hres =>
    rcases h.doAlignedAlloc hnomet hfit hres with ⟨rfl, rfl⟩ | ⟨H', P', len, h'⟩
    · exact ⟨H, P, h⟩
    · rw [h'.heap.addLive_eq]
      exact ⟨H', P', h'⟩
  | free he hres => exact h.doFree hnomet hapf he hok hres
  | write hm =>
    exact ⟨H, P, h.of_same (h.heap.write hm) (h.lists.congr rfl rfl rfl rfl) rfl rfl rfl⟩

theorem recycleInv_init {os : Os} (h : initMalloc os = some s) :
    ∃ H P, RecycleInv cfg s [] H P := by
  have hstart : AnchorInv cfg (s, []) := anchorInv_init h
  obtain ⟨H, P, hi, hp⟩ := hstart
  have hq := quiet_init h
  refine ⟨H, P, hi, hp, fun t c => ?_, hq.useBootstrap, hq.panicking⟩
  obtain ⟨seg, -, rfl⟩ := initMalloc_cases h
  exact Nat.zero_le _

/-- What holds between two operations: the live blocks are sound, the anchors are exact, no
bin outgrows a superblock, and a small malloc maps memory only if neither the bin of the
thread nor a superblock of the class has a block for it. -/
structure Recycles (cfg : Cfg) (s : State) (live : List Live) (bins : Nat → Nat → List Nat)
    (frees : Nat → List Nat) : Prop where
  apart : live.Pairwise Live.Apart
  carvedFrom : ∀ e ∈ live, ∃ d seg, CarvedFrom s e d seg
  anchors : AnchorsExact cfg s live bins frees
  bound : ∀ t c, (bins t c).length ≤ (cfg.sizeClass c).cacheBlockNum
  reuse : ∀ {os t size p s'}, size ≤ maxSz → doMalloc cfg os none t size s = some (p, s') →
    s'.mapped = s.mapped ∨ bins t (getSizeClass size) = [] ∧
      ∀ d seg, Owns s d seg → (s.descs d).procHeap = some (getSizeClass size) → frees d = []

theorem RecycleInv.recycles {H : Heap} {P : Nat → List Nat} (h : RecycleInv cfg s live H P)
    (hnomet : cfg.noMetStack = true) : Recycles cfg s live H.bins H.frees := by
  refine ⟨h.heap.block.liveApart, fun e he => h.heap.carvedFrom he,
    h.lists.anchorsExact hnomet h.heap, fun t c => ?_, fun {os t size p s'} hsize hres => ?_⟩
  · rw [← (h.heap.block.holds t c).num]
    exact h.bound t c
  · rw [Apfmalloc.doMalloc, if_neg (Nat.not_lt.mpr hsize)] at hres
    obtain ⟨s₁, bin, hs₁, -, -, rfl⟩ := allocateToCache_cases (h.off t) hres
    rcases hs₁ with rfl | ⟨hnum, hfill⟩
    · exact Or.inl rfl
    · cases (h.lists.refilled hnomet h.heap hnum hfill).1 with
      | reused _ _ _ hmapped => exact Or.inl hmapped
      | carved hall _ => exact Or.inr ⟨h.heap.bins_nil hnum, hall⟩

end Runs

/-- **Recycling.** Without tuners, in the `no_met_stack` build, whole runs of mallocs, aligned
mallocs, frees with their flushes and client writes lose no block and give no block twice, as
long as the flushes count right. -/
theorem recycling_sound {cfg : Cfg} (hnomet : cfg.noMetStack = true) (hapf : cfg.useApf = false)
    {os : Os} {s₀ s : State} {live : List Live} {ops : List AllocOp}
    (hinit : initMalloc os = some s₀)
    (hrun : Run (RecycleStep cfg) (s₀, []) ops (s, live)) :
    ∃ bins frees, Recycles cfg s live bins frees := by
  obtain ⟨H, P, h⟩ := Run.invariant (P := fun p => ∃ H P, RecycleInv cfg p.1 p.2 H P)
    (recycleStep_inv hnomet hapf) hrun (recycleInv_init hinit)
  exact ⟨H.bins, H.frees, h.recycles hnomet⟩

/-- Superblocks of four blocks, links that are addresses, and no tuners. -/
def Cfg.smallPlain : Cfg := { Cfg.smallNoMet with useApf := false }

/-- Two threads take a block each, and the first frees both: its bin is full of its own
superblock when the second comes, which goes back to the kernel. -/
theorem recycling_sound_unmaps :
    ∃ (s₀ s : State) (live : List Live) (x y : Nat), initMalloc Os.bump = some s₀ ∧
      Run (RecycleStep Cfg.smallPlain) (s₀, [])
        [.malloc 0 1024, .malloc 1 1024, .free 0 x, .free 0 y] (s, live) ∧
      s.mapped.length = s₀.mapped.length + 2 ∧
      ∃ bins frees, Recycles Cfg.smallPlain s live bins frees := by
  have h : ((initMalloc Os.bump).any fun s₀ =>
      (allocateToCache Cfg.smallPlain Os.bump none 0 1024 24 s₀).any fun r₁ =>
      (allocateToCache Cfg.smallPlain Os.bump none 1 1024 24 r₁.2).any fun r₂ =>
      (freeSmall Cfg.smallPlain none 0 24 r₁.1 r₂.2).any fun s₃ =>
      (freeSmall Cfg.smallPlain none 0 24 r₂.1 s₃).any fun s₄ =>
      (getPageInfoForPtr r₂.2 r₁.1).getDesc.any fun d =>
      (getPageInfoForPtr s₃ r₂.1).getDesc.any fun d' =>
      (r₁.1 ≠ 0 ∧ r₂.1 ≠ 0 ∧ r₂.1 ≠ r₁.1 ∧ (r₂.2.descs d).blockSize = 1024 ∧
        (s₃.descs d').blockSize = 1024 ∧ (r₂.2.threadCache 0 24).blockNum = 3 ∧
        (s₃.threadCache 0 24).blockNum = 4 ∧
        ChainTo (nextBlock true (s₃.threadCache 0 24).blockSize s₃.mem)
          (s₃.threadCache 0 24).block [r₁.1, r₁.1 + 1024, r₁.1 + 2048, r₁.1 + 3072] 0 ∧
        FlushOk s₃ [r₁.1, r₁.1 + 1024, r₁.1 + 2048, r₁.1 + 3072] ∧
        s₄.mapped.length = s₀.mapped.length + 2)) = true := by
    decide +kernel
  simp only [Option.any_eq_true, decide_eq_true_eq, Prod.exists] at h
  obtain ⟨s₀, hinit, x, s₁, hx, y, s₂, hy, s₃, hfx, s₄, hfy, d, hd, d', hd', hc⟩ := h
  obtain ⟨hx₀, hy₀, hne, hbs, hbs', hthree, hfour, hchain, hok, hlen⟩ := hc
  have hclass : getSizeClass 1024 = 24 :=
    getSizeClass_classBlockSize (c := 24) (by decide) (by decide)
  have hmalloc : ∀ t s, doMalloc Cfg.smallPlain Os.bump none t 1024 s =
      allocateToCache Cfg.smallPlain Os.bump none t 1024 24 s := fun t s => by
    rw [doMalloc, if_neg (by decide), hclass]
  have hindex : ∀ {s : State} {d z : Nat}, (getPageInfoForPtr s z).getDesc = some d →
      (s.descs d).blockSize = 1024 →
      getSizeClassIndex s (getPageInfoForPtr s z) = some 24 := fun {s d z} hd hbs => by
    obtain ⟨hpage, hne⟩ := PageInfo.getDesc_eq_some.mp hd
    rw [hpage, getSizeClassIndex, if_neg hne, hbs, if_neg (by decide), hclass]
  have hfree : ∀ {s s' : State} {d z : Nat}, z ≠ 0 → (getPageInfoForPtr s z).getDesc = some d →
      (s.descs d).blockSize = 1024 → freeSmall Cfg.smallPlain none 0 24 z s = some s' →
      doFree Cfg.smallPlain none 0 z s = some s' := fun {s s' d z} hz hd hbs hsmall => by
    rw [doFree_eq_freeSmall hz hd (by rw [hbs]; decide), hbs, hclass]
    exact hsmall
  obtain ⟨ex, hex⟩ : ∃ e : Live, e = ⟨x, 1024, usableSize s₁ x⟩ := ⟨_, rfl⟩
  obtain ⟨ey, hey⟩ : ∃ e : Live, e = ⟨y, 1024, usableSize s₂ y⟩ := ⟨_, rfl⟩
  have hlive : addLive s₂ y 1024 (addLive s₁ x 1024 []) = [ey, ex] := by
    rw [addLive, if_neg hy₀, addLive, if_neg hx₀, hex, hey]
  have hmem : ey ∈ [ey, ex].erase ex := by
    refine (List.mem_erase_of_ne fun he => hne ?_).mpr (List.mem_cons_self ..)
    rw [hex, hey] at he
    exact (Live.mk.inj he).1
  have hstep₁ : RecycleStep Cfg.smallPlain (s₀, []) (.malloc 0 1024) (s₁, addLive s₁ x 1024 []) :=
    ⟨.malloc (by decide) ((hmalloc 0 s₀).trans hx), trivial⟩
  have hstep₂ : RecycleStep Cfg.smallPlain (s₁, addLive s₁ x 1024 []) (.malloc 1 1024)
      (s₂, [ey, ex]) := by
    rw [← hlive]
    exact ⟨.malloc (by decide) ((hmalloc 1 s₁).trans hy), trivial⟩
  have hstep₃ : RecycleStep Cfg.smallPlain (s₂, [ey, ex]) (.free 0 ex.ptr)
      (s₃, [ey, ex].erase ex) := by
    have hptr : ex.ptr = x := by rw [hex]
    refine ⟨.free (by simp) (hptr ▸ hfree hx₀ hd hbs hfx), fun c hc hfull => ?_⟩
    rw [hptr, hindex hd hbs] at hc
    obtain rfl := Option.some.inj hc
    rw [hthree] at hfull
    exact absurd hfull (by decide)
  have hstep₄ : RecycleStep Cfg.smallPlain (s₃, [ey, ex].erase ex) (.free 0 ey.ptr)
      (s₄, ([ey, ex].erase ex).erase ey) := by
    have hptr : ey.ptr = y := by rw [hey]
    refine ⟨.free hmem (hptr ▸ hfree hy₀ hd' hbs' hfy), fun c hc _ l hl => ?_⟩
    rw [hptr, hindex hd' hbs'] at hc
    obtain rfl := Option.some.inj hc
    have hholds : Holds true s₃.mem (s₃.threadCache 0 24)
      [x, x + 1024, x + 2048, x + 3072] := ⟨hfour, _, hchain⟩
    rw [hl.unique hholds]
    exact hok
  have hrun := Run.cons hstep₁ (.cons hstep₂ (.cons hstep₃ (.cons hstep₄ (.nil _))))
  exact ⟨s₀, s₄, _, ex.ptr, ey.ptr, hinit, hrun, hlen, recycling_sound rfl rfl hinit hrun⟩

end Apfmalloc
