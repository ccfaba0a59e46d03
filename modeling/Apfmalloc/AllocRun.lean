import Apfmalloc.HeapMalloc

/-!
# Runs of the allocator

Any number of threads, any order of mallocs, aligned mallocs, frees of live
blocks and writes of clients into live blocks, one whole operation at a time.
The kernel answers each operation afresh.

The state of the run carries the live blocks beside the allocator's own state: a
successful allocation adds one, as long as `usableSize` says, and a free takes it
away. The invariant of the run is the heap invariant with empty free lists, since
nothing puts a block on one while `USE_APF` is on.
-/

namespace Apfmalloc

open Base

/-! ## `do_free` -/

/-- Nothing but the tuner and a bin stands between a small block and its class. -/
theorem HeapInv.doFree_small {cfg : Cfg} {s : State} {H : Heap} {live : List Live} {d c x : Nat}
    (h : HeapInv cfg s H live) (hapf : cfg.useApf = true) (hb : BlockOf cfg s d c x) (t : Nat) :
    doFree cfg none t x s =
      ((s.threadCache t c).pushBlock cfg.noMetStack s.mem x).map fun r =>
        { s with mem := r.2 }.setBin t c r.1 := by
  obtain ⟨seg, f⟩ := h.region.blockFacts hb
  have hd := (h.desc.addr d (h.desc.alloced_carved (h.region.alloced f.owns))).pos
  have hbs : (s.descs d).blockSize = classBlockSize c := f.super.blockSize.trans f.spec.blockSize_eq
  have hle : (s.descs d).blockSize ≤ maxSz := by
    rw [hbs]
    exact classBlockSize_le_maxSz f.super.one_le f.super.lt
  rw [doFree_eq_freeSmall (Nat.ne_of_gt f.addr.pos)
    (PageInfo.getDesc_eq_some.mpr ⟨f.page, Nat.ne_of_gt hd⟩) hle, hbs,
    getSizeClass_classBlockSize f.super.one_le f.super.lt]
  unfold freeSmall
  simp only [hapf, Bool.true_eq_false, false_and, if_false, Option.bind_eq_bind, Option.bind_some]
  cases hp : (s.threadCache t c).pushBlock cfg.noMetStack s.mem x <;> rfl

/-- What a large record names is freed as a large block. -/
theorem doFree_own {cfg : Cfg} {s : State} {d ptr : Nat} {seg : Segment} (hd : 0 < d)
    (ho : Owns s d seg) (hpos : seg.ptr ≠ 0) (hbig : maxSz < (s.descs d).blockSize)
    (hptr : ptr ≠ 0) (hpage : getPageInfoForPtr s ptr = ⟨d⟩) (tuner : Option Nat) (t : Nat) :
    doFree cfg tuner t ptr s = some (Descriptor.retire d (s.dropLarge d seg)) := by
  rw [doFree_eq_freeLarge hptr (PageInfo.getDesc_eq_some.mpr ⟨hpage, Nat.ne_of_gt hd⟩) hbig]
  exact freeLarge_eq ho hpos

theorem HeapInv.doFree_large {cfg : Cfg} {s : State} {H : Heap} {live : List Live} {d ptr : Nat}
    {seg : Segment} (h : HeapInv cfg s H live) (ho : Owns s d seg)
    (hheap : (s.descs d).procHeap = none) (hptr : ptr ≠ 0)
    (hpage : getPageInfoForPtr s ptr = ⟨d⟩) (tuner : Option Nat) (t : Nat) :
    doFree cfg tuner t ptr s = some (Descriptor.retire d (s.dropLarge d seg)) := by
  have hd := (h.desc.addr d (h.desc.alloced_carved (h.region.alloced ho))).pos
  obtain ⟨hbig, hbs⟩ := h.region.large ho hheap
  exact doFree_own hd ho (Nat.ne_of_gt (h.region.valid ho).pos) (hbs ▸ hbig) hptr hpage tuner t

/-- **`do_free`** of a live block takes it off the live blocks. No block goes to a
free list. -/
theorem HeapInv.doFree {cfg : Cfg} {s s' : State} {H : Heap} {live : List Live} {e : Live} {t : Nat}
    (h : HeapInv cfg s H live) (hapf : cfg.useApf = true) (he : e ∈ live)
    (hres : doFree cfg none t e.ptr s = some s') :
    ∃ H', HeapInv cfg s' H' (live.erase e) ∧ SameMode s s' ∧
      ∀ c x, IsBlock cfg s' c x → H'.place x = .free → IsBlock cfg s c x ∧ H.place x = .free := by
  cases h.block.liveOk e he with
  | @small d c hb hplace hlen hsize =>
    rw [h.doFree_small hapf hb, Option.map_eq_some_iff] at hres
    obtain ⟨⟨bin, m⟩, hpush, rfl⟩ := hres
    refine ⟨_, h.push he ⟨d, hb⟩ hpush, ⟨rfl, rfl, rfl⟩, fun c' x hbx hx => ⟨hbx, ?_⟩⟩
    by_cases hne : x = e.ptr
    · rw [hne, Heap.setPlace_same] at hx
      cases hx
    · rw [Heap.setPlace_other _ _ hne] at hx
      exact hx
  | @large d seg ho hheap hlo hpos hend hsize hpage =>
    have hv := (h.region.valid ho).pos
    rw [h.doFree_large ho hheap (by omega) hpage, Option.some.injEq] at hres
    subst hres
    refine ⟨_, h.freeLarge he ho hheap ⟨hlo, by omega⟩, ⟨rfl, rfl, rfl⟩,
      fun c x hbx hx => ⟨?_, hx⟩⟩
    obtain ⟨d', hbx⟩ := hbx
    exact ⟨d', ((removes_dropLarge ho (h.region.valid ho)).blockOf_iff.mp hbx).2⟩

/-! ## The length of a block -/

/-- How many bytes there are from `ptr` on: the block of a size class, or the rest
of a large segment. -/
def usableSize (s : State) (ptr : Nat) : Nat :=
  match (getPageInfoForPtr s ptr).getDesc with
  | none => 0
  | some d =>
    match (s.descs d).procHeap, (s.descs d).superBlock with
    | some _, _ => (s.descs d).blockSize
    | none, some seg => seg.ptr + seg.length - ptr
    | none, none => 0

theorem HeapInv.usableSize {cfg : Cfg} {s : State} {H : Heap} {live : List Live}
    (h : HeapInv cfg s H live) {e : Live} (he : e ∈ live) : usableSize s e.ptr = e.len := by
  have hdesc : ∀ {d seg}, Owns s d seg → PageInfo.getDesc ⟨d⟩ = some d := fun ho => by
    have hd := (h.desc.addr _ (h.desc.alloced_carved (h.region.alloced ho))).pos
    exact if_neg (Nat.ne_of_gt hd)
  unfold Apfmalloc.usableSize
  cases h.block.liveOk e he with
  | @small d c hb hplace hlen hsize =>
    obtain ⟨seg, f⟩ := h.region.blockFacts hb
    simp only [f.page, hdesc f.owns, f.heap, f.super.blockSize, hlen]
  | @large d seg ho hheap hlo hpos hend hsize hpage =>
    have hp : getPageInfoForPtr s e.ptr = ⟨d⟩ := hpage
    simp only [hp, hdesc ho, hheap, show (s.descs d).superBlock = some seg from ho]
    omega

/-! ## Runs -/

/-- Threads by number. A `write` is any writes of clients into live blocks. -/
inductive AllocOp
  | malloc (t size : Nat)
  | alignedAlloc (t align size : Nat)
  | free (t ptr : Nat)
  | write

/-- The live blocks after an allocation answered `p`. -/
def addLive (s : State) (p size : Nat) (live : List Live) : List Live :=
  if p = 0 then live else ⟨p, size, usableSize s p⟩ :: live

inductive AllocStep (cfg : Cfg) : State × List Live → AllocOp → State × List Live → Prop
  | malloc {s s' : State} {live : List Live} {os : Os} {t size p : Nat} :
      regionLen size < u32Size → doMalloc cfg os none t size s = some (p, s') →
      AllocStep cfg (s, live) (.malloc t size) (s', addLive s' p size live)
  | alignedAlloc {s s' : State} {live : List Live} {os : Os} {t align size p : Nat} :
      AlignFits align size → doAlignedAlloc cfg os none t align size s = some (p, s') →
      AllocStep cfg (s, live) (.alignedAlloc t align size) (s', addLive s' p size live)
  | free {s s' : State} {live : List Live} {t : Nat} {e : Live} :
      e ∈ live → doFree cfg none t e.ptr s = some s' →
      AllocStep cfg (s, live) (.free t e.ptr) (s', live.erase e)
  | write {s : State} {live : List Live} {m : Mem} :
      (∀ a, (∀ e ∈ live, ¬(e.ptr ≤ a ∧ a < e.ptr + e.len)) → m a = s.mem a) →
      AllocStep cfg (s, live) .write ({ s with mem := m }, live)

/-- The invariant of a run: a heap whose free lists are empty. -/
structure RunInv (cfg : Cfg) (s : State) (H : Heap) (live : List Live) : Prop where
  heap : HeapInv cfg s H live
  quiet : Quiet s
  noFree : ∀ c x, IsBlock cfg s c x → H.place x ≠ .free

theorem RunInv.extends {cfg : Cfg} {s s' : State} {H H' : Heap} {live live' : List Live}
    (h : RunInv cfg s H live) (h' : HeapInv cfg s' H' live') (hext : Extends cfg s s' H H') :
    RunInv cfg s' H' live' := by
  refine ⟨h', h.quiet.of_same hext.mode, fun c x hb hx => ?_⟩
  obtain ⟨hb, hx⟩ := hext.free c x hb hx
  exact h.noFree c x hb hx

/-- The pointer of a live block is not NULL. -/
theorem HeapInv.live_ne_zero {cfg : Cfg} {s : State} {H : Heap} {live : List Live}
    (h : HeapInv cfg s H live) {e : Live} (he : e ∈ live) : e.ptr ≠ 0 := by
  obtain ⟨d, seg, ho, -, hlo, -⟩ := h.region.live_seg (h.block.liveOk e he)
  have := (h.region.valid ho).pos
  omega

theorem HeapInv.addLive_eq {cfg : Cfg} {s : State} {H : Heap} {live : List Live} {p size len : Nat}
    (h : HeapInv cfg s H (⟨p, size, len⟩ :: live)) :
    addLive s p size live = ⟨p, size, len⟩ :: live := by
  have hlen : Apfmalloc.usableSize s p = len :=
    h.usableSize (e := ⟨p, size, len⟩) (List.mem_cons_self ..)
  have hp : p ≠ 0 := h.live_ne_zero (e := ⟨p, size, len⟩) (List.mem_cons_self ..)
  rw [addLive, if_neg hp, hlen]

section

variable {cfg : Cfg} {os : Os} {t size p : Nat} {s s' : State} {H : Heap} {live : List Live}

theorem RunInv.doMalloc (h : RunInv cfg s H live) (hfit : regionLen size < u32Size)
    (hres : doMalloc cfg os none t size s = some (p, s')) :
    ∃ H', HeapInv cfg s' H' (⟨p, size, mallocLen cfg size⟩ :: live) ∧ Extends cfg s s' H H' :=
  h.heap.doMalloc h.quiet.partialList (fun _ => h.quiet.off t) hfit hres

theorem RunInv.doAlignedAlloc {align : Nat} (h : RunInv cfg s H live) (hfit : AlignFits align size)
    (hres : doAlignedAlloc cfg os none t align size s = some (p, s')) :
    (p = 0 ∧ s' = s) ∨
      ∃ H' len, HeapInv cfg s' H' (⟨p, size, len⟩ :: live) ∧ Extends cfg s s' H H' :=
  h.heap.doAlignedAlloc h.quiet.partialList (fun _ => h.quiet.off t) hfit hres

end

theorem allocStep_inv {cfg : Cfg} (hapf : cfg.useApf = true) {s s' : State × List Live}
    {op : AllocOp} (h : ∃ H, RunInv cfg s.1 H s.2) (hstep : AllocStep cfg s op s') :
    ∃ H', RunInv cfg s'.1 H' s'.2 := by
  obtain ⟨H, h⟩ := h
  cases hstep with
  | malloc hfit hres =>
    obtain ⟨H', h', hext⟩ := h.doMalloc hfit hres
    rw [h'.addLive_eq]
    exact ⟨H', h.extends h' hext⟩
  | alignedAlloc hfit hres =>
    rcases h.doAlignedAlloc hfit hres with ⟨rfl, rfl⟩ | ⟨H', len, h', hext⟩
    · exact ⟨H, h⟩
    · rw [h'.addLive_eq]
      exact ⟨H', h.extends h' hext⟩
  | free he hres =>
    obtain ⟨H', h', hmode, hfree⟩ := h.heap.doFree hapf he hres
    refine ⟨H', h', h.quiet.of_same hmode, fun c x hb hx => ?_⟩
    obtain ⟨hb, hx⟩ := hfree c x hb hx
    exact h.noFree c x hb hx
  | write hm =>
    exact ⟨H, h.heap.write hm, ⟨h.quiet.partialList, h.quiet.useBootstrap, h.quiet.panicking⟩,
      h.noFree⟩

/-! ## The start -/

theorem initMalloc_cases {os : Os} {s : State} (h : initMalloc os = some s) :
    ∃ seg : Segment, seg.Valid ∧
      s = { startState with
            mapped := [seg], mem := zeroFill startState.mem seg.ptr (regionLen seg.length),
            bootstrapReserve :=
              ⟨[seg], seg.ptr, BootstrapReserve.maxSize, BootstrapReserve.maxSize⟩ } := by
  simp only [initMalloc, Option.bind_eq_bind, Option.bind_eq_some_iff, Prod.exists,
    Option.some.injEq] at h
  obtain ⟨seg, s₁, hseg, rfl⟩ := h
  obtain ⟨hlen, hvalid, -, rfl⟩ := segAllocate_cases hseg
  exact ⟨seg, hvalid, by rw [hlen]; rfl⟩

/-- The heap before the first allocation. -/
def Heap.start : Heap := ⟨[], [], fun _ => .live, fun _ _ => [], fun _ => []⟩

theorem quiet_init {os : Os} {s : State} (h : initMalloc os = some s) : Quiet s := by
  obtain ⟨seg, -, rfl⟩ := initMalloc_cases h
  exact ⟨fun _ => rfl, rfl, fun _ => rfl⟩

theorem heapInv_init {cfg : Cfg} {os : Os} {s : State} (h : initMalloc os = some s) :
    HeapInv cfg s Heap.start [] := by
  obtain ⟨seg, -, rfl⟩ := initMalloc_cases h
  have hown : ∀ {d sg}, ¬Owns { startState with
      mapped := [seg], mem := zeroFill startState.mem seg.ptr (regionLen seg.length),
      bootstrapReserve :=
        ⟨[seg], seg.ptr, BootstrapReserve.maxSize, BootstrapReserve.maxSize⟩ } d sg := by
    intro d sg ho
    cases ho
  refine ⟨⟨getDesc_new, .refl _, List.nodup_nil, fun _ hd => (List.not_mem_nil hd).elim,
      fun _ hd => (List.not_mem_nil hd).elim⟩,
    ⟨fun ho => absurd ho hown, fun ho => absurd ho hown, fun ho => absurd ho hown,
      fun ho => absurd ho hown, fun ho => absurd ho hown, fun ho => absurd ho hown,
      fun ho => absurd ho hown⟩,
    ⟨fun t c => holds_empty _ _ rfl, fun _ _ => List.nodup_nil, fun t c x => ?_,
      fun ho => absurd ho hown, fun ho => absurd ho hown, fun ho => absurd ho hown,
      fun _ he => (List.not_mem_nil he).elim, fun c x hb => ?_, List.Pairwise.nil⟩⟩
  · refine ⟨fun hx => (List.not_mem_nil hx).elim, fun hx => ?_⟩
    cases hx.1
  · obtain ⟨d, sg, ho, -⟩ := hb
    exact absurd ho hown

theorem runInv_init {cfg : Cfg} {os : Os} {s : State} (h : initMalloc os = some s) :
    RunInv cfg s Heap.start [] :=
  ⟨heapInv_init h, quiet_init h, fun _ _ _ hx => by cases hx⟩

/-! ## What holds in every state of a run -/

/-- A live block lies in the segment of descriptor `d` and of no other, is as long
as was asked for, and its page names `d`. -/
structure CarvedFrom (s : State) (e : Live) (d : Nat) (seg : Segment) : Prop where
  owns : Owns s d seg
  lo : seg.ptr ≤ e.ptr
  hi : e.ptr + e.len ≤ seg.ptr + seg.length
  size : e.size ≤ e.len
  page : getPageInfoForPtr s e.ptr = ⟨d⟩
  only : ∀ d' seg', Owns s d' seg' → seg'.ptr ≤ e.ptr → e.ptr < seg'.ptr + seg'.length → d' = d

/-- What a free does with `ptr`: a block of a superblock goes to the caller's bin
of the class of the superblock, a large block's segment is unmapped and its
descriptor has none any more. -/
inductive FreeGoes (cfg : Cfg) (s : State) (ptr d : Nat) (seg : Segment) : Prop
  | bin {c : Nat} : BlockOf cfg s d c ptr →
      (∀ t, doFree cfg none t ptr s =
        ((s.threadCache t c).pushBlock cfg.noMetStack s.mem ptr).map fun r =>
          { s with mem := r.2 }.setBin t c r.1) → FreeGoes cfg s ptr d seg
  | kernel : (s.descs d).procHeap = none →
      (∀ t, ∃ s', doFree cfg none t ptr s = some s' ∧ s'.mapped = s.mapped.erase seg ∧
        (s'.descs d).superBlock = none ∧
        ∀ d', d' ≠ d → s'.descs d' = s.descs d') → FreeGoes cfg s ptr d seg

/-- The bins are the lists `bins`, and every block of a superblock is live or in
one bin, of its class, once. -/
structure BinsPartition (cfg : Cfg) (s : State) (live : List Live)
    (bins : Nat → Nat → List Nat) : Prop where
  holds : ∀ t c, Holds cfg.noMetStack s.mem (s.threadCache t c) (bins t c)
  nodup : ∀ t c, (bins t c).Nodup
  blocks : ∀ t c, ∀ x ∈ bins t c, IsBlock cfg s c x
  one : ∀ c x, IsBlock cfg s c x →
    (x ∈ live.map Live.ptr ∧ ∀ t c', x ∉ bins t c') ∨
    (x ∉ live.map Live.ptr ∧ ∃ t, x ∈ bins t c ∧ ∀ t' c', x ∈ bins t' c' → t' = t ∧ c' = c)

theorem HeapInv.carvedFrom {cfg : Cfg} {s : State} {H : Heap} {live : List Live}
    (h : HeapInv cfg s H live) {e : Live} (he : e ∈ live) : ∃ d seg, CarvedFrom s e d seg := by
  obtain ⟨d, seg, ho, hpage, hlo, hpos, hhi, hsize⟩ := h.region.live_seg (h.block.liveOk e he)
  refine ⟨d, seg, ho, hlo, hhi, hsize, hpage, fun d' seg' ho' hlo' hhi' => ?_⟩
  by_cases hne : d' = d
  · exact hne
  · have hap := h.region.apart ho' ho hne
    have h1 := (regionLen_bounds seg.length).1
    have h2 := (regionLen_bounds seg'.length).1
    unfold Segment.Apart at hap
    omega

theorem HeapInv.freeGoes {cfg : Cfg} {s : State} {H : Heap} {live : List Live} {e : Live} {d : Nat}
    {seg : Segment} (h : HeapInv cfg s H live) (hapf : cfg.useApf = true) (he : e ∈ live)
    (hc : CarvedFrom s e d seg) : FreeGoes cfg s e.ptr d seg := by
  cases h.block.liveOk e he with
  | @small d' c hb hplace hlen hsize =>
    obtain ⟨seg', f⟩ := h.region.blockFacts hb
    -- the page of the block names the descriptor it is a block of
    obtain rfl : d' = d := by
      have hp := f.page
      rw [hc.page] at hp
      exact (PageInfo.mk.inj hp).symm
    exact .bin hb (h.doFree_small hapf hb)
  | @large d' seg' ho hheap hlo hpos hend hsize hpage =>
    obtain rfl : d' = d := by
      have hp := hc.page
      rw [getPageInfoForPtr, hpage] at hp
      exact PageInfo.mk.inj hp
    obtain rfl := ho.unique hc.owns
    have hfree := h.doFree_large ho hheap (h.live_ne_zero he) hpage none
    refine .kernel hheap fun t => ⟨_, hfree t, rfl, ?_, fun d hne => ?_⟩
    · rw [Descriptor.retire]
      simp only [State.dropLarge, segDeallocate, setDesc_same]
    · rw [Descriptor.retire]
      simp only [State.dropLarge, segDeallocate, setDesc_other _ _ _ hne]

theorem RunInv.binsPartition {cfg : Cfg} {s : State} {H : Heap} {live : List Live}
    (h : RunInv cfg s H live) : BinsPartition cfg s live H.bins := by
  have hb := h.heap.block
  refine ⟨hb.holds, hb.binNodup, fun t c x hx => ((hb.binMem t c x).mp hx).2,
    fun c x hbx => ?_⟩
  -- for a block, live is a place like the others
  have hlive : x ∈ live.map Live.ptr ↔ H.place x = .live := by
    rw [List.mem_map]
    refine ⟨fun hex => ?_, fun hx => hb.liveAll c x hbx hx⟩
    obtain ⟨e, he, rfl⟩ := hex
    exact (hb.live_small h.heap.region he hbx).1
  cases hp : H.place x with
  | live =>
    refine Or.inl ⟨hlive.mpr hp, fun t c' hx => ?_⟩
    rw [((hb.binMem t c' x).mp hx).1] at hp
    cases hp
  | bin t =>
    refine Or.inr ⟨fun hx => ?_, t, (hb.binMem t c x).mpr ⟨hp, hbx⟩, fun t' c' hx => ?_⟩
    · rw [hlive.mp hx] at hp
      cases hp
    · obtain ⟨hp', d', hbx'⟩ := (hb.binMem t' c' x).mp hx
      obtain ⟨d, hbx⟩ := hbx
      rw [hp] at hp'
      exact ⟨(Place.bin.inj hp').symm, (h.heap.region.block_unique hbx' hbx).2⟩
  | free => exact absurd hp (h.noFree c x hbx)

/-- **Live blocks are sound.** After any interleaving of operations of any threads
the live blocks do not overlap, each lies with its whole length in the segment of
one descriptor, its page names that descriptor and a free gives it back there;
and every block of every superblock is live or in exactly one bin. -/
theorem live_blocks_sound {cfg : Cfg} (hapf : cfg.useApf = true) {os : Os} {s₀ s : State}
    {live : List Live} {ops : List AllocOp} (hinit : initMalloc os = some s₀)
    (hrun : Run (AllocStep cfg) (s₀, []) ops (s, live)) :
    live.Pairwise Live.Apart ∧
    (∀ e ∈ live, ∃ d seg, CarvedFrom s e d seg ∧ FreeGoes cfg s e.ptr d seg) ∧
    ∃ bins, BinsPartition cfg s live bins := by
  obtain ⟨H, h⟩ := Run.invariant (P := fun p => ∃ H, RunInv cfg p.1 H p.2) (allocStep_inv hapf) hrun
    ⟨Heap.start, runInv_init hinit⟩
  refine ⟨h.heap.block.liveApart, fun e he => ?_, H.bins, h.binsPartition⟩
  obtain ⟨d, seg, hc⟩ := h.heap.carvedFrom he
  exact ⟨d, seg, hc, h.heap.freeGoes hapf he hc⟩

theorem getSizeClass_eight : getSizeClass 8 = 1 :=
  getSizeClass_eq (by decide) ⟨by decide, by decide, fun _ h1 h2 => by omega⟩

/-- Thread 0 takes a small block, thread 1 a large one, which thread 0 frees. -/
theorem live_blocks_sound_foreign :
    ∃ (s₀ s : State) (live : List Live) (p : Nat), initMalloc Os.bump = some s₀ ∧
      Run (AllocStep Cfg.default) (s₀, []) [.malloc 0 8, .malloc 1 20000, .free 0 p] (s, live) ∧
      live.Pairwise Live.Apart ∧ ∃ bins, BinsPartition Cfg.default s live bins := by
  have h : ((initMalloc Os.bump).any fun s₀ =>
      (allocateToCache Cfg.default Os.bump none 0 8 1 s₀).any fun r₁ =>
      (doMalloc Cfg.default Os.bump none 1 20000 r₁.2).any fun r₂ =>
      (doFree Cfg.default none 0 r₂.1 r₂.2).any fun _ =>
      r₁.1 ≠ 0 ∧ r₂.1 ≠ 0) = true := by
    decide +kernel
  simp only [Option.any_eq_true, decide_eq_true_eq, Prod.exists] at h
  obtain ⟨s₀, hinit, p₁, s₁, hsmall, p₂, s₂, hlarge, s₃, hfree, hc⟩ := h
  have hmalloc : doMalloc Cfg.default Os.bump none 0 8 s₀ = some (p₁, s₁) := by
    rw [doMalloc, if_neg (by decide), getSizeClass_eight]
    exact hsmall
  have hmem : (⟨p₂, 20000, usableSize s₂ p₂⟩ : Live) ∈
      addLive s₂ p₂ 20000 (addLive s₁ p₁ 8 []) := by
    rw [addLive, if_neg hc.2]
    exact List.mem_cons_self ..
  have hrun := Run.cons (.malloc (by decide) hmalloc)
    (.cons (.malloc (by decide) hlarge) (.cons (AllocStep.free hmem hfree) (.nil _)))
  obtain ⟨hap, -, hbins⟩ := @live_blocks_sound Cfg.default rfl _ _ _ _ _ hinit hrun
  exact ⟨s₀, s₃, _, p₂, hinit, hrun, hap, hbins⟩

end Apfmalloc
