import Apfmalloc.CApi

/-!
# The record of a live block

`get_allocation_size`, `do_free` and `do_realloc` know of a block what the page map and its
descriptor say: nothing is stored with the block itself. Every allocation writes the page map
and takes a descriptor, every large free gives its descriptor to the next one, and pages are
handed out again under other owners. `run_record` is what a program relies on all the same:
from the allocation of a block to its free or realloc, its record is frozen, whatever the
threads do in between.

An allocation keeps every descriptor that owns a segment, with the entries of the pages of
that (`OwnersKept`). A free gives up one owner, and no two live blocks that a free could
confuse share one (`HeapInv.doFree_record`).
-/

namespace Apfmalloc

open Base

/-! ## Owners -/

/-- The descriptor `d` and the entries of the pages of its segment are as they were. -/
structure OwnerKept (s s' : State) (d : Nat) (seg : Segment) : Prop where
  desc : s'.descs d = s.descs d
  pageMap : ∀ k, PageOf seg.ptr (regionLen seg.length) k → s'.pageMap k = s.pageMap k

def OwnersKept (s s' : State) : Prop := ∀ d seg, Owns s d seg → OwnerKept s s' d seg

theorem OwnersKept.of_eq {s s' : State} (hd : s'.descs = s.descs) (hp : s'.pageMap = s.pageMap) :
    OwnersKept s s' := by
  intro d seg _
  exact ⟨by rw [hd], fun k _ => by rw [hp]⟩

theorem OwnersKept.trans {s s₁ s₂ : State} (h : OwnersKept s s₁) (h' : OwnersKept s₁ s₂) :
    OwnersKept s s₂ := by
  intro d seg ho
  have hk := h d seg ho
  have hk' := h' d seg (by rw [Owns, hk.desc]; exact ho)
  exact ⟨hk'.desc.trans hk.desc, fun k hin => (hk'.pageMap k hin).trans (hk.pageMap k hin)⟩

theorem AddsRegion.ownersKept {cfg : Cfg} {s s' : State} {d : Nat} {seg : Segment}
    {alloced : List Nat} (h : AddsRegion s s' d seg) (hr : RegionInv cfg s alloced) :
    OwnersKept s s' := fun d' _ ho =>
  ⟨h.descs d' (h.owns_old ho).1, fun _ hk => h.pageMap_out ho (hr.valid ho) hk⟩

section Allocations

variable {cfg : Cfg} {os : Os} {s s' : State} {H : Heap} {live : List Live} {t size p : Nat}

theorem HeapInv.allocDesc_owners {d : Nat} (h : HeapInv cfg s H live)
    (halloc : Descriptor.alloc cfg os s = some (d, s')) : OwnersKept s s' := by
  obtain ⟨-, -, -, hf, -⟩ := h.allocDesc halloc
  intro d' seg ho
  exact ⟨hf.descs d' (h.desc.alloced_carved (h.region.alloced ho)), fun k _ => by rw [hf.pageMap]⟩

/-- A large block in a segment apart from all that is owned. -/
theorem HeapInv.addLarge_owners {d pages ptr : Nat} {seg : Segment} (h : HeapInv cfg s H live)
    (hnew : ∀ sg, ¬Owns s d sg) (hv : seg.Valid) (hown : ∀ d' sg, Owns s d' sg → seg.Apart sg)
    (hin : seg.ptr ≤ ptr ∧ ptr < seg.ptr + seg.length) :
    OwnersKept s (s.addLarge d pages seg ptr) := by
  intro d' sg ho
  have hd : d' ≠ d := fun he => hnew sg (he ▸ ho)
  refine ⟨if_neg hd, fun k hk => ?_⟩
  have hv' := h.region.valid ho
  have hreg := (regionLen_bounds seg.length).1
  have hne : ∀ a, seg.ptr ≤ a → a < seg.ptr + seg.length → k ≠ addrToKey a := fun a hlo hhi he =>
    pageOf_disjoint hv.aligned hv'.aligned (regionLen_mod _) (regionLen_mod _) hv.bound hv'.bound
      (hown d' sg ho) ⟨a, hlo, by omega, he⟩ hk
  show setPageInfo (setPageInfo s.pageMap seg.ptr ⟨d⟩) ptr ⟨d⟩ k = _
  rw [setPageInfo, if_neg (hne ptr hin.1 hin.2), setPageInfo,
    if_neg (hne seg.ptr (Nat.le_refl _) (by omega))]

theorem HeapInv.fill_owners {c : Nat} (h : HeapInv cfg s H live) (h1 : 1 ≤ c) (h2 : c < maxSzIdx)
    (hpart : s.partialList c = none) (hfill : fillCache cfg os t c s = some s') :
    OwnersKept s s' := by
  obtain ⟨d, s₁, seg, halloc, hlen, hv, hap, -, hsb⟩ := fillCache_fresh hpart hfill
  obtain ⟨free', h₁, hd, -, ho⟩ := h.allocDesc halloc
  obtain ⟨hown, hcarved⟩ := h₁.fresh_seg hap
  have hnew : ∀ sg, ¬Owns s₁ d sg := fun sg hsg =>
    hd (h.region.alloced ((ho.owns d sg).mp hsg))
  have ha := hsb.addsRegion (cfg.classSpec h1 h2) hlen hv hnew hown hcarved
  have hmap : OwnersKept s₁ { s₁ with
      mapped := seg :: s₁.mapped, mem := zeroFill s₁.mem seg.ptr (regionLen seg.length) } :=
    .of_eq rfl rfl
  exact ((h.allocDesc_owners halloc).trans hmap).trans (ha.ownersKept (h₁.map hap).region)

theorem HeapInv.allocateToCache_owners {c : Nat} (h : HeapInv cfg s H live)
    (hoff : ¬(s.panicking t = true ∨ s.useBootstrap = true)) (hpart : s.partialList c = none)
    (h1 : 1 ≤ c) (h2 : c < maxSzIdx)
    (hres : Apfmalloc.allocateToCache cfg os none t size c s = some (p, s')) :
    OwnersKept s s' := by
  obtain ⟨s₁, bin, hs₁, -, -, rfl⟩ := allocateToCache_cases hoff hres
  have hset : OwnersKept s₁ (s₁.setBin t c bin) := .of_eq rfl rfl
  rcases hs₁ with rfl | ⟨-, hfill⟩
  · exact hset
  · exact (h.fill_owners h1 h2 hpart hfill).trans hset

theorem HeapInv.doMalloc_owners (h : HeapInv cfg s H live) (hpart : ∀ c, s.partialList c = none)
    (hoff : size ≤ maxSz → ¬(s.panicking t = true ∨ s.useBootstrap = true))
    (hres : Apfmalloc.doMalloc cfg os none t size s = some (p, s')) : OwnersKept s s' := by
  by_cases hsize : maxSz < size
  · obtain ⟨d, s₁, free', seg, halloc, -, h₁, ho, hd, -, hv, hap, -, rfl⟩ :=
      doMalloc_large h hsize hres
    have hmap : OwnersKept s₁ { s₁ with
        mapped := seg :: s₁.mapped, mem := zeroFill s₁.mem seg.ptr (regionLen seg.length) } :=
      .of_eq rfl rfl
    have hpos := hv.length_pos
    refine ((h.allocDesc_owners halloc).trans hmap).trans
      ((h₁.map hap).addLarge_owners (fun sg hsg => ?_) hv (fun d' sg hsg => ?_)
        ⟨Nat.le_refl _, by omega⟩)
    · exact hd (h.region.alloced ((ho.owns d sg).mp hsg))
    · exact hap sg (h₁.region.mapped hsg)
  · have hle := Nat.not_lt.mp hsize
    obtain ⟨h1, h2, -⟩ := getSizeClass_spec cfg hle
    rw [Apfmalloc.doMalloc, if_neg hsize] at hres
    exact h.allocateToCache_owners (hoff hle) (hpart _) h1 h2 hres

theorem HeapInv.doAlignedAlloc_owners {align : Nat} (h : HeapInv cfg s H live)
    (hpart : ∀ c, s.partialList c = none)
    (hoff : alignSize size align ≤ page → ¬(s.panicking t = true ∨ s.useBootstrap = true))
    (hfit : AlignFits align size)
    (hres : Apfmalloc.doAlignedAlloc cfg os none t align size s = some (p, s')) :
    OwnersKept s s' := by
  obtain ⟨k, hk, rfl⟩ := hfit.pow
  by_cases hbig : page < alignSize size (2 ^ k)
  · rcases doAlignedAlloc_large h (isPowerOfTwo_pow hk) hbig
      (fun ptr _ hend => (hfit.large hbig hend).2.2.1) hres with
      ⟨-, rfl⟩ | ⟨d, s₂, free', seg, h₂, hf, ho, hd, hlen, hv, hap, rfl, rfl⟩
    · exact .of_eq rfl rfl
    · have hkeep : OwnersKept s s₂ := fun d' sg hsg =>
        ⟨hf.descs d' (h.desc.alloced_carved (h.region.alloced hsg)), fun k _ => by rw [hf.pageMap]⟩
      obtain ⟨-, -, hlo, hhi, -⟩ := hfit.large hbig (hlen ▸ hv.bound)
      refine hkeep.trans (h₂.addLarge_owners (fun sg hsg => ?_) hv (fun d' sg hsg => ?_)
        ⟨hlo, hlen ▸ hhi⟩)
      · exact hd (h.region.alloced ((ho.owns d sg).mp hsg))
      · exact hap sg (h.region.mapped ((ho.owns d' sg).mp hsg))
  · have hle := Nat.not_lt.mp hbig
    obtain ⟨h1, h2, -⟩ := getSizeClass_spec cfg (le_maxSz_of_page hbig)
    rw [doAlignedAlloc_small (isPowerOfTwo_pow hk) hbig] at hres
    exact h.allocateToCache_owners (hoff hle) (hpart _) h1 h2 hres

theorem bootstrapAllocate_owners (hres : bootstrapAllocate os size s = some (p, s')) :
    OwnersKept s s' := by
  rcases bootstrapAllocate_cases hres with ⟨-, -, rfl⟩ | ⟨seg, -, -, -, -, -, rfl⟩
  · exact .of_eq rfl rfl
  · exact .of_eq rfl rfl

end Allocations

/-! ## Records -/

/-- The entry of the page of `p` and the descriptor it names are as they were. -/
structure RecordKept (s s' : State) (p : Nat) : Prop where
  page : getPageInfoForPtr s' p = getPageInfoForPtr s p
  desc : s'.descs (getPageInfoForPtr s p).desc = s.descs (getPageInfoForPtr s p).desc

section Readers

variable {s s₁ s' : State} {p : Nat}

theorem RecordKept.refl (s : State) (p : Nat) : RecordKept s s p := ⟨rfl, rfl⟩

theorem RecordKept.trans (h : RecordKept s s₁ p) (h' : RecordKept s₁ s' p) :
    RecordKept s s' p := by
  have hdesc := h'.desc
  rw [h.page] at hdesc
  exact ⟨h'.page.trans h.page, hdesc.trans h.desc⟩

theorem RecordKept.size (h : RecordKept s s' p) :
    getAllocationSize s' p = getAllocationSize s p := by
  rw [getAllocationSize, getAllocationSize, h.page]
  cases hd : (getPageInfoForPtr s p).getDesc with
  | none => rfl
  | some d =>
    have hdesc := h.desc
    rw [(PageInfo.getDesc_eq_some.mp hd).1] at hdesc
    rw [Option.map_some, Option.map_some, hdesc]

theorem RecordKept.sizeClass (h : RecordKept s s' p) :
    getSizeClassIndex s' (getPageInfoForPtr s' p) = getSizeClassIndex s (getPageInfoForPtr s p) := by
  rw [getSizeClassIndex, getSizeClassIndex, h.page, h.desc]

theorem RecordKept.stays (h : RecordKept s s' p) (n : Nat) :
    reallocStays s' p n = reallocStays s p n := by
  rw [reallocStays, reallocStays, h.size]

end Readers

section Steps

variable {cfg : Cfg} {os : Os} {s s' : State} {H : Heap} {live : List Live} {t : Nat}
  {e b : Live}

theorem OwnersKept.record (hk : OwnersKept s s') (h : HeapInv cfg s H live) (hb : b ∈ live) :
    RecordKept s s' b.ptr := by
  obtain ⟨d, seg, ho, hpage, hlo, hpos, hhi, -⟩ := h.region.live_seg (h.block.liveOk b hb)
  have hreg := (regionLen_bounds seg.length).1
  have hkeep := hk d seg ho
  refine ⟨hkeep.pageMap _ ⟨b.ptr, hlo, by omega, rfl⟩, ?_⟩
  rw [hpage]
  exact hkeep.desc

/-- **A free** leaves the records of the other live blocks alone. -/
theorem HeapInv.doFree_record (h : HeapInv cfg s H live) (hapf : cfg.useApf = true) (he : e ∈ live)
    (hb : b ∈ live) (hne : b ≠ e) (hres : Apfmalloc.doFree cfg none t e.ptr s = some s') :
    RecordKept s s' b.ptr := by
  cases h.block.liveOk e he with
  | @small d c hblock hplace hlen hsize =>
    -- the block goes into a bin, and descriptors and page map have no part in that
    rw [h.doFree_small hapf hblock, Option.map_eq_some_iff] at hres
    obtain ⟨r, -, rfl⟩ := hres
    exact ⟨rfl, rfl⟩
  | @large d seg ho hheap hlo hpos hend hsize hpage =>
    have hv := h.region.valid ho
    have hsp := hv.pos
    rw [h.doFree_large ho hheap (by omega) hpage, Option.some.injEq] at hres
    subst hres
    have hrem := removes_dropLarge ho hv
    obtain ⟨d', sg, ho', hpage', hlo', hpos', hhi', -⟩ :=
      h.region.live_seg (h.block.liveOk b hb)
    have hdd : d' ≠ d := by
      intro heq
      subst heq
      obtain rfl := ho'.unique ho
      exact hne (h.large_unique ho hheap hb he ⟨hlo', by omega⟩ ⟨hlo, by omega⟩)
    have hreg := (regionLen_bounds sg.length).1
    refine ⟨(hrem.other h.region hdd ho').2 _ ⟨b.ptr, hlo', by omega, rfl⟩, ?_⟩
    rw [hpage']
    exact hrem.descs d' hdd

end Steps

/-! ## The steps of a run -/

/-- The block that an operation gives up or may move. -/
def ClientOp.target : ClientOp → Option Nat
  | .free _ ptr => some ptr
  | .realloc _ ptr _ => some ptr
  | _ => none

section Worlds

variable {cfg : Cfg} {os : Os} {w w' : World} {s' : State} {H : Heap} {t n q : Nat} {e b : Live}

theorem World.mem_add (hb : b ∈ w.live) (reserve : Bool) (s' : State) (x : Live) :
    b ∈ (w.add reserve s' x).live := by
  cases reserve with
  | true => exact hb
  | false => exact List.mem_cons_of_mem _ hb

theorem World.mem_grant (hb : b ∈ w.live) (reserve : Bool) (s' : State) (p size len : Nat) :
    b ∈ (w.grant reserve s' p size len).live := by
  rw [World.grant]
  split
  · exact hb
  · exact World.mem_add hb _ _ _

theorem World.grant_state (w : World) (reserve : Bool) (s' : State) (p size len : Nat) :
    (w.grant reserve s' p size len).state = s' := by
  rw [World.grant]
  split
  · rfl
  · exact World.add_state _ _ _ _

theorem WorldInv.malloc_owners (h : WorldInv cfg w H)
    (hres : doMalloc cfg os none t n w.state = some (q, s')) : OwnersKept w.state s' := by
  by_cases hoff : n ≤ maxSz → ¬(w.state.panicking t = true ∨ w.state.useBootstrap = true)
  · exact h.heap.doMalloc_owners h.partialList hoff hres
  · obtain ⟨hsize, hmode⟩ := Classical.not_imp.mp hoff
    rw [doMalloc, if_neg (Nat.not_lt.mpr hsize), allocateToCache, if_pos (not_not.mp hmode)] at hres
    exact bootstrapAllocate_owners hres

theorem WorldInv.alignedAlloc_owners {align : Nat} (h : WorldInv cfg w H)
    (hfit : AlignFits align n)
    (hres : doAlignedAlloc cfg os none t align n w.state = some (q, s')) :
    OwnersKept w.state s' := by
  by_cases hoff : alignSize n align ≤ page →
      ¬(w.state.panicking t = true ∨ w.state.useBootstrap = true)
  · exact h.heap.doAlignedAlloc_owners h.partialList hoff hfit hres
  · obtain ⟨hsize, hmode⟩ := Classical.not_imp.mp hoff
    obtain ⟨k, hk, rfl⟩ := hfit.pow
    rw [doAlignedAlloc_small (isPowerOfTwo_pow hk) (Nat.not_lt.mpr hsize), allocateToCache,
      if_pos (not_not.mp hmode)] at hres
    exact bootstrapAllocate_owners hres

/-- A move is an allocation, and a free that leaves the records of the other blocks alone, the
new one among them. -/
theorem WorldInv.moves_records {old : Nat} (h : WorldInv cfg w H) (hapf : cfg.useApf = true)
    (he : e ∈ w.live) (hold : getAllocationSize w.state e.ptr = some old)
    (hmoves : reallocInPlace old n = false) (hfit : regionLen n < u32Size)
    (hroom : old ≤ mallocRoom cfg w.state t n)
    (hres : Apfmalloc.doRealloc cfg os none none t e.ptr n w.state = some (q, s')) :
    ∃ s₁, doMalloc cfg os none t n w.state = some (q, s₁) ∧ q ≠ e.ptr ∧
      ∀ x ∈ (w.add (mallocOnReserve w.state t n) s₁ ⟨q, n, mallocRoom cfg w.state t n⟩).live,
        x ≠ e → RecordKept s₁ s' x.ptr := by
  obtain ⟨s₁, hmalloc, hfree⟩ := doRealloc_moves (h.heap.live_ne_zero he) hold hmoves hres
  obtain ⟨H₁, hg⟩ := h.malloc hfit hmalloc
  have hap := hg.inv.add_own.2 e (List.mem_append_left _ he)
  have hpos := h.heap.region.live_pos (h.heap.block.liveOk e he)
  obtain ⟨old', hold', hlen⟩ := h.heap.recorded he
  obtain rfl : old = old' := Option.some.inj (hold.symm.trans hold')
  unfold Live.Apart at hap
  dsimp only at hap
  have hqe : q ≠ e.ptr := by omega
  rw [if_pos ⟨hg.ne_zero, hqe⟩] at hfree
  -- the copy stays within the new block, and the free finds the old one
  have h₂ := @hg.inv.add_write cfg w s₁ H₁ _ _ (copyBytes s₁.mem q e.ptr old) fun a ha =>
    copyBytes_out (by dsimp only at ha; omega)
  have hheap := h₂.heap
  rw [World.add_state] at hheap
  refine ⟨s₁, hmalloc, hqe, fun x hx hne => ?_⟩
  have hx' : x ∈ (w.add (mallocOnReserve w.state t n)
      { s₁ with mem := copyBytes s₁.mem q e.ptr old } ⟨q, n, mallocRoom cfg w.state t n⟩).live := by
    revert hx
    cases mallocOnReserve w.state t n <;> exact id
  have hcopy : RecordKept s₁ { s₁ with mem := copyBytes s₁.mem q e.ptr old } x.ptr := ⟨rfl, rfl⟩
  exact hcopy.trans (hheap.doFree_record hapf (World.mem_add he _ _ _) hx' hne hfree)

/-- A realloc leaves the records of the other blocks alone. -/
theorem WorldInv.realloc_record (h : WorldInv cfg w H) (hapf : cfg.useApf = true)
    (hc : ReallocCond cfg w t e n) (hb : b ∈ w.live) (hne : b ≠ e)
    (hres : Apfmalloc.doRealloc cfg os none none t e.ptr n w.state = some (q, s')) :
    RecordKept w.state s' b.ptr := by
  cases hc with
  | @stays old he hold hstays hn =>
    rw [Apfmalloc.doRealloc, if_neg (h.heap.live_ne_zero he), hold] at hres
    simp only [hstays, if_true, Option.some.injEq, Prod.mk.injEq] at hres
    rw [← hres.2]
    exact .refl _ _
  | @moves old he hold hmoves hfit hroom =>
    obtain ⟨s₁, hmalloc, -, hkeep⟩ := h.moves_records hapf he hold hmoves hfit hroom hres
    have hkept := (h.malloc_owners hmalloc).record h.heap hb
    exact hkept.trans (hkeep b (World.mem_add hb _ _ _) hne)
  | reserve he hnone hfit hmin =>
    obtain ⟨seg, hseg, hptr, -⟩ := h.reserve.inside e he
    have hpos := (h.reserve.mapped seg hseg).2.pos
    rw [Apfmalloc.doRealloc, if_neg (by omega), hnone] at hres
    exact (h.malloc_owners hres).record h.heap hb

/-- **A step keeps a block**, with its record, unless it is about that block. Its bytes change
by a client's write only. -/
theorem WorldInv.step_kept (h : WorldInv cfg w H) (hapf : cfg.useApf = true) {op : ClientOp}
    (hs : ClientStep cfg w op w') (hb : b ∈ w.live) (hop : op.target ≠ some b.ptr) :
    b ∈ w'.live ∧ RecordKept w.state w'.state b.ptr ∧
      (op ≠ .write → ∀ a, b.ptr ≤ a → a < b.ptr + b.len → w'.state.mem a = w.state.mem a) := by
  have hother : ∀ {x : Live}, some x.ptr ≠ some b.ptr → b ≠ x := fun hx heq => hx (heq ▸ rfl)
  have hblock : b ∈ w.blocks := List.mem_append_left _ hb
  cases hs with
  | malloc hfit hres =>
    obtain ⟨H', hg⟩ := h.malloc hfit hres
    rw [World.grant_state]
    exact ⟨World.mem_grant hb _ _ _ _ _, (h.malloc_owners hres).record h.heap hb,
      fun _ => h.bytes_kept hg.ext.mem b hblock⟩
  | alignedAlloc hfit hres =>
    rw [World.grant_state]
    refine ⟨World.mem_grant hb _ _ _ _ _, (h.alignedAlloc_owners hfit hres).record h.heap hb,
      fun _ => ?_⟩
    rcases h.alignedGrants hfit hres with ⟨-, rfl⟩ | ⟨H', room, hg, -⟩
    · exact fun _ _ _ => rfl
    · exact h.bytes_kept hg.ext.mem b hblock
  | @free s' t e he hres =>
    have hne := hother hop
    refine ⟨(List.mem_erase_of_ne hne).mpr hb, h.heap.doFree_record hapf he hb hne hres,
      fun _ a hlo hhi => (h.free hapf he hres).2 a fun hin => ?_⟩
    have hap := (h.heap.block.live_cases hb he).resolve_left hne
    unfold Live.Apart at hap
    omega
  | @freeReserve s' t e he hnone hres =>
    -- the free finds no descriptor and does nothing
    rw [doFree] at hres
    simp only [hnone, ite_self, Option.some.injEq] at hres
    subst hres
    exact ⟨hb, .refl _ _, fun _ _ _ _ => rfl⟩
  | realloc hc hres =>
    have hne := hother hop
    have hin := (List.mem_erase_of_ne hne).mpr hb
    rw [World.realloc, World.grant_state]
    exact ⟨World.mem_grant hin _ _ _ _ _, h.realloc_record hapf hc hb hne hres,
      fun _ => h.realloc_bytes hapf hc hres b (List.mem_append_left _ hin)⟩
  | write hm => exact ⟨hb, ⟨rfl, rfl⟩, fun hne => absurd rfl hne⟩
  | mode f g => exact ⟨hb, ⟨rfl, rfl⟩, fun _ _ _ _ => rfl⟩

end Worlds

/-- What every step keeps of a block, a run keeps. -/
theorem run_record {cfg : Cfg} (hapf : cfg.useApf = true) {w w' : World} {ops : List ClientOp}
    (hrun : Run (ClientStep cfg) w ops w') (h : ∃ H, WorldInv cfg w H) {b : Live} (hb : b ∈ w.live)
    (hops : ∀ op ∈ ops, op.target ≠ some b.ptr) :
    b ∈ w'.live ∧ RecordKept w.state w'.state b.ptr := by
  induction hrun with
  | nil w => exact ⟨hb, .refl _ _⟩
  | cons hs _ ih =>
    obtain ⟨H, hw⟩ := h
    obtain ⟨hop, hops⟩ := List.forall_mem_cons.mp hops
    obtain ⟨hb₁, hk₁, -⟩ := hw.step_kept hapf hs hb hop
    obtain ⟨hb', hk'⟩ := ih (clientStep_inv hapf ⟨H, hw⟩ hs) hb₁ hops
    exact ⟨hb', hk₁.trans hk'⟩

/-- The class of a block is that of its recorded size. -/
theorem getSizeClassIndex_recorded {s : State} {p size : Nat}
    (h : getAllocationSize s p = some size) :
    getSizeClassIndex s (getPageInfoForPtr s p) = some (getSizeClass size) := by
  rw [getAllocationSize, Option.map_eq_some_iff] at h
  obtain ⟨d, hd, rfl⟩ := h
  rcases Nat.lt_or_ge maxSz (s.descs d).blockSize with hbig | hle
  · rw [getSizeClassIndex_large hd hbig, getSizeClass, if_pos hbig]
  · exact getSizeClassIndex_class hd hle

end Apfmalloc
