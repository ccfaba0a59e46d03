import Apfmalloc.LargeAlloc

/-!
# Page-map entries and the descriptors they name

A page-map entry that outlives its descriptor is a trap: the descriptor goes back to
the list, is handed out again, and the entry then claims a page of a stranger.
`PageClean` says that no such entry exists: what an entry names owns a segment, and
a large segment is named under its first page and the page of its pointer only.

`do_free` of a large block clears the first page of the segment, and where it means
to clear the page of the pointer it clears the first page again. So the entry of an
over-aligned pointer on a later page stays (`large_free_clears_iff`); as long as no
such block is freed, `PageClean` is kept by every step of a run.
-/

namespace Apfmalloc

open Base

/-- The page `k` may name descriptor `d`. -/
def Named (s : State) (live : List Live) (k d : Nat) : Prop :=
  ∃ seg, Owns s d seg ∧ ((s.descs d).procHeap = none → k = addrToKey seg.ptr ∨
    ∃ e ∈ live, seg.ptr ≤ e.ptr ∧ e.ptr < seg.ptr + seg.length ∧ k = addrToKey e.ptr)

def PageClean (s : State) (live : List Live) : Prop :=
  ∀ k d, s.pageMap k = ⟨d⟩ → d ≠ 0 → Named s live k d

theorem Named.mono {s s' : State} {live live' : List Live} {k d : Nat} (h : Named s live k d)
    (hd : s'.descs d = s.descs d)
    (hlive : ∀ e ∈ live, ∀ seg, Owns s d seg → (s.descs d).procHeap = none → seg.ptr ≤ e.ptr →
      e.ptr < seg.ptr + seg.length → e ∈ live') : Named s' live' k d := by
  obtain ⟨seg, ho, hlarge⟩ := h
  refine ⟨seg, by rw [Owns, hd]; exact ho, fun hheap => ?_⟩
  rw [hd] at hheap
  refine (hlarge hheap).imp id fun hex => ?_
  obtain ⟨e, he, hlo, hhi, hk⟩ := hex
  exact ⟨e, hlive e he seg ho hheap hlo hhi, hlo, hhi, hk⟩

/-- **New entries**: what owned a segment is left alone, and each entry is an old one
or may be there. -/
theorem PageClean.grow {s s' : State} {live live' : List Live} (h : PageClean s live)
    (hlive : ∀ e ∈ live, e ∈ live') (hdescs : ∀ {d seg}, Owns s d seg → s'.descs d = s.descs d)
    (hpage : ∀ k, s'.pageMap k = s.pageMap k ∨ ∃ d, s'.pageMap k = ⟨d⟩ ∧ Named s' live' k d) :
    PageClean s' live' := by
  intro k d hk hd
  rcases hpage k with hold | ⟨d', hnew, hn⟩
  · have hnamed := h k d (hold ▸ hk) hd
    obtain ⟨seg, ho, -⟩ := hnamed
    exact (h k d (hold ▸ hk) hd).mono (hdescs ho) fun e he _ _ _ _ _ => hlive e he
  · rw [hk] at hnew
    cases hnew
    exact hn

section
variable {cfg : Cfg} {s s' : State} {H : Heap} {live live' : List Live}

/-- An entry names a descriptor in use. -/
theorem PageClean.alloced (h : PageClean s live) (hi : HeapInv cfg s H live) {k d : Nat}
    (hk : s.pageMap k = ⟨d⟩) (hd : d ≠ 0) : d ∈ H.alloced := by
  obtain ⟨seg, ho, -⟩ := h k d hk hd
  exact hi.region.alloced ho

/-- A refill names its new superblock on all pages of it. -/
theorem PageClean.fill (h : PageClean s live) (hi : HeapInv cfg s H live) {os : Os} {t c : Nat}
    (h1 : 1 ≤ c) (h2 : c < maxSzIdx) (hpart : s.partialList c = none)
    (hfill : fillCache cfg os t c s = some s') : PageClean s' live := by
  obtain ⟨d, seg, -, H', -, hfr, hi', -⟩ := hi.fill h1 h2 hpart hfill
  have ho : Owns s' d seg := by
    rw [Owns, hfr.desc]
    rfl
  have hheap : (s'.descs d).procHeap = some c := by
    rw [hfr.desc]
    rfl
  refine h.grow (fun _ he => he) (fun {d' sg} ho' => ?_) fun k => ?_
  · -- the owners of before keep their records
    have hd' := hi.region.alloced ho'
    exact hfr.descs d' (hi.desc.alloced_carved hd') fun he => hfr.not_alloced (he ▸ hd')
  · by_cases hk : PageOf seg.ptr (cfg.sizeClass c).sbSize k
    · refine .inr ⟨d, (hi'.region.small ho hheap).pages k hk, seg, ho, fun hnone => ?_⟩
      rw [hheap] at hnone
      cases hnone
    · exact .inl (hfr.pageMap k hk)

theorem PageClean.allocateToCache (h : PageClean s live) (hi : HeapInv cfg s H live) (hq : Quiet s)
    {os : Os} {t size c p : Nat} (h1 : 1 ≤ c) (h2 : c < maxSzIdx)
    (hres : allocateToCache cfg os none t size c s = some (p, s'))
    (hlive : ∀ e ∈ live, e ∈ live') : PageClean s' live' := by
  obtain ⟨s₁, bin, hs₁, -, -, rfl⟩ := allocateToCache_cases (hq.off t) hres
  have hclean : PageClean s₁ live := by
    rcases hs₁ with rfl | ⟨-, hfill⟩
    · exact h
    · exact h.fill hi h1 h2 (hq.partialList c) hfill
  exact hclean.grow hlive (fun _ => rfl) fun _ => .inl rfl

/-- A large block is named under its first page and the page of its pointer. -/
theorem PageClean.made (h : PageClean s live) (hi : HeapInv cfg s H live) {req : LargeReq}
    {s₂ : State} {d p : Nat} {seg : Segment} (hnew : d ∉ H.alloced)
    (hm : Made req s s₂ s' d seg p) (hl : req.Large) {e : Live} (hep : e.ptr = p) :
    PageClean s' (e :: live) := by
  obtain ⟨hsuper, -, -⟩ := hm.record
  obtain ⟨hlo, hhi, -⟩ := hl.inside hm.valid hm.length
  rw [← hm.ptr] at hlo hhi
  refine h.grow (fun _ he => List.mem_cons_of_mem _ he) (fun {d' sg} ho => ?_) fun k => ?_
  · have hd' := hi.region.alloced ho
    have hne : d' ≠ d := fun he => hnew (he ▸ hd')
    rw [hm.eq, State.addLarge, State.setLarge]
    simp only [setDesc_other _ _ _ hne]
    exact hm.descs d' (hi.desc.alloced_carved hd')
  · have hpage : s'.pageMap k = if k = addrToKey p then ⟨d⟩
        else if k = addrToKey seg.ptr then ⟨d⟩ else s.pageMap k := by
      rw [hm.eq, ← hm.pageMap]
      rfl
    rw [hpage]
    -- two entries at most: the page of the pointer and that of the segment
    by_cases hkp : k = addrToKey p
    · rw [if_pos hkp]
      refine .inr ⟨d, rfl, seg, hsuper, fun _ => .inr ⟨e, List.mem_cons_self .., ?_⟩⟩
      rw [hep]
      exact ⟨hlo, hhi, hkp⟩
    · rw [if_neg hkp]
      by_cases hks : k = addrToKey seg.ptr
      · rw [if_pos hks]
        exact .inr ⟨d, rfl, seg, hsuper, fun _ => .inl hks⟩
      · rw [if_neg hks]
        exact .inl rfl

/-- A small block leaves the live blocks, and names nothing. -/
theorem PageClean.freeSmall (h : PageClean s live) (hi : HeapInv cfg s H live) {e : Live} {d c : Nat}
    (hb : BlockOf cfg s d c e.ptr) (hdescs : s'.descs = s.descs) (hpage : s'.pageMap = s.pageMap) :
    PageClean s' (live.erase e) := by
  obtain ⟨sg, f⟩ := hi.region.blockFacts hb
  intro k d' hk hd
  rw [hpage] at hk
  refine (h k d' hk hd).mono (by rw [hdescs]) fun e' he' seg ho hheap hlo hhi => ?_
  have hne : e' ≠ e := fun hee => by
    subst hee
    obtain ⟨-, -, hp⟩ := hi.live_in_large ho hheap he' ⟨hlo, hhi⟩
    have hdd : (⟨d'⟩ : PageInfo) = ⟨d⟩ := hp.symm.trans f.page
    cases hdd
    rw [f.heap] at hheap
    cases hheap
  exact (List.mem_erase_of_ne hne).mpr he'

/-- What a free of a large block leaves of the page map. -/
theorem dropLarge_pageMap (s : State) (d : Nat) (seg : Segment) (k : Nat) :
    (Descriptor.retire d (s.dropLarge d seg)).pageMap k =
      if k = addrToKey seg.ptr then PageInfo.default else s.pageMap k :=
  rfl

/-- **A large block** whose pointer is on the first page takes all its entries with
it. -/
theorem PageClean.freeLarge (h : PageClean s live) (hi : HeapInv cfg s H live) {e : Live} {d : Nat}
    {seg : Segment} (he : e ∈ live) (ho : Owns s d seg) (hheap : (s.descs d).procHeap = none)
    (hin : seg.ptr ≤ e.ptr ∧ e.ptr < seg.ptr + seg.length)
    (hfirst : addrToKey e.ptr = addrToKey seg.ptr) :
    (∀ k, (Descriptor.retire d (s.dropLarge d seg)).pageMap k ≠ ⟨d⟩) ∧
      PageClean (Descriptor.retire d (s.dropLarge d seg)) (live.erase e) := by
  have hd := (hi.desc.addr d (hi.desc.alloced_carved (hi.region.alloced ho))).pos
  have hgone : ∀ k, (Descriptor.retire d (s.dropLarge d seg)).pageMap k ≠ ⟨d⟩ := by
    intro k hk
    rw [dropLarge_pageMap] at hk
    by_cases hks : k = addrToKey seg.ptr
    · rw [if_pos hks] at hk
      cases hk
      omega
    · rw [if_neg hks] at hk
      obtain ⟨sg, ho', hlarge⟩ := h k d hk (Nat.ne_of_gt hd)
      cases ho'.unique ho
      -- an entry left over would be that of the pointer, on the same page
      rcases hlarge hheap with hk' | ⟨e', he', hlo, hhi, hk'⟩
      · exact hks hk'
      · cases hi.large_unique ho hheap he he' hin ⟨hlo, hhi⟩
        exact hks (hk'.trans hfirst)
  refine ⟨hgone, fun k d' hk hd' => ?_⟩
  have hne : d' ≠ d := fun hdd => hgone k (hdd ▸ hk)
  rw [dropLarge_pageMap] at hk
  by_cases hks : k = addrToKey seg.ptr
  · rw [if_pos hks] at hk
    cases hk
    exact absurd rfl hd'
  · rw [if_neg hks] at hk
    refine (h k d' hk hd').mono ((removes_dropLarge ho (hi.region.valid ho)).descs d' hne)
      fun e' he' sg ho' hheap' hlo hhi => (List.mem_erase_of_ne fun hee => ?_).mpr he'
    subst hee
    obtain ⟨-, -, hp⟩ := hi.live_in_large ho hheap he hin
    obtain ⟨-, -, hp'⟩ := hi.live_in_large ho' hheap' he ⟨hlo, hhi⟩
    rw [hp] at hp'
    cases hp'
    exact hne rfl

end

/-! ## Runs -/

/-- A large block at `ptr` is on the first page of its segment. -/
def FirstPage (s : State) (ptr : Nat) : Prop :=
  ∀ d seg, getPageInfoForPtr s ptr = ⟨d⟩ → Owns s d seg → (s.descs d).procHeap = none →
    addrToKey ptr = addrToKey seg.ptr

/-- A step that frees no large block on a later page. -/
def CleanStep (cfg : Cfg) (p : State × List Live) (op : AllocOp) (p' : State × List Live) : Prop :=
  AllocStep cfg p op p' ∧ ∀ t ptr, op = .free t ptr → FirstPage p.1 ptr

def CleanInv (cfg : Cfg) (p : State × List Live) : Prop :=
  ∃ H, RunInv cfg p.1 H p.2 ∧ PageClean p.1 p.2

theorem cleanInv_init {cfg : Cfg} {os : Os} {s : State} (h : initMalloc os = some s) :
    CleanInv cfg (s, []) := by
  refine ⟨Heap.start, runInv_init h, fun k d hk hd => ?_⟩
  obtain ⟨seg, -, rfl⟩ := initMalloc_cases h
  cases hk
  exact absurd rfl hd

theorem PageClean.large {cfg : Cfg} {s s' : State} {H : Heap} {live : List Live}
    (h : PageClean s live) (hi : HeapInv cfg s H live) {req : LargeReq} (hl : req.Large) {os : Os}
    {t p size : Nat} (hrun : req.run cfg os none t s = some (p, s')) (hp : p ≠ 0) :
    PageClean s' (addLive s' p size live) := by
  obtain ⟨d, seg, s₂, hnew, hm⟩ := LargeReq.made hi.desc hl hrun hp
  rw [addLive, if_neg hp]
  exact h.made hi hnew hm hl rfl

theorem mem_addLive {s : State} {p size : Nat} {live : List Live} {e : Live} (he : e ∈ live) :
    e ∈ addLive s p size live := by
  unfold addLive
  split
  · exact he
  · exact List.mem_cons_of_mem _ he

theorem cleanStep_inv {cfg : Cfg} (hapf : cfg.useApf = true) {p p' : State × List Live}
    {op : AllocOp} (h : CleanInv cfg p) (hstep : CleanStep cfg p op p') : CleanInv cfg p' := by
  obtain ⟨H, hr, hclean⟩ := h
  obtain ⟨hstep, hfirst⟩ := hstep
  obtain ⟨H', hr'⟩ := allocStep_inv hapf ⟨H, hr⟩ hstep
  refine ⟨H', hr', ?_⟩
  cases hstep with
  | @malloc s s' live os t size p hfit hres =>
    by_cases hbig : maxSz < size
    · obtain ⟨_, h', -⟩ := hr.doMalloc hfit hres
      have hp : p ≠ 0 := h'.live_ne_zero (e := ⟨p, size, _⟩) (List.mem_cons_self ..)
      have hl : (LargeReq.malloc size).Large := ⟨fits_lt hfit, hbig⟩
      exact hclean.large hr.heap hl hres hp
    · rw [doMalloc, if_neg hbig] at hres
      obtain ⟨h1, h2, -⟩ := getSizeClass_spec cfg (Nat.not_lt.mp hbig)
      exact hclean.allocateToCache hr.heap hr.quiet h1 h2 hres fun _ => mem_addLive
  | @alignedAlloc s s' live os t align size p hfit hres =>
    rcases hr.doAlignedAlloc hfit hres with ⟨rfl, rfl⟩ | ⟨_, len, h', -⟩
    · exact hclean
    · have hp : p ≠ 0 := h'.live_ne_zero (e := ⟨p, size, len⟩) (List.mem_cons_self ..)
      by_cases hbig : page < alignSize size align
      · have hl : (LargeReq.aligned align size).Large := ⟨fits_lt hfit.fits, hfit.pow, hbig⟩
        exact hclean.large hr.heap hl hres hp
      · obtain ⟨k, hk, rfl⟩ := hfit.pow
        rw [doAlignedAlloc_small (isPowerOfTwo_pow hk) hbig] at hres
        obtain ⟨h1, h2, -⟩ := getSizeClass_spec cfg (le_maxSz_of_page hbig)
        exact hclean.allocateToCache hr.heap hr.quiet h1 h2 hres fun _ => mem_addLive
  | @free s s' live t e he hres =>
    cases hr.heap.block.liveOk e he with
    | @small d c hb hplace hlen hsize =>
      rw [hr.heap.doFree_small hapf hb, Option.map_eq_some_iff] at hres
      obtain ⟨⟨bin, m⟩, -, rfl⟩ := hres
      exact hclean.freeSmall hr.heap hb rfl rfl
    | @large d seg ho hheap hlo hpos hend hsize hpage =>
      rw [hr.heap.doFree_large ho hheap (hr.heap.live_ne_zero he) hpage, Option.some.injEq] at hres
      subst hres
      -- the only step that could leave an entry behind
      exact (hclean.freeLarge hr.heap he ho hheap ⟨hlo, by omega⟩
        (hfirst t e.ptr rfl d seg hpage ho hheap)).2
  | write hm => exact hclean

/-! ## What a free leaves behind -/

/-- The pointer is on the first page just when the segment starts at a multiple of
the alignment. -/
theorem alignedPtr_firstPage {k : Nat} {seg : Segment} (hk : k < 64) (hv : seg.Valid)
    (hlt : alignedPtr (2 ^ k) seg.ptr < addrSpace) :
    addrToKey (alignedPtr (2 ^ k) seg.ptr) = addrToKey seg.ptr ↔ 2 ^ k ∣ seg.ptr := by
  have hal := hv.aligned
  have hle := le_alignedPtr hk (Nat.le_trans (Nat.le_add_right _ _) hv.bound)
  rw [addrToKey_eq hlt, addrToKey_eq (by omega)]
  unfold alignedPtr at *
  by_cases hov : 2 ^ k > page
  · rw [if_pos hov, alignAddr_eq_alignVal] at *
    have h12 : 12 ≤ k := Nat.le_of_lt ((Nat.pow_lt_pow_iff_right (by omega : 1 < 2)).mp hov)
    have hpg : page ∣ 2 ^ k := Nat.pow_dvd_pow 2 h12
    have hfit : seg.ptr + 2 ^ k ≤ usizeSize := by
      have hpow : 2 ^ k ≤ 2 ^ 63 := Nat.pow_le_pow_right (by omega) (by omega)
      rw [addrSpace] at hlt
      rw [usizeSize_eq]
      omega
    have hdvd := Nat.dvd_of_mod_eq_zero (alignVal_mod hk hfit)
    have hmod : alignVal seg.ptr (2 ^ k) % page = 0 :=
      Nat.mod_eq_zero_of_dvd (Nat.dvd_trans hpg hdvd)
    -- Both ends are at pages, so the same page is the same address.
    constructor
    · intro heq
      have hsame : alignVal seg.ptr (2 ^ k) = seg.ptr := by
        rw [page_eq] at *
        omega
      exact hsame ▸ hdvd
    · intro hd
      have hge : alignVal seg.ptr (2 ^ k) ≤ seg.ptr := by
        rw [alignVal_eq hk hfit]
        exact roundUp_le (Nat.two_pow_pos k) (Nat.le_refl _) hd
      rw [Nat.le_antisymm hge hle]
  · rw [if_neg hov]
    exact iff_of_true rfl
      (Nat.dvd_trans (pow_dvd_page (Nat.not_lt.mp hov)) (Nat.dvd_of_mod_eq_zero hal))

/-- With the tuner on, a free into a bin does not touch the page map. -/
theorem freeSmall_pageMap {cfg : Cfg} (hapf : cfg.useApf = true) {tuner : Option Nat}
    {t c ptr : Nat} {s s' : State} (h : freeSmall cfg tuner t c ptr s = some s') :
    s'.pageMap = s.pageMap := by
  cases tuner with
  | none =>
    simp only [freeSmall, hapf, Bool.true_eq_false, false_and, if_false, Option.bind_eq_bind,
      Option.bind_some, Option.bind_eq_some_iff, Prod.exists, Option.some.injEq] at h
    obtain ⟨bin, m, -, rfl⟩ := h
    rfl
  | some n =>
    simp only [freeSmall, hapf, if_true, Bool.true_eq_false, false_and, if_false,
      Option.bind_eq_bind, Option.bind_some, Option.bind_eq_some_iff, Prod.exists,
      Option.some.injEq] at h
    obtain ⟨s₁, hret, bin, m, -, rfl⟩ := h
    simp only [ret] at hret
    split at hret
    next => cases hret
    next =>
      simp only [Option.bind_eq_bind, Option.bind_eq_some_iff, Option.some.injEq] at hret
      obtain ⟨bin', -, rfl⟩ := hret
      rfl

/-- A free that finds a class for the record clears nothing. -/
theorem doFree_class_pageMap {cfg : Cfg} (hapf : cfg.useApf = true) {tuner : Option Nat}
    {t d ptr : Nat} {s s' : State} (hpage : getPageInfoForPtr s ptr = ⟨d⟩) (hd : d ≠ 0)
    (hptr : ptr ≠ 0) (hle : (s.descs d).blockSize ≤ maxSz)
    (h : doFree cfg tuner t ptr s = some s') : s'.pageMap = s.pageMap := by
  rw [doFree_eq_freeSmall hptr (PageInfo.getDesc_eq_some.mpr ⟨hpage, hd⟩) hle] at h
  exact freeSmall_pageMap hapf h

/-- The free of `ptr` succeeds and no page names descriptor `d` after it. -/
def FreeClears (cfg : Cfg) (tuner : Option Nat) (t ptr d : Nat) (s : State) : Prop :=
  ∃ s', doFree cfg tuner t ptr s = some s' ∧ ∀ k, s'.pageMap k ≠ ⟨d⟩

/-- A live large block is cleared just when it is on the first page. -/
theorem PageClean.freeClears_iff {cfg : Cfg} {s : State} {H : Heap} {live : List Live}
    (h : PageClean s live) (hi : HeapInv cfg s H live) {e : Live} {d : Nat} {seg : Segment}
    (he : e ∈ live) (hpage : getPageInfoForPtr s e.ptr = ⟨d⟩) (ho : Owns s d seg)
    (hheap : (s.descs d).procHeap = none) (tuner : Option Nat) (t : Nat) :
    FreeClears cfg tuner t e.ptr d s ↔ addrToKey e.ptr = addrToKey seg.ptr := by
  have hfree := hi.doFree_large ho hheap (hi.live_ne_zero he) hpage tuner t
  have hin : seg.ptr ≤ e.ptr ∧ e.ptr < seg.ptr + seg.length := by
    obtain ⟨d', sg, ho', hp, hlo, hpos, hhi, -⟩ := hi.region.live_seg (hi.block.liveOk e he)
    rw [hpage] at hp
    cases hp
    cases ho'.unique ho
    exact ⟨hlo, by omega⟩
  constructor
  · intro hc
    obtain ⟨s', hs', hgone⟩ := hc
    rw [hfree, Option.some.injEq] at hs'
    subst hs'
    refine Decidable.byContradiction fun hne => hgone (addrToKey e.ptr) ?_
    rw [dropLarge_pageMap, if_neg hne]
    exact hpage
  · intro hfirst
    exact ⟨_, hfree, (h.freeLarge hi he ho hheap hin hfirst).1⟩

/-- What a large aligned request made is cleared just when its segment starts at a
multiple of the alignment and the low 32 bits of its length do not read as a class. -/
theorem Made.freeClears_iff {cfg : Cfg} (hapf : cfg.useApf = true) {s s₂ s' s'' : State}
    {k size d p : Nat} {seg : Segment} (hk : k < 64)
    (hm : Made (.aligned (2 ^ k) size) s s₂ s' d seg p)
    (hl : (LargeReq.aligned (2 ^ k) size).Large) (hnone : ∀ k, s.pageMap k ≠ ⟨d⟩)
    (hs : SameRecord s' s'' d p seg) (hentries : ∀ k, s''.pageMap k = ⟨d⟩ → s'.pageMap k = ⟨d⟩)
    (tuner : Option Nat) (t : Nat) :
    FreeClears cfg tuner t p d s'' ↔
      2 ^ k ∣ seg.ptr ∧ maxSz < alignedPages (2 ^ k) (alignSize size (2 ^ k)) % u32Size := by
  obtain ⟨hsuper, hblock, -⟩ := hm.record
  obtain ⟨hlo, hhi, -⟩ := hl.inside hm.valid hm.length
  have hptr := hm.ptr
  rw [← hptr] at hlo hhi
  have hpos := hm.valid.pos
  have hend := hm.valid.bound
  have hreg := (regionLen_bounds seg.length).1
  have hpage : getPageInfoForPtr s'' p = ⟨d⟩ := hs.page.trans hm.page
  have hd := Nat.ne_of_gt hm.addr.pos
  have hkey := alignedPtr_firstPage hk hm.valid (show alignedPtr (2 ^ k) seg.ptr < addrSpace by
    change p = alignedPtr (2 ^ k) seg.ptr at hptr
    omega)
  rw [← show p = alignedPtr (2 ^ k) seg.ptr from hptr] at hkey
  have hsize : (s''.descs d).blockSize =
      alignedPages (2 ^ k) (alignSize size (2 ^ k)) % u32Size := by
    rw [hs.desc, hblock]
    rfl
  have ho : Owns s'' d seg := by
    rw [Owns, hs.desc]
    exact hsuper
  rw [← hsize, ← hkey]
  -- a record that reads as a class is pushed into a bin, and clears nothing
  by_cases hbig : maxSz < (s''.descs d).blockSize
  · have hfree : doFree cfg tuner t p s'' = some (Descriptor.retire d (s''.dropLarge d seg)) :=
      doFree_own hm.addr.pos ho (Nat.ne_of_gt hpos) hbig (by omega) hpage tuner t
    refine ⟨fun hc => ⟨?_, hbig⟩, fun hc => ⟨_, hfree, fun k' hk' => ?_⟩⟩
    · obtain ⟨s₃, hs₃, hgone⟩ := hc
      rw [hfree, Option.some.injEq] at hs₃
      subst hs₃
      refine Decidable.byContradiction fun hne => hgone (addrToKey p) ?_
      rw [dropLarge_pageMap, if_neg hne]
      exact hpage
    · rw [dropLarge_pageMap] at hk'
      split at hk'
      next => exact hd (congrArg PageInfo.desc hk').symm
      next hne =>
        have hold := hentries k' hk'
        rw [hm.eq] at hold
        change (if k' = addrToKey p then (⟨d⟩ : PageInfo) else
          if k' = addrToKey seg.ptr then ⟨d⟩ else s₂.pageMap k') = ⟨d⟩ at hold
        rw [if_neg (fun he => hne (he.trans hc.1)), if_neg hne, hm.pageMap] at hold
        exact hnone k' hold
  · refine iff_of_false (fun hc => ?_) fun hc => hbig hc.2
    obtain ⟨s₃, hs₃, hgone⟩ := hc
    refine hgone (addrToKey p) ?_
    rw [doFree_class_pageMap hapf hpage hd (by omega) (Nat.not_lt.mp hbig) hs₃]
    exact hpage

/-- **After every run that frees large blocks on their first page only**: a live large
block is cleared by its free just when it is on its first page itself, and the next
aligned request through the large path, of any size and alignment, just when the kernel
puts its segment at a multiple of the alignment and the record does not read as a
class. -/
theorem large_free_clears_iff {cfg : Cfg} (hapf : cfg.useApf = true) {os₀ : Os} {s₀ s : State}
    {live : List Live} {ops : List AllocOp} (hinit : initMalloc os₀ = some s₀)
    (hrun : Run (CleanStep cfg) (s₀, []) ops (s, live)) :
    (∀ e ∈ live, ∀ d seg tuner t, getPageInfoForPtr s e.ptr = ⟨d⟩ → Owns s d seg →
      (s.descs d).procHeap = none →
      (FreeClears cfg tuner t e.ptr d s ↔ addrToKey e.ptr = addrToKey seg.ptr)) ∧
    ∀ (os : Os) (tuner : Option Nat) (t align size p : Nat) (s' : State),
      (LargeReq.aligned align size).Large →
      doAlignedAlloc cfg os tuner t align size s = some (p, s') → p ≠ 0 →
      ∃ d seg, seg.Valid ∧ SameRecord s' s' d p seg ∧ getPageInfoForPtr s' p = ⟨d⟩ ∧
        Owns s' d seg ∧ ∀ s'' tuner' t', SameRecord s' s'' d p seg →
          (∀ k, s''.pageMap k = ⟨d⟩ → s'.pageMap k = ⟨d⟩) →
          (FreeClears cfg tuner' t' p d s'' ↔
            align ∣ seg.ptr ∧ maxSz < alignedPages align (alignSize size align) % u32Size) := by
  obtain ⟨H, hr, hclean⟩ := Run.invariant (P := CleanInv cfg) (cleanStep_inv hapf) hrun (cleanInv_init hinit)
  refine ⟨fun e he d seg tuner t hpage ho hheap =>
    hclean.freeClears_iff hr.heap he hpage ho hheap tuner t, ?_⟩
  intro os tuner t align size p s' hl hres hp
  obtain ⟨d, seg, s₂, hnew, hm⟩ := LargeReq.made hr.heap.desc hl hres hp
  have hnone : ∀ k, s.pageMap k ≠ ⟨d⟩ := fun k hk =>
    hnew (hclean.alloced hr.heap hk (Nat.ne_of_gt hm.addr.pos))
  have hl' := hl
  obtain ⟨-, ⟨k, hk, rfl⟩, -⟩ := hl'
  refine ⟨d, seg, hm.valid, ⟨rfl, rfl, ?_⟩, hm.page, hm.record.1, fun s'' tuner' t' hs hentries =>
    hm.freeClears_iff hapf hk hl hnone hs hentries tuner' t'⟩
  rw [hm.eq]
  exact hm.mapped

/-- A large block is had and freed, then an aligned one whose free clears. -/
theorem large_free_clears_iff_page :
    ∃ (s₀ s s' : State) (live : List Live) (p q d : Nat), initMalloc Os.bump = some s₀ ∧
      Run (CleanStep Cfg.default) (s₀, []) [.malloc 0 20000, .free 1 p] (s, live) ∧
      doAlignedAlloc Cfg.default Os.bump none 0 4096 20000 s = some (q, s') ∧
      FreeClears Cfg.default none 1 q d s' := by
  have h : ((initMalloc Os.bump).any fun s₀ =>
      (doMalloc Cfg.default Os.bump none 0 20000 s₀).any fun r₁ =>
      (doFree Cfg.default none 1 r₁.1 r₁.2).any fun s₂ =>
      (doAlignedAlloc Cfg.default Os.bump none 0 4096 20000 s₂).any fun r₂ =>
      r₁.1 ≠ 0 ∧ r₂.1 ≠ 0) = true := by
    decide +kernel
  simp only [Option.any_eq_true, decide_eq_true_eq, Prod.exists] at h
  obtain ⟨s₀, hinit, p, s₁, hmalloc, s₂, hfree, q, s₃, halign, hc⟩ := h
  have hmem : (⟨p, 20000, usableSize s₁ p⟩ : Live) ∈ addLive s₁ p 20000 [] := by
    rw [addLive, if_neg hc.1]
    exact List.mem_cons_self ..
  have hfirst : FirstPage s₁ p := by
    have hi : HeapInv Cfg.default s₀ Heap.start [] := heapInv_init hinit
    have hl : (LargeReq.malloc 20000).Large := ⟨by decide, by decide⟩
    obtain ⟨d, seg, s₄, -, hm⟩ := LargeReq.made hi.desc hl hmalloc hc.1
    intro d' seg' hp ho _
    rw [hm.page] at hp
    cases hp
    cases ho.unique hm.record.1
    exact congrArg addrToKey hm.ptr
  have hstep₁ : CleanStep Cfg.default (s₀, []) (.malloc 0 20000) (s₁, addLive s₁ p 20000 []) :=
    ⟨.malloc (by decide) hmalloc, fun _ _ he => by cases he⟩
  have hstep₂ : CleanStep Cfg.default (s₁, addLive s₁ p 20000 []) (.free 1 p)
      (s₂, (addLive s₁ p 20000 []).erase ⟨p, 20000, usableSize s₁ p⟩) := by
    refine ⟨AllocStep.free (e := ⟨p, 20000, usableSize s₁ p⟩) hmem hfree, fun _ _ he => ?_⟩
    cases he
    exact hfirst
  have hrun := Run.cons hstep₁ (.cons hstep₂ (.nil _))
  obtain ⟨d, seg, hv, hs, -, -, hiff⟩ := (large_free_clears_iff (by rfl) hinit
    hrun).2 Os.bump none 0 4096 20000 q s₃ ⟨by decide, ⟨12, by decide, rfl⟩, by decide⟩ halign hc.2
  exact ⟨s₀, s₂, s₃, _, p, q, d, hinit, hrun, halign, (hiff s₃ none 1 hs fun _ hk => hk).mpr
    ⟨Nat.dvd_of_mod_eq_zero hv.aligned, by decide⟩⟩

/-- An alignment of a mebibyte: the page of the pointer still names the descriptor when
it is back on the list. -/
theorem large_free_leaves_entry :
    ∃ (s₀ s s' : State) (p d : Nat), initMalloc Os.bump = some s₀ ∧
      doAlignedAlloc Cfg.default Os.bump none 0 (2 ^ 20) 20000 s₀ = some (p, s) ∧ p ≠ 0 ∧
      getPageInfoForPtr s p = ⟨d⟩ ∧ doFree Cfg.default none 0 p s = some s' ∧
      s'.pageMap (addrToKey p) = ⟨d⟩ ∧ s'.availableDesc.getDesc = some d := by
  have h : ((initMalloc Os.bump).any fun s₀ =>
      (doAlignedAlloc Cfg.default Os.bump none 0 (2 ^ 20) 20000 s₀).any fun r =>
      (doFree Cfg.default none 0 r.1 r.2).any fun s' =>
      r.1 ≠ 0 ∧ s'.pageMap (addrToKey r.1) = getPageInfoForPtr r.2 r.1 ∧
        s'.availableDesc.getDesc = some (getPageInfoForPtr r.2 r.1).desc) = true := by
    decide +kernel
  simp only [Option.any_eq_true, decide_eq_true_eq, Prod.exists] at h
  obtain ⟨s₀, hinit, p, s, halign, s', hfree, hc⟩ := h
  exact ⟨s₀, s, s', p, _, hinit, halign, hc.1, rfl, hfree, hc.2.1, hc.2.2⟩

end Apfmalloc
