import Apfmalloc.HeapShrink

/-!
# malloc, aligned malloc and free keep the heap invariant

Each entry point is taken apart into the steps of the previous files: take a
descriptor, map a segment, make it a superblock or a large block, pop or push.
The tuner has no demand here and the bootstrap is off (`Quiet`); the partial
lists are empty, so a refill is always a new superblock.
-/

namespace Apfmalloc

open Base

/-- The modes of the allocator, and the partial lists, are the same. -/
structure SameMode (s s' : State) : Prop where
  partialList : s'.partialList = s.partialList
  useBootstrap : s'.useBootstrap = s.useBootstrap
  panicking : s'.panicking = s.panicking

/-- No bootstrap and no partial list. -/
structure Quiet (s : State) : Prop where
  partialList : ∀ c, s.partialList c = none
  useBootstrap : s.useBootstrap = false
  panicking : ∀ t, s.panicking t = false

theorem Quiet.of_same {s s' : State} (h : Quiet s) (hs : SameMode s s') : Quiet s' :=
  ⟨by rw [hs.partialList]; exact h.partialList, by rw [hs.useBootstrap]; exact h.useBootstrap,
    by rw [hs.panicking]; exact h.panicking⟩

theorem Quiet.off {s : State} (h : Quiet s) (t : Nat) :
    ¬(s.panicking t = true ∨ s.useBootstrap = true) := by
  rw [h.panicking, h.useBootstrap]
  decide

/-- Memory that was mapped before is as it was. -/
def SameMapped (s s' : State) : Prop :=
  ∀ seg ∈ s.mapped, ∀ a, seg.ptr ≤ a → a < seg.ptr + regionLen seg.length → s'.mem a = s.mem a

/-- What an allocation leaves alone: the modes, what was mapped before, and the
free lists. -/
structure Extends (cfg : Cfg) (s s' : State) (H H' : Heap) : Prop where
  mode : SameMode s s'
  mem : SameMapped s s'
  mapped : ∀ seg ∈ s.mapped, seg ∈ s'.mapped
  free : ∀ c x, IsBlock cfg s' c x → H'.place x = .free → IsBlock cfg s c x ∧ H.place x = .free

theorem Extends.trans {cfg : Cfg} {s s' s'' : State} {H H' H'' : Heap}
    (h : Extends cfg s s' H H') (h' : Extends cfg s' s'' H' H'') : Extends cfg s s'' H H'' := by
  refine ⟨⟨?_, ?_, ?_⟩, fun seg hseg a hlo hhi => ?_, fun seg hseg => h'.mapped seg (h.mapped seg hseg),
    fun c x hb hp => ?_⟩
  · rw [h'.mode.partialList, h.mode.partialList]
  · rw [h'.mode.useBootstrap, h.mode.useBootstrap]
  · rw [h'.mode.panicking, h.mode.panicking]
  · rw [h'.mem seg (h.mapped seg hseg) a hlo hhi, h.mem seg hseg a hlo hhi]
  · obtain ⟨hb, hp⟩ := h'.free c x hb hp
    exact h.free c x hb hp

theorem Extends.refl (cfg : Cfg) (s : State) (H : Heap) : Extends cfg s s H H :=
  ⟨⟨rfl, rfl, rfl⟩, fun _ _ _ _ _ => rfl, fun _ hseg => hseg, fun _ _ hb hp => ⟨hb, hp⟩⟩

/-! ## The pages of a new superblock -/

theorem setPages_out {pm : Nat → PageInfo} {ptr n k : Nat} {info : PageInfo}
    (hal : ptr % page = 0) (hb : ptr + n * page ≤ addrSpace) (hk : ¬PageOf ptr (n * page) k) :
    setPages pm ptr info n k = pm k := by
  rw [setPages_apply]
  exact if_neg fun hex => hk ((pageOf_iff hal hb).mpr hex)

theorem setPages_in {pm : Nat → PageInfo} {ptr n k : Nat} {info : PageInfo}
    (hal : ptr % page = 0) (hb : ptr + n * page ≤ addrSpace) (hk : PageOf ptr (n * page) k) :
    setPages pm ptr info n k = info := by
  rw [setPages_apply]
  exact if_pos ((pageOf_iff hal hb).mp hk)

theorem ClassSpec.pages {sc : SizeClassData} {c : Nat} (h : ClassSpec sc c) :
    sc.sbSize / page * page = sc.sbSize :=
  Nat.div_mul_cancel (Nat.dvd_of_mod_eq_zero h.sbSize_page)

theorem ClassSpec.blockNum_lt {sc : SizeClassData} {c : Nat} (h : ClassSpec sc c) :
    sc.blockNum < 2 ^ 30 := by
  have hlt := h.sbSize_lt
  have hmul := Nat.mul_le_mul_right sc.blockNum h.blockSize_ge
  rw [← h.sbSize_eq] at hmul
  rw [u32Size_eq] at hlt
  omega

/-! ## `fill_cache` -/

/-- A mapping apart from everything is not owned and holds no descriptor. -/
theorem HeapInv.fresh_seg {cfg : Cfg} {s : State} {H : Heap} {live : List Live} {seg : Segment}
    (h : HeapInv cfg s H live) (hapart : ∀ sg ∈ s.mapped, seg.Apart sg) :
    (∀ {d sg}, Owns s d sg → seg.Apart sg) ∧
      ∀ x ∈ s.carved, x < seg.ptr ∨ seg.ptr + regionLen seg.length ≤ x :=
  ⟨fun ho => hapart _ (h.region.mapped ho), fun x hx => (h.desc.mapped x hx).out hapart⟩

/-- `s'` is `s` with a new superblock `seg` of descriptor `d` in the bin. -/
structure FreshSb (cfg : Cfg) (t c d : Nat) (seg : Segment) (s s' : State) : Prop where
  mapped : s'.mapped = seg :: s.mapped
  mem : s'.mem = linkFresh cfg.noMetStack (zeroFill s.mem seg.ptr (regionLen seg.length)) seg.ptr
    (cfg.sizeClass c).blockSize (cfg.sizeClass c).blockNum
  desc : s'.descs d = newSbDesc cfg c (cfg.sizeClass c).blockNum seg (s.descs d)
  descs : ∀ d', d' ≠ d → s'.descs d' = s.descs d'
  pageMap : s'.pageMap = setPages s.pageMap seg.ptr (PageInfo.setPtr d 0)
    ((cfg.sizeClass c).sbSize / page)
  bin : s'.threadCache t c = ⟨seg.ptr, (cfg.sizeClass c).blockNum, some (cfg.sizeClass c).blockSize⟩
  bins : ∀ t' c', ¬(t' = t ∧ c' = c) → s'.threadCache t' c' = s.threadCache t' c'
  availableDesc : s'.availableDesc = s.availableDesc
  carved : s'.carved = s.carved
  mode : SameMode s s'

theorem fillCache_fresh {cfg : Cfg} {os : Os} {s s' : State} {t c : Nat}
    (hpart : s.partialList c = none) (hfill : fillCache cfg os t c s = some s') :
    ∃ d s₁ seg, Descriptor.alloc cfg os s = some (d, s₁) ∧
      seg.length = (cfg.sizeClass c).sbSize ∧ seg.Valid ∧ (∀ sg ∈ s₁.mapped, seg.Apart sg) ∧
      (s₁.threadCache t c).blockNum = 0 ∧ FreshSb cfg t c d seg s₁ s' := by
  obtain ⟨n, s₃, hnew, rfl⟩ := fillCache_cases hpart hfill
  obtain ⟨d, s₁, seg, halloc, -, hlen, hvalid, hapart, hempty, -, rfl⟩ := newSuperBlock_cases hnew
  refine ⟨d, s₁, seg, halloc, hlen, hvalid, hapart, hempty, rfl, ?_, ?_, fun d' hne => ?_, rfl, ?_,
    fun t' c' htc => ?_, rfl, rfl, rfl, rfl, rfl⟩
  · rw [setBin_mem, hlen]
  · rw [setBin_descs]
    exact if_pos rfl
  · rw [setBin_descs]
    exact if_neg hne
  · rw [setBin_same]
    simp only [and_self, if_true]
  · rw [setBin_other _ _ _ _ htc]
    exact if_neg htc

/-- Linking and registering a superblock in a segment just mapped touches nothing else. -/
theorem addsRegion_newSb {cfg : Cfg} {c d : Nat} {seg : Segment} {s s' : State}
    (hspec : ClassSpec (cfg.sizeClass c) c) (hlen : seg.length = (cfg.sizeClass c).sbSize)
    (hvalid : seg.Valid) (hnew : ∀ sg, ¬Owns s d sg)
    (hown : ∀ {d' sg}, Owns s d' sg → seg.Apart sg)
    (hout : ∀ x ∈ s.carved, x < seg.ptr ∨ seg.ptr + regionLen seg.length ≤ x)
    (hdesc : s'.descs d = newSbDesc cfg c (cfg.sizeClass c).blockNum seg (s.descs d))
    (hdescs : ∀ d', d' ≠ d → s'.descs d' = s.descs d') (hmapped : s'.mapped = seg :: s.mapped)
    (hcarved : s'.carved = s.carved) (havail : s'.availableDesc = s.availableDesc)
    (hpage : s'.pageMap = setPages s.pageMap seg.ptr (PageInfo.setPtr d 0)
      ((cfg.sizeClass c).sbSize / page))
    (hmem : s'.mem = linkFresh cfg.noMetStack (zeroFill s.mem seg.ptr (regionLen seg.length))
      seg.ptr (cfg.sizeClass c).blockSize (cfg.sizeClass c).blockNum) :
    AddsRegion { s with mapped := seg :: s.mapped,
                        mem := zeroFill s.mem seg.ptr (regionLen seg.length) } s' d seg := by
  have hnum := hspec.blockNum_ge
  have hreg : regionLen seg.length = (cfg.sizeClass c).sbSize / page * page := by
    rw [hlen, regionLen_of_mod hspec.sbSize_page, hspec.pages]
  have hbound := hvalid.bound
  rw [hreg] at hbound
  refine ⟨hnew, ?_, hdescs, ?_, hvalid, List.mem_cons_self .., hown, hout, hmapped, hcarved, havail,
    fun k hk => ?_, fun a ha => ?_⟩
  · rw [Owns, hdesc]
    rfl
  · rw [hdesc]
    rfl
  · rw [hpage]
    exact setPages_out hvalid.aligned hbound (by rw [← hreg]; exact hk)
  · -- the last link ends with the last block, which ends with the segment
    rw [hmem]
    refine linkFresh_out hspec.blockSize_ge (by omega) ?_
    rw [← hspec.sbSize_eq]
    rw [hreg, hspec.pages] at ha
    exact ha

theorem FreshSb.addsRegion {cfg : Cfg} {t c d : Nat} {seg : Segment} {s s' : State}
    (h : FreshSb cfg t c d seg s s') (hspec : ClassSpec (cfg.sizeClass c) c)
    (hlen : seg.length = (cfg.sizeClass c).sbSize) (hvalid : seg.Valid)
    (hnew : ∀ sg, ¬Owns s d sg) (hown : ∀ {d' sg}, Owns s d' sg → seg.Apart sg)
    (hcarved : ∀ x ∈ s.carved, x < seg.ptr ∨ seg.ptr + regionLen seg.length ≤ x) :
    AddsRegion { s with mapped := seg :: s.mapped,
                        mem := zeroFill s.mem seg.ptr (regionLen seg.length) } s' d seg :=
  addsRegion_newSb hspec hlen hvalid hnew hown hcarved h.desc h.descs h.mapped h.carved
    h.availableDesc h.pageMap h.mem

theorem FreshSb.superOk {cfg : Cfg} {t c d : Nat} {seg : Segment} {s s' : State}
    (h : FreshSb cfg t c d seg s s') (h1 : 1 ≤ c) (h2 : c < maxSzIdx)
    (hlen : seg.length = (cfg.sizeClass c).sbSize) (hvalid : seg.Valid) (haddr : DescAddr d) :
    SuperOk cfg s' d seg c := by
  have hspec := cfg.classSpec h1 h2
  have hbound := hvalid.bound
  rw [hlen, regionLen_of_mod hspec.sbSize_page, ← hspec.pages] at hbound
  refine ⟨h1, h2, hlen, ?_, ?_, fun k hk => ?_⟩
  · rw [h.desc]
    rfl
  · rw [h.desc]
    rfl
  · rw [h.pageMap, setPages_in hvalid.aligned hbound (by rw [hspec.pages]; exact hk),
      setPtr_zero_of_desc haddr]

/-- What a refill from the kernel does: descriptor `d` was not in use, and its new
superblock is the content of the bin. -/
structure Fresh (cfg : Cfg) (c d : Nat) (seg : Segment) (s s' : State) (H : Heap) : Prop where
  not_alloced : d ∉ H.alloced
  desc : s'.descs d = newSbDesc cfg c (cfg.sizeClass c).blockNum seg (s'.descs d)
  descs : ∀ d' ∈ s.carved, d' ≠ d → s'.descs d' = s.descs d'
  owns : ∀ {d' sg}, d' ≠ d → Owns s' d' sg → Owns s d' sg
  pageMap : ∀ k, ¬PageOf seg.ptr (cfg.sizeClass c).sbSize k → s'.pageMap k = s.pageMap k
  valid : seg.Valid
  bound : seg.ptr + (cfg.sizeClass c).sbSize ≤ addrSpace

/-- **A fill** of an empty bin makes a superblock of the class the content of the
bin. Nothing that was mapped changes, and no block changes place. -/
theorem HeapInv.fill {cfg : Cfg} {os : Os} {s s' : State} {H : Heap} {live : List Live} {t c : Nat}
    (h : HeapInv cfg s H live) (h1 : 1 ≤ c) (h2 : c < maxSzIdx) (hpart : s.partialList c = none)
    (hfill : fillCache cfg os t c s = some s') :
    ∃ d seg free' H', H' = Heap.addSuper { H with alloced := d :: H.alloced, freeDescs := free' }
        t c d (strideList seg.ptr (cfg.sizeClass c).blockSize (cfg.sizeClass c).blockNum) ∧
      Fresh cfg c d seg s s' H ∧ HeapInv cfg s' H' live ∧ Extends cfg s s' H H' := by
  have hspec := cfg.classSpec h1 h2
  have hnum := hspec.blockNum_ge
  obtain ⟨-, hbin⟩ := fillCache_binInv h1 h2 hpart hfill
  obtain ⟨d, s₁, seg, halloc, hlen, hvalid, hapart, hempty, hsb⟩ := fillCache_fresh hpart hfill
  obtain ⟨free', h₁, hd, hf, ho⟩ := h.allocDesc halloc
  obtain ⟨hown, hcarved⟩ := h₁.fresh_seg hapart
  have haddr : DescAddr d := h₁.desc.addr d (h₁.desc.alloced_carved (List.mem_cons_self ..))
  have hnotown : ∀ sg, ¬Owns s₁ d sg := fun sg hsg =>
    hd (h.region.alloced ((ho.owns d sg).mp hsg))
  have ha := hsb.addsRegion hspec hlen hvalid hnotown hown hcarved
  have hheap : (s'.descs d).procHeap = some c := by
    rw [hsb.desc]
    rfl
  have hav : (s'.descs d).anchor.avail = (cfg.sizeClass c).blockNum := by
    rw [hsb.desc]
    exact Nat.mod_eq_of_lt hspec.blockNum_lt
  -- `push_list` asserts that the bin is empty
  have hHbin : H.bins t c = [] := by
    have hlen0 := (h.block.holds t c).num
    rw [← hf.threadCache, hempty] at hlen0
    exact List.length_eq_zero_iff.mp hlen0.symm
  have hholds := hbin.holds
  rw [show (s'.threadCache t c).block = seg.ptr by rw [hsb.bin]] at hholds
  have hadd := (h₁.map hapart).addSuper (List.mem_cons_self ..) ha hheap
    (hsb.superOk h1 h2 hlen hvalid haddr) hav hHbin hsb.bins hholds
  have hbound := hvalid.bound
  rw [hlen, regionLen_of_mod hspec.sbSize_page] at hbound
  refine ⟨d, seg, free', _, rfl, ⟨hd, ?_, fun d' hc hne => ?_, fun {d' sg} hne ho' => ?_,
    fun k hk => ?_, hvalid, hbound⟩, hadd, ⟨⟨?_, ?_, ?_⟩, ?_, ?_, ?_⟩⟩
  · rw [hsb.desc]
    rfl
  · rw [hsb.descs d' hne, hf.descs d' hc]
  · rw [Owns, hsb.descs d' hne] at ho'
    exact (ho.owns d' sg).mp ho'
  · rw [hsb.pageMap, ← hf.pageMap]
    refine setPages_out hvalid.aligned ?_ ?_
    · rw [hspec.pages]
      exact hbound
    · rw [hspec.pages]
      exact hk
  · rw [hsb.mode.partialList, hf.partialList]
  · rw [hsb.mode.useBootstrap, hf.useBootstrap]
  · rw [hsb.mode.panicking, hf.panicking]
  · intro sg hsg a hlo hhi
    have hap := hapart sg (hf.mapped sg hsg)
    unfold Segment.Apart at hap
    rw [ha.mem a (by omega)]
    show zeroFill s₁.mem seg.ptr (regionLen seg.length) a = _
    rw [zeroFill_out (by omega)]
    exact hf.mem sg hsg a hlo hhi
  · intro sg hsg
    rw [hsb.mapped]
    exact List.mem_cons_of_mem _ (hf.mapped sg hsg)
  · intro c' x hb hx
    change (if x ∈ strideList seg.ptr (cfg.sizeClass c).blockSize (cfg.sizeClass c).blockNum then
      Place.bin t else H.place x) = .free at hx
    -- every block of the new superblock is in the bin, so a free one is an old one
    by_cases hm : x ∈ strideList seg.ptr (cfg.sizeClass c).blockSize (cfg.sizeClass c).blockNum
    · rw [if_pos hm] at hx
      cases hx
    · rw [if_neg hm] at hx
      obtain ⟨d', hb⟩ := hb
      by_cases hne : d' = d
      · -- a block of the new superblock
        subst hne
        have hb' := hb
        obtain ⟨-, -, hheap', -⟩ := hb'
        rw [hheap] at hheap'
        cases hheap'
        exact absurd ((blockOf_stride ha.owns hheap).mp hb) hm
      · exact ⟨⟨d', (ho.blockOf d' c' x).mp ((ha.blockOf_other hne).mp hb)⟩, hx⟩

/-! ## The path through the cache -/

theorem allocateToCache_cases {cfg : Cfg} {os : Os} {t size c p : Nat} {s s' : State}
    (hoff : ¬(s.panicking t = true ∨ s.useBootstrap = true))
    (h : allocateToCache cfg os none t size c s = some (p, s')) :
    ∃ s₁ bin, (s₁ = s ∨ (s.threadCache t c).blockNum = 0 ∧ fillCache cfg os t c s = some s₁) ∧
      (s₁.threadCache t c).blockNum ≠ 0 ∧
      (s₁.threadCache t c).popBlock cfg.noMetStack s₁.mem = some (p, bin) ∧
      s' = s₁.setBin t c bin := by
  rw [allocateToCache, if_neg hoff] at h
  have hpop : ∀ s₁ : State, (if (s₁.threadCache t c).blockNum = 0 then none
        else ((s₁.threadCache t c).popBlock cfg.noMetStack s₁.mem).bind fun q =>
          some (q.1, s₁.setBin t c q.2)) = some (p, s') →
      ∃ bin, (s₁.threadCache t c).blockNum ≠ 0 ∧
        (s₁.threadCache t c).popBlock cfg.noMetStack s₁.mem = some (p, bin) ∧
        s' = s₁.setBin t c bin := by
    intro s₁ h
    split at h
    next => cases h
    next hne =>
      simp only [Option.bind_eq_some_iff, Prod.exists, Option.some.injEq, Prod.mk.injEq] at h
      obtain ⟨x, bin, hpop, rfl, rfl⟩ := h
      exact ⟨bin, hne, hpop, rfl⟩
  -- only an empty bin is filled
  by_cases hz : (s.threadCache t c).blockNum = 0
  · simp only [hz, if_true] at h
    obtain ⟨s₁, hfill, h⟩ := Option.bind_eq_some_iff.mp h
    obtain ⟨bin, hne, hpop, hs'⟩ := hpop s₁ h
    exact ⟨s₁, bin, Or.inr ⟨hz, hfill⟩, hne, hpop, hs'⟩
  · rw [if_neg hz] at h
    obtain ⟨bin, hne, hpop, hs'⟩ := hpop s h
    exact ⟨s, bin, Or.inl rfl, hne, hpop, hs'⟩

/-- **A request served from the cache** gets a block of the class. -/
theorem HeapInv.allocateToCache {cfg : Cfg} {os : Os} {t size c p : Nat} {s s' : State} {H : Heap}
    {live : List Live} (h : HeapInv cfg s H live)
    (hoff : ¬(s.panicking t = true ∨ s.useBootstrap = true)) (hpart : s.partialList c = none)
    (h1 : 1 ≤ c) (h2 : c < maxSzIdx) (req : Nat) (hreq : req ≤ (cfg.sizeClass c).blockSize)
    (hres : allocateToCache cfg os none t size c s = some (p, s')) :
    ∃ H', HeapInv cfg s' H' (⟨p, req, (cfg.sizeClass c).blockSize⟩ :: live) ∧
      Extends cfg s s' H H' ∧ IsBlock cfg s' c p := by
  obtain ⟨s₁, bin, hs₁, hne, hpop, rfl⟩ := allocateToCache_cases hoff hres
  obtain ⟨H₁, h₁, hext⟩ : ∃ H₁, HeapInv cfg s₁ H₁ live ∧ Extends cfg s s₁ H H₁ := by
    rcases hs₁ with rfl | ⟨-, hfill⟩
    · exact ⟨H, h, .refl ..⟩
    · obtain ⟨-, -, -, H₁, -, -, h₁, hext⟩ := h.fill h1 h2 hpart hfill
      exact ⟨H₁, h₁, hext⟩
  obtain ⟨x, l, bin', -, hblock, hpop', -, hpopped⟩ := h₁.pop req hne hreq
  rw [hpop', Option.some.injEq, Prod.mk.injEq] at hpop
  obtain ⟨rfl, rfl⟩ := hpop
  refine ⟨_, hpopped, hext.trans ⟨⟨rfl, rfl, rfl⟩, fun _ _ _ _ _ => rfl, fun _ hseg => hseg,
    fun c' y hb hy => ⟨hb, ?_⟩⟩, hblock⟩
  by_cases hyx : y = x
  · subst hyx
    rw [Heap.setPlace_same] at hy
    cases hy
  · rw [Heap.setPlace_other _ _ hyx] at hy
    exact hy

/-! ## Large blocks -/

/-- The state with a large block at `ptr` in the segment of descriptor `d`. -/
def State.addLarge (s : State) (d pages : Nat) (seg : Segment) (ptr : Nat) : State :=
  { s.setLarge d pages seg with
    pageMap := setPageInfo (setPageInfo s.pageMap seg.ptr ⟨d⟩) ptr ⟨d⟩ }

theorem registerDesc_setLarge {cfg : Cfg} {s : State} {d pages : Nat} {seg : Segment}
    (hptr : seg.ptr ≠ 0) :
    registerDesc cfg d (s.setLarge d pages seg) =
      some { s.setLarge d pages seg with
        pageMap := setPageInfo s.pageMap seg.ptr (PageInfo.setPtr d 0) } := by
  rw [registerDesc]
  simp only [State.setLarge, setDesc_same, Option.bind_eq_bind, Option.bind_some]
  rw [updatePageMap, if_neg hptr]
  rfl

theorem registerDesc_large {cfg : Cfg} {s : State} {d pages : Nat} {seg : Segment}
    (hd : DescAddr d) (hpos : seg.ptr ≠ 0) :
    registerDesc cfg d (s.setLarge d pages seg) = some (s.addLarge d pages seg seg.ptr) := by
  rw [State.addLarge, setPageInfo_twice, registerDesc_setLarge hpos, setPtr_zero_of_desc hd]

theorem addsRegion_addLarge {s : State} {d pages ptr : Nat} {seg : Segment} (hvalid : seg.Valid)
    (hmapped : seg ∈ s.mapped) (hnew : ∀ sg, ¬Owns s d sg)
    (hown : ∀ {d' sg}, Owns s d' sg → seg.Apart sg)
    (hcarved : ∀ x ∈ s.carved, x < seg.ptr ∨ seg.ptr + regionLen seg.length ≤ x)
    (hin : seg.ptr ≤ ptr ∧ ptr < seg.ptr + seg.length) :
    AddsRegion s (s.addLarge d pages seg ptr) d seg := by
  have hreg := (regionLen_bounds seg.length).1
  refine ⟨hnew, ?_, fun d' hne => if_neg hne, ?_, hvalid, hmapped, hown, hcarved, rfl, rfl, rfl,
    fun k hk => ?_, fun _ _ => rfl⟩
  · show (((s.setLarge d pages seg).descs d).superBlock) = some seg
    rw [State.setLarge, setDesc_same]
  · show ((s.setLarge d pages seg).descs d).nextFree = _
    rw [State.setLarge, setDesc_same]
  · have h1 : k ≠ addrToKey ptr := fun he => hk ⟨ptr, hin.1, by omega, he⟩
    have h2 : k ≠ addrToKey seg.ptr := fun he => hk ⟨seg.ptr, Nat.le_refl _, by omega, he⟩
    show setPageInfo (setPageInfo s.pageMap seg.ptr ⟨d⟩) ptr ⟨d⟩ k = _
    rw [setPageInfo, if_neg h1, setPageInfo, if_neg h2]

theorem addLarge_procHeap (s : State) (d pages ptr : Nat) (seg : Segment) :
    ((s.addLarge d pages seg ptr).descs d).procHeap = none := by
  show ((s.setLarge d pages seg).descs d).procHeap = none
  rw [State.setLarge, setDesc_same]

/-- **A large block** in a mapped segment nobody owns. -/
theorem HeapInv.large {cfg : Cfg} {s : State} {H : Heap} {live : List Live} {d pages ptr : Nat}
    {seg : Segment} (h : HeapInv cfg s H live) (hd : d ∈ H.alloced) (hvalid : seg.Valid)
    (hmapped : seg ∈ s.mapped) (hnew : ∀ sg, ¬Owns s d sg)
    (hown : ∀ {d' sg}, Owns s d' sg → seg.Apart sg)
    (hcarved : ∀ x ∈ s.carved, x < seg.ptr ∨ seg.ptr + regionLen seg.length ≤ x)
    (hlen : seg.length = pages) (hbig : maxSz < pages) (hfit : pages < u32Size)
    (hlo : seg.ptr ≤ ptr) (hpos : ptr < seg.ptr + seg.length) (size : Nat)
    (hsize : ptr + size ≤ seg.ptr + seg.length) :
    HeapInv cfg (s.addLarge d pages seg ptr) H
        (⟨ptr, size, seg.ptr + seg.length - ptr⟩ :: live) ∧
      ∀ c x, IsBlock cfg (s.addLarge d pages seg ptr) c x ↔ IsBlock cfg s c x := by
  have ha : AddsRegion s (s.addLarge d pages seg ptr) d seg :=
    addsRegion_addLarge hvalid hmapped hnew hown hcarved ⟨hlo, hpos⟩
  refine ⟨h.addLarge hd ha (addLarge_procHeap ..) (hlen ▸ hbig) ?_ rfl hlo ?_ ?_ ?_ ?_,
    ha.isBlock_large (addLarge_procHeap ..)⟩
  · show ((s.setLarge d pages seg).descs d).blockSize = seg.length
    rw [State.setLarge, setDesc_same, hlen]
    exact Nat.mod_eq_of_lt hfit
  · simp only
    omega
  · simp only
    omega
  · simp only
    omega
  · exact if_pos rfl

/-- A large request after its descriptor and its segment were had, in this
order. -/
theorem doMalloc_large {cfg : Cfg} {os : Os} {tuner : Option Nat} {t size p : Nat} {s s' : State}
    {H : Heap} {live : List Live} (h : HeapInv cfg s H live) (hsize : maxSz < size)
    (hres : doMalloc cfg os tuner t size s = some (p, s')) :
    ∃ (d : Nat) (s₁ : State) (free' : List Nat) (seg : Segment),
      Descriptor.alloc cfg os s = some (d, s₁) ∧ AllocFrame s s₁ ∧
      HeapInv cfg s₁ { H with alloced := d :: H.alloced, freeDescs := free' } live ∧
      SameOwners s s₁ ∧ d ∉ H.alloced ∧ seg.length = pageCeiling size ∧ seg.Valid ∧
      (∀ sg ∈ s₁.mapped, seg.Apart sg) ∧ p = seg.ptr ∧
      s' = { s₁ with mapped := seg :: s₁.mapped,
                     mem := zeroFill s₁.mem seg.ptr (regionLen seg.length) }.addLarge d
              (pageCeiling size) seg seg.ptr := by
  rw [doMalloc, if_pos hsize] at hres
  simp only [Option.bind_eq_bind, Option.bind_eq_some_iff, Prod.exists, Option.some.injEq,
    Prod.mk.injEq] at hres
  obtain ⟨d, s₁, halloc, seg, s₂, hseg, s₃, hreg, rfl, rfl⟩ := hres
  obtain ⟨free', h₁, hd, hf, ho⟩ := h.allocDesc halloc
  obtain ⟨hlen, hvalid, hapart, rfl⟩ := segAllocate_cases hseg
  have haddr : DescAddr d := h₁.desc.addr d (h₁.desc.alloced_carved (List.mem_cons_self ..))
  rw [registerDesc_large haddr (Nat.ne_of_gt hvalid.pos), Option.some.injEq] at hreg
  refine ⟨d, s₁, free', seg, halloc, hf, h₁, ho, hd, hlen, hvalid, hapart, rfl, ?_⟩
  rw [← hreg, hlen]

theorem regionLen_pageCeiling {size : Nat} (h : size + page ≤ usizeSize) :
    pageCeiling size = regionLen size :=
  pageCeiling_eq h

theorem fits_usize {size : Nat} (h : regionLen size < u32Size) : size + page ≤ usizeSize := by
  have := (regionLen_bounds size).1
  rw [u32Size_eq] at h
  rw [page_eq, usizeSize_eq]
  omega

theorem fits_lt {size : Nat} (h : regionLen size < u32Size) : size < usizeSize := by
  have := fits_usize h
  rw [page_eq] at this
  omega

/-- Memory mapped before a new mapping is not touched by it. -/
theorem sameMapped_map {s s₁ s' : State} {seg : Segment} (hf : AllocFrame s s₁)
    (hapart : ∀ sg ∈ s₁.mapped, seg.Apart sg)
    (hmem : s'.mem = zeroFill s₁.mem seg.ptr (regionLen seg.length)) : SameMapped s s' := by
  intro sg hsg a hlo hhi
  have hap := hapart sg (hf.mapped sg hsg)
  unfold Segment.Apart at hap
  rw [hmem, zeroFill_out (by omega)]
  exact hf.mem sg hsg a hlo hhi

/-- The class of a request below the limit. -/
theorem getSizeClass_spec (cfg : Cfg) {size : Nat} (h : size ≤ maxSz) :
    1 ≤ getSizeClass size ∧ getSizeClass size < maxSzIdx ∧
      size ≤ (cfg.sizeClass (getSizeClass size)).blockSize := by
  obtain ⟨hleast, hlt⟩ := getSizeClass_least h
  refine ⟨hleast.1, hlt, ?_⟩
  rw [(cfg.classSpec hleast.1 hlt).blockSize_eq]
  exact hleast.2.1

/-- The length of the block for a request. -/
def mallocLen (cfg : Cfg) (size : Nat) : Nat :=
  if maxSz < size then pageCeiling size else (cfg.sizeClass (getSizeClass size)).blockSize

/-- **`do_malloc`** adds a live block of at least the requested size. -/
theorem HeapInv.doMalloc {cfg : Cfg} {os : Os} {t size p : Nat} {s s' : State} {H : Heap}
    {live : List Live} (h : HeapInv cfg s H live) (hpart : ∀ c, s.partialList c = none)
    (hoff : size ≤ maxSz → ¬(s.panicking t = true ∨ s.useBootstrap = true))
    (hfit : regionLen size < u32Size)
    (hres : doMalloc cfg os none t size s = some (p, s')) :
    ∃ H', HeapInv cfg s' H' (⟨p, size, mallocLen cfg size⟩ :: live) ∧ Extends cfg s s' H H' := by
  unfold mallocLen
  by_cases hsize : maxSz < size
  · obtain ⟨d, s₁, free', seg, -, hf, h₁, ho, hd, hlen, hvalid, hapart, rfl, rfl⟩ :=
      doMalloc_large h hsize hres
    obtain ⟨hown, hcarved⟩ := h₁.fresh_seg hapart
    have hpages : pageCeiling size = regionLen size := regionLen_pageCeiling (fits_usize hfit)
    have hge := (regionLen_bounds size).1
    have hnotown : ∀ sg, ¬Owns s₁ d sg := fun sg hsg =>
      hd (h.region.alloced ((ho.owns d sg).mp hsg))
    obtain ⟨hl, hblock⟩ := (h₁.map hapart).large (List.mem_cons_self ..) hvalid
      (List.mem_cons_self ..) hnotown hown hcarved hlen (by omega) (by omega) (Nat.le_refl _)
      (by omega) size (by omega)
    have hend : seg.ptr + seg.length - seg.ptr = pageCeiling size := by omega
    rw [hend] at hl
    rw [if_pos hsize]
    exact ⟨_, hl, ⟨hf.partialList, hf.useBootstrap, hf.panicking⟩,
      sameMapped_map hf hapart rfl, fun sg hsg => List.mem_cons_of_mem _ (hf.mapped sg hsg),
      fun c x hb hp => ⟨(ho.isBlock c x).mp ((hblock c x).mp hb), hp⟩⟩
  · rw [Apfmalloc.doMalloc, if_neg hsize] at hres
    obtain ⟨h1, h2, hbs⟩ := getSizeClass_spec cfg (Nat.not_lt.mp hsize)
    obtain ⟨H', h', hext, -⟩ := h.allocateToCache (hoff (Nat.not_lt.mp hsize)) (hpart _) h1 h2 size
      hbs hres
    rw [if_neg hsize]
    exact ⟨H', h', hext⟩

/-! ## Aligned requests -/

/-- A request whose segment has a length that fits the `u32` of `block_size`. -/
structure AlignFits (align size : Nat) : Prop where
  pow : ∃ k < 64, align = 2 ^ k
  fits : regionLen size < u32Size
  overPage : page < align → regionLen (max (alignSize size align) (maxSz + 1) + align) < u32Size

/-- The pointer given for a large aligned request. -/
def alignedPtr (align ptr : Nat) : Nat := if align > page then alignAddr ptr align else ptr

theorem isPowerOfTwo_pow {k : Nat} (hk : k < 64) : isPowerOfTwo (2 ^ k) = true := by
  have hlt : 2 ^ k < usizeSize := Nat.pow_lt_pow_right (by omega) hk
  exact (isPowerOfTwo_iff hlt).mpr (Nat.ne_of_gt (Nat.two_pow_pos k))

theorem AlignFits.le_alignSize {align size : Nat} (h : AlignFits align size) :
    size ≤ alignSize size align := by
  obtain ⟨k, hk, rfl⟩ := h.pow
  have hreg := (regionLen_bounds size).1
  have hfits := h.fits
  have hu := u32Size_eq
  have huu := usizeSize_eq
  by_cases hlt : 2 ^ k < size
  · exact (alignSize_bounds hk (by omega)).1
  · rw [alignSize, if_neg hlt]
    omega

theorem AlignFits.alignSize_le {align size : Nat} (h : AlignFits align size) (hle : align ≤ page)
    (hbig : page < alignSize size align) : alignSize size align ≤ regionLen size := by
  obtain ⟨k, hk, rfl⟩ := h.pow
  have hfit := fits_usize h.fits
  have hb := @alignSize_bounds size k hk (by omega)
  have hreg := (regionLen_bounds size).1
  refine hb.2.2 _ hreg ?_ ?_
  · -- a request of no bytes gives one unit of alignment, which is no more than a page
    by_cases h0 : size = 0
    · rw [h0, alignSize, if_neg (Nat.not_lt_zero _)] at hbig
      omega
    · omega
  · exact Nat.dvd_trans (pow_dvd_page hle) (Nat.dvd_of_mod_eq_zero (regionLen_mod size))

theorem regionLen_le {size m : Nat} (h : size ≤ m) (hm : m % page = 0) : regionLen size ≤ m :=
  roundUp_le (by decide) h (Nat.dvd_of_mod_eq_zero hm)

/-- The segment of a large aligned request holds the request from its pointer on. -/
theorem AlignFits.large {align size ptr : Nat} (h : AlignFits align size)
    (hbig : page < alignSize size align)
    (hend : ptr + regionLen (alignedPages align (alignSize size align)) ≤ addrSpace) :
    maxSz < alignedPages align (alignSize size align) ∧
      alignedPages align (alignSize size align) < u32Size ∧ ptr ≤ alignedPtr align ptr ∧
      alignedPtr align ptr < ptr + alignedPages align (alignSize size align) ∧
      alignedPtr align ptr + size ≤ ptr + alignedPages align (alignSize size align) := by
  have hfits := h.fits
  have hfit := (regionLen_bounds size).1
  have hu := u32Size_eq
  have huu := usizeSize_eq
  have hm := maxSz_eq
  have hpg := page_eq
  unfold alignedPages alignedPtr at *
  simp only at *
  by_cases hov : align > page
  · have hsum := h.overPage hov
    have hsz := (regionLen_bounds (max (alignSize size align) (maxSz + 1) + align)).1
    rw [if_pos hov, if_pos hov, Nat.mod_eq_of_lt (by omega), pageCeiling_eq (by omega)] at *
    obtain ⟨k, hk, rfl⟩ := h.pow
    have hb := @alignSize_bounds size k hk (by omega)
    have hreg := (regionLen_bounds (regionLen (max (alignSize size (2 ^ k)) (maxSz + 1) + 2 ^ k))).1
    change ptr + regionLen (regionLen _) ≤ _ at hend
    have haddr : addrSpace = 281474976710656 := rfl
    have hal := @alignVal_bounds ptr k hk (by omega)
    rw [alignAddr_eq_alignVal]
    change _ < regionLen _ ∧ regionLen _ < _ ∧ _ ≤ _ ∧ _ < _ + regionLen _ ∧ _ ≤ _ + regionLen _
    omega
  · have hle := h.alignSize_le (by omega) hbig
    have hmul := regionLen_mod size
    have hbs := h.le_alignSize
    have hmax : regionLen (max (alignSize size align) (maxSz + 1)) ≤ max (regionLen size) 16384 := by
      refine regionLen_le (by omega) ?_
      rcases Nat.le_total (regionLen size) 16384 with hc | hc
      · rw [Nat.max_eq_right hc, hpg]
      · rw [Nat.max_eq_left hc, hmul]
    have hge := (regionLen_bounds (max (alignSize size align) (maxSz + 1))).1
    rw [if_neg hov, if_neg hov, pageCeiling_eq (by omega)] at *
    change _ < regionLen _ ∧ regionLen _ < _ ∧ _ ≤ _ ∧ _ < _ + regionLen _ ∧ _ ≤ _ + regionLen _
    omega

/-- Above a page the pointer moves, and its page is registered a second time. -/
theorem registerAligned_large {cfg : Cfg} {s : State} {d align pages : Nat} {seg : Segment}
    (hd : DescAddr d) (hpos : 0 < seg.ptr) (hle : seg.ptr ≤ alignedPtr align seg.ptr) :
    (if page < align then
      (updatePageMap cfg none (alignAddr seg.ptr align) (some d) 0
        (s.addLarge d pages seg seg.ptr)).bind fun s => some (alignAddr seg.ptr align, s)
    else some (seg.ptr, s.addLarge d pages seg seg.ptr)) =
      some (alignedPtr align seg.ptr, s.addLarge d pages seg (alignedPtr align seg.ptr)) := by
  unfold alignedPtr at *
  by_cases hov : page < align
  · simp only [gt_iff_lt, hov, if_true] at hle ⊢
    rw [updatePageMap, if_neg (by omega)]
    simp only [Option.bind_some, Option.getD_some, setPtr_zero_of_desc hd]
    unfold State.addLarge
    rw [setPageInfo_twice]
  · simp only [gt_iff_lt, hov, if_false]

/-- A large aligned request: the segment is had first, then the descriptor. -/
theorem doAlignedAlloc_large {cfg : Cfg} {os : Os} {tuner : Option Nat} {t align size p : Nat}
    {s s' : State} {H : Heap} {live : List Live} (h : HeapInv cfg s H live)
    (hpow : isPowerOfTwo align = true) (hbig : page < alignSize size align)
    (hptr : ∀ ptr, 0 < ptr → ptr + regionLen (alignedPages align (alignSize size align)) ≤ addrSpace →
      ptr ≤ alignedPtr align ptr)
    (hres : doAlignedAlloc cfg os tuner t align size s = some (p, s')) :
    (p = 0 ∧ s' = s) ∨
      ∃ (d : Nat) (s₂ : State) (free' : List Nat) (seg : Segment),
        HeapInv cfg s₂ { H with alloced := d :: H.alloced, freeDescs := free' } live ∧
        AllocFrame { s with mapped := seg :: s.mapped,
                            mem := zeroFill s.mem seg.ptr (regionLen seg.length) } s₂ ∧
        SameOwners s s₂ ∧ d ∉ H.alloced ∧
        seg.length = alignedPages align (alignSize size align) ∧ seg.Valid ∧
        (∀ sg ∈ s.mapped, seg.Apart sg) ∧ p = alignedPtr align seg.ptr ∧
        s' = s₂.addLarge d seg.length seg p := by
  rw [doAlignedAlloc, if_neg (by rw [hpow]; decide)] at hres
  simp only [gt_iff_lt, hbig, if_true] at hres
  cases hseg : segAllocate os (alignedPages align (alignSize size align)) s with
  | none =>
    rw [hseg] at hres
    simp only [Option.some.injEq, Prod.mk.injEq] at hres
    exact Or.inl ⟨hres.1.symm, hres.2.symm⟩
  | some r =>
    obtain ⟨seg, s₁⟩ := r
    obtain ⟨hlen, hvalid, hapart, rfl⟩ := segAllocate_cases hseg
    rw [hseg] at hres
    simp only [Option.bind_eq_bind, Option.bind_eq_some_iff, Prod.exists] at hres
    obtain ⟨d, s₂, halloc, s₃, hreg, hres⟩ := hres
    rw [← hlen] at halloc hreg
    obtain ⟨free', h₂, hd, hf, ho⟩ := (h.map hapart).allocDesc halloc
    have haddr : DescAddr d := h₂.desc.addr d (h₂.desc.alloced_carved (List.mem_cons_self ..))
    rw [registerDesc_large haddr (Nat.ne_of_gt hvalid.pos), Option.some.injEq] at hreg
    subst hreg
    refine Or.inr ⟨d, s₂, free', seg, h₂, hf, ⟨ho.owns, ho.procHeap, ho.blockSize, ho.maxCount⟩, hd,
      hlen, hvalid, hapart, ?_⟩
    have hle := hptr seg.ptr hvalid.pos (hlen ▸ hvalid.bound)
    rw [registerAligned_large haddr hvalid.pos hle, Option.some.injEq, Prod.mk.injEq] at hres
    obtain ⟨rfl, rfl⟩ := hres
    exact ⟨rfl, rfl⟩

/-- An aligned request of at most a page is served from the cache. -/
theorem doAlignedAlloc_small {cfg : Cfg} {os : Os} {tuner : Option Nat} {t align size : Nat}
    {s : State} (hpow : isPowerOfTwo align = true) (hsmall : ¬page < alignSize size align) :
    doAlignedAlloc cfg os tuner t align size s =
      allocateToCache cfg os tuner t (alignSize size align)
        (getSizeClass (alignSize size align)) s := by
  rw [doAlignedAlloc, if_neg (by rw [hpow]; decide)]
  simp only [gt_iff_lt, hsmall, if_false]

theorem le_maxSz_of_page {size : Nat} (h : ¬page < size) : size ≤ maxSz := by
  rw [maxSz_eq]
  rw [page_eq] at h
  omega

/-- **`do_aligned_alloc`** gives NULL and changes nothing, or adds a live block of
at least the requested size. -/
theorem HeapInv.doAlignedAlloc {cfg : Cfg} {os : Os} {t align size p : Nat} {s s' : State}
    {H : Heap} {live : List Live} (h : HeapInv cfg s H live) (hpart : ∀ c, s.partialList c = none)
    (hoff : alignSize size align ≤ page → ¬(s.panicking t = true ∨ s.useBootstrap = true))
    (hfit : AlignFits align size)
    (hres : doAlignedAlloc cfg os none t align size s = some (p, s')) :
    (p = 0 ∧ s' = s) ∨
      ∃ H' len, HeapInv cfg s' H' (⟨p, size, len⟩ :: live) ∧ Extends cfg s s' H H' := by
  have hpow : isPowerOfTwo align = true := by
    obtain ⟨k, hk, rfl⟩ := hfit.pow
    exact isPowerOfTwo_pow hk
  by_cases hbig : page < alignSize size align
  · refine (doAlignedAlloc_large h hpow hbig (fun ptr _ hend => (hfit.large hbig hend).2.2.1)
      hres).imp id ?_
    intro hex
    obtain ⟨d, s₂, free', seg, h₂, hf, ho, hd, hlen, hvalid, hapart, rfl, rfl⟩ := hex
    obtain ⟨hmax, hu32, hlo, hpos, hsize⟩ := hfit.large hbig (hlen ▸ hvalid.bound)
    have hmem : seg ∈ s₂.mapped := hf.mapped seg (List.mem_cons_self ..)
    have hmapped : ∀ sg ∈ s.mapped, sg ∈ s₂.mapped := fun sg hsg =>
      hf.mapped sg (List.mem_cons_of_mem _ hsg)
    have hown : ∀ {d' sg}, Owns s₂ d' sg → seg.Apart sg := fun hd' =>
      hapart _ (h.region.mapped ((ho.owns _ _).mp hd'))
    have hcarved : ∀ x ∈ s₂.carved, x < seg.ptr ∨ seg.ptr + regionLen seg.length ≤ x := by
      intro x hx
      rcases hf.carvedOut x hx with hx | hx
      · exact (h.fresh_seg hapart).2 x hx
      · exact hx seg (List.mem_cons_self ..)
    have hnotown : ∀ sg, ¬Owns s₂ d sg := fun sg hsg =>
      hd (h.region.alloced ((ho.owns d sg).mp hsg))
    obtain ⟨hl, hblock⟩ := h₂.large (List.mem_cons_self ..) hvalid hmem hnotown hown hcarved rfl
      (hlen ▸ hmax) (hlen ▸ hu32) hlo (hlen ▸ hpos) size (hlen ▸ hsize)
    refine ⟨_, _, hl, ⟨hf.partialList, hf.useBootstrap, hf.panicking⟩, ?_, hmapped,
      fun c x hb hp => ⟨(ho.isBlock c x).mp ((hblock c x).mp hb), hp⟩⟩
    intro sg hsg a hlo hhi
    have hap := hapart sg hsg
    unfold Segment.Apart at hap
    show s₂.mem a = _
    rw [hf.mem sg (List.mem_cons_of_mem _ hsg) a hlo hhi]
    exact zeroFill_out (by omega)
  · obtain ⟨k, hk, rfl⟩ := hfit.pow
    rw [doAlignedAlloc_small (isPowerOfTwo_pow hk) hbig] at hres
    obtain ⟨h1, h2, hbs⟩ := getSizeClass_spec cfg (le_maxSz_of_page hbig)
    obtain ⟨H', h', hext, -⟩ :=
      h.allocateToCache (hoff (Nat.not_lt.mp hbig)) (hpart _) h1 h2 size
        (Nat.le_trans hfit.le_alignSize hbs) hres
    exact Or.inr ⟨H', _, h', hext⟩

end Apfmalloc
