import Apfmalloc.Heap

/-!
# Popping, pushing and client writes keep the heap invariant

A pop moves the top block of a bin into a client's hands and a push moves a live
block into a bin; nothing else about the heap changes. Writes of clients go to
bytes of live blocks, and no list of the allocator passes through those.
-/

namespace Apfmalloc

open Base

/-! ## Frames -/

/-- The descriptors that own a segment, and what they say about it, are the
same. -/
structure SameOwners (s s' : State) : Prop where
  owns : ∀ d seg, Owns s' d seg ↔ Owns s d seg
  procHeap : ∀ {d seg}, Owns s d seg → (s'.descs d).procHeap = (s.descs d).procHeap
  blockSize : ∀ {d seg}, Owns s d seg → (s'.descs d).blockSize = (s.descs d).blockSize
  maxCount : ∀ {d seg}, Owns s d seg → (s'.descs d).maxCount = (s.descs d).maxCount

theorem SameOwners.of_eq {s s' : State} (h : s'.descs = s.descs) : SameOwners s s' := by
  refine ⟨fun d seg => ?_, fun _ => by rw [h], fun _ => by rw [h], fun _ => by rw [h]⟩
  rw [Owns, Owns, h]

theorem SameOwners.blockOf {cfg : Cfg} {s s' : State} (h : SameOwners s s') (d c x : Nat) :
    BlockOf cfg s' d c x ↔ BlockOf cfg s d c x := by
  constructor
  · intro hb
    obtain ⟨seg, howns, hheap, hi⟩ := hb
    have howns' := (h.owns d seg).mp howns
    exact ⟨seg, howns', (h.procHeap howns').symm.trans hheap, hi⟩
  · intro hb
    obtain ⟨seg, howns, hheap, hi⟩ := hb
    exact ⟨seg, (h.owns d seg).mpr howns, (h.procHeap howns).trans hheap, hi⟩

theorem SameOwners.isBlock {cfg : Cfg} {s s' : State} (h : SameOwners s s') (c x : Nat) :
    IsBlock cfg s' c x ↔ IsBlock cfg s c x := by
  constructor
  · intro hb
    obtain ⟨d, hb⟩ := hb
    exact ⟨d, (h.blockOf d c x).mp hb⟩
  · intro hb
    obtain ⟨d, hb⟩ := hb
    exact ⟨d, (h.blockOf d c x).mpr hb⟩

/-- The regions only depend on the owners, the page map, and the mappings; new
descriptors are carved outside of them. -/
theorem RegionInv.frame {cfg : Cfg} {s s' : State} {alloced alloced' : List Nat}
    (h : RegionInv cfg s alloced) (ho : SameOwners s s') (hpm : s'.pageMap = s.pageMap)
    (hal : ∀ d ∈ alloced, d ∈ alloced') (hmapped : ∀ {d seg}, Owns s d seg → seg ∈ s'.mapped)
    (hcarved : ∀ x ∈ s'.carved, x ∈ s.carved ∨
      ∀ {d seg}, Owns s d seg → x < seg.ptr ∨ seg.ptr + regionLen seg.length ≤ x) :
    RegionInv cfg s' alloced' := by
  refine ⟨?_, ?_, ?_, ?_, ?_, ?_, ?_⟩
  · intro d seg hd
    exact hal d (h.alloced ((ho.owns d seg).mp hd))
  · intro d seg hd
    exact h.valid ((ho.owns d seg).mp hd)
  · intro d seg hd
    exact hmapped ((ho.owns d seg).mp hd)
  · intro d seg d' seg' hd hd' hne
    exact h.apart ((ho.owns d seg).mp hd) ((ho.owns d' seg').mp hd') hne
  · intro d seg hd x hx
    have hd := (ho.owns d seg).mp hd
    rcases hcarved x hx with hx | hx
    · exact h.carved hd x hx
    · exact hx hd
  · intro d seg c hd hheap
    have hd := (ho.owns d seg).mp hd
    have hs := h.small hd ((ho.procHeap hd).symm.trans hheap)
    exact ⟨hs.one_le, hs.lt, hs.length, (ho.blockSize hd).trans hs.blockSize,
      (ho.maxCount hd).trans hs.maxCount, by rw [hpm]; exact hs.pages⟩
  · intro d seg hd hheap
    have hd := (ho.owns d seg).mp hd
    have hl := h.large hd ((ho.procHeap hd).symm.trans hheap)
    exact ⟨hl.1, (ho.blockSize hd).trans hl.2⟩

theorem LiveOk.frame {cfg : Cfg} {s s' : State} {place place' : Nat → Place} {e : Live}
    (h : LiveOk cfg s place e) (ho : SameOwners s s')
    (hplace : ∀ c, IsBlock cfg s c e.ptr → place e.ptr = .live → place' e.ptr = .live)
    (hpm : ∀ {d seg}, Owns s d seg → (s.descs d).procHeap = none → seg.ptr ≤ e.ptr →
      e.ptr < seg.ptr + seg.length → s'.pageMap (addrToKey e.ptr) = s.pageMap (addrToKey e.ptr)) :
    LiveOk cfg s' place' e := by
  cases h with
  | @small d c hb hp hlen hsize =>
    exact .small ((ho.blockOf d c _).mpr hb) (hplace c ⟨d, hb⟩ hp) hlen hsize
  | @large d seg howns hheap hlo hpos hend hsize hpage =>
    exact .large ((ho.owns d seg).mpr howns) ((ho.procHeap howns).trans hheap) hlo hpos hend hsize
      ((hpm howns hheap hlo (by omega)).trans hpage)

/-- The lists of the allocator only depend on the first words of the blocks that
are not live. -/
theorem BlockInv.frame {cfg : Cfg} {s s' : State} {H H' : Heap} {live : List Live}
    (h : BlockInv cfg s H live) (ho : SameOwners s s')
    (hplace : H'.place = H.place) (hbins : H'.bins = H.bins) (hfrees : H'.frees = H.frees)
    (htc : s'.threadCache = s.threadCache)
    (hav : ∀ {d seg}, Owns s d seg → (s'.descs d).anchor.avail = (s.descs d).anchor.avail)
    (hpm : ∀ {d seg a}, Owns s d seg → (s.descs d).procHeap = none → seg.ptr ≤ a →
      a < seg.ptr + seg.length → s'.pageMap (addrToKey a) = s.pageMap (addrToKey a))
    (hmem : ∀ c x, IsBlock cfg s c x → H.place x ≠ .live →
      readWord s'.mem x = readWord s.mem x) : BlockInv cfg s' H' live := by
  refine ⟨?_, ?_, ?_, ?_, ?_, ?_, ?_, ?_, h.liveApart⟩
  · intro t c
    rw [htc, hbins]
    refine (h.holds t c).frame fun x hx => ?_
    have hx := (h.binMem t c x).mp hx
    exact (hmem c x hx.2 (by rw [hx.1]; exact fun he => by cases he)).symm
  · rw [hbins]
    exact h.binNodup
  · intro t c x
    rw [hbins, hplace, ho.isBlock]
    exact h.binMem t c x
  · intro d seg c hd hheap
    have hd := (ho.owns d seg).mp hd
    have hheap := (ho.procHeap hd).symm.trans hheap
    rw [hav hd, hfrees]
    refine (h.freeChain hd hheap).congr fun x hx => ?_
    have hx := (h.freeMem hd hheap x).mp hx
    exact (hmem c x ⟨d, hx.2⟩ (by rw [hx.1]; exact fun he => by cases he)).symm
  · intro d seg c hd hheap
    have hd := (ho.owns d seg).mp hd
    rw [hfrees]
    exact h.freeNodup hd ((ho.procHeap hd).symm.trans hheap)
  · intro d seg c hd hheap x
    have hd := (ho.owns d seg).mp hd
    rw [hfrees, hplace, ho.blockOf]
    exact h.freeMem hd ((ho.procHeap hd).symm.trans hheap) x
  · intro e he
    exact (h.liveOk e he).frame ho (fun _ _ hp => by rw [hplace]; exact hp) hpm
  · intro c x hb hp
    rw [hplace] at hp
    exact h.liveAll c x ((ho.isBlock c x).mp hb) hp

/-- The descriptor lists of the ghost state play no part in it. -/
theorem BlockInv.congr {cfg : Cfg} {s : State} {H H' : Heap} {live : List Live}
    (h : BlockInv cfg s H live) (hplace : H'.place = H.place) (hbins : H'.bins = H.bins)
    (hfrees : H'.frees = H.frees) : BlockInv cfg s H' live :=
  h.frame (.of_eq rfl) hplace hbins hfrees rfl (fun _ => rfl) (fun _ _ _ _ => rfl)
    fun _ _ _ _ => rfl

/-- The descriptors, their lists, the mappings and the page map are the same. -/
structure SameTables (s s' : State) : Prop where
  availableDesc : s'.availableDesc = s.availableDesc
  descs : s'.descs = s.descs
  carved : s'.carved = s.carved
  mapped : s'.mapped = s.mapped
  pageMap : s'.pageMap = s.pageMap

/-- Then only the blocks have to be looked at, -/
theorem HeapInv.of_block {cfg : Cfg} {s s' : State} {H H' : Heap} {live live' : List Live}
    (h : HeapInv cfg s H live) (hs : SameTables s s') (halloced : H'.alloced = H.alloced)
    (hfree : H'.freeDescs = H.freeDescs) (hb : BlockInv cfg s' H' live') :
    HeapInv cfg s' H' live' := by
  refine ⟨?_, ?_, hb⟩
  · rw [halloced, hfree]
    refine h.desc.frame hs.availableDesc (fun d _ => by rw [hs.descs]) hs.carved fun d _ hm => ?_
    rw [InMapped, hs.mapped]
    exact hm
  · rw [halloced]
    refine h.region.frame (.of_eq hs.descs) hs.pageMap (fun _ hd => hd) (fun ho => ?_) fun x hx => ?_
    · rw [hs.mapped]
      exact h.region.mapped ho
    · rw [hs.carved] at hx
      exact Or.inl hx

/-- and with the same bins and the same bytes nothing has to. -/
theorem HeapInv.of_same {cfg : Cfg} {s s' : State} {H : Heap} {live : List Live}
    (h : HeapInv cfg s H live) (hs : SameTables s s') (hbins : s'.threadCache = s.threadCache)
    (hmem : s'.mem = s.mem) : HeapInv cfg s' H live := by
  refine h.of_block hs rfl rfl (h.block.frame (.of_eq hs.descs) rfl rfl rfl hbins (fun _ => ?_)
    (fun _ _ _ _ => ?_) fun _ _ _ _ => ?_)
  · rw [hs.descs]
  · rw [hs.pageMap]
  · rw [hmem]

/-- A bin in the place of one with the same blocks. -/
theorem HeapInv.rebin {cfg : Cfg} {s : State} {H : Heap} {live : List Live}
    (h : HeapInv cfg s H live) {t c : Nat} {bin : ThreadCacheBin}
    (hbin : Holds cfg.noMetStack s.mem bin (H.bins t c)) :
    HeapInv cfg (s.setBin t c bin) H live := by
  refine h.of_block ⟨rfl, rfl, rfl, rfl, rfl⟩ rfl rfl
    ⟨fun t' c' => ?_, h.block.binNodup, h.block.binMem, h.block.freeChain, h.block.freeNodup,
      h.block.freeMem, fun e he => (h.block.liveOk e he).frame (.of_eq rfl) (fun _ _ hp => hp)
        fun _ _ _ _ => rfl, h.block.liveAll, h.block.liveApart⟩
  by_cases htc : t' = t ∧ c' = c
  · obtain ⟨rfl, rfl⟩ := htc
    rw [setBin_same]
    exact hbin
  · rw [setBin_other _ _ _ _ htc]
    exact h.block.holds t' c'

/-! ## Updates of the ghost state -/

def Heap.setBin (H : Heap) (t c : Nat) (l : List Nat) : Heap :=
  { H with bins := fun t' c' => if t' = t ∧ c' = c then l else H.bins t' c' }

def Heap.setPlace (H : Heap) (x : Nat) (p : Place) : Heap :=
  { H with place := fun y => if y = x then p else H.place y }

theorem Heap.setBin_same (H : Heap) (t c : Nat) (l : List Nat) : (H.setBin t c l).bins t c = l :=
  if_pos ⟨rfl, rfl⟩

theorem Heap.setBin_other (H : Heap) {t c t' c' : Nat} (l : List Nat) (h : ¬(t' = t ∧ c' = c)) :
    (H.setBin t c l).bins t' c' = H.bins t' c' := if_neg h

/-- What holds of the new content of one bin and of every other bin. -/
theorem Heap.setBin_forall {H : Heap} {t c : Nat} {l : List Nat} {P : Nat → Nat → List Nat → Prop}
    (hself : P t c l) (hother : ∀ t' c', ¬(t' = t ∧ c' = c) → P t' c' (H.bins t' c')) (t' c' : Nat) :
    P t' c' ((H.setBin t c l).bins t' c') := by
  by_cases htc : t' = t ∧ c' = c
  · obtain ⟨rfl, rfl⟩ := htc
    rw [Heap.setBin_same]
    exact hself
  · rw [Heap.setBin_other _ _ htc]
    exact hother t' c' htc

/-- What holds of the new free list of one superblock and of every other one. -/
theorem SameOwners.frees_forall {s s' : State} {d c : Nat} {seg : Segment} {l : List Nat}
    {frees : Nat → List Nat} {P : Nat → Segment → Nat → List Nat → Prop} (hso : SameOwners s s')
    (ho : Owns s d seg) (hheap : (s.descs d).procHeap = some c) (hself : P d seg c l)
    (hother : ∀ {d' sg c'}, d' ≠ d → Owns s d' sg → (s.descs d').procHeap = some c' →
      P d' sg c' (frees d')) {d' c' : Nat} {sg : Segment} (ho' : Owns s' d' sg)
    (hheap' : (s'.descs d').procHeap = some c') :
    P d' sg c' (if d' = d then l else frees d') := by
  have hd := (hso.owns d' sg).mp ho'
  have hh := (hso.procHeap hd).symm.trans hheap'
  by_cases hdd : d' = d
  · subst hdd
    obtain rfl := hd.unique ho
    obtain rfl : c = c' := Option.some.inj (hheap.symm.trans hh)
    rw [if_pos rfl]
    exact hself
  · rw [if_neg hdd]
    exact hother hdd hd hh

theorem Heap.setPlace_same (H : Heap) (x : Nat) (p : Place) : (H.setPlace x p).place x = p :=
  if_pos rfl

theorem Heap.setPlace_other (H : Heap) {x y : Nat} (p : Place) (h : y ≠ x) :
    (H.setPlace x p).place y = H.place y := if_neg h

/-- The bins and the places agree on a block other than the one that moves, -/
theorem BlockInv.binMem_other {cfg : Cfg} {s : State} {H : Heap} {live : List Live}
    (h : BlockInv cfg s H live) {t c x y : Nat} {p : Place} {l : List Nat} (hy : y ≠ x)
    (hl : y ∈ l ↔ y ∈ H.bins t c) (t' c' : Nat) :
    y ∈ ((H.setBin t c l).setPlace x p).bins t' c' ↔
      ((H.setBin t c l).setPlace x p).place y = .bin t' ∧ IsBlock cfg s c' y := by
  rw [Heap.setPlace_other _ _ hy]
  show _ ↔ H.place y = .bin t' ∧ _
  rw [← h.binMem t' c' y]
  exact Heap.setBin_forall (P := fun t' c' b => y ∈ b ↔ y ∈ H.bins t' c') hl
    (fun _ _ _ => Iff.rfl) t' c'

/-- and so do the free lists on all of them, if it neither was free nor is now. -/
theorem BlockInv.freeMem_setPlace {cfg : Cfg} {s : State} {H : Heap} {live : List Live}
    (h : BlockInv cfg s H live) {x : Nat} {p : Place} (hx : H.place x ≠ .free) (hp : p ≠ .free)
    {d c : Nat} {seg : Segment} (ho : Owns s d seg) (hheap : (s.descs d).procHeap = some c)
    (y : Nat) :
    y ∈ H.frees d ↔ (H.setPlace x p).place y = .free ∧ BlockOf cfg s d c y := by
  have hfree := h.freeMem ho hheap y
  by_cases hy : y = x
  · subst hy
    rw [Heap.setPlace_same]
    exact ⟨fun hm => absurd (hfree.mp hm).1 hx, fun hp' => absurd hp'.1 hp⟩
  · rw [Heap.setPlace_other _ _ hy]
    exact hfree

/-- They agree once blocks of the class that were in no bin are put into an empty one. -/
theorem BlockInv.binMem_fill {cfg : Cfg} {s s' : State} {H : Heap} {live : List Live}
    {t c : Nat} {blocks : List Nat} (h : BlockInv cfg s H live) (hbin : H.bins t c = [])
    (hin : ∀ x ∈ blocks, (∀ c', IsBlock cfg s' c' x ↔ c' = c) ∧ ∀ t' c', x ∉ H.bins t' c')
    (hout : ∀ x ∉ blocks, ∀ c', IsBlock cfg s' c' x ↔ IsBlock cfg s c' x) (t' c' x : Nat) :
    x ∈ (H.setBin t c blocks).bins t' c' ↔
      (if x ∈ blocks then Place.bin t else H.place x) = .bin t' ∧ IsBlock cfg s' c' x := by
  by_cases hx : x ∈ blocks
  · obtain ⟨hblock, hnot⟩ := hin x hx
    rw [if_pos hx, hblock]
    refine Heap.setBin_forall (P := fun t' c' b => x ∈ b ↔ Place.bin t = .bin t' ∧ c' = c)
      ⟨fun _ => ⟨rfl, rfl⟩, fun _ => hx⟩ (fun t' c' htc => ?_) t' c'
    exact ⟨fun hm => absurd hm (hnot t' c'),
      fun hp => absurd ⟨(Place.bin.inj hp.1).symm, hp.2⟩ htc⟩
  · rw [if_neg hx, hout x hx, ← h.binMem t' c' x]
    refine Heap.setBin_forall (P := fun t' c' b => x ∈ b ↔ x ∈ H.bins t' c') ?_
      (fun _ _ _ => Iff.rfl) t' c'
    rw [hbin]
    exact ⟨fun hm => absurd hm hx, fun hm => absurd hm List.not_mem_nil⟩

/-! ## Live blocks -/

theorem Live.Apart.symm {e e' : Live} (h : e.Apart e') : e'.Apart e := Or.symm h

theorem BlockInv.live_cases {cfg : Cfg} {s : State} {H : Heap} {live : List Live}
    (h : BlockInv cfg s H live) {e e' : Live} (he : e ∈ live) (he' : e' ∈ live) :
    e = e' ∨ e.Apart e' := by
  have hall : live.Pairwise (fun a b => a = b ∨ a.Apart b) := h.liveApart.imp Or.inr
  have hflip : live.Pairwise (flip fun a b => a = b ∨ a.Apart b) :=
    h.liveApart.imp fun hab => Or.inr hab.symm
  have hrefl : ∀ a ∈ live, a = a ∨ a.Apart a := fun _ _ => Or.inl rfl
  exact List.Pairwise.forall_of_forall_of_flip hrefl hall hflip he he'

/-- Two live blocks at one address are one. -/
theorem BlockInv.live_inj {cfg : Cfg} {s : State} {H : Heap} {live : List Live}
    (h : BlockInv cfg s H live) {alloced : List Nat} (hr : RegionInv cfg s alloced) {e e' : Live}
    (he : e ∈ live) (he' : e' ∈ live) (hptr : e.ptr = e'.ptr) : e = e' := by
  rcases h.live_cases he he' with heq | hap
  · exact heq
  · have hpos := hr.live_pos (h.liveOk e he)
    have hpos' := hr.live_pos (h.liveOk e' he')
    unfold Live.Apart at hap
    omega

theorem BlockInv.live_nodup {cfg : Cfg} {s : State} {H : Heap} {live : List Live}
    (h : BlockInv cfg s H live) {alloced : List Nat} (hr : RegionInv cfg s alloced) :
    live.Nodup := by
  refine h.liveApart.imp_of_mem fun {e e'} he he' hap heq => ?_
  subst heq
  have hpos := hr.live_pos (h.liveOk e he)
  unfold Live.Apart at hap
  omega

/-- A live block of a superblock has the class's length. -/
theorem BlockInv.live_small {cfg : Cfg} {s : State} {H : Heap} {live : List Live}
    (h : BlockInv cfg s H live) {alloced : List Nat} (hr : RegionInv cfg s alloced) {e : Live}
    {c : Nat} (he : e ∈ live) (hb : IsBlock cfg s c e.ptr) :
    H.place e.ptr = .live ∧ e.len = (cfg.sizeClass c).blockSize := by
  obtain ⟨d, hb⟩ := hb
  cases h.liveOk e he with
  | small hb' hp hlen hsize => exact ⟨hp, (hr.block_unique hb' hb).2 ▸ hlen⟩
  | @large d' seg' howns hheap hlo hpos hend hsize hpage =>
    -- a block cannot start inside a large segment
    have hout := hr.block_outside hb howns (hb.ne_large hheap)
    omega

/-- A block that is not live does not overlap the live ones. -/
theorem BlockInv.block_apart_live {cfg : Cfg} {s : State} {H : Heap} {live : List Live}
    (h : BlockInv cfg s H live) {alloced : List Nat} (hr : RegionInv cfg s alloced) {c x : Nat}
    (hb : IsBlock cfg s c x) (hx : H.place x ≠ .live) {e : Live} (he : e ∈ live) :
    x + (cfg.sizeClass c).blockSize ≤ e.ptr ∨ e.ptr + e.len ≤ x := by
  obtain ⟨d, hb⟩ := hb
  cases h.liveOk e he with
  | @small d' c' hb' hp hlen hsize =>
    rcases hr.block_cases hb hb' with ⟨-, -, heq⟩ | hap
    · subst heq
      exact absurd hp hx
    · omega
  | @large d' seg' howns hheap hlo hpos hend hsize hpage =>
    have hout := hr.block_outside hb howns (hb.ne_large hheap)
    omega

/-! ## `pop_block` -/

theorem BlockInv.pop {cfg : Cfg} {s : State} {H : Heap} {live : List Live}
    (h : BlockInv cfg s H live) {alloced : List Nat} (hr : RegionInv cfg s alloced)
    {t c x size : Nat} {l : List Nat} {bin : ThreadCacheBin} (hl : H.bins t c = x :: l)
    (hholds : Holds cfg.noMetStack s.mem bin l) (hsize : size ≤ (cfg.sizeClass c).blockSize) :
    BlockInv cfg (s.setBin t c bin) ((H.setBin t c l).setPlace x .live)
      (⟨x, size, (cfg.sizeClass c).blockSize⟩ :: live) := by
  have hmem := (h.binMem t c x).mp (by rw [hl]; exact List.mem_cons_self ..)
  obtain ⟨hplace, hblock⟩ := hmem
  have hnd : x ∉ l ∧ l.Nodup := List.nodup_cons.mp (hl ▸ h.binNodup t c)
  have ho : SameOwners s (s.setBin t c bin) := .of_eq rfl
  have hnotlive : H.place x ≠ .live := by
    rw [hplace]
    exact fun he => by cases he
  refine ⟨?_, ?_, ?_, h.freeChain, h.freeNodup, ?_, ?_, ?_, ?_⟩
  · refine Heap.setBin_forall ?_ fun t' c' htc => ?_
    · rw [Apfmalloc.setBin_same]
      exact hholds
    · rw [Apfmalloc.setBin_other _ _ _ _ htc]
      exact h.holds t' c'
  · exact Heap.setBin_forall hnd.2 fun t' c' _ => h.binNodup t' c'
  · intro t' c' y
    rw [ho.isBlock]
    by_cases hy : y = x
    · -- the popped block is in no bin any more
      subst hy
      rw [Heap.setPlace_same]
      refine ⟨fun hm => ?_, fun hp => by cases hp.1⟩
      refine absurd hm (Heap.setBin_forall (P := fun _ _ b => y ∉ b) hnd.1 (fun t' c' htc hm => ?_)
        t' c')
      obtain ⟨hp, d', hb'⟩ := (h.binMem t' c' y).mp hm
      obtain ⟨d, hb⟩ := hblock
      rw [hplace] at hp
      exact htc ⟨(Place.bin.inj hp).symm, (hr.block_unique hb' hb).2⟩
    · refine h.binMem_other hy ?_ t' c'
      rw [hl, List.mem_cons]
      exact ⟨Or.inr, fun hm => hm.resolve_left hy⟩
  · exact h.freeMem_setPlace (by rw [hplace]; exact Place.noConfusion) Place.noConfusion
  · intro e he
    rcases List.mem_cons.mp he with rfl | he
    · obtain ⟨d, hb⟩ := hblock
      exact .small hb (Heap.setPlace_same ..) rfl hsize
    · refine (h.liveOk e he).frame ho (fun _ _ hp => ?_) (fun _ _ _ _ => rfl)
      have hne : e.ptr ≠ x := fun heq => hnotlive (heq ▸ hp)
      rw [Heap.setPlace_other _ _ hne]
      exact hp
  · intro c' y hb hp
    by_cases hy : y = x
    · exact ⟨_, List.mem_cons_self .., hy.symm⟩
    · rw [Heap.setPlace_other _ _ hy] at hp
      obtain ⟨e, he, hptr⟩ := h.liveAll c' y hb hp
      exact ⟨e, List.mem_cons_of_mem _ he, hptr⟩
  · exact List.pairwise_cons.mpr ⟨fun e he => h.block_apart_live hr hblock hnotlive he, h.liveApart⟩

/-- **A pop** of a bin that is not empty gives its top block to the client. -/
theorem HeapInv.pop {cfg : Cfg} {s : State} {H : Heap} {live : List Live}
    (h : HeapInv cfg s H live) {t c : Nat} (size : Nat)
    (hnum : (s.threadCache t c).blockNum ≠ 0) (hsize : size ≤ (cfg.sizeClass c).blockSize) :
    ∃ x l bin, H.bins t c = x :: l ∧ IsBlock cfg s c x ∧
      (s.threadCache t c).popBlock cfg.noMetStack s.mem = some (x, bin) ∧
      bin.blockSize = (s.threadCache t c).blockSize ∧
      HeapInv cfg (s.setBin t c bin) ((H.setBin t c l).setPlace x .live)
        (⟨x, size, (cfg.sizeClass c).blockSize⟩ :: live) := by
  have hholds := h.block.holds t c
  cases hl : H.bins t c with
  | nil =>
    rw [hl] at hholds
    exact absurd hholds.num hnum
  | cons x l =>
    rw [hl] at hholds
    have hmem := (h.block.binMem t c x).mp (by rw [hl]; exact List.mem_cons_self ..)
    obtain ⟨d, hb⟩ := hmem.2
    obtain ⟨seg, f⟩ := h.region.blockFacts hb
    obtain ⟨bin, hpop, hholds', hsz, -⟩ := hholds.popBlock (Nat.ne_of_gt f.addr.pos)
    exact ⟨x, l, bin, rfl, ⟨d, hb⟩, hpop, hsz,
      h.of_block ⟨rfl, rfl, rfl, rfl, rfl⟩ rfl rfl (h.block.pop h.region hl hholds' hsize)⟩

/-! ## `push_block` -/

theorem BlockInv.push {cfg : Cfg} {s : State} {H : Heap} {live : List Live}
    (h : BlockInv cfg s H live) {alloced : List Nat} (hr : RegionInv cfg s alloced)
    {t c : Nat} {e : Live} {bin : ThreadCacheBin} {m : Mem} (he : e ∈ live)
    (hblock : IsBlock cfg s c e.ptr)
    (hpush : (s.threadCache t c).pushBlock cfg.noMetStack s.mem e.ptr = some (bin, m)) :
    BlockInv cfg ({ s with mem := m }.setBin t c bin)
      ((H.setBin t c (e.ptr :: H.bins t c)).setPlace e.ptr (.bin t)) (live.erase e) := by
  obtain ⟨hplace, hlen⟩ := h.live_small hr he hblock
  have hnd := h.live_nodup hr
  have hnotin : ∀ t' c', e.ptr ∉ H.bins t' c' := by
    intro t' c' hm
    have := ((h.binMem t' c' e.ptr).mp hm).1
    rw [hplace] at this
    cases this
  have happ : ∀ c' y, IsBlock cfg s c' y → y ≠ e.ptr → WordsApart e.ptr y := by
    intro c' y hy hne
    obtain ⟨d, hb⟩ := hblock
    obtain ⟨d', hb'⟩ := hy
    exact hr.words_apart hb hb' (Ne.symm hne)
  obtain ⟨hholds, -, -, hm⟩ := (h.holds t c).pushBlock
    (fun y hy => by
      obtain ⟨-, d, hb⟩ := (h.binMem t c y).mp hy
      obtain ⟨seg, f⟩ := hr.blockFacts hb
      exact f.addr)
    (fun y hy => happ c y ((h.binMem t c y).mp hy).2 fun heq => hnotin t c (heq ▸ hy)) hpush
  -- only the word of the pushed block changes
  have hword : ∀ c' y, IsBlock cfg s c' y → y ≠ e.ptr → readWord m y = readWord s.mem y := by
    intro c' y hy hne
    rw [hm]
    exact readWord_writeWord_ne (happ c' y hy hne).symm
  have ho : SameOwners s ({ s with mem := m }.setBin t c bin) := .of_eq rfl
  refine ⟨?_, ?_, ?_, ?_, h.freeNodup, ?_, ?_, ?_, ?_⟩
  · refine Heap.setBin_forall ?_ fun t' c' htc => ?_
    · rw [Apfmalloc.setBin_same]
      exact hholds
    · rw [Apfmalloc.setBin_other _ _ _ _ htc]
      refine (h.holds t' c').frame fun y hy => (hword c' y ?_ fun heq => ?_).symm
      · exact ((h.binMem t' c' y).mp hy).2
      · exact hnotin t' c' (heq ▸ hy)
  · exact Heap.setBin_forall (List.nodup_cons.mpr ⟨hnotin t c, h.binNodup t c⟩) fun t' c' _ =>
      h.binNodup t' c'
  · intro t' c' y
    rw [ho.isBlock]
    by_cases hy : y = e.ptr
    · -- the pushed block is in this bin and in no other
      subst hy
      rw [Heap.setPlace_same]
      refine Heap.setBin_forall (P := fun t' c' b => e.ptr ∈ b ↔
        Place.bin t = .bin t' ∧ IsBlock cfg s c' e.ptr) ?_ (fun t' c' htc => ?_) t' c'
      · exact ⟨fun _ => ⟨rfl, hblock⟩, fun _ => List.mem_cons_self ..⟩
      · refine ⟨fun hm' => absurd hm' (hnotin t' c'), fun hp => ?_⟩
        obtain ⟨hp, d', hb'⟩ := hp
        obtain ⟨d, hb⟩ := hblock
        exact absurd ⟨(Place.bin.inj hp).symm, (hr.block_unique hb' hb).2⟩ htc
    · refine h.binMem_other hy ?_ t' c'
      rw [List.mem_cons]
      exact ⟨fun hm' => hm'.resolve_left hy, Or.inr⟩
  · intro d seg c' hd hheap
    refine (h.freeChain hd hheap).congr fun y hy => ?_
    obtain ⟨hp, hb⟩ := (h.freeMem hd hheap y).mp hy
    refine (hword c' y ⟨d, hb⟩ fun heq => ?_).symm
    rw [heq, hplace] at hp
    cases hp
  · exact h.freeMem_setPlace (by rw [hplace]; exact Place.noConfusion) Place.noConfusion
  · intro e' he'
    obtain ⟨hne, he'⟩ := hnd.mem_erase_iff.mp he'
    refine (h.liveOk e' he').frame ho (fun _ _ hp => ?_) (fun _ _ _ _ => rfl)
    have hptr : e'.ptr ≠ e.ptr := fun heq => hne (h.live_inj hr he' he heq)
    rw [Heap.setPlace_other _ _ hptr]
    exact hp
  · intro c' y hb hp
    by_cases hy : y = e.ptr
    · subst hy
      rw [Heap.setPlace_same] at hp
      cases hp
    · rw [Heap.setPlace_other _ _ hy] at hp
      obtain ⟨e', he', hptr⟩ := h.liveAll c' y hb hp
      exact ⟨e', hnd.mem_erase_iff.mpr ⟨fun heq => hy (by rw [← hptr, heq]), he'⟩, hptr⟩
  · exact h.liveApart.erase e

/-- **A push** takes a live block of the class back. -/
theorem HeapInv.push {cfg : Cfg} {s : State} {H : Heap} {live : List Live}
    (h : HeapInv cfg s H live) {t c : Nat} {e : Live} {bin : ThreadCacheBin} {m : Mem}
    (he : e ∈ live) (hblock : IsBlock cfg s c e.ptr)
    (hpush : (s.threadCache t c).pushBlock cfg.noMetStack s.mem e.ptr = some (bin, m)) :
    HeapInv cfg ({ s with mem := m }.setBin t c bin)
      ((H.setBin t c (e.ptr :: H.bins t c)).setPlace e.ptr (.bin t)) (live.erase e) :=
  h.of_block ⟨rfl, rfl, rfl, rfl, rfl⟩ rfl rfl (h.block.push h.region he hblock hpush)

/-! ## Writes of clients -/

/-- Writes that keep to the live blocks wherever they hit a segment of the heap leave
every list alone. -/
theorem HeapInv.writeOut {cfg : Cfg} {s : State} {H : Heap} {live : List Live}
    (h : HeapInv cfg s H live) {m : Mem}
    (hm : ∀ a, (∀ e ∈ live, ¬(e.ptr ≤ a ∧ a < e.ptr + e.len)) →
      (∃ d seg, Owns s d seg ∧ seg.ptr ≤ a ∧ a < seg.ptr + seg.length) → m a = s.mem a) :
    HeapInv cfg { s with mem := m } H live := by
  refine h.of_block ⟨rfl, rfl, rfl, rfl, rfl⟩ rfl rfl
    (h.block.frame (.of_eq rfl) rfl rfl rfl rfl (fun _ => rfl) (fun _ _ _ _ => rfl) ?_)
  intro c x hb hx
  obtain ⟨d, hb'⟩ := hb
  obtain ⟨seg, f⟩ := h.region.blockFacts hb'
  have hbs := f.spec.blockSize_ge
  have hlo := f.lo
  have hhi := f.hi
  rw [← f.super.length] at hhi
  refine readWord_congr fun i hi => hm (x + i) (fun e he hin => ?_)
    ⟨d, seg, f.owns, by omega, by omega⟩
  have hap := h.block.block_apart_live h.region ⟨d, hb'⟩ hx he
  omega

/-- **Clients write into their own blocks**, and no list passes through those. -/
theorem HeapInv.write {cfg : Cfg} {s : State} {H : Heap} {live : List Live}
    (h : HeapInv cfg s H live) {m : Mem}
    (hm : ∀ a, (∀ e ∈ live, ¬(e.ptr ≤ a ∧ a < e.ptr + e.len)) → m a = s.mem a) :
    HeapInv cfg { s with mem := m } H live :=
  h.writeOut fun a hout _ => hm a hout

end Apfmalloc
