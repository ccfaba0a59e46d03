import Apfmalloc.HeapGrow

/-!
# Released segments keep the heap invariant

A descriptor gives its segment back when a large block is freed, and when the
last block of a superblock is flushed. Both leave the same traces
(`RemovesRegion`), and both need the same thing: nothing in a client's hands or
in a bin lies in the segment any more.
-/

namespace Apfmalloc

open Base

/-- From `s` to `s'` descriptor `d` lost its segment, which was unmapped; other
descriptors, memory and bins are as before, and so is every page entry outside
the segment. -/
structure RemovesRegion (s s' : State) (d : Nat) (seg : Segment) : Prop where
  owns : Owns s d seg
  gone : ∀ sg, ¬Owns s' d sg
  descs : ∀ d', d' ≠ d → s'.descs d' = s.descs d'
  mapped : s'.mapped = s.mapped.erase seg
  carved : s'.carved = s.carved
  pageMap : ∀ k, ¬PageOf seg.ptr (regionLen seg.length) k → s'.pageMap k = s.pageMap k
  mem : s'.mem = s.mem
  threadCache : s'.threadCache = s.threadCache

theorem RemovesRegion.owns_iff {s s' : State} {d : Nat} {seg : Segment}
    (h : RemovesRegion s s' d seg) {d' : Nat} {sg : Segment} :
    Owns s' d' sg ↔ d' ≠ d ∧ Owns s d' sg := by
  by_cases hd : d' = d
  · subst hd
    exact ⟨fun ho => absurd ho (h.gone sg), fun ho => absurd rfl ho.1⟩
  · unfold Owns
    rw [h.descs d' hd]
    exact ⟨fun ho => ⟨hd, ho⟩, fun ho => ho.2⟩

theorem RemovesRegion.blockOf_iff {cfg : Cfg} {s s' : State} {d : Nat} {seg : Segment}
    (h : RemovesRegion s s' d seg) {d' c x : Nat} :
    BlockOf cfg s' d' c x ↔ d' ≠ d ∧ BlockOf cfg s d' c x := by
  by_cases hd : d' = d
  · subst hd
    refine ⟨fun hb => ?_, fun hb => absurd rfl hb.1⟩
    obtain ⟨sg, ho, -⟩ := hb
    exact absurd ho (h.gone sg)
  · unfold BlockOf Owns
    rw [h.descs d' hd]
    exact ⟨fun hb => ⟨hd, hb⟩, fun hb => hb.2⟩

/-- Other segments stay mapped and keep their page entries. -/
theorem RemovesRegion.other {cfg : Cfg} {s s' : State} {d : Nat} {seg : Segment}
    (h : RemovesRegion s s' d seg) {alloced : List Nat} (hr : RegionInv cfg s alloced) {d' : Nat}
    {sg : Segment} (hne : d' ≠ d) (ho : Owns s d' sg) :
    sg ∈ s'.mapped ∧ ∀ k, PageOf sg.ptr (regionLen sg.length) k → s'.pageMap k = s.pageMap k := by
  have hap := hr.apart ho h.owns hne
  refine ⟨?_, fun k hk => h.pageMap k fun hk' => ?_⟩
  · rw [h.mapped]
    refine (List.mem_erase_of_ne fun heq => ?_).mpr (hr.mapped ho)
    subst heq
    exact (hr.valid ho).not_apart_self hap
  · exact pageOf_disjoint (hr.valid ho).aligned (hr.valid h.owns).aligned (regionLen_mod _)
      (regionLen_mod _) (hr.valid ho).bound (hr.valid h.owns).bound hap hk hk'

theorem RemovesRegion.regionInv {cfg : Cfg} {s s' : State} {d : Nat} {seg : Segment}
    (h : RemovesRegion s s' d seg) {alloced alloced' : List Nat} (hr : RegionInv cfg s alloced)
    (hal : ∀ d' ∈ alloced, d' ≠ d → d' ∈ alloced') : RegionInv cfg s' alloced' := by
  refine ⟨?_, ?_, ?_, ?_, ?_, ?_, ?_⟩
  · intro d' sg ho
    obtain ⟨hne, ho⟩ := h.owns_iff.mp ho
    exact hal d' (hr.alloced ho) hne
  · intro d' sg ho
    exact hr.valid (h.owns_iff.mp ho).2
  · intro d' sg ho
    obtain ⟨hne, ho⟩ := h.owns_iff.mp ho
    exact (h.other hr hne ho).1
  · intro d₁ sg₁ d₂ sg₂ h₁ h₂ hne
    exact hr.apart (h.owns_iff.mp h₁).2 (h.owns_iff.mp h₂).2 hne
  · intro d' sg ho
    rw [h.carved]
    exact hr.carved (h.owns_iff.mp ho).2
  · intro d' sg c ho hheap
    obtain ⟨hne, ho⟩ := h.owns_iff.mp ho
    rw [h.descs d' hne] at hheap
    have hs := hr.small ho hheap
    refine ⟨hs.one_le, hs.lt, hs.length, ?_, ?_, fun k hk => ?_⟩
    · rw [h.descs d' hne]
      exact hs.blockSize
    · rw [h.descs d' hne]
      exact hs.maxCount
    · rw [(h.other hr hne ho).2 k (by rw [hs.regionLen]; exact hk)]
      exact hs.pages k hk
  · intro d' sg ho hheap
    obtain ⟨hne, ho⟩ := h.owns_iff.mp ho
    rw [h.descs d' hne] at hheap ⊢
    exact hr.large ho hheap

/-- The descriptor blocks stay mapped: no descriptor lies in a segment. -/
theorem RemovesRegion.inMapped {cfg : Cfg} {s s' : State} {d : Nat} {seg : Segment}
    (h : RemovesRegion s s' d seg) {alloced : List Nat} (hr : RegionInv cfg s alloced) {x : Nat}
    (hx : x ∈ s.carved) (hm : InMapped s x) : InMapped s' x := by
  obtain ⟨sg, hsg, hlo, hhi⟩ := hm
  refine ⟨sg, ?_, hlo, hhi⟩
  rw [h.mapped]
  refine (List.mem_erase_of_ne fun heq => ?_).mpr hsg
  subst heq
  have := hr.carved h.owns x hx
  omega

theorem RemovesRegion.blockInv {cfg : Cfg} {s s' : State} {H : Heap} {live live' : List Live}
    {d : Nat} {seg : Segment} (h : RemovesRegion s s' d seg) {alloced : List Nat}
    (hr : RegionInv cfg s alloced) (hb : BlockInv cfg s H live)
    (hfree : ∀ c x, BlockOf cfg s d c x → H.place x = .free)
    (hsub : live'.Sublist live)
    (hout : ∀ e ∈ live', ¬(seg.ptr ≤ e.ptr ∧ e.ptr < seg.ptr + seg.length))
    (hkeep : ∀ e ∈ live, e ∉ live' → seg.ptr ≤ e.ptr ∧ e.ptr < seg.ptr + seg.length) :
    BlockInv cfg s' H live' := by
  -- The blocks that go are free ones; for all others nothing changes.
  have hblock : ∀ c x, H.place x ≠ .free → (IsBlock cfg s' c x ↔ IsBlock cfg s c x) := by
    intro c x hx
    constructor
    · intro hbx
      obtain ⟨d', hbx⟩ := hbx
      exact ⟨d', (h.blockOf_iff.mp hbx).2⟩
    · intro hbx
      obtain ⟨d', hbx⟩ := hbx
      refine ⟨d', h.blockOf_iff.mpr ⟨fun hd => hx ?_, hbx⟩⟩
      -- a live block is not free
      subst hd
      exact hfree c x hbx
  refine ⟨?_, hb.binNodup, ?_, ?_, ?_, ?_, ?_, ?_, hb.liveApart.sublist hsub⟩
  · rw [h.mem, h.threadCache]
    exact hb.holds
  · intro t c x
    rw [hb.binMem t c x]
    constructor
    · intro hp
      exact ⟨hp.1, (hblock c x (by rw [hp.1]; exact fun he => by cases he)).mpr hp.2⟩
    · intro hp
      exact ⟨hp.1, (hblock c x (by rw [hp.1]; exact fun he => by cases he)).mp hp.2⟩
  · intro d' sg c ho hheap
    obtain ⟨hne, ho⟩ := h.owns_iff.mp ho
    rw [h.descs d' hne] at hheap ⊢
    rw [h.mem]
    exact hb.freeChain ho hheap
  · intro d' sg c ho hheap
    obtain ⟨hne, ho⟩ := h.owns_iff.mp ho
    rw [h.descs d' hne] at hheap
    exact hb.freeNodup ho hheap
  · intro d' sg c ho hheap x
    obtain ⟨hne, ho⟩ := h.owns_iff.mp ho
    rw [h.descs d' hne] at hheap
    rw [hb.freeMem ho hheap x, h.blockOf_iff]
    exact ⟨fun hp => ⟨hp.1, hne, hp.2⟩, fun hp => ⟨hp.1, hp.2.2⟩⟩
  · intro e he
    cases hb.liveOk e (hsub.subset he) with
    | @small d' c hbe hp hlen hsize =>
      refine .small (h.blockOf_iff.mpr ⟨fun hd => ?_, hbe⟩) hp hlen hsize
      subst hd
      rw [hfree c e.ptr hbe] at hp
      cases hp
    | @large d' sg ho hheap hlo hpos hend hsize hpage =>
      have hne : d' ≠ d := fun hd => by
        subst hd
        have := ho.unique h.owns
        subst this
        exact hout e he ⟨hlo, by omega⟩
      have hreg := (regionLen_bounds sg.length).1
      refine .large (h.owns_iff.mpr ⟨hne, ho⟩) (by rw [h.descs d' hne]; exact hheap) hlo hpos hend
        hsize ?_
      rw [(h.other hr hne ho).2 _ ⟨e.ptr, hlo, by omega, rfl⟩]
      exact hpage
  · intro c x hbx hp
    obtain ⟨e, he, hptr⟩ := hb.liveAll c x
      ((hblock c x (by rw [hp]; exact fun he => by cases he)).mp hbx) hp
    by_cases hmem : e ∈ live'
    · exact ⟨e, hmem, hptr⟩
    · -- a block of another superblock is not in the segment
      have hin := hkeep e he hmem
      obtain ⟨d', hbx⟩ := hbx
      obtain ⟨hne, hbx⟩ := h.blockOf_iff.mp hbx
      have hout := hr.block_outside hbx h.owns hne
      omega

/-! ## Freeing a large block -/

theorem setPageInfo_twice (pm : Nat → PageInfo) (ptr : Nat) (info : PageInfo) :
    setPageInfo (setPageInfo pm ptr info) ptr info = setPageInfo pm ptr info := by
  funext k
  unfold setPageInfo
  by_cases hk : k = addrToKey ptr
  · rw [if_pos hk, if_pos hk]
  · rw [if_neg hk, if_neg hk]

/-- The state before `retire` when a large block is freed. -/
def State.dropLarge (s : State) (d : Nat) (seg : Segment) : State :=
  segDeallocate seg ({ s with pageMap := setPageInfo s.pageMap seg.ptr PageInfo.default }.setDesc d
    { s.descs d with superBlock := none })

theorem freeLarge_eq {cfg : Cfg} {s : State} {ptr d : Nat} {seg : Segment} (ho : Owns s d seg)
    (hpos : seg.ptr ≠ 0) :
    freeLarge cfg ptr d s = some (Descriptor.retire d (s.dropLarge d seg)) := by
  have hun : ∀ s' : State, unregisterDesc cfg none seg s' =
      some { s' with pageMap := setPageInfo s'.pageMap seg.ptr PageInfo.default } := by
    intro s'
    rw [unregisterDesc, updatePageMap, if_neg hpos]
    rfl
  unfold freeLarge
  rw [show (s.descs d).superBlock = some seg from ho]
  simp only [Option.bind_eq_bind, Option.bind_some, hun]
  by_cases hp : ptr ≠ seg.ptr
  · rw [if_pos hp]
    simp only [setPageInfo_twice]
    rfl
  · rw [if_neg hp]
    rfl

theorem removes_dropLarge {s : State} {d : Nat} {seg : Segment} (ho : Owns s d seg)
    (hv : seg.Valid) :
    RemovesRegion s (Descriptor.retire d (s.dropLarge d seg)) d seg := by
  refine ⟨ho, fun sg h => ?_, fun d' hne => ?_, rfl, rfl, fun k hk => ?_, rfl, rfl⟩
  · unfold Owns at h
    rw [Descriptor.retire] at h
    simp only [setDesc_same] at h
    rw [State.dropLarge, segDeallocate] at h
    simp only [setDesc_same] at h
    cases h
  · rw [Descriptor.retire]
    simp only [setDesc_other _ _ _ hne]
    rw [State.dropLarge, segDeallocate]
    simp only [setDesc_other _ _ _ hne]
  · refine if_neg fun he => hk ⟨seg.ptr, Nat.le_refl _, ?_, he⟩
    have := (regionLen_bounds seg.length).1
    have := hv.length_pos
    omega

/-- A live block that starts in a large segment is what is left of it. -/
theorem HeapInv.live_in_large {cfg : Cfg} {s : State} {H : Heap} {live : List Live} {e : Live}
    {d : Nat} {seg : Segment} (h : HeapInv cfg s H live) (ho : Owns s d seg)
    (hheap : (s.descs d).procHeap = none) (he : e ∈ live)
    (hin : seg.ptr ≤ e.ptr ∧ e.ptr < seg.ptr + seg.length) :
    e.ptr + e.len = seg.ptr + seg.length ∧ 0 < e.len ∧ s.pageMap (addrToKey e.ptr) = ⟨d⟩ := by
  cases h.block.liveOk e he with
  | @small d' c hb hp hlen hsize =>
    have hout := h.region.block_outside hb ho (hb.ne_large hheap)
    omega
  | @large d' sg ho' hheap' hlo hpos hend hsize hpage =>
    by_cases hdd : d' = d
    · subst hdd
      have := ho'.unique ho
      subst this
      exact ⟨hend, hpos, hpage⟩
    · have hap := h.region.apart ho' ho hdd
      unfold Segment.Apart at hap
      have := (regionLen_bounds seg.length).1
      have := (regionLen_bounds sg.length).1
      omega

/-- One live block starts in a large segment. -/
theorem HeapInv.large_unique {cfg : Cfg} {s : State} {H : Heap} {live : List Live} {e e' : Live}
    {d : Nat} {seg : Segment} (h : HeapInv cfg s H live) (ho : Owns s d seg)
    (hheap : (s.descs d).procHeap = none) (he : e ∈ live) (he' : e' ∈ live)
    (hin : seg.ptr ≤ e.ptr ∧ e.ptr < seg.ptr + seg.length)
    (hin' : seg.ptr ≤ e'.ptr ∧ e'.ptr < seg.ptr + seg.length) : e = e' := by
  obtain ⟨hend, hpos, -⟩ := h.live_in_large ho hheap he hin
  obtain ⟨hend', hpos', -⟩ := h.live_in_large ho hheap he' hin'
  rcases h.block.live_cases he he' with heq | hap
  · exact heq
  · unfold Live.Apart at hap
    omega

/-- **Freeing a large block** releases its segment and its descriptor. -/
theorem HeapInv.freeLarge {cfg : Cfg} {s : State} {H : Heap} {live : List Live} {e : Live}
    {d : Nat} {seg : Segment} (h : HeapInv cfg s H live) (he : e ∈ live) (ho : Owns s d seg)
    (hheap : (s.descs d).procHeap = none)
    (hin : seg.ptr ≤ e.ptr ∧ e.ptr < seg.ptr + seg.length) :
    HeapInv cfg (Descriptor.retire d (s.dropLarge d seg))
      { H with alloced := H.alloced.erase d, freeDescs := d :: H.freeDescs } (live.erase e) := by
  have hrem := removes_dropLarge ho (h.region.valid ho)
  have hd := h.region.alloced ho
  have hnd := h.block.live_nodup h.region
  refine ⟨?_, ?_, ?_⟩
  · refine DescInv.retire ?_
    have hdesc : DescInv (s.dropLarge d seg) H.alloced H.freeDescs := by
      refine h.desc.frame rfl (fun d' _ => ?_) rfl fun x hx hm => ?_
      · rw [State.dropLarge, segDeallocate]
        by_cases hdd : d' = d
        · subst hdd
          simp only [setDesc_same]
        · simp only [setDesc_other _ _ _ hdd]
      · exact hrem.inMapped h.region hx hm
    exact hdesc.perm_alloced (List.perm_cons_erase hd)
  · exact hrem.regionInv h.region fun d' hd' hne => (List.mem_erase_of_ne hne).mpr hd'
  · refine (hrem.blockInv h.region h.block (fun c x hb => ?_) List.erase_sublist
      (fun e' he' hin' => ?_) fun e' he' hn => ?_).congr rfl rfl rfl
    · obtain ⟨-, -, hheap', -⟩ := hb
      rw [hheap] at hheap'
      cases hheap'
    · obtain ⟨hne, he'⟩ := hnd.mem_erase_iff.mp he'
      exact hne (h.large_unique ho hheap he' he hin' hin)
    · have : e' = e := Decidable.byContradiction fun hne => hn (hnd.mem_erase_iff.mpr ⟨hne, he'⟩)
      subst this
      exact hin

end Apfmalloc
