import Apfmalloc.FlushCache

/-!
# Refills from the partial list

`malloc_from_partial` takes a superblock off the partial list of its heap and makes
its whole free list the content of the bin; descriptors of superblocks that were
released meanwhile are retired on the way. It believes `anchor.count`, so it takes
the whole list only if the count is right.

`PartialInv` is what the anchors and the partial lists promise: `count` is the
length of the free list, a full superblock has none and is on no list, one that is
partly free is on the list of its class, and an empty one has been released.
-/

namespace Apfmalloc

open Base

/-! ## The partial list, from its head -/

/-- The descriptors from `head` on, by `next_partial`; a node is never null. -/
def PartialLinked (s : State) : Option DescriptorNode → List Nat → Prop
  | head, [] => head = none
  | head, d :: l => ∃ n, head = some n ∧ n.getDesc = some d ∧
      PartialLinked s (s.descs d).nextPartial l

instance decidablePartialLinked (s : State) :
    ∀ (head : Option DescriptorNode) (l : List Nat), Decidable (PartialLinked s head l)
  | head, [] => inferInstanceAs (Decidable (head = none))
  | none, _ :: _ => isFalse fun ⟨_, h, _⟩ => nomatch h
  | some n, d :: l =>
    have := decidablePartialLinked s (s.descs d).nextPartial l
    decidable_of_iff (n.getDesc = some d ∧ PartialLinked s (s.descs d).nextPartial l)
      ⟨fun h => ⟨n, rfl, h⟩, fun ⟨_, hn, h⟩ => Option.some.inj hn ▸ h⟩

theorem PartialLinked.congr {s s' : State} :
    ∀ {l : List Nat} {head : Option DescriptorNode},
      (∀ d ∈ l, (s'.descs d).nextPartial = (s.descs d).nextPartial) →
      PartialLinked s head l → PartialLinked s' head l := by
  intro l
  induction l with
  | nil => intro head _ h; exact h
  | cons d l ih =>
    intro head hd h
    obtain ⟨n, hn, hg, h⟩ := h
    refine ⟨n, hn, hg, ?_⟩
    rw [hd d (List.mem_cons_self ..)]
    exact ih (fun d' hd' => hd d' (List.mem_cons_of_mem _ hd')) h

theorem PartialLinked.unique {s : State} :
    ∀ {l l' : List Nat} {head : Option DescriptorNode}, PartialLinked s head l →
      PartialLinked s head l' → l = l' := by
  intro l
  induction l with
  | nil =>
    intro l' head h h'
    cases l' with
    | nil => rfl
    | cons d' l' =>
      obtain ⟨n, hn, -⟩ := h'
      rw [show head = none from h] at hn
      cases hn
  | cons d l ih =>
    intro l' head h h'
    obtain ⟨n, hn, hg, h⟩ := h
    cases l' with
    | nil =>
      rw [show head = none from h'] at hn
      cases hn
    | cons d' l' =>
      obtain ⟨n', hn', hg', h'⟩ := h'
      obtain rfl : n = n' := Option.some.inj (hn.symm.trans hn')
      obtain rfl : d = d' := Option.some.inj (hg.symm.trans hg')
      rw [ih h h']

/-- A pop gives the first descriptor and a head for the others. -/
theorem PartialLinked.pop {s : State} {c d : Nat} {l : List Nat}
    (h : PartialLinked s (s.partialList c) (d :: l)) (haddr : ∀ x ∈ l, DescAddr x) :
    ∃ head, listPopPartial c s = some (some d, s.setPartialList c head) ∧
      PartialLinked s head l := by
  obtain ⟨n, hn, hg, h⟩ := h
  rw [listPopPartial, hn]
  simp only [hg, Option.bind_eq_bind, Option.bind_some]
  cases l with
  | nil =>
    rw [show (s.descs d).nextPartial = none from h]
    exact ⟨none, rfl, rfl⟩
  | cons d' l =>
    obtain ⟨n', hn', hg', h⟩ := h
    rw [hn', popNewHead]
    simp only [hg', Option.map_some, Option.bind_some]
    exact ⟨_, rfl, _, rfl, getDesc_set (haddr d' (List.mem_cons_self ..)) _, h⟩

/-! ## Steps of a refill that keep the heap invariant -/

section Steps

variable {cfg : Cfg} {s : State} {H : Heap} {live : List Live}

theorem HeapInv.setPartialList (h : HeapInv cfg s H live) (c : Nat) (l : Option DescriptorNode) :
    HeapInv cfg (s.setPartialList c l) H live :=
  h.of_same ⟨rfl, rfl, rfl, rfl, rfl⟩ rfl rfl

theorem retire_other (s : State) {d d' : Nat} (hne : d' ≠ d) :
    (Descriptor.retire d s).descs d' = s.descs d' := by
  rw [Descriptor.retire]
  simp only [setDesc_other _ _ _ hne]

theorem retire_superBlock (s : State) (d : Nat) :
    ((Descriptor.retire d s).descs d).superBlock = (s.descs d).superBlock := by
  rw [Descriptor.retire]
  simp only [setDesc_same]

theorem owns_retire {d d' : Nat} {seg : Segment} :
    Owns (Descriptor.retire d s) d' seg ↔ Owns s d' seg := by
  by_cases hd : d' = d
  · rw [hd, Owns, Owns, retire_superBlock]
  · rw [Owns, Owns, retire_other s hd]

/-- **Retiring a descriptor** that has no segment. -/
theorem HeapInv.retire (h : HeapInv cfg s H live) {d : Nat} (hd : d ∈ H.alloced)
    (hnone : (s.descs d).superBlock = none) :
    HeapInv cfg (Descriptor.retire d s)
      { H with alloced := H.alloced.erase d, freeDescs := d :: H.freeDescs } live := by
  have hno : ∀ {sg}, ¬Owns s d sg := fun ho => by
    rw [Owns, hnone] at ho
    cases ho
  have hself : ((Descriptor.retire d s).descs d).superBlock = none := by
    rw [Descriptor.retire]
    simp only [setDesc_same]
    exact hnone
  have hdesc : ∀ {d' sg}, Owns s d' sg → (Descriptor.retire d s).descs d' = s.descs d' :=
    fun {d' sg} ho => retire_other s fun he => hno (he ▸ ho)
  have ho : SameOwners s (Descriptor.retire d s) := by
    refine ⟨fun d' sg => ⟨fun ho => ?_, fun ho => ?_⟩, fun ho => by rw [hdesc ho],
      fun ho => by rw [hdesc ho], fun ho => by rw [hdesc ho]⟩
    · by_cases he : d' = d
      · subst he
        rw [Owns, hself] at ho
        cases ho
      · rw [Owns, retire_other s he] at ho
        exact ho
    · rw [Owns, hdesc ho]
      exact ho
  refine ⟨DescInv.retire (h.desc.perm_alloced (List.perm_cons_erase hd)), ?_, ?_⟩
  · have hregion : RegionInv cfg (Descriptor.retire d s) H.alloced :=
      h.region.frame ho rfl (fun _ hx => hx) (fun ho => h.region.mapped ho) fun _ hx => Or.inl hx
    refine ⟨fun {d' sg} ho' => ?_, hregion.valid, hregion.mapped, hregion.apart, hregion.carved,
      hregion.small, hregion.large⟩
    have ho₀ := (ho.owns d' sg).mp ho'
    exact (List.mem_erase_of_ne fun he => hno (he ▸ ho₀)).mpr (h.region.alloced ho₀)
  · exact h.block.frame ho rfl rfl rfl rfl (fun ho => by rw [hdesc ho]) (fun _ _ _ _ => rfl)
      fun _ _ _ _ => rfl

/-- The free list of `d` becomes the content of a bin. -/
def Heap.take (H : Heap) (t c d : Nat) : Heap :=
  { H.setBin t c (H.frees d) with
    place := fun x => if x ∈ H.frees d then .bin t else H.place x
    frees := fun d' => if d' = d then [] else H.frees d' }

def State.takeTo (s : State) (t c d : Nat) (bin : ThreadCacheBin) (anchor : Anchor) : State :=
  (s.setDesc d { s.descs d with anchor := anchor }).setBin t c bin

theorem sameOwners_takeTo (s : State) (t c d : Nat) (bin : ThreadCacheBin) (anchor : Anchor) :
    SameOwners s (s.takeTo t c d bin anchor) := by
  have hdesc : ∀ d', (s.takeTo t c d bin anchor).descs d' =
      { s.descs d' with anchor := ((s.takeTo t c d bin anchor).descs d').anchor } := by
    intro d'
    by_cases hd : d' = d
    · subst hd
      simp only [State.takeTo, setBin_descs, setDesc_same]
    · simp only [State.takeTo, setBin_descs, setDesc_other _ _ _ hd]
  refine ⟨fun d' sg => ?_, fun _ => ?_, fun _ => ?_, fun _ => ?_⟩
  · rw [Owns, hdesc, Owns]
  · rw [hdesc]
  · rw [hdesc]
  · rw [hdesc]

/-- **Taking the free list** of a superblock into an empty bin. -/
theorem HeapInv.take (h : HeapInv cfg s H live) {t c d : Nat} {seg : Segment}
    {bin : ThreadCacheBin} {anchor : Anchor} (hnil : H.bins t c = []) (ho : Owns s d seg)
    (hheap : (s.descs d).procHeap = some c) (hav : anchor.avail = (cfg.sizeClass c).blockNum)
    (hholds : Holds cfg.noMetStack s.mem bin (H.frees d)) :
    HeapInv cfg (s.takeTo t c d bin anchor) (H.take t c d) live := by
  have hso := sameOwners_takeTo s t c d bin anchor
  have hfree := h.block.freeMem ho hheap
  have hplaceOut : ∀ x, x ∉ H.frees d → (H.take t c d).place x = H.place x := fun x hx => if_neg hx
  have hplaceIn : ∀ x ∈ H.frees d, (H.take t c d).place x = .bin t := fun x hx => if_pos hx
  refine ⟨h.desc.frame rfl (fun d' _ => ?_) rfl (fun _ _ hm => hm),
    h.region.frame hso rfl (fun _ hd => hd) (fun hd => h.region.mapped hd) fun _ hx => Or.inl hx,
    ⟨?_, ?_, ?_, ?_, ?_, ?_, ?_, ?_, h.block.liveApart⟩⟩
  · by_cases hd : d' = d
    · subst hd
      rw [State.takeTo, setBin_descs, setDesc_same]
    · rw [State.takeTo, setBin_descs, setDesc_other _ _ _ hd]
  · refine Heap.setBin_forall ?_ fun t' c' htc => ?_
    · rw [State.takeTo, Apfmalloc.setBin_same]
      exact hholds
    · rw [State.takeTo, Apfmalloc.setBin_other _ _ _ _ htc]
      exact h.block.holds t' c'
  · exact Heap.setBin_forall (h.block.freeNodup ho hheap) fun t' c' _ => h.block.binNodup t' c'
  · refine h.block.binMem_fill hnil (fun x hx => ?_) fun x _ c' => hso.isBlock c' x
    obtain ⟨hplace, hb⟩ := (hfree x).mp hx
    refine ⟨fun c' => ?_, fun t' c' hm => ?_⟩
    · rw [hso.isBlock]
      refine ⟨fun hb' => ?_, fun hc => hc ▸ ⟨d, hb⟩⟩
      obtain ⟨d', hb'⟩ := hb'
      exact (h.region.block_unique hb' hb).2
    · have hp := ((h.block.binMem t' c' x).mp hm).1
      rw [hplace] at hp
      cases hp
  · refine hso.frees_forall (P := fun d' sg c' l => ChainTo (readWord s.mem)
      (sg.ptr + ((s.takeTo t c d bin anchor).descs d').anchor.avail * (cfg.sizeClass c').blockSize) l
      (sg.ptr + (cfg.sizeClass c').blockNum * (cfg.sizeClass c').blockSize)) ho hheap ?_
      fun hdd hd hheap' => ?_
    · -- no free block is left: the head is one past the last block
      rw [State.takeTo, setBin_descs, setDesc_same, hav]
      rfl
    · rw [State.takeTo, setBin_descs, setDesc_other _ _ _ hdd]
      exact h.block.freeChain hd hheap'
  · exact hso.frees_forall (P := fun _ _ _ l => l.Nodup) ho hheap List.nodup_nil
      fun _ hd hheap' => h.block.freeNodup hd hheap'
  · refine hso.frees_forall (P := fun d' _ c' l => ∀ x, x ∈ l ↔
      (H.take t c d).place x = .free ∧ BlockOf cfg (s.takeTo t c d bin anchor) d' c' x) ho hheap
      (fun x => ?_) fun hdd hd hheap' x => ?_
    · rw [hso.blockOf]
      refine ⟨fun hm => (List.not_mem_nil hm).elim, fun hp => ?_⟩
      by_cases hx : x ∈ H.frees d
      · rw [hplaceIn x hx] at hp
        cases hp.1
      · rw [hplaceOut x hx] at hp
        exact absurd ((hfree x).mpr hp) hx
    · have hfree' := h.block.freeMem hd hheap' x
      rw [hso.blockOf]
      by_cases hx : x ∈ H.frees d
      · rw [hplaceIn x hx]
        refine ⟨fun hm => ?_, fun hp => by cases hp.1⟩
        exact absurd (h.region.block_unique (hfree'.mp hm).2 ((hfree x).mp hx).2).1 hdd
      · rw [hplaceOut x hx]
        exact hfree'
  · intro e he
    refine (h.block.liveOk e he).frame hso (fun c' hb hp => ?_) (fun _ _ _ _ => rfl)
    rw [hplaceOut]
    · exact hp
    · intro hx
      rw [((hfree e.ptr).mp hx).1] at hp
      cases hp
  · intro c' x hb hp
    by_cases hx : x ∈ H.frees d
    · rw [hplaceIn x hx] at hp
      cases hp
    · rw [hplaceOut x hx] at hp
      exact h.block.liveAll c' x ((hso.isBlock c' x).mp hb) hp

end Steps

/-! ## Anchors that tell the truth -/

/-- The anchor of a superblock of class `c` says how many blocks are free, and the
partial list has the superblock if there are any. -/
structure AnchorExact (cfg : Cfg) (s : State) (H : Heap) (P : Nat → List Nat) (d c : Nat) : Prop where
  count : (s.descs d).anchor.count = (H.frees d).length
  lt : (H.frees d).length < (cfg.sizeClass c).blockNum
  state : ((s.descs d).anchor.state = .full ∧ H.frees d = []) ∨
    ((s.descs d).anchor.state = .partly ∧ H.frees d ≠ [] ∧ d ∈ P c)

/-- A descriptor on the partial list of class `c`: partly free, or released. -/
structure Listed (s : State) (H : Heap) (c d : Nat) : Prop where
  alloced : d ∈ H.alloced
  heap : (s.descs d).procHeap = some c
  state : ((s.descs d).anchor.state = .partly ∧ ∃ sg, Owns s d sg) ∨
    ((s.descs d).anchor.state = .empty ∧ (s.descs d).superBlock = none)

structure PartialInv (cfg : Cfg) (s : State) (H : Heap) (P : Nat → List Nat) : Prop where
  linked : ∀ c, PartialLinked s (s.partialList c) (P c)
  nodup : ∀ c, (P c).Nodup
  listed : ∀ c, ∀ d ∈ P c, Listed s H c d
  owner : ∀ {d sg c}, Owns s d sg → (s.descs d).procHeap = some c → AnchorExact cfg s H P d c

section Refill

variable {cfg : Cfg} {s s' : State} {H H' : Heap} {P : Nat → List Nat} {live : List Live}

/-- Pops, pushes and writes touch nothing of it. -/
theorem PartialInv.congr (h : PartialInv cfg s H P) (hd : s'.descs = s.descs)
    (hp : s'.partialList = s.partialList) (hal : H'.alloced = H.alloced)
    (hf : H'.frees = H.frees) : PartialInv cfg s' H' P := by
  refine ⟨fun c => ?_, h.nodup, fun c d hdc => ?_, fun {d sg c} ho hheap => ?_⟩
  · rw [hp]
    exact (h.linked c).congr fun d _ => by rw [hd]
  · have hl := h.listed c d hdc
    exact ⟨hal ▸ hl.alloced, hd ▸ hl.heap, by unfold Owns; rw [hd]; exact hl.state⟩
  · rw [Owns, hd] at ho
    rw [hd] at hheap
    have he := h.owner ho hheap
    exact ⟨by rw [hd, hf]; exact he.count, by rw [hf]; exact he.lt,
      by rw [hd, hf]; exact he.state⟩

theorem PartialInv.anchorsOk (h : PartialInv cfg s H P) : AnchorsOk s H := by
  intro d sg c ho hheap
  have he := h.owner ho hheap
  refine ⟨Nat.le_of_eq he.count, fun hs => ?_⟩
  rcases he.state with ⟨hst, -⟩ | ⟨hst, -⟩ <;> rw [hst] at hs <;> cases hs

theorem PartialInv.addr (h : PartialInv cfg s H P) (hi : HeapInv cfg s H live) {c d : Nat}
    (hd : d ∈ P c) : DescAddr d :=
  hi.desc.addr d (hi.desc.alloced_carved (h.listed c d hd).alloced)

/-- The list of the class without its first descriptor. -/
def tailOf (P : Nat → List Nat) (c : Nat) : Nat → List Nat :=
  fun c' => if c' = c then (P c).tail else P c'

theorem mem_tailOf {c c' d : Nat} (h : d ∈ tailOf P c c') : d ∈ P c' := by
  unfold tailOf at h
  split at h
  next he => exact he ▸ List.mem_of_mem_tail h
  next => exact h

/-- Taking the first descriptor off the list of its class, whatever is done to it,
as long as nothing else changes. -/
theorem PartialInv.popped (h : PartialInv cfg s H P) {c d : Nat} {l : List Nat}
    {head : Option DescriptorNode} (hP : P c = d :: l) (hhead : PartialLinked s head l)
    (hlist : s'.partialList = (s.setPartialList c head).partialList)
    (hdesc : ∀ d', d' ≠ d → s'.descs d' = s.descs d')
    (hal : ∀ d' ∈ H.alloced, d' ≠ d → d' ∈ H'.alloced)
    (hf : ∀ d', d' ≠ d → H'.frees d' = H.frees d')
    (hself : ∀ {sg c'}, Owns s' d sg → (s'.descs d).procHeap = some c' →
      AnchorExact cfg s' H' (tailOf P c) d c') : PartialInv cfg s' H' (tailOf P c) := by
  have hnd : d ∉ l := (List.nodup_cons.mp (hP ▸ h.nodup c)).1
  have hheap := (h.listed c d (by rw [hP]; exact List.mem_cons_self ..)).heap
  -- a descriptor is on the list of its own class only
  have hne : ∀ c', ∀ d' ∈ tailOf P c c', d' ≠ d := by
    intro c' d' hd' he
    subst he
    by_cases hc : c' = c
    · subst hc
      rw [tailOf, if_pos rfl, hP] at hd'
      exact hnd hd'
    · have := (h.listed c' d' (mem_tailOf hd')).heap
      rw [hheap] at this
      exact hc (Option.some.inj this).symm
  refine ⟨fun c' => ?_, fun c' => ?_, fun c' d' hd' => ?_, fun {d' sg c'} ho hheap' => ?_⟩
  · refine PartialLinked.congr (s := s) (fun d' hd' => by rw [hdesc d' (hne c' d' hd')]) ?_
    have hhead' : s'.partialList c' = if c' = c then head else s.partialList c' := by
      rw [hlist]
      rfl
    rw [hhead', tailOf]
    by_cases hc : c' = c
    · subst hc
      rw [if_pos rfl, if_pos rfl, hP]
      exact hhead
    · rw [if_neg hc, if_neg hc]
      exact h.linked c'
  · unfold tailOf
    split
    next => exact (h.nodup c).tail
    next => exact h.nodup c'
  · have hl := h.listed c' d' (mem_tailOf hd')
    have hd := hne c' d' hd'
    refine ⟨hal d' hl.alloced hd, by rw [hdesc d' hd]; exact hl.heap, ?_⟩
    unfold Owns
    rw [hdesc d' hd]
    exact hl.state
  · by_cases hd : d' = d
    · subst hd
      exact hself ho hheap'
    · rw [Owns, hdesc d' hd] at ho
      rw [hdesc d' hd] at hheap'
      have he := h.owner ho hheap'
      refine ⟨by rw [hdesc d' hd, hf d' hd]; exact he.count, by rw [hf d' hd]; exact he.lt, ?_⟩
      rw [hdesc d' hd, hf d' hd]
      refine he.state.imp id fun hst => ⟨hst.1, hst.2.1, ?_⟩
      unfold tailOf
      split
      next hc =>
        rw [hc, hP] at hst
        rw [hP]
        exact (List.mem_cons.mp hst.2.2).resolve_left hd
      next => exact hst.2.2

/-- Popping a released descriptor and retiring it. -/
theorem PartialInv.dropEmpty (h : PartialInv cfg s H P) {c d : Nat} {l : List Nat}
    {head : Option DescriptorNode} (hP : P c = d :: l) (hhead : PartialLinked s head l)
    (hnone : (s.descs d).superBlock = none) :
    PartialInv cfg (Descriptor.retire d (s.setPartialList c head))
      { H with alloced := H.alloced.erase d, freeDescs := d :: H.freeDescs } (tailOf P c) := by
  refine h.popped hP hhead rfl (fun d' hd' => retire_other _ hd')
    (fun d' hd' hne => (List.mem_erase_of_ne hne).mpr hd') (fun _ _ => rfl) fun ho => ?_
  rw [Owns, Descriptor.retire] at ho
  simp only [setDesc_same] at ho
  exact absurd (hnone.symm.trans ho) fun he => by cases he

/-- Popping a superblock and taking its free list. -/
theorem PartialInv.take (h : PartialInv cfg s H P) (hi : HeapInv cfg s H live) {t c d : Nat}
    {seg : Segment} {l : List Nat} {head : Option DescriptorNode} {bin : ThreadCacheBin}
    (hP : P c = d :: l) (hhead : PartialLinked s head l) (ho : Owns s d seg)
    (hheap : (s.descs d).procHeap = some c) :
    PartialInv cfg ((s.setPartialList c head).takeTo t c d bin ⟨.full, (cfg.sizeClass c).blockNum, 0⟩)
      (H.take t c d) (tailOf P c) := by
  have hspec := cfg.classSpec (hi.region.small ho hheap).one_le (hi.region.small ho hheap).lt
  have hnum := hspec.blockNum_ge
  refine h.popped hP hhead rfl (fun d' hd' => ?_) (fun _ hd' _ => hd') (fun d' hd' => if_neg hd')
    fun {sg c'} ho' hheap' => ?_
  · rw [State.takeTo, setBin_descs, setDesc_other _ _ _ hd']
    rfl
  · have hfrees : (H.take t c d).frees d = [] := if_pos rfl
    rw [State.takeTo, setBin_descs, setDesc_same] at hheap'
    obtain rfl : c = c' := Option.some.inj (hheap.symm.trans hheap')
    refine ⟨?_, ?_, Or.inl ⟨?_, hfrees⟩⟩
    · rw [State.takeTo, setBin_descs, setDesc_same, hfrees]
      rfl
    · rw [hfrees, List.length_nil]
      omega
    · rw [State.takeTo, setBin_descs, setDesc_same]

/-! ## `malloc_from_partial` -/

/-- What `malloc_from_partial` did: nothing, there being no partly free superblock
of the class, or it took the whole free list of one. -/
inductive Taken (cfg : Cfg) (t c : Nat) (s s' : State) (H H' : Heap) : Nat → Prop
  | none : s'.partialList c = none → s'.threadCache = s.threadCache → H'.bins = H.bins →
      H'.frees = H.frees → H'.place = H.place →
      (∀ {d sg}, Owns s d sg → (s.descs d).procHeap = some c → H.frees d = []) →
      Taken cfg t c s s' H H' 0
  | some {d : Nat} {seg : Segment} : Owns s d seg → (s.descs d).procHeap = some c →
      H.frees d ≠ [] → H'.bins t c = H.frees d → H'.frees d = [] → Owns s' d seg →
      (s'.descs d).anchor = ⟨.full, (cfg.sizeClass c).blockNum, 0⟩ → Taken cfg t c s s' H H' 1

/-- In the `no_met_stack` build a free list is a stack as it is. -/
theorem HeapInv.holds_frees (h : HeapInv cfg s H live) (hnomet : cfg.noMetStack = true) {c d : Nat}
    {seg : Segment} (ho : Owns s d seg) (hheap : (s.descs d).procHeap = some c)
    {bin : ThreadCacheBin}
    (hblock : bin.block = seg.ptr + (s.descs d).anchor.avail * (cfg.sizeClass c).blockSize)
    (hnum : bin.blockNum = (H.frees d).length) :
    Holds cfg.noMetStack s.mem bin (H.frees d) := by
  refine ⟨hnum, seg.ptr + (cfg.sizeClass c).blockNum * (cfg.sizeClass c).blockSize, ?_⟩
  rw [hblock]
  refine (h.block.freeChain ho hheap).congr fun x _ => ?_
  rw [hnomet, nextBlock_noMet]

/-- A free list that is not empty starts at one of the blocks. -/
theorem HeapInv.avail_block (h : HeapInv cfg s H live) {c d : Nat} {seg : Segment} (ho : Owns s d seg)
    (hheap : (s.descs d).procHeap = some c) (hne : H.frees d ≠ []) :
    (s.descs d).anchor.avail < (cfg.sizeClass c).blockNum := by
  obtain ⟨x, fl, hfl⟩ := List.exists_cons_of_ne_nil hne
  have hchain := h.block.freeChain ho hheap
  rw [hfl] at hchain
  obtain ⟨seg', f⟩ := h.region.blockFacts
    ((h.block.freeMem ho hheap x).mp (by rw [hfl]; exact List.mem_cons_self ..)).2
  obtain rfl := f.owns.unique ho
  obtain ⟨i, hi, hx⟩ := f.index
  have hbs := f.spec.blockSize_ge
  have heq : (s.descs d).anchor.avail * (cfg.sizeClass c).blockSize =
      i * (cfg.sizeClass c).blockSize := by
    have := hchain.1
    omega
  have := Nat.eq_of_mul_eq_mul_right (by omega) heq
  omega

theorem Owns.ne_none {d d' : Nat} {seg : Segment} (ho : Owns s d' seg)
    (hnone : (s.descs d).superBlock = none) : d' ≠ d := fun he => by
  rw [he, Owns, hnone] at ho
  cases ho

/-- What was taken after a descriptor had been retired. -/
theorem Taken.of_retire {t c d n : Nat} {l : Option DescriptorNode} {alloced free : List Nat}
    (hnone : ((s.setPartialList c l).descs d).superBlock = Option.none)
    (h : Taken cfg t c (Descriptor.retire d (s.setPartialList c l)) s'
      { H with alloced := alloced, freeDescs := free } H' n) :
    Taken cfg t c s s' H H' n := by
  cases h with
  | none hl hc hb hf hp hall =>
    refine .none hl hc hb hf hp fun {d' sg'} ho hheap => ?_
    refine hall (owns_retire.mpr ho) ?_
    rw [retire_other _ (Owns.ne_none ho hnone)]
    exact hheap
  | some ho hheap hne hb hf ho' ha =>
    have ho₀ := owns_retire.mp ho
    rw [retire_other _ (Owns.ne_none ho₀ hnone)] at hheap
    exact .some ho₀ hheap hne hb hf ho' ha

/-- The list of a class has no more descriptors than were carved. -/
theorem PartialInv.length_le (h : PartialInv cfg s H P) (hi : HeapInv cfg s H live) (c : Nat) :
    (P c).length ≤ s.carved.length := by
  have hsub : P c ⊆ s.carved := fun d hd => hi.desc.alloced_carved (h.listed c d hd).alloced
  exact ((h.nodup c).subperm hsub).length_le

/-- The loop, by induction on the descriptors before the first partly free one. -/
theorem mallocFromPartialLoop_spec (hnomet : cfg.noMetStack = true) {t c : Nat} :
    ∀ (fuel : Nat) {s : State} {H : Heap} {P : Nat → List Nat}, HeapInv cfg s H live →
      PartialInv cfg s H P → H.bins t c = [] → (P c).length < fuel →
      ∃ n s' H' P', mallocFromPartialLoop t c fuel s = some (n, s') ∧ HeapInv cfg s' H' live ∧
        PartialInv cfg s' H' P' ∧ s'.mem = s.mem ∧ Taken cfg t c s s' H H' n := by
  intro fuel
  induction fuel with
  | zero => intro s H P _ _ _ hlt; exact absurd hlt (Nat.not_lt_zero _)
  | succ fuel ih =>
    intro s H P hi h hnil hlt
    cases hP : P c with
    | nil =>
      have hhead : s.partialList c = none := by
        have := h.linked c
        rw [hP] at this
        exact this
      refine ⟨0, s, H, P, mallocFromPartialLoop_none (listPopPartial_none hhead), hi, h, rfl,
        .none hhead rfl rfl rfl rfl fun ho hheap => ?_⟩
      rcases (h.owner ho hheap).state with ⟨-, hf⟩ | ⟨-, -, hm⟩
      · exact hf
      · rw [hP] at hm
        exact (List.not_mem_nil hm).elim
    | cons d l =>
      have hmem : d ∈ P c := by
        rw [hP]
        exact List.mem_cons_self ..
      have hl := h.listed c d hmem
      have hlink := h.linked c
      rw [hP] at hlink
      obtain ⟨head, hpop, hhead⟩ := hlink.pop fun x hx =>
        h.addr hi (by rw [hP]; exact List.mem_cons_of_mem _ hx)
      rcases hl.state with ⟨hst, sg, ho⟩ | ⟨hst, hnone⟩
      · -- a partly free superblock
        have hs := hi.region.small ho hl.heap
        have hspec := cfg.classSpec hs.one_le hs.lt
        have hex := h.owner ho hl.heap
        have hfne : H.frees d ≠ [] := by
          rcases hex.state with ⟨hf, -⟩ | ⟨-, hf, -⟩
          · rw [hst] at hf
            cases hf
          · exact hf
        have hbin0 : (s.threadCache t c).blockNum = 0 := by
          rw [(hi.block.holds t c).num, hnil]
          rfl
        have havle : (s.descs d).anchor.avail ≤ (s.descs d).maxCount := by
          rw [hs.maxCount]
          exact Nat.le_of_lt (hi.avail_block ho hl.heap hfne)
        have hne : ((s.setPartialList c head).descs d).anchor.state ≠ .empty := by
          rw [setPartialList_descs, hst]
          exact fun he => by cases he
        refine ⟨1, (s.setPartialList c head).takeTo t c d
          ⟨sg.ptr + (s.descs d).anchor.avail * (cfg.sizeClass c).blockSize,
            (s.descs d).anchor.count, (s.threadCache t c).blockSize⟩
          ⟨.full, (cfg.sizeClass c).blockNum, 0⟩, H.take t c d, tailOf P c, ?_, ?_, ?_, rfl, ?_⟩
        · rw [mallocFromPartialLoop_takes hpop hne ho havle hbin0, State.takeTo, State.setAnchor]
          simp only [setPartialList_descs, setPartialList_threadCache, hs.maxCount, hs.blockSize,
            listAnchor_eq hspec.blockNum_lt]
        · exact (hi.setPartialList c head).take hnil ho hl.heap rfl
            (hi.holds_frees hnomet ho hl.heap rfl hex.count)
        · exact h.take hi hP hhead ho hl.heap
        · refine .some ho hl.heap hfne (Heap.setBin_same ..) (if_pos rfl) ?_ ?_
          · exact ((sameOwners_takeTo ..).owns d sg).mpr ho
          · rw [State.takeTo, setBin_descs, setDesc_same]
      · -- a released one is retired
        have hnone' : ((s.setPartialList c head).descs d).superBlock = none := hnone
        have hi₁ := (hi.setPartialList c head).retire hl.alloced hnone'
        have h₁ := h.dropEmpty hP hhead hnone
        obtain ⟨n, s', H', P', hloop, hi', h', hm, htaken⟩ := ih hi₁ h₁ hnil (by
          rw [tailOf, if_pos rfl, hP]
          rw [hP, List.length_cons] at hlt
          exact Nat.lt_of_succ_lt_succ hlt)
        exact ⟨n, s', H', P', (mallocFromPartialLoop_retire hpop hst).trans hloop, hi', h', hm,
          htaken.of_retire hnone'⟩

end Refill

end Apfmalloc
