import Apfmalloc.State
import Apfmalloc.Base.Runs

/-!
# `Descriptor::alloc` and `Descriptor::retire`

Descriptors are carved 16 pages at a time and never unmapped; between uses they
sit on the list headed at `AVAILABLE_DESC`, linked through `next_free`. Both
operations run under its lock, so a whole call is one step.

The list mixes encodings: the end of a freshly carved block is `None`, the end
of a list a descriptor was retired onto is `Some(null)`, and the links carry
whatever counter their descriptor had. `freeNext` reads all of them alike, and
`DescInv` is the invariant: the list is finite and free of repetitions, and the
allocated descriptors together with the listed ones are exactly the carved ones.
-/

namespace Apfmalloc

open Base

/-- `page_alloc`: a whole number of pages or an error. -/
def pageAlloc (os : Os) (size : Nat) (s : State) : Option (Nat × State) :=
  if size &&& pageMask ≠ 0 then none
  else (segAllocate os size s).map fun (seg, s') => (seg.ptr, s')

def setNextFree (descs : Nat → Descriptor) (d : Nat) (n : Option DescriptorNode) :
    Nat → Descriptor :=
  fun d' => if d' = d then { descs d with nextFree := n } else descs d'

/-- `if let Some(prev) = prev { prev.next_free = Some(descriptor) }` -/
def linkPrev (prev : Option Nat) (d : Nat) (descs : Nat → Descriptor) : Nat → Descriptor :=
  match prev with
  | some p => setNextFree descs p (some (DescriptorNode.ofPtr d))
  | none => descs

/-- The loop over the new block. Gives the descriptors and the last `prev`. -/
def linkFreeList : Option Nat → List Nat → (Nat → Descriptor) → (Nat → Descriptor) × Option Nat
  | prev, [], descs => (descs, prev)
  | prev, d :: rest, descs => linkFreeList (some d) rest (linkPrev prev d descs)

namespace Descriptor

/-- The descriptors of a fresh block at `page`. -/
def blockAddrs (cfg : Cfg) (page : Nat) : List Nat :=
  strideList page cfg.descSize (descriptorBlockSz / cfg.descSize)

/-- `Array::from_ptr` writes the default into every descriptor of the block. -/
def writeDefaults (all : List Nat) (descs : Nat → Descriptor) : Nat → Descriptor :=
  fun d => if d ∈ all then Descriptor.default else descs d

/-- The head `alloc` leaves when it pops one with link `nextFree`. -/
def headAfter (oldHead : DescriptorNode) (nextFree : Option DescriptorNode) : DescriptorNode :=
  match nextFree with
  | none => DescriptorNode.new
  | some newHead =>
    match newHead.getDesc with
    | some d => DescriptorNode.set (some d) oldHead.getCounter
    | none => DescriptorNode.set none oldHead.getCounter

def alloc (cfg : Cfg) (os : Os) (s : State) : Option (Nat × State) :=
  let oldHead := s.availableDesc
  match oldHead.getDesc with
  | none => do
    let (page, s) ← pageAlloc os descriptorBlockSz s
    let all := blockAddrs cfg page
    match linkFreeList none all.tail (writeDefaults all s.descs) with
    | (_, none) => none
    | (descs, some prev) =>
      some (page, { s with descs := setNextFree descs prev none,
                           availableDesc := DescriptorNode.set (some (page + cfg.descSize)) 0,
                           carved := all ++ s.carved })
  | some desc =>
    some (desc, { s with availableDesc := headAfter oldHead (s.descs desc).nextFree })

def retire (d : Nat) (s : State) : State :=
  let oldHead := s.availableDesc
  let s := s.setDesc d { s.descs d with blockSize := 0, nextFree := some oldHead }
  { s with availableDesc := DescriptorNode.set (some d) (oldHead.getCounter + 1) }

end Descriptor

/-! ## The free list -/

/-- The descriptor a `next_free` link names, `None` and `Some(null)` alike. -/
def freeNext (s : State) (d : Nat) : Option Nat :=
  (s.descs d).nextFree.bind DescriptorNode.getDesc

/-- The descriptor block a carved descriptor lies in is mapped. -/
def InMapped (s : State) (d : Nat) : Prop :=
  ∃ seg ∈ s.mapped, seg.ptr ≤ d ∧ d < seg.ptr + regionLen seg.length

theorem InMapped.out {s : State} {d : Nat} {seg : Segment} (h : InMapped s d)
    (hapart : ∀ sg ∈ s.mapped, seg.Apart sg) :
    d < seg.ptr ∨ seg.ptr + regionLen seg.length ≤ d := by
  obtain ⟨sg, hsg, hlo, hhi⟩ := h
  have := hapart sg hsg
  unfold Segment.Apart at this
  omega

structure DescInv (s : State) (alloced free : List Nat) : Prop where
  linked : Linked (freeNext s) s.availableDesc.getDesc free
  perm : (alloced ++ free).Perm s.carved
  nodup : s.carved.Nodup
  addr : ∀ d ∈ s.carved, DescAddr d
  mapped : ∀ d ∈ s.carved, InMapped s d

theorem DescInv.nodup_append {s : State} {alloced free : List Nat}
    (h : DescInv s alloced free) : (alloced ++ free).Nodup :=
  h.perm.nodup_iff.mpr h.nodup

theorem DescInv.alloced_carved {s : State} {alloced free : List Nat} (h : DescInv s alloced free)
    {d : Nat} (hd : d ∈ alloced) : d ∈ s.carved :=
  h.perm.mem_iff.mp (List.mem_append_left _ hd)

theorem DescInv.free_carved {s : State} {alloced free : List Nat} (h : DescInv s alloced free)
    {d : Nat} (hd : d ∈ free) : d ∈ s.carved :=
  h.perm.mem_iff.mp (List.mem_append_right _ hd)

/-- The invariant looks at the head, the `next_free` links and the descriptor
blocks only. -/
theorem DescInv.frame {s s' : State} {alloced free : List Nat} (h : DescInv s alloced free)
    (hhead : s'.availableDesc = s.availableDesc)
    (hnext : ∀ d ∈ s.carved, (s'.descs d).nextFree = (s.descs d).nextFree)
    (hcarved : s'.carved = s.carved) (hmapped : ∀ d ∈ s.carved, InMapped s d → InMapped s' d) :
    DescInv s' alloced free := by
  refine ⟨?_, hcarved ▸ h.perm, hcarved ▸ h.nodup, hcarved ▸ h.addr, ?_⟩
  · rw [hhead]
    refine h.linked.congr fun d hd => ?_
    rw [freeNext, freeNext, hnext d (h.free_carved hd)]
  · rw [hcarved]
    exact fun d hd => hmapped d hd (h.mapped d hd)

/-! ## A fresh block -/

theorem setNextFree_same (descs : Nat → Descriptor) (d : Nat) (n : Option DescriptorNode) :
    (setNextFree descs d n d).nextFree = n := by
  rw [setNextFree, if_pos rfl]

theorem setNextFree_other {descs : Nat → Descriptor} {d d' : Nat} (n : Option DescriptorNode)
    (h : d' ≠ d) : setNextFree descs d n d' = descs d' := by
  rw [setNextFree, if_neg h]

/-- Linking a block writes its own descriptors only. -/
theorem linkFreeList_out {d : Nat} :
    ∀ {l : List Nat} {prev : Option Nat} {descs : Nat → Descriptor}, prev ≠ some d → d ∉ l →
      (linkFreeList prev l descs).1 d = descs d := by
  intro l
  induction l with
  | nil => intro prev descs _ _; rfl
  | cons x l ih =>
    intro prev descs hprev hmem
    rw [List.mem_cons, not_or] at hmem
    rw [linkFreeList, ih (fun h => hmem.1 (Option.some.inj h).symm) hmem.2]
    cases prev with
    | none => rfl
    | some p => exact setNextFree_other _ fun h => hprev (congrArg some h.symm)

theorem setNextFree_superBlock (descs : Nat → Descriptor) (d x : Nat) (n : Option DescriptorNode) :
    (setNextFree descs d n x).superBlock = (descs x).superBlock := by
  unfold setNextFree
  by_cases h : x = d
  · rw [if_pos h, h]
  · rw [if_neg h]

/-- Linking changes links only. -/
theorem linkFreeList_superBlock (x : Nat) :
    ∀ (l : List Nat) (prev : Option Nat) (descs : Nat → Descriptor),
      ((linkFreeList prev l descs).1 x).superBlock = (descs x).superBlock := by
  intro l
  induction l with
  | nil => intro prev descs; rfl
  | cons y l ih =>
    intro prev descs
    rw [linkFreeList, ih]
    cases prev with
    | none => rfl
    | some p => exact setNextFree_superBlock ..

theorem linkFreeList_last_mem :
    ∀ {l : List Nat} {p last : Nat} {descs : Nat → Descriptor},
      (linkFreeList (some p) l descs).2 = some last → last ∈ p :: l := by
  intro l
  induction l with
  | nil => intro p last descs h; cases h; exact List.mem_cons_self ..
  | cons x l ih => intro p last descs h; exact List.mem_cons_of_mem _ (ih h)

/-- Each linked descriptor names the next one, and the last `prev` is the last
descriptor. -/
theorem linkFreeList_spec :
    ∀ {l : List Nat} {p : Nat} (descs : Nat → Descriptor), (p :: l).Nodup →
      (∀ d ∈ l, DescAddr d) →
      ∃ last, (linkFreeList (some p) l descs).2 = some last ∧
        Linked (fun d => (setNextFree (linkFreeList (some p) l descs).1 last none d).nextFree.bind
          DescriptorNode.getDesc) (some p) (p :: l) := by
  intro l
  induction l with
  | nil =>
    intro p descs _ _
    refine ⟨p, rfl, rfl, ?_⟩
    simp only [setNextFree_same, Option.bind_none, linked_nil]
  | cons x l ih =>
    intro p descs hnd haddr
    have hnd' := List.nodup_cons.mp hnd
    obtain ⟨last, hlast, hlinked⟩ := ih
      (setNextFree descs p (some (DescriptorNode.ofPtr x))) hnd'.2
      fun d hd => haddr d (List.mem_cons_of_mem _ hd)
    refine ⟨last, hlast, rfl, ?_⟩
    -- the first descriptor keeps its link: the later rounds and the final
    -- `None` write further on
    have hplast : p ≠ last := fun h => hnd'.1 (h ▸ linkFreeList_last_mem hlast)
    have hp : (linkFreeList (some p) (x :: l) descs).1 p =
        setNextFree descs p (some (DescriptorNode.ofPtr x)) p := by
      rw [linkFreeList]
      refine linkFreeList_out ?_ fun h => hnd'.1 (List.mem_cons_of_mem _ h)
      exact fun h => hnd'.1 (Option.some.inj h ▸ List.mem_cons_self ..)
    simp only [setNextFree_other _ hplast]
    rw [hp, setNextFree_same, Option.bind_some,
      getDesc_ofPtr (haddr x (List.mem_cons_self ..))]
    exact hlinked

/-- The descriptors of a block: distinct, aligned, inside the block. -/
theorem blockAddrs_spec (cfg : Cfg) {p : Nat} (hp : Segment.Valid ⟨p, descriptorBlockSz⟩) :
    ∃ rest, Descriptor.blockAddrs cfg p = p :: (p + cfg.descSize) :: rest ∧
      (Descriptor.blockAddrs cfg p).Nodup ∧
      ∀ d ∈ Descriptor.blockAddrs cfg p,
        DescAddr d ∧ p ≤ d ∧ d < p + regionLen descriptorBlockSz := by
  have hpos := cfg.descSize_pos
  have htwo := cfg.descSize_two
  have hcount : 2 ≤ descriptorBlockSz / cfg.descSize := by
    rw [Nat.le_div_iff_mul_le hpos]
    exact htwo
  have hlen : regionLen descriptorBlockSz = descriptorBlockSz := regionLen_of_mod (by decide)
  refine ⟨strideList (p + cfg.descSize + cfg.descSize) cfg.descSize
    (descriptorBlockSz / cfg.descSize - 2), ?_, strideList_nodup hpos _, ?_⟩
  · rw [Descriptor.blockAddrs]
    obtain ⟨n, hn⟩ : ∃ n, descriptorBlockSz / cfg.descSize = n + 2 :=
      ⟨descriptorBlockSz / cfg.descSize - 2, by omega⟩
    rw [hn, strideList, strideList, Nat.add_sub_cancel]
  · intro d hd
    obtain ⟨i, hi, rfl⟩ := mem_strideList.mp hd
    have hmul : i * cfg.descSize + cfg.descSize ≤ descriptorBlockSz := by
      rw [← Nat.succ_mul]
      exact Nat.le_trans (Nat.mul_le_mul_right _ hi) (Nat.div_mul_le_self _ _)
    have hb := hp.bound
    rw [hlen] at hb ⊢
    refine ⟨⟨?_, ?_, ?_⟩, Nat.le_add_right _ _, by omega⟩
    · have hal : cacheLine ∣ p :=
        Nat.dvd_trans (by decide : cacheLine ∣ page) (Nat.dvd_of_mod_eq_zero hp.aligned)
      exact Nat.mod_eq_zero_of_dvd (Nat.dvd_add hal
        (Nat.dvd_mul_left_of_dvd (Nat.dvd_of_mod_eq_zero cfg.descSize_mod) _))
    · have := hp.pos
      simp only at this
      omega
    · simp only [addrSpace] at hb
      rw [usizeSize_eq]
      omega

/-! ## The two operations -/

/-- Whatever the encoding of the link, the new head names what the link names. -/
theorem headAfter_getDesc (oldHead : DescriptorNode) {nextFree : Option DescriptorNode}
    (h : ∀ y, nextFree.bind DescriptorNode.getDesc = some y → DescAddr y) :
    (Descriptor.headAfter oldHead nextFree).getDesc = nextFree.bind DescriptorNode.getDesc := by
  cases nextFree with
  | none => exact getDesc_new
  | some n =>
    rw [Option.bind_some] at h ⊢
    cases hg : n.getDesc with
    | none => simp only [Descriptor.headAfter, hg, getDesc_set_none]
    | some y => simp only [Descriptor.headAfter, hg, getDesc_set (h y hg)]

/-- What `Descriptor::alloc` leaves alone: everything but the free list and, when
it carves, a fresh mapping. -/
structure AllocFrame (s s' : State) : Prop where
  partialList : s'.partialList = s.partialList
  pageMap : s'.pageMap = s.pageMap
  threadCache : s'.threadCache = s.threadCache
  bootstrapReserve : s'.bootstrapReserve = s.bootstrapReserve
  useBootstrap : s'.useBootstrap = s.useBootstrap
  panicking : s'.panicking = s.panicking
  descs : ∀ d ∈ s.carved, s'.descs d = s.descs d
  fresh : ∀ d, d ∉ s.carved → s'.descs d = s.descs d ∨ (s'.descs d).superBlock = none
  carved : ∀ d ∈ s.carved, d ∈ s'.carved
  carvedOut : ∀ d ∈ s'.carved, d ∈ s.carved ∨
    ∀ seg ∈ s.mapped, d < seg.ptr ∨ seg.ptr + regionLen seg.length ≤ d
  mapped : ∀ seg ∈ s.mapped, seg ∈ s'.mapped
  mem : ∀ seg ∈ s.mapped, ∀ a, seg.ptr ≤ a → a < seg.ptr + regionLen seg.length →
    s'.mem a = s.mem a

/-- A block of descriptors was carved at `seg`: `d` is the first of them, the list
at `AVAILABLE_DESC` has the others. -/
structure Carves (s s' : State) (seg : Segment) (d : Nat) (rest : List Nat) : Prop where
  nodup : (d :: rest).Nodup
  inside : ∀ x ∈ d :: rest, DescAddr x ∧ seg.ptr ≤ x ∧ x < seg.ptr + regionLen seg.length
  apart : ∀ sg ∈ s.mapped, seg.Apart sg
  linked : Linked (freeNext s') s'.availableDesc.getDesc rest
  descs : ∀ x, x ∉ d :: rest → s'.descs x = s.descs x
  superBlock : ∀ x ∈ d :: rest, (s'.descs x).superBlock = none
  state : s' = { s with descs := s'.descs, availableDesc := s'.availableDesc,
                        mem := zeroFill s.mem seg.ptr (regionLen seg.length),
                        mapped := seg :: s.mapped, carved := d :: rest ++ s.carved }

/-- With nothing on the list, `Descriptor::alloc` carves a block. -/
theorem alloc_carves {cfg : Cfg} {os : Os} {s s' : State} {d : Nat}
    (hnone : s.availableDesc.getDesc = none) (h : Descriptor.alloc cfg os s = some (d, s')) :
    ∃ seg rest, Carves s s' seg d rest := by
  unfold Descriptor.alloc at h
  simp only [hnone, pageAlloc, show descriptorBlockSz &&& pageMask = 0 by decide, ne_eq,
    not_true_eq_false, if_false, Option.bind_eq_bind, Option.bind_eq_some_iff,
    Option.map_eq_some_iff] at h
  obtain ⟨-, ⟨⟨seg, s₁⟩, hseg, rfl⟩, h⟩ := h
  obtain ⟨hlen, hvalid, hapart, rfl⟩ := segAllocate_cases hseg
  obtain ⟨rest, hall, hnd, haddr⟩ := blockAddrs_spec cfg (p := seg.ptr) (hlen ▸ hvalid)
  simp only at h
  rw [hall] at h hnd haddr
  rw [← hlen] at haddr
  generalize hds : Descriptor.writeDefaults _ s.descs = ds at h
  obtain ⟨last, hlast, hlinked⟩ := linkFreeList_spec ds (List.nodup_cons.mp hnd).2
    fun x hx => (haddr x (List.mem_cons_of_mem _ (List.mem_cons_of_mem _ hx))).1
  have hloop : linkFreeList none ((seg.ptr + cfg.descSize) :: rest) ds =
      ((linkFreeList (some (seg.ptr + cfg.descSize)) rest ds).1, some last) := Prod.ext rfl hlast
  simp only [List.tail_cons, hloop, Option.some.injEq, Prod.mk.injEq] at h
  obtain ⟨rfl, rfl⟩ := h
  refine ⟨seg, (seg.ptr + cfg.descSize) :: rest, hnd, haddr, hapart, ?_, ?_, ?_, by rw [hlen]⟩
  · rw [getDesc_set (haddr _ (List.mem_cons_of_mem _ (List.mem_cons_self ..))).1]
    exact hlinked
  · intro x hx
    have hxl : x ∉ (seg.ptr + cfg.descSize) :: rest := fun hm => hx (List.mem_cons_of_mem _ hm)
    have hxlast : x ≠ last := fun he => hxl (he ▸ linkFreeList_last_mem hlast)
    rw [List.mem_cons, not_or] at hxl
    refine (setNextFree_other _ hxlast).trans ?_
    rw [linkFreeList_out (fun he => hxl.1 (Option.some.inj he).symm) hxl.2, ← hds]
    exact if_neg hx
  · intro x hx
    refine (setNextFree_superBlock ..).trans ?_
    rw [linkFreeList_superBlock, ← hds, Descriptor.writeDefaults, if_pos hx]
    rfl

section
variable {s s' : State} {alloced : List Nat} {seg : Segment} {d : Nat} {rest : List Nat}

/-- The new descriptors lie in no older mapping. -/
theorem Carves.out (h : Carves s s' seg d rest) {x : Nat} (hx : x ∈ d :: rest) {sg : Segment}
    (hsg : sg ∈ s.mapped) : x < sg.ptr ∨ sg.ptr + regionLen sg.length ≤ x := by
  obtain ⟨-, hlo, hhi⟩ := h.inside x hx
  have := h.apart sg hsg
  rw [Segment.Apart] at this
  omega

theorem Carves.not_carved (h : Carves s s' seg d rest)
    (hmapped : ∀ x ∈ s.carved, InMapped s x) {x : Nat} (hx : x ∈ d :: rest) : x ∉ s.carved := by
  intro hc
  have hout := (hmapped x hc).out h.apart
  have hin := (h.inside x hx).2
  omega

theorem Carves.allocFrame (h : Carves s s' seg d rest)
    (hmapped : ∀ x ∈ s.carved, InMapped s x) : AllocFrame s s' := by
  have hstate := h.state
  refine ⟨by rw [hstate], by rw [hstate], by rw [hstate], by rw [hstate], by rw [hstate],
    by rw [hstate], fun x hx => h.descs x fun hm => h.not_carved hmapped hm hx,
    fun x _ => ?_, fun x hx => ?_, fun x hx => ?_, fun sg hsg => ?_, fun sg hsg a hlo hhi => ?_⟩
  · by_cases hm : x ∈ d :: rest
    · exact Or.inr (h.superBlock x hm)
    · exact Or.inl (h.descs x hm)
  · rw [hstate]
    exact List.mem_append_right _ hx
  · rw [hstate] at hx
    rcases List.mem_append.mp hx with hx | hx
    · exact Or.inr fun sg hsg => h.out hx hsg
    · exact Or.inl hx
  · rw [hstate]
    exact List.mem_cons_of_mem _ hsg
  · have := h.apart sg hsg
    rw [Segment.Apart] at this
    rw [hstate]
    exact zeroFill_out (by omega)

theorem Carves.descInv (h : Carves s s' seg d rest) (hi : DescInv s alloced []) :
    DescInv s' (d :: alloced) rest := by
  have hcarved : s'.carved = d :: rest ++ s.carved := by rw [h.state]
  have hmap : s'.mapped = seg :: s.mapped := by rw [h.state]
  refine ⟨h.linked, ?_, ?_, ?_, ?_⟩
  · have hperm := hi.perm
    rw [List.append_nil] at hperm
    rw [hcarved, List.cons_append, List.cons_append]
    exact ((List.perm_append_comm).trans (List.Perm.append_left _ hperm)).cons _
  · rw [hcarved]
    refine List.nodup_append.mpr ⟨h.nodup, hi.nodup, fun x hx y hy he => ?_⟩
    exact h.not_carved hi.mapped hx (he ▸ hy)
  · intro x hx
    rw [hcarved] at hx
    rcases List.mem_append.mp hx with hx | hx
    · exact (h.inside x hx).1
    · exact hi.addr x hx
  · intro x hx
    rw [hcarved] at hx
    rw [InMapped, hmap]
    rcases List.mem_append.mp hx with hx | hx
    · exact ⟨seg, List.mem_cons_self .., (h.inside x hx).2⟩
    · obtain ⟨sg, hsg, hb⟩ := hi.mapped x hx
      exact ⟨sg, List.mem_cons_of_mem _ hsg, hb⟩

end

/-- With a descriptor on the list, `Descriptor::alloc` takes it off. -/
theorem alloc_pops {cfg : Cfg} {os : Os} {s s' : State} {d x : Nat}
    (hsome : s.availableDesc.getDesc = some x) (h : Descriptor.alloc cfg os s = some (d, s')) :
    d = x ∧ s' = { s with availableDesc :=
      Descriptor.headAfter s.availableDesc (s.descs x).nextFree } := by
  unfold Descriptor.alloc at h
  simp only [hsome, Option.some.injEq, Prod.mk.injEq] at h
  exact ⟨h.1.symm, h.2.symm⟩

/-- Whatever the list looks like, `Descriptor::alloc` does not touch the page map
or a bin, and unmaps nothing. -/
theorem alloc_pageMap {cfg : Cfg} {os : Os} {s s' : State} {d : Nat}
    (h : Descriptor.alloc cfg os s = some (d, s')) :
    s'.pageMap = s.pageMap ∧ s'.threadCache = s.threadCache ∧
      ∀ seg ∈ s.mapped, seg ∈ s'.mapped := by
  cases hhead : s.availableDesc.getDesc with
  | none =>
    obtain ⟨seg, rest, hc⟩ := alloc_carves hhead h
    rw [hc.state]
    exact ⟨rfl, rfl, fun sg hsg => List.mem_cons_of_mem _ hsg⟩
  | some x =>
    obtain ⟨-, rfl⟩ := alloc_pops hhead h
    exact ⟨rfl, rfl, fun _ hsg => hsg⟩

/-- Whatever the encoding of the head's link, the new head names the rest. -/
theorem DescInv.headAfter {s : State} {alloced free : List Nat} {x : Nat}
    (h : DescInv s alloced (x :: free)) :
    (Descriptor.headAfter s.availableDesc (s.descs x).nextFree).getDesc = freeNext s x := by
  refine headAfter_getDesc _ fun y hy => ?_
  have hrest : Linked (freeNext s) (freeNext s x) free := h.linked.2
  change freeNext s x = some y at hy
  rw [hy] at hrest
  cases free with
  | nil => cases hrest
  | cons z free =>
    cases hrest.1
    exact h.addr y (h.free_carved (List.mem_cons_of_mem _ (List.mem_cons_self ..)))

/-- **`Descriptor::alloc`** hands out a descriptor that was not allocated and
keeps the invariant. -/
theorem DescInv.alloc {cfg : Cfg} {os : Os} {s s' : State} {alloced free : List Nat} {d : Nat}
    (h : DescInv s alloced free) (halloc : Descriptor.alloc cfg os s = some (d, s')) :
    d ∉ alloced ∧ AllocFrame s s' ∧ ∃ free', DescInv s' (d :: alloced) free' := by
  cases free with
  | nil =>
    obtain ⟨seg, rest, hc⟩ := alloc_carves h.linked halloc
    refine ⟨fun hmem => ?_, hc.allocFrame h.mapped, rest, hc.descInv h⟩
    exact hc.not_carved h.mapped (List.mem_cons_self ..) (h.alloced_carved hmem)
  | cons x free =>
    obtain ⟨rfl, rfl⟩ := alloc_pops h.linked.1 halloc
    refine ⟨fun hmem => ?_, ⟨rfl, rfl, rfl, rfl, rfl, rfl, fun _ _ => rfl,
      fun _ _ => Or.inl rfl, fun _ hx => hx, fun _ hx => Or.inl hx, fun _ hsg => hsg,
      fun _ _ _ _ _ => rfl⟩, free, ?_, ?_, h.nodup, h.addr, h.mapped⟩
    · exact (List.nodup_append.mp h.nodup_append).2.2 d hmem d (List.mem_cons_self ..) rfl
    · rw [h.headAfter]
      exact h.linked.2
    · exact List.perm_middle.symm.trans h.perm

/-- **`retire`** puts an allocated descriptor back. -/
theorem DescInv.retire {s : State} {alloced free : List Nat} {d : Nat}
    (h : DescInv s (d :: alloced) free) :
    DescInv (Descriptor.retire d s) alloced (d :: free) := by
  have hd := h.addr d (h.alloced_carved (List.mem_cons_self ..))
  have hnd := List.nodup_cons.mp h.nodup_append
  refine ⟨⟨getDesc_set hd _, ?_⟩, List.perm_middle.trans h.perm, h.nodup, h.addr, h.mapped⟩
  have hself : freeNext (Descriptor.retire d s) d = s.availableDesc.getDesc := by
    rw [freeNext, Descriptor.retire]
    simp
  rw [hself]
  refine h.linked.congr fun x hx => ?_
  have hxd : x ≠ d := by
    rintro rfl
    exact hnd.1 (List.mem_append_right _ hx)
  rw [freeNext, freeNext, Descriptor.retire]
  simp only [setDesc_other _ _ _ hxd]

/-! ## Every sequence of calls -/

inductive DescOp
  | alloc (os : Os)
  | retire (d : Nat)
  | other

/-- A call of one of the two operations, with the descriptors handed out and not
yet retired; or anything else the allocator does meanwhile, which leaves the
head and the `next_free` links alone and unmaps no descriptor block. -/
inductive DescStep (cfg : Cfg) : State × List Nat → DescOp → State × List Nat → Prop
  | alloc {s s' : State} {alloced : List Nat} {os : Os} {d : Nat} :
      Descriptor.alloc cfg os s = some (d, s') →
      DescStep cfg (s, alloced) (.alloc os) (s', d :: alloced)
  | retire {s : State} {alloced : List Nat} {d : Nat} :
      d ∈ alloced →
      DescStep cfg (s, alloced) (.retire d) (Descriptor.retire d s, alloced.erase d)
  | other {s s' : State} {alloced : List Nat} :
      s'.availableDesc = s.availableDesc →
      (∀ d ∈ s.carved, (s'.descs d).nextFree = (s.descs d).nextFree) →
      s'.carved = s.carved →
      (∀ d ∈ s.carved, InMapped s d → InMapped s' d) →
      DescStep cfg (s, alloced) .other (s', alloced)

theorem DescInv.perm_alloced {s : State} {alloced alloced' free : List Nat}
    (h : DescInv s alloced free) (hp : alloced.Perm alloced') : DescInv s alloced' free :=
  ⟨h.linked, (hp.symm.append_right _).trans h.perm, h.nodup, h.addr, h.mapped⟩

theorem descStep_inv {cfg : Cfg} {p p' : State × List Nat} {op : DescOp}
    (h : ∃ free, DescInv p.1 p.2 free) (hstep : DescStep cfg p op p') :
    ∃ free, DescInv p'.1 p'.2 free := by
  obtain ⟨free, h⟩ := h
  cases hstep with
  | alloc halloc => exact (h.alloc halloc).2.2
  | retire hd => exact ⟨_, (h.perm_alloced (List.perm_cons_erase hd)).retire⟩
  | other hhead hnext hcarved hmapped => exact ⟨free, h.frame hhead hnext hcarved hmapped⟩

/-- **The descriptor list stays good** along every sequence of `alloc` and
`retire` calls: the list headed at `AVAILABLE_DESC` ends, it has no repetition
and nothing allocated on it, it makes up all carved descriptors with the
allocated ones, and the next `alloc` returns none of the latter. The counters
in the links take part in none of this, so their wrap-around is covered. -/
theorem descriptor_list_good {cfg : Cfg} {s₀ s : State} {alloced : List Nat} {ops : List DescOp}
    (hhead : s₀.availableDesc = DescriptorNode.new) (hcarved : s₀.carved = [])
    (hrun : Run (DescStep cfg) (s₀, []) ops (s, alloced)) :
    (∀ os d s', Descriptor.alloc cfg os s = some (d, s') → d ∉ alloced) ∧
    ∃ free, Linked (freeNext s) s.availableDesc.getDesc free ∧ (alloced ++ free).Nodup ∧
      (alloced ++ free).Perm s.carved := by
  have h0 : ∃ free, DescInv s₀ [] free := by
    refine ⟨[], ?_, by rw [hcarved]; exact .refl _, by rw [hcarved]; exact List.nodup_nil,
      by rw [hcarved]; exact fun _ h => (List.not_mem_nil h).elim,
      by rw [hcarved]; exact fun _ h => (List.not_mem_nil h).elim⟩
    rw [hhead]
    exact getDesc_new
  obtain ⟨free, h⟩ : ∃ free, DescInv s alloced free :=
    Run.invariant (P := fun p => ∃ free, DescInv p.1 p.2 free) descStep_inv hrun h0
  exact ⟨fun os d s' halloc => (h.alloc halloc).1, free, h.linked, h.nodup_append, h.perm⟩

/-- Carve a block, retire the first descriptor and take it again. -/
theorem descriptor_list_good_reuse :
    ∃ (s : State) (alloced : List Nat) (ops : List DescOp), ops.length = 3 ∧
      Run (DescStep Cfg.default) (startState, []) ops (s, alloced) ∧
      ∃ free, Linked (freeNext s) s.availableDesc.getDesc free ∧ (alloced ++ free).Nodup ∧
        (alloced ++ free).Perm s.carved := by
  have h : ((Descriptor.alloc Cfg.default Os.bump startState).bind fun r =>
      Descriptor.alloc Cfg.default Os.bump (Descriptor.retire r.1 r.2)).isSome := by decide +kernel
  obtain ⟨⟨d₂, s₂⟩, h⟩ := Option.isSome_iff_exists.mp h
  obtain ⟨⟨d₁, s₁⟩, h₁, h₂⟩ := Option.bind_eq_some_iff.mp h
  have hrun : Run (DescStep Cfg.default) (startState, [])
      [.alloc Os.bump, .retire d₁, .alloc Os.bump] (s₂, d₂ :: [d₁].erase d₁) :=
    .cons (.alloc h₁) (.cons (.retire (List.mem_cons_self ..)) (.cons (.alloc h₂) (.nil _)))
  exact ⟨_, _, _, rfl, hrun, (descriptor_list_good rfl rfl hrun).2⟩

end Apfmalloc
