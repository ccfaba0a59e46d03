import Apfmalloc.DescList
import Apfmalloc.MapRun
import Apfmalloc.RawArray

/-!
# `pages.rs`: whole pages by address

`page_alloc` hands out whole pages and notes their length in a map under a lock, so that
`page_free` gets by with the address. The descriptor blocks and the page map come from here;
superblocks and large allocations go to the segment allocator directly, and so do the arrays
of the map itself. `pageAlloc` in `DescList.lean` is the same function without the map.

The map decides what is unmapped, so what matters is that it says exactly which pages are
out, with their lengths, after any calls in any order and whatever addresses `page_free` is
asked for. Then it unmaps the pages at an address once, whole, and refuses an address in the
middle of pages, one that was freed before, and one that came from elsewhere
(`pages_accounted`). The hash of an address is any function, and when the map grows is
decided by the caller. A panic is `none`; `errno` is left out of the errors.
-/

namespace Apfmalloc

open Base

/-- A pointer as a key of the map. -/
structure PtrHolder where
  ptr : Nat
  deriving DecidableEq, Repr

structure SegmentHolder where
  sizeMap : Option (HashMap PtrHolder Nat)

inductive AllocationError
  | allocationFailed (size : Nat)
  deriving DecidableEq, Repr

/-- `SEGMENT_ALLOCATOR.allocate_massive`: `mmap` with `MAP_NORESERVE`, which answers as it
does without. -/
def segAllocateMassive (os : Os) (size : Nat) (s : State) : Option (Segment × State) :=
  segAllocate os size s

/-- `munmap(ptr, length) == 0`: the kernel takes page boundaries and lengths above zero. -/
def munmap (seg : Segment) (s : State) : Bool × State :=
  if seg.ptr % page = 0 ∧ 0 < seg.length then (true, segDeallocate seg s) else (false, s)

namespace SegmentHolder

variable [Hashable PtrHolder]

/-- What `page_alloc` and `page_alloc_over_commit` share. -/
def pageAllocBy (allocate : Nat → State → Option (Segment × State)) (grows : Bool) (size : Nat)
    (h : SegmentHolder) (s : State) :
    Option (Except AllocationError Nat × SegmentHolder × State) :=
  if size &&& pageMask ≠ 0 then some (.error (.allocationFailed size), h, s)
  else
    let sizeMap := h.sizeMap.getD HashMap.new
    match allocate size s with
    -- the `?` leaves the new map behind
    | none => some (.error (.allocationFailed size), ⟨some sizeMap⟩, s)
    | some (segment, s) => do
      let (_, sizeMap) ← sizeMap.insert grows ⟨segment.ptr⟩ size
      some (.ok segment.ptr, ⟨some sizeMap⟩, s)

def pageAlloc (os : Os) : Bool → Nat → SegmentHolder → State →
    Option (Except AllocationError Nat × SegmentHolder × State) :=
  pageAllocBy (segAllocate os)

def pageAllocOverCommit (os : Os) : Bool → Nat → SegmentHolder → State →
    Option (Except AllocationError Nat × SegmentHolder × State) :=
  pageAllocBy (segAllocateMassive os)

/-- Without a map there is nothing to unwrap. -/
def pageFree (ptr : Nat) (h : SegmentHolder) (s : State) : Option (Bool × SegmentHolder × State) :=
  do
  let sizeMap ← h.sizeMap
  let held ← sizeMap.contains ⟨ptr⟩
  if held then
    let size ← sizeMap.get ⟨ptr⟩
    let size ← size
    let (ret, s) := munmap ⟨ptr, size⟩ s
    let (_, sizeMap) ← sizeMap.remove ⟨ptr⟩
    some (ret, ⟨some sizeMap⟩, s)
  else some (false, h, s)

end SegmentHolder

/-! ## Runs -/

/-- The last two are the rest of the program: it maps segments of its own, and unmaps them. -/
inductive PageOp
  | alloc (size : Nat)
  | allocOverCommit (size : Nat)
  | free (ptr : Nat)
  | map
  | unmap

/-- The pages that are out after an allocation. -/
def addPages (r : Except AllocationError Nat) (size : Nat) (held : List Segment) :
    List Segment :=
  match r with
  | .ok ptr => ⟨ptr, size⟩ :: held
  | .error _ => held

/-- The pages that are out after a free. -/
def dropPages (ret : Bool) (ptr : Nat) (held : List Segment) : List Segment :=
  if ret then held.filter fun seg => seg.ptr ≠ ptr else held

/-- Each call has the lock, and a kernel of its own. -/
inductive PageStep [Hashable PtrHolder] : SegmentHolder × State × List Segment → PageOp →
    SegmentHolder × State × List Segment → Prop
  | alloc {h h' : SegmentHolder} {s s' : State} {held : List Segment} {os : Os} {grows : Bool}
      {size : Nat} {r : Except AllocationError Nat} :
      h.pageAlloc os grows size s = some (r, h', s') →
      PageStep (h, s, held) (.alloc size) (h', s', addPages r size held)
  | allocOverCommit {h h' : SegmentHolder} {s s' : State} {held : List Segment} {os : Os}
      {grows : Bool} {size : Nat} {r : Except AllocationError Nat} :
      h.pageAllocOverCommit os grows size s = some (r, h', s') →
      PageStep (h, s, held) (.allocOverCommit size) (h', s', addPages r size held)
  | free {h h' : SegmentHolder} {s s' : State} {held : List Segment} {ptr : Nat} {ret : Bool} :
      h.pageFree ptr s = some (ret, h', s') →
      PageStep (h, s, held) (.free ptr) (h', s', dropPages ret ptr held)
  | map {h : SegmentHolder} {s s' : State} {held : List Segment} {os : Os} {size : Nat}
      {seg : Segment} : segAllocate os size s = some (seg, s') →
      PageStep (h, s, held) .map (h, s', held)
  | unmap {h : SegmentHolder} {s : State} {held : List Segment} {seg : Segment} :
      seg ∈ s.mapped → seg ∉ held → PageStep (h, s, held) .unmap (h, segDeallocate seg s, held)

/-! ## The invariant -/

/-- The kernel's segments are apart, and the map says which of them are out. -/
structure PagesInv [Hashable PtrHolder] (h : SegmentHolder) (s : State) (held : List Segment) :
    Prop where
  apart : s.mapped.Pairwise Segment.Apart
  valid : ∀ seg ∈ s.mapped, seg.Valid
  mapped : ∀ seg ∈ held, seg ∈ s.mapped
  pages : ∀ seg ∈ held, seg.length &&& pageMask = 0
  nodup : (held.map Segment.ptr).Nodup
  noMap : h.sizeMap = none → held = []
  map : ∀ {m}, h.sizeMap = some m → m.Wf ∧ ∀ p n, m.lookup ⟨p⟩ = some n ↔ ⟨p, n⟩ ∈ held

section Steps

variable [Hashable PtrHolder] {h h' : SegmentHolder} {s s' : State} {held : List Segment}

/-- The map that a call finds or makes. -/
theorem PagesInv.getD (hi : PagesInv h s held) :
    (h.sizeMap.getD HashMap.new).Wf ∧
      ∀ p n, (h.sizeMap.getD HashMap.new).lookup ⟨p⟩ = some n ↔ ⟨p, n⟩ ∈ held := by
  cases hm : h.sizeMap with
  | none =>
    rw [hi.noMap hm, Option.getD_none]
    refine ⟨wf_new, fun p n => iff_of_false (fun hl => ?_) List.not_mem_nil⟩
    have hnone : (HashMap.new : HashMap PtrHolder Nat).entries = [] := by
      rw [HashMap.entries, HashMap.new, HashMap.withCapacity]
      exact List.flatten_replicate_nil
    rw [HashMap.lookup, hnone] at hl
    cases hl
  | some m =>
    rw [Option.getD_some]
    exact hi.map hm

/-- The rest of the program has mapped a segment, or `page_alloc` has. -/
theorem PagesInv.grow (hi : PagesInv h s held) {os : Os} {size : Nat} {seg : Segment}
    (hseg : segAllocate os size s = some (seg, s')) :
    PagesInv h s' held ∧ seg.Valid ∧ seg.length = size ∧ seg ∈ s'.mapped ∧
      ∀ seg' ∈ held, seg'.ptr ≠ seg.ptr := by
  obtain ⟨hlen, hvalid, hapart, rfl⟩ := segAllocate_cases hseg
  refine ⟨⟨List.pairwise_cons.mpr ⟨hapart, hi.apart⟩, fun seg' hs => ?_, fun seg' hs => ?_,
    hi.pages, hi.nodup, hi.noMap, hi.map⟩, hvalid, hlen, List.mem_cons_self .., fun seg' hs => ?_⟩
  · rcases List.mem_cons.mp hs with rfl | hs
    · exact hvalid
    · exact hi.valid seg' hs
  · exact List.mem_cons_of_mem _ (hi.mapped seg' hs)
  · have hm := hi.mapped seg' hs
    exact (hapart seg' hm).ptr_ne hvalid (hi.valid seg' hm)

/-- A segment goes that is not out, or no longer. -/
theorem PagesInv.shrink (hi : PagesInv h s held) {seg : Segment} (hnot : seg ∉ held) :
    PagesInv h (segDeallocate seg s) held := by
  refine ⟨hi.apart.sublist List.erase_sublist,
    fun seg' hs => hi.valid seg' (List.mem_of_mem_erase hs), fun seg' hs => ?_, hi.pages, hi.nodup,
    hi.noMap, hi.map⟩
  have hne : seg' ≠ seg := fun he => hnot (he ▸ hs)
  exact (List.mem_erase_of_ne hne).mpr (hi.mapped seg' hs)

/-- `page_alloc` answers as it does without the map. -/
inductive PageAnswer (os : Os) (size : Nat) (s : State) :
    Except AllocationError Nat → State → Prop
  | ok {p : Nat} {s' : State} : pageAlloc os size s = some (p, s') → PageAnswer os size s (.ok p) s'
  | error : pageAlloc os size s = none →
      PageAnswer os size s (.error (.allocationFailed size)) s

/-- **`page_alloc`** always answers, and notes what it gives. -/
theorem PagesInv.pageAlloc (hi : PagesInv h s held) (os : Os) (grows : Bool) (size : Nat) :
    ∃ r h' s', h.pageAlloc os grows size s = some (r, h', s') ∧
      PagesInv h' s' (addPages r size held) ∧ PageAnswer os size s r s' := by
  unfold SegmentHolder.pageAlloc SegmentHolder.pageAllocBy
  by_cases hmask : size &&& pageMask = 0
  case neg =>
    refine ⟨_, h, s, if_pos hmask, hi, .error ?_⟩
    rw [Apfmalloc.pageAlloc, if_pos hmask]
  rw [if_neg (not_not_intro hmask)]
  have hplain : Apfmalloc.pageAlloc os size s =
      (segAllocate os size s).map fun r => (r.1.ptr, r.2) := if_neg (not_not_intro hmask)
  obtain ⟨hwf, hlook⟩ := hi.getD
  cases hseg : segAllocate os size s with
  | none =>
    rw [hseg] at hplain
    refine ⟨_, _, s, rfl, ⟨hi.apart, hi.valid, hi.mapped, hi.pages, hi.nodup, fun hn => ?_,
      fun {m} hm => ?_⟩, .error hplain⟩
    · cases hn
    · obtain rfl := Option.some.inj hm
      exact ⟨hwf, hlook⟩
  | some r =>
    obtain ⟨seg, s'⟩ := r
    rw [hseg] at hplain
    obtain ⟨hg, hvalid, hlen, hmem, hnew⟩ := hi.grow hseg
    obtain ⟨m', k', hins, -, hst, -⟩ := hwf.insertKeepKey grows ⟨seg.ptr⟩ size
    have hinsert : (h.sizeMap.getD HashMap.new).insert grows ⟨seg.ptr⟩ size =
        some ((h.sizeMap.getD HashMap.new).lookup ⟨seg.ptr⟩, m') := by
      rw [HashMap.insert, hins]
      rfl
    have heq : (⟨seg.ptr, size⟩ : Segment) = seg := by rw [← hlen]
    refine ⟨.ok seg.ptr, ⟨some m'⟩, s', ?_, ⟨hg.apart, hg.valid, fun seg' hs => ?_,
      fun seg' hs => ?_, ?_, fun hn => ?_, fun {m} hm => ?_⟩, .ok hplain⟩
    · simp only [hinsert]
      rfl
    · rcases List.mem_cons.mp hs with rfl | hs
      · exact heq ▸ hmem
      · exact hg.mapped seg' hs
    · rcases List.mem_cons.mp hs with rfl | hs
      · exact hmask
      · exact hi.pages seg' hs
    · refine List.nodup_cons.mpr ⟨fun hin => ?_, hi.nodup⟩
      obtain ⟨seg', hs, he⟩ := List.mem_map.mp hin
      exact hnew seg' hs he
    · cases hn
    · obtain rfl := Option.some.inj hm
      refine ⟨hst.wf, fun p n => ?_⟩
      rw [hst.lookup, addPages, List.mem_cons]
      by_cases hp : p = seg.ptr
      · subst hp
        rw [beq_self_eq_true, if_pos rfl, Option.some.injEq]
        refine ⟨fun hn => Or.inl (by rw [hn]), fun hor => ?_⟩
        rcases hor with he | hs
        · exact ((Segment.mk.injEq ..).mp he).2.symm
        · exact (hnew ⟨seg.ptr, n⟩ hs rfl).elim
      · have hne : ((⟨seg.ptr⟩ : PtrHolder) == ⟨p⟩) = false :=
          beq_eq_false_iff_ne.mpr fun he => hp ((PtrHolder.mk.injEq ..).mp he).symm
        rw [hne, if_neg Bool.false_ne_true, hlook]
        exact ⟨Or.inr, fun hor => hor.resolve_left fun he => hp ((Segment.mk.injEq ..).mp he).1⟩

/-- **`page_free`** unmaps what is out at the address, or refuses. -/
theorem PagesInv.pageFree (hi : PagesInv h s held) {m : HashMap PtrHolder Nat}
    (hm : h.sizeMap = some m) (ptr : Nat) :
    (∃ seg ∈ held, seg.ptr = ptr ∧ ∃ h',
      h.pageFree ptr s = some (true, h', segDeallocate seg s) ∧
        PagesInv h' (segDeallocate seg s) (dropPages true ptr held)) ∨
    ((∀ seg ∈ held, seg.ptr ≠ ptr) ∧ h.pageFree ptr s = some (false, h, s)) := by
  obtain ⟨hwf, hlook⟩ := hi.map hm
  have hcontains := hwf.contains ⟨ptr⟩
  rcases hwf.remove ⟨ptr⟩ with ⟨hnone, -⟩ | ⟨size, m', hsome, hremove, hr, -⟩
  · refine Or.inr ⟨fun seg hs he => ?_, ?_⟩
    · rw [(hlook ptr seg.length).mpr (he ▸ hs)] at hnone
      cases hnone
    · rw [hnone] at hcontains
      simp only [SegmentHolder.pageFree, hm, hcontains, Option.bind_eq_bind, Option.bind_some,
        Option.isSome_none, Bool.false_eq_true, if_false]
  · have hin : ⟨ptr, size⟩ ∈ held := (hlook ptr size).mp hsome
    have hv := hi.valid _ (hi.mapped _ hin)
    have hunmap : munmap ⟨ptr, size⟩ s = (true, segDeallocate ⟨ptr, size⟩ s) :=
      if_pos ⟨hv.aligned, hv.length_pos⟩
    refine Or.inl ⟨⟨ptr, size⟩, hin, rfl, ⟨some m'⟩, ?_, ?_⟩
    · rw [hsome] at hcontains
      simp only [SegmentHolder.pageFree, hm, hcontains, hwf.get, hsome, hremove, hunmap,
        Option.bind_eq_bind, Option.bind_some, Option.isSome_some, if_true]
    · -- the map and the list lose the same entry
      have hmem : ∀ {seg}, seg ∈ dropPages true ptr held ↔ seg ∈ held ∧ seg.ptr ≠ ptr := by
        intro seg
        rw [dropPages, if_pos rfl, List.mem_filter, decide_eq_true_eq]
      refine ⟨hi.apart.sublist List.erase_sublist,
        fun seg hs => hi.valid seg (List.mem_of_mem_erase hs), fun seg hs => ?_,
        fun seg hs => hi.pages seg (hmem.mp hs).1, ?_, fun hn => ?_, fun {m₁} hm₁ => ?_⟩
      · obtain ⟨hs, hne⟩ := hmem.mp hs
        exact (List.mem_erase_of_ne fun he => hne (by rw [he])).mpr (hi.mapped seg hs)
      · rw [dropPages, if_pos rfl]
        exact hi.nodup.sublist (List.filter_sublist.map _)
      · cases hn
      · obtain rfl := Option.some.inj hm₁
        refine ⟨hr.wf, fun p n => ?_⟩
        rw [hr.lookup, hmem]
        by_cases hp : p = ptr
        · rw [hp, beq_self_eq_true, if_pos rfl]
          exact iff_of_false nofun fun hs => hs.2 rfl
        · have hne : ((⟨ptr⟩ : PtrHolder) == ⟨p⟩) = false :=
            beq_eq_false_iff_ne.mpr fun he => hp ((PtrHolder.mk.injEq ..).mp he).symm
          rw [hne, if_neg Bool.false_ne_true, hlook]
          exact ⟨fun hs => ⟨hs, hp⟩, fun hs => hs.1⟩

/-- Different pages that are out are different segments of the kernel. -/
theorem PagesInv.held_apart (hi : PagesInv h s held) {a b : Segment} (ha : a ∈ held) (hb : b ∈ held)
    (hne : a ≠ b) : a.Apart b := by
  have hall : s.mapped.Pairwise (fun a b => a = b ∨ a.Apart b) := hi.apart.imp Or.inr
  have hflip : s.mapped.Pairwise (flip fun a b => a = b ∨ a.Apart b) :=
    hi.apart.imp fun hab => Or.inr hab.symm
  have hrefl : ∀ a ∈ s.mapped, a = a ∨ a.Apart a := fun _ _ => Or.inl rfl
  exact (List.Pairwise.forall_of_forall_of_flip hrefl hall hflip (hi.mapped a ha)
    (hi.mapped b hb)).resolve_left hne

theorem pageStep_inv {p p' : SegmentHolder × State × List Segment} {op : PageOp}
    (hi : PagesInv p.1 p.2.1 p.2.2) (hstep : PageStep p op p') :
    PagesInv p'.1 p'.2.1 p'.2.2 := by
  cases hstep with
  | @alloc _ _ _ _ _ os grows size _ hcall =>
    obtain ⟨r, h', s', hcall', hi', -⟩ := hi.pageAlloc os grows size
    rw [hcall', Option.some.injEq, Prod.mk.injEq, Prod.mk.injEq] at hcall
    obtain ⟨rfl, rfl, rfl⟩ := hcall
    exact hi'
  | @allocOverCommit _ _ _ _ _ os grows size _ hcall =>
    obtain ⟨r, h', s', hcall', hi', -⟩ := hi.pageAlloc os grows size
    obtain ⟨rfl, rfl, rfl⟩ := Prod.mk.injEq .. ▸ Option.some.inj (hcall'.symm.trans hcall)
    exact hi'
  | @free h _ _ _ _ ptr _ hcall =>
    cases hm : h.sizeMap with
    | none =>
      rw [SegmentHolder.pageFree, hm] at hcall
      cases hcall
    | some m =>
      rcases hi.pageFree hm ptr with ⟨seg, -, -, h', hcall', hi'⟩ | ⟨-, hcall'⟩
      · rw [hcall', Option.some.injEq, Prod.mk.injEq, Prod.mk.injEq] at hcall
        obtain ⟨rfl, rfl, rfl⟩ := hcall
        exact hi'
      · rw [hcall', Option.some.injEq, Prod.mk.injEq, Prod.mk.injEq] at hcall
        obtain ⟨rfl, rfl, rfl⟩ := hcall
        exact hi
  | map hseg => exact (hi.grow hseg).1
  | unmap _ hnot => exact hi.shrink hnot

end Steps

/-- An address as its own hash. -/
@[reducible] def PtrHolder.hashAddr : Hashable PtrHolder := ⟨fun k => UInt64.ofNat k.ptr⟩

end Apfmalloc
