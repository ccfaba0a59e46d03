import Apfmalloc.CacheOps

/-!
# What is asked of the kernel

An allocation asks the kernel for segments, one after the other: a block of
descriptors when the list has run out, and the superblock or the large segment. All
that can keep it from its result is a request that is refused. `Os.serve` makes a
list of requests, and the lemmas say of each function which requests decide whether
it returns.
-/

namespace Apfmalloc

open Base

/-- The mappings after the requests `lens` in turn. -/
def Os.serve (os : Os) : List Segment → List Nat → Option (List Segment)
  | mapped, [] => some mapped
  | mapped, len :: lens =>
    match os.mmap mapped len with
    | none => none
    | some p => os.serve (⟨p, len⟩ :: mapped) lens

theorem Os.serve_append (os : Os) (lens lens' : List Nat) :
    ∀ mapped, os.serve mapped (lens ++ lens') =
      (os.serve mapped lens).bind fun mapped => os.serve mapped lens' := by
  induction lens with
  | nil => intro mapped; rfl
  | cons len lens ih =>
    intro mapped
    rw [List.cons_append, Os.serve, Os.serve]
    cases os.mmap mapped len with
    | none => rfl
    | some p => exact ih _

/-- Whichever of the requests `lens` are made, in this order, are granted. -/
def Os.grants (os : Os) : List Segment → List Nat → Bool
  | _, [] => true
  | mapped, len :: lens =>
    os.grants mapped lens &&
      match os.mmap mapped len with
      | none => false
      | some p => os.grants (⟨p, len⟩ :: mapped) lens

theorem Os.grants_serve (os : Os) {lens lens' : List Nat} (hsub : lens'.Sublist lens) :
    ∀ {mapped : List Segment}, os.grants mapped lens = true →
      (os.serve mapped lens').isSome := by
  induction hsub with
  | slnil => intro mapped _; rfl
  | cons len _ ih =>
    intro mapped h
    rw [Os.grants, Bool.and_eq_true] at h
    exact ih h.1
  | cons_cons len _ ih =>
    intro mapped h
    rw [Os.grants, Bool.and_eq_true] at h
    have hmap := h.2
    rw [Os.serve]
    cases hp : os.mmap mapped len with
    | none =>
      rw [hp] at hmap
      cases hmap
    | some p =>
      rw [hp] at hmap
      exact ih hmap

/-- What holds of all that the kernel grants holds of the mappings. -/
theorem Os.serve_all {os : Os} {Q : Segment → Prop}
    (hQ : ∀ {mapped len p}, os.mmap mapped len = some p → Q ⟨p, len⟩) (lens : List Nat) :
    ∀ {mapped mapped' : List Segment}, os.serve mapped lens = some mapped' →
      (∀ seg ∈ mapped, Q seg) → ∀ seg ∈ mapped', Q seg := by
  induction lens with
  | nil =>
    intro mapped mapped' h hv
    cases h
    exact hv
  | cons len lens ih =>
    intro mapped mapped' h hv
    rw [Os.serve] at h
    cases hmap : os.mmap mapped len with
    | none =>
      rw [hmap] at h
      cases h
    | some p =>
      rw [hmap] at h
      refine ih h fun seg hseg => ?_
      rcases List.mem_cons.mp hseg with rfl | hseg
      · exact hQ hmap
      · exact hv seg hseg

/-- `allocate` is one request. -/
theorem segAllocate_serve (os : Os) (len : Nat) (s : State) :
    (segAllocate os len s).map (fun r => r.2.mapped) = os.serve s.mapped [len] := by
  unfold segAllocate Os.serve Os.serve
  cases os.mmap s.mapped len with
  | none => rfl
  | some p => rfl

/-- What `Descriptor::alloc` asks for. -/
def descLens (s : State) : List Nat :=
  match s.availableDesc.getDesc with
  | none => [descriptorBlockSz]
  | some _ => []

/-- The loop over a new block of descriptors always has a last one. -/
theorem linkFreeList_last (d : Nat) :
    ∀ (l : List Nat) (descs : Nat → Descriptor), (linkFreeList (some d) l descs).2.isSome := by
  intro l
  induction l generalizing d with
  | nil => intro descs; rfl
  | cons d' l ih =>
    intro descs
    rw [linkFreeList]
    exact ih d' _

/-- **`Descriptor::alloc` returns** if it gets its block. -/
theorem alloc_serve (cfg : Cfg) (os : Os) (s : State) :
    (Descriptor.alloc cfg os s).map (fun r => r.2.mapped) = os.serve s.mapped (descLens s) := by
  unfold Descriptor.alloc descLens
  simp only
  cases s.availableDesc.getDesc with
  | some d => rfl
  | none =>
    have hserve := segAllocate_serve os descriptorBlockSz s
    simp only [pageAlloc]
    rw [if_neg (by decide)]
    cases hseg : segAllocate os descriptorBlockSz s with
    | none =>
      rw [hseg] at hserve
      exact hserve
    | some r =>
      obtain ⟨seg, s₁⟩ := r
      obtain ⟨hlen, hvalid, -, -⟩ := segAllocate_cases hseg
      rw [hseg] at hserve
      simp only [Option.map_some, Option.bind_eq_bind, Option.bind_some] at hserve ⊢
      have hv : Segment.Valid ⟨seg.ptr, descriptorBlockSz⟩ := hlen ▸ hvalid
      obtain ⟨rest, hall, -⟩ := blockAddrs_spec cfg hv
      rw [hall, List.tail_cons]
      obtain ⟨prev, hprev⟩ := Option.isSome_iff_exists.mp (linkFreeList_last (seg.ptr + cfg.descSize)
        rest (linkPrev none (seg.ptr + cfg.descSize)
          (Descriptor.writeDefaults (seg.ptr :: (seg.ptr + cfg.descSize) :: rest) s₁.descs)))
      rw [linkFreeList]
      split
      next hnone =>
        rw [hnone] at hprev
        cases hprev
      next => exact hserve

/-- **A new superblock** is had exactly if the bin is empty and the kernel grants the
two requests. -/
theorem newSuperBlock_serve {cfg : Cfg} {os : Os} {t c count segLen : Nat} {s : State} (h1 : 1 ≤ c)
    (h2 : c < maxSzIdx) :
    (newSuperBlock cfg os t c count segLen s).isSome ↔
      (s.threadCache t c).blockNum = 0 ∧ (os.serve s.mapped (descLens s ++ [segLen])).isSome := by
  have hserve := alloc_serve cfg os s
  unfold newSuperBlock
  rw [Os.serve_append]
  cases halloc : Descriptor.alloc cfg os s with
  | none =>
    rw [halloc] at hserve
    rw [← hserve]
    simp
  | some r =>
    obtain ⟨d, s₁⟩ := r
    obtain ⟨-, htc, -⟩ := alloc_pageMap halloc
    have hserve₁ := segAllocate_serve os segLen s₁
    rw [halloc] at hserve
    rw [← hserve, Option.map_some, Option.bind_some, ← hserve₁]
    simp only [Option.bind_eq_bind, Option.bind_some]
    cases hseg : segAllocate os segLen s₁ with
    | none => simp
    | some r =>
      obtain ⟨seg, s₂⟩ := r
      obtain ⟨-, hvalid, -, rfl⟩ := segAllocate_cases hseg
      simp only [Option.bind_some, Option.map_some, Option.isSome_some, and_true]
      change (((s₁.threadCache t c).pushList seg.ptr count).bind _).isSome = true ↔ _
      rw [htc, ThreadCacheBin.pushList]
      by_cases hz : (s.threadCache t c).blockNum = 0
      · rw [if_neg (by omega), Option.bind_some,
          @registerDesc_heap _ _ c _ seg (by simp) (by simp) (Nat.ne_of_gt hvalid.pos),
          if_neg (not_not_intro (cfg.classSpec h1 h2).sbSize_mask)]
        exact iff_of_true rfl hz
      · rw [if_pos (by omega), Option.bind_none]
        exact iff_of_false Bool.false_ne_true hz

end Apfmalloc
