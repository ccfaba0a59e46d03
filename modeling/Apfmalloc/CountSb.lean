import Apfmalloc.Alloc

/-!
# The tuner's refill describes more than it maps

`malloc_count_from_new_sb` maps `min(block_num, count)` blocks, but the
descriptor it fills in keeps the class's `max_count`, and `register_desc` writes
the page-map entries of a whole superblock. When the count is below `block_num`
the descriptor claims blocks past the end of its segment, and the entries past
the end belong to whatever is mapped there. `DescribesOwnSegment` is what a
descriptor should say, and it does exactly when the count covers the superblock.
-/

namespace Apfmalloc

open Base

/-- The descriptor `d` made between `s` and `s'` fits its segment, and registering
it changed entries of that segment's pages only; in particular no page of
another descriptor's segment. -/
structure DescribesOwnSegment (s s' : State) (d : Nat) (seg : Segment) : Prop where
  fits : (s'.descs d).maxCount * (s'.descs d).blockSize ≤ seg.length
  pages : ∀ k, s'.pageMap k ≠ s.pageMap k → PageOf seg.ptr (regionLen seg.length) k
  others : ∀ d' seg', d' ≠ d → (s'.descs d').superBlock = some seg' → seg'.Valid →
    seg' ∈ s.mapped → ∀ k, PageOf seg'.ptr (regionLen seg'.length) k → s'.pageMap k = s.pageMap k

/-- Entries outside a segment's pages are not those of a mapping apart from it. -/
theorem describes_others {s s' : State} {d : Nat} {seg : Segment} (hvalid : seg.Valid)
    (hapart : ∀ sg ∈ s.mapped, seg.Apart sg)
    (hpages : ∀ k, s'.pageMap k ≠ s.pageMap k → PageOf seg.ptr (regionLen seg.length) k) :
    ∀ d' seg', d' ≠ d → (s'.descs d').superBlock = some seg' → seg'.Valid → seg' ∈ s.mapped →
      ∀ k, PageOf seg'.ptr (regionLen seg'.length) k → s'.pageMap k = s.pageMap k := by
  intro d' seg' _ _ hv hmem k hk
  apply Decidable.byContradiction
  intro hne
  exact pageOf_disjoint hvalid.aligned hv.aligned (regionLen_mod _) (regionLen_mod _) hvalid.bound
    hv.bound (hapart seg' hmem) (hpages k hne) hk

/-- The reserved class has no superblocks: its blocks have no bytes to map. -/
theorem mallocCountFromNewSb_class {cfg : Cfg} {os : Os} {t c count n : Nat} {s s' : State}
    (h : mallocCountFromNewSb cfg os t c count s = some (n, s')) : 1 ≤ c ∧ c < maxSzIdx := by
  apply Decidable.byContradiction
  intro hc
  obtain ⟨d, s₁, seg, -, -, hlen, hvalid, -⟩ := newSuperBlock_cases h
  have hpos := hvalid.length_pos
  rw [hlen, Cfg.sizeClass, sizeClass_reserved hc, show reservedClass.blockSize = 0 from rfl,
    Nat.zero_mul] at hpos
  exact Nat.lt_irrefl 0 hpos

/-- **The tuner's refill is faithful exactly when it covers the superblock.** -/
theorem mallocCountFromNewSb_describes_iff {cfg : Cfg} {os : Os} {t c count n : Nat}
    {s s' : State} (h : mallocCountFromNewSb cfg os t c count s = some (n, s')) :
    ∃ d s₁ seg, Descriptor.alloc cfg os s = some (d, s₁) ∧ (s'.descs d).superBlock = some seg ∧
      (DescribesOwnSegment s s' d seg ↔ (cfg.sizeClass c).blockNum ≤ count) := by
  have hclass := mallocCountFromNewSb_class h
  have hspec := cfg.classSpec hclass.1 hclass.2
  obtain ⟨d, s₁, seg, halloc, -, hlen, hvalid, hapart, -, -, rfl⟩ := newSuperBlock_cases h
  obtain ⟨hpm, -, hmapped⟩ := alloc_pageMap halloc
  refine ⟨d, s₁, seg, halloc, by simp [newSbDesc], ?_⟩
  have hbs := hspec.blockSize_ge
  constructor
  · intro hd
    -- the descriptor's own count already does not fit a shorter segment
    have hfits := hd.fits
    simp only [newSbDesc, if_true, hlen, Nat.mul_comm (cfg.sizeClass c).blockNum] at hfits
    have := Nat.le_of_mul_le_mul_left hfits (by omega)
    omega
  · intro hle
    rw [Nat.min_eq_left hle, ← hspec.sbSize_eq] at hlen
    have hsb : (cfg.sizeClass c).sbSize / page * page = (cfg.sizeClass c).sbSize :=
      Nat.div_mul_cancel (Nat.dvd_of_mod_eq_zero hspec.sbSize_page)
    have hreg : regionLen seg.length = (cfg.sizeClass c).sbSize / page * page := by
      rw [hlen, hsb, regionLen_of_mod hspec.sbSize_page]
    have hpages : ∀ k, setPages s₁.pageMap seg.ptr (PageInfo.setPtr d 0)
        ((cfg.sizeClass c).sbSize / page) k ≠ s.pageMap k →
        PageOf seg.ptr (regionLen seg.length) k := by
      intro k hk
      have hbound := hvalid.bound
      rw [hreg] at hbound ⊢
      rw [pageOf_iff hvalid.aligned hbound]
      rw [setPages_apply, hpm] at hk
      by_cases hex : ∃ i < (cfg.sizeClass c).sbSize / page, k = addrToKey (seg.ptr + i * page)
      · exact hex
      · rw [if_neg hex] at hk
        exact absurd rfl hk
    refine ⟨?_, hpages, describes_others hvalid (fun sg hsg => hapart sg (hmapped sg hsg)) hpages⟩
    simp only [newSbDesc, if_true, hlen, hspec.sbSize_eq]
    exact Nat.le_of_eq (Nat.mul_comm _ _)

/-- A count of 2560 covers a superblock of class 1 in the default build. -/
theorem mallocCountFromNewSb_describes_whole :
    ∃ n s' d seg, mallocCountFromNewSb Cfg.default Os.bump 0 1 2560 startState = some (n, s') ∧
      (s'.descs d).superBlock = some seg ∧ DescribesOwnSegment startState s' d seg := by
  have h : (mallocCountFromNewSb Cfg.default Os.bump 0 1 2560 startState).isSome := by
    decide +kernel
  have hnum : (Cfg.default.sizeClass 1).blockNum ≤ 2560 := by decide +kernel
  obtain ⟨⟨n, s'⟩, h⟩ := Option.isSome_iff_exists.mp h
  obtain ⟨d, _, seg, -, hsb, hiff⟩ := mallocCountFromNewSb_describes_iff h
  exact ⟨n, s', d, seg, h, hsb, hiff.mpr hnum⟩

/-- A refill of one block of class 2, mapped right below a superblock of class 1:
its descriptor claims 40960 bytes of a 16-byte segment, and the neighbour's first
page now names it. -/
theorem mallocCountFromNewSb_overwrites_neighbour :
    ∃ n₁ s₁ n₂ s₂ n₃ s₃, mallocCountFromNewSb Cfg.default Os.bump 0 2 1 startState = some (n₁, s₁) ∧
      mallocFromNewSb Cfg.default (Os.hint (256 * page)) 0 1 s₁ = some (n₂, s₂) ∧
      mallocCountFromNewSb Cfg.default (Os.hint (255 * page)) 1 2 1 s₂ = some (n₃, s₃) ∧
      (s₂.descs 4224).superBlock = some ⟨256 * page, 20480⟩ ∧
      (s₃.descs 4352).superBlock = some ⟨255 * page, 16⟩ ∧
      s₂.pageMap 256 = ⟨4224⟩ ∧ s₃.pageMap 256 = ⟨4352⟩ ∧
      ¬DescribesOwnSegment s₂ s₃ 4352 ⟨255 * page, 16⟩ := by
  have hrun : ((mallocCountFromNewSb Cfg.default Os.bump 0 2 1 startState).any fun r₁ =>
      (mallocFromNewSb Cfg.default (Os.hint (256 * page)) 0 1 r₁.2).any fun r₂ =>
      (mallocCountFromNewSb Cfg.default (Os.hint (255 * page)) 1 2 1 r₂.2).any fun r₃ =>
      (r₂.2.descs 4224).superBlock = some ⟨256 * page, 20480⟩ ∧
        (r₃.2.descs 4352).superBlock = some ⟨255 * page, 16⟩ ∧
        r₂.2.pageMap 256 = ⟨4224⟩ ∧ r₃.2.pageMap 256 = ⟨4352⟩ ∧
        16 < (r₃.2.descs 4352).maxCount * (r₃.2.descs 4352).blockSize) = true := by
    decide +kernel
  simp only [Option.any_eq_true, decide_eq_true_eq, Prod.exists] at hrun
  obtain ⟨n₁, s₁, h₁, n₂, s₂, h₂, n₃, s₃, h₃, hc⟩ := hrun
  obtain ⟨hd₂, hd₃, hp₂, hp₃, hlong⟩ := hc
  exact ⟨n₁, s₁, n₂, s₂, n₃, s₃, h₁, h₂, h₃, hd₂, hd₃, hp₂, hp₃,
    fun hd => absurd hd.fits (Nat.not_le.mpr hlong)⟩

end Apfmalloc
