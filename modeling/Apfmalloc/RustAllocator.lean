import Apfmalloc.AllocTotal

/-!
# `apfmalloc/src/lib.rs`: the global allocator of Rust

`RustAllocator` gets a `Layout` and has to return pointers at multiples of its alignment.
`alloc` hands the alignment down to `do_aligned_alloc`. `alloc_zeroed` and `realloc` round
the size up to the alignment and go through `do_malloc`, which knows nothing of it: up to a
page the size classes align the block, above a page a block starts wherever the kernel
mapped its segment.

`Obtained` are the pointers a client can get with layouts of one alignment, by any chain of
calls. They are aligned exactly if the alignment is at most a page, or so large that nothing
can be mapped for it (`rust_allocator_aligned_iff`).
-/

namespace Apfmalloc

open Base

/-- A power-of-two alignment, and a size that does not overflow when rounded up to it. -/
structure Layout where
  size : Nat
  align : Nat
  pow : ∃ k < 64, align = 2 ^ k
  pos : 0 < size
  fits : size + align ≤ usizeSize

def calloc (cfg : Cfg) (os : Os) (tuner : Option Nat) (t num size : Nat) (s : State) :
    Option (Nat × State) :=
  if num * size < usizeSize then do
    let (ret, s) ← doMalloc cfg os tuner t (num * size) s
    some (ret, { s with mem := zeroFill s.mem ret (num * size) })
  else some (0, s)

namespace RustAllocator

def alloc (cfg : Cfg) (os : Os) (tuner : Option Nat) (t : Nat) (layout : Layout) (s : State) :
    Option (Nat × State) :=
  doAlignedAlloc cfg os tuner t layout.align layout.size s

def allocZeroed (cfg : Cfg) (os : Os) (tuner : Option Nat) (t : Nat) (layout : Layout)
    (s : State) : Option (Nat × State) :=
  calloc cfg os tuner t 1 (alignVal layout.size layout.align) s

def realloc (cfg : Cfg) (os : Os) (tuner tunerFree : Option Nat) (t ptr : Nat) (layout : Layout)
    (newSize : Nat) (s : State) : Option (Nat × State) :=
  doRealloc cfg os tuner tunerFree t ptr (alignVal newSize layout.align) s

end RustAllocator

/-- Thread `t` is off the bootstrap path, and its bins and what refills them are blocks. -/
structure OffBootstrap (cfg : Cfg) (s : State) (t : Nat) : Prop where
  mode : ¬(s.panicking t = true ∨ s.useBootstrap = true)
  cache : ∀ c, 1 ≤ c → c < maxSzIdx → CacheOk cfg s t c

/-- The pointers had with layouts of alignment `align`: by `alloc`, by `alloc_zeroed`, and
from one of them by `realloc`. -/
inductive Obtained (cfg : Cfg) (align : Nat) : Nat → Prop
  | alloc {os : Os} {tuner : Option Nat} {t p : Nat} {s s' : State} {layout : Layout} :
      layout.align = align → OffBootstrap cfg s t →
      RustAllocator.alloc cfg os tuner t layout s = some (p, s') → p ≠ 0 → Obtained cfg align p
  | allocZeroed {os : Os} {tuner : Option Nat} {t p : Nat} {s s' : State} {layout : Layout} :
      layout.align = align → OffBootstrap cfg s t →
      RustAllocator.allocZeroed cfg os tuner t layout s = some (p, s') → p ≠ 0 →
      Obtained cfg align p
  | realloc {os : Os} {tuner tunerFree : Option Nat} {t p q newSize : Nat} {s s' : State}
      {layout : Layout} :
      Obtained cfg align p → layout.align = align → 0 < newSize →
      newSize + align ≤ usizeSize → OffBootstrap cfg s t →
      RustAllocator.realloc cfg os tuner tunerFree t p layout newSize s = some (q, s') → q ≠ 0 →
      Obtained cfg align q

/-! ## Rounded sizes -/

section
variable {cfg : Cfg} {os : Os} {tuner tunerFree : Option Nat} {t k n p q : Nat} {s s' : State}

/-- **`do_malloc` of a rounded size** gives a multiple of an alignment up to a page, and
nothing for one that no segment can have. -/
theorem OffBootstrap.malloc_dvd (h : OffBootstrap cfg s t) (hk : k < 64) (hn : 0 < n)
    (hfits : n + 2 ^ k ≤ usizeSize) (halign : 2 ^ k ≤ page ∨ addrSpace ≤ 2 ^ k)
    (hres : doMalloc cfg os tuner t (alignVal n (2 ^ k)) s = some (p, s')) : 2 ^ k ∣ p := by
  have hb := alignVal_bounds hk hfits
  have hmod := alignVal_mod hk hfits
  generalize alignVal n (2 ^ k) = v at *
  have hle : 2 ^ k ≤ v := Nat.le_of_dvd (by omega) (Nat.dvd_of_mod_eq_zero hmod)
  by_cases hbig : maxSz < v
  · obtain ⟨seg, -, hv, hlen, rfl⟩ := (doMalloc_segment hbig).2 p s' hres
    rcases halign with hpage | hspace
    · exact Nat.dvd_trans (pow_dvd_page hpage) (Nat.dvd_of_mod_eq_zero hv.aligned)
    · -- the segment would be as long as the address space
      have hpos := hv.pos
      have hbound := hv.bound
      have hlpos := hv.length_pos
      have hreg := (regionLen_bounds seg.length).1
      have hceil := pageCeiling_ne_zero (n := v) (by omega) (by omega)
      omega
  · -- A block of a class: its size is a multiple of the alignment, and a superblock
    -- starts at a page.
    have hmax := Nat.not_lt.mp hbig
    have hpage : 2 ^ k ≤ page := halign.resolve_right fun hspace => by
      rw [maxSz_eq] at hmax
      rw [addrSpace] at hspace
      omega
    have h12 : k ≤ 12 := (Nat.pow_le_pow_iff_right (by omega : 1 < 2)).mp hpage
    obtain ⟨h1, h2, -⟩ := getSizeClass_spec cfg hmax
    rw [doMalloc, if_neg hbig] at hres
    have hin := ((h.cache _ h1 h2).allocate h1 h2 h.mode v).1 tuner p s' hres
    refine Nat.dvd_of_mod_eq_zero (hin.mod hpage ?_)
    rw [(cfg.classSpec h1 h2).blockSize_eq]
    exact classBlockSize_dvd h12 hmax (by omega) hmod

/-! ## The three methods -/

theorem OffBootstrap.alloc_dvd {layout : Layout} (h : OffBootstrap cfg s t)
    (hres : RustAllocator.alloc cfg os tuner t layout s = some (p, s')) : layout.align ∣ p := by
  obtain ⟨k, hk, hpow⟩ := layout.pow
  have hfits := layout.fits
  have hpos := Nat.two_pow_pos k
  rw [RustAllocator.alloc] at hres
  rw [hpow] at hres hfits ⊢
  rcases doAlignedAlloc_backed hk (by omega) (fun _ => hfits) h.mode h.cache hres with
    ⟨rfl, -⟩ | ⟨hmod, -⟩
  · exact Nat.dvd_zero _
  · exact Nat.dvd_of_mod_eq_zero hmod

theorem calloc_one (hn : n < usizeSize) (hres : calloc cfg os tuner t 1 n s = some (p, s')) :
    ∃ s₁, doMalloc cfg os tuner t n s = some (p, s₁) := by
  rw [calloc, Nat.one_mul, if_pos hn] at hres
  simp only [Option.bind_eq_bind, Option.bind_eq_some_iff, Prod.exists, Option.some.injEq,
    Prod.mk.injEq] at hres
  obtain ⟨ret, s₁, hm, rfl, -⟩ := hres
  exact ⟨s₁, hm⟩

/-- **A reallocation** stays where it was or is a `do_malloc`. -/
theorem doRealloc_cases (hres : doRealloc cfg os tuner tunerFree t p n s = some (q, s')) :
    q = p ∨ ∃ s₁, doMalloc cfg os tuner t n s = some (q, s₁) := by
  unfold doRealloc at hres
  split at hres
  next => exact Or.inr ⟨s', hres⟩
  next =>
    split at hres
    next => exact Or.inr ⟨s', hres⟩
    next =>
      split at hres
      next =>
        -- the block has room for the new size
        cases hres
        exact Or.inl rfl
      next =>
        simp only [Option.bind_eq_bind, Option.bind_eq_some_iff, Prod.exists, Option.some.injEq,
          Prod.mk.injEq] at hres
        obtain ⟨r, s₁, hm, s₂, -, rfl, -⟩ := hres
        exact Or.inr ⟨s₁, hm⟩

/-- **Every pointer of a client** is aligned, up to a page. -/
theorem Obtained.dvd {align : Nat} (halign : align ≤ page ∨ addrSpace ≤ align)
    (h : Obtained cfg align p) : align ∣ p := by
  induction h with
  | alloc hal hoff hres _ =>
    rw [← hal]
    exact hoff.alloc_dvd hres
  | @allocZeroed os tuner t p s s' layout hal hoff hres _ =>
    obtain ⟨k, hk, hpow⟩ := layout.pow
    have hfits := layout.fits
    rw [RustAllocator.allocZeroed] at hres
    rw [hpow] at hres hfits hal
    subst hal
    have hb := alignVal_bounds hk hfits
    obtain ⟨s₁, hm⟩ := calloc_one (by omega) hres
    exact hoff.malloc_dvd hk layout.pos hfits halign hm
  | @realloc os tuner tunerFree t p q newSize s s' layout _ hal hpos hfits hoff hres _ ih =>
    obtain ⟨k, hk, hpow⟩ := layout.pow
    rw [RustAllocator.realloc] at hres
    rw [hpow] at hres hal
    subst hal
    rcases doRealloc_cases hres with rfl | ⟨s₁, hm⟩
    · -- in place: the pointer was aligned when it was had
      exact ih
    · exact hoff.malloc_dvd hk hpos hfits halign hm

end

/-! ## Above a page -/

/-- The first page above every mapping that is no multiple of two pages. -/
def oddTop (mapped : List Segment) : Nat := topOf mapped + (topOf mapped + page) % (2 * page)

theorem oddTop_page (mapped : List Segment) :
    topOf mapped ≤ oddTop mapped ∧ oddTop mapped % (2 * page) = page := by
  have hmod := (topOf_page mapped).2
  unfold oddTop
  rw [page_eq] at *
  omega

/-- A kernel that maps upwards and only at odd pages. -/
def Os.odd : Os where
  mmap mapped len :=
    if 0 < len ∧ oddTop mapped + regionLen len ≤ addrSpace then some (oddTop mapped) else none
  valid {mapped len p} h := by
    obtain ⟨hge, hmod⟩ := oddTop_page mapped
    have hpos := (topOf_page mapped).1
    rw [page_eq] at *
    split at h
    next hc =>
      obtain rfl := Option.some.inj h
      exact ⟨by simp only; omega, by rw [page_eq]; simp only; omega, hc.1, hc.2⟩
    next => cases h
  fresh {mapped len p} h := by
    intro seg hseg
    split at h
    next =>
      obtain rfl := Option.some.inj h
      exact Or.inr (Nat.le_trans (le_topOf hseg) (oddTop_page mapped).1)
    next => cases h

theorem Os.odd_mmap {mapped : List Segment} {len p : Nat} (h : Os.odd.mmap mapped len = some p) :
    p % (2 * page) = page := by
  unfold Os.odd at h
  simp only at h
  split at h
  next =>
    obtain rfl := Option.some.inj h
    exact (oddTop_page mapped).2
  next => cases h

/-- It maps a segment of up to half the address space right after `init_malloc`. -/
theorem Os.odd_grants : ∀ j < 48, 14 ≤ j → ((initMalloc Os.odd).bind fun s =>
    if ∀ seg ∈ s.mapped, seg.ptr % (2 * page) = page then
      Os.odd.serve s.mapped (descLens s ++ [pageCeiling (2 ^ j)]) else none).isSome := by
  decide +kernel

/-- **A misaligned pointer** for every alignment above a page for which a segment can be
mapped: with the kernel of the odd pages the first `alloc_zeroed` gives one. -/
theorem obtained_odd (cfg : Cfg) {k : Nat} (hk : 13 ≤ k) (hlt : k < 48) :
    ∃ p, Obtained cfg (2 ^ k) p ∧ p % (2 * page) = page := by
  obtain ⟨j, hj, hj', hkj⟩ : ∃ j, 14 ≤ j ∧ j < 48 ∧ k ≤ j := ⟨max k 14, by omega, by omega, by omega⟩
  have hpk : 2 ^ k ≤ 2 ^ 47 := Nat.pow_le_pow_right (by omega) (by omega)
  have hpj : 2 ^ j ≤ 2 ^ 47 := Nat.pow_le_pow_right (by omega) (by omega)
  have hj14 : 2 ^ 14 ≤ 2 ^ j := Nat.pow_le_pow_right (by omega) hj
  have hfits : 2 ^ j + 2 ^ k ≤ usizeSize := by
    rw [usizeSize_eq]
    omega
  -- The alignment divides the size, so rounding up leaves the size alone, and the size
  -- is above a page.
  let layout : Layout := ⟨2 ^ j, 2 ^ k, ⟨k, by omega, rfl⟩, Nat.two_pow_pos j, hfits⟩
  obtain ⟨mapped, hgrants⟩ := Option.isSome_iff_exists.mp (Os.odd_grants j hj' hj)
  obtain ⟨s, hinit, hif⟩ := Option.bind_eq_some_iff.mp hgrants
  split at hif
  next hodd =>
    have hbig : maxSz < 2 ^ j := by
      rw [maxSz_eq]
      omega
    obtain ⟨hmap, hseg⟩ := @doMalloc_segment cfg Os.odd s 0 none _ hbig
    rw [hif, Option.map_eq_some_iff] at hmap
    obtain ⟨⟨p, s₁⟩, hm, hmapped⟩ := hmap
    obtain ⟨seg, hmem, hv, -, rfl⟩ := hseg p s₁ hm
    have hptr := Os.serve_all Os.odd_mmap _ hif hodd seg (hmapped ▸ hmem)
    have hround : alignVal (2 ^ j) (2 ^ k) = 2 ^ j := alignVal_of_dvd (by omega) hfits
      (Nat.pow_dvd_pow 2 hkj)
    have hzero : RustAllocator.allocZeroed cfg Os.odd none 0 layout s =
        some (seg.ptr, { s₁ with mem := zeroFill s₁.mem seg.ptr (2 ^ j) }) := by
      show calloc cfg Os.odd none 0 1 (alignVal (2 ^ j) (2 ^ k)) s = _
      rw [hround, calloc, Nat.one_mul, if_pos (by rw [usizeSize_eq]; omega), hm]
      rfl
    have hoff : OffBootstrap cfg s 0 := ⟨(quiet_init hinit).off 0, fun c _ _ => cacheOk_init hinit 0 c⟩
    exact ⟨seg.ptr, .allocZeroed rfl hoff hzero (Nat.ne_of_gt hv.pos), hptr⟩
  next => cases hif

/-- **When the methods align.** Whatever the kernel and the states in between, the pointers
had with layouts of the alignment of `layout` are multiples of it exactly if it is at most
a page, or no less than the address space. -/
theorem rust_allocator_aligned_iff (cfg : Cfg) (layout : Layout) :
    (∀ p, Obtained cfg layout.align p → layout.align ∣ p) ↔
      layout.align ≤ page ∨ addrSpace ≤ layout.align := by
  refine ⟨fun h => ?_, fun halign p hp => hp.dvd halign⟩
  obtain ⟨k, hk, hpow⟩ := layout.pow
  rw [hpow] at h ⊢
  by_cases hlow : k ≤ 12
  · exact Or.inl (Nat.pow_le_pow_right (by omega) hlow : 2 ^ k ≤ 2 ^ 12)
  · by_cases hhigh : 48 ≤ k
    · exact Or.inr (Nat.pow_le_pow_right (by omega) hhigh : 2 ^ 48 ≤ 2 ^ k)
    · exfalso
      obtain ⟨p, hp, hodd⟩ := obtained_odd cfg (k := k) (by omega) (by omega)
      have hdvd : 2 ^ 13 ∣ p := Nat.dvd_trans (Nat.pow_dvd_pow 2 (by omega)) (h p hp)
      have := Nat.mod_eq_zero_of_dvd hdvd
      rw [page_eq] at hodd
      omega

/-- 16384 zeroed bytes at a multiple of 8192: `alloc` returns one, `alloc_zeroed` in the
same state does not. -/
theorem alloc_zeroed_misaligned :
    ∃ (layout : Layout) (s : State) (p q : Nat), layout.size = 16384 ∧ layout.align = 8192 ∧
      initMalloc Os.odd = some s ∧
      (∃ s', RustAllocator.alloc Cfg.default Os.odd none 0 layout s = some (q, s')) ∧
      8192 ∣ q ∧ (∃ s', RustAllocator.allocZeroed Cfg.default Os.odd none 0 layout s = some (p, s')) ∧
      p ≠ 0 ∧ ¬8192 ∣ p := by
  have h : ((initMalloc Os.odd).any fun s =>
      (RustAllocator.alloc Cfg.default Os.odd none 0
        ⟨16384, 8192, ⟨13, by decide, rfl⟩, by decide, by decide⟩ s).any fun r =>
      (RustAllocator.allocZeroed Cfg.default Os.odd none 0
        ⟨16384, 8192, ⟨13, by decide, rfl⟩, by decide, by decide⟩ s).any fun r' =>
      8192 ∣ r.1 ∧ r'.1 ≠ 0 ∧ ¬8192 ∣ r'.1) = true := by
    decide +kernel
  simp only [Option.any_eq_true, decide_eq_true_eq, Prod.exists] at h
  obtain ⟨s, hinit, q, s₁, hq, p, s₂, hp, hc⟩ := h
  exact ⟨_, s, p, q, rfl, rfl, hinit, ⟨s₁, hq⟩, hc.1, ⟨s₂, hp⟩, hc.2.1, hc.2.2⟩

end Apfmalloc
