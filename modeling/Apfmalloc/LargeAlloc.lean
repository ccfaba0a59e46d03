import Apfmalloc.AllocRun

/-!
# Large allocations

A request above the largest size class, or an aligned one above a page, gets a
segment and a descriptor of its own. `Made` says what the two entry points leave
behind: the descriptor with the segment, and its address in the page map under the
first page of the segment and under the page of the pointer.

The length of the segment is kept as a `u32` in `block_size`, and `free`, `realloc`
and `get_allocation_size` all read it back as the class of the block. From `2^32`
bytes on the record is wrong, and it is right below (`large_recorded_iff`).
-/

namespace Apfmalloc

open Base

/-- A request for a segment of its own. -/
inductive LargeReq
  | malloc (size : Nat)
  | aligned (align size : Nat)
  deriving DecidableEq, Repr

namespace LargeReq

def size : LargeReq → Nat
  | malloc size => size
  | aligned _ size => size

/-- The length of the segment. -/
def pages : LargeReq → Nat
  | malloc size => pageCeiling size
  | aligned align size => alignedPages align (alignSize size align)

/-- The pointer handed out for a segment at `addr`. -/
def ptrAt (addr : Nat) : LargeReq → Nat
  | malloc _ => addr
  | aligned align _ => alignedPtr align addr

/-- The arguments are `usize` values, the alignment is a power of two, and the code
takes the branch for large requests. -/
def Large : LargeReq → Prop
  | malloc size => size < usizeSize ∧ maxSz < size
  | aligned align size => size < usizeSize ∧ (∃ k < 64, align = 2 ^ k) ∧
      page < alignSize size align

def run (cfg : Cfg) (os : Os) (tuner : Option Nat) (t : Nat) :
    LargeReq → State → Option (Nat × State)
  | malloc size => doMalloc cfg os tuner t size
  | aligned align size => doAlignedAlloc cfg os tuner t align size

end LargeReq

/-- From `s` to `s'` a large request was served from the new segment `seg` of
descriptor `d`; `s₂` is the state before the descriptor was filled in. -/
structure Made (req : LargeReq) (s s₂ s' : State) (d : Nat) (seg : Segment) (p : Nat) : Prop where
  addr : DescAddr d
  valid : seg.Valid
  length : seg.length = req.pages
  apart : ∀ sg ∈ s.mapped, seg.Apart sg
  mapped : seg ∈ s₂.mapped
  ptr : p = req.ptrAt seg.ptr
  pageMap : s₂.pageMap = s.pageMap
  threadCache : s₂.threadCache = s.threadCache
  descs : ∀ d' ∈ s.carved, s₂.descs d' = s.descs d'
  eq : s' = s₂.addLarge d seg.length seg p

theorem DescInv.map {s : State} {alloced free : List Nat} (h : DescInv s alloced free)
    (seg : Segment) (m : Mem) :
    DescInv { s with mapped := seg :: s.mapped, mem := m } alloced free := by
  refine h.frame rfl (fun _ _ => rfl) rfl fun d _ hm => ?_
  obtain ⟨sg, hsg, hin⟩ := hm
  exact ⟨sg, List.mem_cons_of_mem _ hsg, hin⟩

theorem le_alignedPtr {k ptr : Nat} (hk : k < 64) (hend : ptr ≤ addrSpace) :
    ptr ≤ alignedPtr (2 ^ k) ptr := by
  unfold alignedPtr
  split
  · have hpow : 2 ^ k ≤ 2 ^ 63 := Nat.pow_le_pow_right (by omega) (by omega)
    rw [alignAddr_eq_alignVal]
    refine (alignVal_bounds hk ?_).1
    rw [addrSpace] at hend
    rw [usizeSize_eq]
    omega
  · exact Nat.le_refl _

theorem LargeReq.made {cfg : Cfg} {os : Os} {tuner : Option Nat} {t p : Nat} {s s' : State}
    {alloced free : List Nat} {req : LargeReq} (h : DescInv s alloced free) (hl : req.Large)
    (hrun : req.run cfg os tuner t s = some (p, s')) (hp : p ≠ 0) :
    ∃ d seg s₂, d ∉ alloced ∧ Made req s s₂ s' d seg p := by
  cases req with
  | malloc size =>
    simp only [LargeReq.run, doMalloc, gt_iff_lt, hl.2, if_true, Option.bind_eq_bind,
      Option.bind_eq_some_iff, Prod.exists, Option.some.injEq, Prod.mk.injEq] at hrun
    obtain ⟨d, s₁, halloc, seg, s₂, hseg, s₃, hreg, rfl, rfl⟩ := hrun
    obtain ⟨hnew, hf, free', hdesc⟩ := h.alloc halloc
    obtain ⟨hlen, hvalid, hapart, rfl⟩ := segAllocate_cases hseg
    have haddr : DescAddr d := hdesc.addr d (hdesc.alloced_carved (List.mem_cons_self ..))
    rw [registerDesc_large haddr (Nat.ne_of_gt hvalid.pos), Option.some.injEq] at hreg
    refine ⟨d, seg, { s₁ with mapped := seg :: s₁.mapped,
                              mem := zeroFill s₁.mem seg.ptr (regionLen (pageCeiling size)) },
      hnew, haddr, hvalid, hlen, fun sg hsg => hapart sg (hf.mapped sg hsg),
      List.mem_cons_self .., rfl, hf.pageMap, hf.threadCache, hf.descs, ?_⟩
    rw [← hreg, hlen]
  | aligned align size =>
    obtain ⟨-, ⟨k, hk, rfl⟩, hbig⟩ := hl
    have hpow := isPowerOfTwo_pow hk
    simp only [LargeReq.run, doAlignedAlloc, hpow, Bool.true_eq_false, if_false, gt_iff_lt, hbig,
      if_true] at hrun
    cases hseg : segAllocate os (alignedPages (2 ^ k) (alignSize size (2 ^ k))) s with
    | none =>
      -- the kernel refuses: the call returns null
      rw [hseg] at hrun
      simp only [Option.some.injEq, Prod.mk.injEq] at hrun
      exact absurd hrun.1.symm hp
    | some r =>
      obtain ⟨seg, s₁⟩ := r
      obtain ⟨hlen, hvalid, hapart, rfl⟩ := segAllocate_cases hseg
      rw [hseg] at hrun
      simp only [Option.bind_eq_bind, Option.bind_eq_some_iff, Prod.exists] at hrun
      obtain ⟨d, s₂, halloc, s₃, hreg, hres⟩ := hrun
      rw [← hlen] at hreg
      obtain ⟨hnew, hf, free', hdesc⟩ := (h.map seg _).alloc halloc
      have haddr : DescAddr d := hdesc.addr d (hdesc.alloced_carved (List.mem_cons_self ..))
      rw [registerDesc_large haddr (Nat.ne_of_gt hvalid.pos), Option.some.injEq] at hreg
      subst hreg
      have hle := le_alignedPtr hk (Nat.le_trans (Nat.le_add_right _ _) hvalid.bound)
      rw [registerAligned_large haddr hvalid.pos hle, Option.some.injEq, Prod.mk.injEq] at hres
      obtain ⟨rfl, rfl⟩ := hres
      exact ⟨d, seg, s₂, hnew, haddr, hvalid, hlen, hapart, hf.mapped seg (List.mem_cons_self ..),
        rfl, hf.pageMap, hf.threadCache, hf.descs, rfl⟩

/-! ## The length of the segment -/

/-- `align_size` of a request above the classes, when it does not wrap to nothing. -/
theorem alignSize_large {size k : Nat} (hk : k < 64) (hs : size < usizeSize)
    (hne : alignSize size (2 ^ k) ≠ 0) :
    size ≤ alignSize size (2 ^ k) ∧ alignSize size (2 ^ k) < usizeSize ∧
      alignSize size (2 ^ k) % 2 ^ k = 0 ∧
      (alignSize size (2 ^ k) = 2 ^ k ∨
        2 ^ k < size ∧ alignSize size (2 ^ k) < size + 2 ^ k) := by
  unfold alignSize at *
  by_cases hlt : 2 ^ k < size
  · rw [if_pos hlt] at hne ⊢
    have hfit : size + 2 ^ k ≤ usizeSize :=
      Nat.not_lt.mp fun hw => hne (alignVal_wrap hk hs hw)
    have hb := alignVal_bounds hk hfit
    exact ⟨hb.1, Nat.lt_of_lt_of_le hb.2 hfit, alignVal_mod hk hfit, .inr ⟨hlt, hb.2⟩⟩
  · rw [if_neg hlt]
    exact ⟨Nat.not_lt.mp hlt, Nat.pow_lt_pow_right (by omega) hk, Nat.mod_self _, .inl rfl⟩

/-- Without a wrap, a number of pages is its own ceiling. -/
theorem pageCeiling_of_dvd {n : Nat} (h : n % page = 0) (hn : n + page ≤ usizeSize) :
    pageCeiling n = n :=
  alignVal_of_dvd (k := 12) (by decide) hn (Nat.dvd_of_mod_eq_zero h)

/-- `page_ceiling!` of what fits, when it is not nothing. -/
theorem pageCeiling_ne_zero {n : Nat} (hn : n < usizeSize) (h : pageCeiling n ≠ 0) :
    n ≤ pageCeiling n ∧ pageCeiling n < n + page :=
  pageCeiling_bounds (Nat.not_lt.mp fun hw => h (pageCeiling_wrap hn hw))

theorem mod_u32_lt {n size m : Nat} (hn : u32Size ≤ n) (h : n < size + m) (hm : m ≤ u32Size) :
    n % u32Size < size := by
  have hle : n % u32Size ≤ n - u32Size := by
    rw [Nat.mod_eq_sub_mod hn]
    exact Nat.mod_le _ _
  omega

/-- The next multiple of a power of two is at most `2^64`. -/
theorem add_pow_le {n k : Nat} (hk : k < 64) (hn : n < usizeSize) (hmod : n % 2 ^ k = 0) :
    n + 2 ^ k ≤ usizeSize := by
  obtain ⟨a, rfl⟩ := Nat.dvd_of_mod_eq_zero hmod
  obtain ⟨b, hb⟩ : 2 ^ k ∣ usizeSize := Nat.pow_dvd_pow 2 (Nat.le_of_lt hk)
  rw [hb] at hn ⊢
  have hab : a < b := Nat.lt_of_mul_lt_mul_left hn
  calc 2 ^ k * a + 2 ^ k = 2 ^ k * (a + 1) := (Nat.mul_succ _ _).symm
    _ ≤ 2 ^ k * b := Nat.mul_le_mul_left _ hab

/-- A segment that is not empty has room for the rounded size, and for the alignment
when the pointer may have to move. -/
theorem alignedPages_ge {k asz : Nat} (hk : k < 64) (hlt : asz < usizeSize)
    (hmod : asz % 2 ^ k = 0) (hne : alignedPages (2 ^ k) asz ≠ 0) :
    asz ≤ alignedPages (2 ^ k) asz ∧ maxSz < alignedPages (2 ^ k) asz ∧
      (page < 2 ^ k → asz + 2 ^ k ≤ alignedPages (2 ^ k) asz) := by
  have hsum := add_pow_le hk hlt hmod
  have hpow : 2 ^ k ≤ 2 ^ 63 := Nat.pow_le_pow_right (by omega) (by omega)
  have hm := maxSz_eq
  have hu := usizeSize_eq
  unfold alignedPages at *
  simp only [gt_iff_lt] at hne ⊢
  by_cases hov : page < 2 ^ k
  · simp only [hov, if_true, true_imp_iff] at hne ⊢
    rcases Nat.lt_or_ge (max asz (maxSz + 1) + 2 ^ k) usizeSize with hfit | hfull
    · rw [Nat.mod_eq_of_lt hfit] at hne ⊢
      have hb := (pageCeiling_ne_zero hfit hne).1
      omega
    · -- the sum is exactly `2^64`, and the segment would be empty
      have heq : max asz (maxSz + 1) + 2 ^ k = usizeSize := by omega
      rw [heq, Nat.mod_self] at hne
      exact absurd (by decide) hne
  · simp only [hov, if_false, false_imp_iff, and_true] at hne ⊢
    have hb := (pageCeiling_ne_zero (by omega) hne).1
    omega

/-- The segment of an over-aligned request is the rounded size and the alignment. -/
theorem alignedPages_over {k asz : Nat} (hk : k < 64) (hov : page < 2 ^ k) (hbig : maxSz < asz)
    (hlt : asz < usizeSize) (hmod : asz % 2 ^ k = 0) (hne : alignedPages (2 ^ k) asz ≠ 0) :
    alignedPages (2 ^ k) asz = asz + 2 ^ k := by
  have h12 : 12 < k := (Nat.pow_lt_pow_iff_right (by omega : 1 < 2)).mp hov
  have hpg : page ∣ 2 ^ k := Nat.pow_dvd_pow 2 (show 12 ≤ k by omega)
  have hk64 : 2 ^ k ∣ usizeSize := Nat.pow_dvd_pow 2 (show k ≤ 64 by omega)
  have hsum : 2 ^ k ∣ asz + 2 ^ k :=
    Nat.dvd_add (Nat.dvd_of_mod_eq_zero hmod) (Nat.dvd_refl _)
  have hmax : max asz (maxSz + 1) = asz := Nat.max_eq_left hbig
  have hle := add_pow_le hk hlt hmod
  unfold alignedPages at *
  simp only [gt_iff_lt, hov, if_true, hmax] at hne ⊢
  rcases Nat.lt_or_eq_of_le hle with hlt' | heq
  · rw [Nat.mod_eq_of_lt hlt']
    have hdvd : page ∣ asz + 2 ^ k := Nat.dvd_trans hpg hsum
    refine pageCeiling_of_dvd (Nat.mod_eq_zero_of_dvd hdvd) ?_
    have hu : page ∣ usizeSize := Nat.dvd_trans hpg hk64
    rw [page_eq, usizeSize_eq] at *
    omega
  · rw [heq, Nat.mod_self] at hne
    exact absurd (by decide) hne

/-- **The length of the segment** is at least the request, and its low 32 bits are
less than the request as soon as they are not the whole length. -/
theorem LargeReq.pages_bounds {req : LargeReq} (hl : req.Large) (hsize : maxSz < req.size)
    (hne : req.pages ≠ 0) :
    req.size ≤ req.pages ∧ (u32Size ≤ req.pages → req.pages % u32Size < req.size) := by
  have hu := u32Size_eq
  have hpg := page_eq
  have hm := maxSz_eq
  cases req with
  | malloc size =>
    have hb := pageCeiling_ne_zero hl.1 hne
    exact ⟨hb.1, fun h => mod_u32_lt h hb.2 (by omega)⟩
  | aligned align size =>
    obtain ⟨hs, ⟨k, hk, rfl⟩, hbig⟩ := hl
    simp only [LargeReq.size, LargeReq.pages] at *
    obtain ⟨hle, hlt, hmod, hcases⟩ := alignSize_large hk hs (by omega)
    by_cases hov : page < 2 ^ k
    · rw [alignedPages_over hk hov (by omega) hlt hmod hne]
      refine ⟨by omega, fun h => ?_⟩
      -- below `2^32` the length is above the request by `2^32` at most, from there on
      -- its low bits are zero
      rcases Nat.lt_or_ge k 32 with h32 | h32
      · have hpow2 : 2 ^ (k + 1) ≤ u32Size := Nat.pow_le_pow_right (by omega) (by omega)
        rw [Nat.pow_succ] at hpow2
        rcases hcases with heq | ⟨hlt', hlt''⟩
        · have hexact : alignSize size (2 ^ k) + 2 ^ k = u32Size := by omega
          rw [hexact, Nat.mod_self]
          omega
        · exact mod_u32_lt (m := 2 ^ k * 2) h (by omega) hpow2
      · have hdvd : u32Size ∣ 2 ^ k := Nat.pow_dvd_pow 2 h32
        have hsum : u32Size ∣ alignSize size (2 ^ k) + 2 ^ k :=
          Nat.dvd_add (Nat.dvd_trans hdvd (Nat.dvd_of_mod_eq_zero hmod)) hdvd
        rw [Nat.mod_eq_zero_of_dvd hsum]
        omega
    · have hpages : alignedPages (2 ^ k) (alignSize size (2 ^ k)) =
          pageCeiling (alignSize size (2 ^ k)) := by
        unfold alignedPages
        simp only [gt_iff_lt, hov, if_false]
        rw [Nat.max_eq_left (by omega)]
      rw [hpages] at hne ⊢
      have hb := pageCeiling_ne_zero hlt hne
      exact ⟨by omega, fun h => mod_u32_lt (m := 2 * page) h (by omega) (by omega)⟩

/-- **The request lies in its segment**, from the pointer on. -/
theorem LargeReq.Large.inside {req : LargeReq} {seg : Segment} (hl : req.Large) (hv : seg.Valid)
    (hlen : seg.length = req.pages) :
    seg.ptr ≤ req.ptrAt seg.ptr ∧ req.ptrAt seg.ptr < seg.ptr + seg.length ∧
      req.ptrAt seg.ptr + req.size ≤ seg.ptr + seg.length := by
  have hpos := hv.length_pos
  have hne : req.pages ≠ 0 := by omega
  cases req with
  | malloc size =>
    have hb := pageCeiling_ne_zero hl.1 hne
    simp only [LargeReq.ptrAt, LargeReq.size, LargeReq.pages] at *
    omega
  | aligned align size =>
    obtain ⟨hs, ⟨k, hk, rfl⟩, hbig⟩ := hl
    simp only [LargeReq.ptrAt, LargeReq.size, LargeReq.pages] at *
    obtain ⟨hle, hlt, hmod, -⟩ := alignSize_large hk hs (by omega)
    obtain ⟨hge, -, hover⟩ := alignedPages_ge hk hlt hmod hne
    rw [← hlen] at hge hover
    have hbound := hv.bound
    have hreg := (regionLen_bounds seg.length).1
    have hu := usizeSize_eq
    have haddr : addrSpace = 281474976710656 := rfl
    unfold alignedPtr
    by_cases hov : 2 ^ k > page
    · -- the pointer moves up by less than the alignment, for which there is room
      have hroom := hover hov
      rw [if_pos hov, alignAddr_eq_alignVal]
      have hal := @alignVal_bounds seg.ptr k hk (by omega)
      omega
    · rw [if_neg hov]
      omega

/-! ## The record and its readers -/

/-- The record of a large block as `get_allocation_size`, the class lookup and
`do_free` read it. -/
structure Recorded (cfg : Cfg) (s : State) (ptr size : Nat) (seg : Segment) : Prop where
  size : ∃ n, getAllocationSize s ptr = some n ∧ size ≤ n
  sizeClass : getSizeClassIndex s (getPageInfoForPtr s ptr) = some 0
  free : ∀ tuner t, ∃ s', doFree cfg tuner t ptr s = some s' ∧
    s'.mapped = s.mapped.erase seg ∧ s'.threadCache = s.threadCache

/-- Nothing was done to the record of `ptr` from `s` to `s'`. -/
structure SameRecord (s s' : State) (d ptr : Nat) (seg : Segment) : Prop where
  desc : s'.descs d = s.descs d
  page : getPageInfoForPtr s' ptr = getPageInfoForPtr s ptr
  mapped : seg ∈ s'.mapped

section
variable {cfg : Cfg} {s s₂ s' s'' : State} {req : LargeReq} {d p : Nat} {seg : Segment}

theorem Made.record (h : Made req s s₂ s' d seg p) :
    (s'.descs d).superBlock = some seg ∧ (s'.descs d).blockSize = req.pages % u32Size ∧
      (s'.descs d).procHeap = none := by
  rw [h.eq, State.addLarge, State.setLarge, h.length]
  simp only [setDesc_same, and_self]

theorem Made.page (h : Made req s s₂ s' d seg p) : getPageInfoForPtr s' p = ⟨d⟩ := by
  rw [h.eq]
  exact if_pos rfl

/-- The record is read back as the length modulo `2^32`. -/
theorem Made.getAllocationSize_eq (h : Made req s s₂ s' d seg p)
    (hs : SameRecord s' s'' d p seg) :
    getAllocationSize s'' p = some (req.pages % u32Size) := by
  rw [getAllocationSize, hs.page, h.page, PageInfo.getDesc, if_neg (Nat.ne_of_gt h.addr.pos),
    Option.map_some, hs.desc, h.record.2.1]

/-- **A length below `2^32`** is recorded. -/
theorem Made.recorded (h : Made req s s₂ s' d seg p) (hs : SameRecord s' s'' d p seg)
    (hp : p ≠ 0) (hsize : maxSz < req.size) (hle : req.size ≤ req.pages)
    (hfit : req.pages < u32Size) : Recorded cfg s'' p req.size seg := by
  obtain ⟨hsuper, hblock, -⟩ := h.record
  rw [Nat.mod_eq_of_lt hfit] at hblock
  have hbig : maxSz < (s''.descs d).blockSize := by
    rw [hs.desc, hblock]
    omega
  have hpage : getPageInfoForPtr s'' p = ⟨d⟩ := hs.page.trans h.page
  have ho : Owns s'' d seg := by
    unfold Owns
    rw [hs.desc, hsuper]
  refine ⟨⟨_, h.getAllocationSize_eq hs, ?_⟩, ?_, fun tuner t =>
    ⟨Descriptor.retire d (s''.dropLarge d seg), ?_, rfl, rfl⟩⟩
  · rw [Nat.mod_eq_of_lt hfit]
    exact hle
  · exact getSizeClassIndex_large (PageInfo.getDesc_eq_some.mpr ⟨hpage, Nat.ne_of_gt h.addr.pos⟩) hbig
  · exact doFree_own h.addr.pos ho (Nat.ne_of_gt h.valid.pos) hbig hp hpage tuner t

/-- **From `2^32` bytes on** the record says less than was asked for. -/
theorem Made.not_recorded (h : Made req s s₂ s' d seg p) (hs : SameRecord s' s'' d p seg)
    (hlt : req.pages % u32Size < req.size) : ¬Recorded cfg s'' p req.size seg := by
  intro hr
  obtain ⟨n, hn, hle⟩ := hr.size
  rw [h.getAllocationSize_eq hs, Option.some.injEq] at hn
  omega

end

/-- **A large allocation is recorded** exactly when the bytes asked of the kernel are
fewer than `2^32`: as long as the record is not touched, its size is at least the
request, its class is 0 and a free releases its segment and fills no bin. -/
theorem large_recorded_iff {cfg : Cfg} {os : Os} {tuner : Option Nat} {t p : Nat} {s s' : State}
    {alloced free : List Nat} {req : LargeReq} (h : DescInv s alloced free) (hl : req.Large)
    (hsize : maxSz < req.size) (hrun : req.run cfg os tuner t s = some (p, s')) (hp : p ≠ 0) :
    ∃ d seg, seg.Valid ∧ (∀ sg ∈ s.mapped, seg.Apart sg) ∧ p = req.ptrAt seg.ptr ∧
      SameRecord s' s' d p seg ∧
      ∀ s'', SameRecord s' s'' d p seg →
        (Recorded cfg s'' p req.size seg ↔ req.pages < u32Size) := by
  obtain ⟨d, seg, s₂, -, hm⟩ := LargeReq.made h hl hrun hp
  have hne : req.pages ≠ 0 := by
    rw [← hm.length]
    exact Nat.ne_of_gt hm.valid.length_pos
  obtain ⟨hle, hmod⟩ := LargeReq.pages_bounds hl hsize hne
  refine ⟨d, seg, hm.valid, hm.apart, hm.ptr, ⟨rfl, rfl, ?_⟩, fun s'' hs => ⟨fun hr => ?_, ?_⟩⟩
  · rw [hm.eq]
    exact hm.mapped
  · exact Nat.not_le.mp fun hge => hm.not_recorded hs (hmod hge) hr
  · exact hm.recorded hs hp hsize hle

theorem getSizeClass_zero : getSizeClass 0 = 1 :=
  getSizeClass_eq (by decide) ⟨by decide, by decide, fun _ h1 h2 => by omega⟩

/-- A request of 20000 bytes. -/
theorem large_recorded_iff_small :
    ∃ (s₀ s : State) (p : Nat) (seg : Segment), initMalloc Os.bump = some s₀ ∧
      doMalloc Cfg.default Os.bump none 0 20000 s₀ = some (p, s) ∧
      Recorded Cfg.default s p 20000 seg := by
  have h : ((initMalloc Os.bump).any fun s₀ =>
      (doMalloc Cfg.default Os.bump none 0 20000 s₀).any fun r =>
      r.1 ≠ 0) = true := by
    decide +kernel
  simp only [Option.any_eq_true, decide_eq_true_eq, Prod.exists] at h
  obtain ⟨s₀, hinit, p, s, hmalloc, hp⟩ := h
  have hi : HeapInv Cfg.default s₀ Heap.start [] := heapInv_init hinit
  have hl : (LargeReq.malloc 20000).Large := ⟨by decide, by decide⟩
  obtain ⟨d, seg, -, -, -, hs, hiff⟩ := large_recorded_iff hi.desc hl (by decide) hmalloc hp
  exact ⟨s₀, s, p, seg, hinit, hmalloc, (hiff s hs).mpr (by decide)⟩

/-- The class and the free of a record that reads as no bytes at all. -/
theorem doFree_of_zero (cfg : Cfg) {s : State} {p : Nat} (hp : p ≠ 0)
    (h : getAllocationSize s p = some 0) (tuner : Option Nat) (t : Nat) :
    getSizeClassIndex s (getPageInfoForPtr s p) = some 1 ∧
      doFree cfg tuner t p s = freeSmall cfg tuner t 1 p s := by
  rw [getAllocationSize, Option.map_eq_some_iff] at h
  obtain ⟨d, hd, hzero⟩ := h
  have hle : (s.descs d).blockSize ≤ maxSz := hzero ▸ Nat.zero_le _
  have hclass : getSizeClass (s.descs d).blockSize = 1 := by rw [hzero, getSizeClass_zero]
  rw [getSizeClassIndex_class hd hle, doFree_eq_freeSmall hp hd hle, hclass]
  exact ⟨rfl, rfl⟩

/-- A request of `2^32` bytes is recorded as one of no bytes: its class is 1, and its
free keeps the segment and puts the pointer in a bin. -/
theorem large_record_wraps :
    ∃ (s₀ s s' : State) (p : Nat), initMalloc Os.bump = some s₀ ∧
      doMalloc Cfg.default Os.bump none 0 u32Size s₀ = some (p, s) ∧ p ≠ 0 ∧
      getAllocationSize s p = some 0 ∧
      getSizeClassIndex s (getPageInfoForPtr s p) = some 1 ∧
      doFree Cfg.default none 0 p s = some s' ∧ s'.mapped = s.mapped ∧
      (s'.threadCache 0 1).block = p ∧
      ∀ seg, ¬Recorded Cfg.default s p u32Size seg := by
  have h : ((initMalloc Os.bump).any fun s₀ =>
      (doMalloc Cfg.default Os.bump none 0 u32Size s₀).any fun r =>
      (freeSmall Cfg.default none 0 1 r.1 r.2).any fun s' =>
      r.1 ≠ 0 ∧ getAllocationSize r.2 r.1 = some 0 ∧ s'.mapped = r.2.mapped ∧
        (s'.threadCache 0 1).block = r.1) = true := by
    decide +kernel
  simp only [Option.any_eq_true, decide_eq_true_eq, Prod.exists] at h
  obtain ⟨s₀, hinit, p, s, hmalloc, s', hfree, hc⟩ := h
  obtain ⟨hp, hsize, hmapped, hhead⟩ := hc
  obtain ⟨hclass, hdo⟩ := doFree_of_zero Cfg.default hp hsize none 0
  refine ⟨s₀, s, s', p, hinit, hmalloc, hp, hsize, hclass, hdo.trans hfree, hmapped, hhead,
    fun seg hr => ?_⟩
  have hzero := hr.sizeClass
  rw [hclass] at hzero
  cases hzero

end Apfmalloc
