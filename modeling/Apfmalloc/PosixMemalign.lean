import Apfmalloc.AllocTotal

/-!
# `aligned_alloc` and `posix_memalign`

Three levels check an alignment, each in its own way. `posix_memalign` wants a multiple of
eight, zero included. `aligned_alloc` wants the size to be a multiple of the alignment, which
is a division, and answers NULL otherwise. `do_aligned_alloc` wants a power of two, but
`is_power_of_two` complements the bits of `x & (x - 1)` where it means to compare them with
zero, and lets everything through but zero. `posix_memalign` stores what it gets and
returns 0.
-/

namespace Apfmalloc

open Base

/-- Of `libc`. -/
def einval : Nat := 22
def enomem : Nat := 12

/-- `size % alignment` traps for the alignment zero. -/
def alignedAlloc (cfg : Cfg) (os : Os) (tuner : Option Nat) (t alignment size : Nat) (s : State) :
    Option (Nat × State) :=
  if alignment = 0 then none
  else if size % alignment ≠ 0 then some (0, s)
  else doAlignedAlloc cfg os tuner t alignment size s

/-- On macOS the alignment is at least 16. -/
def osAlignment (macos : Bool) (alignment : Nat) : Nat :=
  if macos then max alignment 16 else alignment

/-- `ptr` is where the pointer goes. -/
def posixMemalign (macos : Bool) (cfg : Cfg) (os : Os) (tuner : Option Nat)
    (t ptr alignment size : Nat) (s : State) : Option (Nat × State) :=
  if alignment % 8 ≠ 0 then some (einval, s)
  else do
    let (outPtr, s) ← alignedAlloc cfg os tuner t (osAlignment macos alignment) size s
    if ptr = 0 then some (enomem, s)
    else some (0, { s with mem := writeWord s.mem ptr outPtr })

/-! ## What passes for a power of two -/

section
variable {cfg : Cfg} {os : Os} {tuner : Option Nat} {t align size : Nat} {s s' : State}

/-- What passes the check gets NULL for a segment that is refused, and nothing else does. -/
theorem Ready.doAlignedAlloc_null_iff (h : Ready cfg s t) (hpow : isPowerOfTwo align = true) :
    doAlignedAlloc cfg os tuner t align size s = some (0, s) ↔
      page < alignSize size align ∧
        os.mmap s.mapped (alignedPages align (alignSize size align)) = none := by
  by_cases hbig : page < alignSize size align
  · rw [and_iff_right hbig]
    constructor
    · intro hres
      rcases doAlignedAlloc_segment hpow hbig hres with ⟨-, -, hnone⟩ | ⟨seg, hin, hnew, -⟩
      · exact hnone
      · exact absurd hin hnew
    · intro hnone
      rw [doAlignedAlloc, if_neg (by rw [hpow]; decide)]
      simp only [gt_iff_lt, hbig, if_true]
      rw [segAllocate, hnone]
  · refine iff_of_false (fun hres => ?_) fun hc => hbig hc.1
    rw [doAlignedAlloc_small hpow hbig] at hres
    obtain ⟨h1, h2, hbs⟩ := getSizeClass_spec cfg (le_maxSz_of_page hbig)
    exact ((h.cache_backed h1 h2 hbs).2 0 s hres).1 rfl

end

/-- **`is_power_of_two` is right** about zero and the powers of two, and about nothing
else. So `do_aligned_alloc` returns NULL with nothing changed for the alignment zero, and
for every other exactly if it asks the kernel for a segment and gets none. -/
theorem power_of_two_iff {cfg : Cfg} {s : State} {t align : Nat} (hready : Ready cfg s t)
    (halign : align < usizeSize) :
    ((isPowerOfTwo align = true ↔ ∃ j, align = 2 ^ j) ↔ align = 0 ∨ ∃ j, align = 2 ^ j) ∧
    ∀ (os : Os) (tuner : Option Nat) (size : Nat),
      doAlignedAlloc cfg os tuner t align size s = some (0, s) ↔
        align = 0 ∨ (page < alignSize size align ∧
          os.mmap s.mapped (alignedPages align (alignSize size align)) = none) := by
  refine ⟨?_, fun os tuner size => ?_⟩
  · rw [isPowerOfTwo_iff halign]
    by_cases h0 : align = 0
    · refine iff_of_true ⟨fun hne => absurd h0 hne, fun ⟨j, hj⟩ => ?_⟩ (Or.inl h0)
      have := Nat.two_pow_pos j
      omega
    · rw [or_iff_right h0]
      exact ⟨fun hiff => hiff.mp h0, fun hj => iff_of_true h0 hj⟩
  · by_cases h0 : align = 0
    · refine iff_of_true ?_ (Or.inl h0)
      rw [h0]
      rfl
    · rw [or_iff_right h0]
      exact hready.doAlignedAlloc_null_iff ((isPowerOfTwo_iff halign).mpr h0)

/-- The alignment zero, after `init_malloc`. -/
theorem power_of_two_zero :
    ∃ s₀ : State, initMalloc Os.bump = some s₀ ∧
      doAlignedAlloc Cfg.default Os.bump none 0 0 64 s₀ = some (0, s₀) := by
  have h : (initMalloc Os.bump).isSome = true := by decide +kernel
  obtain ⟨s₀, hinit⟩ := Option.isSome_iff_exists.mp h
  have hready : Ready Cfg.default s₀ 0 := (runInv_init hinit).ready 0
  exact ⟨s₀, hinit, ((power_of_two_iff hready (by decide)).2 Os.bump none 64).mpr (Or.inl rfl)⟩

/-- An alignment of 24 passes, and what comes out is not aligned to it. -/
theorem power_of_two_24 :
    isPowerOfTwo 24 = true ∧ (¬∃ j, 24 = 2 ^ j) ∧
      ∃ (s₀ s : State) (p : Nat), initMalloc Os.bump = some s₀ ∧
        doAlignedAlloc Cfg.default Os.bump none 0 24 5000 s₀ = some (p, s) ∧ p ≠ 0 ∧ p % 24 ≠ 0 := by
  have h : ((initMalloc Os.bump).any fun s₀ =>
      (doAlignedAlloc Cfg.default Os.bump none 0 24 5000 s₀).any fun r =>
        decide (r.1 ≠ 0 ∧ r.1 % 24 ≠ 0)) = true := by
    decide +kernel
  simp only [Option.any_eq_true, decide_eq_true_eq, Prod.exists] at h
  obtain ⟨s₀, hinit, p, s, hres, hp⟩ := h
  refine ⟨by decide, fun ⟨j, hj⟩ => ?_, s₀, s, p, hinit, hres, hp⟩
  rcases Nat.lt_or_ge j 5 with hlt | hge
  · have hpow : ∀ j < 5, 24 ≠ 2 ^ j := by decide
    exact hpow j hlt hj
  · have := Nat.pow_le_pow_right (by decide : 0 < 2) hge
    omega

/-! ## `posix_memalign` -/

/-- What is promised of a call with a place for the pointer: it returns, with 0 and memory
in that place, or with an error and the place as it was. -/
def MemalignOk (cfg : Cfg) (ptr alignment size : Nat) (s : State) (r : Option (Nat × State)) : Prop :=
  ∃ code s', r = some (code, s') ∧
    ((code = 0 ∧ readWord s'.mem ptr ≠ 0 ∧ readWord s'.mem ptr % alignment = 0 ∧
        Backed cfg s'.mapped (readWord s'.mem ptr) size) ∨
      ((code = einval ∨ code = enomem) ∧ readWord s'.mem ptr = readWord s.mem ptr))

/-- What it takes, for a power of two. On the reserve the next free byte has to be aligned
already. -/
def MemalignCond (macos : Bool) (cfg : Cfg) (os : Os) (tuner : Option Nat)
    (t alignment size : Nat) (s : State) : Prop :=
  let align := osAlignment macos alignment
  alignment % 8 ≠ 0 ∨ (align ∣ size ∧
    if page < alignSize size align then
      (os.serve s.mapped (alignedPages align (alignSize size align) :: descLens s)).isSome = true
    else CacheCond cfg os tuner t (alignSize size align) (getSizeClass (alignSize size align)) s ∧
      (s.panicking t = true ∨ s.useBootstrap = true →
        alignSize size align ≤ s.bootstrapReserve.avail →
          s.bootstrapReserve.next % alignment = 0))

section
variable {macos : Bool} {cfg : Cfg} {os : Os} {tuner : Option Nat} {t ptr al align size k j : Nat}
  {s : State}

theorem memalignOk_einval (h : al % 8 ≠ 0) :
    MemalignOk cfg ptr al size s (posixMemalign macos cfg os tuner t ptr al size s) := by
  rw [posixMemalign, if_pos h]
  exact ⟨einval, s, rfl, Or.inr ⟨Or.inl rfl, rfl⟩⟩

/-- Past the first check, all depends on what `aligned_alloc` returns. -/
theorem memalignOk_iff (hptr : ptr ≠ 0) (h8 : al % 8 = 0)
    (hlt : ∀ q s₁, alignedAlloc cfg os tuner t (osAlignment macos al) size s = some (q, s₁) →
      q < usizeSize) :
    MemalignOk cfg ptr al size s (posixMemalign macos cfg os tuner t ptr al size s) ↔
      ∃ q s₁, alignedAlloc cfg os tuner t (osAlignment macos al) size s = some (q, s₁) ∧
        q ≠ 0 ∧ q % al = 0 ∧ Backed cfg s₁.mapped q size := by
  rw [posixMemalign, if_neg (not_not_intro h8)]
  cases hres : alignedAlloc cfg os tuner t (osAlignment macos al) size s with
  | none =>
    refine iff_of_false (fun hok => ?_) fun hok => ?_
    · obtain ⟨_, _, hr, -⟩ := hok
      cases hr
    · obtain ⟨_, _, hr, -⟩ := hok
      cases hr
  | some r =>
    obtain ⟨q, s₁⟩ := r
    simp only [Option.bind_eq_bind, Option.bind_some, if_neg hptr]
    have hread : readWord (writeWord s₁.mem ptr q) ptr = q := readWord_writeWord (hlt q s₁ hres)
    constructor
    · intro ⟨code, s', hr, hok⟩
      cases hr
      rcases hok with ⟨-, hne, hmod, hback⟩ | ⟨hcode, -⟩
      · simp only [hread] at hne hmod hback
        exact ⟨q, s₁, rfl, hne, hmod, hback⟩
      · rcases hcode with hcode | hcode <;> cases hcode
    · intro ⟨q', s', hr, hne, hmod, hback⟩
      cases hr
      refine ⟨0, _, rfl, Or.inl ⟨rfl, ?_⟩⟩
      simp only [hread]
      exact ⟨hne, hmod, hback⟩

/-- After `init_malloc` a refill depends on the kernel. -/
theorem not_blockOk_refused {os₀ : Os} {s₀ : State} (hinit : initMalloc os₀ = some s₀) (c : Nat) :
    ¬BlockOk cfg Os.refuse t c s₀ := by
  have hpart := (quiet_init hinit).partialList c
  obtain ⟨seg, -, rfl⟩ := initMalloc_cases hinit
  intro h
  rcases h with hbin | ⟨P, hlinked, d, hd, -⟩ | hserve
  · exact hbin rfl
  · rw [hpart] at hlinked
    cases P with
    | nil => cases hd
    | cons d' P =>
      obtain ⟨n, hn, -⟩ := hlinked
      cases hn
  · rw [refillLens, hpart] at hserve
    simp only at hserve
    cases hlens : descLens _ ++ [(cfg.sizeClass c).sbSize] with
    | nil => exact absurd hlens (List.append_ne_nil_of_right_ne_nil _ (List.cons_ne_nil _ _))
    | cons len lens =>
      rw [hlens] at hserve
      cases hserve

/-- So there is no memory from a kernel that has nothing more to give. -/
theorem doAlignedAlloc_refused {os₀ : Os} {q : Nat} {s₀ s₁ : State}
    (hinit : initMalloc os₀ = some s₀)
    (h : doAlignedAlloc cfg Os.refuse tuner t align size s₀ = some (q, s₁)) : q = 0 := by
  have hready : Ready cfg s₀ t := (runInv_init hinit).ready t
  cases hpow : isPowerOfTwo align with
  | false =>
    rw [doAlignedAlloc, if_pos hpow] at h
    cases h
    rfl
  | true =>
    by_cases hbig : page < alignSize size align
    · rw [(hready.doAlignedAlloc_null_iff hpow).mpr ⟨hbig, rfl⟩] at h
      cases h
      rfl
    · rw [doAlignedAlloc_small hpow hbig] at h
      obtain ⟨h1, h2, hbs⟩ := getSizeClass_spec cfg (le_maxSz_of_page hbig)
      have hcond := (hready.cache_backed h1 h2 hbs).1.mp (by rw [h]; rfl)
      rw [CacheCond, if_neg ((quiet_init hinit).off t)] at hcond
      exact absurd hcond.1 (not_blockOk_refused hinit _)

theorem alignedAlloc_refused {os₀ : Os} {q : Nat} {s₀ s₁ : State}
    (hinit : initMalloc os₀ = some s₀)
    (h : alignedAlloc cfg Os.refuse tuner t align size s₀ = some (q, s₁)) : q = 0 := by
  unfold alignedAlloc at h
  split at h
  next => cases h
  next =>
    split at h
    next =>
      cases h
      rfl
    next => exact doAlignedAlloc_refused hinit h

/-! ## Powers of two -/

/-- A multiple of a power of two is rounded to no less. -/
theorem le_alignSize_of_dvd (hk : k < 64) (hsize : size < usizeSize) (hdvd : 2 ^ k ∣ size) :
    size ≤ alignSize size (2 ^ k) ∧ (2 ^ k < size → size + 2 ^ k ≤ usizeSize) := by
  have hfit : size + 2 ^ k ≤ usizeSize := by
    have hdvd' : 2 ^ k ∣ usizeSize - size :=
      Nat.dvd_sub (Nat.pow_dvd_pow 2 (by omega : k ≤ 64)) hdvd
    have := Nat.le_of_dvd (by omega) hdvd'
    omega
  refine ⟨?_, fun _ => hfit⟩
  unfold alignSize
  by_cases hlt : 2 ^ k < size
  · rw [if_pos hlt]
    exact (alignVal_bounds hk hfit).1
  · rw [if_neg hlt]
    exact Nat.not_lt.mp hlt

theorem mod_pow_of_le {q : Nat} (hj : j ≤ k) (h : q % 2 ^ k = 0) : q % 2 ^ j = 0 :=
  Nat.mod_eq_zero_of_dvd (Nat.dvd_trans (Nat.pow_dvd_pow 2 hj) (Nat.dvd_of_mod_eq_zero h))

/-- **A large request** is served if the kernel grants the segment and the descriptors. -/
theorem Ready.large_good_iff (h : Ready cfg s t) (hk : k < 64) (hj : j ≤ k)
    (hsize : size < usizeSize) (hbig : page < alignSize size (2 ^ k)) :
    (∃ q s₁, doAlignedAlloc cfg os tuner t (2 ^ k) size s = some (q, s₁) ∧ q ≠ 0 ∧
      q % 2 ^ j = 0 ∧ Backed cfg s₁.mapped q size) ↔
      (os.serve s.mapped (alignedPages (2 ^ k) (alignSize size (2 ^ k)) :: descLens s)).isSome := by
  have hpow := isPowerOfTwo_pow hk
  constructor
  · intro ⟨q, s₁, hres, hne, _⟩
    rcases (doAlignedAlloc_segment_isSome_iff hk hbig).mp (by rw [hres]; rfl) with hnone | hserve
    · rw [(h.doAlignedAlloc_null_iff hpow).mpr ⟨hbig, hnone⟩] at hres
      cases hres
      exact absurd rfl hne
    · exact hserve
  · intro hserve
    obtain ⟨⟨q, s₁⟩, hres⟩ := Option.isSome_iff_exists.mp
      ((doAlignedAlloc_segment_isSome_iff hk hbig).mpr (Or.inr hserve))
    rcases doAlignedAlloc_segment hpow hbig hres with ⟨-, -, hnone⟩ | ⟨seg, hmem, -, hv, hlen, rfl⟩
    · rw [Os.serve, hnone] at hserve
      cases hserve
    · have hl : (LargeReq.aligned (2 ^ k) size).Large := ⟨hsize, ⟨k, hk, rfl⟩, hbig⟩
      obtain ⟨hlo, -, hhi⟩ := hl.inside hv hlen
      have hle := Nat.le_trans (Nat.le_add_right _ _) hv.bound
      refine ⟨_, s₁, hres, Nat.ne_of_gt (Nat.lt_of_lt_of_le hv.pos hlo),
        mod_pow_of_le hj (alignedPtr_mod hk hv.aligned hle), .segment hmem hv hlo hhi⟩

/-- A block of the cache is aligned because of its class; the reserve has only pages and
what is left of them. -/
theorem Ready.small_aligned_iff (h : Ready cfg s t) (hk : k < 64) (hj : j ≤ k)
    (hwrap : 2 ^ k < size → size + 2 ^ k ≤ usizeSize) (hsmall : ¬page < alignSize size (2 ^ k))
    {q : Nat} {s₁ : State}
    (hres : doAlignedAlloc cfg os tuner t (2 ^ k) size s = some (q, s₁)) :
    q % 2 ^ j = 0 ↔ (s.panicking t = true ∨ s.useBootstrap = true →
      alignSize size (2 ^ k) ≤ s.bootstrapReserve.avail →
        s.bootstrapReserve.next % 2 ^ j = 0) := by
  obtain ⟨-, hpage, hdvd⟩ := alignSize_small hk hwrap hsmall
  obtain ⟨h1, h2, hbs⟩ := getSizeClass_spec cfg (le_maxSz_of_page hsmall)
  rw [doAlignedAlloc_small (isPowerOfTwo_pow hk) hsmall] at hres
  by_cases hmode : s.panicking t = true ∨ s.useBootstrap = true
  · rw [forall_prop_of_true hmode]
    rw [allocateToCache, if_pos hmode] at hres
    rcases bootstrapAllocate_cases hres with ⟨hroom, rfl, -⟩ | ⟨seg, hroom, -, hv, -, rfl, -⟩
    · rw [forall_prop_of_true hroom]
    · refine iff_of_true ?_ fun hle => absurd hle (Nat.not_le.mpr hroom)
      refine mod_pow_of_le hj (Nat.mod_eq_zero_of_dvd ?_)
      exact Nat.dvd_trans (pow_dvd_page hpage) (Nat.dvd_of_mod_eq_zero hv.aligned)
  · refine iff_of_true ?_ fun hm => absurd hm hmode
    have hin := ((h.cache _ h1 h2).allocate h1 h2 hmode _).1 tuner q s₁ hres
    refine mod_pow_of_le hj (hin.mod hpage ?_)
    rw [(cfg.classSpec h1 h2).blockSize_eq]
    exact hdvd

theorem Ready.small_good_iff (h : Ready cfg s t) (hk : k < 64) (hj : j ≤ k)
    (hsize : size < usizeSize) (hdvd : 2 ^ k ∣ size) (hsmall : ¬page < alignSize size (2 ^ k)) :
    (∃ q s₁, doAlignedAlloc cfg os tuner t (2 ^ k) size s = some (q, s₁) ∧ q ≠ 0 ∧
      q % 2 ^ j = 0 ∧ Backed cfg s₁.mapped q size) ↔
      CacheCond cfg os tuner t (alignSize size (2 ^ k)) (getSizeClass (alignSize size (2 ^ k))) s ∧
        (s.panicking t = true ∨ s.useBootstrap = true →
          alignSize size (2 ^ k) ≤ s.bootstrapReserve.avail →
            s.bootstrapReserve.next % 2 ^ j = 0) := by
  obtain ⟨hle, hwrap⟩ := le_alignSize_of_dvd hk hsize hdvd
  obtain ⟨h1, h2, hbs⟩ := getSizeClass_spec cfg (le_maxSz_of_page hsmall)
  obtain ⟨hiff, hmem⟩ := @h.cache_backed cfg os s t tuner _ _ h1 h2 hbs
  rw [← doAlignedAlloc_small (isPowerOfTwo_pow hk) hsmall] at hiff
  rw [← hiff]
  constructor
  · intro ⟨q, s₁, hres, _, hmod, _⟩
    exact ⟨by rw [hres]; rfl, (h.small_aligned_iff hk hj hwrap hsmall hres).mp hmod⟩
  · intro ⟨hsome, hnext⟩
    obtain ⟨⟨q, s₁⟩, hres⟩ := Option.isSome_iff_exists.mp hsome
    have hres' := hres
    rw [doAlignedAlloc_small (isPowerOfTwo_pow hk) hsmall] at hres'
    obtain ⟨hne, hback⟩ := hmem q s₁ hres'
    exact ⟨q, s₁, hres, hne, (h.small_aligned_iff hk hj hwrap hsmall hres).mpr hnext, hback.mono hle⟩

theorem Backed.ptr_lt {mapped : List Segment} {q : Nat} (h : Backed cfg mapped q size) :
    q < usizeSize := by
  have hle : q ≤ addrSpace := by
    cases h with
    | block hin _ =>
      obtain ⟨seg, -, hv, i, rfl, hend⟩ := hin
      have hb := hv.bound
      have hreg := (regionLen_bounds seg.length).1
      omega
    | @segment seg _ hv hlo hend =>
      have hb := hv.bound
      have hreg := (regionLen_bounds seg.length).1
      omega
  exact Nat.lt_of_le_of_lt hle (by decide)

theorem Ready.aligned_lt (h : Ready cfg s t) (hk : k < 64) (hsize : size < usizeSize) {q : Nat}
    {s₁ : State} (hres : doAlignedAlloc cfg os tuner t (2 ^ k) size s = some (q, s₁)) :
    q < usizeSize := by
  by_cases hbig : page < alignSize size (2 ^ k)
  · rcases doAlignedAlloc_segment (isPowerOfTwo_pow hk) hbig hres with
      ⟨rfl, -⟩ | ⟨seg, hmem, -, hv, hlen, rfl⟩
    · decide
    · have hl : (LargeReq.aligned (2 ^ k) size).Large := ⟨hsize, ⟨k, hk, rfl⟩, hbig⟩
      obtain ⟨hlo, -, hhi⟩ := hl.inside hv hlen
      have hback : Backed cfg s₁.mapped _ size := .segment hmem hv hlo hhi
      exact hback.ptr_lt
  · obtain ⟨h1, h2, hbs⟩ := getSizeClass_spec cfg (le_maxSz_of_page hbig)
    rw [doAlignedAlloc_small (isPowerOfTwo_pow hk) hbig] at hres
    exact ((h.cache_backed h1 h2 hbs).2 q s₁ hres).2.ptr_lt

theorem osAlignment_pow (macos : Bool) (hj : j < 64) :
    ∃ k, k < 64 ∧ j ≤ k ∧ osAlignment macos (2 ^ j) = 2 ^ k := by
  unfold osAlignment
  cases macos with
  | false => exact ⟨j, hj, Nat.le_refl _, rfl⟩
  | true =>
    rcases Nat.le_total j 4 with hle | hle
    · have := Nat.pow_le_pow_right (by decide : 0 < 2) hle
      exact ⟨4, by decide, hle, Nat.max_eq_right this⟩
    · have := Nat.pow_le_pow_right (by decide : 0 < 2) hle
      exact ⟨j, hj, Nat.le_refl _, Nat.max_eq_left this⟩

/-- **For a power of two** the condition is exact, in every state and with every kernel. -/
theorem Ready.memalign_iff (h : Ready cfg s t) (hptr : ptr ≠ 0) (hj : j < 64)
    (hsize : size < usizeSize) :
    MemalignOk cfg ptr (2 ^ j) size s (posixMemalign macos cfg os tuner t ptr (2 ^ j) size s) ↔
      MemalignCond macos cfg os tuner t (2 ^ j) size s := by
  unfold MemalignCond
  by_cases h8 : 2 ^ j % 8 = 0
  · obtain ⟨k, hk, hjk, hal⟩ := osAlignment_pow macos hj
    have hpos := Nat.two_pow_pos k
    have halloc : alignedAlloc cfg os tuner t (osAlignment macos (2 ^ j)) size s =
        if size % 2 ^ k ≠ 0 then some (0, s) else doAlignedAlloc cfg os tuner t (2 ^ k) size s := by
      rw [alignedAlloc, hal, if_neg (Nat.ne_of_gt hpos)]
    rw [memalignOk_iff hptr h8, or_iff_right (not_not_intro h8)]
    · simp only [hal] at halloc ⊢
      rw [halloc, Nat.dvd_iff_mod_eq_zero]
      by_cases hmod : size % 2 ^ k = 0
      · rw [if_neg (not_not_intro hmod), and_iff_right hmod]
        by_cases hbig : page < alignSize size (2 ^ k)
        · rw [if_pos hbig, h.large_good_iff hk hjk hsize hbig]
        · rw [if_neg hbig, h.small_good_iff hk hjk hsize (Nat.dvd_of_mod_eq_zero hmod) hbig]
      · rw [if_pos hmod]
        refine iff_of_false (fun hg => ?_) fun hg => hmod hg.1
        obtain ⟨q, s₁, hres, hne, -⟩ := hg
        cases hres
        exact hne rfl
    · intro q s₁ hres
      rw [halloc] at hres
      split at hres
      next =>
        cases hres
        decide
      next => exact h.aligned_lt hk hsize hres
  · exact iff_of_true (memalignOk_einval h8) (Or.inl h8)

/-- The checks of `aligned_alloc` are never reported. -/
theorem not_memalignOk (hptr : ptr ≠ 0) (h8 : al % 8 = 0)
    (h : osAlignment macos al = 0 ∨ ¬osAlignment macos al ∣ size) :
    ¬MemalignOk cfg ptr al size s (posixMemalign macos cfg os tuner t ptr al size s) := by
  have hzero : ∀ q s₁, alignedAlloc cfg os tuner t (osAlignment macos al) size s = some (q, s₁) →
      q = 0 := by
    intro q s₁ hres
    unfold alignedAlloc at hres
    split at hres
    next => cases hres
    next h0 =>
      rw [if_pos fun hmod => (h.resolve_left h0) (Nat.dvd_of_mod_eq_zero hmod)] at hres
      cases hres
      rfl
  rw [memalignOk_iff hptr h8 fun q s₁ hres => by rw [hzero q s₁ hres]; decide]
  intro ⟨q, s₁, hres, hne, _⟩
  exact hne (hzero q s₁ hres)

end

end Apfmalloc
