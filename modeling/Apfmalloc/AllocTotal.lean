import Apfmalloc.AlignedAlloc

/-!
# When an allocation returns

An allocation that cannot be had is meant to be answered with NULL. Only
`do_aligned_alloc` does so, when the kernel refuses the segment of a large request.
Everywhere else an `Err` of `allocate` ends in an `unwrap` (`none` here): in
`do_malloc`, in the refill of a bin, and for a block of descriptors. A size near
`usize::MAX` rounds up to 0 bytes, which no kernel grants, or to an alignment of 0
and a block of 8 bytes.

`alloc_sound_iff` says for every size, alignment and kernel when the call returns what
it should.
-/

namespace Apfmalloc

open Base

/-! ## Refills -/

/-- A superblock on the partial list of class `c` has not been emptied. -/
def HasPartial (s : State) (c : Nat) : Prop :=
  ∃ P, PartialLinked s (s.partialList c) P ∧ ∃ d ∈ P, (s.descs d).anchor.state ≠ .empty

/-- What a refill asks of the kernel when the partial list has no block for it; an
emptied descriptor on the list is used again. -/
def refillLens (cfg : Cfg) (c : Nat) (s : State) : List Nat :=
  match s.partialList c with
  | none => descLens s ++ [(cfg.sizeClass c).sbSize]
  | some _ => [(cfg.sizeClass c).sbSize]

section
variable {cfg : Cfg} {os : Os} {s s' : State} {t c : Nat}

theorem descLens_retire {d : Nat} (hd : DescAddr d) : descLens (Descriptor.retire d s) = [] := by
  rw [descLens, Descriptor.retire]
  simp only [getDesc_set hd]

/-- Whether `malloc_from_partial` finds a block, by induction on the list. -/
theorem ListOk.loop_result : ∀ (P : List Nat) {s : State} (fuel : Nat) {n : Nat},
    ListOk cfg s c P → mallocFromPartialLoop t c fuel s = some (n, s') →
    ((∃ d ∈ P, (s.descs d).anchor.state ≠ .empty) ∧ n ≠ 0) ∨
      (¬(∃ d ∈ P, (s.descs d).anchor.state ≠ .empty) ∧ n = 0 ∧
        descLens s' = if P = [] then descLens s else []) := by
  intro P
  induction P with
  | nil =>
    intro s fuel n h hloop
    have hhead : s.partialList c = none := h.linked
    cases fuel with
    | zero => cases hloop
    | succ fuel =>
      rw [mallocFromPartialLoop_none (listPopPartial_none hhead)] at hloop
      cases hloop
      refine Or.inr ⟨fun hex => ?_, rfl, rfl⟩
      obtain ⟨d, hd, -⟩ := hex
      exact List.not_mem_nil hd
  | cons d l ih =>
    intro s fuel n h hloop
    cases fuel with
    | zero => cases hloop
    | succ fuel =>
      obtain ⟨head, hpop, hhead⟩ := h.linked.pop fun x hx => h.addr x (List.mem_cons_of_mem _ hx)
      have hd := h.addr d (List.mem_cons_self ..)
      by_cases hempty : (s.descs d).anchor.state = .empty
      · rw [mallocFromPartialLoop_retire hpop hempty] at hloop
        have hsame : ∀ d' ∈ l, (Descriptor.retire d (s.setPartialList c head)).descs d' =
            s.descs d' := by
          intro d' hd'
          have hne : d' ≠ d := fun he => (List.nodup_cons.mp h.nodup).1 (he ▸ hd')
          rw [retire_other _ hne]
          rfl
        have hex : (∃ d' ∈ d :: l, (s.descs d').anchor.state ≠ .empty) ↔
            ∃ d' ∈ l, ((Descriptor.retire d (s.setPartialList c head)).descs d').anchor.state ≠
              .empty := by
          constructor
          · intro hx
            obtain ⟨d', hd', hne⟩ := hx
            rcases List.mem_cons.mp hd' with rfl | hd'
            · exact absurd hempty hne
            · exact ⟨d', hd', by rw [hsame d' hd']; exact hne⟩
          · intro hx
            obtain ⟨d', hd', hne⟩ := hx
            rw [hsame d' hd'] at hne
            exact ⟨d', List.mem_cons_of_mem _ hd', hne⟩
        rw [hex]
        refine (ih fuel (h.retire hhead) hloop).imp id fun hres => ⟨hres.1, hres.2.1, ?_⟩
        rw [hres.2.2, descLens_retire hd, if_neg (List.cons_ne_nil _ _), ite_self]
      · refine Or.inl ⟨⟨d, List.mem_cons_self .., hempty⟩, ?_⟩
        rw [mallocFromPartialLoop_take hpop hempty] at hloop
        obtain ⟨seg, bin, -, -, -, rfl, -⟩ := takeList_cases hloop
        exact Nat.one_ne_zero

/-- **A fill returns** if the partial list has a block or the kernel grants a
superblock. -/
theorem CacheOk.fill_isSome_iff (h : CacheOk cfg s t c) (h1 : 1 ≤ c) (h2 : c < maxSzIdx)
    (hnum : (s.threadCache t c).blockNum = 0) :
    (fillCache cfg os t c s).isSome ↔
      HasPartial s c ∨ (os.serve s.mapped (refillLens cfg c s)).isSome := by
  obtain ⟨P, hlist, hlen⟩ := h.list
  obtain ⟨n, s₁, hpart, hf⟩ := hlist.loop P (s.carved.length + 1) hnum (by omega)
  have hmp : mallocFromPartial t c s = some (n, s₁) := hpart
  have hhas : HasPartial s c ↔ ∃ d ∈ P, (s.descs d).anchor.state ≠ .empty := by
    constructor
    · intro hx
      obtain ⟨P', hlink, hx⟩ := hx
      rw [hlist.linked.unique hlink]
      exact hx
    · exact fun hx => ⟨P, hlist.linked, hx⟩
  unfold fillCache
  rw [hmp, hhas]
  simp only [Option.bind_eq_bind, Option.bind_some]
  rcases hlist.loop_result P _ hpart with ⟨hex, hn⟩ | ⟨hnex, rfl, hlens⟩
  · obtain ⟨hbn, -⟩ := hf.some hn
    simp only [hn, if_false, hbn, or_self, Option.isSome_some]
    exact iff_of_true trivial (Or.inl hex)
  · -- all of it was emptied: the superblock has to come from the kernel
    have hlens' : refillLens cfg c s = descLens s₁ ++ [(cfg.sizeClass c).sbSize] := by
      have hlink := hlist.linked
      unfold refillLens
      rw [hlens]
      cases P with
      | nil =>
        rw [show s.partialList c = none from hlink, if_pos rfl]
      | cons d l =>
        obtain ⟨node, hnode, -⟩ := hlink
        rw [hnode, if_neg (List.cons_ne_nil _ _), List.nil_append]
    have hnum₁ : (s₁.threadCache t c).blockNum = 0 := by
      rw [hf.none rfl]
      exact hnum
    have hserve : (mallocFromNewSb cfg os t c s₁).isSome ↔ (s₁.threadCache t c).blockNum = 0 ∧
        (os.serve s₁.mapped (descLens s₁ ++ [(cfg.sizeClass c).sbSize])).isSome :=
      newSuperBlock_serve h1 h2
    rw [or_iff_right hnex, hlens', ← hf.mapped]
    simp only [if_true]
    cases hnew : mallocFromNewSb cfg os t c s₁ with
    | none =>
      rw [hnew] at hserve
      rw [Option.bind_none]
      exact iff_of_false (fun hx => by cases hx) fun hx => by cases hserve.mpr ⟨hnum₁, hx⟩
    | some r =>
      obtain ⟨n', s₂⟩ := r
      obtain ⟨hn, -, hbn, -⟩ := mallocFromNewSb_blockIn h1 h2 hnew
      rw [hnew] at hserve
      simp only [Option.bind_some, hn, hbn, or_self, if_false, Option.isSome_some]
      exact iff_of_true trivial (hserve.mp rfl).2

/-! ## The cache -/

/-- The blocks the tuner demands after the pop can be had. It makes a demand only when
the pop emptied the bin. -/
def DemandOk (cfg : Cfg) (os : Os) (tuner : Option Nat) (t size c : Nat) (s : State) : Prop :=
  ∀ n p s₁, tuner = some n → cfg.useApf = true →
    allocateToCache cfg os none t size c s = some (p, s₁) → (s₁.threadCache t c).blockNum = 0 →
    (fetch cfg os t c n s₁).isSome

/-- The bin, the partial list or the kernel has a block for the request. -/
def BlockOk (cfg : Cfg) (os : Os) (t c : Nat) (s : State) : Prop :=
  (s.threadCache t c).blockNum ≠ 0 ∨ HasPartial s c ∨
    (os.serve s.mapped (refillLens cfg c s)).isSome

theorem CacheOk.allocate_isSome_iff (h : CacheOk cfg s t c) (h1 : 1 ≤ c) (h2 : c < maxSzIdx)
    (hmode : ¬(s.panicking t = true ∨ s.useBootstrap = true)) (size : Nat) :
    (allocateToCache cfg os none t size c s).isSome ↔ BlockOk cfg os t c s := by
  have htop : ∀ s₁, (s₁.threadCache t c).blockNum ≠ 0 → (s₁.threadCache t c).block ≠ 0 →
      (popTop cfg os none t c s₁).isSome := by
    intro s₁ hn hb
    rw [popTop, if_neg hn, popBlock_eq _ _ hn hb]
    rfl
  rw [allocateToCache_eq hmode]
  unfold BlockOk
  -- an empty bin depends on the fill, which leaves a block on top if it returns
  by_cases hz : (s.threadCache t c).blockNum = 0
  · rw [if_pos hz, ← h.fill_isSome_iff h1 h2 hz, or_iff_right (not_not_intro hz)]
    cases hfill : fillCache cfg os t c s with
    | none => exact Iff.rfl
    | some s₁ =>
      obtain ⟨-, hn, hblock⟩ := (h.fill h1 h2 hz).1 s₁ hfill
      exact iff_of_true (htop s₁ hn hblock.pos) rfl
  · rw [if_neg hz, Option.bind_some]
    exact iff_of_true (htop s hz (h.bin hz).pos) (Or.inl hz)

/-- What the tuner does after the pop. -/
theorem popTop_tuner {tuner : Option Nat} :
    popTop cfg os tuner t c s = (popTop cfg os none t c s).bind fun r =>
      match tuner with
      | some n =>
        if cfg.useApf ∧ (r.2.threadCache t c).blockNum = 0 then
          (fetch cfg os t c n r.2).map fun s => (r.1, s)
        else some r
      | none => some r := by
  unfold popTop
  by_cases hz : (s.threadCache t c).blockNum = 0
  · rw [if_pos hz, if_pos hz]
    rfl
  · rw [if_neg hz, if_neg hz]
    cases (s.threadCache t c).popBlock cfg.noMetStack s.mem with
    | none => rfl
    | some r =>
      obtain ⟨p, bin⟩ := r
      simp only [Option.bind_eq_bind, Option.bind_some]
      cases tuner with
      | none => rfl
      | some n =>
        simp only
        split
        next =>
          cases fetch cfg os t c n (s.setBin t c bin) <;> rfl
        next => rfl

theorem allocateToCache_tuner {tuner : Option Nat} {size : Nat}
    (hmode : ¬(s.panicking t = true ∨ s.useBootstrap = true)) :
    (allocateToCache cfg os tuner t size c s).isSome ↔
      (allocateToCache cfg os none t size c s).isSome ∧ DemandOk cfg os tuner t size c s := by
  have heq : allocateToCache cfg os tuner t size c s =
      (allocateToCache cfg os none t size c s).bind fun r =>
        match tuner with
        | some n =>
          if cfg.useApf ∧ (r.2.threadCache t c).blockNum = 0 then
            (fetch cfg os t c n r.2).map fun s => (r.1, s)
          else some r
        | none => some r := by
    rw [allocateToCache_eq hmode, allocateToCache_eq hmode, Option.bind_assoc]
    congr 1
    funext s₁
    exact popTop_tuner
  rw [heq]
  unfold DemandOk
  cases allocateToCache cfg os none t size c s with
  | none => exact iff_of_false (fun hx => by cases hx) fun hx => by cases hx.1
  | some r =>
    obtain ⟨p, s₁⟩ := r
    rw [Option.bind_some]
    cases tuner with
    | none => exact iff_of_true rfl ⟨rfl, fun _ _ _ hn => by cases hn⟩
    | some n =>
      simp only
      -- the demand is made only when the pop took the last block
      by_cases hc : cfg.useApf = true ∧ (s₁.threadCache t c).blockNum = 0
      · rw [if_pos hc, Option.isSome_map]
        refine ⟨fun hf => ⟨rfl, fun n' p' s' hn _ hs _ => ?_⟩, fun hf => ?_⟩
        · cases hn
          cases hs
          exact hf
        · exact hf.2 n p s₁ rfl hc.1 rfl hc.2
      · rw [if_neg hc]
        refine iff_of_true rfl ⟨rfl, fun n' p' s' _ hu hs hz => ?_⟩
        cases hs
        exact absurd ⟨hu, hz⟩ hc

/-! ## The bootstrap reserve -/

/-- What is left of the reserve is mapped. -/
def ReserveOk (s : State) : Prop :=
  ∃ seg ∈ s.mapped, seg.Valid ∧ seg.ptr ≤ s.bootstrapReserve.next ∧
    s.bootstrapReserve.next + s.bootstrapReserve.avail ≤ seg.ptr + seg.length

/-- The reserve or the kernel has the bytes. -/
def ReserveHas (os : Os) (size : Nat) (s : State) : Prop :=
  size ≤ s.bootstrapReserve.avail ∨
    (os.serve s.mapped [max s.bootstrapReserve.max size]).isSome

/-- Without the bytes the process ends. -/
theorem bootstrapAllocate_isSome (size : Nat) :
    (bootstrapAllocate os size s).isSome ↔ ReserveHas os size s := by
  unfold bootstrapAllocate ReserveHas
  simp only [gt_iff_lt]
  by_cases hroom : s.bootstrapReserve.avail < size
  · simp only [hroom, if_true, or_iff_right (Nat.not_le.mpr hroom)]
    rw [← segAllocate_serve, Option.isSome_map]
    cases segAllocate os (max s.bootstrapReserve.max size) s with
    | none => exact Iff.rfl
    | some r => exact Iff.rfl
  · simp only [hroom, if_false]
    exact iff_of_true rfl (Or.inl (Nat.not_lt.mp hroom))

/-- **The reserve** gives mapped bytes. -/
theorem ReserveOk.allocate (h : ReserveOk s) {size p : Nat}
    (hs : bootstrapAllocate os size s = some (p, s')) :
    ∃ seg ∈ s'.mapped, seg.Valid ∧ seg.ptr ≤ p ∧ p + size ≤ seg.ptr + seg.length := by
  rcases bootstrapAllocate_cases hs with ⟨hroom, rfl, rfl⟩ | ⟨seg, -, hlen, hv, -, rfl, rfl⟩
  · obtain ⟨seg, hseg, hv, hlo, hhi⟩ := h
    refine ⟨seg, hseg, hv, hlo, ?_⟩
    show s.bootstrapReserve.next + size ≤ _
    omega
  · refine ⟨seg, List.mem_cons_self .., hv, Nat.le_refl _, ?_⟩
    rw [hlen]
    exact Nat.add_le_add_left (Nat.le_max_right _ _) _

/-! ## Large requests -/

/-- **A large `do_malloc`** returns if the kernel grants its requests, and gives a whole
segment then. -/
theorem doMalloc_segment {tuner : Option Nat} {size : Nat} (hbig : maxSz < size) :
    (doMalloc cfg os tuner t size s).map (fun r => r.2.mapped) =
      os.serve s.mapped (descLens s ++ [pageCeiling size]) ∧
    ∀ p s', doMalloc cfg os tuner t size s = some (p, s') →
      ∃ seg ∈ s'.mapped, seg.Valid ∧ seg.length = pageCeiling size ∧ p = seg.ptr := by
  have hserve := alloc_serve cfg os s
  unfold doMalloc
  simp only [gt_iff_lt, hbig, if_true]
  rw [Os.serve_append]
  cases halloc : Descriptor.alloc cfg os s with
  | none =>
    rw [halloc] at hserve
    rw [← hserve]
    exact ⟨rfl, fun p s' hs => by cases hs⟩
  | some r =>
    obtain ⟨d, s₁⟩ := r
    rw [halloc] at hserve
    rw [← hserve, Option.map_some, Option.bind_some, ← segAllocate_serve]
    simp only [Option.bind_eq_bind, Option.bind_some]
    cases hseg : segAllocate os (pageCeiling size) s₁ with
    | none => exact ⟨rfl, fun p s' hs => by cases hs⟩
    | some r =>
      obtain ⟨seg, s₂⟩ := r
      obtain ⟨hlen, hv, -, rfl⟩ := segAllocate_cases hseg
      simp only [Option.bind_some, registerDesc_setLarge (Nat.ne_of_gt hv.pos)]
      refine ⟨rfl, fun p s' hs => ?_⟩
      cases hs
      exact ⟨seg, List.mem_cons_self .., hv, hlen, rfl⟩

end

/-! ## Every request -/

/-- The cache of thread `t` and, while it is in use, the reserve hold memory. -/
structure Ready (cfg : Cfg) (s : State) (t : Nat) : Prop where
  cache : ∀ c, 1 ≤ c → c < maxSzIdx → CacheOk cfg s t c
  reserve : s.panicking t = true ∨ s.useBootstrap = true → ReserveOk s

/-- So they do in every state of a run of mallocs, frees and client writes. -/
theorem RunInv.ready {cfg : Cfg} {s : State} {H : Heap} {live : List Live} (h : RunInv cfg s H live)
    (t : Nat) : Ready cfg s t := by
  refine ⟨fun c _ _ => ⟨fun hne => ?_, [], ⟨h.quiet.partialList c, List.nodup_nil,
    fun _ hd => (List.not_mem_nil hd).elim, fun _ hd => (List.not_mem_nil hd).elim⟩,
    Nat.zero_le _⟩, fun hmode => ?_⟩
  · have hholds := h.heap.block.holds t c
    cases hl : H.bins t c with
    | nil =>
      rw [hl] at hholds
      exact absurd hholds.num hne
    | cons x l =>
      rw [hl] at hholds
      obtain ⟨-, d, hb⟩ := (h.heap.block.binMem t c x).mp (by rw [hl]; exact List.mem_cons_self ..)
      rw [hholds.block_eq]
      exact hb.blockIn h.heap
  · exact absurd hmode (h.quiet.off t)

/-- The page map, the bins and the descriptors in use are what they were. -/
structure Unchanged (s s' : State) : Prop where
  pageMap : s'.pageMap = s.pageMap
  threadCache : s'.threadCache = s.threadCache
  descs : s'.descs = s.descs
  availableDesc : s'.availableDesc = s.availableDesc

/-- The call returned, with NULL and nothing changed or with `size` bytes. -/
def AllocSound (cfg : Cfg) (s : State) (size : Nat) (r : Option (Nat × State)) : Prop :=
  ∃ p s', r = some (p, s') ∧
    ((p = 0 ∧ Unchanged s s') ∨ (p ≠ 0 ∧ Backed cfg s'.mapped p size))

/-- What `allocate_to_cache` depends on. -/
def CacheCond (cfg : Cfg) (os : Os) (tuner : Option Nat) (t size c : Nat) (s : State) : Prop :=
  if s.panicking t = true ∨ s.useBootstrap = true then ReserveHas os size s
  else BlockOk cfg os t c s ∧ DemandOk cfg os tuner t size c s

/-- What `do_malloc` depends on. -/
def MallocCond (cfg : Cfg) (os : Os) (tuner : Option Nat) (t size : Nat) (s : State) : Prop :=
  if maxSz < size then (os.serve s.mapped (descLens s ++ [pageCeiling size])).isSome = true
  else CacheCond cfg os tuner t size (getSizeClass size) s

/-- What `do_aligned_alloc` depends on. -/
def AlignedCond (cfg : Cfg) (os : Os) (tuner : Option Nat) (t align size : Nat) (s : State) : Prop :=
  if page < alignSize size align then
    os.mmap s.mapped (alignedPages align (alignSize size align)) = none ∨
      (os.serve s.mapped (alignedPages align (alignSize size align) :: descLens s)).isSome = true
  else size ≤ alignSize size align ∧
    CacheCond cfg os tuner t (alignSize size align) (getSizeClass (alignSize size align)) s

section
variable {cfg : Cfg} {os : Os} {s : State} {t : Nat} {tuner : Option Nat}

/-- Memory the answer points to makes the call sound, so all it takes is to return. -/
theorem allocSound_iff {size : Nat} {r : Option (Nat × State)} {p : Prop} (hiff : r.isSome ↔ p)
    (hgood : ∀ q s', r = some (q, s') →
      (q = 0 ∧ Unchanged s s') ∨ (q ≠ 0 ∧ Backed cfg s'.mapped q size)) :
    AllocSound cfg s size r ↔ p := by
  rw [← hiff, Option.isSome_iff_exists]
  constructor
  · intro h
    obtain ⟨q, s', hr, -⟩ := h
    exact ⟨(q, s'), hr⟩
  · intro h
    obtain ⟨⟨q, s'⟩, hr⟩ := h
    exact ⟨q, s', hr, hgood q s' hr⟩

theorem Backed.mono {mapped : List Segment} {p size size' : Nat} (h : Backed cfg mapped p size)
    (hle : size' ≤ size) : Backed cfg mapped p size' := by
  cases h with
  | block hin hbs => exact .block hin (Nat.le_trans hle hbs)
  | segment hseg hv hlo hhi => exact .segment hseg hv hlo (by omega)

/-- **The cache and the reserve** give memory, if they return. -/
theorem Ready.cache_backed (h : Ready cfg s t) {size c : Nat} (h1 : 1 ≤ c) (h2 : c < maxSzIdx)
    (hbs : size ≤ (cfg.sizeClass c).blockSize) :
    ((allocateToCache cfg os tuner t size c s).isSome ↔ CacheCond cfg os tuner t size c s) ∧
      ∀ q s', allocateToCache cfg os tuner t size c s = some (q, s') →
        q ≠ 0 ∧ Backed cfg s'.mapped q size := by
  unfold CacheCond
  by_cases hmode : s.panicking t = true ∨ s.useBootstrap = true
  · have heq : allocateToCache cfg os tuner t size c s = bootstrapAllocate os size s := by
      rw [allocateToCache, if_pos hmode]
    rw [if_pos hmode, heq]
    refine ⟨bootstrapAllocate_isSome size, fun q s' hr => ?_⟩
    obtain ⟨seg, hseg, hv, hlo, hhi⟩ := (h.reserve hmode).allocate hr
    have := hv.pos
    exact ⟨by omega, .segment hseg hv hlo hhi⟩
  · have hcache := h.cache c h1 h2
    rw [if_neg hmode, allocateToCache_tuner hmode, hcache.allocate_isSome_iff h1 h2 hmode]
    refine ⟨Iff.rfl, fun q s' hr => ?_⟩
    have hin := (hcache.allocate h1 h2 hmode size).1 tuner q s' hr
    exact ⟨hin.pos, .block hin hbs⟩

/-- Nothing backs more bytes than there are addresses. -/
theorem Backed.lt {mapped : List Segment} {p size : Nat} (h : Backed cfg mapped p size) :
    size < addrSpace := by
  cases h with
  | block hin hle =>
    obtain ⟨seg, -, hv, i, -, hend⟩ := hin
    have hb := hv.bound
    have hreg := (regionLen_bounds seg.length).1
    have hpos := hv.pos
    omega
  | @segment seg _ hv hlo hend =>
    have hb := hv.bound
    have hreg := (regionLen_bounds seg.length).1
    have hpos := hv.pos
    omega

/-- A rounding that wraps asks for less than the request, which is then too long to be
had. -/
theorem alignSize_wrap {size k : Nat} (hk : k < 64) (h : ¬size ≤ alignSize size (2 ^ k)) :
    addrSpace ≤ size := by
  unfold alignSize at h
  by_cases hlt : 2 ^ k < size
  · rw [if_pos hlt] at h
    have hfit : ¬size + 2 ^ k ≤ usizeSize := fun hfit => h (alignVal_bounds hk hfit).1
    rw [usizeSize_eq] at hfit
    show 281474976710656 ≤ size
    omega
  · rw [if_neg hlt] at h
    omega

theorem Ready.malloc_iff (h : Ready cfg s t) {size : Nat} (hsize : size < usizeSize) :
    AllocSound cfg s size (doMalloc cfg os tuner t size s) ↔ MallocCond cfg os tuner t size s := by
  unfold MallocCond
  by_cases hbig : maxSz < size
  · obtain ⟨hmap, hseg⟩ := @doMalloc_segment cfg os s t tuner size hbig
    rw [if_pos hbig]
    refine allocSound_iff (by rw [← hmap, Option.isSome_map]) fun q s' hr => ?_
    obtain ⟨seg, hmem, hv, hlen, rfl⟩ := hseg q s' hr
    have hpos := hv.pos
    have hl := hv.length_pos
    have hb := pageCeiling_ne_zero hsize (by omega)
    exact Or.inr ⟨by omega, .segment hmem hv (Nat.le_refl _) (by omega)⟩
  · obtain ⟨h1, h2, hbs⟩ := getSizeClass_spec cfg (Nat.not_lt.mp hbig)
    obtain ⟨hiff, hmem⟩ := @h.cache_backed cfg os s t tuner size _ h1 h2 hbs
    rw [if_neg hbig, doMalloc, if_neg hbig]
    exact allocSound_iff hiff fun q s' hr => Or.inr (hmem q s' hr)

theorem Ready.aligned_iff (h : Ready cfg s t) {k size : Nat} (hk : k < 64)
    (hsize : size < usizeSize) :
    AllocSound cfg s size (doAlignedAlloc cfg os tuner t (2 ^ k) size s) ↔
      AlignedCond cfg os tuner t (2 ^ k) size s := by
  unfold AlignedCond
  by_cases hbig : page < alignSize size (2 ^ k)
  · rw [if_pos hbig]
    refine allocSound_iff (doAlignedAlloc_segment_isSome_iff hk hbig) fun q s' hr => ?_
    rcases doAlignedAlloc_segment (isPowerOfTwo_pow hk) hbig hr with
      ⟨rfl, rfl, -⟩ | ⟨seg, hmem, -, hv, hlen, rfl⟩
    · exact Or.inl ⟨rfl, rfl, rfl, rfl, rfl⟩
    · have hl : (LargeReq.aligned (2 ^ k) size).Large := ⟨hsize, ⟨k, hk, rfl⟩, hbig⟩
      obtain ⟨hlo, -, hhi⟩ := hl.inside hv hlen
      have hpos := hv.pos
      exact Or.inr ⟨Nat.ne_of_gt (Nat.lt_of_lt_of_le hpos hlo), .segment hmem hv hlo hhi⟩
  · rw [if_neg hbig, doAlignedAlloc_small (isPowerOfTwo_pow hk) hbig]
    obtain ⟨h1, h2, hbs⟩ := getSizeClass_spec cfg (le_maxSz_of_page hbig)
    obtain ⟨hiff, hmem⟩ := @h.cache_backed cfg os s t tuner _ _ h1 h2 hbs
    by_cases hle : size ≤ alignSize size (2 ^ k)
    · rw [and_iff_right hle]
      refine allocSound_iff hiff fun q s' hr => Or.inr ?_
      exact ⟨(hmem q s' hr).1, (hmem q s' hr).2.mono hle⟩
    · -- the rounding wrapped: an answer there is, but not for so many bytes
      have hwrap := alignSize_wrap hk hle
      refine iff_of_false (fun hs => ?_) fun hc => hle hc.1
      obtain ⟨p, s', hr, hs⟩ := hs
      rcases hs with ⟨h0, -⟩ | ⟨-, hback⟩
      · exact (hmem p s' hr).1 h0
      · have := hback.lt
        omega

end

/-- A kernel that is out of memory. -/
def Os.refuse : Os where
  mmap _ _ := none
  valid h := by cases h
  fresh h := by cases h

end Apfmalloc
