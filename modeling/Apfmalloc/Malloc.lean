import Apfmalloc.CacheOps

/-!
# `lib.rs`: malloc, aligned malloc, realloc and free

The entry points of the crate. Requests above the largest size class get a
segment of their own; the others get a block of the calling thread's bin, or of
the bootstrap reserve while the thread is panicking or the bootstrap is on. A
pointer is an address, 0 is NULL, and a panic is `none`.

What the tuner decides is floating-point statistics of the thread's history. It
enters as a parameter: `some n` when it has a demand, which makes the malloc
fetch `n` blocks if it emptied the bin, and the free return `n` blocks.
-/

namespace Apfmalloc

open Base

/-! ## The bootstrap reserve -/

/-- `BootstrapReserve::allocate`. When a new segment cannot be had the process
exits. -/
def bootstrapAllocate (os : Os) (size : Nat) (s : State) : Option (Nat × State) := do
  let s ←
    if size > s.bootstrapReserve.avail then do
      let n := max s.bootstrapReserve.max size
      let (seg, s) ← segAllocate os n s
      some { s with bootstrapReserve :=
              { s.bootstrapReserve with mem := s.bootstrapReserve.mem ++ [seg], next := seg.ptr,
                                        avail := n } }
    else some s
  let r := s.bootstrapReserve
  some (r.next, { s with bootstrapReserve :=
                    { r with next := r.next + size, avail := r.avail - size } })

/-- **The reserve cuts off the next bytes**, from a new segment if they do not fit. -/
theorem bootstrapAllocate_cases {os : Os} {size p : Nat} {s s' : State}
    (h : bootstrapAllocate os size s = some (p, s')) :
    (size ≤ s.bootstrapReserve.avail ∧ p = s.bootstrapReserve.next ∧
      s' = { s with bootstrapReserve := { s.bootstrapReserve with
              next := s.bootstrapReserve.next + size,
              avail := s.bootstrapReserve.avail - size } }) ∨
    ∃ seg : Segment, s.bootstrapReserve.avail < size ∧
      seg.length = max s.bootstrapReserve.max size ∧ seg.Valid ∧
      (∀ sg ∈ s.mapped, seg.Apart sg) ∧ p = seg.ptr ∧
      s' = { s with mapped := seg :: s.mapped,
                    mem := zeroFill s.mem seg.ptr (regionLen seg.length),
                    bootstrapReserve := { s.bootstrapReserve with
                      mem := s.bootstrapReserve.mem ++ [seg], next := seg.ptr + size,
                      avail := seg.length - size } } := by
  unfold bootstrapAllocate at h
  by_cases hroom : size > s.bootstrapReserve.avail
  · simp only [hroom, if_true] at h
    cases hseg : segAllocate os (max s.bootstrapReserve.max size) s with
    | none =>
      rw [hseg] at h
      cases h
    | some r =>
      obtain ⟨seg, s₁⟩ := r
      obtain ⟨hlen, hv, hap, rfl⟩ := segAllocate_cases hseg
      rw [hseg] at h
      cases h
      refine Or.inr ⟨seg, hroom, hlen, hv, hap, rfl, ?_⟩
      rw [hlen]
  · simp only [hroom, if_false, Option.bind_eq_bind, Option.bind_some, Option.some.injEq,
      Prod.mk.injEq] at h
    exact Or.inl ⟨Nat.not_lt.mp hroom, h.1.symm, h.2.symm⟩

/-! ## Allocation -/

def allocateToCache (cfg : Cfg) (os : Os) (tuner : Option Nat) (t size c : Nat) (s : State) :
    Option (Nat × State) :=
  if s.panicking t ∨ s.useBootstrap then bootstrapAllocate os size s
  else do
    let s ← if (s.threadCache t c).blockNum = 0 then fillCache cfg os t c s else some s
    if (s.threadCache t c).blockNum = 0 then none
    else
      let (ptr, bin) ← (s.threadCache t c).popBlock cfg.noMetStack s.mem
      let s := s.setBin t c bin
      match tuner with
      | some n =>
        if cfg.useApf ∧ (s.threadCache t c).blockNum = 0 then do
          let s ← fetch cfg os t c n s
          some (ptr, s)
        else some (ptr, s)
      | none => some (ptr, s)

/-- The descriptor of a large allocation. -/
def State.setLarge (s : State) (d pages : Nat) (seg : Segment) : State :=
  s.setDesc d { s.descs d with procHeap := none, blockSize := pages % u32Size, maxCount := 1,
                               superBlock := some seg,
                               anchor := Anchor.default.setState .full }

def doMalloc (cfg : Cfg) (os : Os) (tuner : Option Nat) (t size : Nat) (s : State) :
    Option (Nat × State) :=
  if size > maxSz then do
    let pages := pageCeiling size
    let (d, s) ← Descriptor.alloc cfg os s
    -- a failed `allocate` is stored as `None` and unwrapped by `register_desc`
    let (seg, s) ← segAllocate os pages s
    let s ← registerDesc cfg d (s.setLarge d pages seg)
    some (seg.ptr, s)
  else allocateToCache cfg os tuner t size (getSizeClass size) s

/-- The size of the segment for a large aligned request. -/
def alignedPages (align size : Nat) : Nat :=
  let size := max size (maxSz + 1)
  let size := if align > page then (size + align) % usizeSize else size
  pageCeiling size

def doAlignedAlloc (cfg : Cfg) (os : Os) (tuner : Option Nat) (t align size : Nat) (s : State) :
    Option (Nat × State) :=
  if isPowerOfTwo align = false then some (0, s)
  else
    let size := alignSize size align
    if size > page then
      let pages := alignedPages align size
      match segAllocate os pages s with
      | none => some (0, s)
      | some (seg, s) => do
        let (d, s) ← Descriptor.alloc cfg os s
        let s ← registerDesc cfg d (s.setLarge d pages seg)
        if align > page then do
          let ptr := alignAddr seg.ptr align
          let s ← updatePageMap cfg none ptr (some d) 0 s
          some (ptr, s)
        else some (seg.ptr, s)
    else allocateToCache cfg os tuner t size (getSizeClass size) s

/-! ## Free and realloc -/

/-- A large allocation goes back to the kernel and its descriptor to the list. -/
def freeLarge (cfg : Cfg) (ptr d : Nat) (s : State) : Option State := do
  let seg ← (s.descs d).superBlock
  let s ← unregisterDesc cfg none seg s
  let s ← if ptr ≠ seg.ptr then unregisterDesc cfg none seg s else some s
  let s := segDeallocate seg (s.setDesc d { s.descs d with superBlock := none })
  some (Descriptor.retire d s)

/-- A block goes to the bin of the calling thread. -/
def freeSmall (cfg : Cfg) (tuner : Option Nat) (t c ptr : Nat) (s : State) : Option State := do
  let s ←
    match tuner with
    | some n => if cfg.useApf then ret cfg t c n s else some s
    | none => some s
  let s ←
    if cfg.useApf = false ∧ (s.threadCache t c).blockNum ≥ (cfg.sizeClass c).cacheBlockNum then
      flushCache cfg t c s
    else some s
  let (bin, m) ← (s.threadCache t c).pushBlock cfg.noMetStack s.mem ptr
  some ({ s with mem := m }.setBin t c bin)

def doFree (cfg : Cfg) (tuner : Option Nat) (t ptr : Nat) (s : State) : Option State :=
  if ptr = 0 then some s
  else
    let info := getPageInfoForPtr s ptr
    match info.getDesc with
    | none => some s
    | some d =>
      match getSizeClassIndex s info with
      | none => freeLarge cfg ptr d s
      | some 0 => freeLarge cfg ptr d s
      | some c => freeSmall cfg tuner t c ptr s

def getAllocationSize (s : State) (ptr : Nat) : Option Nat :=
  (getPageInfoForPtr s ptr).getDesc.map fun d => (s.descs d).blockSize

/-- `do_realloc` returns the pointer it was given. -/
def reallocInPlace (oldSize size : Nat) : Bool :=
  let newSizeClass := getSizeClass size
  let oldSizeClass := getSizeClass oldSize
  oldSizeClass ≠ 0 && oldSizeClass = newSizeClass
    || oldSizeClass = 0 && newSizeClass = 0 && size < oldSize

def doRealloc (cfg : Cfg) (os : Os) (tuner tunerFree : Option Nat) (t ptr size : Nat) (s : State) :
    Option (Nat × State) :=
  if ptr = 0 then doMalloc cfg os tuner t size s
  else
    match getAllocationSize s ptr with
    | none => doMalloc cfg os tuner t size s
    | some oldSize =>
      if reallocInPlace oldSize size then some (ptr, s)
      else do
        let (r, s) ← doMalloc cfg os tuner t size s
        let s := if r ≠ 0 ∧ r ≠ ptr then { s with mem := copyBytes s.mem r ptr oldSize } else s
        let s ← doFree cfg tunerFree t ptr s
        some (r, s)

/-! ## Which free a pointer gets -/

section
variable {cfg : Cfg} {tuner : Option Nat} {t ptr d : Nat} {s : State} {info : PageInfo}

theorem PageInfo.getDesc_eq_some : info.getDesc = some d ↔ info = ⟨d⟩ ∧ d ≠ 0 := by
  obtain ⟨d'⟩ := info
  unfold PageInfo.getDesc
  by_cases h0 : d' = 0
  · rw [if_pos h0]
    refine iff_of_false nofun fun h => h.2 ?_
    rw [← PageInfo.mk.inj h.1]
    exact h0
  · rw [if_neg h0, Option.some.injEq, PageInfo.mk.injEq]
    exact ⟨fun h => ⟨h, h ▸ h0⟩, And.left⟩

theorem getSizeClassIndex_large (hd : info.getDesc = some d)
    (hbig : maxSz < (s.descs d).blockSize) : getSizeClassIndex s info = some 0 := by
  obtain ⟨rfl, h0⟩ := PageInfo.getDesc_eq_some.mp hd
  rw [getSizeClassIndex, if_neg h0, if_pos hbig]

theorem getSizeClassIndex_class (hd : info.getDesc = some d)
    (hle : (s.descs d).blockSize ≤ maxSz) :
    getSizeClassIndex s info = some (getSizeClass (s.descs d).blockSize) := by
  obtain ⟨rfl, h0⟩ := PageInfo.getDesc_eq_some.mp hd
  rw [getSizeClassIndex, if_neg h0, if_neg (Nat.not_lt.mpr hle)]

/-- A record above the largest class is freed as a large block. -/
theorem doFree_eq_freeLarge (hptr : ptr ≠ 0) (hd : (getPageInfoForPtr s ptr).getDesc = some d)
    (hbig : maxSz < (s.descs d).blockSize) :
    doFree cfg tuner t ptr s = freeLarge cfg ptr d s := by
  rw [doFree, if_neg hptr]
  simp only [hd, getSizeClassIndex_large hd hbig]

/-- Any other record goes to a bin of the class of its size. -/
theorem doFree_eq_freeSmall (hptr : ptr ≠ 0) (hd : (getPageInfoForPtr s ptr).getDesc = some d)
    (hle : (s.descs d).blockSize ≤ maxSz) :
    doFree cfg tuner t ptr s = freeSmall cfg tuner t (getSizeClass (s.descs d).blockSize) ptr s := by
  obtain ⟨c, hc⟩ := Nat.exists_eq_add_of_le' (getSizeClass_least hle).1.1
  rw [doFree, if_neg hptr]
  simp only [hd, getSizeClassIndex_class hd hle, hc]

end

end Apfmalloc
