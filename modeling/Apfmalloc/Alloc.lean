import Apfmalloc.DescList

/-!
# `alloc.rs`: the page map and the refill of a bin

The slow path of an allocation. A bin is refilled from the partial list of its
heap (`mallocFromPartial`) or from a new superblock (`mallocFromNewSb`); the
tuner has variants of both that take a count. All of them end in the page map,
which is how a later `free` finds the descriptor of a block.

Each call runs to its end before the next one, so a compare-exchange loop exits
in its first round with the value it loaded (`PartialList.lean` takes the two
list operations apart into their atomic steps). A panic is `none`, and so is a
partial list that never ends.
-/

namespace Apfmalloc

open Base

def Cfg.sizeClass (cfg : Cfg) (c : Nat) : SizeClassData := Apfmalloc.sizeClass cfg.target.apf c

theorem Cfg.classSpec (cfg : Cfg) {c : Nat} (h1 : 1 ≤ c) (h2 : c < maxSzIdx) :
    ClassSpec (cfg.sizeClass c) c :=
  cfg.target.spec h1 h2

/-! ## The page map -/

/-- `for index in 0..n { set_page_info(ptr + index * PAGE, info) }` -/
def setPages (pm : Nat → PageInfo) (ptr : Nat) (info : PageInfo) : Nat → (Nat → PageInfo)
  | 0 => pm
  | n + 1 => setPageInfo (setPages pm ptr info n) (ptr + n * page) info

def updatePageMap (cfg : Cfg) (heap : Option Nat) (ptr : Nat) (desc : Option Nat)
    (sizeClassIndex : Nat) (s : State) : Option State :=
  if ptr = 0 then none
  else
    let info := PageInfo.setPtr (desc.getD 0) sizeClassIndex
    match heap with
    | none => some { s with pageMap := setPageInfo s.pageMap ptr info }
    | some h =>
      let sbSize := (cfg.sizeClass h).sbSize
      if sbSize &&& pageMask ≠ 0 then none
      else some { s with pageMap := setPages s.pageMap ptr info (sbSize / page) }

def registerDesc (cfg : Cfg) (d : Nat) (s : State) : Option State := do
  let seg ← (s.descs d).superBlock
  updatePageMap cfg (s.descs d).procHeap seg.ptr (some d) 0 s

def unregisterDesc (cfg : Cfg) (heap : Option Nat) (superBlock : Segment) (s : State) :
    Option State :=
  updatePageMap cfg heap superBlock.ptr none 0 s

def getPageInfoForPtr (s : State) (ptr : Nat) : PageInfo := s.pageMap (addrToKey ptr)

/-- The class a page's descriptor serves; 0 for a large allocation. -/
def getSizeClassIndex (s : State) (info : PageInfo) : Option Nat :=
  if info.desc = 0 then none
  else if (s.descs info.desc).blockSize > maxSz then some 0
  else some (getSizeClass (s.descs info.desc).blockSize)

/-! ## The partial list of a heap -/

/-- The head a pop installs for the link it read: the same node, rebuilt. -/
def popNewHead (nextPartial : Option DescriptorNode) : Option (Option DescriptorNode) :=
  match nextPartial with
  | none => some none
  | some node =>
    node.getDesc.map fun desc => some (DescriptorNode.set (some desc) node.getCounter)

/-- The head a push of `d` installs: one more than the old head's counter. -/
def pushNewHead (d : Nat) (oldHead : Option DescriptorNode) : DescriptorNode :=
  DescriptorNode.set (some d) (match oldHead with
    | none => 0
    | some node => node.getCounter + 1)

def listPopPartial (c : Nat) (s : State) : Option (Option Nat × State) :=
  match s.partialList c with
  | none => some (none, s)
  | some oldHead => do
    let oldDesc ← oldHead.getDesc
    let newHead ← popNewHead (s.descs oldDesc).nextPartial
    some (some oldDesc, s.setPartialList c newHead)

def listPushPartial (d : Nat) (s : State) : Option State := do
  let c ← (s.descs d).procHeap
  let oldHead := s.partialList c
  let s := s.setDesc d { s.descs d with nextPartial := oldHead }
  some (s.setPartialList c (some (pushNewHead d oldHead)))

/-! ## Refill from the partial list -/

/-- One more round for every empty descriptor met on the way. Gives what the
call adds to `block_num`. -/
def mallocFromPartialLoop (t c : Nat) : Nat → State → Option (Nat × State)
  | 0, _ => none
  | fuel + 1, s => do
    let (desc, s) ← listPopPartial c s
    match desc with
    | none => some (0, s)
    | some d =>
      let oldAnchor := (s.descs d).anchor
      let maxCount := (s.descs d).maxCount
      let blockSize := (s.descs d).blockSize
      if oldAnchor.state = .empty then
        mallocFromPartialLoop t c fuel (Descriptor.retire d s)
      else
        let newAnchor := ((oldAnchor.setCount 0).setAvail maxCount).setState .full
        let s := s.setDesc d { s.descs d with anchor := newAnchor }
        let seg ← (s.descs d).superBlock
        if oldAnchor.avail > maxCount then none
        else
          let block := seg.ptr + oldAnchor.avail * blockSize
          let bin ← (s.threadCache t c).pushList block oldAnchor.count
          some (1, s.setBin t c bin)

/-- Without a cycle the list is no longer than the number of descriptors. -/
def mallocFromPartial (t c : Nat) (s : State) : Option (Nat × State) :=
  mallocFromPartialLoop t c (s.carved.length + 1) s

/-- `for i in 0..c { cache.push_block(super_block + (avail + i) * block_size) }` -/
def pushBlocks (noMet : Bool) (block blockSize : Nat) :
    Nat → ThreadCacheBin × Mem → Option (ThreadCacheBin × Mem)
  | 0, st => some st
  | n + 1, (bin, m) => do
    let st ← bin.pushBlock noMet m block
    pushBlocks noMet (block + blockSize) blockSize n st

/-- `new_avail`: the sum is an `isize`. -/
def newAvail (avail count maxCount : Nat) : Int :=
  let sum := Int.bmod (avail + count) usizeSize
  if sum < maxCount then sum else maxCount

/-- `c`: how many blocks the loop pushes, none if it is negative. -/
def blocksTaken (avail count maxCount : Nat) : Nat :=
  (Int.bmod (newAvail avail count maxCount - avail) usizeSize).toNat

def mallocCountFromPartial (cfg : Cfg) (t c count : Nat) (s : State) : Option (Nat × State) := do
  let (desc, s) ← listPopPartial c s
  match desc with
  | none => some (0, s)
  | some d =>
    let oldAnchor := (s.descs d).anchor
    let maxCount := (s.descs d).maxCount
    let blockSize := (s.descs d).blockSize
    let avail := oldAnchor.avail
    if oldAnchor.state = .empty then
      mallocFromPartial t c (Descriptor.retire d s)
    else
      let newAvail := newAvail avail count maxCount
      let newAnchor :=
        ((oldAnchor.setCount 0).setAvail (newAvail % usizeSize).toNat).setState .full
      let s := s.setDesc d { s.descs d with anchor := newAnchor }
      if avail > maxCount then none
      else
        let n := blocksTaken avail count maxCount
        let seg ← (s.descs d).superBlock
        let (bin, m) ← pushBlocks cfg.noMetStack (seg.ptr + avail * blockSize) blockSize n
          (s.threadCache t c, s.mem)
        some (n, { s with mem := m }.setBin t c bin)

/-! ## Refill from a new superblock -/

/-- What the two functions below share: a descriptor for class `c` with a segment
of `segLen` bytes, whose first `count` blocks become the bin. -/
def newSuperBlock (cfg : Cfg) (os : Os) (t c count segLen : Nat) (s : State) :
    Option (Nat × State) := do
  let (d, s) ← Descriptor.alloc cfg os s
  let blockSize := (cfg.sizeClass c).blockSize
  let maxCount := (cfg.sizeClass c).blockNum
  -- a failed `allocate` is stored as `None` and unwrapped right after
  let (seg, s) ← segAllocate os segLen s
  let s := s.setDesc d { s.descs d with procHeap := some c, blockSize := blockSize,
                                        maxCount := maxCount, superBlock := some seg }
  let s := { s with mem := linkFresh cfg.noMetStack s.mem seg.ptr blockSize count }
  let bin ← (s.threadCache t c).pushList seg.ptr count
  let s := s.setBin t c bin
  let anchor := ((Anchor.default.setAvail count).setCount 0).setState .full
  let s := s.setDesc d { s.descs d with anchor := anchor }
  let s ← registerDesc cfg d s
  some (maxCount, s)

def mallocFromNewSb (cfg : Cfg) (os : Os) (t c : Nat) (s : State) : Option (Nat × State) :=
  newSuperBlock cfg os t c (cfg.sizeClass c).blockNum (cfg.sizeClass c).sbSize s

def mallocCountFromNewSb (cfg : Cfg) (os : Os) (t c count : Nat) (s : State) :
    Option (Nat × State) :=
  let n := min (cfg.sizeClass c).blockNum count
  newSuperBlock cfg os t c n ((cfg.sizeClass c).blockSize * n) s

/-! ## What the page map says afterwards -/

theorem setPages_apply (pm : Nat → PageInfo) (ptr : Nat) (info : PageInfo) (k : Nat) :
    ∀ n, setPages pm ptr info n k =
      if ∃ i < n, k = addrToKey (ptr + i * page) then info else pm k := by
  intro n
  induction n with
  | zero => rw [setPages, if_neg (by rintro ⟨i, hi, _⟩; omega)]
  | succ n ih =>
    rw [setPages, setPageInfo, ih]
    by_cases hk : k = addrToKey (ptr + n * page)
    · rw [if_pos hk, if_pos ⟨n, Nat.lt_succ_self n, hk⟩]
    · rw [if_neg hk]
      by_cases hex : ∃ i < n, k = addrToKey (ptr + i * page)
      · obtain ⟨i, hi, he⟩ := hex
        rw [if_pos ⟨i, hi, he⟩, if_pos ⟨i, Nat.lt_succ_of_lt hi, he⟩]
      · rw [if_neg hex, if_neg]
        rintro ⟨i, hi, he⟩
        rcases Nat.lt_succ_iff_lt_or_eq.mp hi with hlt | rfl
        · exact hex ⟨i, hlt, he⟩
        · exact hk he

/-- Key `k` is a page of the `len` bytes from `ptr`. -/
def PageOf (ptr len k : Nat) : Prop := ∃ a, ptr ≤ a ∧ a < ptr + len ∧ k = addrToKey a

theorem pageOf_iff {ptr n k : Nat} (hal : ptr % page = 0) (hb : ptr + n * page ≤ addrSpace) :
    PageOf ptr (n * page) k ↔ ∃ i < n, k = addrToKey (ptr + i * page) := by
  constructor
  · rintro ⟨a, hlo, hhi, rfl⟩
    have hdiv := Nat.div_mul_le_self (a - ptr) page
    refine ⟨(a - ptr) / page, ?_, ?_⟩
    · rw [Nat.div_lt_iff_lt_mul (by decide)]
      omega
    · rw [addrToKey_eq (by omega), addrToKey_eq (by omega)]
      rw [page_eq] at hal ⊢
      omega
  · rintro ⟨i, hi, rfl⟩
    have hmul : i * page + page ≤ n * page := by
      rw [← Nat.succ_mul]
      exact Nat.mul_le_mul_right _ hi
    have hpos : 0 < page := by decide
    exact ⟨ptr + i * page, by omega, by omega, rfl⟩

/-- Pages of regions that do not overlap have different keys. -/
theorem pageOf_disjoint {p len q len' k : Nat} (hp : p % page = 0) (hq : q % page = 0)
    (hl : len % page = 0) (hl' : len' % page = 0) (hb : p + len ≤ addrSpace)
    (hb' : q + len' ≤ addrSpace) (h : p + len ≤ q ∨ q + len' ≤ p) (h1 : PageOf p len k)
    (h2 : PageOf q len' k) : False := by
  obtain ⟨a, ha1, ha2, rfl⟩ := h1
  obtain ⟨b, hb1, hb2, he⟩ := h2
  rw [addrToKey_eq (by omega), addrToKey_eq (by omega)] at he
  rw [page_eq] at *
  omega

/-- Registering a superblock's descriptor sets every page of a whole superblock
of its class. -/
theorem registerDesc_heap {cfg : Cfg} {d c : Nat} {s : State} {seg : Segment}
    (hsb : (s.descs d).superBlock = some seg) (hheap : (s.descs d).procHeap = some c)
    (hptr : seg.ptr ≠ 0) :
    registerDesc cfg d s =
      if (cfg.sizeClass c).sbSize &&& pageMask ≠ 0 then none
      else some { s with pageMap := setPages s.pageMap seg.ptr (PageInfo.setPtr d 0)
                          ((cfg.sizeClass c).sbSize / page) } := by
  simp [registerDesc, updatePageMap, hsb, hheap, hptr]

/-! ## A round on the partial list -/

def State.setAnchor (s : State) (d : Nat) (a : Anchor) : State :=
  s.setDesc d { s.descs d with anchor := a }

/-- What `malloc_from_partial` exchanges the anchor for. -/
def listAnchor (maxCount : Nat) (oldAnchor : Anchor) : Anchor :=
  ((oldAnchor.setCount 0).setAvail maxCount).setState .full

/-- What `malloc_count_from_partial` exchanges the anchor for. -/
def countAnchor (maxCount count : Nat) (oldAnchor : Anchor) : Anchor :=
  ((oldAnchor.setCount 0).setAvail
    (newAvail oldAnchor.avail count maxCount % usizeSize).toNat).setState .full

theorem listAnchor_eq {maxCount : Nat} (h : maxCount < 2 ^ 30) (oldAnchor : Anchor) :
    listAnchor maxCount oldAnchor = ⟨.full, maxCount, 0⟩ := by
  simp only [listAnchor, Anchor.setCount, Anchor.setAvail, Anchor.setState,
    Nat.mod_eq_of_lt h, Nat.zero_mod]

/-- `malloc_from_partial` after the exchange. -/
def takeList (t c d : Nat) (oldAnchor : Anchor) (s : State) : Option (Nat × State) := do
  let seg ← (s.descs d).superBlock
  if oldAnchor.avail > (s.descs d).maxCount then none
  else
    let bin ← (s.threadCache t c).pushList (seg.ptr + oldAnchor.avail * (s.descs d).blockSize)
      oldAnchor.count
    some (1, s.setBin t c bin)

/-- `malloc_count_from_partial` after the exchange. -/
def takeCount (cfg : Cfg) (t c d count : Nat) (oldAnchor : Anchor) (s : State) :
    Option (Nat × State) :=
  if oldAnchor.avail > (s.descs d).maxCount then none
  else do
    let seg ← (s.descs d).superBlock
    let (bin, m) ← pushBlocks cfg.noMetStack (seg.ptr + oldAnchor.avail * (s.descs d).blockSize)
      (s.descs d).blockSize (blocksTaken oldAnchor.avail count (s.descs d).maxCount)
      (s.threadCache t c, s.mem)
    some (blocksTaken oldAnchor.avail count (s.descs d).maxCount,
      { s with mem := m }.setBin t c bin)

section
variable {cfg : Cfg} {t c d count fuel n : Nat} {s s₁ s' : State} {a : Anchor}

theorem listPopPartial_none (h : s.partialList c = none) :
    listPopPartial c s = some (none, s) := by
  rw [listPopPartial, h]

theorem mallocFromPartialLoop_none (hpop : listPopPartial c s = some (none, s₁)) :
    mallocFromPartialLoop t c (fuel + 1) s = some (0, s₁) := by
  rw [mallocFromPartialLoop, hpop]
  rfl

/-- An empty descriptor is retired, and the list is tried again. -/
theorem mallocFromPartialLoop_retire (hpop : listPopPartial c s = some (some d, s₁))
    (hstate : (s₁.descs d).anchor.state = .empty) :
    mallocFromPartialLoop t c (fuel + 1) s =
      mallocFromPartialLoop t c fuel (Descriptor.retire d s₁) := by
  rw [mallocFromPartialLoop, hpop]
  simp only [Option.bind_eq_bind, Option.bind_some]
  rw [if_pos hstate]

theorem mallocFromPartialLoop_take (hpop : listPopPartial c s = some (some d, s₁))
    (hstate : (s₁.descs d).anchor.state ≠ .empty) :
    mallocFromPartialLoop t c (fuel + 1) s = takeList t c d (s₁.descs d).anchor
      (s₁.setAnchor d (listAnchor (s₁.descs d).maxCount (s₁.descs d).anchor)) := by
  rw [mallocFromPartialLoop, hpop]
  simp only [Option.bind_eq_bind, Option.bind_some]
  rw [if_neg hstate]
  simp [takeList, State.setAnchor, listAnchor]

/-- **What taking a list does**: the bin was empty, and has it now. -/
theorem takeList_cases (h : takeList t c d a s = some (n, s')) :
    ∃ seg bin, (s.descs d).superBlock = some seg ∧ a.avail ≤ (s.descs d).maxCount ∧
      (s.threadCache t c).pushList (seg.ptr + a.avail * (s.descs d).blockSize) a.count = some bin ∧
      n = 1 ∧ s' = s.setBin t c bin := by
  simp only [takeList, Option.bind_eq_bind, Option.bind_eq_some_iff] at h
  obtain ⟨seg, hseg, h⟩ := h
  split at h
  next => cases h
  next hle =>
    simp only [Option.bind_eq_some_iff, Option.some.injEq, Prod.mk.injEq] at h
    obtain ⟨bin, hbin, rfl, rfl⟩ := h
    exact ⟨seg, bin, hseg, Nat.not_lt.mp hle, hbin, rfl, rfl⟩

/-- With a superblock and an empty bin, the list becomes the bin. -/
theorem mallocFromPartialLoop_takes {seg : Segment}
    (hpop : listPopPartial c s = some (some d, s₁)) (hstate : (s₁.descs d).anchor.state ≠ .empty)
    (hseg : (s₁.descs d).superBlock = some seg)
    (hle : (s₁.descs d).anchor.avail ≤ (s₁.descs d).maxCount)
    (hnum : (s₁.threadCache t c).blockNum = 0) :
    mallocFromPartialLoop t c (fuel + 1) s =
      some (1, (s₁.setAnchor d (listAnchor (s₁.descs d).maxCount (s₁.descs d).anchor)).setBin t c
        { s₁.threadCache t c with
          block := seg.ptr + (s₁.descs d).anchor.avail * (s₁.descs d).blockSize,
          blockNum := (s₁.descs d).anchor.count }) := by
  rw [mallocFromPartialLoop_take hpop hstate]
  simp only [takeList, State.setAnchor, setDesc_same, hseg, Option.bind_eq_bind, Option.bind_some]
  rw [if_neg (Nat.not_lt.mpr hle), setDesc_threadCache, ThreadCacheBin.pushList,
    if_neg (by omega), Option.bind_some]

theorem mallocCountFromPartial_take (hpop : listPopPartial c s = some (some d, s₁))
    (hstate : (s₁.descs d).anchor.state ≠ .empty) :
    mallocCountFromPartial cfg t c count s = takeCount cfg t c d count (s₁.descs d).anchor
      (s₁.setAnchor d (countAnchor (s₁.descs d).maxCount count (s₁.descs d).anchor)) := by
  rw [mallocCountFromPartial, hpop]
  simp only [Option.bind_eq_bind, Option.bind_some]
  rw [if_neg hstate]
  simp [takeCount, State.setAnchor, countAnchor]

end

/-! ## What a new superblock is -/

/-- The descriptor `newSuperBlock` fills in. -/
def newSbDesc (cfg : Cfg) (c count : Nat) (seg : Segment) (desc : Descriptor) : Descriptor :=
  { desc with procHeap := some c, blockSize := (cfg.sizeClass c).blockSize,
              maxCount := (cfg.sizeClass c).blockNum, superBlock := some seg,
              anchor := ⟨.full, count % 2 ^ 30, 0⟩ }

/-- Everything a successful `newSuperBlock` did. -/
theorem newSuperBlock_cases {cfg : Cfg} {os : Os} {t c count segLen n : Nat} {s s' : State}
    (h : newSuperBlock cfg os t c count segLen s = some (n, s')) :
    ∃ d s₁ seg, Descriptor.alloc cfg os s = some (d, s₁) ∧ n = (cfg.sizeClass c).blockNum ∧
      seg.length = segLen ∧ seg.Valid ∧ (∀ sg ∈ s₁.mapped, seg.Apart sg) ∧
      (s₁.threadCache t c).blockNum = 0 ∧ (cfg.sizeClass c).sbSize &&& pageMask = 0 ∧
      s' = { s₁ with
        mapped := seg :: s₁.mapped
        mem := linkFresh cfg.noMetStack (zeroFill s₁.mem seg.ptr (regionLen segLen)) seg.ptr
          (cfg.sizeClass c).blockSize count
        descs := fun d' => if d' = d then newSbDesc cfg c count seg (s₁.descs d) else s₁.descs d'
        pageMap := setPages s₁.pageMap seg.ptr (PageInfo.setPtr d 0) ((cfg.sizeClass c).sbSize / page)
        threadCache := fun t' c' => if t' = t ∧ c' = c then
            { s₁.threadCache t c with block := seg.ptr, blockNum := count }
          else s₁.threadCache t' c' } := by
  simp only [newSuperBlock, Option.bind_eq_bind, Option.bind_eq_some_iff, Prod.exists] at h
  obtain ⟨d, s₁, halloc, seg, s₂, hseg, bin, hbin, s₃, hreg, hres⟩ := h
  obtain ⟨hlen, hvalid, hapart, rfl⟩ := segAllocate_cases hseg
  simp only [Option.some.injEq, Prod.mk.injEq] at hres
  obtain ⟨rfl, rfl⟩ := hres
  have hnum : (s₁.threadCache t c).blockNum = 0 ∧
      bin = { s₁.threadCache t c with block := seg.ptr, blockNum := count } := by
    unfold ThreadCacheBin.pushList at hbin
    split at hbin
    next => cases hbin
    next hz => exact ⟨by simpa [State.setDesc] using hz, (Option.some.inj hbin).symm⟩
  obtain ⟨hnum, rfl⟩ := hnum
  rw [@registerDesc_heap _ _ c _ seg (by simp) (by simp) (Nat.ne_of_gt hvalid.pos)] at hreg
  split at hreg
  next => cases hreg
  next hmask =>
    refine ⟨d, s₁, seg, halloc, rfl, hlen, hvalid, hapart, hnum, by simpa using hmask, ?_⟩
    rw [Option.some.injEq] at hreg
    rw [← hreg]
    simp only [State.setDesc, State.setBin, State.mk.injEq, true_and, and_true]
    funext d'
    by_cases hd : d' = d
    · simp [hd, newSbDesc, Anchor.setState, Anchor.setCount, Anchor.setAvail, Anchor.default]
    · simp [hd]

end Apfmalloc
