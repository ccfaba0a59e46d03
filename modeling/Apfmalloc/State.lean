import Apfmalloc.Desc
import Apfmalloc.ThreadCache

/-!
# The allocator's state

One record holds every global of the crate: client and superblock memory, what
the kernel has mapped, `AVAILABLE_DESC` and the descriptors, `HEAPS`,
`S_PAGE_MAP`, each thread's cache and the bootstrap reserve. Descriptors, heaps
and the page map have mappings of their own that no client can write, so they
are fields of the record and not bytes of `mem`.

The kernel is a parameter. `Os.mmap` answers a request from the list of current
mappings, with what `mmap(2)` promises as a field: a successful request is for a
positive length and gives a page-aligned, non-null region of the user address
space, apart from everything mapped. It may fail whenever it likes, and every
operation takes its own `Os`, so consecutive answers are unrelated.
-/

namespace Apfmalloc

open Base

/-! ## The kernel -/

/-- Whole pages for a mapping of `len` bytes. -/
def regionLen (len : Nat) : Nat := (len + page - 1) / page * page

/-- User addresses have 48 bits. -/
def addrSpace : Nat := 2 ^ 48

/-- The pages of two mappings do not overlap. -/
def Segment.Apart (a b : Segment) : Prop :=
  a.ptr + regionLen a.length ≤ b.ptr ∨ b.ptr + regionLen b.length ≤ a.ptr

instance (a b : Segment) : Decidable (a.Apart b) := inferInstanceAs (Decidable (_ ∨ _))

theorem Segment.Apart.symm {a b : Segment} (h : a.Apart b) : b.Apart a := Or.symm h

structure Segment.Valid (seg : Segment) : Prop where
  pos : 0 < seg.ptr
  aligned : seg.ptr % page = 0
  length_pos : 0 < seg.length
  bound : seg.ptr + regionLen seg.length ≤ addrSpace

structure Os where
  mmap : List Segment → Nat → Option Nat
  valid : ∀ {mapped len p}, mmap mapped len = some p → Segment.Valid ⟨p, len⟩
  fresh : ∀ {mapped len p}, mmap mapped len = some p → ∀ seg ∈ mapped, Segment.Apart ⟨p, len⟩ seg

theorem regionLen_bounds (len : Nat) : len ≤ regionLen len ∧ regionLen len < len + page :=
  roundUp_bounds (by decide)

theorem regionLen_of_mod {len : Nat} (h : len % page = 0) : regionLen len = len := by
  have hb := regionLen_bounds len
  have hm : regionLen len % page = 0 := Nat.mul_mod_left _ _
  rw [page_eq] at *
  omega

theorem regionLen_mod (len : Nat) : regionLen len % page = 0 := Nat.mul_mod_left _ _

/-- A mapping is not apart from itself. -/
theorem Segment.Valid.not_apart_self {seg : Segment} (h : seg.Valid) : ¬seg.Apart seg := by
  have hb := regionLen_bounds seg.length
  have hp := h.length_pos
  intro ha
  rcases ha with ha | ha <;> omega

/-- The first page boundary above every mapping, and above page 0. -/
def topOf : List Segment → Nat
  | [] => page
  | seg :: mapped => max (regionLen (seg.ptr + regionLen seg.length)) (topOf mapped)

theorem topOf_page (mapped : List Segment) : page ≤ topOf mapped ∧ topOf mapped % page = 0 := by
  induction mapped with
  | nil => exact ⟨Nat.le_refl _, by decide⟩
  | cons seg mapped ih =>
    rw [topOf]
    refine ⟨Nat.le_trans ih.1 (Nat.le_max_right _ _), ?_⟩
    rcases Nat.le_total (regionLen (seg.ptr + regionLen seg.length)) (topOf mapped) with hle | hle
    · rw [Nat.max_eq_right hle]
      exact ih.2
    · rw [Nat.max_eq_left hle]
      exact regionLen_mod _

theorem le_topOf {mapped : List Segment} {seg : Segment} (h : seg ∈ mapped) :
    seg.ptr + regionLen seg.length ≤ topOf mapped := by
  induction mapped with
  | nil => cases h
  | cons seg' mapped ih =>
    rw [topOf]
    rcases List.mem_cons.mp h with rfl | h
    · exact Nat.le_trans (regionLen_bounds _).1 (Nat.le_max_left _ _)
    · exact Nat.le_trans (ih h) (Nat.le_max_right _ _)

/-- A kernel that maps upwards from the first page until the address space is
used up. -/
def Os.bump : Os where
  mmap mapped len :=
    if 0 < len ∧ topOf mapped + regionLen len ≤ addrSpace then some (topOf mapped) else none
  valid {mapped len p} h := by
    obtain ⟨hge, hmod⟩ := topOf_page mapped
    split at h
    next hc =>
      cases h
      exact ⟨Nat.lt_of_lt_of_le (by decide) hge, hmod, hc.1, hc.2⟩
    next => cases h
  fresh {mapped len p} h := by
    intro seg hseg
    split at h
    next => cases h; exact Or.inr (le_topOf hseg)
    next => cases h

instance (seg : Segment) : Decidable seg.Valid :=
  decidable_of_iff (0 < seg.ptr ∧ seg.ptr % page = 0 ∧ 0 < seg.length ∧
      seg.ptr + regionLen seg.length ≤ addrSpace)
    ⟨fun h => ⟨h.1, h.2.1, h.2.2.1, h.2.2.2⟩, fun h => ⟨h.pos, h.aligned, h.length_pos, h.bound⟩⟩

/-- A kernel that follows the address hint `p` or fails. -/
def Os.hint (p : Nat) : Os where
  mmap mapped len :=
    if Segment.Valid ⟨p, len⟩ ∧ ∀ seg ∈ mapped, Segment.Apart ⟨p, len⟩ seg then some p else none
  valid {mapped len q} h := by
    split at h
    next hc => cases h; exact hc.1
    next => cases h
  fresh {mapped len q} h := by
    split at h
    next hc => cases h; exact hc.2
    next => cases h

/-! ## The page map -/

def pmSb : Nat := 64 - 14 - lgPage
def pmKeyMask : Nat := (1 <<< pmSb) - 1
def scMask : Nat := (1 <<< 6) - 1

def addrToKey (ptr : Nat) : Nat := (ptr >>> lgPage) &&& pmKeyMask

/-- A page's entry: the address of a descriptor, 0 for none. -/
structure PageInfo where
  desc : Nat
  deriving DecidableEq, Repr

def PageInfo.default : PageInfo := ⟨0⟩

def PageInfo.setPtr (desc scIdx : Nat) : PageInfo :=
  if desc &&& scMask ≠ 0 ∨ maxSzIdx ≤ scIdx then ⟨0⟩ else ⟨desc ||| scIdx⟩

def PageInfo.getDesc (info : PageInfo) : Option Nat :=
  if info.desc = 0 then none else some info.desc

def setPageInfo (pm : Nat → PageInfo) (ptr : Nat) (info : PageInfo) : Nat → PageInfo :=
  fun k => if k = addrToKey ptr then info else pm k

/-- Below 48 bits the key is the page number. -/
theorem addrToKey_eq {ptr : Nat} (h : ptr < addrSpace) : addrToKey ptr = ptr / page := by
  unfold addrToKey
  change ptr >>> 12 &&& (2 ^ 38 - 1) = ptr / 2 ^ 12
  rw [and_low_mask, Nat.shiftRight_eq_div_pow]
  have : ptr < 281474976710656 := h
  exact Nat.mod_eq_of_lt (by omega)

theorem setPtr_zero_of_desc {d : Nat} (h : DescAddr d) : PageInfo.setPtr d 0 = ⟨d⟩ := by
  have hmask : d &&& scMask = 0 := by
    change d &&& (2 ^ 6 - 1) = 0
    rw [and_low_mask]
    exact h.aligned
  rw [PageInfo.setPtr, if_neg (by rw [hmask]; decide), Nat.or_zero]

theorem setPtr_null : PageInfo.setPtr 0 0 = PageInfo.default := by decide

/-! ## The globals -/

structure BootstrapReserve where
  mem : List Segment
  next : Nat
  avail : Nat
  max : Nat
  deriving DecidableEq, Repr

structure State where
  mem : Mem
  /-- the kernel's list of current mappings -/
  mapped : List Segment
  availableDesc : DescriptorNode
  descs : Nat → Descriptor
  /-- every descriptor carved so far; the code keeps no such list -/
  carved : List Nat
  /-- `HEAPS[c].partial_list`; the `size_class_index` of the heap at `c` is `c` -/
  partialList : Nat → Option DescriptorNode
  pageMap : Nat → PageInfo
  /-- by thread and size class -/
  threadCache : Nat → Nat → ThreadCacheBin
  bootstrapReserve : BootstrapReserve
  useBootstrap : Bool
  /-- `std::thread::panicking()` of each thread -/
  panicking : Nat → Bool

/-- What is fixed at build time: the features, `USE_APF`, `TARGET_APF` and the
size of a `Descriptor`, which only matters through its alignment and through
at least two of them fitting a descriptor block. -/
structure Cfg where
  target : Target
  noMetStack : Bool
  useApf : Bool
  descSize : Nat
  descSize_mod : descSize % cacheLine = 0
  descSize_pos : 0 < descSize
  descSize_two : 2 * descSize ≤ descriptorBlockSz

/-- The default build on x86-64, where a `Descriptor` takes 128 bytes. -/
def Cfg.default : Cfg where
  target := Target.default
  noMetStack := false
  useApf := true
  descSize := 128
  descSize_mod := by decide
  descSize_pos := by decide
  descSize_two := by decide

/-- The default build under `TARGET_APF=1`, where superblocks have few blocks. -/
def Cfg.small : Cfg := { Cfg.default with target := ⟨1, by decide⟩ }

namespace State

def setBin (s : State) (t c : Nat) (bin : ThreadCacheBin) : State :=
  { s with threadCache := fun t' c' => if t' = t ∧ c' = c then bin else s.threadCache t' c' }

def setDesc (s : State) (d : Nat) (desc : Descriptor) : State :=
  { s with descs := fun d' => if d' = d then desc else s.descs d' }

def setPartialList (s : State) (c : Nat) (l : Option DescriptorNode) : State :=
  { s with partialList := fun c' => if c' = c then l else s.partialList c' }

end State

section Fields

variable (s : State) (t c d : Nat) (bin : ThreadCacheBin) (desc : Descriptor)
  (l : Option DescriptorNode)

@[simp] theorem setBin_mem : (s.setBin t c bin).mem = s.mem := rfl
@[simp] theorem setBin_mapped : (s.setBin t c bin).mapped = s.mapped := rfl
@[simp] theorem setBin_availableDesc : (s.setBin t c bin).availableDesc = s.availableDesc := rfl
@[simp] theorem setBin_descs : (s.setBin t c bin).descs = s.descs := rfl
@[simp] theorem setBin_carved : (s.setBin t c bin).carved = s.carved := rfl
@[simp] theorem setBin_partialList : (s.setBin t c bin).partialList = s.partialList := rfl
@[simp] theorem setBin_pageMap : (s.setBin t c bin).pageMap = s.pageMap := rfl
@[simp] theorem setBin_same : (s.setBin t c bin).threadCache t c = bin :=
  if_pos ⟨rfl, rfl⟩
theorem setBin_other {t' c' : Nat} (h : ¬(t' = t ∧ c' = c)) :
    (s.setBin t c bin).threadCache t' c' = s.threadCache t' c' := if_neg h

theorem setBin_self : s.setBin t c (s.threadCache t c) = s := by
  unfold State.setBin
  congr
  funext t' c'
  split
  next h => rw [h.1, h.2]
  next => rfl

theorem setBin_setBin (bin' : ThreadCacheBin) :
    (s.setBin t c bin).setBin t c bin' = s.setBin t c bin' := by
  unfold State.setBin
  congr
  funext t' c'
  split
  next => rfl
  next h => exact if_neg h

@[simp] theorem setDesc_mem : (s.setDesc d desc).mem = s.mem := rfl
@[simp] theorem setDesc_mapped : (s.setDesc d desc).mapped = s.mapped := rfl
@[simp] theorem setDesc_availableDesc : (s.setDesc d desc).availableDesc = s.availableDesc := rfl
@[simp] theorem setDesc_carved : (s.setDesc d desc).carved = s.carved := rfl
@[simp] theorem setDesc_partialList : (s.setDesc d desc).partialList = s.partialList := rfl
@[simp] theorem setDesc_pageMap : (s.setDesc d desc).pageMap = s.pageMap := rfl
@[simp] theorem setDesc_threadCache : (s.setDesc d desc).threadCache = s.threadCache := rfl
@[simp] theorem setDesc_same : (s.setDesc d desc).descs d = desc := if_pos rfl
theorem setDesc_other {d' : Nat} (h : d' ≠ d) : (s.setDesc d desc).descs d' = s.descs d' :=
  if_neg h

@[simp] theorem setPartialList_mem : (s.setPartialList c l).mem = s.mem := rfl
@[simp] theorem setPartialList_mapped : (s.setPartialList c l).mapped = s.mapped := rfl
@[simp] theorem setPartialList_descs : (s.setPartialList c l).descs = s.descs := rfl
@[simp] theorem setPartialList_pageMap : (s.setPartialList c l).pageMap = s.pageMap := rfl
@[simp] theorem setPartialList_threadCache :
    (s.setPartialList c l).threadCache = s.threadCache := rfl

end Fields

/-! ## The segment allocator -/

/-- `SEGMENT_ALLOCATOR.allocate`; `none` is its `Err`. The kernel hands out
zeroed pages. -/
def segAllocate (os : Os) (size : Nat) (s : State) : Option (Segment × State) :=
  match os.mmap s.mapped size with
  | none => none
  | some p =>
    some (⟨p, size⟩, { s with mapped := ⟨p, size⟩ :: s.mapped,
                              mem := zeroFill s.mem p (regionLen size) })

/-- `SEGMENT_ALLOCATOR.deallocate`, that is `munmap`. -/
def segDeallocate (seg : Segment) (s : State) : State :=
  { s with mapped := s.mapped.erase seg }

/-- What a successful `allocate` did. -/
theorem segAllocate_cases {os : Os} {size : Nat} {s s' : State} {seg : Segment}
    (h : segAllocate os size s = some (seg, s')) :
    seg.length = size ∧ seg.Valid ∧ (∀ seg' ∈ s.mapped, seg.Apart seg') ∧
      s' = { s with mapped := seg :: s.mapped,
                    mem := zeroFill s.mem seg.ptr (regionLen size) } := by
  unfold segAllocate at h
  cases hm : os.mmap s.mapped size with
  | none => rw [hm] at h; cases h
  | some p =>
    rw [hm] at h
    simp only [Option.some.injEq, Prod.mk.injEq] at h
    obtain ⟨rfl, rfl⟩ := h
    exact ⟨rfl, os.valid hm, os.fresh hm, rfl⟩

/-- `init_malloc` and the reserve it sets up: no heap has a partial list, no page
has a descriptor, no thread has a block. -/
def BootstrapReserve.maxSize : Nat := 128 * 1028

def startState : State where
  mem := fun _ => 0
  mapped := []
  availableDesc := DescriptorNode.new
  descs := fun _ => Descriptor.default
  carved := []
  partialList := fun _ => none
  pageMap := fun _ => PageInfo.default
  threadCache := fun _ _ => ThreadCacheBin.new
  bootstrapReserve := ⟨[], 0, 0, BootstrapReserve.maxSize⟩
  useBootstrap := false
  panicking := fun _ => false

/-- `init_malloc` up to the bootstrap reserve's first segment; the process exits
when that cannot be had. -/
def initMalloc (os : Os) : Option State := do
  let (seg, s) ← segAllocate os startState.bootstrapReserve.max startState
  some { s with bootstrapReserve :=
          ⟨[seg], seg.ptr, BootstrapReserve.maxSize, BootstrapReserve.maxSize⟩ }

end Apfmalloc
