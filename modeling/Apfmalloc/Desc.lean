import Apfmalloc.SizeClasses

/-!
# `allocation_data.rs`, `allocation_data/desc.rs`: anchors, nodes, descriptors

A `Descriptor` describes one segment: a superblock of a size class or one large
allocation. Descriptors sit on two intrusive lists (`next_free`,
`next_partial`) whose links are `DescriptorNode`s: the address of a descriptor,
64-byte aligned, with a 6-bit counter packed into the low bits. The packing is
kept as the source does it, and `getDesc_set`/`getCounter_set` are the only
facts about it used later: whatever the counter is, the descriptor comes back.
-/

namespace Apfmalloc

open Base

inductive SuperBlockState
  | full
  | partly
  | empty
  deriving DecidableEq, Repr

/-- The packed word of a superblock: 2 bits of state, 30 of `avail`, 32 of
`count`. The setters keep the width of their field. -/
structure Anchor where
  state : SuperBlockState
  avail : Nat
  count : Nat
  deriving DecidableEq, Repr

def Anchor.default : Anchor := ⟨.full, 0, 0⟩
def Anchor.setState (a : Anchor) (st : SuperBlockState) : Anchor := { a with state := st }
def Anchor.setAvail (a : Anchor) (v : Nat) : Anchor := { a with avail := v % 2 ^ 30 }
def Anchor.setCount (a : Anchor) (v : Nat) : Anchor := { a with count := v % 2 ^ 32 }

/-- A tagged pointer to a descriptor; 0 is null. -/
structure DescriptorNode where
  desc : Nat
  deriving DecidableEq, Repr

namespace DescriptorNode

def new : DescriptorNode := ⟨0⟩

/-- `set` overwrites the node: the descriptor with the low 6 bits of `count`, or
null. -/
def set (desc : Option Nat) (count : Nat) : DescriptorNode :=
  match desc with
  | some d => ⟨d ||| (count &&& cacheLineMask)⟩
  | none => ⟨0⟩

def getDesc (n : DescriptorNode) : Option Nat :=
  let fixedPtr := n.desc &&& usizeNot cacheLineMask
  if fixedPtr = 0 then none else some fixedPtr

def getCounter (n : DescriptorNode) : Nat := n.desc &&& cacheLineMask

/-- `From<*mut Descriptor>` -/
def ofPtr (d : Nat) : DescriptorNode := ⟨d⟩

end DescriptorNode

/-- The address of a descriptor: 64-byte aligned, not null, below `2^64`. -/
structure DescAddr (d : Nat) : Prop where
  aligned : d % cacheLine = 0
  pos : 0 < d
  lt : d < usizeSize

theorem set_desc_eq {d : Nat} (h : d % cacheLine = 0) (count : Nat) :
    (DescriptorNode.set (some d) count).desc = d + count % 64 := by
  change d ||| (count &&& (2 ^ 6 - 1)) = d + count % 64
  rw [and_low_mask]
  exact or_tag (k := 6) h (Nat.mod_lt _ (by decide))

theorem and_usizeNot_cacheLineMask {x : Nat} (h : x < usizeSize) :
    x &&& usizeNot cacheLineMask = x / 64 * 64 :=
  and_high_mask (w := 64) (k := 6) (by decide) h

@[simp] theorem getDesc_set {d : Nat} (h : DescAddr d) (count : Nat) :
    (DescriptorNode.set (some d) count).getDesc = some d := by
  have hmod := h.aligned
  have hpos := h.pos
  have hlt := h.lt
  rw [cacheLine_eq] at hmod
  rw [usizeSize_eq] at hlt
  have hc : count % 64 < 64 := Nat.mod_lt _ (by decide)
  rw [DescriptorNode.getDesc, set_desc_eq h.aligned,
    and_usizeNot_cacheLineMask (by rw [usizeSize_eq]; omega), div_mul_tag hmod hc]
  exact if_neg (Nat.ne_of_gt hpos)

theorem getDesc_set_none (count : Nat) : (DescriptorNode.set none count).getDesc = none := by
  rw [DescriptorNode.set, DescriptorNode.getDesc, Nat.zero_and]
  rfl

theorem getDesc_ofPtr {d : Nat} (h : DescAddr d) : (DescriptorNode.ofPtr d).getDesc = some d := by
  have hmod := h.aligned
  have hpos := h.pos
  rw [cacheLine_eq] at hmod
  rw [DescriptorNode.getDesc, DescriptorNode.ofPtr, and_usizeNot_cacheLineMask h.lt,
    Nat.div_mul_cancel (Nat.dvd_of_mod_eq_zero hmod)]
  exact if_neg (Nat.ne_of_gt hpos)

@[simp] theorem getDesc_new : DescriptorNode.new.getDesc = none := rfl

/-- The counter that comes back is the one put in, modulo 64. -/
theorem getCounter_set {d : Nat} (h : DescAddr d) (count : Nat) :
    (DescriptorNode.set (some d) count).getCounter = count % 64 := by
  rw [DescriptorNode.getCounter, set_desc_eq h.aligned]
  change (d + count % 64) &&& (2 ^ 6 - 1) = count % 64
  rw [and_low_mask]
  exact mod_tag h.aligned (Nat.mod_lt _ (by decide))

/-- Writing a node's own descriptor and counter back changes nothing, so a pop
that does so re-installs the stored link bit for bit. -/
theorem set_getDesc_getCounter {n : DescriptorNode} {d : Nat} (hn : n.desc < usizeSize)
    (h : n.getDesc = some d) : DescriptorNode.set (some d) n.getCounter = n := by
  have hd : d = n.desc / 64 * 64 := by
    rw [DescriptorNode.getDesc, and_usizeNot_cacheLineMask hn] at h
    by_cases h0 : n.desc / 64 * 64 = 0
    · rw [if_pos h0] at h
      cases h
    · rw [if_neg h0] at h
      exact (Option.some.inj h).symm
  have hc : n.getCounter = n.desc % 64 := and_low_mask 6 n.desc
  have hal : d % cacheLine = 0 := by
    rw [hd]
    exact Nat.mul_mod_left _ _
  obtain ⟨p⟩ := n
  have heq := set_desc_eq hal (DescriptorNode.getCounter ⟨p⟩)
  rw [hc, Nat.mod_mod, hd, Nat.mul_comm, Nat.div_add_mod] at heq
  exact congrArg DescriptorNode.mk (by rw [hc, hd, Nat.mul_comm]; exact heq)

/-- A contiguous mapping of the kernel, `ptr` and the length asked for. -/
structure Segment where
  ptr : Nat
  length : Nat
  deriving DecidableEq, Repr

/-- A superblock descriptor. `procHeap` is the index of the heap in `HEAPS`, or
`none` for the null pointer of a large allocation. -/
structure Descriptor where
  nextFree : Option DescriptorNode
  nextPartial : Option DescriptorNode
  anchor : Anchor
  superBlock : Option Segment
  procHeap : Option Nat
  blockSize : Nat
  maxCount : Nat
  deriving DecidableEq, Repr

def Descriptor.default : Descriptor where
  nextFree := none
  nextPartial := none
  anchor := Anchor.default
  superBlock := none
  procHeap := none
  blockSize := 0
  maxCount := 0

end Apfmalloc
