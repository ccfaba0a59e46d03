import Apfmalloc.Alloc

/-!
# `thread_cache.rs`: filling, flushing and tuning a bin

`fillCache` refills an empty bin, `flushCache` gives every block of a bin back
to its superblock, and `fetch` and `ret` are what the tuner calls to move the
number of cached blocks towards the demand it measured.

`flushCache` works in runs: it follows the raw first words of the blocks as long
as they stay inside the superblock of the top block, and puts the whole run on
that superblock's free list at once. The free list of a superblock is threaded
through its blocks as well; `anchor.avail` is the index of its first block, and
one past the last index is its end.
-/

namespace Apfmalloc

open Base

/-! ## `fill_cache` -/

def fillCache (cfg : Cfg) (os : Os) (t c : Nat) (s : State) : Option State := do
  let (blockNum, s) ← mallocFromPartial t c s
  let (blockNum, s) ← if blockNum = 0 then mallocFromNewSb cfg os t c s else some (blockNum, s)
  if blockNum = 0 ∨ (s.threadCache t c).blockNum = 0 then none
  else some (s.setBin t c { s.threadCache t c with blockSize := some (cfg.sizeClass c).blockSize })

/-! ## `flush_cache` -/

/-- The inner loop: `left` is `block_num - block_count`, the blocks not yet in
the run. Gives the length of the run and its last block. -/
def flushRun (m : Mem) (superBlock sbSize : Nat) : Nat → Nat → Nat → Nat × Nat
  | 0, blockCount, tail => (blockCount, tail)
  | left + 1, blockCount, tail =>
    let ptr := readWord m tail
    if ptr < superBlock ∨ superBlock + sbSize ≤ ptr then (blockCount, tail)
    else flushRun m superBlock sbSize left (blockCount + 1) ptr

/-- Both addresses are cut to 32 bits before the subtraction. The table of the
macro is the size-class table; an index it does not have panics. -/
def computeIndex (superBlock block c : Nat) : Option Nat :=
  let diff := (block % u32Size + u32Size - superBlock % u32Size) % u32Size
  if 1 ≤ c ∧ c < maxSzIdx then some (diff / classBlockSize c) else none

/-- The anchor after `blockCount` blocks starting at `index` came back. -/
def flushAnchor (oldAnchor : Anchor) (maxCount index blockCount : Nat) : Anchor :=
  let newAnchor := oldAnchor.setAvail index
  let newAnchor := if oldAnchor.state = .full then newAnchor.setState .partly else newAnchor
  if oldAnchor.count + blockCount = maxCount then
    (newAnchor.setCount (maxCount - 1)).setState .empty
  else newAnchor.setCount blockCount

/-- What becomes of the descriptor: an empty superblock goes back to the kernel,
one that was full joins the partial list of its heap. -/
def flushRelease (cfg : Cfg) (c d : Nat) (seg : Segment) (oldAnchor newAnchor : Anchor)
    (s : State) : Option State :=
  if newAnchor.state = .empty then do
    let s ← unregisterDesc cfg (some c) seg s
    some (segDeallocate seg (s.setDesc d { s.descs d with superBlock := none }))
  else if oldAnchor.state = .full then listPushPartial d s
  else some s

/-- One round of the outer loop for a top block `head` of descriptor `d`. -/
def flushRound (cfg : Cfg) (t c d : Nat) (s : State) : Option State := do
  let cache := s.threadCache t c
  let head := cache.block
  let seg ← (s.descs d).superBlock
  let (blockCount, tail) :=
    flushRun s.mem seg.ptr (cfg.sizeClass c).sbSize (cache.blockNum - 1) 1 head
  let cache ← cache.popList (readWord s.mem tail) blockCount
  let s := s.setBin t c cache
  let index ← computeIndex seg.ptr head c
  let oldAnchor := (s.descs d).anchor
  let next := seg.ptr + oldAnchor.avail * (cfg.sizeClass c).blockSize
  let s := { s with mem := writeWord s.mem tail next }
  let newAnchor := flushAnchor oldAnchor (s.descs d).maxCount index blockCount
  let s := s.setDesc d { s.descs d with anchor := newAnchor }
  flushRelease cfg c d seg oldAnchor newAnchor s

/-- The outer loop up to its next test; the flag says whether it goes on. -/
def flushIter (cfg : Cfg) (t c : Nat) (s : State) : Option (Bool × State) :=
  if (s.threadCache t c).blockNum = 0 then
    some (false, s.setBin t c { s.threadCache t c with blockSize := none })
  else
    match (getPageInfoForPtr s (s.threadCache t c).block).getDesc with
    -- the early return: the bin keeps its count and its `block_size`
    | none => some (false, s)
    | some d => (flushRound cfg t c d s).map fun s => (true, s)

def flushLoop (cfg : Cfg) (t c : Nat) : Nat → State → Option State
  | 0, _ => none
  | fuel + 1, s => do
    let (more, s) ← flushIter cfg t c s
    if more then flushLoop cfg t c fuel s else some s

/-- A round takes at least one block, so `block_num` rounds and the last test are
enough; running out of them is `none`. -/
def flushCache (cfg : Cfg) (t c : Nat) (s : State) : Option State :=
  flushLoop cfg t c ((s.threadCache t c).blockNum + 1) s

/-! ## The tuner's callbacks -/

/-- `while block_num < count { malloc_count_from_new_sb(…) }`; every round adds
at least one, so `count` rounds and the last test are enough. -/
def fetchLoop (cfg : Cfg) (os : Os) (t c count : Nat) : Nat → Nat → State → Option State
  | 0, _, _ => none
  | fuel + 1, blockNum, s =>
    if blockNum < count then do
      let (n, s) ← mallocCountFromNewSb cfg os t c count s
      fetchLoop cfg os t c count fuel (blockNum + n) s
    else some s

def fetch (cfg : Cfg) (os : Os) (t c count : Nat) (s : State) : Option State := do
  let (blockNum, s) ← mallocCountFromPartial cfg t c count s
  fetchLoop cfg os t c count (count + 1) blockNum s

/-- `for _i in 0..count { cache.pop_block(); }` -/
def popBlocks (noMet : Bool) (m : Mem) : Nat → ThreadCacheBin → Option ThreadCacheBin
  | 0, bin => some bin
  | n + 1, bin => do
    let (_, bin) ← bin.popBlock noMet m
    popBlocks noMet m n bin

def ret (cfg : Cfg) (t c count : Nat) (s : State) : Option State :=
  if (s.threadCache t c).blockNum < count then none
  else do
    let bin ← popBlocks cfg.noMetStack s.mem count (s.threadCache t c)
    some (s.setBin t c bin)

end Apfmalloc
