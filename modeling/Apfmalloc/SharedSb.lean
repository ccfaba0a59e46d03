import Apfmalloc.AnchorCas
import Apfmalloc.Base.Runs
import Apfmalloc.Base.Sole
import Mathlib.Data.List.Nodup

/-!
# One superblock, many threads

What the threads of the program share of a superblock is its anchor, the first words of
its blocks, and the place of its descriptor on the partial list. Here every atomic load,
every write of a link and every compare-exchange of `flush_cache` and of
`malloc_from_partial` is a step of its own, and any number of threads interleave: they
give back runs of blocks, take the free list whole, release the superblock when the last
block is back, push the descriptor, pop it and retire it. A weak compare-exchange may fail
for no reason. The partial list itself is one atomic place here (`PartialList.lean` opens
it up), and memory is sequentially consistent.

Two ghosts say what the code does not keep: `owner` who has a block, and in `ShareInv` the
free list as a list of indices, with the thread that has the descriptor in hand and the
one that releases the superblock. A compare-exchange that finds the anchor it loaded finds
the head it linked to, whatever happened in between, so an anchor that went away and came
back does no harm; what carries the argument is that nobody writes to a block of a run or
of the free list.

Superblocks of the build without the tuner are meant: the tuner's
`malloc_count_from_partial` takes blocks by index and pays no heed to the links.
-/

namespace Apfmalloc

open Base

/-! ## The state -/

/-- How a superblock is cut. -/
structure Super where
  ptr : Nat
  blockSize : Nat
  maxCount : Nat
  word_fits : 8 ≤ blockSize
  maxCount_pos : 0 < maxCount
  maxCount_lt : maxCount < 2 ^ 30
  end_lt : ptr + maxCount * blockSize < 2 ^ 64

/-- The address of a block. -/
def Super.at (sb : Super) (i : Nat) : Nat := sb.ptr + i * sb.blockSize

/-- Who has a block: a client or a bin, the flush of thread `t`, the free list, nobody. -/
inductive Owner
  | out
  | run (t : Nat)
  | free
  | lost
  deriving DecidableEq, Repr

/-- Where a thread is, as far as this superblock goes, with its locals. `run` are the blocks
the flush took off its bin, `head` first and `tail` last. -/
inductive SharePc
  | idle
  | flushLoad (run : List Nat)
  | flushLink (run : List Nat) (oldAnchor : Anchor)
  | flushCas (run : List Nat) (oldAnchor : Anchor)
  | unregister
  | dealloc
  | push
  | takeLoad
  | takeCas (oldAnchor : Anchor)
  deriving DecidableEq, Repr

structure ShareState where
  anchor : Anchor
  mem : Mem
  pc : Nat → SharePc
  owner : Nat → Owner
  /-- the descriptor is on the partial list -/
  listed : Bool
  /-- the pages name the descriptor -/
  registered : Bool
  /-- `super_block` is there -/
  superBlock : Bool
  /-- the descriptor is on the list of available ones again -/
  retired : Bool

namespace ShareState

/-- `malloc_from_new_sb`: every block is in a bin, and the list is empty. -/
def new (sb : Super) (m : Mem) : ShareState where
  anchor := listAnchor sb.maxCount Anchor.default
  mem := m
  pc := fun _ => .idle
  owner := fun _ => .out
  listed := false
  registered := true
  superBlock := true
  retired := false

def setPc (s : ShareState) (t : Nat) (p : SharePc) : ShareState :=
  { s with pc := fun t' => if t' = t then p else s.pc t' }

/-- The blocks of `run` change hands. -/
def give (s : ShareState) (run : List Nat) (o : Owner) : ShareState :=
  { s with owner := fun i => if i ∈ run then o else s.owner i }

end ShareState

/-- The exchange of a flush: its run is in front of the free list. -/
def ShareState.putBack (s : ShareState) (sb : Super) (oldAnchor : Anchor) (run : List Nat) :
    ShareState :=
  { s with anchor := flushStore sb.maxCount oldAnchor run }.give run .free

/-- The blocks a bin gets with `push_list(block, n)`: what the first words lead to. -/
def walk (m : Mem) : Nat → Nat → List Nat
  | 0, _ => []
  | n + 1, block => block :: walk m n (readWord m block)

/-- A refill takes `count` blocks from `avail` on; the rest of the free list is out of reach
from then on. -/
def ShareState.take (s : ShareState) (sb : Super) (oldAnchor : Anchor) : ShareState :=
  { s with
    anchor := listAnchor sb.maxCount oldAnchor
    owner := fun i =>
      if sb.at i ∈ walk s.mem oldAnchor.count (sb.at oldAnchor.avail) then .out
      else if s.owner i = .free then .lost else s.owner i }

/-- The run is linked, from its head to its tail. -/
def RunChain (sb : Super) (m : Mem) (run : List Nat) (z : Nat) : Prop :=
  ChainTo (readWord m) (sb.at (run.headD 0)) (run.map sb.at) z

/-- What is left to do after the exchange of a flush. -/
def flushNext (oldAnchor newAnchor : Anchor) : SharePc :=
  if newAnchor.state = .empty then .unregister
  else if oldAnchor.state = .full then .push
  else .idle

inductive ShareOp
  | write
  | grab (t : Nat) (run : List Nat)
  | flushLoad (t : Nat)
  | flushLink (t : Nat)
  | flushCas (t : Nat)
  | flushRetry (t : Nat)
  | unregister (t : Nat)
  | dealloc (t : Nat)
  | push (t : Nat)
  | pop (t : Nat)
  | takeLoad (t : Nat)
  | takeCas (t : Nat)
  | takeRetry (t : Nat)
  | retire (t : Nat)
  deriving DecidableEq, Repr

/-- One atomic step of thread `t`. An `unwrap` of a `super_block` that is gone has no step.
`write` is whatever clients and bins write: to blocks that are out, and elsewhere. -/
inductive ShareStep (sb : Super) : ShareState → ShareOp → ShareState → Prop
  | write {s : ShareState} {m : Mem} :
      (∀ i < sb.maxCount, s.owner i ≠ .out →
        ∀ k < sb.blockSize, m (sb.at i + k) = s.mem (sb.at i + k)) →
      ShareStep sb s .write { s with mem := m }
  | grab {s : ShareState} {t : Nat} {run : List Nat} : s.pc t = .idle → s.registered = true →
      s.superBlock = true → run ≠ [] → run.Nodup → (∀ i ∈ run, i < sb.maxCount ∧ s.owner i = .out) →
      RunChain sb s.mem run (readWord s.mem (sb.at (run.getLastD 0))) →
      ShareStep sb s (.grab t run) ((s.give run (.run t)).setPc t (.flushLoad run))
  | flushLoad {s : ShareState} {t : Nat} {run : List Nat} : s.pc t = .flushLoad run →
      ShareStep sb s (.flushLoad t) (s.setPc t (.flushLink run s.anchor))
  | flushLink {s : ShareState} {t : Nat} {run : List Nat} {oldAnchor : Anchor} :
      s.pc t = .flushLink run oldAnchor →
      ShareStep sb s (.flushLink t)
        ({ s with mem := writeWord s.mem (sb.at (run.getLastD 0)) (sb.at oldAnchor.avail) }.setPc t
          (.flushCas run oldAnchor))
  | flushCas {s : ShareState} {t : Nat} {run : List Nat} {oldAnchor : Anchor} :
      s.pc t = .flushCas run oldAnchor → s.anchor = oldAnchor →
      ShareStep sb s (.flushCas t)
        ((s.putBack sb oldAnchor run).setPc t
          (flushNext oldAnchor (flushStore sb.maxCount oldAnchor run)))
  | flushRetry {s : ShareState} {t : Nat} {run : List Nat} {oldAnchor : Anchor} :
      s.pc t = .flushCas run oldAnchor →
      ShareStep sb s (.flushRetry t) (s.setPc t (.flushLoad run))
  | unregister {s : ShareState} {t : Nat} : s.pc t = .unregister → s.superBlock = true →
      ShareStep sb s (.unregister t) ({ s with registered := false }.setPc t .dealloc)
  | dealloc {s : ShareState} {t : Nat} : s.pc t = .dealloc →
      ShareStep sb s (.dealloc t) ({ s with superBlock := false }.setPc t .idle)
  | push {s : ShareState} {t : Nat} : s.pc t = .push →
      ShareStep sb s (.push t) ({ s with listed := true }.setPc t .idle)
  | pop {s : ShareState} {t : Nat} : s.pc t = .idle → s.listed = true →
      ShareStep sb s (.pop t) ({ s with listed := false }.setPc t .takeLoad)
  | takeLoad {s : ShareState} {t : Nat} : s.pc t = .takeLoad →
      ShareStep sb s (.takeLoad t) (s.setPc t (.takeCas s.anchor))
  | takeCas {s : ShareState} {t : Nat} {oldAnchor : Anchor} : s.pc t = .takeCas oldAnchor →
      oldAnchor.state ≠ .empty → s.anchor = oldAnchor → s.superBlock = true →
      ShareStep sb s (.takeCas t) ((s.take sb oldAnchor).setPc t .idle)
  -- the anchor is not loaded again
  | takeRetry {s : ShareState} {t : Nat} {oldAnchor : Anchor} : s.pc t = .takeCas oldAnchor →
      oldAnchor.state ≠ .empty → s.anchor ≠ oldAnchor →
      ShareStep sb s (.takeRetry t) (s.setPc t (.takeCas oldAnchor))
  | retire {s : ShareState} {t : Nat} {oldAnchor : Anchor} : s.pc t = .takeCas oldAnchor →
      oldAnchor.state = .empty →
      ShareStep sb s (.retire t) ({ s with retired := true }.setPc t .idle)

/-! ## The invariant -/

/-- The thread has the descriptor in hand: it is about to push it, or it popped it. -/
def SharePc.HasDesc : SharePc → Prop
  | .push => True
  | .takeLoad => True
  | .takeCas _ => True
  | _ => False

/-- The thread found the superblock empty and is giving it back. -/
def SharePc.Releases : SharePc → Prop
  | .unregister => True
  | .dealloc => True
  | _ => False

/-- A run that is on its way back: blocks of thread `t`'s flush, linked up to `z`. -/
structure RunHeld (sb : Super) (s : ShareState) (t : Nat) (run : List Nat) (z : Nat) : Prop where
  ne_nil : run ≠ []
  nodup : run.Nodup
  held : ∀ i ∈ run, i < sb.maxCount ∧ s.owner i = .run t
  chain : RunChain sb s.mem run z

/-- What the locals of a thread say about the state. -/
def ShareOk (sb : Super) (s : ShareState) (t : Nat) : SharePc → Prop
  | .flushLoad run => ∃ z, RunHeld sb s t run z
  | .flushLink run oldAnchor => oldAnchor.avail ≤ sb.maxCount ∧ ∃ z, RunHeld sb s t run z
  | .flushCas run oldAnchor => RunHeld sb s t run (sb.at oldAnchor.avail)
  | .unregister => s.registered = true ∧ s.superBlock = true
  | .dealloc => s.superBlock = true
  | .takeCas oldAnchor => oldAnchor.state = .empty → s.anchor.state = .empty
  | _ => True

/-- The free list is in memory, and the anchor speaks of it. -/
structure FreeOk (sb : Super) (s : ShareState) (free : List Nat) : Prop where
  nodup : free.Nodup
  mem : ∀ i, i ∈ free ↔ i < sb.maxCount ∧ s.owner i = .free
  chain : ChainTo (readWord s.mem) (sb.at s.anchor.avail) (free.map sb.at) (sb.at sb.maxCount)
  count : s.anchor.count ≤ free.length
  full : s.anchor.state = .full → free = []
  partly : s.anchor.state = .partly → 0 < s.anchor.count
  empty : s.anchor.state = .empty → free.length = sb.maxCount

/-- The descriptor is in one place: on the list, or with the thread `hand`. -/
structure HandOk (s : ShareState) (hand : Option Nat) : Prop where
  sole : Sole (fun t => (s.pc t).HasDesc) hand
  listed : s.listed = true → hand = none
  full : s.anchor.state = .full → s.listed = false ∧ hand = none
  partly : s.anchor.state = .partly → s.listed = true ∨ hand ≠ none
  retired : s.retired = true → s.anchor.state = .empty ∧ s.listed = false ∧ hand = none

/-- One thread releases the superblock, once it is empty. -/
structure ReleaseOk (s : ShareState) (rel : Option Nat) : Prop where
  sole : Sole (fun t => (s.pc t).Releases) rel
  empty : rel ≠ none → s.anchor.state = .empty
  there : s.anchor.state ≠ .empty → s.registered = true ∧ s.superBlock = true

structure ShareInv (sb : Super) (s : ShareState) (free : List Nat) (hand rel : Option Nat) :
    Prop where
  free : FreeOk sb s free
  pcs : ∀ t, ShareOk sb s t (s.pc t)
  hand : HandOk s hand
  rel : ReleaseOk s rel

/-! ## Blocks -/

theorem Super.at_apart (sb : Super) {i j : Nat} (h : i ≠ j) :
    sb.at i + sb.blockSize ≤ sb.at j ∨ sb.at j + sb.blockSize ≤ sb.at i := by
  unfold Super.at
  rcases Nat.lt_or_gt_of_ne h with h | h
  · have := Nat.mul_le_mul_right sb.blockSize h
    rw [Nat.succ_mul] at this
    omega
  · have := Nat.mul_le_mul_right sb.blockSize h
    rw [Nat.succ_mul] at this
    omega

theorem Super.at_inj (sb : Super) {i j : Nat} (h : sb.at i = sb.at j) : i = j := by
  have := sb.word_fits
  by_contra hne
  have := sb.at_apart hne
  omega

theorem Super.at_lt (sb : Super) {i : Nat} (h : i ≤ sb.maxCount) : sb.at i < 2 ^ 64 := by
  have := Nat.mul_le_mul_right sb.blockSize h
  have := sb.end_lt
  unfold Super.at
  omega

theorem Super.mem_map_at (sb : Super) {i : Nat} {l : List Nat} : sb.at i ∈ l.map sb.at ↔ i ∈ l := by
  constructor
  · intro h
    obtain ⟨j, hj, he⟩ := List.mem_map.mp h
    exact sb.at_inj he ▸ hj
  · exact List.mem_map_of_mem

theorem Super.word_congr (sb : Super) {m m' : Mem} {i : Nat}
    (h : ∀ k < sb.blockSize, m' (sb.at i + k) = m (sb.at i + k)) :
    readWord m' (sb.at i) = readWord m (sb.at i) := by
  have := sb.word_fits
  exact readWord_congr fun k hk => h k (by omega)

theorem Super.word_write (sb : Super) {m : Mem} {i j v : Nat} (h : i ≠ j) :
    readWord (writeWord m (sb.at j) v) (sb.at i) = readWord m (sb.at i) := by
  have := sb.word_fits
  have := sb.at_apart h
  exact readWord_writeWord_ne (by omega)

/-- Different indices below `n` are at most `n` of them, and if they are that many they are
all. -/
theorem indices_all {l : List Nat} {n : Nat} (hnd : l.Nodup) (hlt : ∀ i ∈ l, i < n) :
    l.length ≤ n ∧ (n ≤ l.length → ∀ i < n, i ∈ l) := by
  have hsub : l ⊆ List.range n := fun i hi => List.mem_range.mpr (hlt i hi)
  have hsp := List.subperm_of_subset hnd hsub
  refine ⟨by simpa using hsp.length_le, fun hle i hi => ?_⟩
  exact (hsp.perm_of_length_le (by simpa using hle)).mem_iff.mpr (List.mem_range.mpr hi)

/-- Walking `n` links of a longer chain. -/
theorem walk_eq_take {m : Mem} {z : Nat} :
    ∀ {l : List Nat} {a n : Nat}, ChainTo (readWord m) a l z → n ≤ l.length →
      walk m n a = l.take n := by
  intro l
  induction l with
  | nil =>
    intro a n _ hn
    obtain rfl : n = 0 := Nat.le_zero.mp hn
    rfl
  | cons x l ih =>
    intro a n h hn
    obtain ⟨rfl, h⟩ := h
    cases n with
    | zero => rfl
    | succ n => rw [walk, List.take_succ_cons, ih h (Nat.le_of_succ_le_succ hn)]

section Frames

variable {sb : Super} {s s' : ShareState} {free : List Nat} {hand rel : Option Nat} {t : Nat}
  {p p₀ : SharePc}

theorem share_setPc_same (s : ShareState) (t : Nat) (p : SharePc) : (s.setPc t p).pc t = p :=
  if_pos rfl

theorem share_setPc_other (s : ShareState) {t t' : Nat} (p : SharePc) (h : t' ≠ t) :
    (s.setPc t p).pc t' = s.pc t' := if_neg h

theorem FreeOk.avail_le (h : FreeOk sb s free) : s.anchor.avail ≤ sb.maxCount := by
  have hchain := h.chain
  cases free with
  | nil => exact Nat.le_of_eq (sb.at_inj hchain)
  | cons i l =>
    have hi := (h.mem i).mp (List.mem_cons_self ..)
    rw [sb.at_inj hchain.1]
    exact Nat.le_of_lt hi.1

/-- The free list stays where owners and words of its blocks do. -/
theorem FreeOk.frame (h : FreeOk sb s free) (ha : s'.anchor = s.anchor)
    (ho : ∀ i < sb.maxCount, s'.owner i = .free ↔ s.owner i = .free)
    (hm : ∀ i < sb.maxCount, s.owner i = .free →
      readWord s'.mem (sb.at i) = readWord s.mem (sb.at i)) : FreeOk sb s' free := by
  refine ⟨h.nodup, fun i => ?_, ?_, by rw [ha]; exact h.count, by rw [ha]; exact h.full,
    by rw [ha]; exact h.partly, by rw [ha]; exact h.empty⟩
  · rw [h.mem]
    exact and_congr_right fun hi => (ho i hi).symm
  · rw [ha]
    refine h.chain.congr fun x hx => ?_
    obtain ⟨i, hi, rfl⟩ := List.mem_map.mp hx
    obtain ⟨hlt, hfree⟩ := (h.mem i).mp hi
    exact (hm i hlt hfree).symm

/-- Two threads' blocks are different ones. -/
theorem RunHeld.frame {run : List Nat} {z : Nat} (h : RunHeld sb s t run z)
    (ho : ∀ i, s.owner i = .run t → s'.owner i = .run t)
    (hm : ∀ i < sb.maxCount, s.owner i = .run t →
      readWord s'.mem (sb.at i) = readWord s.mem (sb.at i)) : RunHeld sb s' t run z := by
  refine ⟨h.ne_nil, h.nodup, fun i hi => ⟨(h.held i hi).1, ho i (h.held i hi).2⟩, ?_⟩
  refine h.chain.congr fun x hx => ?_
  obtain ⟨i, hi, rfl⟩ := List.mem_map.mp hx
  exact (hm i (h.held i hi).1 (h.held i hi).2).symm

/-- A thread's locals speak of its own blocks, of an anchor that is empty for good, and of a
release that is its own. -/
theorem ShareOk.frame (h : ShareOk sb s t p) (ho : ∀ i, s.owner i = .run t → s'.owner i = .run t)
    (hm : ∀ i < sb.maxCount, s.owner i = .run t →
      readWord s'.mem (sb.at i) = readWord s.mem (sb.at i))
    (he : s.anchor.state = .empty → s'.anchor.state = .empty)
    (hr : p.Releases → s'.registered = s.registered ∧ s'.superBlock = s.superBlock) :
    ShareOk sb s' t p := by
  cases p with
  | flushLoad run => exact h.imp fun z hz => hz.frame ho hm
  | flushLink run old => exact ⟨h.1, h.2.imp fun z hz => hz.frame ho hm⟩
  | flushCas run old => exact RunHeld.frame h ho hm
  | unregister =>
    obtain ⟨hreg, hsup⟩ := hr trivial
    exact ⟨hreg.trans h.1, hsup.trans h.2⟩
  | dealloc => exact (hr trivial).2.trans h
  | takeCas old => exact fun hold => he (h hold)
  | _ => trivial

/-- The others are as before, and the thread that moved is where it should be. -/
theorem ShareOk.set (hother : ∀ t', t' ≠ t → ShareOk sb s t' (s.pc t'))
    (hp : ShareOk sb (s.setPc t p) t p) (t' : Nat) :
    ShareOk sb (s.setPc t p) t' ((s.setPc t p).pc t') := by
  by_cases ht : t' = t
  · subst ht
    rw [share_setPc_same]
    exact hp
  · rw [share_setPc_other _ _ ht]
    exact (hother t' ht).frame (fun _ h => h) (fun _ _ _ => rfl) (fun h => h) fun _ => ⟨rfl, rfl⟩

theorem soleAt_keep {q : SharePc → Prop} {o : Option Nat} (h : Sole (fun t => q (s.pc t)) o)
    (hpc : s.pc t = p₀) (hq : q p ↔ q p₀) : Sole (fun t' => q ((s.setPc t p).pc t')) o :=
  h.keep (fun _ ht => by rw [share_setPc_other _ _ ht])
    (by rw [share_setPc_same, hpc]; exact hq)

theorem soleAt_enter {q : SharePc → Prop} (h : Sole (fun t => q (s.pc t)) none) (hq : q p) :
    Sole (fun t' => q ((s.setPc t p).pc t')) (some t) :=
  h.enter (fun _ ht => by rw [share_setPc_other _ _ ht]) (by rw [share_setPc_same]; exact hq)

theorem soleAt_leave {q : SharePc → Prop} {o : Option Nat} (h : Sole (fun t => q (s.pc t)) o)
    (hpc : s.pc t = p₀) (hwas : q p₀) (hq : ¬q p) : Sole (fun t' => q ((s.setPc t p).pc t')) none :=
  h.leave (fun _ ht => by rw [share_setPc_other _ _ ht]) (by rw [hpc]; exact hwas)
    (by rw [share_setPc_same]; exact hq)

theorem soleAt_eq {q : SharePc → Prop} {o : Option Nat} (h : Sole (fun t => q (s.pc t)) o)
    (hpc : s.pc t = p₀) (hq : q p₀) : o = some t := by
  refine (h t).mp ?_
  show q (s.pc t)
  rw [hpc]
  exact hq

theorem HandOk.not_listed (h : HandOk s (some t)) : s.listed = false := by
  cases hl : s.listed with
  | false => rfl
  | true => cases h.listed hl

theorem ShareInv.at_pc (h : ShareInv sb s free hand rel) (hpc : s.pc t = p) : ShareOk sb s t p :=
  hpc ▸ h.pcs t

/-- A step of a thread that neither gets nor loses the descriptor nor the release. -/
theorem ShareInv.move (h : ShareInv sb s free hand rel) (hp : ShareOk sb s t p)
    (hpc : s.pc t = p₀) (hd : p.HasDesc ↔ p₀.HasDesc) (hr : p.Releases ↔ p₀.Releases) :
    ShareInv sb (s.setPc t p) free hand rel := by
  refine ⟨h.free.frame rfl (fun _ _ => Iff.rfl) fun _ _ _ => rfl,
    ShareOk.set (fun t' _ => h.pcs t') ?_,
    ⟨soleAt_keep h.hand.sole hpc hd, h.hand.listed, h.hand.full, h.hand.partly, h.hand.retired⟩,
    ⟨soleAt_keep h.rel.sole hpc hr, h.rel.empty, h.rel.there⟩⟩
  exact hp.frame (fun _ ho => ho) (fun _ _ _ => rfl) (fun he => he) fun _ => ⟨rfl, rfl⟩

end Frames

/-! ## The steps -/

section Steps

variable {sb : Super} {s : ShareState} {free : List Nat} {hand rel : Option Nat} {t : Nat}

/-- Whatever is written to blocks that are out. -/
theorem ShareInv.write (h : ShareInv sb s free hand rel) {m : Mem}
    (hm : ∀ i < sb.maxCount, s.owner i ≠ .out →
      ∀ k < sb.blockSize, m (sb.at i + k) = s.mem (sb.at i + k)) :
    ShareInv sb { s with mem := m } free hand rel := by
  have hword : ∀ i < sb.maxCount, s.owner i ≠ .out →
      readWord m (sb.at i) = readWord s.mem (sb.at i) :=
    fun i hi ho => sb.word_congr (hm i hi ho)
  refine ⟨h.free.frame rfl (fun _ _ => Iff.rfl) fun i hi ho => ?_, fun t => ?_,
    ⟨h.hand.sole, h.hand.listed, h.hand.full, h.hand.partly, h.hand.retired⟩,
    ⟨h.rel.sole, h.rel.empty, h.rel.there⟩⟩
  · exact hword i hi (by rw [ho]; exact fun he => by cases he)
  · refine (h.pcs t).frame (fun _ ho => ho) (fun i hi ho => ?_) (fun he => he) fun _ => ⟨rfl, rfl⟩
    exact hword i hi (by rw [ho]; exact fun he => by cases he)

/-- A run leaves its bin. -/
theorem ShareInv.grab (h : ShareInv sb s free hand rel) {run : List Nat} (hpc : s.pc t = .idle)
    (hne : run ≠ []) (hnd : run.Nodup) (hout : ∀ i ∈ run, i < sb.maxCount ∧ s.owner i = .out)
    {z : Nat} (hchain : RunChain sb s.mem run z) :
    ShareInv sb ((s.give run (.run t)).setPc t (.flushLoad run)) free hand rel := by
  have hkeep : ∀ i, s.owner i ≠ .out → (s.give run (.run t)).owner i = s.owner i := by
    intro i hi
    exact if_neg fun hm => hi (hout i hm).2
  have hfree : FreeOk sb (s.give run (.run t)) free := by
    refine h.free.frame rfl (fun i _ => ?_) fun _ _ _ => rfl
    by_cases hi : i ∈ run
    · have hown : (s.give run (.run t)).owner i = .run t := if_pos hi
      rw [hown, (hout i hi).2]
      exact ⟨fun he => (by cases he), fun he => (by cases he)⟩
    · rw [show (s.give run (.run t)).owner i = s.owner i from if_neg hi]
  refine ⟨hfree.frame rfl (fun _ _ => Iff.rfl) fun _ _ _ => rfl, ShareOk.set (fun t' _ => ?_) ?_,
    ⟨soleAt_keep h.hand.sole hpc Iff.rfl, h.hand.listed, h.hand.full,
      h.hand.partly, h.hand.retired⟩,
    ⟨soleAt_keep h.rel.sole hpc Iff.rfl, h.rel.empty, h.rel.there⟩⟩
  · refine (h.pcs t').frame (fun i ho => ?_) (fun _ _ _ => rfl) (fun he => he) fun _ => ⟨rfl, rfl⟩
    rw [hkeep i (by rw [ho]; exact fun he => by cases he), ho]
  · exact ⟨z, hne, hnd, fun i hi => ⟨(hout i hi).1, if_pos hi⟩, hchain⟩

theorem getLastD_mem {l : List Nat} (h : l ≠ []) : l.getLastD 0 ∈ l := by
  rw [List.getLastD_eq_getLast?, List.getLast?_eq_some_getLast h]
  exact List.getLast_mem h

/-- **The tail is linked** to the head the flush loaded. -/
theorem RunHeld.link {run : List Nat} {z v : Nat} (h : RunHeld sb s t run z) (hv : v < 2 ^ 64) :
    RunHeld sb { s with mem := writeWord s.mem (sb.at (run.getLastD 0)) v } t run v := by
  refine ⟨h.ne_nil, h.nodup, h.held, ?_⟩
  obtain ⟨pre, y, rfl⟩ : ∃ pre y, run = pre ++ [y] :=
    ⟨run.dropLast, run.getLast h.ne_nil, (List.dropLast_append_getLast h.ne_nil).symm⟩
  have hlast : (pre ++ [y]).getLastD 0 = y := by
    rw [List.getLastD_eq_getLast?, List.getLast?_concat]
    rfl
  have hchain := h.chain
  unfold RunChain at hchain ⊢
  rw [hlast, List.map_append] at *
  obtain ⟨b, hpre, hy⟩ := chainTo_append.mp hchain
  refine chainTo_append.mpr ⟨b, hpre.congr fun x hx => ?_, hy.1, readWord_writeWord hv⟩
  obtain ⟨i, hi, rfl⟩ := List.mem_map.mp hx
  have hne : i ≠ y := (List.nodup_append.mp h.nodup).2.2 i hi y (List.mem_cons_self ..)
  exact (sb.word_write hne).symm

theorem ShareInv.flushLink (h : ShareInv sb s free hand rel) {run : List Nat} {oldAnchor : Anchor}
    (hpc : s.pc t = .flushLink run oldAnchor) :
    ShareInv sb ({ s with
      mem := writeWord s.mem (sb.at (run.getLastD 0)) (sb.at oldAnchor.avail) }.setPc
      t (.flushCas run oldAnchor)) free hand rel := by
  obtain ⟨hav, z, hrun⟩ := h.at_pc hpc
  have htail := (hrun.held _ (getLastD_mem hrun.ne_nil)).2
  -- no block of the free list and of another run is the tail
  have hword : ∀ i, s.owner i ≠ .run t → readWord (writeWord s.mem (sb.at (run.getLastD 0))
      (sb.at oldAnchor.avail)) (sb.at i) = readWord s.mem (sb.at i) := by
    intro i hi
    exact sb.word_write fun he => hi (he ▸ htail)
  refine ⟨h.free.frame rfl (fun _ _ => Iff.rfl) fun i _ ho => ?_, ShareOk.set (fun t' ht => ?_) ?_,
    ⟨soleAt_keep h.hand.sole hpc Iff.rfl, h.hand.listed, h.hand.full,
      h.hand.partly, h.hand.retired⟩,
    ⟨soleAt_keep h.rel.sole hpc Iff.rfl, h.rel.empty, h.rel.there⟩⟩
  · exact hword i (by rw [ho]; exact fun he => by cases he)
  · refine (h.pcs t').frame (fun _ ho => ho) (fun i _ ho => ?_) (fun he => he) fun _ => ⟨rfl, rfl⟩
    exact hword i (by rw [ho]; exact fun he => ht (Owner.run.inj he))
  · exact (hrun.link (sb.at_lt hav)).frame (fun _ ho => ho) fun _ _ _ => rfl

/-- A run that is held is not the free list's, and the superblock is not empty. -/
theorem FreeOk.disjoint (h : FreeOk sb s free) {run : List Nat} {z : Nat}
    (hrun : RunHeld sb s t run z) : (run ++ free).Nodup ∧ (∀ i ∈ run ++ free, i < sb.maxCount) ∧
      s.anchor.state ≠ .empty := by
  have hlt : ∀ i ∈ run ++ free, i < sb.maxCount := fun i hi =>
    (List.mem_append.mp hi).elim (fun hi => (hrun.held i hi).1) fun hi => ((h.mem i).mp hi).1
  have hnd : (run ++ free).Nodup := by
    refine List.nodup_append.mpr ⟨hrun.nodup, h.nodup, fun i hi j hj he => ?_⟩
    have hfree := ((h.mem j).mp hj).2
    rw [← he, (hrun.held i hi).2] at hfree
    cases hfree
  refine ⟨hnd, hlt, fun he => ?_⟩
  have hle := (indices_all hnd hlt).1
  have hpos := List.length_pos_iff.mpr hrun.ne_nil
  rw [List.length_append, h.empty he] at hle
  omega

/-- **The exchange of a flush** puts the run in front of the free list. The count it stores
may be too small, so a superblock it calls empty is. -/
theorem FreeOk.flushCas (h : FreeOk sb s free) {run : List Nat}
    (hrun : RunHeld sb s t run (sb.at s.anchor.avail)) :
    FreeOk sb (s.putBack sb s.anchor run) (run ++ free) := by
  obtain ⟨hnd, hlt, hne⟩ := h.disjoint hrun
  obtain ⟨hle, -⟩ := indices_all hnd hlt
  have hmax := sb.maxCount_lt
  have hcount := h.count
  have hpos := List.length_pos_iff.mpr hrun.ne_nil
  rw [List.length_append] at hle
  have hhead : run.headD 0 < sb.maxCount := by
    obtain ⟨i, rest, rfl⟩ := List.exists_cons_of_ne_nil hrun.ne_nil
    exact (hrun.held i (List.mem_cons_self ..)).1
  have hempty : (flushStore sb.maxCount s.anchor run).state = .empty ↔
      s.anchor.count + run.length = sb.maxCount := flushAnchor_empty hne
  refine ⟨hnd, fun i => ?_, ?_, ?_, fun hfull => absurd hfull flushStore_not_full, fun hp => ?_,
    fun he => ?_⟩
  · rw [List.mem_append]
    by_cases hi : i ∈ run
    · exact ⟨fun _ => ⟨(hrun.held i hi).1, if_pos hi⟩, fun _ => Or.inl hi⟩
    · rw [show (s.putBack sb s.anchor run).owner i = s.owner i from if_neg hi, ← h.mem i]
      exact ⟨fun hm => hm.resolve_left hi, Or.inr⟩
  · show ChainTo (readWord s.mem) (sb.at (flushStore sb.maxCount s.anchor run).avail) _ _
    rw [flushStore, flushAnchor_avail (by omega), List.map_append]
    exact chainTo_append.mpr ⟨_, hrun.chain, h.chain⟩
  · show (flushStore sb.maxCount s.anchor run).count ≤ _
    rw [List.length_append]
    by_cases hall : s.anchor.count + run.length = sb.maxCount
    · have hlast : (flushStore sb.maxCount s.anchor run).count = (sb.maxCount - 1) % 2 ^ 32 := by
        unfold flushStore flushAnchor
        simp only [hall, if_true, Anchor.setCount, Anchor.setState]
      rw [hlast, Nat.mod_eq_of_lt (by omega)]
      omega
    · rw [flushStore, flushAnchor_count (by omega) hall]
      omega
  · have hall : s.anchor.count + run.length ≠ sb.maxCount := fun hall => by
      cases (hempty.mpr hall).symm.trans hp
    show 0 < (flushStore sb.maxCount s.anchor run).count
    rw [flushStore, flushAnchor_count (by omega) hall]
    exact hpos
  · have hall := hempty.mp he
    rw [List.length_append]
    omega

/-- What is left to do after an exchange, by the two anchors. -/
theorem flushNext_cases (oldAnchor newAnchor : Anchor) :
    (newAnchor.state = .empty ∧ flushNext oldAnchor newAnchor = .unregister) ∨
    (newAnchor.state ≠ .empty ∧ oldAnchor.state = .full ∧ flushNext oldAnchor newAnchor = .push) ∨
    (newAnchor.state ≠ .empty ∧ oldAnchor.state ≠ .full ∧
      flushNext oldAnchor newAnchor = .idle) := by
  unfold flushNext
  by_cases he : newAnchor.state = .empty
  · exact Or.inl ⟨he, if_pos he⟩
  · by_cases hf : oldAnchor.state = .full
    · exact Or.inr (Or.inl ⟨he, hf, by rw [if_neg he, if_pos hf]⟩)
    · exact Or.inr (Or.inr ⟨he, hf, by rw [if_neg he, if_neg hf]⟩)

theorem ShareInv.flushCas (h : ShareInv sb s free hand rel) {run : List Nat}
    (hpc : s.pc t = .flushCas run s.anchor) :
    ∃ hand' rel', ShareInv sb ((s.putBack sb s.anchor run).setPc t
      (flushNext s.anchor (flushStore sb.maxCount s.anchor run))) (run ++ free) hand' rel' := by
  have hrun : RunHeld sb s t run (sb.at s.anchor.avail) := h.at_pc hpc
  obtain ⟨-, -, hne⟩ := h.free.disjoint hrun
  have hnf : (flushStore sb.maxCount s.anchor run).state ≠ .full := flushStore_not_full
  have hfree := h.free.flushCas hrun
  have hrel : rel = none := by
    by_contra hr
    exact hne (h.rel.empty hr)
  have hnret : s.retired ≠ true := fun hr => hne (h.hand.retired hr).1
  obtain ⟨hreg, hsup⟩ := h.rel.there hne
  have hother : ∀ t', t' ≠ t → ShareOk sb (s.putBack sb s.anchor run) t' (s.pc t') := by
    intro t' ht
    refine (h.pcs t').frame (fun i ho => ?_) (fun _ _ _ => rfl) (fun he => absurd he hne)
      fun _ => ⟨rfl, rfl⟩
    refine (if_neg fun hi => ?_).trans ho
    rw [(hrun.held i hi).2] at ho
    exact ht (Owner.run.inj ho).symm
  have hf : ∀ p, FreeOk sb ((s.putBack sb s.anchor run).setPc t p) (run ++ free) := fun _ =>
    hfree.frame rfl (fun _ _ => Iff.rfl) fun _ _ _ => rfl
  rcases flushNext_cases s.anchor (flushStore sb.maxCount s.anchor run) with
    ⟨he, hnext⟩ | ⟨he, hold, hnext⟩ | ⟨he, hold, hnext⟩
  · -- the last blocks came back: this thread releases the superblock
    rw [hnext]
    refine ⟨hand, some t, hf _, ShareOk.set hother ⟨hreg, hsup⟩,
      ⟨soleAt_keep h.hand.sole hpc Iff.rfl, h.hand.listed, fun hx => absurd hx hnf, fun hx => ?_,
        fun hr => absurd hr hnret⟩,
      ⟨soleAt_enter (hrel ▸ h.rel.sole) trivial, fun _ => he, fun hx => absurd he hx⟩⟩
    cases he.symm.trans hx
  · -- nobody had the descriptor: this thread pushes it
    rw [hnext]
    obtain ⟨hlist, hhand⟩ := h.hand.full hold
    refine ⟨some t, rel, hf _, ShareOk.set hother trivial,
      ⟨soleAt_enter (hhand ▸ h.hand.sole) trivial, fun hl => ?_, fun hx => absurd hx hnf,
        fun _ => Or.inr (Option.some_ne_none t), fun hr => absurd hr hnret⟩,
      ⟨soleAt_keep h.rel.sole hpc Iff.rfl, fun hr => absurd hrel hr, fun _ => ⟨hreg, hsup⟩⟩⟩
    cases hlist.symm.trans hl
  · rw [hnext]
    have hpartly : s.anchor.state = .partly := by
      cases hs : s.anchor.state with
      | partly => rfl
      | full => exact absurd hs hold
      | empty => exact absurd hs hne
    exact ⟨hand, rel, hf _, ShareOk.set hother trivial,
      ⟨soleAt_keep h.hand.sole hpc Iff.rfl, h.hand.listed, fun hx => absurd hx hnf,
        fun _ => h.hand.partly hpartly, fun hr => absurd hr hnret⟩,
      ⟨soleAt_keep h.rel.sole hpc Iff.rfl, fun hr => absurd hrel hr, fun _ => ⟨hreg, hsup⟩⟩⟩

/-- What a refill would get now: the first blocks of the free list. -/
theorem FreeOk.walk (h : FreeOk sb s free) :
    walk s.mem s.anchor.count (sb.at s.anchor.avail) = (free.take s.anchor.count).map sb.at := by
  rw [walk_eq_take h.chain (by rw [List.length_map]; exact h.count), List.map_take]

/-- **The exchange of a refill** takes free blocks only, and leaves nothing on the list. -/
theorem take_freeOk (sb : Super) (s : ShareState) : FreeOk sb (s.take sb s.anchor) [] := by
  have hanchor : (s.take sb s.anchor).anchor = ⟨.full, sb.maxCount, 0⟩ :=
    listAnchor_eq sb.maxCount_lt _
  refine ⟨List.nodup_nil, fun i => ⟨fun hi => absurd hi List.not_mem_nil, fun hi => ?_⟩, ?_, ?_,
    fun _ => rfl, fun hx => ?_, fun hx => ?_⟩
  · have hfree := hi.2
    unfold ShareState.take at hfree
    simp only at hfree
    split at hfree
    · cases hfree
    · split at hfree
      · cases hfree
      · contradiction
  · rw [hanchor]
    exact rfl
  · rw [hanchor]
    exact Nat.le_refl 0
  · rw [hanchor] at hx
    cases hx
  · rw [hanchor] at hx
    cases hx

theorem FreeOk.take_owner (h : FreeOk sb s free) {i : Nat} (hi : s.owner i ≠ .free) :
    (s.take sb s.anchor).owner i = s.owner i := by
  have hnot : sb.at i ∉ Apfmalloc.walk s.mem s.anchor.count (sb.at s.anchor.avail) := by
    rw [h.walk, sb.mem_map_at]
    exact fun hm => hi ((h.mem i).mp (List.mem_of_mem_take hm)).2
  unfold ShareState.take
  simp only [if_neg hnot, if_neg hi]

theorem ShareInv.takeCas (h : ShareInv sb s free hand rel) (hpc : s.pc t = .takeCas s.anchor)
    (hne : s.anchor.state ≠ .empty) :
    ShareInv sb ((s.take sb s.anchor).setPc t .idle) [] none none := by
  have hanchor : (s.take sb s.anchor).anchor.state = .full := by
    rw [show (s.take sb s.anchor).anchor = _ from listAnchor_eq sb.maxCount_lt _]
  obtain rfl := soleAt_eq h.hand.sole hpc trivial
  have hrel : rel = none := by
    by_contra hr
    exact hne (h.rel.empty hr)
  refine ⟨(take_freeOk sb s).frame rfl (fun _ _ => Iff.rfl) fun _ _ _ => rfl,
    ShareOk.set (fun t' _ => ?_) trivial,
    ⟨soleAt_leave h.hand.sole hpc trivial (fun hx => hx), fun _ => rfl,
      fun _ => ⟨h.hand.not_listed, rfl⟩, fun hx => ?_, fun hr => absurd (h.hand.retired hr).1 hne⟩,
    ⟨soleAt_keep (hrel ▸ h.rel.sole) hpc Iff.rfl, fun hr => absurd rfl hr,
      fun _ => h.rel.there hne⟩⟩
  · refine (h.pcs t').frame (fun i ho => ?_) (fun _ _ _ => rfl) (fun he => absurd he hne)
      fun _ => ⟨rfl, rfl⟩
    rw [h.free.take_owner (by rw [ho]; exact fun he => by cases he), ho]
  · cases hanchor.symm.trans hx

theorem ShareInv.retire (h : ShareInv sb s free hand rel) {oldAnchor : Anchor}
    (hpc : s.pc t = .takeCas oldAnchor) (hold : oldAnchor.state = .empty) :
    ShareInv sb ({ s with retired := true }.setPc t .idle) free none rel := by
  have hempty : s.anchor.state = .empty := h.at_pc hpc hold
  obtain rfl := soleAt_eq h.hand.sole hpc trivial
  refine ⟨h.free.frame rfl (fun _ _ => Iff.rfl) fun _ _ _ => rfl,
    ShareOk.set (fun t' _ => ?_) trivial,
    ⟨soleAt_leave h.hand.sole hpc trivial (fun hx => hx), fun _ => rfl,
      fun hx => (by cases hempty.symm.trans hx), fun hx => (by cases hempty.symm.trans hx),
      fun _ => ⟨hempty, h.hand.not_listed, rfl⟩⟩,
    ⟨soleAt_keep h.rel.sole hpc Iff.rfl, h.rel.empty, h.rel.there⟩⟩
  exact (h.pcs t').frame (fun _ ho => ho) (fun _ _ _ => rfl) (fun he => he) fun _ => ⟨rfl, rfl⟩

/-- The descriptor goes onto the list. -/
theorem ShareInv.push (h : ShareInv sb s free hand rel) (hpc : s.pc t = .push) :
    ShareInv sb ({ s with listed := true }.setPc t .idle) free none rel := by
  obtain rfl := soleAt_eq h.hand.sole hpc trivial
  refine ⟨h.free.frame rfl (fun _ _ => Iff.rfl) fun _ _ _ => rfl,
    ShareOk.set (fun t' _ => ?_) trivial,
    ⟨soleAt_leave h.hand.sole hpc trivial (fun hx => hx), fun _ => rfl, fun hx => ?_,
      fun _ => Or.inl rfl, fun hr => ?_⟩,
    ⟨soleAt_keep h.rel.sole hpc Iff.rfl, h.rel.empty, h.rel.there⟩⟩
  · exact (h.pcs t').frame (fun _ ho => ho) (fun _ _ _ => rfl) (fun he => he) fun _ => ⟨rfl, rfl⟩
  · cases (h.hand.full hx).2
  · cases (h.hand.retired hr).2.2

/-- The descriptor goes to the thread that popped it. -/
theorem ShareInv.pop (h : ShareInv sb s free hand rel) (hpc : s.pc t = .idle)
    (hlist : s.listed = true) :
    ShareInv sb ({ s with listed := false }.setPc t .takeLoad) free (some t) rel := by
  refine ⟨h.free.frame rfl (fun _ _ => Iff.rfl) fun _ _ _ => rfl,
    ShareOk.set (fun t' _ => ?_) trivial,
    ⟨soleAt_enter (h.hand.listed hlist ▸ h.hand.sole) trivial, fun hl => (by cases hl),
      fun hx => ?_, fun _ => Or.inr (Option.some_ne_none t), fun hr => ?_⟩,
    ⟨soleAt_keep h.rel.sole hpc Iff.rfl, h.rel.empty, h.rel.there⟩⟩
  · exact (h.pcs t').frame (fun _ ho => ho) (fun _ _ _ => rfl) (fun he => he) fun _ => ⟨rfl, rfl⟩
  · cases (h.hand.full hx).1.symm.trans hlist
  · cases (h.hand.retired hr).2.1.symm.trans hlist

theorem ShareInv.unregister (h : ShareInv sb s free hand rel) (hpc : s.pc t = .unregister) :
    ShareInv sb ({ s with registered := false }.setPc t .dealloc) free hand rel := by
  obtain rfl := soleAt_eq h.rel.sole hpc trivial
  have hempty := h.rel.empty (Option.some_ne_none t)
  have hsup : s.superBlock = true := (h.at_pc hpc).2
  refine ⟨h.free.frame rfl (fun _ _ => Iff.rfl) fun _ _ _ => rfl,
    ShareOk.set (fun t' ht => ?_) hsup,
    ⟨soleAt_keep h.hand.sole hpc Iff.rfl, h.hand.listed, h.hand.full, h.hand.partly,
      h.hand.retired⟩,
    ⟨soleAt_keep h.rel.sole hpc Iff.rfl, h.rel.empty, fun hx => absurd hempty hx⟩⟩
  refine (h.pcs t').frame (fun _ ho => ho) (fun _ _ _ => rfl) (fun he => he) fun hr => ?_
  exact absurd (Option.some.inj (soleAt_eq h.rel.sole rfl hr)).symm ht

theorem ShareInv.dealloc (h : ShareInv sb s free hand rel) (hpc : s.pc t = .dealloc) :
    ShareInv sb ({ s with superBlock := false }.setPc t .idle) free hand none := by
  obtain rfl := soleAt_eq h.rel.sole hpc trivial
  have hempty := h.rel.empty (Option.some_ne_none t)
  refine ⟨h.free.frame rfl (fun _ _ => Iff.rfl) fun _ _ _ => rfl,
    ShareOk.set (fun t' ht => ?_) trivial,
    ⟨soleAt_keep h.hand.sole hpc Iff.rfl, h.hand.listed, h.hand.full, h.hand.partly,
      h.hand.retired⟩,
    ⟨soleAt_leave h.rel.sole hpc trivial (fun hx => hx), fun hr => absurd rfl hr,
      fun hx => absurd hempty hx⟩⟩
  refine (h.pcs t').frame (fun _ ho => ho) (fun _ _ _ => rfl) (fun he => he) fun hr => ?_
  exact absurd (Option.some.inj (soleAt_eq h.rel.sole rfl hr)).symm ht

/-- **Every step of every thread keeps the invariant.** -/
theorem shareStep_inv {s' : ShareState} {op : ShareOp}
    (h : ∃ free hand rel, ShareInv sb s free hand rel)
    (hs : ShareStep sb s op s') : ∃ free hand rel, ShareInv sb s' free hand rel := by
  obtain ⟨free, hand, rel, h⟩ := h
  cases hs with
  | write hm => exact ⟨_, _, _, h.write hm⟩
  | grab hpc _ _ hne hnd hout hchain => exact ⟨_, _, _, h.grab hpc hne hnd hout hchain⟩
  | flushLoad hpc =>
    have hrun := h.at_pc hpc
    exact ⟨_, _, _, h.move ⟨h.free.avail_le, hrun⟩ hpc Iff.rfl Iff.rfl⟩
  | flushLink hpc => exact ⟨_, _, _, h.flushLink hpc⟩
  | flushCas hpc ha =>
    subst ha
    exact ⟨_, h.flushCas hpc⟩
  | flushRetry hpc =>
    have hrun := h.at_pc hpc
    exact ⟨_, _, _, h.move ⟨_, hrun⟩ hpc Iff.rfl Iff.rfl⟩
  | unregister hpc _ => exact ⟨_, _, _, h.unregister hpc⟩
  | dealloc hpc => exact ⟨_, _, _, h.dealloc hpc⟩
  | push hpc => exact ⟨_, _, _, h.push hpc⟩
  | pop hpc hlist => exact ⟨_, _, _, h.pop hpc hlist⟩
  | takeLoad hpc => exact ⟨_, _, _, h.move (fun he => he) hpc Iff.rfl Iff.rfl⟩
  | takeCas hpc hne ha _ =>
    subst ha
    exact ⟨_, _, _, h.takeCas hpc hne⟩
  | takeRetry hpc _ _ => exact ⟨_, _, _, h.move (h.at_pc hpc) hpc Iff.rfl Iff.rfl⟩
  | retire hpc hold => exact ⟨_, _, _, h.retire hpc hold⟩

end Steps

theorem shareInv_new (sb : Super) (m : Mem) : ShareInv sb (ShareState.new sb m) [] none none := by
  have hanchor : (ShareState.new sb m).anchor = ⟨.full, sb.maxCount, 0⟩ :=
    listAnchor_eq sb.maxCount_lt _
  refine ⟨⟨List.nodup_nil, fun i => ?_, ?_, ?_, fun _ => rfl, ?_, ?_⟩, fun _ => trivial,
    ⟨sole_nobody fun _ hx => hx, fun _ => rfl, fun _ => ⟨rfl, rfl⟩, ?_, fun hr => by cases hr⟩,
    ⟨sole_nobody fun _ hx => hx, fun hr => absurd rfl hr, fun _ => ⟨rfl, rfl⟩⟩⟩
  · exact ⟨fun hi => absurd hi List.not_mem_nil, fun hi => (by cases hi.2)⟩
  all_goals rw [hanchor]
  · exact rfl
  · exact Nat.le_refl 0
  all_goals exact fun hx => by cases hx

/-! ## What holds in every interleaving -/

/-- What the threads can rely on. -/
structure ShareSafe (sb : Super) (s : ShareState) : Prop where
  /-- from `avail` on, the links lead through the free blocks, each once, and to the end -/
  free : ∃ free : List Nat, free.Nodup ∧ (∀ i, i ∈ free ↔ i < sb.maxCount ∧ s.owner i = .free) ∧
    ChainTo (readWord s.mem) (sb.at s.anchor.avail) (free.map sb.at) (sb.at sb.maxCount) ∧
    s.anchor.count ≤ free.length
  /-- a refill that succeeds now gets at least one block, and only blocks nobody else has -/
  taken : ∀ t, s.pc t = .takeCas s.anchor → s.anchor.state ≠ .empty →
    s.superBlock = true ∧ 0 < s.anchor.count ∧
    (walk s.mem s.anchor.count (sb.at s.anchor.avail)).Nodup ∧
    ∀ x ∈ walk s.mem s.anchor.count (sb.at s.anchor.avail),
      ∃ i < sb.maxCount, x = sb.at i ∧ s.owner i = .free
  /-- while a block is away, the superblock is there, and its pages name the descriptor -/
  away : (∃ i < sb.maxCount, s.owner i ≠ .free) →
    s.anchor.state ≠ .empty ∧ s.registered = true ∧ s.superBlock = true
  /-- one thread releases it, and finds it there -/
  released : ∀ t, (s.pc t).Releases → s.superBlock = true ∧ ∀ t', (s.pc t').Releases → t' = t
  /-- the descriptor is on the list or with one thread, never twice -/
  hand : ∀ t, (s.pc t).HasDesc → s.listed = false ∧ s.retired = false ∧
    ∀ t', (s.pc t').HasDesc → t' = t
  /-- and while there are free blocks it is not forgotten -/
  partly : s.anchor.state = .partly → s.listed = true ∨ ∃ t, (s.pc t).HasDesc

theorem ShareInv.safe {sb : Super} {s : ShareState} {free : List Nat} {hand rel : Option Nat}
    (h : ShareInv sb s free hand rel) : ShareSafe sb s := by
  refine ⟨⟨free, h.free.nodup, h.free.mem, h.free.chain, h.free.count⟩, fun t hpc hne => ?_,
    fun haway => ?_, fun t ht => ⟨?_, fun t' ht' => h.rel.sole.unique ht' ht⟩,
    fun t ht => ⟨?_, ?_, fun t' ht' => h.hand.sole.unique ht' ht⟩, fun hp => ?_⟩
  · obtain rfl := soleAt_eq h.hand.sole hpc trivial
    have hpartly : s.anchor.state = .partly := by
      cases hs : s.anchor.state with
      | partly => rfl
      | full => cases (h.hand.full hs).2
      | empty => exact absurd hs hne
    refine ⟨(h.rel.there hne).2, h.free.partly hpartly, ?_, fun x hx => ?_⟩
    · rw [h.free.walk]
      exact List.Nodup.map (fun _ _ he => sb.at_inj he)
        (h.free.nodup.sublist (List.take_sublist ..))
    · rw [h.free.walk] at hx
      obtain ⟨i, hi, rfl⟩ := List.mem_map.mp hx
      obtain ⟨hlt, hfree⟩ := (h.free.mem i).mp (List.mem_of_mem_take hi)
      exact ⟨i, hlt, rfl, hfree⟩
  · obtain ⟨i, hi, hown⟩ := haway
    have hne : s.anchor.state ≠ .empty := fun he => by
      have hall := (indices_all h.free.nodup fun j hj => ((h.free.mem j).mp hj).1).2
        (Nat.le_of_eq (h.free.empty he).symm) i hi
      exact hown ((h.free.mem i).mp hall).2
    exact ⟨hne, h.rel.there hne⟩
  · have hok := h.pcs t
    cases hpc : s.pc t with
    | unregister => rw [hpc] at hok; exact hok.2
    | dealloc => rw [hpc] at hok; exact hok
    | _ => rw [hpc] at ht; exact ht.elim
  · obtain rfl := soleAt_eq h.hand.sole rfl ht
    exact h.hand.not_listed
  · obtain rfl := soleAt_eq h.hand.sole rfl ht
    cases hr : s.retired with
    | false => rfl
    | true => cases (h.hand.retired hr).2.2
  · refine (h.hand.partly hp).imp id fun hne => ?_
    obtain ⟨t, ht⟩ := Option.ne_none_iff_exists'.mp hne
    exact ⟨t, (h.hand.sole t).mpr ht⟩

/-- **Sharing a superblock is safe**, however the threads interleave. -/
theorem shared_superblock_safe (sb : Super) (m : Mem) {ops : List ShareOp} {s : ShareState}
    (hrun : Run (ShareStep sb) (ShareState.new sb m) ops s) : ShareSafe sb s := by
  obtain ⟨free, hand, rel, h⟩ := Run.invariant
    (P := fun s => ∃ free hand rel, ShareInv sb s free hand rel) shareStep_inv hrun
    ⟨[], none, none, shareInv_new sb m⟩
  exact h.safe

/-! ## A thread on its own -/

section Solo

variable {sb : Super} {s : ShareState} {t : Nat}

/-- The steps of a flush no other thread comes between. -/
def flushOps (t : Nat) (run : List Nat) : List ShareOp :=
  [.grab t run, .flushLoad t, .flushLink t, .flushCas t]

/-- What they come to. -/
def ShareState.flushSolo (s : ShareState) (sb : Super) (t : Nat) (run : List Nat) : ShareState :=
  ({ s with mem := writeWord s.mem (sb.at (run.getLastD 0)) (sb.at s.anchor.avail) }.putBack sb
    s.anchor run).setPc t (flushNext s.anchor (flushStore sb.maxCount s.anchor run))

theorem flush_solo {run : List Nat} (hpc : s.pc t = .idle) (hreg : s.registered = true)
    (hsup : s.superBlock = true) (hne : run ≠ []) (hnd : run.Nodup)
    (hout : ∀ i ∈ run, i < sb.maxCount ∧ s.owner i = .out)
    (hchain : RunChain sb s.mem run (readWord s.mem (sb.at (run.getLastD 0)))) :
    Run (ShareStep sb) s (flushOps t run) (s.flushSolo sb t run) := by
  have hrun : Run (ShareStep sb) s (flushOps t run) _ :=
    .cons (.grab hpc hreg hsup hne hnd hout hchain) <|
    .cons (.flushLoad (t := t) (if_pos rfl)) <| .cons (.flushLink (t := t) (if_pos rfl)) <|
    .cons (.flushCas (t := t) (if_pos rfl) rfl) <| .nil _
  -- the owners and the counters on the way are overwritten
  convert hrun using 1
  unfold ShareState.flushSolo ShareState.putBack ShareState.give ShareState.setPc
  simp only [ShareState.mk.injEq, true_and, and_true]
  refine ⟨funext fun t' => ?_, funext fun i => ?_⟩
  · by_cases ht : t' = t
    · simp only [ht, if_true]
    · simp only [ht, if_false]
  · by_cases hi : i ∈ run
    · simp only [hi, if_true]
    · simp only [hi, if_false]

/-- The steps of a refill no other thread comes between. -/
def takeOps (t : Nat) : List ShareOp := [.pop t, .takeLoad t, .takeCas t]

theorem take_solo (hpc : s.pc t = .idle) (hlist : s.listed = true) (hne : s.anchor.state ≠ .empty)
    (hsup : s.superBlock = true) :
    Run (ShareStep sb) s (takeOps t) ({ s with listed := false }.take sb s.anchor) := by
  have hrun : Run (ShareStep sb) s (takeOps t) _ := .cons (.pop hpc hlist) <|
    .cons (.takeLoad (t := t) (if_pos rfl)) <|
    .cons (.takeCas (t := t) (if_pos rfl) hne rfl hsup) <| .nil _
  convert hrun using 1
  unfold ShareState.take ShareState.setPc
  simp only [ShareState.mk.injEq, true_and, and_true]
  refine funext fun t' => ?_
  by_cases ht : t' = t
  · simp only [ht, if_true, hpc]
  · simp only [ht, if_false]

end Solo

/-- Two blocks of eight bytes. -/
def twoBlocks : Super where
  ptr := 4096
  blockSize := 8
  maxCount := 2
  word_fits := Nat.le_refl 8
  maxCount_pos := Nat.succ_pos 1
  maxCount_lt := by decide
  end_lt := by decide

/-- Thread 0 gives block 0 back and pushes the descriptor, thread 1 pops it and is about to
take the list. -/
theorem shared_superblock_safe_two : ∃ s,
    Run (ShareStep twoBlocks) (ShareState.new twoBlocks fun _ => 0)
      (flushOps 0 [0] ++ [.push 0, .pop 1, .takeLoad 1]) s ∧
    s.pc 1 = .takeCas s.anchor ∧ s.anchor = ⟨.partly, 0, 1⟩ ∧ ShareSafe twoBlocks s := by
  have hflush : Run (ShareStep twoBlocks) (ShareState.new twoBlocks fun _ => 0)
      (flushOps 0 [0]) _ :=
    flush_solo rfl rfl rfl (List.cons_ne_nil 0 []) (by decide) (by decide) ⟨rfl, rfl⟩
  have hrun := hflush.append (.cons (.push (t := 0) rfl) <| .cons (.pop (t := 1) rfl rfl) <|
    .cons (.takeLoad (t := 1) rfl) <| .nil _)
  exact ⟨_, hrun, rfl, rfl, shared_superblock_safe twoBlocks _ hrun⟩

end Apfmalloc
