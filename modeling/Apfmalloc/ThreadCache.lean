import Apfmalloc.MemInfo
import Apfmalloc.Base.Bytes
import Apfmalloc.Base.Chain

/-!
# `ThreadCacheBin`: a stack of blocks threaded through the blocks

A bin is the address of its top block and a count; the rest of the stack is in
the blocks themselves. What the first word of a block says about the next one
depends on the build and on `block_size`:

- default build, `block_size = Some b`: 0 means "the contiguous neighbour `b`
  further on", `usize::MAX` means "none", anything else is the address. A fresh
  superblock is therefore a finished list: its words are all 0, and only the
  last block is written.
- `block_size = None`, or the `no_met_stack` build: the word is the address.

`nextBlock` is that decoding, and `Holds noMet m bin l` says the bin is the list
`l` under it: `l` is as long as `block_num` and walking from `block` visits it.
Below the last block there is no promise at all, the walk may end anywhere.
The two specifications, `Holds.popBlock` and `Holds.pushBlock`, are what every
other file knows about a bin.

Panics are `none`: the explicit ones, a load through a null pointer, and the
overflow of the `u32` counter.
-/

namespace Apfmalloc

open Base

structure ThreadCacheBin where
  block : Nat
  blockNum : Nat
  blockSize : Option Nat
  deriving DecidableEq, Repr

namespace ThreadCacheBin

def new : ThreadCacheBin := ⟨0, 0, none⟩

/-- The word `push_block` stores in the pushed block: 0 when the block is the
contiguous neighbour of the top and the blocks are smaller than a cache line
(lazy build only), the old top otherwise. -/
def pushLink (noMet : Bool) (bin : ThreadCacheBin) (block : Nat) : Nat :=
  match bin.blockSize with
  | some bs =>
    if bs < cacheLine ∧ noMet = false then
      let diff : Int := (bin.block : Int) - (block : Int)
      if diff = (bs : Int) then 0 else bin.block
    else bin.block
  | none => bin.block

def pushBlock (noMet : Bool) (bin : ThreadCacheBin) (m : Mem) (block : Nat) :
    Option (ThreadCacheBin × Mem) :=
  if bin.blockNum + 1 < u32Size then
    some ({ bin with block := block, blockNum := bin.blockNum + 1 },
      writeWord m block (bin.pushLink noMet block))
  else none

def pushList (bin : ThreadCacheBin) (block length : Nat) : Option ThreadCacheBin :=
  if bin.blockNum > 0 then none
  else some { bin with block := block, blockNum := length }

def popBlock (noMet : Bool) (bin : ThreadCacheBin) (m : Mem) : Option (Nat × ThreadCacheBin) :=
  if bin.blockNum = 0 then none
  else
    match bin.blockSize with
    | none =>
      if bin.block = 0 then some (0, bin)
      else some (bin.block, { bin with block := readWord m bin.block, blockNum := bin.blockNum - 1 })
    | some bs =>
      if noMet then
        if bin.block = 0 then some (0, bin)
        else some (bin.block, { bin with block := readWord m bin.block,
                                         blockNum := bin.blockNum - 1 })
      else if bin.block = 0 then none
      else
        let blockRead := readWord m bin.block
        let next :=
          if blockRead = 0 then bin.block + bs
          else if blockRead = usizeMax then 0
          else blockRead
        some (bin.block, { bin with block := next, blockNum := bin.blockNum - 1 })

def popList (bin : ThreadCacheBin) (block length : Nat) : Option ThreadCacheBin :=
  if bin.blockNum < length then none
  else some { bin with block := block, blockNum := bin.blockNum - length }

end ThreadCacheBin

/-! ## The stack a bin encodes -/

/-- The block after `x`, decoded from the first word of `x`. -/
def nextBlock (noMet : Bool) (blockSize : Option Nat) (m : Mem) (x : Nat) : Nat :=
  match blockSize with
  | none => readWord m x
  | some bs =>
    if noMet then readWord m x
    else if readWord m x = 0 then x + bs
    else if readWord m x = usizeMax then 0
    else readWord m x

/-- `bin` is the stack `l`, top first. -/
structure Holds (noMet : Bool) (m : Mem) (bin : ThreadCacheBin) (l : List Nat) : Prop where
  num : bin.blockNum = l.length
  chain : ∃ z, ChainTo (nextBlock noMet bin.blockSize m) bin.block l z

/-- The first words of two blocks do not overlap. -/
def WordsApart (x y : Nat) : Prop := x + 8 ≤ y ∨ y + 8 ≤ x

theorem WordsApart.symm {x y : Nat} (h : WordsApart x y) : WordsApart y x := Or.symm h

/-- A block address: not null, with its first word inside the address space. -/
structure BlockAddr (x : Nat) : Prop where
  pos : 0 < x
  fits : x + 8 ≤ usizeSize

theorem BlockAddr.lt {x : Nat} (h : BlockAddr x) : x < 2 ^ 64 := by
  have := h.fits
  rw [usizeSize_eq] at this
  omega

theorem BlockAddr.ne_max {x : Nat} (h : BlockAddr x) : x ≠ usizeMax := by
  have := h.fits
  unfold usizeMax
  rw [usizeSize_eq] at *
  omega

theorem holds_empty (noMet : Bool) (m : Mem) {bin : ThreadCacheBin} (h : bin.blockNum = 0) :
    Holds noMet m bin [] :=
  ⟨h, bin.block, rfl⟩

theorem nextBlock_noMet (bsz : Option Nat) (m : Mem) (x : Nat) :
    nextBlock true bsz m x = readWord m x := by
  cases bsz <;> rfl

theorem nextBlock_congr {noMet : Bool} {bsz : Option Nat} {m m' : Mem} {x : Nat}
    (h : readWord m x = readWord m' x) : nextBlock noMet bsz m x = nextBlock noMet bsz m' x := by
  unfold nextBlock
  rw [h]

/-- A stack only depends on the first words of its blocks. -/
theorem Holds.frame {noMet : Bool} {m m' : Mem} {bin : ThreadCacheBin} {l : List Nat}
    (h : Holds noMet m bin l) (hm : ∀ x ∈ l, readWord m x = readWord m' x) :
    Holds noMet m' bin l := by
  obtain ⟨z, hz⟩ := h.chain
  exact ⟨h.num, z, hz.congr fun x hx => nextBlock_congr (hm x hx)⟩

theorem Holds.blockNum_pos {noMet : Bool} {m : Mem} {bin : ThreadCacheBin} {x : Nat} {l : List Nat}
    (h : Holds noMet m bin (x :: l)) : bin.blockNum ≠ 0 := by
  rw [h.num]
  exact Nat.succ_ne_zero _

theorem Holds.block_eq {noMet : Bool} {m : Mem} {bin : ThreadCacheBin} {x : Nat} {l : List Nat}
    (h : Holds noMet m bin (x :: l)) : bin.block = x := by
  obtain ⟨_, hz, _⟩ := h.chain
  exact hz

/-- Away from null, `pop_block` takes the top and moves to `nextBlock`. -/
theorem popBlock_eq (noMet : Bool) (m : Mem) {bin : ThreadCacheBin} (hn : bin.blockNum ≠ 0)
    (hb : bin.block ≠ 0) :
    bin.popBlock noMet m = some (bin.block,
      { bin with block := nextBlock noMet bin.blockSize m bin.block,
                 blockNum := bin.blockNum - 1 }) := by
  unfold ThreadCacheBin.popBlock nextBlock
  rw [if_neg hn]
  cases bin.blockSize with
  | none => simp only [if_neg hb]
  | some bs =>
    cases noMet with
    | true => simp only [if_true, if_neg hb]
    | false => simp only [Bool.false_eq_true, if_false, if_neg hb]

/-- **`pop_block` pops.** -/
theorem Holds.popBlock {noMet : Bool} {m : Mem} {bin : ThreadCacheBin} {x : Nat} {l : List Nat}
    (h : Holds noMet m bin (x :: l)) (hx : x ≠ 0) :
    ∃ bin', bin.popBlock noMet m = some (x, bin') ∧ Holds noMet m bin' l ∧
      bin'.blockSize = bin.blockSize ∧ bin'.blockNum + 1 = bin.blockNum := by
  have hbx := h.block_eq
  have hnum := h.num
  obtain ⟨z, -, hz⟩ := h.chain
  have hpop := popBlock_eq noMet m h.blockNum_pos (hbx ▸ hx)
  rw [hbx] at hpop
  rw [List.length_cons] at hnum
  exact ⟨_, hpop, ⟨by simp only; omega, z, hz⟩, rfl, by simp only; omega⟩

/-- The word `push_block` writes decodes back to the old top. -/
theorem nextBlock_pushLink {noMet : Bool} {bin : ThreadCacheBin} {m : Mem} {x : Nat}
    (hw : readWord m x = bin.pushLink noMet x) (htop : BlockAddr bin.block) :
    nextBlock noMet bin.blockSize m x = bin.block := by
  have hb0 : bin.block ≠ 0 := Nat.ne_of_gt htop.pos
  unfold nextBlock ThreadCacheBin.pushLink at *
  rw [hw]
  cases bin.blockSize with
  | none => rfl
  | some bs =>
    cases noMet with
    | true => simp
    | false =>
      by_cases hsmall : bs < cacheLine
      · by_cases hdiff : (bin.block : Int) - (x : Int) = (bs : Int)
        · -- the lazy link: 0 stands for the neighbour, which is the old top
          simp only [hsmall, hdiff, if_true, and_self, Bool.false_eq_true, if_false]
          omega
        · simp [hsmall, hdiff, hb0, htop.ne_max]
      · simp [hsmall, hb0, htop.ne_max]

theorem pushLink_lt (noMet : Bool) {bin : ThreadCacheBin} (x : Nat) (h : bin.block < 2 ^ 64) :
    bin.pushLink noMet x < 2 ^ 64 := by
  unfold ThreadCacheBin.pushLink
  cases bin.blockSize with
  | none => exact h
  | some bs =>
    simp only
    split
    · split
      · decide
      · exact h
    · exact h

/-- **`push_block` pushes.** -/
theorem Holds.pushBlock {noMet : Bool} {m : Mem} {bin : ThreadCacheBin} {x : Nat} {l : List Nat}
    (h : Holds noMet m bin l) (hl : ∀ y ∈ l, BlockAddr y)
    (hap : ∀ y ∈ l, WordsApart x y) {bin' : ThreadCacheBin} {m' : Mem}
    (hpush : bin.pushBlock noMet m x = some (bin', m')) :
    Holds noMet m' bin' (x :: l) ∧ bin'.blockSize = bin.blockSize ∧ bin'.block = x ∧
      m' = writeWord m x (bin.pushLink noMet x) := by
  unfold ThreadCacheBin.pushBlock at hpush
  by_cases hov : bin.blockNum + 1 < u32Size
  · rw [if_pos hov, Option.some.injEq, Prod.mk.injEq] at hpush
    obtain ⟨rfl, rfl⟩ := hpush
    have hold : Holds noMet (writeWord m x (bin.pushLink noMet x)) bin l :=
      h.frame fun y hy => (readWord_writeWord_ne (Or.symm (hap y hy))).symm
    refine ⟨⟨?_, ?_⟩, rfl, rfl, rfl⟩
    · rw [List.length_cons]
      exact congrArg (· + 1) h.num
    · cases l with
      | nil => exact ⟨_, rfl, rfl⟩
      | cons y l =>
        obtain ⟨z, hz⟩ := hold.chain
        have htop : BlockAddr bin.block := by
          rw [h.block_eq]
          exact hl y (List.mem_cons_self ..)
        have hread := readWord_writeWord (m := m) (a := x) (pushLink_lt noMet x htop.lt)
        refine ⟨z, rfl, ?_⟩
        change ChainTo _ (nextBlock noMet bin.blockSize _ x) _ _
        rw [nextBlock_pushLink hread htop]
        exact hz
  · rw [if_neg hov] at hpush
    cases hpush

/-- With room in the counter, `push_block` succeeds. -/
theorem pushBlock_isSome {noMet : Bool} {m : Mem} {bin : ThreadCacheBin} {x : Nat}
    (h : bin.blockNum + 1 < u32Size) : (bin.pushBlock noMet m x).isSome := by
  rw [ThreadCacheBin.pushBlock, if_pos h]
  rfl

/-! ## Lists of a fresh superblock -/

/-- The lazy build writes only the last block of a fresh superblock: `usize::MAX`. -/
def sealLast (m : Mem) (superBlock blockSize count : Nat) : Mem :=
  writeWord m (superBlock + blockSize * count - blockSize) usizeMax

/-- The `no_met_stack` build links the blocks from the last to the first:
`for block_num in (0..count).rev() { *current = last; last = current }`. -/
def linkBlocks (superBlock blockSize : Nat) : Nat → Nat → Mem → Mem
  | 0, _, m => m
  | n + 1, last, m =>
    let current := superBlock + blockSize * n
    linkBlocks superBlock blockSize n current (writeWord m current last)

/-- The links of a fresh superblock of `count` blocks, as the build has them. -/
def linkFresh (noMet : Bool) (m : Mem) (superBlock blockSize count : Nat) : Mem :=
  if noMet then linkBlocks superBlock blockSize count 0 m
  else sealLast m superBlock blockSize count

/-- Later rounds of `linkBlocks` write below, so they keep the word of block
`j ≥ n`. -/
theorem linkBlocks_above {sb bs : Nat} (hbs : 8 ≤ bs) :
    ∀ {n last : Nat} {m : Mem} {j : Nat}, n ≤ j →
      readWord (linkBlocks sb bs n last m) (sb + bs * j) = readWord m (sb + bs * j) := by
  intro n
  induction n with
  | zero => intro last m j _; rfl
  | succ n ih =>
    intro last m j hj
    have hmul : bs * n + bs ≤ bs * j := by
      rw [← Nat.mul_succ]
      exact Nat.mul_le_mul_left _ hj
    rw [linkBlocks, ih (by omega)]
    exact readWord_writeWord_ne (by omega)

theorem linkBlocks_read {sb bs : Nat} (hbs : 8 ≤ bs) :
    ∀ {n last : Nat} {m : Mem}, last < 2 ^ 64 → sb + bs * n < 2 ^ 64 → ∀ i < n,
      readWord (linkBlocks sb bs n last m) (sb + bs * i) =
        if i + 1 < n then sb + bs * (i + 1) else last := by
  intro n
  induction n with
  | zero => intro last m _ _ i hi; exact absurd hi (Nat.not_lt_zero i)
  | succ n ih =>
    intro last m hlast hend i hi
    have hmul : bs * (n + 1) = bs * n + bs := Nat.mul_succ bs n
    rw [linkBlocks]
    by_cases hin : i < n
    · rw [ih (by omega) (by omega) i hin, if_pos (by omega : i + 1 < n + 1)]
      by_cases h1 : i + 1 < n
      · rw [if_pos h1]
      · rw [if_neg h1, show n = i + 1 by omega]
    · have hni : i = n := by omega
      subst hni
      rw [linkBlocks_above hbs (Nat.le_refl _), readWord_writeWord hlast, if_neg (by omega)]

theorem linkBlocks_out {sb bs a : Nat} :
    ∀ {n last : Nat} {m : Mem}, (a < sb ∨ ∀ i < n, a < sb + bs * i ∨ sb + bs * i + 8 ≤ a) →
      linkBlocks sb bs n last m a = m a := by
  intro n
  induction n with
  | zero => intro last m _; rfl
  | succ n ih =>
    intro last m h
    rw [linkBlocks, ih (h.imp id fun h i hi => h i (by omega))]
    apply writeWord_out
    rcases h with h | h
    · exact Or.inl (Nat.lt_of_lt_of_le h (Nat.le_add_right _ _))
    · exact h n (Nat.lt_succ_self n)

/-- Linking a fresh superblock writes inside it only. -/
theorem linkFresh_out {noMet : Bool} {m : Mem} {sb bs n a : Nat} (hbs : 8 ≤ bs) (hn : 0 < n)
    (h : a < sb ∨ sb + bs * n ≤ a) : linkFresh noMet m sb bs n a = m a := by
  have hmul : ∀ i < n, bs * i + bs ≤ bs * n := by
    intro i hi
    rw [← Nat.mul_succ]
    exact Nat.mul_le_mul_left _ hi
  unfold linkFresh
  cases noMet with
  | true =>
    refine linkBlocks_out (h.imp id fun h i hi => Or.inr ?_)
    have := hmul i hi
    omega
  | false =>
    have := hmul 0 hn
    rw [if_neg Bool.false_ne_true]
    exact writeWord_out (by omega)

/-- **A fresh superblock is a finished list** in either build: its blocks in
address order. -/
theorem holds_linkFresh {noMet : Bool} {m : Mem} {sb bs n len : Nat} (hbs : 8 ≤ bs) (hn : 0 < n)
    (hlen : bs * n ≤ len) (hend : sb + bs * n < 2 ^ 64) {bin : ThreadCacheBin}
    (hblock : bin.block = sb) (hnum : bin.blockNum = n) (hsz : bin.blockSize = some bs) :
    Holds noMet (linkFresh noMet (zeroFill m sb len) sb bs n) bin (strideList sb bs n) := by
  suffices hnext : ∀ i, i + 1 < n →
      nextBlock noMet bin.blockSize (linkFresh noMet (zeroFill m sb len) sb bs n) (sb + i * bs) =
        sb + (i + 1) * bs by
    refine ⟨by rw [hnum, strideList_length], ?_⟩
    rw [hblock]
    exact ⟨_, chainTo_strideList hnext hn⟩
  intro i hi
  have hmul : bs * (i + 1) + bs ≤ bs * n := by
    rw [← Nat.mul_succ]
    exact Nat.mul_le_mul_left _ hi
  have hsucc : bs * (i + 1) = bs * i + bs := Nat.mul_succ bs i
  rw [Nat.mul_comm i bs, Nat.mul_comm (i + 1) bs, hsz]
  unfold linkFresh
  cases noMet with
  | true =>
    change readWord _ _ = _
    rw [if_pos rfl, linkBlocks_read hbs (by decide) hend i (by omega), if_pos hi]
  | false =>
    -- all words but the sealed last one still read as the kernel's zeroes
    have hz : readWord (sealLast (zeroFill m sb len) sb bs n) (sb + bs * i) = 0 := by
      rw [sealLast, readWord_writeWord_ne (by omega)]
      exact readWord_zeroFill (by omega) (by omega)
    rw [if_neg Bool.false_ne_true]
    unfold nextBlock
    simp only [Bool.false_eq_true, if_false, hz, if_true]
    omega

end Apfmalloc
