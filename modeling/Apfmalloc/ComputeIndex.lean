import Apfmalloc.CacheOps
import Apfmalloc.Base.Tally

/-!
# `compute_index` as the code runs it

`computeIndex` of `CacheOps.lean` takes the block size from the size-class table and lets
the subtraction wrap, as a release build does. Here is the function itself: it has the
asserts, it looks the class up in the table written out in `size_classes_match!`, and its
arithmetic is checked, as in a debug build.

The two tables agree. The addresses are cut to 32 bits before they are subtracted, which
is harmless when the subtraction wraps and a panic when it is checked and a multiple of
`2^32` lies between the superblock and the block.
-/

namespace Apfmalloc

open Base

/-- The four numbers that `size_classes_match!` uses of an `sc(…)`. -/
structure MatchEntry where
  index : Nat
  lgGrp : Nat
  lgDelta : Nat
  ndelta : Nat

def MatchEntry.blockSize (e : MatchEntry) : Nat := (1 <<< e.lgGrp) + (e.ndelta <<< e.lgDelta)

def matchTable : List MatchEntry :=
  [⟨0, 3, 3, 0⟩, ⟨1, 3, 3, 1⟩, ⟨2, 3, 3, 2⟩, ⟨3, 3, 3, 3⟩,
   ⟨4, 5, 3, 1⟩, ⟨5, 5, 3, 2⟩, ⟨6, 5, 3, 3⟩, ⟨7, 5, 3, 4⟩,
   ⟨8, 6, 4, 1⟩, ⟨9, 6, 4, 2⟩, ⟨10, 6, 4, 3⟩, ⟨11, 6, 4, 4⟩,
   ⟨12, 7, 5, 1⟩, ⟨13, 7, 5, 2⟩, ⟨14, 7, 5, 3⟩, ⟨15, 7, 5, 4⟩,
   ⟨16, 8, 6, 1⟩, ⟨17, 8, 6, 2⟩, ⟨18, 8, 6, 3⟩, ⟨19, 8, 6, 4⟩,
   ⟨20, 9, 7, 1⟩, ⟨21, 9, 7, 2⟩, ⟨22, 9, 7, 3⟩, ⟨23, 9, 7, 4⟩,
   ⟨24, 10, 8, 1⟩, ⟨25, 10, 8, 2⟩, ⟨26, 10, 8, 3⟩, ⟨27, 10, 8, 4⟩,
   ⟨28, 11, 9, 1⟩, ⟨29, 11, 9, 2⟩, ⟨30, 11, 9, 3⟩, ⟨31, 11, 9, 4⟩,
   ⟨32, 12, 10, 1⟩, ⟨33, 12, 10, 2⟩, ⟨34, 12, 10, 3⟩, ⟨35, 12, 10, 4⟩,
   ⟨36, 13, 11, 1⟩, ⟨37, 13, 11, 2⟩, ⟨38, 13, 11, 3⟩]

/-- One arm of the macro: `some` once `found` is set. -/
def matchArm (diff c : Nat) (found : Option Nat) (e : MatchEntry) : Option Nat :=
  match found with
  | some index => some index
  | none => if c = e.index + 1 then some (diff / e.blockSize) else none

/-- `none` is the panic "No size class found". -/
def sizeClassesMatch (diff c : Nat) : Option Nat := matchTable.foldl (matchArm diff c) none

/-- `compute_index` with checked arithmetic, for the table `init_size_class` leaves. -/
def computeIndexChecked (T superBlock block c : Nat) : Option Nat :=
  -- the two asserts about the block
  if block < superBlock then none
  else if (superBlock + (sizeClass T c).sbSize) % usizeSize ≤ block then none
  else do
    let diff ← usub (block % u32Size) (superBlock % u32Size)
    let index ← sizeClassesMatch diff c
    if diff / (sizeClass T c).blockSize = index then some index else none

/-! ## The tables agree -/

theorem foldl_matchArm_some (diff c index : Nat) (l : List MatchEntry) :
    l.foldl (matchArm diff c) (some index) = some index := by
  induction l with
  | nil => rfl
  | cons e l ih => exact ih

/-- The first arm of the class decides. -/
theorem foldl_matchArm (diff c : Nat) (l : List MatchEntry) :
    l.foldl (matchArm diff c) none =
      (l.find? fun e => c = e.index + 1).map fun e => diff / e.blockSize := by
  induction l with
  | nil => rfl
  | cons e l ih =>
    rw [List.foldl_cons, matchArm, List.find?_cons]
    by_cases he : c = e.index + 1
    · rw [if_pos he, foldl_matchArm_some]
      simp [he]
    · rw [if_neg he, ih]
      simp [he]

theorem matchTable_find : ∀ c < maxSzIdx, 1 ≤ c →
    (matchTable.find? fun e => c = e.index + 1).map MatchEntry.blockSize =
      some (classBlockSize c) := by
  decide

/-- **The table of the macro is the size-class table.** -/
theorem sizeClassesMatch_eq {c : Nat} (h1 : 1 ≤ c) (h2 : c < maxSzIdx) (diff : Nat) :
    sizeClassesMatch diff c = some (diff / classBlockSize c) := by
  have hfind := matchTable_find c h2 h1
  rw [Option.map_eq_some_iff] at hfind
  obtain ⟨e, he, hbs⟩ := hfind
  rw [sizeClassesMatch, foldl_matchArm, he, Option.map_some, hbs]

theorem addWhile_lt (step bound : Nat) :
    ∀ fuel x, x < u32Size → addWhile step bound fuel x < u32Size := by
  intro fuel
  induction fuel with
  | zero => intro x hx; exact hx
  | succ fuel ih =>
    intro x hx
    rw [addWhile]
    split
    · exact ih _ (Nat.mod_lt _ (by decide))
    · exact hx

/-- Whatever `TARGET_APF` is, the blocks of a class fit its superblock, which fits 32 bits. -/
theorem sizeClass_room (T : Nat) {c : Nat} (h1 : 1 ≤ c) (h2 : c < maxSzIdx) :
    0 < (sizeClass T c).blockSize ∧ (sizeClass T c).sbSize < u32Size ∧
      (sizeClass T c).blockNum * (sizeClass T c).blockSize ≤ (sizeClass T c).sbSize := by
  obtain ⟨sc, hmem, hbs, heq⟩ := sizeClass_eq (T := T) h1 h2
  obtain ⟨hge, -, -, -, -, -, hmax⟩ := raiseSbSize_table sc hmem
  refine ⟨?_, ?_, ?_⟩
  · rw [sizeClass_blockSize h1 h2, ← hbs]
    omega
  · rw [heq, fillBlockNum_sbSize, growSbSize_sbSize]
    refine addWhile_lt _ _ _ _ ?_
    rw [u32Size_eq]
    omega
  · rw [heq, fillBlockNum_blockNum, fillBlockNum_blockSize, fillBlockNum_sbSize]
    exact Nat.div_mul_le_self _ _

/-! ## The index of an address -/

section

variable {T c sb i r : Nat}

/-- An address in block `i` is in the superblock, and its offset divides to `i`. -/
theorem offset_in_block (h1 : 1 ≤ c) (h2 : c < maxSzIdx) (hi : i < (sizeClass T c).blockNum)
    (hr : r < (sizeClass T c).blockSize) :
    i * (sizeClass T c).blockSize + r < (sizeClass T c).sbSize ∧
      (i * (sizeClass T c).blockSize + r) / (sizeClass T c).blockSize = i := by
  obtain ⟨hpos, -, hroom⟩ := sizeClass_room T h1 h2
  have hmul : (i + 1) * (sizeClass T c).blockSize ≤
      (sizeClass T c).blockNum * (sizeClass T c).blockSize := Nat.mul_le_mul_right _ hi
  rw [Nat.succ_mul] at hmul
  refine ⟨by omega, ?_⟩
  rw [Nat.add_comm, Nat.add_mul_div_right _ _ hpos, Nat.div_eq_of_lt hr, Nat.zero_add]

/-- With wrapping arithmetic the offset of a block is exact. -/
theorem wrapping_diff (sb : Nat) {off : Nat} (h : off < u32Size) :
    ((sb + off) % u32Size + u32Size - sb % u32Size) % u32Size = off := by
  rw [u32Size_eq] at *
  omega

/-- With checked arithmetic there is one if no multiple of `2^32` lies in between. -/
theorem checked_diff (sb : Nat) {off : Nat} (h : off < u32Size) :
    usub ((sb + off) % u32Size) (sb % u32Size) =
      if sb % u32Size + off < u32Size then some off else none := by
  unfold usub
  rw [u32Size_eq] at *
  by_cases hlt : sb % 4294967296 + off < 4294967296
  · rw [if_pos hlt, if_pos (by omega)]
    congr 1
    omega
  · rw [if_neg hlt, if_neg (by omega)]

/-- **The index of every address of a block.** The arithmetic of a release build gives it
always, the checked arithmetic exactly if the address is below the next multiple of `2^32`
after the start of the superblock. -/
theorem compute_index_iff (h1 : 1 ≤ c) (h2 : c < maxSzIdx)
    (hsb : sb + (sizeClass T c).sbSize < usizeSize) (hi : i < (sizeClass T c).blockNum)
    (hr : r < (sizeClass T c).blockSize) :
    computeIndex sb (sb + i * (sizeClass T c).blockSize + r) c = some i ∧
      (computeIndexChecked T sb (sb + i * (sizeClass T c).blockSize + r) c = some i ↔
        sb % u32Size + (i * (sizeClass T c).blockSize + r) < u32Size) := by
  obtain ⟨hlt, hdiv⟩ := offset_in_block h1 h2 hi hr
  have hfit := (sizeClass_room T h1 h2).2.1
  have hbs := sizeClass_blockSize (T := T) h1 h2
  rw [Nat.add_assoc]
  generalize i * (sizeClass T c).blockSize + r = off at hlt hdiv ⊢
  constructor
  · simp only [computeIndex]
    rw [if_pos ⟨h1, h2⟩, wrapping_diff sb (by omega), ← hbs, hdiv]
  · unfold computeIndexChecked
    rw [if_neg (by omega), Nat.mod_eq_of_lt hsb, if_neg (by omega), checked_diff sb (by omega)]
    by_cases hno : sb % u32Size + off < u32Size
    · rw [if_pos hno]
      refine iff_of_true ?_ hno
      simp only [Option.bind_eq_bind, Option.bind_some, sizeClassesMatch_eq h1 h2, ← hbs, hdiv,
        if_true]
    · rw [if_neg hno]
      exact iff_of_false (by simp) hno

end

/-- An address inside block 3 of a superblock that ends at a multiple of `2^32`. -/
theorem compute_index_iff_below :
    0x7f00ffffb000 + (sizeClass 2500 1).sbSize = 0x7f0100000000 ∧
      computeIndexChecked 2500 0x7f00ffffb000
        (0x7f00ffffb000 + 3 * (sizeClass 2500 1).blockSize + 5) 1 = some 3 :=
  ⟨by decide +kernel, (compute_index_iff (by decide) (by decide) (by decide +kernel)
    (by decide +kernel) (by decide +kernel)).2.mpr (by decide +kernel)⟩

/-- A superblock of class 1 that starts a page below a multiple of `2^32`: the first block of
its second page has no index in a debug build. -/
theorem compute_index_straddles :
    512 < (sizeClass 2500 1).blockNum ∧ 0 < (sizeClass 2500 1).blockSize ∧
      0x7f00fffff000 + (sizeClass 2500 1).sbSize < usizeSize ∧
      computeIndexChecked 2500 0x7f00fffff000
        (0x7f00fffff000 + 512 * (sizeClass 2500 1).blockSize + 0) 1 = none := by
  decide +kernel

end Apfmalloc
