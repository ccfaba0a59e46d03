import Apfmalloc.MemInfo

/-!
# `size_classes.rs`: the size-class table

`sizeClasses T` is `SIZE_CLASSES` after `init_size_class` with `TARGET_APF = T`,
computed by the same three passes over the static table (each pass treats the
classes independently, so a pass is a map over classes `1..39`), and
`getSizeClass` is the lookup in `SIZE_CLASS_LOOK_UP` as the last pass fills it.

The table is arithmetic over `u32`, so a `TARGET_APF` for which the superblock
sizes leave 32 bits breaks it. `Target` is a `TARGET_APF` that does not, and
`Target.spec` is what every later file uses of the table: block sizes are
positive multiples of 8, a superblock is a whole number of pages and of at
least two blocks, and looking up a class's own block size gives the class back.
-/

namespace Apfmalloc

open Base

structure SizeClassData where
  blockSize : Nat
  sbSize : Nat
  blockNum : Nat
  cacheBlockNum : Nat
  deriving Repr, DecidableEq

/-- The `sc!` macro: block size `2^lg_grp + ndelta·2^lg_delta`, `pgs` pages. -/
def sc (lgGrp lgDelta ndelta pgs : Nat) : SizeClassData where
  blockSize := (1 <<< lgGrp) + (ndelta <<< lgDelta)
  sbSize := pgs * page
  blockNum := 0
  cacheBlockNum := 0

/-- Classes `1..39` of the static `size_classes!` table. -/
def binClasses : List SizeClassData :=
  [sc 3 3 0 1, sc 3 3 1 1, sc 3 3 2 3, sc 3 3 3 1,
   sc 5 3 1 5, sc 5 3 2 3, sc 5 3 3 7, sc 5 3 4 1,
   sc 6 4 1 5, sc 6 4 2 3, sc 6 4 3 7, sc 6 4 4 1,
   sc 7 5 1 5, sc 7 5 2 3, sc 7 5 3 7, sc 7 5 4 1,
   sc 8 6 1 5, sc 8 6 2 3, sc 8 6 3 7, sc 8 6 4 1,
   sc 9 7 1 5, sc 9 7 2 3, sc 9 7 3 7, sc 9 7 4 1,
   sc 10 8 1 5, sc 10 8 2 3, sc 10 8 3 7, sc 10 8 4 1,
   sc 11 9 1 5, sc 11 9 2 3, sc 11 9 3 7, sc 11 9 4 1,
   sc 12 10 1 5, sc 12 10 2 3, sc 12 10 3 7, sc 12 10 4 2,
   sc 13 11 1 5, sc 13 11 2 3, sc 13 11 3 7]

/-- The reserved class 0. -/
def reservedClass : SizeClassData := ⟨0, 0, 0, 0⟩

/-- `while x < bound { x += step }` on `u32`; `bound` rounds are enough for a
positive step. -/
def addWhile (step bound : Nat) : Nat → Nat → Nat
  | 0, x => x
  | fuel + 1, x => if x < bound then addWhile step bound fuel ((x + step) % u32Size) else x

/-- First pass: a superblock holds more than one block. -/
def raiseSbSize (sc : SizeClassData) : SizeClassData :=
  if sc.sbSize > sc.blockSize ∧ sc.sbSize % sc.blockSize = 0 then sc
  else { sc with sbSize := addWhile sc.blockSize (sc.blockSize + 1) (sc.blockSize + 1) sc.sbSize }

/-- Second pass: a superblock has room for `TARGET_APF` blocks. -/
def growSbSize (targetApf : Nat) (sc : SizeClassData) : SizeClassData :=
  let max := pageCeiling (targetApf * sc.blockSize % usizeSize) % u32Size
  { sc with sbSize := addWhile sc.sbSize max max sc.sbSize }

/-- Third pass: the missing fields. -/
def fillBlockNum (sc : SizeClassData) : SizeClassData :=
  { sc with blockNum := sc.sbSize / sc.blockSize, cacheBlockNum := sc.sbSize / sc.blockSize }

/-- `SIZE_CLASSES` after the loops of `init_size_class`, which all start at
class 1. -/
def sizeClasses (targetApf : Nat) : List SizeClassData :=
  reservedClass :: ((binClasses.map raiseSbSize).map (growSbSize targetApf)).map fillBlockNum

def sizeClass (targetApf c : Nat) : SizeClassData :=
  (sizeClasses targetApf).getD c reservedClass

/-- The block size of a class; no pass of `init_size_class` changes it
(`sizeClass_blockSize`). -/
def classBlockSize (c : Nat) : Nat := ((reservedClass :: binClasses).getD c reservedClass).blockSize

/-- `while lookup_idx <= block_size { LOOK_UP[lookup_idx] = sc_index; lookup_idx += 1 }` -/
def fillLookUp (scIndex blockSize : Nat) : Nat → Nat × (Nat → Nat) → Nat × (Nat → Nat)
  | 0, st => st
  | fuel + 1, (idx, lookUp) =>
    if idx ≤ blockSize then
      fillLookUp scIndex blockSize fuel (idx + 1, fun x => if x = idx then scIndex else lookUp x)
    else (idx, lookUp)

/-- The last loop of `init_size_class` over classes `1..=n`. -/
def lookUpAfter (n : Nat) : Nat × (Nat → Nat) :=
  (List.range' 1 n).foldl
    (fun st c => fillLookUp c (classBlockSize c) (classBlockSize c + 1) st) (0, fun _ => 0)

def sizeClassLookUp : Nat → Nat := (lookUpAfter (maxSzIdx - 1)).2

def getSizeClass (size : Nat) : Nat :=
  if size > maxSz then 0 else sizeClassLookUp size

/-! ## The lookup table -/

theorem classBlockSize_lt_succ : ∀ c < 39, 1 ≤ c → classBlockSize c < classBlockSize (c + 1) := by
  decide

theorem classBlockSize_strictMono {c c' : Nat} (hc : 1 ≤ c) (hcc' : c < c') (hc' : c' < maxSzIdx) :
    classBlockSize c < classBlockSize c' := by
  induction c' with
  | zero => omega
  | succ n ih =>
    have hn : n < 39 := by unfold maxSzIdx at hc'; omega
    have hstep := classBlockSize_lt_succ n hn
    rcases Nat.lt_or_ge c n with hlt | hge
    · exact Nat.lt_trans (ih hlt (by unfold maxSzIdx; omega)) (hstep (by omega))
    · have : c = n := by omega
      subst this
      exact hstep hc

theorem fillLookUp_spec (c bs : Nat) :
    ∀ (fuel idx : Nat) (f : Nat → Nat), idx ≤ bs + 1 → bs + 1 - idx ≤ fuel →
      (fillLookUp c bs fuel (idx, f)).1 = bs + 1 ∧
      ∀ x, (fillLookUp c bs fuel (idx, f)).2 x = if idx ≤ x ∧ x ≤ bs then c else f x := by
  intro fuel
  induction fuel with
  | zero =>
    intro idx f hidx hfuel
    have : idx = bs + 1 := by omega
    subst this
    exact ⟨rfl, fun x => by rw [if_neg (by omega)]; rfl⟩
  | succ fuel ih =>
    intro idx f hidx hfuel
    rw [fillLookUp]
    by_cases hle : idx ≤ bs
    · rw [if_pos hle]
      obtain ⟨h1, h2⟩ := ih (idx + 1) (fun x => if x = idx then c else f x) (by omega) (by omega)
      refine ⟨h1, fun x => ?_⟩
      rw [h2 x]
      by_cases hx : x = idx
      · subst hx
        rw [if_neg (by omega), if_pos rfl, if_pos (by omega)]
      · by_cases hin : idx + 1 ≤ x ∧ x ≤ bs
        · rw [if_pos hin, if_pos (by omega)]
        · rw [if_neg hin, if_neg hx, if_neg (by omega)]
    · rw [if_neg hle]
      exact ⟨by simp only; omega, fun x => by rw [if_neg (by omega)]⟩

/-- `c` is the least class whose blocks hold `size` bytes. -/
def LeastClass (size c : Nat) : Prop :=
  1 ≤ c ∧ size ≤ classBlockSize c ∧ ∀ c', 1 ≤ c' → c' < c → classBlockSize c' < size

/-- After the first `n` classes the table is filled up to the `n`-th block size,
each entry with the least class that fits. -/
theorem lookUpAfter_spec :
    ∀ n, n < maxSzIdx →
      (lookUpAfter n).1 = (if n = 0 then 0 else classBlockSize n + 1) ∧
      ∀ x, x < (lookUpAfter n).1 → LeastClass x ((lookUpAfter n).2 x) ∧ (lookUpAfter n).2 x ≤ n := by
  intro n
  induction n with
  | zero => intro _; exact ⟨rfl, fun x hx => absurd hx (Nat.not_lt_zero x)⟩
  | succ n ih =>
    intro hn
    obtain ⟨hidx, hold⟩ := ih (by omega)
    have hstep : lookUpAfter (n + 1) =
        fillLookUp (n + 1) (classBlockSize (n + 1)) (classBlockSize (n + 1) + 1) (lookUpAfter n) := by
      rw [lookUpAfter, List.range'_concat, List.foldl_append]
      simp [lookUpAfter, Nat.add_comm]
    have hmono : ∀ c', 1 ≤ c' → c' ≤ n → classBlockSize c' < (lookUpAfter n).1 := by
      intro c' h1 h2
      rw [hidx, if_neg (by omega)]
      rcases Nat.lt_or_ge c' n with hlt | hge
      · exact Nat.lt_succ_of_lt (classBlockSize_strictMono h1 hlt (by omega))
      · rw [show c' = n by omega]
        exact Nat.lt_succ_self _
    have hle : (lookUpAfter n).1 ≤ classBlockSize (n + 1) + 1 := by
      rw [hidx]
      split
      · exact Nat.zero_le _
      · have : classBlockSize n < classBlockSize (n + 1) :=
          classBlockSize_strictMono (by omega) (Nat.lt_succ_self n) hn
        omega
    obtain ⟨h1, h2⟩ := fillLookUp_spec (n + 1) (classBlockSize (n + 1))
      (classBlockSize (n + 1) + 1) (lookUpAfter n).1 (lookUpAfter n).2 hle (by omega)
    rw [hstep]
    refine ⟨by rw [if_neg (by omega)]; exact h1, fun x hx => ?_⟩
    rw [h1] at hx
    rw [h2 x]
    by_cases hin : (lookUpAfter n).1 ≤ x ∧ x ≤ classBlockSize (n + 1)
    · rw [if_pos hin]
      refine ⟨⟨by omega, hin.2, fun c' hc1 hc2 => ?_⟩, Nat.le_refl _⟩
      have := hmono c' hc1 (by omega)
      omega
    · rw [if_neg hin]
      obtain ⟨hl, hb⟩ := hold x (by omega)
      exact ⟨hl, by omega⟩

theorem getSizeClass_least {size : Nat} (h : size ≤ maxSz) :
    LeastClass size (getSizeClass size) ∧ getSizeClass size < maxSzIdx := by
  obtain ⟨h1, h2⟩ := lookUpAfter_spec 39 (by decide)
  have hlast : classBlockSize 39 = maxSz := by decide
  have hx : size < (lookUpAfter 39).1 := by
    rw [h1, if_neg (by omega), hlast]
    omega
  obtain ⟨hl, hb⟩ := h2 size hx
  have hdef : getSizeClass size = (lookUpAfter 39).2 size := by
    rw [getSizeClass, if_neg (Nat.not_lt.mpr h), sizeClassLookUp, show maxSzIdx - 1 = 39 from rfl]
  rw [hdef]
  exact ⟨hl, Nat.lt_succ_of_le hb⟩

/-- No class has larger blocks than the last one. -/
theorem classBlockSize_le_maxSz {c : Nat} (h1 : 1 ≤ c) (h2 : c < maxSzIdx) :
    classBlockSize c ≤ maxSz := by
  have hlast : classBlockSize 39 = maxSz := by decide
  rcases Nat.lt_or_ge c 39 with hlt | hge
  · have := classBlockSize_strictMono h1 hlt (by decide)
    omega
  · exact Nat.le_of_eq (by rw [← hlast, show 39 = c by unfold maxSzIdx at h2; omega])

/-- The least class is unique, so this evaluates the lookup. -/
theorem getSizeClass_eq {size c : Nat} (hc : c < maxSzIdx) (h : LeastClass size c) :
    getSizeClass size = c := by
  have hle : size ≤ maxSz := Nat.le_trans h.2.1 (classBlockSize_le_maxSz h.1 hc)
  obtain ⟨⟨g1, g2, g3⟩, -⟩ := getSizeClass_least hle
  obtain ⟨h1, h2, h3⟩ := h
  rcases Nat.lt_trichotomy (getSizeClass size) c with hlt | heq | hgt
  · have := h3 _ g1 hlt
    omega
  · exact heq
  · have := g3 _ h1 hgt
    omega

/-- A class's own block size is looked up to the class. -/
theorem getSizeClass_classBlockSize {c : Nat} (h1 : 1 ≤ c) (h2 : c < maxSzIdx) :
    getSizeClass (classBlockSize c) = c :=
  getSizeClass_eq h2 ⟨h1, Nat.le_refl _, fun _ hc' hlt => classBlockSize_strictMono hc' hlt h2⟩

/-! ## The superblock sizes -/

/-- The loop adds whole steps, reaches the bound and overshoots by less than a
step; with room for one more step in 32 bits it never wraps. -/
theorem addWhile_spec (step bound : Nat) (hstep : 0 < step) (hroom : bound + step ≤ u32Size) :
    ∀ (fuel x : Nat), x < u32Size → bound - x ≤ fuel → step ∣ x →
      step ∣ addWhile step bound fuel x ∧ bound ≤ addWhile step bound fuel x ∧
      x ≤ addWhile step bound fuel x ∧
      (addWhile step bound fuel x = x ∨ addWhile step bound fuel x < bound + step) := by
  intro fuel
  induction fuel with
  | zero => intro x _ hf hd; exact ⟨hd, by rw [addWhile]; omega, Nat.le_refl _, Or.inl rfl⟩
  | succ fuel ih =>
    intro x hx hf hd
    rw [addWhile]
    by_cases hlt : x < bound
    · rw [if_pos hlt, Nat.mod_eq_of_lt (by omega : x + step < u32Size)]
      obtain ⟨h1, h2, h3, h4⟩ := ih (x + step) (by omega) (by omega)
        (Nat.dvd_add hd (Nat.dvd_refl step))
      refine ⟨h1, h2, by omega, Or.inr ?_⟩
      rcases h4 with h4 | h4 <;> omega
    · rw [if_neg hlt]
      exact ⟨hd, by omega, Nat.le_refl _, Or.inl rfl⟩

/-- What the first pass leaves of each class, read off the static table. -/
theorem raiseSbSize_table : ∀ sc ∈ binClasses,
    8 ≤ sc.blockSize ∧ sc.blockSize % 8 = 0 ∧ sc.blockSize ≤ maxSz ∧
    (raiseSbSize sc).sbSize % page = 0 ∧ (raiseSbSize sc).sbSize % sc.blockSize = 0 ∧
    2 * sc.blockSize ≤ (raiseSbSize sc).sbSize ∧ (raiseSbSize sc).sbSize ≤ 28672 := by
  decide +kernel

/-- A `TARGET_APF` for which the superblock sizes stay in 32 bits. -/
structure Target where
  apf : Nat
  fits : (apf * maxSz + page - 1) / page * page + 28672 ≤ u32Size

/-- The default of `TARGET_APF`. -/
def Target.default : Target := ⟨2500, by decide⟩

theorem raiseSbSize_blockSize (sc : SizeClassData) : (raiseSbSize sc).blockSize = sc.blockSize := by
  unfold raiseSbSize
  split <;> rfl

/-- A class `1..39` of the final table comes from its static entry. -/
theorem sizeClass_eq {T c : Nat} (h1 : 1 ≤ c) (h2 : c < maxSzIdx) :
    ∃ sc ∈ binClasses, sc.blockSize = classBlockSize c ∧
      sizeClass T c = fillBlockNum (growSbSize T (raiseSbSize sc)) := by
  obtain ⟨i, rfl⟩ : ∃ i, c = i + 1 := ⟨c - 1, by omega⟩
  have hlen : i < binClasses.length := by
    have : binClasses.length = 39 := by decide
    unfold maxSzIdx at h2
    omega
  refine ⟨binClasses[i], List.getElem_mem hlen, ?_, ?_⟩
  · rw [classBlockSize, List.getD_cons_succ, List.getD_eq_getElem?_getD,
      List.getElem?_eq_getElem hlen, Option.getD_some]
  · rw [sizeClass, sizeClasses, List.getD_cons_succ, List.getD_eq_getElem?_getD, List.getElem?_map,
      List.getElem?_map, List.getElem?_map, List.getElem?_eq_getElem hlen, Option.map_some,
      Option.map_some, Option.map_some, Option.getD_some]

/-- Outside `1..MAX_SZ_IDX` there is only the reserved entry. -/
theorem sizeClass_reserved {T c : Nat} (h : ¬(1 ≤ c ∧ c < maxSzIdx)) :
    sizeClass T c = reservedClass := by
  have hlen : (sizeClasses T).length = maxSzIdx := by
    simp only [sizeClasses, List.length_cons, List.length_map]
    decide
  by_cases h0 : c = 0
  · subst h0
    rw [sizeClass, sizeClasses, List.getD_cons_zero]
  · rw [sizeClass, List.getD_eq_getElem?_getD, List.getElem?_eq_none (by omega), Option.getD_none]

/-- Everything the allocator relies on in the entry of class `c`. -/
structure ClassSpec (sc : SizeClassData) (c : Nat) : Prop where
  blockSize_eq : sc.blockSize = classBlockSize c
  blockSize_ge : 8 ≤ sc.blockSize
  blockSize_mod : sc.blockSize % 8 = 0
  blockSize_le : sc.blockSize ≤ maxSz
  sbSize_page : sc.sbSize % page = 0
  sbSize_eq : sc.sbSize = sc.blockSize * sc.blockNum
  blockNum_ge : 2 ≤ sc.blockNum
  sbSize_lt : sc.sbSize < u32Size

/-- `update_page_map` checks the superblock size with the page mask. -/
theorem ClassSpec.sbSize_mask {sc : SizeClassData} {c : Nat} (h : ClassSpec sc c) :
    sc.sbSize &&& pageMask = 0 := by
  change sc.sbSize &&& (2 ^ 12 - 1) = 0
  rw [and_low_mask]
  exact h.sbSize_page

theorem fillBlockNum_sbSize (sc : SizeClassData) : (fillBlockNum sc).sbSize = sc.sbSize := rfl

theorem fillBlockNum_blockSize (sc : SizeClassData) :
    (fillBlockNum sc).blockSize = sc.blockSize := rfl

theorem fillBlockNum_blockNum (sc : SizeClassData) :
    (fillBlockNum sc).blockNum = sc.sbSize / sc.blockSize := rfl

theorem growSbSize_blockSize (T : Nat) (sc : SizeClassData) :
    (growSbSize T sc).blockSize = sc.blockSize := by
  -- on a literal entry: the kernel would otherwise compare the two superblock sizes first
  obtain ⟨bs, sb, bn, cbn⟩ := sc
  change (growSbSize T ⟨bs, sb, bn, cbn⟩).blockSize = bs
  rfl

theorem growSbSize_sbSize (T : Nat) (sc : SizeClassData) :
    (growSbSize T sc).sbSize = addWhile sc.sbSize
      (pageCeiling (T * sc.blockSize % usizeSize) % u32Size)
      (pageCeiling (T * sc.blockSize % usizeSize) % u32Size) sc.sbSize := by
  simp only [growSbSize]

theorem sizeClass_blockSize {T c : Nat} (h1 : 1 ≤ c) (h2 : c < maxSzIdx) :
    (sizeClass T c).blockSize = classBlockSize c := by
  obtain ⟨sc, -, hbs, heq⟩ := sizeClass_eq (T := T) h1 h2
  rw [heq, fillBlockNum_blockSize, growSbSize_blockSize, raiseSbSize_blockSize, hbs]

/-- The bytes of `TARGET_APF` blocks round up to a `u32` with room for one more
superblock as the first pass left it. -/
theorem Target.bytes_fit (T : Target) {bs : Nat} (hbs : bs ≤ maxSz) :
    T.apf * bs + page ≤ usizeSize ∧ pageCeiling (T.apf * bs) + 28672 ≤ u32Size := by
  have hfits := T.fits
  have hle : T.apf * bs ≤ T.apf * maxSz := Nat.mul_le_mul_left _ hbs
  generalize T.apf * maxSz = M at hfits hle
  generalize T.apf * bs = N at hle
  rw [page_eq, u32Size_eq] at hfits
  have hN : N + page ≤ usizeSize := by rw [page_eq, usizeSize_eq]; omega
  have hceil : pageCeiling N ≤ (M + 4096 - 1) / 4096 * 4096 := by
    rw [pageCeiling_eq hN]
    exact Nat.mul_le_mul_right _ (Nat.div_le_div_right (by rw [page_eq]; omega))
  exact ⟨hN, Nat.le_trans (Nat.add_le_add_right hceil _) hfits⟩

/-- How class `c` of the final table comes from its static entry: the superblock is
a whole number of those the first pass left, enough for `TARGET_APF` blocks. -/
structure ClassFrom (T : Target) (sc : SizeClassData) (c : Nat) : Prop where
  mem : sc ∈ binClasses
  eq : sizeClass T.apf c = fillBlockNum (growSbSize T.apf (raiseSbSize sc))
  blockSize : sc.blockSize = classBlockSize c
  blockSize_eq : (sizeClass T.apf c).blockSize = sc.blockSize
  blockNum : (sizeClass T.apf c).blockNum = (sizeClass T.apf c).sbSize / sc.blockSize
  cacheBlockNum : (sizeClass T.apf c).cacheBlockNum = (sizeClass T.apf c).sbSize / sc.blockSize
  dvd : (raiseSbSize sc).sbSize ∣ (sizeClass T.apf c).sbSize
  ge : (raiseSbSize sc).sbSize ≤ (sizeClass T.apf c).sbSize
  apf : pageCeiling (T.apf * sc.blockSize) ≤ (sizeClass T.apf c).sbSize
  lt : (sizeClass T.apf c).sbSize < u32Size

theorem Target.classFrom (T : Target) {c : Nat} (h1 : 1 ≤ c) (h2 : c < maxSzIdx) :
    ∃ sc, ClassFrom T sc c := by
  obtain ⟨sc, hmem, hbs, heq⟩ := sizeClass_eq (T := T.apf) h1 h2
  obtain ⟨-, -, hle, -, -, htwo, hmax⟩ := raiseSbSize_table sc hmem
  have hbs' : (sizeClass T.apf c).blockSize = sc.blockSize := by
    rw [sizeClass_blockSize h1 h2, hbs]
  have hsb : (sizeClass T.apf c).sbSize = (growSbSize T.apf (raiseSbSize sc)).sbSize := by
    rw [heq, fillBlockNum_sbSize]
  have hnum : (sizeClass T.apf c).blockNum = (sizeClass T.apf c).sbSize / sc.blockSize := by
    rw [hsb, heq, fillBlockNum_blockNum, growSbSize_blockSize, raiseSbSize_blockSize]
  have hcache : (sizeClass T.apf c).cacheBlockNum = (sizeClass T.apf c).blockNum := by
    rw [heq]
    rfl
  -- the second pass starts from the whole superblock the first one left
  obtain ⟨hfit, hroom⟩ := T.bytes_fit hle
  have hgrow := growSbSize_sbSize T.apf (raiseSbSize sc)
  have hbytes : T.apf * sc.blockSize < usizeSize := by rw [page_eq] at hfit; omega
  have hceil : pageCeiling (T.apf * sc.blockSize) < u32Size := by omega
  rw [raiseSbSize_blockSize, Nat.mod_eq_of_lt hbytes, Nat.mod_eq_of_lt hceil] at hgrow
  rw [hgrow] at hsb
  have hge := (raiseSbSize_table sc hmem).1
  have hu := u32Size_eq
  have hw := addWhile_spec (raiseSbSize sc).sbSize (pageCeiling (T.apf * sc.blockSize)) (by omega)
    (by omega) (pageCeiling (T.apf * sc.blockSize)) (raiseSbSize sc).sbSize (by omega) (by omega)
    (Nat.dvd_refl _)
  rw [← hsb] at hw
  obtain ⟨hd, hreach, hmono, hub⟩ := hw
  refine ⟨sc, hmem, heq, hbs, hbs', hnum, by rw [hcache, hnum], hd, hmono, hreach, ?_⟩
  rcases hub with h | h <;> omega

theorem Target.spec (T : Target) {c : Nat} (h1 : 1 ≤ c) (h2 : c < maxSzIdx) :
    ClassSpec (sizeClass T.apf c) c := by
  obtain ⟨sc, hg⟩ := T.classFrom h1 h2
  obtain ⟨hge, hmod, hle, hpg, hdvd, htwo, -⟩ := raiseSbSize_table sc hg.mem
  have hdvd' : sc.blockSize ∣ (sizeClass T.apf c).sbSize :=
    Nat.dvd_trans (Nat.dvd_of_mod_eq_zero hdvd) hg.dvd
  refine ⟨hg.blockSize_eq.trans hg.blockSize, ?_, ?_, ?_, ?_, ?_, ?_, hg.lt⟩
  · rw [hg.blockSize_eq]
    exact hge
  · rw [hg.blockSize_eq]
    exact hmod
  · rw [hg.blockSize_eq]
    exact hle
  · exact Nat.mod_eq_zero_of_dvd (Nat.dvd_trans (Nat.dvd_of_mod_eq_zero hpg) hg.dvd)
  · rw [hg.blockNum, hg.blockSize_eq, Nat.mul_div_cancel' hdvd']
  · rw [hg.blockNum, Nat.le_div_iff_mul_le (Nat.lt_of_lt_of_le (by decide) hge)]
    exact Nat.le_trans htwo hg.ge

end Apfmalloc
