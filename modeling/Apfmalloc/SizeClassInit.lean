import Apfmalloc.SizeClasses
import Apfmalloc.Base.Tally

/-!
# `init_size_class` as the code runs it

`SizeClasses.lean` gives the table that `init_size_class` leaves, with arithmetic
that wraps. Here the function itself runs over its two statics, the table and the
lookup array, in a build that panics on overflow: every addition and every cast
to `u32` is checked, the asserts are there, and a loop that does not end is a
failure too. For a `TARGET_APF` that fits it does not panic, it leaves the table of
`SizeClasses.lean`, and running it again changes nothing.
-/

namespace Apfmalloc

open Base

/-- `SIZE_CLASSES` and `SIZE_CLASS_LOOK_UP`. -/
structure SizeStatics where
  classes : List SizeClassData
  lookUp : Nat → Nat

def SizeStatics.start : SizeStatics := ⟨reservedClass :: binClasses, fun _ => 0⟩

/-- Class `c` of the table. -/
def SizeStatics.sizeClass (st : SizeStatics) (c : Nat) : SizeClassData :=
  st.classes.getD c reservedClass

/-- `get_size_class`. -/
def SizeStatics.getSizeClass (st : SizeStatics) (size : Nat) : Nat :=
  if size > maxSz then 0 else st.lookUp size

/-- `while x < bound { x += step }` with overflow checks. -/
def addWhileChecked (step bound : Nat) : Nat → Nat → Option Nat
  | 0, x => if x < bound then none else some x
  | fuel + 1, x =>
    if x < bound then
      if x + step < u32Size then addWhileChecked step bound fuel (x + step) else none
    else some x

def raiseSbSizeChecked (sc : SizeClassData) : Option SizeClassData :=
  if sc.sbSize > sc.blockSize ∧ sc.sbSize % sc.blockSize = 0 then some sc
  else (addWhileChecked sc.blockSize (sc.blockSize + 1) (sc.blockSize + 1) sc.sbSize).map
    fun sbSize => { sc with sbSize := sbSize }

def growSbSizeChecked (targetApf : Nat) (sc : SizeClassData) : Option SizeClassData :=
  let bytes := targetApf * sc.blockSize
  if bytes < usizeSize ∧ bytes + page ≤ usizeSize ∧ pageCeiling bytes < u32Size then
    (addWhileChecked sc.sbSize (pageCeiling bytes) (pageCeiling bytes) sc.sbSize).map
      fun sbSize => { sc with sbSize := sbSize }
  else none

def fillBlockNumChecked (sc : SizeClassData) : Option SizeClassData :=
  let blockNum := sc.sbSize / sc.blockSize
  if blockNum > 0 then some { sc with blockNum := blockNum, cacheBlockNum := blockNum } else none

/-- The three passes over classes `1..39`. -/
def passes (targetApf : Nat) (bins : List SizeClassData) : Option (List SizeClassData) := do
  let bins ← bins.mapM raiseSbSizeChecked
  let bins ← bins.mapM (growSbSizeChecked targetApf)
  bins.mapM fillBlockNumChecked

/-- The last loop over classes `1..=n` of a table with these block sizes. -/
def fillAll (blockSize lookUp : Nat → Nat) (n : Nat) : Nat × (Nat → Nat) :=
  (List.range' 1 n).foldl (fun st c => fillLookUp c (blockSize c) (blockSize c + 1) st) (0, lookUp)

def initSizeClass (targetApf : Nat) (st : SizeStatics) : Option SizeStatics := do
  let bins ← passes targetApf st.classes.tail
  let classes := st.classes.headD reservedClass :: bins
  some ⟨classes,
    (fillAll (fun c => (classes.getD c reservedClass).blockSize) st.lookUp (maxSzIdx - 1)).2⟩

/-! ## No overflow -/

theorem addWhileChecked_eq (step bound : Nat) (hstep : 0 < step) (hroom : bound + step ≤ u32Size) :
    ∀ (fuel x : Nat), bound - x ≤ fuel →
      addWhileChecked step bound fuel x = some (addWhile step bound fuel x) := by
  intro fuel
  induction fuel with
  | zero =>
    intro x hf
    rw [addWhileChecked, if_neg (by omega), addWhile]
  | succ fuel ih =>
    intro x hf
    rw [addWhileChecked, addWhile]
    by_cases hlt : x < bound
    · have hfit : x + step < u32Size := by omega
      rw [if_pos hlt, if_pos hlt, if_pos hfit, Nat.mod_eq_of_lt hfit]
      exact ih (x + step) (by omega)
    · rw [if_neg hlt, if_neg hlt]

theorem raiseSbSizeChecked_eq : ∀ sc ∈ binClasses,
    raiseSbSizeChecked sc = some (raiseSbSize sc) := by
  decide +kernel

theorem addWhileChecked_done {step bound x : Nat} (h : bound ≤ x) (fuel : Nat) :
    addWhileChecked step bound fuel x = some x := by
  cases fuel with
  | zero => rw [addWhileChecked, if_neg (by omega)]
  | succ fuel => rw [addWhileChecked, if_neg (by omega)]

/-- The checks of the second pass, for an entry of the table. -/
theorem Target.growChecks (T : Target) {bs : Nat} (hbs : bs ≤ maxSz) :
    T.apf * bs < usizeSize ∧ T.apf * bs + page ≤ usizeSize ∧
      pageCeiling (T.apf * bs) < u32Size := by
  obtain ⟨hfit, hroom⟩ := T.bytes_fit hbs
  have hpos : 0 < page := by decide
  exact ⟨by omega, hfit, by omega⟩

theorem growSbSizeChecked_eq (T : Target) {sc : SizeClassData} (hmem : sc ∈ binClasses) :
    growSbSizeChecked T.apf (raiseSbSize sc) = some (growSbSize T.apf (raiseSbSize sc)) := by
  obtain ⟨hge, -, hle, -, -, htwo, hmax⟩ := raiseSbSize_table sc hmem
  obtain ⟨-, hroom⟩ := T.bytes_fit hle
  obtain ⟨hbytes, hfit, hceil⟩ := T.growChecks hle
  rw [growSbSizeChecked, raiseSbSize_blockSize]
  rw [if_pos ⟨hbytes, hfit, hceil⟩,
    addWhileChecked_eq _ _ (by omega) (by omega) _ _ (by omega), growSbSize, raiseSbSize_blockSize]
  simp only [Nat.mod_eq_of_lt hbytes, Nat.mod_eq_of_lt hceil, Option.map_some]

theorem fillBlockNumChecked_eq {sc : SizeClassData} (h : 0 < sc.sbSize / sc.blockSize) :
    fillBlockNumChecked sc = some (fillBlockNum sc) := by
  rw [fillBlockNumChecked, if_pos h, fillBlockNum]

/-! ## The lookup array -/

theorem lookUpAfter_eq (n : Nat) : lookUpAfter n = fillAll classBlockSize (fun _ => 0) n := rfl

theorem fillAll_succ (blockSize lookUp : Nat → Nat) (n : Nat) :
    fillAll blockSize lookUp (n + 1) =
      fillLookUp (n + 1) (blockSize (n + 1)) (blockSize (n + 1) + 1)
        (fillAll blockSize lookUp n) := by
  rw [fillAll, List.range'_concat, List.foldl_append]
  simp [fillAll, Nat.add_comm]

/-- The loop reads the block sizes of classes `1..=n` only. -/
theorem fillAll_congr {blockSize blockSize' : Nat → Nat} (lookUp : Nat → Nat) :
    ∀ n, (∀ c, 1 ≤ c → c ≤ n → blockSize c = blockSize' c) →
      fillAll blockSize lookUp n = fillAll blockSize' lookUp n := by
  intro n
  induction n with
  | zero => intro _; rfl
  | succ n ih =>
    intro h
    rw [fillAll_succ, fillAll_succ, ih fun c h1 h2 => h c h1 (by omega),
      h (n + 1) (by omega) (Nat.le_refl _)]

/-- Whatever was in the array, the entries up to the last block size are those of
the first run and the others stay. -/
theorem fillAll_spec (lookUp : Nat → Nat) : ∀ n, n < maxSzIdx →
    (fillAll classBlockSize lookUp n).1 = (lookUpAfter n).1 ∧
      ∀ x, (fillAll classBlockSize lookUp n).2 x =
        if x < (lookUpAfter n).1 then (lookUpAfter n).2 x else lookUp x := by
  intro n
  induction n with
  | zero => intro _; exact ⟨rfl, fun x => (if_neg (Nat.not_lt_zero x)).symm⟩
  | succ n ih =>
    intro hn
    obtain ⟨hidx, hval⟩ := ih (by omega)
    have hspec := lookUpAfter_spec n (by omega)
    have hle : (lookUpAfter n).1 ≤ classBlockSize (n + 1) + 1 := by
      rw [hspec.1]
      split
      · exact Nat.zero_le _
      · have : classBlockSize n < classBlockSize (n + 1) :=
          classBlockSize_strictMono (by omega) (Nat.lt_succ_self n) hn
        omega
    have hfirst := fillAll_succ classBlockSize (fun _ => 0) n
    rw [← lookUpAfter_eq, ← lookUpAfter_eq] at hfirst
    obtain ⟨h1, h2⟩ := fillLookUp_spec (n + 1) (classBlockSize (n + 1)) (classBlockSize (n + 1) + 1)
      (lookUpAfter n).1 (lookUpAfter n).2 hle (by omega)
    obtain ⟨g1, g2⟩ := fillLookUp_spec (n + 1) (classBlockSize (n + 1)) (classBlockSize (n + 1) + 1)
      (fillAll classBlockSize lookUp n).1 (fillAll classBlockSize lookUp n).2 (by omega) (by omega)
    rw [fillAll_succ, hfirst]
    refine ⟨g1.trans h1.symm, fun x => ?_⟩
    rw [g2 x, h1, h2 x, hidx, hval x]
    by_cases hin : (lookUpAfter n).1 ≤ x ∧ x ≤ classBlockSize (n + 1)
    · rw [if_pos hin, if_pos hin, if_pos (by omega)]
    · rw [if_neg hin, if_neg hin]
      by_cases hx : x < (lookUpAfter n).1
      · rw [if_pos hx, if_pos (by omega)]
      · rw [if_neg hx, if_neg (by omega)]

theorem lookUpAfter_top : (lookUpAfter (maxSzIdx - 1)).1 = maxSz + 1 := by
  have hlast : classBlockSize (maxSzIdx - 1) = maxSz := by decide
  rw [(lookUpAfter_spec (maxSzIdx - 1) (by decide)).1, if_neg (by decide), hlast]

theorem sizeClassLookUp_out {x : Nat} (h : maxSz < x) : sizeClassLookUp x = 0 := by
  obtain ⟨-, hzero⟩ := fillAll_spec (fun _ => 0) (maxSzIdx - 1) (by decide)
  have hx := hzero x
  rw [← lookUpAfter_eq, lookUpAfter_top, if_neg (by omega)] at hx
  exact hx

/-- An array that is zero behind the last block size is filled to the same lookup. -/
theorem sizeClassLookUp_refill {lookUp : Nat → Nat} (h : ∀ x, maxSz < x → lookUp x = 0) :
    (fillAll classBlockSize lookUp (maxSzIdx - 1)).2 = sizeClassLookUp := by
  funext x
  obtain ⟨-, hval⟩ := fillAll_spec lookUp (maxSzIdx - 1) (by decide)
  rw [hval x, lookUpAfter_top]
  by_cases hx : x < maxSz + 1
  · rw [if_pos hx, sizeClassLookUp]
  · rw [if_neg hx, sizeClassLookUp_out (by omega)]
    exact h x (by omega)

/-! ## The two runs -/

theorem sizeClasses_cons (T : Nat) : sizeClasses T = reservedClass :: (sizeClasses T).tail := by
  rw [sizeClasses, List.tail_cons]

theorem mem_sizeClasses_tail {T : Nat} {sc : SizeClassData} (h : sc ∈ (sizeClasses T).tail) :
    ∃ c, 1 ≤ c ∧ c < maxSzIdx ∧ sizeClass T c = sc := by
  obtain ⟨i, hi⟩ := List.mem_iff_getElem?.mp h
  obtain ⟨hlt, -⟩ := List.getElem?_eq_some_iff.mp hi
  have hlen : (sizeClasses T).tail.length = 39 := by
    simp only [sizeClasses, List.tail_cons, List.length_map]
    rfl
  refine ⟨i + 1, by omega, by unfold maxSzIdx; omega, ?_⟩
  rw [sizeClass, List.getD_eq_getElem?_getD, ← List.getElem?_tail, hi, Option.getD_some]

theorem passes_of {T : Nat} {l l₁ l₂ l₃ : List SizeClassData}
    (h₁ : l.mapM raiseSbSizeChecked = some l₁) (h₂ : l₁.mapM (growSbSizeChecked T) = some l₂)
    (h₃ : l₂.mapM fillBlockNumChecked = some l₃) : passes T l = some l₃ := by
  simp only [passes, h₁, h₂, h₃, Option.bind_eq_bind, Option.bind_some]

/-- The passes do not panic on the static table. -/
theorem passes_start (T : Target) : passes T.apf binClasses = some (sizeClasses T.apf).tail := by
  have hgrow : (binClasses.map raiseSbSize).mapM (growSbSizeChecked T.apf) =
      some ((binClasses.map raiseSbSize).map (growSbSize T.apf)) := by
    refine mapM_eq_map fun sc hsc => ?_
    obtain ⟨sc₀, hmem, rfl⟩ := List.mem_map.mp hsc
    exact growSbSizeChecked_eq T hmem
  have hfill : ((binClasses.map raiseSbSize).map (growSbSize T.apf)).mapM fillBlockNumChecked =
      some (((binClasses.map raiseSbSize).map (growSbSize T.apf)).map fillBlockNum) := by
    refine mapM_eq_map fun sc hsc => fillBlockNumChecked_eq ?_
    obtain ⟨c, h1, h2, hc⟩ := mem_sizeClasses_tail (T := T.apf) (List.mem_map_of_mem hsc)
    have hnum := (T.spec h1 h2).blockNum_ge
    rw [hc, fillBlockNum_blockNum] at hnum
    omega
  rw [sizeClasses, List.tail_cons]
  exact passes_of (mapM_eq_map raiseSbSizeChecked_eq) hgrow hfill

/-- Each pass leaves an entry of the final table as it is. -/
theorem Target.stable (T : Target) {c : Nat} (h1 : 1 ≤ c) (h2 : c < maxSzIdx) :
    raiseSbSizeChecked (sizeClass T.apf c) = some (sizeClass T.apf c) ∧
      growSbSizeChecked T.apf (sizeClass T.apf c) = some (sizeClass T.apf c) ∧
      fillBlockNumChecked (sizeClass T.apf c) = some (sizeClass T.apf c) := by
  have hspec := T.spec h1 h2
  obtain ⟨sc, hf⟩ := T.classFrom h1 h2
  have hnum := hspec.blockNum_ge
  have hge := hspec.blockSize_ge
  refine ⟨?_, ?_, ?_⟩
  · refine if_pos ⟨?_, ?_⟩
    · have := Nat.mul_le_mul_left (sizeClass T.apf c).blockSize hnum
      rw [hspec.sbSize_eq]
      omega
    · rw [hspec.sbSize_eq]
      exact Nat.mul_mod_right _ _
  · rw [growSbSizeChecked, if_pos (T.growChecks hspec.blockSize_le),
      addWhileChecked_done (by rw [hf.blockSize_eq]; exact hf.apf), Option.map_some]
  · have hnum' : (sizeClass T.apf c).sbSize / (sizeClass T.apf c).blockSize =
        (sizeClass T.apf c).blockNum := by rw [hf.blockSize_eq, hf.blockNum]
    have hcache : (sizeClass T.apf c).cacheBlockNum = (sizeClass T.apf c).blockNum := by
      rw [hf.cacheBlockNum, hf.blockNum]
    rw [fillBlockNumChecked, hnum', if_pos (by omega)]
    generalize sizeClass T.apf c = sc' at hcache
    obtain ⟨bs, sb, bn, cbn⟩ := sc'
    exact congrArg (fun n => some (SizeClassData.mk bs sb bn n)) hcache.symm

/-- The passes change nothing of the final table. -/
theorem passes_again (T : Target) :
    passes T.apf (sizeClasses T.apf).tail = some (sizeClasses T.apf).tail := by
  have hid : ∀ {f : SizeClassData → Option SizeClassData},
      (∀ sc ∈ (sizeClasses T.apf).tail, f sc = some sc) →
      (sizeClasses T.apf).tail.mapM f = some (sizeClasses T.apf).tail := by
    intro f hf
    rw [mapM_eq_map (g := id) hf, List.map_id]
  have hstable : ∀ sc ∈ (sizeClasses T.apf).tail, raiseSbSizeChecked sc = some sc ∧
      growSbSizeChecked T.apf sc = some sc ∧ fillBlockNumChecked sc = some sc := by
    intro sc hsc
    obtain ⟨c, h1, h2, rfl⟩ := mem_sizeClasses_tail hsc
    exact T.stable h1 h2
  exact passes_of (hid fun sc hsc => (hstable sc hsc).1) (hid fun sc hsc => (hstable sc hsc).2.1)
    (hid fun sc hsc => (hstable sc hsc).2.2)

/-- What the allocator has after `init_size_class`. -/
def SizeStatics.ready (targetApf : Nat) : SizeStatics := ⟨sizeClasses targetApf, sizeClassLookUp⟩

theorem ready_classes (T : Nat) : (SizeStatics.ready T).classes = sizeClasses T := by
  rw [SizeStatics.ready]

theorem ready_lookUp (T : Nat) : (SizeStatics.ready T).lookUp = sizeClassLookUp := by
  rw [SizeStatics.ready]

/-- A run whose passes give the final table and whose array is zero behind the last
block size ends in the final statics. -/
theorem initSizeClass_eq {T : Target} {st : SizeStatics}
    (hhead : st.classes.headD reservedClass = reservedClass) (hpasses : passes T.apf st.classes.tail = some (sizeClasses T.apf).tail)
    (hzero : ∀ x, maxSz < x → st.lookUp x = 0) :
    initSizeClass T.apf st = some (.ready T.apf) := by
  have hcons := (sizeClasses_cons T.apf).symm
  have hbs : ∀ c, 1 ≤ c → c ≤ maxSzIdx - 1 →
      ((sizeClasses T.apf).getD c reservedClass).blockSize = classBlockSize c := by
    intro c h1 h2
    exact sizeClass_blockSize h1 (by unfold maxSzIdx at *; omega)
  simp only [initSizeClass, hpasses, Option.bind_eq_bind, Option.bind_some, hhead, hcons]
  rw [fillAll_congr st.lookUp (maxSzIdx - 1) hbs, sizeClassLookUp_refill hzero, SizeStatics.ready]

/-- What is promised of class `c` of a table. -/
structure ClassOk (T : Nat) (sc : SizeClassData) : Prop where
  page : sc.sbSize % Apfmalloc.page = 0
  blocks : sc.sbSize % sc.blockSize = 0
  blockNum : sc.blockNum * sc.blockSize = sc.sbSize
  cache : sc.blockNum = sc.cacheBlockNum
  apf : max T 2 ≤ sc.blockNum

theorem Target.classOk (T : Target) {c : Nat} (h1 : 1 ≤ c) (h2 : c < maxSzIdx) :
    ClassOk T.apf (sizeClass T.apf c) := by
  have hspec := T.spec h1 h2
  obtain ⟨sc, hf⟩ := T.classFrom h1 h2
  have hle : sc.blockSize ≤ maxSz := (raiseSbSize_table sc hf.mem).2.2.1
  have hreach := Nat.le_trans (pageCeiling_bounds (T.bytes_fit hle).1).1 hf.apf
  refine ⟨hspec.sbSize_page, ?_, ?_, by rw [hf.blockNum, hf.cacheBlockNum], ?_⟩
  · rw [hspec.sbSize_eq]
    exact Nat.mul_mod_right _ _
  · rw [hspec.sbSize_eq, Nat.mul_comm]
  · refine Nat.max_le.mpr ⟨?_, hspec.blockNum_ge⟩
    have hpos : 0 < sc.blockSize := Nat.lt_of_lt_of_le (by decide) (raiseSbSize_table sc hf.mem).1
    rw [hf.blockNum, Nat.le_div_iff_mul_le hpos]
    exact hreach

/-- **`init_size_class`** for every `TARGET_APF` that fits 32 bits: no computation
overflows, every superblock is a whole number of pages and of blocks, at least
`TARGET_APF` of them and two; the lookup is the least class that holds the size; and
a second run changes nothing. -/
theorem size_classes_ready (T : Target) :
    ∃ st, initSizeClass T.apf .start = some st ∧
      (∀ c, 1 ≤ c → c < maxSzIdx → ClassOk T.apf (st.sizeClass c)) ∧
      (∀ size ≤ maxSz, 1 ≤ st.getSizeClass size ∧ st.getSizeClass size < maxSzIdx ∧
        size ≤ (st.sizeClass (st.getSizeClass size)).blockSize ∧
        ∀ c, 1 ≤ c → c < st.getSizeClass size → (st.sizeClass c).blockSize < size) ∧
      (∀ c, 1 ≤ c → c < maxSzIdx → st.getSizeClass (st.sizeClass c).blockSize = c) ∧
      initSizeClass T.apf st = some st := by
  have hclass : ∀ c, (SizeStatics.ready T.apf).sizeClass c = sizeClass T.apf c := by
    intro c
    rw [SizeStatics.sizeClass, ready_classes, sizeClass]
  have hget : ∀ size, (SizeStatics.ready T.apf).getSizeClass size = getSizeClass size := by
    intro size
    rw [SizeStatics.getSizeClass, ready_lookUp, getSizeClass]
  refine ⟨.ready T.apf, initSizeClass_eq rfl (passes_start T) fun _ _ => rfl, fun c h1 h2 => ?_,
    fun size hsize => ?_, fun c h1 h2 => ?_, initSizeClass_eq ?_ ?_ ?_⟩
  · rw [hclass]
    exact T.classOk h1 h2
  · obtain ⟨⟨h1, hle, hleast⟩, h2⟩ := getSizeClass_least hsize
    simp only [hget, hclass]
    refine ⟨h1, h2, ?_, fun c hc1 hc2 => ?_⟩
    · rw [sizeClass_blockSize h1 h2]
      exact hle
    · rw [sizeClass_blockSize hc1 (Nat.lt_trans hc2 h2)]
      exact hleast c hc1 hc2
  · rw [hget, hclass, sizeClass_blockSize h1 h2]
    exact getSizeClass_classBlockSize h1 h2
  · rw [ready_classes, sizeClasses_cons, List.headD_cons]
  · rw [ready_classes]
    exact passes_again T
  · rw [ready_lookUp]
    exact fun x hx => sizeClassLookUp_out hx

end Apfmalloc
