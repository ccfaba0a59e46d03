import Apfmalloc.Apf.Trace
import Apfmalloc.Base.Tally

/-!
# `apf/reuse_counter.rs`: the reuse of a burst

`reuse` computes, for every window length `k` at once and in time linear in the trace,
how many free intervals a window of `k` allocations contains on average. It tallies the
intervals by start, end and length, adds the tallies up to prefix tables, and runs three
recurrences over `k` whose values at `k` are sums over the intervals no longer than `k`:

- `x`: `min(n - k, s)`, the last window that can contain the interval;
- `y`: `max(k - 1, e)`, for the first one;
- `z`: `k`.

The numerator `x + z - y` is `numTerm` summed over the intervals. `numTerm` is the number
of windows that contain an interval as long as it starts after the first allocation
(`numTerm_eq_windows`). For the others the code's tables are off: the comment "Cannot end
at index 0" loses the increments of `y` for an interval (0, 0), which then counts `k`
windows instead of one, and any other interval from 0 counts none.

The quotients are `f32` in the source; a value is kept here as numerator and denominator.
The sums are unbounded; index and subtraction are checked, and `none` is a panic.
-/

namespace Apfmalloc

open Base

/-! ## The tables -/

structure IntervalTables where
  startIndexCounts : List Nat
  endIndexCounts : List Nat
  lenCounts : List Nat
  startIndicesSums : List Nat
  startIndicesMinSums : List Nat
  endIndicesSums : List Nat
  endIndicesMaxSums : List Nat

def IntervalTables.zero (n : Nat) : IntervalTables :=
  let v := List.replicate n 0
  ⟨v, v, v, v, v, v, v⟩

/-- The body of the loop over the intervals. -/
def IntervalTables.count (n : Nat) (T : IntervalTables) (interval : Nat × Nat) :
    Option IntervalTables := do
  let diff ← usub interval.2 interval.1
  let len := diff + 1
  let startIndexCounts ← vadd T.startIndexCounts interval.1 1
  let endIndexCounts ← vadd T.endIndexCounts interval.2 1
  let lenCounts ← vadd T.lenCounts (len - 1) 1
  let startIndicesSums ← vadd T.startIndicesSums (len - 1) interval.1
  let last ← usub n len
  let startIndicesMinSums ← vadd T.startIndicesMinSums (len - 1) (min last interval.1)
  let endIndicesSums ← vadd T.endIndicesSums (len - 1) interval.2
  let endIndicesMaxSums ← vadd T.endIndicesMaxSums (len - 1) (max len interval.2)
  some { startIndexCounts, endIndexCounts, lenCounts, startIndicesSums, startIndicesMinSums,
         endIndicesSums, endIndicesMaxSums }

structure PrefixTables where
  startIndexNK : List Nat
  endIndexK1 : List Nat
  lenLK : List Nat

def PrefixTables.first (n : Nat) (T : IntervalTables) : Option PrefixTables := do
  let startIndexNK ← vset (List.replicate n 0) 0 0
  -- "Cannot end at index 0"
  let endIndexK1 ← vset (List.replicate n 0) 0 0
  let lenCount ← vget T.lenCounts 0
  let lenLK ← vset (List.replicate n 0) 0 lenCount
  some { startIndexNK, endIndexK1, lenLK }

def PrefixTables.step (n : Nat) (T : IntervalTables) (P : PrefixTables) (i : Nat) :
    Option PrefixTables := do
  let a ← vget P.startIndexNK (i - 1)
  let acount ← vget T.startIndexCounts (n - i)
  let startIndexNK ← vset P.startIndexNK i (a + acount)
  let b ← vget P.endIndexK1 (i - 1)
  let bcount ← vget T.endIndexCounts i
  let endIndexK1 ← vset P.endIndexK1 i (b + bcount)
  let c ← vget P.lenLK (i - 1)
  let ccount ← vget T.lenCounts i
  let lenLK ← vset P.lenLK i (c + ccount)
  some { startIndexNK, endIndexK1, lenLK }

/-- `X(i)`, `Y(i)` and `Z(i)` at index `i - 1`. -/
structure Recurrences where
  x : List Nat
  y : List Nat
  z : List Nat

def Recurrences.first (n : Nat) (T : IntervalTables) : Option Recurrences := do
  let a ← vget T.startIndicesSums 0
  let x ← vset (List.replicate n 0) 0 a
  let b ← vget T.endIndicesSums 0
  let y ← vset (List.replicate n 0) 0 b
  let c ← vget T.lenCounts 0
  let z ← vset (List.replicate n 0) 0 c
  some { x, y, z }

def Recurrences.step (T : IntervalTables) (P : PrefixTables) (R : Recurrences) (i : Nat) :
    Option Recurrences := do
  let k := i + 1
  let a ← vget R.x (i - 1)
  let amin ← vget T.startIndicesMinSums i
  let asub ← vget P.startIndexNK i
  let a ← usub (a + amin) asub
  let x ← vset R.x i a
  let b ← vget R.y (i - 1)
  let badd ← vget P.endIndexK1 (i - 1)
  let bmax ← vget T.endIndicesMaxSums i
  let y ← vset R.y i (b + badd + bmax)
  let c ← vget R.z (i - 1)
  let cadd ← vget P.lenLK (i - 1)
  let ck ← vget T.lenCounts i
  let z ← vset R.z i (c + cadd + k * ck)
  some { x, y, z }

/-- The entry of the result for `k`: numerator and denominator. -/
def Recurrences.result (n : Nat) (R : Recurrences) (k : Nat) : Option (Nat × Nat × Nat) := do
  let a ← vget R.x (k - 1)
  let c ← vget R.z (k - 1)
  let b ← vget R.y (k - 1)
  let num ← usub (a + c) b
  let den ← usub n k
  some (k, num, den + 1)

/-- The map from `k` to the reuse of windows of length `k`. -/
def reuse (t : Trace) : Option (List (Nat × Nat × Nat)) := do
  let intervals ← t.freeIntervals
  let n := t.allocLength
  let T ← intervals.foldlM (IntervalTables.count n) (IntervalTables.zero n)
  let P ← PrefixTables.first n T
  let P ← (List.range' 1 (n - 1)).foldlM (PrefixTables.step n T) P
  let R ← Recurrences.first n T
  let R ← (List.range' 1 (n - 1)).foldlM (Recurrences.step T P) R
  (List.range' 1 n).mapM (Recurrences.result n R)

/-! ## What the tables hold -/

def ivLen (iv : Nat × Nat) : Nat := iv.2 - iv.1 + 1

/-- An interval of a trace with `n` allocations. -/
def IvIn (n : Nat) (iv : Nat × Nat) : Prop := iv.1 ≤ iv.2 ∧ iv.2 < n

def IntervalTables.of (n : Nat) (l : List (Nat × Nat)) : IntervalTables where
  startIndexCounts := tab n fun j => sumOf (fun iv => if iv.1 = j then 1 else 0) l
  endIndexCounts := tab n fun j => sumOf (fun iv => if iv.2 = j then 1 else 0) l
  lenCounts := tab n fun j => sumOf (fun iv => if ivLen iv - 1 = j then 1 else 0) l
  startIndicesSums := tab n fun j => sumOf (fun iv => if ivLen iv - 1 = j then iv.1 else 0) l
  startIndicesMinSums := tab n fun j =>
    sumOf (fun iv => if ivLen iv - 1 = j then min (n - ivLen iv) iv.1 else 0) l
  endIndicesSums := tab n fun j => sumOf (fun iv => if ivLen iv - 1 = j then iv.2 else 0) l
  endIndicesMaxSums := tab n fun j =>
    sumOf (fun iv => if ivLen iv - 1 = j then max (ivLen iv) iv.2 else 0) l

theorem IntervalTables.zero_eq (n : Nat) : IntervalTables.zero n = IntervalTables.of n [] := by
  unfold IntervalTables.zero IntervalTables.of
  simp only [sumOf_nil, replicate_eq_tab]

theorem IntervalTables.count_of {n : Nat} (l : List (Nat × Nat)) {iv : Nat × Nat}
    (h : IvIn n iv) :
    (IntervalTables.of n l).count n iv = some (IntervalTables.of n (l ++ [iv])) := by
  obtain ⟨hle, hlt⟩ := h
  have hlen : ivLen iv - 1 < n := by unfold ivLen; omega
  have hdiff : usub iv.2 iv.1 = some (iv.2 - iv.1) := usub_eq hle
  have hlast : usub n (ivLen iv) = some (n - ivLen iv) := usub_eq (by unfold ivLen; omega)
  simp only [IntervalTables.count, IntervalTables.of, hdiff, Option.bind_eq_bind, Option.bind_some]
  rw [show iv.2 - iv.1 + 1 = ivLen iv from rfl, hlast]
  rw [vadd_tally (fun iv => iv.1) (fun _ => 1) l (by omega : iv.1 < n),
    vadd_tally (fun iv => iv.2) (fun _ => 1) l hlt,
    vadd_tally (fun iv => ivLen iv - 1) (fun _ => 1) l hlen,
    vadd_tally (fun iv => ivLen iv - 1) (fun iv => iv.1) l hlen,
    vadd_tally (fun iv => ivLen iv - 1) (fun iv => iv.2) l hlen,
    vadd_tally (fun iv => ivLen iv - 1) (fun iv => max (ivLen iv) iv.2) l hlen]
  simp only [Option.bind_some]
  rw [vadd_tally (fun iv => ivLen iv - 1) (fun iv => min (n - ivLen iv) iv.1) l hlen]
  rfl

theorem IntervalTables.foldlM_count {n : Nat} (l' : List (Nat × Nat)) :
    ∀ l, (∀ iv ∈ l', IvIn n iv) →
      l'.foldlM (IntervalTables.count n) (IntervalTables.of n l) =
        some (IntervalTables.of n (l ++ l')) := by
  induction l' with
  | nil => intro l _; rw [List.append_nil]; rfl
  | cons iv l' ih =>
    intro l h
    rw [List.foldlM_cons, IntervalTables.count_of l (h iv (List.mem_cons_self ..))]
    show l'.foldlM (IntervalTables.count n) (IntervalTables.of n (l ++ [iv])) = _
    rw [ih _ fun iv' hiv' => h iv' (List.mem_cons_of_mem _ hiv'), List.append_assoc]
    rfl

/-! ## The prefix tables -/

section Prefixes

variable {n i : Nat} {l : List (Nat × Nat)}

/-- How many intervals start among the last `i` allocations. -/
def startFrom (n : Nat) (l : List (Nat × Nat)) (i : Nat) : Nat :=
  sumOf (fun iv => if n - i ≤ iv.1 then 1 else 0) l

/-- How many end at an allocation up to `i`, the first one apart. -/
def endUpTo (l : List (Nat × Nat)) (i : Nat) : Nat :=
  sumOf (fun iv => if 1 ≤ iv.2 ∧ iv.2 ≤ i then 1 else 0) l

/-- How many have a length up to `i + 1`. -/
def lenUpTo (l : List (Nat × Nat)) (i : Nat) : Nat :=
  sumOf (fun iv => if ivLen iv ≤ i + 1 then 1 else 0) l

def PrefixTables.upTo (n : Nat) (l : List (Nat × Nat)) (i : Nat) : PrefixTables :=
  ⟨fillTo n i (startFrom n l), fillTo n i (endUpTo l), fillTo n i (lenUpTo l)⟩

theorem startFrom_zero (h : ∀ iv ∈ l, IvIn n iv) : startFrom n l 0 = 0 := by
  refine sumOf_eq_zero fun iv hiv => if_neg ?_
  obtain ⟨hle, hlt⟩ := h iv hiv
  omega

theorem startFrom_succ (hi : i + 1 < n) : startFrom n l (i + 1) =
    startFrom n l i + sumOf (fun iv => if iv.1 = n - (i + 1) then 1 else 0) l :=
  sumOf_if_or fun iv _ => by omega

theorem endUpTo_zero : endUpTo l 0 = 0 := by
  refine sumOf_eq_zero fun iv _ => if_neg ?_
  omega

theorem endUpTo_succ : endUpTo l (i + 1) =
    endUpTo l i + sumOf (fun iv => if iv.2 = i + 1 then 1 else 0) l :=
  sumOf_if_or fun iv _ => by omega

theorem lenUpTo_zero :
    lenUpTo l 0 = sumOf (fun iv => if ivLen iv - 1 = 0 then 1 else 0) l := by
  refine sumOf_congr fun iv _ => ?_
  by_cases h : ivLen iv ≤ 1
  · rw [if_pos h, if_pos (by omega)]
  · rw [if_neg h, if_neg (by omega)]

theorem lenUpTo_succ : lenUpTo l (i + 1) =
    lenUpTo l i + sumOf (fun iv => if ivLen iv - 1 = i + 1 then 1 else 0) l :=
  sumOf_if_or fun iv _ => by omega

theorem PrefixTables.first_eq (h : ∀ iv ∈ l, IvIn n iv) (hn : 0 < n) :
    PrefixTables.first n (IntervalTables.of n l) = some (PrefixTables.upTo n l 0) := by
  have hs := vset_zero_fillTo (F := startFrom n l) hn
  have he := vset_zero_fillTo (F := endUpTo l) hn
  have hl := vset_zero_fillTo (F := lenUpTo l) hn
  rw [startFrom_zero h] at hs
  rw [endUpTo_zero] at he
  rw [lenUpTo_zero] at hl
  simp only [PrefixTables.first, PrefixTables.upTo, IntervalTables.of, vget_tab hn,
    Option.bind_eq_bind, Option.bind_some, hs, hl, Option.some.inj (he.symm.trans hs)]

theorem PrefixTables.step_eq (hi : i + 1 < n) :
    (PrefixTables.upTo n l i).step n (IntervalTables.of n l) (i + 1) =
      some (PrefixTables.upTo n l (i + 1)) := by
  have hi' : i < n := by omega
  have hs := vset_fillTo (F := startFrom n l) hi
  have he := vset_fillTo (F := endUpTo l) hi
  have hl := vset_fillTo (F := lenUpTo l) hi
  rw [startFrom_succ hi] at hs
  rw [endUpTo_succ] at he
  rw [lenUpTo_succ] at hl
  simp only [PrefixTables.step, PrefixTables.upTo, IntervalTables.of, Nat.add_sub_cancel,
    vget_fillTo hi', vget_tab hi, vget_tab (show n - (i + 1) < n by omega), Option.bind_eq_bind,
    Option.bind_some, hs, he, hl]

end Prefixes

/-! ## The recurrences -/

/-- What an interval adds to `x`, `y` and `z` at index `i`. -/
def xTerm (n i : Nat) (iv : Nat × Nat) : Nat :=
  if ivLen iv ≤ i + 1 then min (n - (i + 1)) iv.1 else 0

def yTerm (i : Nat) (iv : Nat × Nat) : Nat :=
  if i + 1 < ivLen iv ∨ iv.2 = 0 then 0 else if iv.1 = 0 then i + 1 else max i iv.2

def zTerm (i : Nat) (iv : Nat × Nat) : Nat := if ivLen iv ≤ i + 1 then i + 1 else 0

def Recurrences.upTo (n : Nat) (l : List (Nat × Nat)) (i : Nat) : Recurrences where
  x := fillTo n i fun j => sumOf (xTerm n j) l
  y := fillTo n i fun j => sumOf (yTerm j) l
  z := fillTo n i fun j => sumOf (zTerm j) l

section Recurrences

variable {n i : Nat} {iv : Nat × Nat} {l : List (Nat × Nat)}

theorem xTerm_zero (h : IvIn n iv) : xTerm n 0 iv = if ivLen iv - 1 = 0 then iv.1 else 0 := by
  obtain ⟨hle, hlt⟩ := h
  unfold xTerm
  by_cases hlen : ivLen iv ≤ 1
  · rw [if_pos hlen, if_pos (by omega)]
    omega
  · rw [if_neg hlen, if_neg (by omega)]

/-- An interval that starts among the last `i + 1` allocations is no longer than that. -/
theorem ivLen_of_start (h : IvIn n iv) (hs : n - (i + 1) ≤ iv.1) : ivLen iv ≤ i + 1 := by
  obtain ⟨hle, hlt⟩ := h
  unfold ivLen
  omega

/-- What is subtracted from `x` was there before. -/
theorem xTerm_ge (h : IvIn n iv) (hi : i + 1 < n) :
    (if n - (i + 1) ≤ iv.1 then 1 else 0) ≤
      xTerm n i iv + if ivLen iv - 1 = i + 1 then min (n - ivLen iv) iv.1 else 0 := by
  by_cases hs : n - (i + 1) ≤ iv.1
  · rw [if_pos hs, xTerm, if_pos (ivLen_of_start h hs)]
    omega
  · rw [if_neg hs]
    exact Nat.zero_le _

theorem xTerm_succ (h : IvIn n iv) (hi : i + 1 < n) :
    xTerm n (i + 1) iv = xTerm n i iv +
      (if ivLen iv - 1 = i + 1 then min (n - ivLen iv) iv.1 else 0) -
        if n - (i + 1) ≤ iv.1 then 1 else 0 := by
  unfold xTerm
  by_cases hlen : ivLen iv ≤ i + 1
  · rw [if_pos (by omega), if_pos hlen, if_neg (by omega)]
    split <;> omega
  · -- then it does not start that late
    rw [if_neg hlen, if_neg fun hs => hlen (ivLen_of_start h hs)]
    by_cases heq : ivLen iv - 1 = i + 1
    · rw [if_pos (by omega), if_pos heq, show ivLen iv = i + 1 + 1 by omega, Nat.zero_add, Nat.sub_zero]
    · rw [if_neg (by omega), if_neg heq]

theorem yTerm_out (h : i + 1 < ivLen iv ∨ iv.2 = 0) : yTerm i iv = 0 := if_pos h

theorem yTerm_start (hlen : ivLen iv ≤ i + 1) (he : iv.2 ≠ 0) (hs : iv.1 = 0) :
    yTerm i iv = i + 1 := by
  rw [yTerm, if_neg (by omega), if_pos hs]

theorem yTerm_inner (hlen : ivLen iv ≤ i + 1) (he : iv.2 ≠ 0) (hs : iv.1 ≠ 0) :
    yTerm i iv = max i iv.2 := by
  rw [yTerm, if_neg (by omega), if_neg hs]

theorem yTerm_zero (h : IvIn n iv) : yTerm 0 iv = if ivLen iv - 1 = 0 then iv.2 else 0 := by
  have hle := h.1
  have hdef : ivLen iv = iv.2 - iv.1 + 1 := rfl
  by_cases hlen : ivLen iv ≤ 1
  · rw [if_pos (by omega)]
    by_cases he : iv.2 = 0
    · rw [yTerm_out (Or.inr he), he]
    · rw [yTerm_inner hlen he (by omega), Nat.zero_max]
  · rw [yTerm_out (by omega), if_neg (by omega)]

theorem yTerm_succ (h : IvIn n iv) :
    yTerm (i + 1) iv = yTerm i iv + (if 1 ≤ iv.2 ∧ iv.2 ≤ i then 1 else 0) +
      if ivLen iv - 1 = i + 1 then max (ivLen iv) iv.2 else 0 := by
  have hle := h.1
  have hdef : ivLen iv = iv.2 - iv.1 + 1 := rfl
  by_cases he : iv.2 = 0
  · -- an interval (0, 0) is left out throughout
    rw [yTerm_out (Or.inr he), yTerm_out (Or.inr he), if_neg (by omega), if_neg (by omega)]
  · by_cases hlen : ivLen iv ≤ i + 1
    · rw [if_neg (show ¬ivLen iv - 1 = i + 1 by omega)]
      by_cases hs : iv.1 = 0
      · rw [yTerm_start (by omega) he hs, yTerm_start hlen he hs, if_pos (by omega)]
      · rw [yTerm_inner (by omega) he hs, yTerm_inner hlen he hs]
        split <;> omega
    · rw [yTerm_out (show i + 1 < ivLen iv ∨ _ by omega), if_neg (by omega)]
      by_cases heq : ivLen iv - 1 = i + 1
      · rw [if_pos heq]
        by_cases hs : iv.1 = 0
        · rw [yTerm_start (by omega) he hs]
          omega
        · rw [yTerm_inner (by omega) he hs]
          omega
      · rw [yTerm_out (show i + 1 + 1 < ivLen iv ∨ _ by omega), if_neg heq]

theorem zTerm_zero : zTerm 0 iv = if ivLen iv - 1 = 0 then 1 else 0 := by
  unfold zTerm
  split <;> split <;> omega

theorem zTerm_succ : zTerm (i + 1) iv = zTerm i iv + (if ivLen iv ≤ i + 1 then 1 else 0) +
    (i + 1 + 1) * if ivLen iv - 1 = i + 1 then 1 else 0 := by
  unfold zTerm
  split <;> split <;> split <;> omega

theorem Recurrences.first_eq (h : ∀ iv ∈ l, IvIn n iv) (hn : 0 < n) :
    Recurrences.first n (IntervalTables.of n l) = some (Recurrences.upTo n l 0) := by
  have hx := vset_zero_fillTo (F := fun j => sumOf (xTerm n j) l) hn
  have hy := vset_zero_fillTo (F := fun j => sumOf (yTerm j) l) hn
  have hz := vset_zero_fillTo (F := fun j => sumOf (zTerm j) l) hn
  rw [sumOf_congr fun iv hiv => xTerm_zero (h iv hiv)] at hx
  rw [sumOf_congr fun iv hiv => yTerm_zero (h iv hiv)] at hy
  rw [sumOf_congr fun iv _ => zTerm_zero] at hz
  simp only [Recurrences.first, Recurrences.upTo, IntervalTables.of, vget_tab hn,
    Option.bind_eq_bind, Option.bind_some, hx, hy, hz]

/-- One step of the three recurrences; the subtraction in `x` does not underflow. -/
theorem Recurrences.step_eq (h : ∀ iv ∈ l, IvIn n iv) (hi : i + 1 < n) :
    Recurrences.step (IntervalTables.of n l) (PrefixTables.upTo n l (n - 1))
        (Recurrences.upTo n l i) (i + 1) = some (Recurrences.upTo n l (i + 1)) := by
  have hi' : i < n := by omega
  have hn : 0 < n := by omega
  have hx := vset_fillTo (F := fun j => sumOf (xTerm n j) l) hi
  have hy := vset_fillTo (F := fun j => sumOf (yTerm j) l) hi
  have hz := vset_fillTo (F := fun j => sumOf (zTerm j) l) hi
  have hsub : usub (sumOf (xTerm n i) l +
      sumOf (fun iv => if ivLen iv - 1 = i + 1 then min (n - ivLen iv) iv.1 else 0) l)
      (startFrom n l (i + 1)) = some (sumOf (xTerm n (i + 1)) l) := by
    rw [← sumOf_add, startFrom, usub_eq (sumOf_le fun iv hiv => xTerm_ge (h iv hiv) hi),
      ← sumOf_sub fun iv hiv => xTerm_ge (h iv hiv) hi]
    exact congrArg some (sumOf_congr fun iv hiv => (xTerm_succ (h iv hiv) hi).symm)
  have hysum : sumOf (yTerm (i + 1)) l = sumOf (yTerm i) l + endUpTo l i +
      sumOf (fun iv => if ivLen iv - 1 = i + 1 then max (ivLen iv) iv.2 else 0) l := by
    rw [sumOf_congr fun iv hiv => yTerm_succ (h iv hiv), sumOf_add, sumOf_add, endUpTo]
  have hzsum : sumOf (zTerm (i + 1)) l = sumOf (zTerm i) l + lenUpTo l i +
      (i + 1 + 1) * sumOf (fun iv => if ivLen iv - 1 = i + 1 then 1 else 0) l := by
    rw [sumOf_congr fun iv _ => zTerm_succ, sumOf_add, sumOf_add, sumOf_mul, lenUpTo]
  rw [hysum] at hy
  rw [hzsum] at hz
  simp only [Recurrences.step, Recurrences.upTo, PrefixTables.upTo, IntervalTables.of,
    fillTo_last hn, Nat.add_sub_cancel, vget_fillTo hi', vget_tab hi, vget_tab hi',
    Option.bind_eq_bind, Option.bind_some, hsub, hx, hy, hz]

/-- What an interval adds to the numerator for `k`. -/
def numTerm (n k : Nat) (iv : Nat × Nat) : Nat :=
  xTerm n (k - 1) iv + zTerm (k - 1) iv - yTerm (k - 1) iv

theorem yTerm_le (h : IvIn n iv) (hi : i < n) : yTerm i iv ≤ xTerm n i iv + zTerm i iv := by
  obtain ⟨hle, hlt⟩ := h
  have hdef : ivLen iv = iv.2 - iv.1 + 1 := rfl
  by_cases hout : i + 1 < ivLen iv ∨ iv.2 = 0
  · rw [yTerm_out hout]
    exact Nat.zero_le _
  · rw [xTerm, zTerm, if_pos (by omega), if_pos (by omega)]
    by_cases hs : iv.1 = 0
    · rw [yTerm_start (by omega) (by omega) hs]
      exact Nat.le_add_left _ _
    · rw [yTerm_inner (by omega) (by omega) hs]
      omega

theorem Recurrences.result_eq (h : ∀ iv ∈ l, IvIn n iv) {k : Nat} (hk : 1 ≤ k) (hkn : k ≤ n) :
    (Recurrences.upTo n l (n - 1)).result n k = some (k, sumOf (numTerm n k) l, n - k + 1) := by
  have hk' : k - 1 < n := by omega
  have hn : 0 < n := by omega
  have hsub : usub (sumOf (xTerm n (k - 1)) l + sumOf (zTerm (k - 1)) l)
      (sumOf (yTerm (k - 1)) l) = some (sumOf (numTerm n k) l) := by
    rw [← sumOf_add, usub_eq (sumOf_le fun iv hiv => yTerm_le (h iv hiv) hk'),
      ← sumOf_sub fun iv hiv => yTerm_le (h iv hiv) hk']
    rfl
  simp only [Recurrences.result, Recurrences.upTo, fillTo_last hn, vget_tab hk',
    Option.bind_eq_bind, Option.bind_some, hsub, usub_eq hkn]

end Recurrences

/-! ## What `reuse` computes -/

def reuseOf (n : Nat) (l : List (Nat × Nat)) : List (Nat × Nat × Nat) :=
  (List.range' 1 n).map fun k => (k, sumOf (numTerm n k) l, n - k + 1)

theorem intervals_in (l : List Event) : ∀ iv ∈ intervals l, IvIn (allocs l) iv := by
  intro iv hiv
  have := intervalsFrom_bounds 0 l (FreesIn.nil 0 0) (Nat.le_refl _) iv hiv
  exact ⟨this.2.1, by omega⟩

/-- **The code's value**: no index is out of bounds, no subtraction underflows, and the
numerator for `k` is `numTerm` summed over the intervals. -/
theorem Trace.Records.reuse {t : Trace} {l : List Event} (h : t.Records l) (hn : 0 < allocs l) :
    reuse t = some (reuseOf (allocs l) (intervals l)) := by
  have hin := intervals_in l
  have hcount := IntervalTables.foldlM_count (intervals l) [] hin
  rw [← IntervalTables.zero_eq, List.nil_append] at hcount
  have hprefix := foldlM_range_fill (S := PrefixTables.upTo (allocs l) (intervals l))
    (fun i hi => PrefixTables.step_eq hi) hn
  have hrec := foldlM_range_fill (S := Recurrences.upTo (allocs l) (intervals l))
    (fun i hi => Recurrences.step_eq hin hi) hn
  have hres := mapM_eq_map (l := List.range' 1 (allocs l)) fun k hk =>
    Recurrences.result_eq hin (List.mem_range'_1.mp hk).1 (by have := List.mem_range'_1.mp hk; omega)
  simp only [Apfmalloc.reuse, h.freeIntervals, h.allocLength, hcount, PrefixTables.first_eq hin hn,
    hprefix, Recurrences.first_eq hin hn, hrec, hres, Option.bind_eq_bind, Option.bind_some]
  rfl

theorem lookup_reuseOf {n k : Nat} (l : List (Nat × Nat)) (hk : 1 ≤ k) (hkn : k ≤ n) :
    (reuseOf n l).lookup k = some (sumOf (numTerm n k) l, n - k + 1) :=
  lookup_map_pair (fun k => (sumOf (numTerm n k) l, n - k + 1))
    (List.mem_range'_1.mpr ⟨hk, by omega⟩)

/-! ## The windows that contain an interval -/

/-- The pairs of a window of `k` allocations and an interval contained in it. -/
def windowPairs (n k : Nat) (l : List (Nat × Nat)) : Nat :=
  sumOf (fun w => l.countP fun iv => w ≤ iv.1 ∧ iv.2 ≤ w + k - 1) (List.range (n - k + 1))

/-- The windows of `k` allocations that contain the interval. -/
def windowsOf (n k : Nat) (iv : Nat × Nat) : Nat :=
  if ivLen iv ≤ k then min (n - k) iv.1 + k - max (k - 1) iv.2 else 0

theorem windowPairs_eq {n k : Nat} {l : List (Nat × Nat)} (h : ∀ iv ∈ l, IvIn n iv) (hk : 1 ≤ k)
    (hkn : k ≤ n) : windowPairs n k l = sumOf (windowsOf n k) l := by
  unfold windowPairs
  simp only [countP_eq_sumOf]
  rw [sumOf_comm]
  refine sumOf_congr fun iv hiv => ?_
  obtain ⟨hle, hlt⟩ := h iv hiv
  have hbetween := sumOf_range_between (iv.2 + 1 - k) iv.1 (n - k + 1)
  rw [sumOf_congr fun w _ => ?_, hbetween]
  · unfold windowsOf ivLen
    split <;> omega
  · congr 1
    simp only [decide_eq_true_eq, eq_iff_iff]
    omega

theorem numTerm_long {n k : Nat} {iv : Nat × Nat} (hk : 1 ≤ k) (h : k < ivLen iv) :
    numTerm n k iv = 0 := by
  rw [numTerm, xTerm, zTerm, if_neg (by omega), if_neg (by omega), Nat.zero_add, Nat.zero_sub]

/-- **An interval that starts after the first allocation** adds to the numerator the number
of windows that contain it. -/
theorem numTerm_eq_windows {n k : Nat} {iv : Nat × Nat} (hk : 1 ≤ k) (hstart : 1 ≤ iv.1)
    (h : iv.1 ≤ iv.2) : numTerm n k iv = windowsOf n k iv := by
  unfold windowsOf
  by_cases hlen : ivLen iv ≤ k
  · rw [if_pos hlen, numTerm, xTerm, zTerm, yTerm_inner (by omega) (by omega) (by omega),
      if_pos (by omega), if_pos (by omega), show k - 1 + 1 = k by omega]
  · rw [if_neg hlen, numTerm_long hk (by omega)]

/-- A trace that opens with an allocation has no interval from clock 0. -/
theorem intervals_start_pos (a : Nat) (l : List Event) :
    ∀ iv ∈ intervals (.alloc a :: l), 1 ≤ iv.1 := by
  intro iv hiv
  exact (intervalsFrom_bounds 1 l (FreesIn.nil 1 1) (Nat.le_refl _) iv hiv).1

section Bound

variable {n k : Nat} {iv : Nat × Nat} {l : List (Nat × Nat)}

theorem numTerm_first (n : Nat) (hk : 1 ≤ k) : numTerm n k (0, 0) = k := by
  have hlen : ivLen (0, 0) ≤ k - 1 + 1 := by
    show 1 ≤ k - 1 + 1
    omega
  rw [numTerm, xTerm, zTerm, if_pos hlen, if_pos hlen, yTerm_out (Or.inr rfl), Nat.min_zero]
  omega

theorem numTerm_start (hk : 1 ≤ k) (hs : iv.1 = 0) (he : iv.2 ≠ 0) : numTerm n k iv = 0 := by
  by_cases hlen : ivLen iv ≤ k
  · rw [numTerm, xTerm, zTerm, if_pos (by omega), if_pos (by omega), yTerm_start (by omega) he hs,
      hs, Nat.min_zero]
    omega
  · exact numTerm_long hk (by omega)

/-- Only an interval that ends at clock 0 counts more windows than contain it. -/
theorem numTerm_le_windows (hk : 1 ≤ k) (h : iv.1 ≤ iv.2) (he : iv.2 ≠ 0) :
    numTerm n k iv ≤ windowsOf n k iv := by
  by_cases hs : iv.1 = 0
  · rw [numTerm_start hk hs he]
    exact Nat.zero_le _
  · exact Nat.le_of_eq (numTerm_eq_windows hk (by omega) h)

/-- The one window of all allocations contains every interval. -/
theorem numTerm_whole (h : IvIn n iv) (hs : 1 ≤ iv.1) : numTerm n n iv = 1 := by
  obtain ⟨hle, hlt⟩ := h
  rw [numTerm_eq_windows (by omega) hs hle, windowsOf, if_pos (by unfold ivLen; omega)]
  omega

/-- A window of `k` allocations ends at most `k` intervals. -/
theorem windowPairs_le (hsorted : l.Pairwise fun iv iv' => iv.2 < iv'.2)
    (hle : ∀ iv ∈ l, iv.1 ≤ iv.2) (hk : 1 ≤ k) : windowPairs n k l ≤ k * (n - k + 1) := by
  have hwindow : ∀ w, l.countP (fun iv => w ≤ iv.1 ∧ iv.2 ≤ w + k - 1) ≤ k := by
    intro w
    have hb := countP_between (f := Prod.snd) hsorted w (w + k)
    have hmono := List.countP_mono_left (l := l)
      (p := fun iv => decide (w ≤ iv.1 ∧ iv.2 ≤ w + k - 1))
      (q := fun iv => decide (w ≤ iv.2 ∧ iv.2 < w + k)) fun iv hiv hp => by
        have := hle iv hiv
        simp only [decide_eq_true_eq] at hp ⊢
        omega
    omega
  have hsum := sumOf_le (l := List.range (n - k + 1)) fun w _ => hwindow w
  rw [sumOf_const, List.length_range, Nat.mul_comm] at hsum
  exact hsum

/-- The first allocation ends an interval, and an interval starts after it. -/
def CountsTwice (l : List (Nat × Nat)) : Prop := (0, 0) ∈ l ∧ ∃ iv ∈ l, 1 ≤ iv.1

theorem sumOf_numTerm_le (hsorted : l.Pairwise fun iv iv' => iv.2 < iv'.2)
    (hin : ∀ iv ∈ l, IvIn n iv) (hk : 1 ≤ k) (hkn : k ≤ n) (h : ¬CountsTwice l) :
    sumOf (numTerm n k) l ≤ k * (n - k + 1) := by
  by_cases hfirst : (0, 0) ∈ l
  · -- then no interval starts later, and only (0, 0) counts at all
    have hstart : ∀ iv ∈ l, iv.1 = 0 := fun iv hiv =>
      Decidable.byContradiction fun hne => h ⟨hfirst, iv, hiv, by omega⟩
    have hterm : ∀ iv ∈ l, numTerm n k iv = k * (if 0 ≤ iv.2 ∧ iv.2 < 1 then 1 else 0) := by
      intro iv hiv
      by_cases he : iv.2 = 0
      · rw [if_pos (by omega), Nat.mul_one, show iv = (0, 0) from Prod.ext (hstart iv hiv) he,
          numTerm_first n hk]
      · rw [numTerm_start hk (hstart iv hiv) he, if_neg (by omega), Nat.mul_zero]
    have hone := countP_between (f := Prod.snd) hsorted 0 1
    rw [countP_eq_sumOf] at hone
    simp only [decide_eq_true_eq] at hone
    rw [sumOf_congr hterm, sumOf_mul]
    exact Nat.mul_le_mul_left k (by omega)
  · have hne : ∀ iv ∈ l, iv.2 ≠ 0 := fun iv hiv he => by
      have := (hin iv hiv).1
      exact hfirst ((Prod.ext (by omega) he : iv = (0, 0)) ▸ hiv)
    refine Nat.le_trans ?_ (windowPairs_le hsorted (fun iv hiv => (hin iv hiv).1) hk)
    rw [windowPairs_eq hin hk hkn]
    exact sumOf_le fun iv hiv => numTerm_le_windows hk (hin iv hiv).1 (hne iv hiv)

theorem lt_sumOf_numTerm (hin : ∀ iv ∈ l, IvIn n iv) (hn : 1 ≤ n) (h : CountsTwice l) :
    n < sumOf (numTerm n n) l := by
  obtain ⟨hfirst, iv, hiv, hs⟩ := h
  have hne : (0, 0) ≠ iv := fun he => by rw [← he] at hs; omega
  have h1 := numTerm_first n hn
  have h2 := numTerm_whole (hin iv hiv) hs
  have := add_le_sumOf (f := numTerm n n) hfirst hiv hne
  omega

end Bound

/-! ## The condition on the events -/

/-- The frees before the first allocation. -/
def leadingFrees (l : List Event) : List Event := l.takeWhile fun e => !e.isAlloc

def afterLeading (l : List Event) : List Event := l.dropWhile fun e => !e.isAlloc

/-- The slot of the first allocation was freed before it. -/
def OpensWithReuse (l : List Event) : Prop :=
  ∃ a, (afterLeading l).head? = some (.alloc a) ∧ .free a ∈ leadingFrees l

/-- A slot freed after the first allocation is allocated again. -/
def ReusesLater (l : List Event) : Prop :=
  ∃ p, [Event.free p, .alloc p].Sublist (afterLeading l)

theorem freed_then_allocated {e : Event} {l : List Event} {p : Nat} :
    [Event.free p, .alloc p].Sublist (e :: l) ↔
      [Event.free p, .alloc p].Sublist l ∨ e = .free p ∧ .alloc p ∈ l := by
  rw [List.sublist_cons_iff]
  refine or_congr Iff.rfl ⟨?_, ?_⟩
  · intro ⟨r, hr, hsub⟩
    simp only [List.cons.injEq] at hr
    obtain ⟨rfl, rfl⟩ := hr
    exact ⟨rfl, List.singleton_sublist.mp hsub⟩
  · intro ⟨he, hmem⟩
    exact ⟨_, by rw [he], List.singleton_sublist.mpr hmem⟩

theorem lookup_insertKey_ne_none {frees : List (Nat × Nat)} {p q clock : Nat} :
    (insertKey p clock frees).lookup q ≠ none ↔ q = p ∨ frees.lookup q ≠ none := by
  rw [lookup_insertKey]
  by_cases hq : q = p <;> simp [hq]

/-- The first allocation ends an interval if a free of its slot is on record. -/
theorem first_mem_intervalsFrom (l : List Event) : ∀ {frees : List (Nat × Nat)},
    FreesIn 0 0 frees → ((0, 0) ∈ intervalsFrom frees 0 l ↔
      ∃ a, (afterLeading l).head? = some (.alloc a) ∧
        (frees.lookup a ≠ none ∨ .free a ∈ leadingFrees l)) := by
  induction l with
  | nil =>
    intro frees _
    refine iff_of_false (fun h => by cases h) fun h => ?_
    obtain ⟨a, ha, -⟩ := h
    cases ha
  | cons e l ih =>
    intro frees hf
    cases e with
    | free p =>
      rw [intervalsFrom, ih (hf.insert (Nat.le_refl _) p)]
      refine exists_congr fun a => and_congr Iff.rfl ?_
      rw [lookup_insertKey_ne_none, show leadingFrees (.free p :: l) = .free p :: leadingFrees l
        from rfl, List.mem_cons, Event.free.injEq, or_assoc, or_left_comm]
    | alloc a =>
      have hhead : (afterLeading (.alloc a :: l)).head? = some (.alloc a) := rfl
      have hlater : (0, 0) ∉ intervalsFrom frees (0 + 1) l := fun h => by
        have := (intervalsFrom_bounds 0 l hf.tick (Nat.zero_le _) _ h).2.2.1
        omega
      rw [intervalsFrom]
      cases hs : frees.lookup a with
      | none =>
        refine iff_of_false hlater fun h => ?_
        obtain ⟨a', ha', h⟩ := h
        rw [hhead] at ha'
        cases ha'
        exact h.elim (fun h => h hs) fun h => by cases h
      | some s =>
        obtain rfl : s = 0 := by
          have := (hf a s hs).2
          omega
        exact iff_of_true (List.mem_cons_self ..)
          ⟨a, hhead, Or.inl (by rw [hs]; exact Option.some_ne_none 0)⟩

theorem first_mem_intervals (l : List Event) : (0, 0) ∈ intervals l ↔ OpensWithReuse l := by
  rw [intervals, first_mem_intervalsFrom l (FreesIn.nil 0 0)]
  refine exists_congr fun a => and_congr Iff.rfl ?_
  exact or_iff_right fun h => h rfl

/-- A free made after the first allocation is on record for a slot that `l` allocates. -/
def LateFree (frees : List (Nat × Nat)) (l : List Event) : Prop :=
  ∃ p s, frees.lookup p = some s ∧ 1 ≤ s ∧ .alloc p ∈ l

section Late

variable {frees : List (Nat × Nat)} {clock q : Nat} {l : List Event}

theorem lateFree_insert (hc : 1 ≤ clock) :
    LateFree (insertKey q clock frees) l ↔ LateFree frees l ∨ .alloc q ∈ l := by
  constructor
  · intro ⟨p, s, hp, hs, hmem⟩
    rw [lookup_insertKey] at hp
    by_cases hpq : p = q
    · exact Or.inr (hpq ▸ hmem)
    · rw [if_neg (by simpa using hpq)] at hp
      exact Or.inl ⟨p, s, hp, hs, hmem⟩
  · intro h
    by_cases hq : Event.alloc q ∈ l
    · exact ⟨q, clock, by rw [lookup_insertKey, if_pos (by simp)], hc, hq⟩
    · obtain ⟨p, s, hp, hs, hmem⟩ := h.resolve_right hq
      have hpq : p ≠ q := fun he => hq (he ▸ hmem)
      exact ⟨p, s, by rw [lookup_insertKey, if_neg (by simpa using hpq)]; exact hp, hs, hmem⟩

theorem lateFree_cons_free : LateFree frees (.free q :: l) ↔ LateFree frees l := by
  simp [LateFree]

theorem lateFree_cons_alloc : LateFree frees (.alloc q :: l) ↔
    (∃ s, frees.lookup q = some s ∧ 1 ≤ s) ∨ LateFree frees l := by
  constructor
  · intro ⟨p, s, hp, hs, hmem⟩
    rcases List.mem_cons.mp hmem with he | hmem
    · cases he
      exact Or.inl ⟨s, hp, hs⟩
    · exact Or.inr ⟨p, s, hp, hs, hmem⟩
  · intro h
    rcases h with ⟨s, hq, hs⟩ | ⟨p, s, hp, hs, hmem⟩
    · exact ⟨q, s, hq, hs, List.mem_cons_self ..⟩
    · exact ⟨p, s, hp, hs, List.mem_cons_of_mem _ hmem⟩

theorem reused_cons_free : (∃ p, [Event.free p, .alloc p].Sublist (.free q :: l)) ↔
    (∃ p, [Event.free p, .alloc p].Sublist l) ∨ .alloc q ∈ l := by
  constructor
  · intro ⟨p, hp⟩
    rcases freed_then_allocated.mp hp with hp | ⟨he, hmem⟩
    · exact Or.inl ⟨p, hp⟩
    · cases he
      exact Or.inr hmem
  · intro h
    rcases h with ⟨p, hp⟩ | hmem
    · exact ⟨p, freed_then_allocated.mpr (Or.inl hp)⟩
    · exact ⟨q, freed_then_allocated.mpr (Or.inr ⟨rfl, hmem⟩)⟩

theorem reused_cons_alloc : (∃ p, [Event.free p, .alloc p].Sublist (.alloc q :: l)) ↔
    ∃ p, [Event.free p, .alloc p].Sublist l :=
  exists_congr fun _ => freed_then_allocated.trans (or_iff_left fun h => by cases h.1)

end Late

/-- The intervals that an allocation adds to those after it. -/
theorem exists_intervalsFrom_alloc {frees : List (Nat × Nat)} {clock q : Nat} {l : List Event} :
    (∃ iv ∈ intervalsFrom frees clock (.alloc q :: l), 1 ≤ iv.1) ↔
      (∃ s, frees.lookup q = some s ∧ 1 ≤ s) ∨
        ∃ iv ∈ intervalsFrom frees (clock + 1) l, 1 ≤ iv.1 := by
  rw [intervalsFrom]
  cases hq : frees.lookup q with
  | none =>
    refine (or_iff_right fun h => ?_).symm
    obtain ⟨s, hs, -⟩ := h
    cases hs
  | some s => simp

/-- Past the first allocation an interval starts late if its free was, or is yet to come. -/
theorem late_mem_intervalsFrom (l : List Event) : ∀ {frees : List (Nat × Nat)} {clock : Nat},
    1 ≤ clock → ((∃ iv ∈ intervalsFrom frees clock l, 1 ≤ iv.1) ↔
      LateFree frees l ∨ ∃ p, [Event.free p, .alloc p].Sublist l) := by
  induction l with
  | nil => intro frees clock _; simp [intervalsFrom, LateFree]
  | cons e l ih =>
    intro frees clock hc
    cases e with
    | free q =>
      rw [intervalsFrom, ih hc, lateFree_insert hc, lateFree_cons_free, reused_cons_free, or_assoc,
        or_comm (a := Event.alloc q ∈ l)]
    | alloc q =>
      rw [exists_intervalsFrom_alloc, ih (by omega), lateFree_cons_alloc, reused_cons_alloc,
        or_assoc]

theorem late_mem_intervals (l : List Event) :
    (∃ iv ∈ intervals l, 1 ≤ iv.1) ↔ ReusesLater l := by
  have key : ∀ (l : List Event) {frees : List (Nat × Nat)}, FreesIn 0 0 frees →
      ((∃ iv ∈ intervalsFrom frees 0 l, 1 ≤ iv.1) ↔ ReusesLater l) := by
    intro l
    induction l with
    | nil => intro frees _; simp [intervalsFrom, ReusesLater, afterLeading]
    | cons e l ih =>
      intro frees hf
      cases e with
      | free q =>
        rw [intervalsFrom, ih (hf.insert (Nat.le_refl _) q)]
        rfl
      | alloc q =>
        -- the frees on record were all made at clock 0
        have hearly : ∀ {p s}, frees.lookup p = some s → ¬1 ≤ s := fun hp hs => by
          have := (hf _ _ hp).2
          omega
        rw [exists_intervalsFrom_alloc, late_mem_intervalsFrom l (Nat.le_refl _)]
        show _ ↔ ∃ p, [Event.free p, .alloc p].Sublist (.alloc q :: l)
        rw [reused_cons_alloc, or_iff_right, or_iff_right]
        · rintro ⟨p, s, hp, hs, -⟩
          exact hearly hp hs
        · rintro ⟨s, hp, hs⟩
          exact hearly hp hs
  exact key l (FreesIn.nil 0 0)

theorem countsTwice_iff (l : List Event) :
    CountsTwice (intervals l) ↔ OpensWithReuse l ∧ ReusesLater l :=
  and_congr (first_mem_intervals l) (late_mem_intervals l)

end Apfmalloc
