import Mathlib.Algebra.Ring.Nat

/-!
# Sums over lists, tables and loops that fill them

`sumOf f l` is the sum of `f` over `l`; its lemmas turn an equation that holds for
every element into one of the sums. A vector is a list whose reads and writes are
checked (`vget`, `vset`, `vadd`; `none` is a panic), and `tab n F` is the vector with
`F j` at `j`. Two loops fill tables: one that adds a value at a key for every element
of a list (`vadd_tally`), and one that computes an entry from the one before it
(`fillTo`, the vector that is filled up to an index and zero beyond).
-/

namespace Apfmalloc.Base

variable {α β : Type}

/-! ## Sums -/

def sumOf (f : α → Nat) (l : List α) : Nat := (l.map f).sum

section Sums

variable (f g : α → Nat) (l l' : List α) (a : α)

@[simp] theorem sumOf_nil : sumOf f [] = 0 := rfl

@[simp] theorem sumOf_cons : sumOf f (a :: l) = f a + sumOf f l := by
  rw [sumOf, List.map_cons, List.sum_cons, sumOf]

@[simp] theorem sumOf_append : sumOf f (l ++ l') = sumOf f l + sumOf f l' := by
  induction l with
  | nil => rw [List.nil_append, sumOf_nil, Nat.zero_add]
  | cons a l ih => rw [List.cons_append, sumOf_cons, sumOf_cons, ih, Nat.add_assoc]

theorem sumOf_add : sumOf (fun a => f a + g a) l = sumOf f l + sumOf g l := by
  induction l with
  | nil => rfl
  | cons a l ih =>
    rw [sumOf_cons, sumOf_cons, sumOf_cons, ih]
    omega

theorem sumOf_mul (k : Nat) : sumOf (fun a => k * f a) l = k * sumOf f l := by
  induction l with
  | nil => rfl
  | cons a l ih => rw [sumOf_cons, sumOf_cons, ih, Nat.mul_add]

theorem sumOf_const (k : Nat) : sumOf (fun _ : α => k) l = l.length * k := by
  induction l with
  | nil => rw [sumOf_nil, List.length_nil, Nat.zero_mul]
  | cons a l ih => rw [sumOf_cons, ih, List.length_cons, Nat.succ_mul, Nat.add_comm]

theorem sumOf_map (g : β → α) (l : List β) : sumOf f (l.map g) = sumOf (fun b => f (g b)) l := by
  rw [sumOf, List.map_map]
  rfl

theorem sumOf_filter (p : α → Bool) :
    sumOf f (l.filter p) = sumOf (fun a => if p a then f a else 0) l := by
  induction l with
  | nil => rfl
  | cons a l ih =>
    rw [List.filter_cons, sumOf_cons]
    by_cases h : p a = true
    · rw [if_pos h, if_pos h, sumOf_cons, ih]
    · rw [if_neg h, if_neg h, ih, Nat.zero_add]

variable {f g l}

theorem sumOf_congr (h : ∀ a ∈ l, f a = g a) : sumOf f l = sumOf g l :=
  congrArg List.sum (List.map_congr_left h)

/-- Counting two cases that exclude each other. -/
theorem sumOf_if_or {p q r : α → Prop} [DecidablePred p] [DecidablePred q] [DecidablePred r]
    (h : ∀ a ∈ l, (p a ↔ q a ∨ r a) ∧ ¬(q a ∧ r a)) :
    sumOf (fun a => if p a then 1 else 0) l =
      sumOf (fun a => if q a then 1 else 0) l + sumOf (fun a => if r a then 1 else 0) l := by
  rw [← sumOf_add]
  refine sumOf_congr fun a ha => ?_
  obtain ⟨hiff, hnot⟩ := h a ha
  by_cases hq : q a
  · rw [if_pos (hiff.mpr (Or.inl hq)), if_pos hq, if_neg fun hr => hnot ⟨hq, hr⟩]
  · rw [if_neg hq, Nat.zero_add]
    simp only [hiff, hq, false_or]

theorem sumOf_le (h : ∀ a ∈ l, f a ≤ g a) : sumOf f l ≤ sumOf g l := by
  induction l with
  | nil => exact Nat.le_refl _
  | cons a l ih =>
    rw [sumOf_cons, sumOf_cons]
    exact Nat.add_le_add (h a (List.mem_cons_self ..))
      (ih fun b hb => h b (List.mem_cons_of_mem _ hb))

theorem le_sumOf {a : α} (h : a ∈ l) : f a ≤ sumOf f l := by
  induction l with
  | nil => cases h
  | cons b l ih =>
    rw [sumOf_cons]
    rcases List.mem_cons.mp h with rfl | h
    · exact Nat.le_add_right _ _
    · exact Nat.le_trans (ih h) (Nat.le_add_left _ _)

theorem add_le_sumOf {a b : α} (ha : a ∈ l) (hb : b ∈ l) (hne : a ≠ b) :
    f a + f b ≤ sumOf f l := by
  induction l with
  | nil => cases ha
  | cons c l ih =>
    rw [sumOf_cons]
    rcases List.mem_cons.mp ha with rfl | ha' <;> rcases List.mem_cons.mp hb with rfl | hb'
    · exact absurd rfl hne
    · have := le_sumOf (f := f) hb'
      omega
    · have := le_sumOf (f := f) ha'
      omega
    · have := ih ha' hb'
      omega

theorem sumOf_eq_zero (h : ∀ a ∈ l, f a = 0) : sumOf f l = 0 := by
  rw [sumOf_congr h, sumOf_const, Nat.mul_zero]

/-- Elementwise differences that do not underflow add up. -/
theorem sumOf_sub (h : ∀ a ∈ l, g a ≤ f a) :
    sumOf (fun a => f a - g a) l = sumOf f l - sumOf g l := by
  have hsum : sumOf (fun a => f a - g a + g a) l = sumOf f l :=
    sumOf_congr fun a ha => Nat.sub_add_cancel (h a ha)
  rw [sumOf_add] at hsum
  omega

/-- The order of two sums does not matter. -/
theorem sumOf_comm (f : α → β → Nat) (l : List α) (m : List β) :
    sumOf (fun a => sumOf (f a) m) l = sumOf (fun b => sumOf (fun a => f a b) l) m := by
  induction l with
  | nil => exact (sumOf_eq_zero fun _ _ => rfl).symm
  | cons a l ih =>
    rw [sumOf_cons, ih, ← sumOf_add]
    exact sumOf_congr fun b _ => (sumOf_cons (fun a => f a b) l a).symm

/-- Counting is a sum of ones. -/
theorem countP_eq_sumOf (p : α → Bool) (l : List α) :
    l.countP p = sumOf (fun a => if p a then 1 else 0) l := by
  induction l with
  | nil => rfl
  | cons a l ih => rw [List.countP_cons, sumOf_cons, ih, Nat.add_comm]

end Sums

/-- How many numbers below `m` lie between `lo` and `hi`. -/
theorem sumOf_range_between (lo hi m : Nat) :
    sumOf (fun w => if lo ≤ w ∧ w ≤ hi then 1 else 0) (List.range m) = min m (hi + 1) - lo := by
  induction m with
  | zero => rw [List.range_zero, sumOf_nil, Nat.zero_min, Nat.zero_sub]
  | succ m ih =>
    rw [List.range_succ, sumOf_append, ih, sumOf_cons, sumOf_nil]
    split <;> omega

/-- What at most one element satisfies is counted once or not at all. -/
theorem sumOf_unique {p : α → Prop} [DecidablePred p] {l : List α} (hnd : l.Nodup)
    (h : ∀ a ∈ l, ∀ b ∈ l, p a → p b → a = b) :
    sumOf (fun a => if p a then 1 else 0) l = if ∃ a ∈ l, p a then 1 else 0 := by
  induction l with
  | nil => simp
  | cons a l ih =>
    obtain ⟨ha, hnd⟩ := List.nodup_cons.mp hnd
    rw [sumOf_cons, ih hnd fun b hb c hc => h b (List.mem_cons_of_mem _ hb) c
      (List.mem_cons_of_mem _ hc)]
    by_cases hp : p a
    · have hno : ¬∃ b ∈ l, p b := by
        intro ⟨b, hb, hpb⟩
        have := h a (List.mem_cons_self ..) b (List.mem_cons_of_mem _ hb) hp hpb
        exact ha (this ▸ hb)
      rw [if_pos hp, if_neg hno, if_pos ⟨a, List.mem_cons_self .., hp⟩]
    · simp [hp]

/-- Values that increase along a list: at most one for each number between. -/
theorem countP_between {f : α → Nat} {l : List α} (h : l.Pairwise fun a b => f a < f b) :
    ∀ lo hi, l.countP (fun a => lo ≤ f a ∧ f a < hi) ≤ hi - lo := by
  induction l with
  | nil => intro lo hi; exact Nat.zero_le _
  | cons a l ih =>
    intro lo hi
    obtain ⟨ha, hl⟩ := List.pairwise_cons.mp h
    rw [List.countP_cons]
    by_cases hin : lo ≤ f a ∧ f a < hi
    · -- everything after `a` lies beyond it
      have hmono := List.countP_mono_left (l := l) (p := fun b => decide (lo ≤ f b ∧ f b < hi))
        (q := fun b => decide (f a + 1 ≤ f b ∧ f b < hi)) fun b hb hp => by
          have := ha b hb
          simp only [decide_eq_true_eq] at hp ⊢
          omega
      have := ih hl (f a + 1) hi
      rw [if_pos (by simpa using hin)]
      omega
    · rw [if_neg (by simpa using hin)]
      exact ih hl lo hi

/-! ## Checked arithmetic and vectors -/

/-- `a - b` of two `usize`. -/
def usub (a b : Nat) : Option Nat := if b ≤ a then some (a - b) else none

theorem usub_eq {a b : Nat} (h : b ≤ a) : usub a b = some (a - b) := if_pos h

def vget (v : List Nat) (i : Nat) : Option Nat := v[i]?

def vset (v : List Nat) (i x : Nat) : Option (List Nat) :=
  if i < v.length then some (v.set i x) else none

/-- `v[i] += x` -/
def vadd (v : List Nat) (i x : Nat) : Option (List Nat) := do
  let y ← vget v i
  vset v i (y + x)

/-- The vector of `n` entries with `F j` at `j`. -/
def tab (n : Nat) (F : Nat → Nat) : List Nat := (List.range n).map F

section Tables

variable {n i : Nat} {F G : Nat → Nat}

theorem replicate_eq_tab (n : Nat) : List.replicate n 0 = tab n fun _ => 0 := by
  rw [tab, List.map_const', List.length_range]

theorem tab_congr (h : ∀ j < n, F j = G j) : tab n F = tab n G :=
  List.map_congr_left fun j hj => h j (List.mem_range.mp hj)

theorem tab_succ (n : Nat) (F : Nat → Nat) : tab (n + 1) F = tab n F ++ [F n] := by
  rw [tab, List.range_succ, List.map_append]
  rfl

/-- A table that is zero from `n` on, with more of its zeros. -/
theorem tab_extend (d : Nat) (h : ∀ j, n ≤ j → F j = 0) :
    tab n F ++ List.replicate d 0 = tab (n + d) F := by
  induction d with
  | zero => exact List.append_nil _
  | succ d ih =>
    rw [List.replicate_succ', ← List.append_assoc, ih, ← Nat.add_assoc, tab_succ,
      h (n + d) (Nat.le_add_right _ _)]

theorem vget_tab (h : i < n) : vget (tab n F) i = some (F i) := by
  rw [vget, tab, List.getElem?_map, List.getElem?_range h]
  rfl

theorem vset_tab (x : Nat) (h : i < n) :
    vset (tab n F) i x = some (tab n fun j => if j = i then x else F j) := by
  rw [vset, if_pos (by rw [tab, List.length_map, List.length_range]; exact h)]
  refine congrArg some (List.ext_getElem? fun j => ?_)
  rw [List.getElem?_set]
  unfold tab
  by_cases hj : j < n
  · rw [List.getElem?_map, List.getElem?_map, List.getElem?_range hj]
    by_cases hij : i = j
    · subst hij
      simp [h]
    · simp [hij, Ne.symm hij]
  · simp only [List.length_map, List.length_range, List.getElem?_map]
    rw [List.getElem?_eq_none (by rw [List.length_range]; omega)]
    by_cases hij : i = j
    · omega
    · simp [hij]

theorem vadd_tab (x : Nat) (h : i < n) :
    vadd (tab n F) i x = some (tab n fun j => if j = i then F j + x else F j) := by
  unfold vadd
  rw [vget_tab h]
  show vset (tab n F) i (F i + x) = _
  rw [vset_tab _ h]
  refine congrArg some (tab_congr fun j _ => ?_)
  by_cases hj : j = i
  · rw [if_pos hj, if_pos hj, hj]
  · rw [if_neg hj, if_neg hj]

/-- `x` at the key of `a`, on top of what is there for `l`. -/
theorem vadd_tally (key val : α → Nat) {a : α} (l : List α) (h : key a < n) :
    vadd (tab n fun j => sumOf (fun b => if key b = j then val b else 0) l) (key a) (val a) =
      some (tab n fun j => sumOf (fun b => if key b = j then val b else 0) (l ++ [a])) := by
  rw [vadd_tab _ h]
  refine congrArg some (tab_congr fun j _ => ?_)
  rw [sumOf_append, sumOf_cons, sumOf_nil, Nat.add_zero]
  by_cases hj : j = key a
  · rw [if_pos hj, if_pos hj.symm]
  · rw [if_neg hj, if_neg (Ne.symm hj), Nat.add_zero]

/-- Filled up to `i`, zero beyond. -/
def fillTo (n i : Nat) (F : Nat → Nat) : List Nat := tab n fun j => if j ≤ i then F j else 0

theorem vset_zero_fillTo (h : 0 < n) : vset (List.replicate n 0) 0 (F 0) = some (fillTo n 0 F) := by
  rw [replicate_eq_tab, vset_tab _ h]
  refine congrArg some (tab_congr fun j _ => ?_)
  by_cases hj : j = 0
  · rw [if_pos hj, if_pos (by omega), hj]
  · rw [if_neg hj, if_neg (by omega)]

theorem vget_fillTo (h : i < n) : vget (fillTo n i F) i = some (F i) := by
  rw [fillTo, vget_tab h, if_pos (Nat.le_refl _)]

theorem vset_fillTo (h : i + 1 < n) :
    vset (fillTo n i F) (i + 1) (F (i + 1)) = some (fillTo n (i + 1) F) := by
  rw [fillTo, vset_tab _ h]
  refine congrArg some (tab_congr fun j _ => ?_)
  by_cases hj : j = i + 1
  · rw [if_pos hj, if_pos (by omega), hj]
  · rw [if_neg hj]
    by_cases hle : j ≤ i
    · rw [if_pos hle, if_pos (by omega)]
    · rw [if_neg hle, if_neg (by omega)]

/-- The whole vector is filled. -/
theorem fillTo_last (h : 0 < n) : fillTo n (n - 1) F = tab n F :=
  tab_congr fun j hj => if_pos (by omega)

/-- `for i in 1..n`: what the state is after entry 0 and what a step makes of it. -/
theorem foldlM_range_fill {σ : Type} {step : σ → Nat → Option σ} {S : Nat → σ}
    (hstep : ∀ i, i + 1 < n → step (S i) (i + 1) = some (S (i + 1))) (h : 0 < n) :
    (List.range' 1 (n - 1)).foldlM step (S 0) = some (S (n - 1)) := by
  have key : ∀ m i, i + m < n → (List.range' (i + 1) m).foldlM step (S i) = some (S (i + m)) := by
    intro m
    induction m with
    | zero => intro i _; rfl
    | succ m ih =>
      intro i hi
      rw [List.range'_succ, List.foldlM_cons, hstep i (by omega)]
      show (List.range' (i + 1 + 1) m).foldlM step (S (i + 1)) = _
      rw [ih (i + 1) (by omega)]
      congr 2
      omega
  rw [key (n - 1) 0 (by omega), Nat.zero_add]

end Tables

theorem mapM_eq_map {f : α → Option β} {g : α → β} {l : List α}
    (h : ∀ a ∈ l, f a = some (g a)) : l.mapM f = some (l.map g) := by
  induction l with
  | nil => rfl
  | cons a l ih =>
    rw [List.mapM_cons, h a (List.mem_cons_self ..),
      ih fun b hb => h b (List.mem_cons_of_mem _ hb)]
    rfl

end Apfmalloc.Base
