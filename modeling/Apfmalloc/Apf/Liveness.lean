import Apfmalloc.Apf.Trace
import Apfmalloc.Base.Tally

/-!
# `apf/histogram.rs` and `apf/liveness_counter.rs`

A `Histogram` is a vector that grows by doubling when a key comes within one of its end.
A `LivenessCounter` keeps four of them, the number and the sum of the times of the
allocations and of the frees, and carries each forward at every tick, so that entry `t`
speaks of the time up to `t`. `liveness k` turns them into the average number of objects
alive in a window of `k` ticks.

The counter never sees which object a free belongs to. `liveness_counts_windows` says that
it does not matter: for every way to match the frees to earlier allocations the numerator
is the number of pairs of a window and an object alive in it. Summed over the windows
`w = 1, …, n - k + 1`, the objects alive in window `w` are the allocations up to
`w + k - 1` less the frees before `w`.

A key out of bounds or a subtraction that underflows is `none`; the sums are unbounded.
-/

namespace Apfmalloc

open Base

/-! ## Histograms -/

def initHistogramLength : Nat := 1 <<< 5

structure Histogram where
  histogram : List Nat
  maxKey : Nat

/-- `while output <= failed_key { output *= 2; }` -/
def growMax (failedKey : Nat) : Nat → Nat → Option Nat
  | 0, _ => none
  | fuel + 1, output => if output ≤ failedKey then growMax failedKey fuel (output * 2) else some output

namespace Histogram

/-- The page is overwritten with zeros. -/
def new (mem : Buffers Nat) : Histogram :=
  ⟨(mem.allocate initHistogramLength).map fun _ => 0, initHistogramLength⟩

def grow (mem : Buffers Nat) (failedKey : Nat) (h : Histogram) : Option Histogram := do
  let newMax ← growMax failedKey (failedKey + 1) (h.maxKey * 2)
  let page := mem.realloc h.histogram newMax
  -- `for i in self.max_key..new_max { histogram[i] = 0; }`
  some ⟨page.take h.maxKey ++ List.replicate (newMax - h.maxKey) 0, newMax⟩

/-- The test both `add` and `increment` start with. -/
def room (mem : Buffers Nat) (key : Nat) (h : Histogram) : Option Histogram :=
  if key ≥ h.maxKey - 1 then h.grow mem key else some h

def add (mem : Buffers Nat) (key val : Nat) (h : Histogram) : Option Histogram := do
  let h ← h.room mem key
  let histogram ← vadd h.histogram key val
  some { h with histogram }

def increment (mem : Buffers Nat) (key : Nat) (h : Histogram) : Option Histogram := h.add mem key 1

def get (h : Histogram) (key : Nat) : Option Nat :=
  if key ≥ h.maxKey then some 0 else vget h.histogram key

end Histogram

/-- The histogram holds `F`, which is zero where there are no entries. -/
structure Histogram.Is (h : Histogram) (F : Nat → Nat) : Prop where
  entries : h.histogram = tab h.maxKey F
  beyond : ∀ j, h.maxKey ≤ j → F j = 0
  pos : 0 < h.maxKey

theorem growMax_spec (failedKey fuel : Nat) : ∀ output, 0 < output → failedKey < output + fuel →
    ∃ m, growMax failedKey (fuel + 1) output = some m ∧ output ≤ m ∧ failedKey < m := by
  induction fuel with
  | zero =>
    intro output _ hlt
    exact ⟨output, if_neg (by omega), Nat.le_refl _, hlt⟩
  | succ fuel ih =>
    intro output hpos hlt
    rw [growMax]
    by_cases hle : output ≤ failedKey
    · obtain ⟨m, hm, hge, hkey⟩ := ih (output * 2) (by omega) (by omega)
      exact ⟨m, by rw [if_pos hle, hm], by omega, hkey⟩
    · exact ⟨output, if_neg hle, Nat.le_refl _, by omega⟩

section Histograms

variable {mem : Buffers Nat} {h : Histogram} {F G : Nat → Nat} {key : Nat}

theorem Histogram.Is.congr (hF : h.Is F) (hG : ∀ j, F j = G j) : h.Is G :=
  (funext hG : F = G) ▸ hF

theorem Histogram.is_new (mem : Buffers Nat) : (Histogram.new mem).Is fun _ => 0 where
  entries := by
    show (mem.allocate initHistogramLength).map (fun _ => 0) = _
    rw [List.map_const', mem.allocate_length, replicate_eq_tab]
    rfl
  beyond _ _ := rfl
  pos := Nat.two_pow_pos 5

theorem Histogram.Is.get (hF : h.Is F) (key : Nat) : h.get key = some (F key) := by
  unfold Histogram.get
  by_cases hk : key ≥ h.maxKey
  · rw [if_pos hk, hF.beyond key hk]
  · rw [if_neg hk, hF.entries, vget_tab (by omega)]

/-- Growing makes room for the key and keeps the contents. -/
theorem Histogram.Is.grow (hF : h.Is F) (mem : Buffers Nat) (key : Nat) :
    ∃ h', h.grow mem key = some h' ∧ h'.Is F ∧ key < h'.maxKey := by
  have hpos := hF.pos
  obtain ⟨m, hm, hle, hlt⟩ := growMax_spec key key (h.maxKey * 2) (by omega) (by omega)
  have hlen : h.histogram.length = h.maxKey := by
    rw [hF.entries, tab, List.length_map, List.length_range]
  refine ⟨_, by rw [Histogram.grow, hm]; rfl, ⟨?_, fun j hj => ?_, by show 0 < m; omega⟩, hlt⟩
  · show (mem.realloc h.histogram m).take h.maxKey ++ List.replicate (m - h.maxKey) 0 = tab m F
    -- the old entries are copied, the new ones are zero
    have hkeep := mem.realloc_keeps h.histogram m (by omega)
    rw [hlen] at hkeep
    rw [hkeep, hF.entries, tab_extend _ hF.beyond]
    congr 1
    omega
  · exact hF.beyond j (Nat.le_trans (by show h.maxKey ≤ m; omega) hj)

theorem Histogram.Is.add (hF : h.Is F) (mem : Buffers Nat) (key val : Nat) :
    ∃ h', h.add mem key val = some h' ∧ h'.Is fun j => if j = key then F j + val else F j := by
  obtain ⟨h₁, heq, h₁F, hlt⟩ : ∃ h₁, h.room mem key = some h₁ ∧ h₁.Is F ∧ key < h₁.maxKey := by
    unfold Histogram.room
    split
    next => exact hF.grow mem key
    next hlt => exact ⟨h, rfl, hF, by omega⟩
  refine ⟨⟨tab h₁.maxKey fun j => if j = key then F j + val else F j, h₁.maxKey⟩, ?_, rfl,
    fun j hj => ?_, h₁F.pos⟩
  · simp only [Histogram.add, heq, Option.bind_eq_bind, Option.bind_some, h₁F.entries,
      vadd_tab val hlt]
  · show (if j = key then F j + val else F j) = 0
    have hj : h₁.maxKey ≤ j := hj
    rw [if_neg (by omega), h₁F.beyond j hj]

end Histograms

/-! ## The counter -/

structure LivenessCounter where
  n : Nat
  m : Nat
  allocSum : Histogram
  allocCounts : Histogram
  freeSum : Histogram
  freeCounts : Histogram

namespace LivenessCounter

def new (mem : Buffers Nat) : LivenessCounter where
  n := 0
  m := 0
  allocSum := Histogram.new mem
  allocCounts := Histogram.new mem
  freeSum := Histogram.new mem
  freeCounts := Histogram.new mem

def alloc (mem : Buffers Nat) (lc : LivenessCounter) : Option LivenessCounter := do
  let allocSum ← lc.allocSum.add mem lc.n lc.n
  let allocCounts ← lc.allocCounts.increment mem lc.n
  some { lc with allocSum, allocCounts, m := lc.m + 1 }

def free (mem : Buffers Nat) (lc : LivenessCounter) : Option LivenessCounter := do
  let freeSum ← lc.freeSum.add mem lc.n lc.n
  let freeCounts ← lc.freeCounts.increment mem lc.n
  some { lc with freeSum, freeCounts }

/-- `h.add(n, h.get(n - 1))` -/
def carry (mem : Buffers Nat) (n : Nat) (h : Histogram) : Option Histogram := do
  let last ← usub n 1
  let val ← h.get last
  h.add mem n val

def incTimer (mem : Buffers Nat) (lc : LivenessCounter) : Option LivenessCounter := do
  let n := lc.n + 1
  let allocCounts ← carry mem n lc.allocCounts
  let allocSum ← carry mem n lc.allocSum
  let freeCounts ← carry mem n lc.freeCounts
  let freeSum ← carry mem n lc.freeSum
  some { lc with n, allocCounts, allocSum, freeCounts, freeSum }

/-- Numerator and denominator. -/
def liveness (lc : LivenessCounter) (k : Nat) : Option (Nat × Nat) :=
  let i : Int := lc.n - k + 1
  if i < 0 then some (0, 1)
  else do
    let i := i.toNat
    -- the objects not freed by `i`, each for `i` windows
    let left ← usub lc.m (← lc.freeCounts.get i)
    let tmp1 := left * i + (← lc.freeSum.get i)
    let tmp2 ← usub ((← lc.allocCounts.get k) * k + (← lc.allocSum.get lc.n)) (← lc.allocSum.get k)
    let num ← usub (tmp1 + lc.m * k) tmp2
    some (num, i)

end LivenessCounter

inductive LivenessOp
  | alloc
  | free
  | incTimer
  deriving DecidableEq, Repr

def LivenessCounter.op (mem : Buffers Nat) (lc : LivenessCounter) :
    LivenessOp → Option LivenessCounter
  | .alloc => lc.alloc mem
  | .free => lc.free mem
  | .incTimer => lc.incTimer mem

def LivenessCounter.run (mem : Buffers Nat) (ops : List LivenessOp) : Option LivenessCounter :=
  ops.foldlM (LivenessCounter.op mem) (LivenessCounter.new mem)

/-! ## What the histograms hold -/

/-- The timer and the times of the allocations and the frees so far. -/
structure Times where
  n : Nat
  allocs : List Nat
  frees : List Nat

def Times.op (T : Times) : LivenessOp → Times
  | .alloc => { T with allocs := T.allocs ++ [T.n] }
  | .free => { T with frees := T.frees ++ [T.n] }
  | .incTimer => { T with n := T.n + 1 }

def Times.of (ops : List LivenessOp) : Times := ops.foldl Times.op ⟨0, [], []⟩

/-- `g` summed over the times up to `t`. -/
def upTo (g : Nat → Nat) (times : List Nat) (t : Nat) : Nat :=
  sumOf (fun s => if s ≤ t then g s else 0) times

/-- Entry `t` of the histogram is `upTo g times t`, for every `t` the timer has reached. -/
def Cumulates (h : Histogram) (g : Nat → Nat) (times : List Nat) (n : Nat) : Prop :=
  h.Is fun t => if t ≤ n then upTo g times t else 0

section Counter

variable {mem : Buffers Nat} {h : Histogram} {g : Nat → Nat} {times : List Nat} {n : Nat}

theorem cumulates_new (mem : Buffers Nat) (g : Nat → Nat) :
    Cumulates (Histogram.new mem) g [] 0 :=
  (Histogram.is_new mem).congr fun t => by split <;> rfl

theorem Cumulates.add (hc : Cumulates h g times n) (mem : Buffers Nat) :
    ∃ h', h.add mem n (g n) = some h' ∧ Cumulates h' g (times ++ [n]) n := by
  obtain ⟨h', hadd, his⟩ := Histogram.Is.add hc mem n (g n)
  refine ⟨h', hadd, his.congr fun t => ?_⟩
  unfold upTo
  rw [sumOf_append, sumOf_cons, sumOf_nil]
  by_cases ht : t = n
  · rw [if_pos ht, if_pos (by omega), if_pos (by omega), if_pos (by omega), Nat.add_zero]
  · rw [if_neg ht]
    by_cases hle : t ≤ n
    · rw [if_pos hle, if_pos hle, if_neg (by omega), Nat.add_zero]
    · rw [if_neg hle, if_neg hle]

theorem upTo_last (hle : ∀ s ∈ times, s ≤ n) : upTo g times (n + 1) = upTo g times n := by
  refine sumOf_congr fun s hs => ?_
  have := hle s hs
  rw [if_pos (by omega), if_pos this]

theorem Cumulates.carry (hc : Cumulates h g times n) (hle : ∀ s ∈ times, s ≤ n)
    (mem : Buffers Nat) :
    ∃ h', LivenessCounter.carry mem (n + 1) h = some h' ∧ Cumulates h' g times (n + 1) := by
  obtain ⟨h', hadd, his⟩ := Histogram.Is.add hc mem (n + 1) (upTo g times n)
  refine ⟨h', ?_, his.congr fun t => ?_⟩
  · simp only [LivenessCounter.carry, usub_eq (Nat.le_add_left 1 n), Nat.add_sub_cancel,
      Histogram.Is.get hc n, Option.bind_eq_bind, Option.bind_some, if_pos (Nat.le_refl n), hadd]
  · -- The new entry starts as the last one: no allocation or free has the new time yet.
    by_cases ht : t = n + 1
    · subst ht
      rw [if_pos rfl, if_neg (by omega), if_pos (Nat.le_refl _), upTo_last hle, Nat.zero_add]
    · rw [if_neg ht]
      by_cases hle : t ≤ n
      · rw [if_pos hle, if_pos (by omega)]
      · rw [if_neg hle, if_neg (by omega)]

/-- The counter holds the times `T`. -/
structure CounterHas (lc : LivenessCounter) (T : Times) : Prop where
  n : lc.n = T.n
  m : lc.m = T.allocs.length
  allocs_le : ∀ s ∈ T.allocs, s ≤ T.n
  frees_le : ∀ e ∈ T.frees, e ≤ T.n
  allocSum : Cumulates lc.allocSum (fun s => s) T.allocs T.n
  allocCounts : Cumulates lc.allocCounts (fun _ => 1) T.allocs T.n
  freeSum : Cumulates lc.freeSum (fun s => s) T.frees T.n
  freeCounts : Cumulates lc.freeCounts (fun _ => 1) T.frees T.n

theorem counterHas_new (mem : Buffers Nat) : CounterHas (LivenessCounter.new mem) ⟨0, [], []⟩ where
  n := rfl
  m := rfl
  allocs_le _ hs := by cases hs
  frees_le _ hs := by cases hs
  allocSum := cumulates_new mem _
  allocCounts := cumulates_new mem _
  freeSum := cumulates_new mem _
  freeCounts := cumulates_new mem _

theorem le_concat_self {l : List Nat} {n : Nat} (h : ∀ s ∈ l, s ≤ n) : ∀ s ∈ l ++ [n], s ≤ n := by
  intro s hs
  rcases List.mem_append.mp hs with hs | hs
  · exact h s hs
  · exact Nat.le_of_eq (List.mem_singleton.mp hs)

variable {lc : LivenessCounter} {T : Times}

theorem CounterHas.alloc (hc : CounterHas lc T) (mem : Buffers Nat) :
    ∃ lc', lc.alloc mem = some lc' ∧ CounterHas lc' (T.op .alloc) := by
  obtain ⟨allocSum, hs, hsum⟩ := hc.allocSum.add mem
  obtain ⟨allocCounts, hn, hcounts⟩ := hc.allocCounts.add mem
  refine ⟨{ lc with allocSum, allocCounts, m := lc.m + 1 }, ?_, hc.n, ?_, le_concat_self hc.allocs_le,
    hc.frees_le, hsum, hcounts, hc.freeSum, hc.freeCounts⟩
  · rw [LivenessCounter.alloc, hc.n, hs, Histogram.increment, hn]
    rfl
  · show lc.m + 1 = (T.allocs ++ [T.n]).length
    rw [List.length_append, hc.m]
    rfl

theorem CounterHas.free (hc : CounterHas lc T) (mem : Buffers Nat) :
    ∃ lc', lc.free mem = some lc' ∧ CounterHas lc' (T.op .free) := by
  obtain ⟨freeSum, hs, hsum⟩ := hc.freeSum.add mem
  obtain ⟨freeCounts, hn, hcounts⟩ := hc.freeCounts.add mem
  refine ⟨{ lc with freeSum, freeCounts }, ?_, hc.n, hc.m, hc.allocs_le,
    le_concat_self hc.frees_le, hc.allocSum, hc.allocCounts, hsum, hcounts⟩
  rw [LivenessCounter.free, hc.n, hs, Histogram.increment, hn]
  rfl

theorem CounterHas.incTimer (hc : CounterHas lc T) (mem : Buffers Nat) :
    ∃ lc', lc.incTimer mem = some lc' ∧ CounterHas lc' (T.op .incTimer) := by
  obtain ⟨allocCounts, hac, hac'⟩ := hc.allocCounts.carry hc.allocs_le mem
  obtain ⟨allocSum, has, has'⟩ := hc.allocSum.carry hc.allocs_le mem
  obtain ⟨freeCounts, hfc, hfc'⟩ := hc.freeCounts.carry hc.frees_le mem
  obtain ⟨freeSum, hfs, hfs'⟩ := hc.freeSum.carry hc.frees_le mem
  refine ⟨{ lc with n := T.n + 1, allocCounts, allocSum, freeCounts, freeSum }, ?_, rfl, hc.m,
    fun s hs => Nat.le_succ_of_le (hc.allocs_le s hs),
    fun s hs => Nat.le_succ_of_le (hc.frees_le s hs), has', hac', hfs', hfc'⟩
  simp only [LivenessCounter.incTimer, hc.n, hac, has, hfc, hfs, Option.bind_eq_bind,
    Option.bind_some]

theorem CounterHas.foldlM (mem : Buffers Nat) (ops : List LivenessOp) :
    ∀ {lc : LivenessCounter} {T : Times}, CounterHas lc T →
      ∃ lc', ops.foldlM (LivenessCounter.op mem) lc = some lc' ∧
        CounterHas lc' (ops.foldl Times.op T) := by
  induction ops with
  | nil => intro lc T hc; exact ⟨lc, rfl, hc⟩
  | cons op ops ih =>
    intro lc T hc
    obtain ⟨lc₁, hop, h₁⟩ : ∃ lc₁, lc.op mem op = some lc₁ ∧ CounterHas lc₁ (T.op op) := by
      cases op with
      | alloc => exact hc.alloc mem
      | free => exact hc.free mem
      | incTimer => exact hc.incTimer mem
    obtain ⟨lc', hrun, h'⟩ := ih h₁
    exact ⟨lc', by rw [List.foldlM_cons, hop]; exact hrun, h'⟩

/-- No operation panics, and the histograms hold the times of the run. -/
theorem run_has (mem : Buffers Nat) (ops : List LivenessOp) :
    ∃ lc, LivenessCounter.run mem ops = some lc ∧ CounterHas lc (Times.of ops) :=
  (counterHas_new mem).foldlM mem ops

end Counter

/-! ## The numerator -/

/-- What an allocation at `s` adds for windows that start in `1, …, i`, and what a free at
`e` takes away. -/
def allocTerm (i k s : Nat) : Nat := i - (s - k)
def freeTerm (i e : Nat) : Nat := i - e

section Numerator

variable {T : Times} {lc : LivenessCounter} {k i : Nat}

/-- `tmp2` is the sum of `max(k, s)`. -/
theorem upTo_max (hle : ∀ s ∈ T.allocs, s ≤ T.n) :
    upTo (fun _ => 1) T.allocs k * k + upTo (fun s => s) T.allocs T.n =
      sumOf (fun s => max k s) T.allocs + upTo (fun s => s) T.allocs k := by
  unfold upTo
  rw [Nat.mul_comm, ← sumOf_mul, ← sumOf_add, ← sumOf_add]
  refine sumOf_congr fun s hs => ?_
  have := hle s hs
  rw [if_pos this]
  by_cases hk : s ≤ k
  · rw [if_pos hk, if_pos hk, Nat.mul_one, Nat.max_eq_left hk]
  · rw [if_neg hk, if_neg hk, Nat.max_eq_right (by omega), Nat.mul_zero, Nat.zero_add, Nat.add_zero]

/-- `tmp1` is the whole rectangle less what the frees take away. -/
theorem upTo_rect (hfc : upTo (fun _ => 1) T.frees i ≤ T.allocs.length) :
    (T.allocs.length - upTo (fun _ => 1) T.frees i) * i + upTo (fun s => s) T.frees i +
      sumOf (freeTerm i) T.frees = T.allocs.length * i := by
  have hsum : upTo (fun s => s) T.frees i + sumOf (freeTerm i) T.frees =
      upTo (fun _ => 1) T.frees i * i := by
    unfold upTo freeTerm
    rw [Nat.mul_comm, ← sumOf_mul, ← sumOf_add]
    refine sumOf_congr fun e _ => ?_
    by_cases he : e ≤ i
    · rw [if_pos he, if_pos he, Nat.mul_one]
      exact Nat.add_sub_cancel' he
    · rw [if_neg he, if_neg he, Nat.mul_zero]
      omega
  rw [Nat.add_assoc, hsum, ← Nat.add_mul, Nat.sub_add_cancel hfc]

theorem sumOf_allocTerm (hle : ∀ s ∈ T.allocs, s ≤ T.n) (hi : i + k = T.n + 1) :
    T.allocs.length * i + T.allocs.length * k =
      sumOf (allocTerm i k) T.allocs + sumOf (fun s => max k s) T.allocs := by
  rw [← Nat.mul_add, ← sumOf_const, ← sumOf_add]
  refine sumOf_congr fun s hs => ?_
  have := hle s hs
  unfold allocTerm
  omega

/-- **What `liveness` computes**: nothing underflows as long as the frees take away no more
than the allocations add. -/
theorem CounterHas.liveness (hc : CounterHas lc T) (hk : 1 ≤ k) (hkn : k ≤ T.n)
    (hlen : T.frees.length ≤ T.allocs.length)
    (hterm : sumOf (freeTerm (T.n - k + 1)) T.frees ≤
      sumOf (allocTerm (T.n - k + 1) k) T.allocs) :
    lc.liveness k = some (sumOf (allocTerm (T.n - k + 1) k) T.allocs -
      sumOf (freeTerm (T.n - k + 1)) T.frees, T.n - k + 1) := by
  obtain ⟨i, hi⟩ : ∃ i, i = T.n - k + 1 := ⟨_, rfl⟩
  rw [← hi] at hterm ⊢
  have hfc : upTo (fun _ => 1) T.frees i ≤ T.allocs.length := by
    refine Nat.le_trans ?_ hlen
    have := sumOf_le (l := T.frees) (f := fun e => if e ≤ i then 1 else 0) (g := fun _ => 1)
      fun e _ => by split <;> omega
    rw [sumOf_const, Nat.mul_one] at this
    exact this
  -- the three sums of the numerator
  have hmax := upTo_max (k := k) hc.allocs_le
  have hrect := upTo_rect hfc
  have hsum := sumOf_allocTerm hc.allocs_le (show i + k = T.n + 1 by omega)
  have hcast : ((T.n : Int) - k + 1).toNat = i := by omega
  have hnn : ¬((T.n : Int) - k + 1) < 0 := by omega
  have hget : ∀ {h : Histogram} {g : Nat → Nat} {times : List Nat} {t : Nat},
      Cumulates h g times T.n → t ≤ T.n → h.get t = some (upTo g times t) := by
    intro h g times t hcum ht
    rw [Histogram.Is.get hcum t, if_pos ht]
  simp only [LivenessCounter.liveness, hc.n, hc.m, hcast, if_neg hnn,
    hget hc.freeCounts (show i ≤ T.n by omega), hget hc.freeSum (show i ≤ T.n by omega),
    hget hc.allocCounts hkn, hget hc.allocSum hkn, hget hc.allocSum (Nat.le_refl _),
    Option.bind_eq_bind, Option.bind_some, usub_eq hfc]
  rw [usub_eq (by omega), Option.bind_some, usub_eq (by omega), Option.bind_some]
  congr 2
  omega

end Numerator

/-! ## Windows -/

section Windows

variable {times : List Nat} {i k : Nat}

/-- Summed over the windows `w + 1` with `w < i`, the times up to `w + k`. -/
theorem sumOf_upTo_add (k : Nat) : sumOf (fun w => upTo (fun _ => 1) times (w + k)) (List.range i) =
    sumOf (allocTerm i k) times := by
  unfold upTo
  rw [sumOf_comm]
  refine sumOf_congr fun s _ => ?_
  -- the windows that a time `s` is in: those from `s - k` on
  have hbetween := sumOf_range_between (s - k) i i
  rw [sumOf_congr fun w hw => ?_, hbetween]
  · unfold allocTerm
    omega
  · have := List.mem_range.mp hw
    congr 1
    rw [eq_iff_iff]
    omega

theorem freeTerm_eq_allocTerm (i : Nat) : freeTerm i = allocTerm i 0 := rfl

theorem upTo_mono {t t' : Nat} (h : t ≤ t') :
    upTo (fun _ => 1) times t ≤ upTo (fun _ => 1) times t' := by
  refine sumOf_le fun s _ => ?_
  by_cases hs : s ≤ t
  · have hs' : s ≤ t' := Nat.le_trans hs h
    exact Nat.le_of_eq ((if_pos hs).trans (if_pos hs').symm)
  · exact Nat.le_trans (Nat.le_of_eq (if_neg hs)) (Nat.zero_le _)

end Windows

/-- At every time there were at least as many allocations as frees. -/
def FreesBehind (T : Times) : Prop :=
  ∀ t, upTo (fun _ => 1) T.frees t ≤ upTo (fun _ => 1) T.allocs t

/-- With the frees behind the allocations, the numerator adds up the windows. -/
theorem CounterHas.liveness_windows {lc : LivenessCounter} {T : Times} {k : Nat}
    (hc : CounterHas lc T) (hk : 1 ≤ k) (hkn : k ≤ T.n) (hlen : T.frees.length ≤ T.allocs.length)
    (hbehind : FreesBehind T) :
    lc.liveness k = some (sumOf (fun w => upTo (fun _ => 1) T.allocs (w + k) -
      upTo (fun _ => 1) T.frees w) (List.range (T.n - k + 1)), T.n - k + 1) := by
  have hle : ∀ w ∈ List.range (T.n - k + 1),
      upTo (fun _ => 1) T.frees w ≤ upTo (fun _ => 1) T.allocs (w + k) := fun w _ =>
    Nat.le_trans (hbehind w) (upTo_mono (Nat.le_add_right w k))
  -- a free is counted like an allocation with windows of length 0
  have hfree : sumOf (fun w => upTo (fun _ => 1) T.frees (w + 0)) (List.range (T.n - k + 1)) =
      sumOf (allocTerm (T.n - k + 1) 0) T.frees := sumOf_upTo_add 0
  rw [← freeTerm_eq_allocTerm] at hfree
  rw [sumOf_sub hle, sumOf_upTo_add]
  show lc.liveness k = some (_ - sumOf (fun w => upTo (fun _ => 1) T.frees (w + 0)) _, _)
  rw [hfree]
  refine hc.liveness hk hkn hlen ?_
  rw [← hfree, ← sumOf_upTo_add]
  exact sumOf_le hle

/-! ## Operations by position -/

/-- The timer before the operation at `i`. -/
def timeAt (ops : List LivenessOp) (i : Nat) : Nat := (ops.take i).countP (· = .incTimer)

/-- The positions below `p` of an operation. -/
def positions (ops : List LivenessOp) (op : LivenessOp) (p : Nat) : List Nat :=
  (List.range p).filter fun i => ops[i]? = some op

section Positions

variable {ops : List LivenessOp} {p : Nat}

theorem take_succ_eq (hp : p < ops.length) : ops.take (p + 1) = ops.take p ++ [ops[p]] := by
  rw [List.take_add_one, List.getElem?_eq_getElem hp]
  rfl

theorem timeAt_succ (hp : p < ops.length) :
    timeAt ops (p + 1) = timeAt ops p + if ops[p] = .incTimer then 1 else 0 := by
  rw [timeAt, take_succ_eq hp, List.countP_append, timeAt, List.countP_singleton]
  simp only [decide_eq_true_eq]

theorem timeAt_mono {i j : Nat} (h : i ≤ j) : timeAt ops i ≤ timeAt ops j :=
  (List.take_sublist_take_left h).countP_le

theorem positions_succ (op : LivenessOp) (hp : p < ops.length) :
    positions ops op (p + 1) = positions ops op p ++ if ops[p] = op then [p] else [] := by
  rw [positions, List.range_succ, List.filter_append, positions]
  congr 1
  rw [List.filter_cons, List.getElem?_eq_getElem hp]
  simp only [Option.some.injEq, decide_eq_true_eq, List.filter_nil]

/-- The times of a run are the times of its positions. -/
theorem times_take (h : p ≤ ops.length) : Times.of (ops.take p) =
    ⟨timeAt ops p, (positions ops .alloc p).map (timeAt ops),
      (positions ops .free p).map (timeAt ops)⟩ := by
  induction p with
  | zero => rfl
  | succ p ih =>
    have hp : p < ops.length := h
    rw [take_succ_eq hp, Times.of, List.foldl_append]
    show (Times.of (ops.take p)).op ops[p] = _
    rw [ih (by omega), timeAt_succ hp, positions_succ _ hp, positions_succ _ hp]
    cases ops[p] <;> simp [Times.op]

theorem length_positions (op : LivenessOp) (h : p ≤ ops.length) :
    (positions ops op p).length = (ops.take p).count op := by
  induction p with
  | zero => rfl
  | succ p ih =>
    have hp : p < ops.length := h
    rw [positions_succ _ hp, take_succ_eq hp, List.length_append, ih (by omega), List.count_append,
      List.count_singleton]
    by_cases he : ops[p] = op <;> simp [he]

/-- Up to the end of a prefix its times are all there are. -/
theorem upTo_positions_ge (op : LivenessOp) {t : Nat} (ht : timeAt ops p ≤ t) :
    upTo (fun _ => 1) ((positions ops op p).map (timeAt ops)) t = (positions ops op p).length := by
  unfold upTo
  rw [sumOf_congr (g := fun _ => 1), sumOf_const, Nat.mul_one, List.length_map]
  intro s hs
  obtain ⟨i, hi, rfl⟩ := List.mem_map.mp hs
  have hlt := List.mem_range.mp (List.mem_filter.mp hi).1
  have : timeAt ops i ≤ timeAt ops p := timeAt_mono (Nat.le_of_lt hlt)
  rw [if_pos (by omega)]

/-- Every prefix has at least as many allocations as frees. -/
def PrefixesAllocated (ops : List LivenessOp) : Prop :=
  ∀ p, (ops.take p).count .free ≤ (ops.take p).count .alloc

instance (ops : List LivenessOp) : Decidable (PrefixesAllocated ops) :=
  decidable_of_iff (∀ p < ops.length + 1, (ops.take p).count .free ≤ (ops.take p).count .alloc) <| by
    refine ⟨fun h p => ?_, fun h p _ => h p⟩
    by_cases hp : p < ops.length + 1
    · exact h p hp
    · have := h ops.length (Nat.lt_succ_self _)
      rw [List.take_of_length_le (Nat.le_refl _)] at this
      rw [List.take_of_length_le (by omega)]
      exact this

/-- A prefix has no more frees than allocations, so neither has any time. -/
theorem PrefixesAllocated.behind (h : PrefixesAllocated ops) (hp : p ≤ ops.length) :
    FreesBehind (Times.of (ops.take p)) := by
  induction p with
  | zero => intro t; exact Nat.le_refl _
  | succ p ih =>
    intro t
    have hlt : p < ops.length := hp
    have hprev := ih (by omega) t
    rw [times_take (by omega)] at hprev
    rw [times_take hp]
    show upTo _ ((positions ops .free (p + 1)).map (timeAt ops)) t ≤
      upTo _ ((positions ops .alloc (p + 1)).map (timeAt ops)) t
    -- The induction is on the prefix; at times from its end on, everything in it counts.
    by_cases ht : timeAt ops (p + 1) ≤ t
    · rw [upTo_positions_ge _ ht, upTo_positions_ge _ ht, length_positions _ hp, length_positions _ hp]
      exact h (p + 1)
    · -- the operation at `p` is later than `t`, or a tick
      have hlate : ∀ op, op ≠ .incTimer → upTo (fun _ => 1) ((positions ops op (p + 1)).map (timeAt ops)) t =
          upTo (fun _ => 1) ((positions ops op p).map (timeAt ops)) t := by
        intro op hop
        rw [positions_succ _ hlt, List.map_append, upTo, sumOf_append, upTo]
        split
        next he =>
          have hsucc := timeAt_succ hlt
          rw [if_neg (by rw [he]; exact hop)] at hsucc
          simp only [List.map_cons, List.map_nil, sumOf_cons, sumOf_nil]
          rw [if_neg (by omega)]
          rfl
        next => rfl
      rw [hlate _ (by decide), hlate _ (by decide)]
      exact hprev

/-- Counting times is counting positions. -/
theorem upTo_positions (op : LivenessOp) (t : Nat) :
    upTo (fun _ => 1) ((positions ops op p).map (timeAt ops)) t =
      sumOf (fun i => if ops[i]? = some op ∧ timeAt ops i ≤ t then 1 else 0) (List.range p) := by
  unfold upTo positions
  rw [sumOf_map, sumOf_filter]
  refine sumOf_congr fun i _ => ?_
  by_cases hop : ops[i]? = some op <;> simp [hop]

end Positions

/-! ## Matching frees to allocations -/

/-- `μ` sends the position of every free to that of an earlier allocation, no two to the
same. -/
structure Matching (ops : List LivenessOp) (μ : Nat → Nat) : Prop where
  earlier : ∀ i, ops[i]? = some .free → μ i < i ∧ ops[μ i]? = some .alloc
  once : ∀ i j, ops[i]? = some .free → ops[j]? = some .free → μ i = μ j → i = j

/-- The object allocated at `j` is alive in the window of `k` ticks from `w`: allocated by
its end and, if freed, not before its start. -/
def AliveIn (ops : List LivenessOp) (μ : Nat → Nat) (k w j : Nat) : Prop :=
  ops[j]? = some .alloc ∧ timeAt ops j ≤ w + k - 1 ∧
    ∀ i < ops.length, ops[i]? = some .free → μ i = j → w ≤ timeAt ops i

instance (ops : List LivenessOp) (μ : Nat → Nat) (k w j : Nat) : Decidable (AliveIn ops μ k w j) :=
  inferInstanceAs (Decidable (_ ∧ _ ∧ _))

/-- The pairs of a window `w = 1, …, n - k + 1` and an object alive in it. -/
def windowObjects (ops : List LivenessOp) (μ : Nat → Nat) (n k : Nat) : Nat :=
  sumOf (fun w => (List.range ops.length).countP fun j => AliveIn ops μ k w j)
    (List.range' 1 (n - k + 1))

section Match

variable {ops : List LivenessOp} {μ : Nat → Nat} {k w : Nat}

/-- The object at `j` was freed before `w`, by the operation at `i`. -/
def FreedBy (ops : List LivenessOp) (μ : Nat → Nat) (w j i : Nat) : Prop :=
  (ops[i]? = some .free ∧ timeAt ops i < w) ∧ μ i = j

instance (ops : List LivenessOp) (μ : Nat → Nat) (w j i : Nat) : Decidable (FreedBy ops μ w j i) :=
  inferInstanceAs (Decidable (_ ∧ _))

/-- An allocation up to the end of the window is alive in it or freed before, not both. -/
theorem Matching.alive_or_freed (h : Matching ops μ) (hk : 1 ≤ k) (j : Nat) :
    (if ops[j]? = some .alloc ∧ timeAt ops j ≤ w + k - 1 then 1 else 0) =
      (if AliveIn ops μ k w j then 1 else 0) +
        sumOf (fun i => if FreedBy ops μ w j i then 1 else 0) (List.range ops.length) := by
  rw [sumOf_unique (p := FreedBy ops μ w j) List.nodup_range fun i _ i' _ hi hi' =>
    h.once i i' hi.1.1 hi'.1.1 (hi.2.trans hi'.2.symm)]
  by_cases hfreed : ∃ i ∈ List.range ops.length, FreedBy ops μ w j i
  · -- freed before the window: allocated earlier still, so in time, but dead
    obtain ⟨i, hi, hby⟩ := hfreed
    obtain ⟨hlt, hal⟩ := h.earlier i hby.1.1
    rw [hby.2] at hlt hal
    have htime : timeAt ops j ≤ timeAt ops i := timeAt_mono (Nat.le_of_lt hlt)
    have hw := hby.1.2
    have hdead : ¬AliveIn ops μ k w j := fun ha => by
      have := ha.2.2 i (List.mem_range.mp hi) hby.1.1 hby.2
      omega
    rw [if_pos ⟨hal, by omega⟩, if_neg hdead, if_pos ⟨i, hi, hby⟩]
  · -- no free before the window
    rw [if_neg hfreed, Nat.add_zero]
    have halive : AliveIn ops μ k w j ↔ ops[j]? = some .alloc ∧ timeAt ops j ≤ w + k - 1 := by
      refine ⟨fun ha => ⟨ha.1, ha.2.1⟩, fun ha => ⟨ha.1, ha.2, fun i hi hfree hμ => ?_⟩⟩
      refine Decidable.byContradiction fun hlt => hfreed ⟨i, List.mem_range.mpr hi, ⟨hfree, ?_⟩, hμ⟩
      omega
    simp only [halive]

/-- Every free before `w` frees one object. -/
theorem Matching.sumOf_freedBy (h : Matching ops μ) :
    sumOf (fun j => sumOf (fun i => if FreedBy ops μ w j i then 1 else 0) (List.range ops.length))
        (List.range ops.length) =
      sumOf (fun i => if ops[i]? = some .free ∧ timeAt ops i < w then 1 else 0)
        (List.range ops.length) := by
  rw [sumOf_comm]
  refine sumOf_congr fun i hi => ?_
  by_cases hfree : ops[i]? = some .free ∧ timeAt ops i < w
  · have hlt := (h.earlier i hfree.1).1
    have hi := List.mem_range.mp hi
    have hbetween := sumOf_range_between (μ i) (μ i) ops.length
    rw [if_pos hfree, sumOf_congr fun j _ => ?_, hbetween]
    · omega
    · congr 1
      rw [eq_iff_iff]
      refine ⟨fun hby => ?_, fun hj => ⟨hfree, by omega⟩⟩
      have := hby.2
      omega
  · rw [if_neg hfree]
    exact sumOf_eq_zero fun j _ => if_neg fun hby => hfree hby.1

/-- The objects alive in a window and the frees before it make up the allocations. -/
theorem Matching.window (h : Matching ops μ) (hk : 1 ≤ k) (w : Nat) :
    (List.range ops.length).countP (fun j => AliveIn ops μ k (w + 1) j) =
      upTo (fun _ => 1) (Times.of ops).allocs (w + k) - upTo (fun _ => 1) (Times.of ops).frees w := by
  have htimes := times_take (Nat.le_refl ops.length)
  rw [List.take_length] at htimes
  have hsum := sumOf_congr (l := List.range ops.length) fun j _ =>
    h.alive_or_freed (w := w + 1) hk j
  rw [sumOf_add, h.sumOf_freedBy] at hsum
  rw [countP_eq_sumOf, htimes]
  simp only [upTo_positions, decide_eq_true_eq]
  rw [show w + 1 + k - 1 = w + k by omega] at hsum
  simp only [Nat.lt_succ_iff] at hsum
  omega

end Match

/-- **Liveness is a window count.** If no prefix has more frees than allocations, no
operation panics, nothing in `liveness` underflows for `1 ≤ k ≤ n`, and for every matching
of the frees to earlier allocations the numerator is the number of pairs of a window and an
object alive in it. -/
theorem liveness_counts_windows (mem : Buffers Nat) (ops : List LivenessOp)
    (hops : PrefixesAllocated ops) :
    ∃ lc, LivenessCounter.run mem ops = some lc ∧ lc.n = ops.count .incTimer ∧
      ∀ k, 1 ≤ k → k ≤ lc.n → ∃ num, lc.liveness k = some (num, lc.n - k + 1) ∧
        ∀ μ, Matching ops μ → num = windowObjects ops μ lc.n k := by
  obtain ⟨lc, hrun, hc⟩ := run_has mem ops
  have hbehind := hops.behind (Nat.le_refl _)
  have htimes := times_take (Nat.le_refl ops.length)
  rw [List.take_length] at hbehind htimes
  have hn : lc.n = timeAt ops ops.length := by rw [hc.n, htimes]
  have hlen : (Times.of ops).frees.length ≤ (Times.of ops).allocs.length := by
    rw [htimes]
    show (List.map _ _).length ≤ (List.map _ _).length
    rw [List.length_map, List.length_map, length_positions _ (Nat.le_refl _),
      length_positions _ (Nat.le_refl _)]
    exact hops ops.length
  refine ⟨lc, hrun, ?_, fun k hk hkn => ?_⟩
  · rw [hn, timeAt, List.take_length]
    rfl
  · rw [hc.n] at hkn ⊢
    refine ⟨_, hc.liveness_windows hk hkn hlen hbehind, fun μ hμ => ?_⟩
    rw [windowObjects, List.range'_eq_map_range, sumOf_map]
    refine sumOf_congr fun w _ => ?_
    rw [Nat.add_comm 1 w, hμ.window hk w]

/-- Two objects; the first is freed before the second window of two ticks starts. -/
theorem liveness_counts_windows_freed :
    ∃ lc, LivenessCounter.run (Buffers.padded 7)
        [.incTimer, .alloc, .free, .incTimer, .alloc, .incTimer] = some lc ∧
      Matching [.incTimer, .alloc, .free, .incTimer, .alloc, .incTimer] (fun _ => 1) ∧
      lc.n = 3 ∧ lc.liveness 2 = some (3, 2) := by
  obtain ⟨lc, hrun, hn, hlive⟩ := liveness_counts_windows (Buffers.padded 7)
    [.incTimer, .alloc, .free, .incTimer, .alloc, .incTimer] (by decide)
  have hn : lc.n = 3 := hn
  have hfree : ∀ i : Nat, [LivenessOp.incTimer, .alloc, .free, .incTimer, .alloc, .incTimer][i]? =
      some .free → i = 2 := fun i hi => by
    have hall : ∀ j < 6, [LivenessOp.incTimer, .alloc, .free, .incTimer, .alloc, .incTimer][j]? =
      some .free → j = 2 := by decide
    exact hall i (List.getElem?_eq_some_iff.mp hi).1 hi
  have hμ : Matching [.incTimer, .alloc, .free, .incTimer, .alloc, .incTimer] (fun _ => 1) :=
    ⟨fun i hi => by rw [hfree i hi]; decide, fun i j hi hj _ => (hfree i hi).trans (hfree j hj).symm⟩
  obtain ⟨num, hnum, hcount⟩ := hlive 2 (by decide) (by rw [hn]; decide)
  rw [hcount _ hμ, hn] at hnum
  exact ⟨lc, hrun, hμ, hn, hnum⟩

end Apfmalloc
