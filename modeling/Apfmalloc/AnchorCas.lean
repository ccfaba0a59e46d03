import Apfmalloc.Flush

/-!
# The compare-exchange loop on a popped descriptor

`malloc_from_partial` and `malloc_count_from_partial` load the anchor of the descriptor they
popped once, before the loop, and compare-exchange against that value until it succeeds.
`flush_cache` has the same loop with the load inside. Between two atomic steps of the
refill, other threads may flush blocks of the superblock, and each flush stores a new
anchor.

Here the load and every compare-exchange is a step, and `env n` are the flushes that come
right before the `n`-th of them. A flush puts a block on the free list that was not there,
so the anchor never gets back the value it had, and the loop ends exactly if nothing was
flushed between the load and the first compare-exchange (`partial_loop_exits_iff`).
-/

namespace Apfmalloc

open Base

/-! ## What the other threads store -/

/-- A flush gives back a run of blocks, here their indices, the head of the run first. -/
def flushStore (maxCount : Nat) (a : Anchor) (run : List Nat) : Anchor :=
  flushAnchor a maxCount (run.headD 0) run.length

def flushStores (maxCount : Nat) (a : Anchor) (runs : List (List Nat)) : Anchor :=
  runs.foldl (flushStore maxCount) a

/-- The runs are blocks of the superblock that are not on its free list `free`: those of a
bin. -/
def Returned (maxCount : Nat) : List Nat → List (List Nat) → Prop
  | _, [] => True
  | free, run :: runs =>
    run ≠ [] ∧ (∀ i ∈ run, i < maxCount ∧ i ∉ free) ∧ Returned maxCount (run ++ free) runs

/-- The free list after the runs came back. -/
def freeAfter (free : List Nat) (runs : List (List Nat)) : List Nat :=
  runs.foldl (fun free run => run ++ free) free

/-- `avail` is the head of the free list, if there is one. -/
def AnchorOn (free : List Nat) (a : Anchor) : Prop :=
  a.state ≠ .full → a.avail ∈ free

/-! ## The loop -/

/-- Where the refill is, with the anchor it loaded. -/
inductive LoopPc
  | load
  | exchange (oldAnchor : Anchor)
  | retire
  | done (oldAnchor : Anchor)
  deriving DecidableEq, Repr

/-- One atomic step. A failed exchange goes round with the `old_anchor` it had. -/
def loopStep (newAnchor : Anchor → Anchor) (a : Anchor) : LoopPc → Anchor × LoopPc
  | .load => (a, .exchange a)
  | .exchange oldAnchor =>
    if oldAnchor.state = .empty then (a, .retire)
    else if a = oldAnchor then (newAnchor oldAnchor, .done oldAnchor)
    -- `old_anchor` is not loaded again
    else (a, .exchange oldAnchor)
  | .retire => (a, .retire)
  | .done oldAnchor => (a, .done oldAnchor)

/-- The anchor and the refill after `n` of its steps. -/
def loopAt (newAnchor : Anchor → Anchor) (maxCount : Nat) (a : Anchor)
    (env : Nat → List (List Nat)) : Nat → Anchor × LoopPc
  | 0 => (a, .load)
  | n + 1 =>
    let (b, pc) := loopAt newAnchor maxCount a env n
    loopStep newAnchor (flushStores maxCount b (env n)) pc

/-- The loop ends: some step exchanges the value that is in the anchor then, and goes on
with it. -/
def Exits (newAnchor : Anchor → Anchor) (maxCount : Nat) (a : Anchor)
    (env : Nat → List (List Nat)) : Prop :=
  ∃ n oldAnchor, (loopAt newAnchor maxCount a env n).2 = .exchange oldAnchor ∧
    flushStores maxCount (loopAt newAnchor maxCount a env n).1 (env n) = oldAnchor ∧
    loopAt newAnchor maxCount a env (n + 1) = (newAnchor oldAnchor, .done oldAnchor)

/-- The flushes come to an end, and leave the anchor not EMPTY. -/
def Settles (maxCount : Nat) (a : Anchor) (env : Nat → List (List Nat)) : Prop :=
  ∃ n, (∀ m, n ≤ m → env m = []) ∧
    (flushStores maxCount a ((List.range n).flatMap env)).state ≠ .empty

/-! ## Flushes -/

section
variable {maxCount : Nat} {a : Anchor} {free : List Nat} {run : List Nat}
  {runs runs' : List (List Nat)}

theorem flushStores_append (maxCount : Nat) (a : Anchor) (runs runs' : List (List Nat)) :
    flushStores maxCount a (runs ++ runs') =
      flushStores maxCount (flushStores maxCount a runs) runs' :=
  List.foldl_append

theorem flushStore_not_full : (flushStore maxCount a run).state ≠ .full := by
  unfold flushStore flushAnchor
  cases hs : a.state <;> simp [Anchor.setState, Anchor.setCount, Anchor.setAvail] <;> split <;>
    simp [hs]

/-- EMPTY stays EMPTY. -/
theorem flushStore_empty (h : a.state = .empty) : (flushStore maxCount a run).state = .empty := by
  unfold flushStore flushAnchor
  simp only [h, reduceCtorEq, if_false]
  split
  · rfl
  · exact h

theorem flushStores_empty (h : a.state = .empty) :
    (flushStores maxCount a runs).state = .empty := by
  induction runs generalizing a with
  | nil => exact h
  | cons run runs ih => exact ih (flushStore_empty h)

theorem flushStore_avail (hlt : maxCount < 2 ^ 30) (hne : run ≠ [])
    (hrun : ∀ i ∈ run, i < maxCount) : (flushStore maxCount a run).avail ∈ run := by
  obtain ⟨i, rest, rfl⟩ := List.exists_cons_of_ne_nil hne
  have hi := hrun i (List.mem_cons_self ..)
  rw [flushStore, List.headD_cons, flushAnchor_avail (by omega)]
  exact List.mem_cons_self ..

theorem returned_append :
    ∀ {runs : List (List Nat)} {free : List Nat}, Returned maxCount free (runs ++ runs') →
      Returned maxCount free runs ∧ Returned maxCount (freeAfter free runs) runs' := by
  intro runs
  induction runs with
  | nil => intro free h; exact ⟨trivial, h⟩
  | cons run runs ih =>
    intro free h
    obtain ⟨hne, hrun, h⟩ := h
    obtain ⟨h₁, h₂⟩ := ih h
    exact ⟨⟨hne, hrun, h₁⟩, h₂⟩

/-- **A flush moves the head** of the free list to a block that was not on it. -/
theorem flushStores_fresh (hlt : maxCount < 2 ^ 30) :
    ∀ {runs : List (List Nat)} {free : List Nat} {a : Anchor}, Returned maxCount free runs →
      runs ≠ [] → (flushStores maxCount a runs).state ≠ .full ∧
        (flushStores maxCount a runs).avail ∉ free := by
  intro runs
  induction runs with
  | nil => intro free a _ hne; exact absurd rfl hne
  | cons run runs ih =>
    intro free a h _
    obtain ⟨hne, hrun, h⟩ := h
    -- the last flush decides where `avail` is
    by_cases hnil : runs = []
    · subst hnil
      exact ⟨flushStore_not_full,
        (hrun _ (flushStore_avail hlt hne fun i hi => (hrun i hi).1)).2⟩
    · obtain ⟨hfull, hnot⟩ := @ih (run ++ free) (flushStore maxCount a run) h hnil
      exact ⟨hfull, fun hmem => hnot (List.mem_append_right _ hmem)⟩

theorem AnchorOn.flushStores (hlt : maxCount < 2 ^ 30) :
    ∀ {runs : List (List Nat)} {free : List Nat} {a : Anchor}, AnchorOn free a →
      Returned maxCount free runs →
      AnchorOn (freeAfter free runs) (flushStores maxCount a runs) := by
  intro runs
  induction runs with
  | nil => intro free a h _; exact h
  | cons run runs ih =>
    intro free a h hret
    obtain ⟨hne, hrun, hret⟩ := hret
    refine ih (fun _ => ?_) hret
    exact List.mem_append_left _ (flushStore_avail hlt hne fun i hi => (hrun i hi).1)

/-- **No flush brings an old value back.** -/
theorem AnchorOn.flushStores_ne (hlt : maxCount < 2 ^ 30) (h : AnchorOn free a)
    (hret : Returned maxCount free runs) (hne : runs ≠ []) :
    Apfmalloc.flushStores maxCount a runs ≠ a := by
  intro heq
  obtain ⟨hfull, hnot⟩ := flushStores_fresh (a := a) hlt hret hne
  rw [heq] at hfull hnot
  exact hnot (h hfull)

end

/-! ## Runs of the loop -/

section
variable {newAnchor : Anchor → Anchor} {maxCount : Nat} {a : Anchor} {free : List Nat}
  {env : Nat → List (List Nat)}

/-- The flushes before step `n + 1`, those before the load first. -/
theorem flushed_succ (env : Nat → List (List Nat)) (n : Nat) :
    (List.range (n + 1)).flatMap env = env 0 ++ (List.range n).flatMap fun i => env (i + 1) := by
  rw [List.range_succ_eq_map, List.flatMap_cons, List.flatMap_map]

theorem flushed_last (env : Nat → List (List Nat)) (n : Nat) :
    (List.range (n + 1)).flatMap env = (List.range n).flatMap env ++ env n := by
  rw [List.range_succ, List.flatMap_append, List.flatMap_singleton]

theorem loopAt_one :
    loopAt newAnchor maxCount a env 1 =
      (flushStores maxCount a (env 0), .exchange (flushStores maxCount a (env 0))) :=
  rfl

/-- A flush to come cannot undo EMPTY. -/
theorem Settles.loaded (h : Settles maxCount a env) :
    (flushStores maxCount a (env 0)).state ≠ .empty := by
  obtain ⟨n, hend, hstate⟩ := h
  intro hempty
  cases n with
  | zero =>
    rw [hend 0 (Nat.le_refl 0)] at hempty
    exact hstate hempty
  | succ n =>
    rw [flushed_succ, flushStores_append] at hstate
    exact hstate (flushStores_empty hempty)

/-- **Left alone between the load and the exchange**, the first exchange succeeds. -/
theorem exits_of_quiet (hloaded : (flushStores maxCount a (env 0)).state ≠ .empty)
    (hquiet : env 1 = []) : Exits newAnchor maxCount a env := by
  generalize hb : flushStores maxCount a (env 0) = b at hloaded
  have hone : loopAt newAnchor maxCount a env 1 = (b, .exchange b) := by rw [loopAt_one, hb]
  have hval : flushStores maxCount b (env 1) = b := by rw [hquiet]; rfl
  refine ⟨1, b, by rw [hone], by rw [hone]; exact hval, ?_⟩
  rw [loopAt, hone]
  show loopStep newAnchor (flushStores maxCount b (env 1)) (.exchange b) = _
  rw [hval, loopStep, if_neg hloaded, if_pos rfl]

/-- Later flushes, if there is one right after the load, are away from the loaded value. -/
theorem flushed_ne (hlt : maxCount < 2 ^ 30) (hon : AnchorOn free a)
    (hret : ∀ n, Returned maxCount free ((List.range n).flatMap env)) (hbusy : env 1 ≠ []) (n : Nat) :
    flushStores maxCount (flushStores maxCount a (env 0))
      ((List.range (n + 1)).flatMap fun i => env (i + 1)) ≠ flushStores maxCount a (env 0) := by
  have hsplit := hret (n + 1 + 1)
  rw [flushed_succ] at hsplit
  obtain ⟨h₀, h₁⟩ := returned_append hsplit
  refine (hon.flushStores hlt h₀).flushStores_ne hlt h₁ fun hnil => hbusy ?_
  rw [flushed_succ] at hnil
  exact (List.append_eq_nil_iff.mp hnil).1

/-- **After a flush in between**, every exchange compares with a value that is gone. -/
theorem loopAt_spins {b : Anchor} (hb : flushStores maxCount a (env 0) = b)
    (hloaded : b.state ≠ .empty)
    (hne : ∀ n, flushStores maxCount b ((List.range (n + 1)).flatMap fun i => env (i + 1)) ≠ b)
    (n : Nat) : loopAt newAnchor maxCount a env (n + 1) =
      (flushStores maxCount b ((List.range n).flatMap fun i => env (i + 1)), .exchange b) := by
  induction n with
  | zero =>
    rw [loopAt_one, hb]
    rfl
  -- every step before was a failed exchange, so the flushes are all there is in the anchor
  | succ n ih =>
    rw [loopAt, ih]
    simp only
    rw [← flushStores_append, ← flushed_last fun i => env (i + 1)]
    simp only [loopStep]
    rw [if_neg hloaded, if_neg (hne n)]

theorem not_exits_of_busy (hlt : maxCount < 2 ^ 30) (hon : AnchorOn free a)
    (hret : ∀ n, Returned maxCount free ((List.range n).flatMap env))
    (hloaded : (flushStores maxCount a (env 0)).state ≠ .empty) (hbusy : env 1 ≠ []) :
    ¬Exits newAnchor maxCount a env := by
  have hne := flushed_ne hlt hon hret hbusy
  generalize hb : flushStores maxCount a (env 0) = b at hloaded hne
  intro ⟨n, oldAnchor, hpc, hval, _⟩
  cases n with
  | zero => cases hpc
  | succ n =>
    -- An exchange that succeeds finds the value of the load, after a flush at least.
    rw [loopAt_spins hb hloaded hne n] at hpc hval
    obtain rfl := LoopPc.exchange.inj hpc
    rw [← flushStores_append, ← flushed_last fun i => env (i + 1)] at hval
    exact hne n hval

theorem exits_iff_quiet (hlt : maxCount < 2 ^ 30) (hon : AnchorOn free a)
    (hret : ∀ n, Returned maxCount free ((List.range n).flatMap env))
    (hloaded : (flushStores maxCount a (env 0)).state ≠ .empty) :
    Exits newAnchor maxCount a env ↔ env 1 = [] :=
  ⟨fun h => Classical.byContradiction fun hbusy =>
      not_exits_of_busy hlt hon hret hloaded hbusy h,
    exits_of_quiet hloaded⟩

end

/-! ## The functions around the loop -/

section
variable {cfg : Cfg} {t c d count : Nat} {s s₁ : State}

theorem loopAt_alone {newAnchor : Anchor → Anchor} {maxCount : Nat} {a : Anchor}
    (h : a.state ≠ .empty) :
    loopAt newAnchor maxCount a (fun _ => []) 2 = (newAnchor a, .done a) := by
  show loopStep newAnchor a (.exchange a) = _
  rw [loopStep, if_neg h, if_pos rfl]

/-- With nothing flushed, `malloc_from_partial` stores what its loop stores, and takes what
the exchanged anchor says. -/
theorem mallocFromPartialLoop_exchange {fuel : Nat} (hpop : listPopPartial c s = some (some d, s₁))
    (hstate : (s₁.descs d).anchor.state ≠ .empty) :
    ∃ oldAnchor new, loopAt (listAnchor (s₁.descs d).maxCount) (s₁.descs d).maxCount
        (s₁.descs d).anchor (fun _ => []) 2 = (new, .done oldAnchor) ∧
      mallocFromPartialLoop t c (fuel + 1) s = takeList t c d oldAnchor (s₁.setAnchor d new) :=
  ⟨_, _, loopAt_alone hstate, mallocFromPartialLoop_take hpop hstate⟩

theorem mallocCountFromPartial_exchange (hpop : listPopPartial c s = some (some d, s₁))
    (hstate : (s₁.descs d).anchor.state ≠ .empty) :
    ∃ oldAnchor new, loopAt (countAnchor (s₁.descs d).maxCount count) (s₁.descs d).maxCount
        (s₁.descs d).anchor (fun _ => []) 2 = (new, .done oldAnchor) ∧
      mallocCountFromPartial cfg t c count s =
        takeCount cfg t c d count oldAnchor (s₁.setAnchor d new) :=
  ⟨_, _, loopAt_alone hstate, mallocCountFromPartial_take hpop hstate⟩

end

/-- **When the two loops end.** Whatever other threads flush, as long as the anchor comes to
rest and is not EMPTY: exactly if nothing is flushed between the load and the first
exchange. -/
theorem partial_loop_exits_iff {cfg : Cfg} {c count : Nat} {a : Anchor} {free : List Nat}
    {env : Nat → List (List Nat)} (h1 : 1 ≤ c) (h2 : c < maxSzIdx) (hon : AnchorOn free a)
    (hret : ∀ n, Returned (cfg.sizeClass c).blockNum free ((List.range n).flatMap env))
    (hsettles : Settles (cfg.sizeClass c).blockNum a env) :
    (Exits (listAnchor (cfg.sizeClass c).blockNum) (cfg.sizeClass c).blockNum a env ↔ env 1 = []) ∧
      (Exits (countAnchor (cfg.sizeClass c).blockNum count) (cfg.sizeClass c).blockNum a env ↔
        env 1 = []) := by
  have hlt := (cfg.classSpec h1 h2).blockNum_lt
  exact ⟨exits_iff_quiet hlt hon hret hsettles.loaded, exits_iff_quiet hlt hon hret hsettles.loaded⟩

/-- Another thread flushes block 5 of a superblock of class 1 right before step `k`. -/
def flushAt (k : Nat) : Nat → List (List Nat) := fun n => if n = k then [[5]] else []

theorem flushAt_flushed (k n : Nat) :
    (List.range n).flatMap (flushAt k) = if k < n then [[5]] else [] := by
  induction n with
  | zero => rfl
  | succ n ih =>
    rw [flushed_last, ih, flushAt]
    by_cases hk : n = k
    · rw [if_pos hk, if_neg (by omega), if_pos (by omega)]
      rfl
    · rw [if_neg hk, List.append_nil]
      by_cases hlt : k < n
      · rw [if_pos hlt, if_pos (by omega)]
      · rw [if_neg hlt, if_neg (by omega)]

theorem flushAt_returned (k n : Nat) :
    Returned (Cfg.default.sizeClass 1).blockNum [3] ((List.range n).flatMap (flushAt k)) := by
  rw [flushAt_flushed]
  split
  · refine ⟨by simp, fun i hi => ?_, trivial⟩
    obtain rfl := List.mem_singleton.mp hi
    exact ⟨by decide +kernel, by decide⟩
  · trivial

/-- Two of the blocks are free then, not all: the anchor stays PARTIAL. -/
theorem flushAt_settles (k : Nat) :
    Settles (Cfg.default.sizeClass 1).blockNum ⟨.partly, 3, 1⟩ (flushAt k) := by
  refine ⟨k + 1, fun m hm => if_neg (by omega), ?_⟩
  rw [flushAt_flushed, if_pos (Nat.lt_succ_self k)]
  decide +kernel

/-- A flush before the load does no harm. -/
theorem partial_loop_exits_iff_before :
    Exits (listAnchor (Cfg.default.sizeClass 1).blockNum) (Cfg.default.sizeClass 1).blockNum
        ⟨.partly, 3, 1⟩ (flushAt 0) ∧
      Exits (countAnchor (Cfg.default.sizeClass 1).blockNum 2) (Cfg.default.sizeClass 1).blockNum
        ⟨.partly, 3, 1⟩ (flushAt 0) := by
  obtain ⟨hlist, hcount⟩ := @partial_loop_exits_iff Cfg.default 1 2 ⟨.partly, 3, 1⟩ [3] (flushAt 0)
    (by decide) (by decide) (fun _ => List.mem_singleton_self 3) (flushAt_returned 0)
    (flushAt_settles 0)
  exact ⟨hlist.mpr rfl, hcount.mpr rfl⟩

/-- Block 3 of the superblock is free, the refill loads the anchor, another thread flushes
block 5: neither loop ever ends. -/
theorem partial_loop_spins :
    AnchorOn [3] ⟨.partly, 3, 1⟩ ∧
      (∀ n, Returned (Cfg.default.sizeClass 1).blockNum [3]
        ((List.range n).flatMap (flushAt 1))) ∧
      Settles (Cfg.default.sizeClass 1).blockNum ⟨.partly, 3, 1⟩ (flushAt 1) ∧
      ¬Exits (listAnchor (Cfg.default.sizeClass 1).blockNum) (Cfg.default.sizeClass 1).blockNum
        ⟨.partly, 3, 1⟩ (flushAt 1) ∧
      ¬Exits (countAnchor (Cfg.default.sizeClass 1).blockNum 2)
        (Cfg.default.sizeClass 1).blockNum ⟨.partly, 3, 1⟩ (flushAt 1) := by
  have hlt := (Cfg.default.classSpec (c := 1) (by decide) (by decide)).blockNum_lt
  have hon : AnchorOn [3] ⟨.partly, 3, 1⟩ := fun _ => List.mem_singleton_self 3
  have hloaded := (flushAt_settles 1).loaded
  have hbusy : flushAt 1 1 ≠ [] := List.cons_ne_nil _ _
  exact ⟨hon, flushAt_returned 1, flushAt_settles 1,
    not_exits_of_busy hlt hon (flushAt_returned 1) hloaded hbusy,
    not_exits_of_busy hlt hon (flushAt_returned 1) hloaded hbusy⟩

end Apfmalloc
