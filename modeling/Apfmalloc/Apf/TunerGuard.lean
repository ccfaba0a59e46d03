import Apfmalloc.Base.Runs
import Apfmalloc.MemInfo
import Mathlib.Data.List.Basic

/-!
# `thread_cache.rs`: who may run a tuner

The allocator is the global allocator of the program it is linked into, so the tuners of a
thread allocate with the allocator they tune: a push onto a vector or a map of the tuner is
a malloc, and that malloc may ask for a tuner again. Three thread-locals stand against it.
`skip` lets the first cached malloc of the thread, and no other, run `init_tuners`.
`apf_init` says that the tuners are there. `skip_tuners` starts at one, `no_tuning` raises
it for as long as its function runs, and a tuner runs at zero only. `init_tuners` itself is
a `no_tuning`, and sets the counter to zero before it leaves it, whatever was open around
it.

A thread is a stack here, the innermost function first, and whatever runs may call the
allocator, at any depth. `GuardInv` says how every stack looks: the calls of `no_tuning`
that the counter counts lie above all tuners, those that were open when the tuners came lie
below. So no tuner is missing when one is asked for, none runs inside a `no_tuning` that
began after `init_tuners`, and the counter is back where it was when all have returned
(`tuners_guarded`). Whether a tuner is entered while another runs is up to the tuners: it
happens exactly if one of them calls the allocator outside a `no_tuning`
(`tuner_reentered_iff`).
-/

namespace Apfmalloc

open Base

/-! ## The thread-locals -/

/-- What a thread is in the middle of. -/
inductive TuneFrame
  /-- the function given to `no_tuning` -/
  | noTuning
  /-- `init_tuners`, before it pushes tuner `i` -/
  | initTuners (i : Nat)
  /-- an `allocate_to_cache` of class `c` that called `init_tuners` -/
  | waits (c : Nat)
  /-- `malloc` or `free` of the tuner with this `id` -/
  | tuner (id : Nat)
  deriving DecidableEq, Repr

def TuneFrame.isTuner : TuneFrame → Bool
  | .tuner _ => true
  | _ => false

/-- The thread-locals, the tuners by their `id`, and the stack of the thread. -/
structure Guards where
  skip : Bool
  skipTuners : Nat
  apfInit : Bool
  apfTuners : List Nat
  stack : List TuneFrame
  panicked : Bool
  deriving DecidableEq, Repr

namespace Guards

def start : Guards := ⟨false, 1, false, [], [], false⟩

/-- The two ends of `no_tuning`. -/
def raise (g : Guards) : Guards := { g with skipTuners := g.skipTuners + 1 }
def lower (g : Guards) : Guards :=
  { g with skipTuners := if g.skipTuners > 0 then g.skipTuners - 1 else g.skipTuners }

def call (f : TuneFrame) (g : Guards) : Guards := { g with stack := f :: g.stack }
def back (rest : List TuneFrame) (g : Guards) : Guards := { g with stack := rest }

/-- The tuner of class `c` is called, unless tuners are skipped. -/
def tune (c : Nat) (g : Guards) : Guards :=
  if g.skipTuners = 0 then
    match g.apfTuners[c]? with
    | some id => g.call (.tuner id)
    -- `get_mut(size_class_index).unwrap()`
    | none => { g with panicked := true }
  else g

/-- `allocate_to_cache`, after the block is popped. -/
def malloc (c : Nat) (g : Guards) : Guards :=
  if g.skip then g.tune c
  else
    let g := { g with skip := true }
    if g.apfInit then g.tune c else ((g.call (.waits c)).call (.initTuners 0)).raise

/-- `do_free` of a block of class `c`. -/
def free (c : Nat) (g : Guards) : Guards := if g.apfInit then g.tune c else g

/-- `init_tuners` pushes `ApfTuner::new(i, ..)`. -/
def push (i : Nat) (rest : List TuneFrame) (g : Guards) : Guards :=
  { g with apfTuners := g.apfTuners ++ [i], stack := .initTuners (i + 1) :: rest }

/-- The end of `init_tuners` and of its `no_tuning`. -/
def finish (rest : List TuneFrame) (g : Guards) : Guards :=
  ({ g with apfInit := true, skipTuners := 0 }.lower).back rest

/-- `init_tuners` is back. The assertions that follow read the flag just set. -/
def resume (c : Nat) (rest : List TuneFrame) (g : Guards) : Guards :=
  ({ g with apfInit := true }.back rest).tune c

/-- How many tuners are running. -/
def depth (g : Guards) : Nat := g.stack.countP TuneFrame.isTuner

end Guards

/-! ## The steps of a thread -/

inductive GuardOp
  | malloc (c : Nat)
  | free (c : Nat)
  | enter
  | leave
  | push
  | finish
  | resume
  | done
  deriving DecidableEq, Repr

/-- What runs is the program or a function of the allocator that runs code of its own. -/
def Running (stack : List TuneFrame) : Prop := ∀ c rest, stack ≠ .waits c :: rest

/-- Whatever runs may malloc and free blocks of the size classes, and call `no_tuning`. The
other steps end what is on top of the stack, or take it one tuner further. -/
inductive GuardStep : Guards → GuardOp → Guards → Prop
  | malloc {g : Guards} {c : Nat} : g.panicked = false → Running g.stack → 1 ≤ c → c < maxSzIdx →
      GuardStep g (.malloc c) (g.malloc c)
  | free {g : Guards} {c : Nat} : g.panicked = false → Running g.stack → 1 ≤ c → c < maxSzIdx →
      GuardStep g (.free c) (g.free c)
  | enter {g : Guards} : g.panicked = false → Running g.stack →
      GuardStep g .enter (g.call .noTuning).raise
  | leave {g : Guards} {rest : List TuneFrame} : g.panicked = false → g.stack = .noTuning :: rest →
      GuardStep g .leave (g.lower.back rest)
  | push {g : Guards} {i : Nat} {rest : List TuneFrame} : g.panicked = false →
      g.stack = .initTuners i :: rest → i < maxSzIdx → GuardStep g .push (g.push i rest)
  | finish {g : Guards} {i : Nat} {rest : List TuneFrame} : g.panicked = false →
      g.stack = .initTuners i :: rest → ¬i < maxSzIdx → GuardStep g .finish (g.finish rest)
  | resume {g : Guards} {c : Nat} {rest : List TuneFrame} : g.panicked = false →
      g.stack = .waits c :: rest → GuardStep g .resume (g.resume c rest)
  | done {g : Guards} {id : Nat} {rest : List TuneFrame} : g.panicked = false →
      g.stack = .tuner id :: rest → GuardStep g .done (g.back rest)

/-! ## How every stack looks -/

def guards (n : Nat) : List TuneFrame := List.replicate n .noTuning

/-- Calls of `no_tuning`, around tuners, around calls of `no_tuning` that were open before
the tuners came. -/
def tuned (k : Nat) (ids : List Nat) (m : Nat) : List TuneFrame :=
  guards k ++ (ids.map .tuner ++ guards m)

inductive GuardInv : Guards → Prop
  | before (m : Nat) : GuardInv ⟨false, m + 1, false, [], guards m, false⟩
  | during (k m : Nat) {i c : Nat} : i ≤ maxSzIdx → c < maxSzIdx →
      GuardInv ⟨true, k + (m + 2), false, List.range i,
        guards k ++ .initTuners i :: .waits c :: guards m, false⟩
  | finished (m : Nat) {c : Nat} : c < maxSzIdx →
      GuardInv ⟨true, 0, true, List.range maxSzIdx, .waits c :: guards m, false⟩
  | after (k m : Nat) {ids : List Nat} : (∀ id ∈ ids, id < maxSzIdx) →
      GuardInv ⟨true, k, true, List.range maxSzIdx, tuned k ids m, false⟩

theorem guardInv_start : GuardInv Guards.start := .before 0

theorem guards_succ (n : Nat) : guards (n + 1) = .noTuning :: guards n := List.replicate_succ

/-- A tuner is called in the innermost position, and only if the counter counts nothing. -/
theorem tune_eq {k m c : Nat} {ids : List Nat} (hc : c < maxSzIdx) :
    Guards.tune c ⟨true, k, true, List.range maxSzIdx, tuned k ids m, false⟩ =
      if k = 0 then ⟨true, 0, true, List.range maxSzIdx, tuned 0 (c :: ids) m, false⟩
      else ⟨true, k, true, List.range maxSzIdx, tuned k ids m, false⟩ := by
  rw [Guards.tune]
  by_cases hk : k = 0
  · subst hk
    simp only [if_true, List.getElem?_range hc]
    rfl
  · simp only [hk, if_false]

theorem GuardInv.tune_after {k m c : Nat} {ids : List Nat} (hids : ∀ id ∈ ids, id < maxSzIdx)
    (hc : c < maxSzIdx) :
    GuardInv (Guards.tune c ⟨true, k, true, List.range maxSzIdx, tuned k ids m, false⟩) := by
  rw [tune_eq hc]
  split
  · refine .after 0 m fun id hid => ?_
    rcases List.mem_cons.mp hid with rfl | hid
    · exact hc
    · exact hids id hid
  · exact .after k m hids

/-- Before the tuners are there, none is called. -/
theorem tune_skipped {g : Guards} {n : Nat} (h : g.skipTuners = n + 1) (c : Nat) :
    g.tune c = g := by
  rw [Guards.tune, if_neg (by rw [h]; exact Nat.succ_ne_zero n)]

/-! ## One step -/

section Steps

variable {g g' : Guards} {c i id : Nat} {rest : List TuneFrame}

theorem GuardInv.malloc (h : GuardInv g) (hrun : Running g.stack) (hc : c < maxSzIdx) :
    GuardInv (g.malloc c) := by
  cases h with
  | before m =>
    have hin := GuardInv.during 0 m (i := 0) (Nat.zero_le _) hc
    rw [Nat.zero_add] at hin
    exact hin
  | during k m hi hc' =>
    rw [Guards.malloc, if_pos rfl, tune_skipped (n := k + (m + 1)) rfl]
    exact .during k m hi hc'
  | finished m hc' => exact (hrun _ _ rfl).elim
  | after k m hids => exact GuardInv.tune_after hids hc

theorem GuardInv.free (h : GuardInv g) (hrun : Running g.stack) (hc : c < maxSzIdx) :
    GuardInv (g.free c) := by
  cases h with
  | before m => exact .before m
  | during k m hi hc' => exact .during k m hi hc'
  | finished m hc' => exact (hrun _ _ rfl).elim
  | after k m hids => exact GuardInv.tune_after hids hc

theorem GuardInv.enter (h : GuardInv g) (hrun : Running g.stack) :
    GuardInv (g.call .noTuning).raise := by
  cases h with
  | before m =>
    have hin := GuardInv.before (m + 1)
    rw [guards_succ] at hin
    exact hin
  | @during k m i c hi hc =>
    have hin := GuardInv.during (k + 1) m hi hc
    rw [guards_succ, Nat.add_right_comm] at hin
    exact hin
  | finished m hc => exact (hrun _ _ rfl).elim
  | @after k m ids hids =>
    have hin := GuardInv.after (k + 1) m hids
    rw [tuned, guards_succ] at hin
    exact hin

/-- What ends on top is a call that the counter counts, or one from before the tuners. -/
theorem GuardInv.leave (h : GuardInv g) (htop : g.stack = .noTuning :: rest) :
    GuardInv (g.lower.back rest) := by
  cases h with
  | before m =>
    cases m with
    | zero => cases htop
    | succ m =>
      rw [guards_succ] at htop
      cases htop
      exact .before m
  | @during k m i c hi hc =>
    cases k with
    | zero => cases htop
    | succ k =>
      simp only [guards_succ, List.cons_append] at htop
      cases htop
      have hin := GuardInv.during k m hi hc
      rw [Guards.lower, if_pos (show k + 1 + (m + 2) > 0 by omega)]
      simp only [show k + 1 + (m + 2) - 1 = k + (m + 2) by omega]
      exact hin
  | finished m hc => cases htop
  | @after k m ids hids =>
    cases k with
    | succ k =>
      simp only [tuned, guards_succ, List.cons_append] at htop
      cases htop
      exact .after k m hids
    | zero =>
      -- the counter is at zero and stays there
      cases ids with
      | cons id ids => cases htop
      | nil =>
        cases m with
        | zero => cases htop
        | succ m =>
          change guards (m + 1) = .noTuning :: rest at htop
          rw [guards_succ] at htop
          cases htop
          exact .after 0 m hids

/-- On top of everything but itself, `init_tuners` has pushed the tuners below `i`. -/
theorem GuardInv.init_top (h : GuardInv g) (htop : g.stack = .initTuners i :: rest) :
    ∃ m c, i ≤ maxSzIdx ∧ c < maxSzIdx ∧ rest = .waits c :: guards m ∧
      g = ⟨true, m + 2, false, List.range i, .initTuners i :: rest, false⟩ := by
  cases h with
  | before m => cases m <;> cases htop
  | @during k m i' c hi hc =>
    cases k with
    | succ k => cases htop
    | zero =>
      cases htop
      exact ⟨m, c, hi, hc, rfl, by rw [Nat.zero_add]; rfl⟩
  | finished m hc => cases htop
  | @after k m ids hids =>
    cases k with
    | succ k => cases htop
    | zero =>
      cases ids with
      | cons id ids => cases htop
      | nil => cases m <;> cases htop

theorem GuardInv.push (h : GuardInv g) (htop : g.stack = .initTuners i :: rest)
    (hlt : i < maxSzIdx) : GuardInv (g.push i rest) := by
  obtain ⟨m, c, -, hc, rfl, rfl⟩ := h.init_top htop
  have hin := GuardInv.during 0 m (i := i + 1) hlt hc
  rw [List.range_succ, Nat.zero_add] at hin
  exact hin

theorem GuardInv.finish (h : GuardInv g) (htop : g.stack = .initTuners i :: rest)
    (hend : ¬i < maxSzIdx) : GuardInv (g.finish rest) := by
  obtain ⟨m, c, hi, hc, rfl, rfl⟩ := h.init_top htop
  obtain rfl : i = maxSzIdx := Nat.le_antisymm hi (Nat.not_lt.mp hend)
  exact .finished m hc

theorem GuardInv.waits_top (h : GuardInv g) (htop : g.stack = .waits c :: rest) :
    ∃ m, c < maxSzIdx ∧ rest = guards m ∧
      g = ⟨true, 0, true, List.range maxSzIdx, .waits c :: rest, false⟩ := by
  cases h with
  | before m => cases m <;> cases htop
  | during k m hi hc => cases k <;> cases htop
  | finished m hc =>
    cases htop
    exact ⟨m, hc, rfl, rfl⟩
  | @after k m ids hids =>
    cases k with
    | succ k => cases htop
    | zero =>
      cases ids with
      | cons id ids => cases htop
      | nil => cases m <;> cases htop

theorem GuardInv.resume (h : GuardInv g) (htop : g.stack = .waits c :: rest) :
    GuardInv (g.resume c rest) := by
  obtain ⟨m, hc, rfl, rfl⟩ := h.waits_top htop
  have hnone : ∀ id ∈ ([] : List Nat), id < maxSzIdx := fun _ hid => (List.not_mem_nil hid).elim
  exact @GuardInv.tune_after 0 m c [] hnone hc

theorem GuardInv.tuner_top (h : GuardInv g) (htop : g.stack = .tuner id :: rest) :
    ∃ m ids, (∀ i ∈ id :: ids, i < maxSzIdx) ∧ rest = tuned 0 ids m ∧
      g = ⟨true, 0, true, List.range maxSzIdx, tuned 0 (id :: ids) m, false⟩ := by
  cases h with
  | before m => cases m <;> cases htop
  | during k m hi hc => cases k <;> cases htop
  | finished m hc => cases htop
  | @after k m ids hids =>
    cases k with
    | succ k => cases htop
    | zero =>
      cases ids with
      | cons id ids =>
        cases htop
        exact ⟨m, ids, hids, rfl, rfl⟩
      | nil => cases m <;> cases htop

theorem GuardInv.done (h : GuardInv g) (htop : g.stack = .tuner id :: rest) :
    GuardInv (g.back rest) := by
  obtain ⟨m, ids, hids, rfl, rfl⟩ := h.tuner_top htop
  exact .after 0 m fun i hi => hids i (List.mem_cons_of_mem _ hi)

theorem guardStep_inv {op : GuardOp} (h : GuardInv g) (hs : GuardStep g op g') : GuardInv g' := by
  cases hs with
  | malloc _ hrun _ hc => exact h.malloc hrun hc
  | free _ hrun _ hc => exact h.free hrun hc
  | enter _ hrun => exact h.enter hrun
  | leave _ htop => exact h.leave htop
  | push _ htop hlt => exact h.push htop hlt
  | finish _ htop hend => exact h.finish htop hend
  | resume _ htop => exact h.resume htop
  | done _ htop => exact h.done htop

/-! ## Which tuner is entered, and when -/

theorem depth_tuned {k m : Nat} {ids : List Nat} (h : g.stack = tuned k ids m) :
    g.depth = ids.length := by
  have hzero : ∀ n, (guards n).countP TuneFrame.isTuner = 0 := by
    intro n
    rw [guards, List.countP_replicate]
    rfl
  have hids : (ids.map TuneFrame.tuner).countP TuneFrame.isTuner = ids.length := by
    rw [List.countP_map]
    exact List.countP_eq_length.mpr fun _ _ => rfl
  rw [Guards.depth, h, tuned, List.countP_append, List.countP_append, hzero, hzero, hids]
  omega

/-- A cached malloc or free asks for a tuner if there are tuners, and else runs none. -/
theorem GuardInv.call_cases (h : GuardInv g) (hrun : Running g.stack) (c : Nat) :
    (g.depth = 0 ∧ (g.malloc c).depth = 0 ∧ (g.free c).depth = 0) ∨
    ∃ k ids m, g = ⟨true, k, true, List.range maxSzIdx, tuned k ids m, false⟩ ∧
      g.malloc c = g.tune c ∧ g.free c = g.tune c := by
  cases h with
  | before m =>
    have hzero : (guards m).countP TuneFrame.isTuner = 0 := by
      rw [guards, List.countP_replicate]
      rfl
    exact Or.inl ⟨hzero, hzero, hzero⟩
  | @during k m i' c' hi hc' =>
    have hzero : (Guards.mk true (k + (m + 2)) false (List.range i')
        (guards k ++ .initTuners i' :: .waits c' :: guards m) false).depth = 0 := by
      simp [Guards.depth, guards, List.countP_replicate, TuneFrame.isTuner]
    refine Or.inl ⟨hzero, ?_, hzero⟩
    rw [Guards.malloc, if_pos rfl, tune_skipped (n := k + (m + 1)) rfl]
    exact hzero
  | finished m hc' => exact (hrun _ _ rfl).elim
  | @after k m ids hids => exact Or.inr ⟨k, ids, m, rfl, rfl, rfl⟩

theorem tune_enters {k m : Nat} {ids : List Nat} (hc : c < maxSzIdx)
    (hg : g = ⟨true, k, true, List.range maxSzIdx, tuned k ids m, false⟩)
    (hdeep : g.depth < (g.tune c).depth) :
    ∃ ids m, g.stack = tuned 0 ids m ∧ (g.tune c).stack = tuned 0 (c :: ids) m := by
  subst hg
  rw [tune_eq hc] at hdeep ⊢
  by_cases hk : k = 0
  · subst hk
    exact ⟨ids, m, rfl, rfl⟩
  · rw [if_neg hk] at hdeep
    exact (Nat.lt_irrefl _ hdeep).elim

theorem GuardInv.malloc_enters (h : GuardInv g) (hrun : Running g.stack) (hc : c < maxSzIdx)
    (hdeep : g.depth < (g.malloc c).depth) :
    ∃ ids m, g.stack = tuned 0 ids m ∧ (g.malloc c).stack = tuned 0 (c :: ids) m := by
  rcases h.call_cases hrun c with ⟨-, hzero, -⟩ | ⟨k, ids, m, hg, hmalloc, -⟩
  · omega
  · rw [hmalloc] at hdeep ⊢
    exact tune_enters hc hg hdeep

theorem GuardInv.free_enters (h : GuardInv g) (hrun : Running g.stack) (hc : c < maxSzIdx)
    (hdeep : g.depth < (g.free c).depth) :
    ∃ ids m, g.stack = tuned 0 ids m ∧ (g.free c).stack = tuned 0 (c :: ids) m := by
  rcases h.call_cases hrun c with ⟨-, -, hzero⟩ | ⟨k, ids, m, hg, -, hfree⟩
  · omega
  · rw [hfree] at hdeep ⊢
    exact tune_enters hc hg hdeep

theorem depth_back {f : TuneFrame} (htop : g.stack = f :: rest) :
    (g.back rest).depth ≤ g.depth := by
  rw [Guards.depth, Guards.depth, htop]
  exact (List.sublist_cons_self f rest).countP_le

theorem GuardInv.resume_stack (h : GuardInv g) (htop : g.stack = .waits c :: rest) :
    ∃ m, g.stack = .waits c :: guards m ∧ (g.resume c rest).stack = tuned 0 [c] m := by
  obtain ⟨m, hc, rfl, rfl⟩ := h.waits_top htop
  have htune := @tune_eq 0 m c [] hc
  exact ⟨m, rfl, congrArg Guards.stack htune⟩

end Steps

/-- Tuner `c` is entered: by a malloc or free of its class, or by the malloc that had the
tuners made. All calls of `no_tuning` that are open are from before there were tuners. -/
inductive EntersTuner (g : Guards) (c : Nat) (g' : Guards) : GuardOp → Prop
  | malloc {ids : List Nat} {m : Nat} : g.stack = tuned 0 ids m → g'.stack = tuned 0 (c :: ids) m →
      EntersTuner g c g' (.malloc c)
  | free {ids : List Nat} {m : Nat} : g.stack = tuned 0 ids m → g'.stack = tuned 0 (c :: ids) m →
      EntersTuner g c g' (.free c)
  | resume {m : Nat} : g.stack = .waits c :: guards m → g'.stack = tuned 0 [c] m →
      EntersTuner g c g' .resume

section Steps

variable {g g' : Guards} {op : GuardOp}

/-- **No other step enters a tuner.** -/
theorem GuardInv.enters (h : GuardInv g) (hs : GuardStep g op g') (hdeep : g.depth < g'.depth) :
    ∃ c, EntersTuner g c g' op := by
  cases hs with
  | @malloc c _ hrun _ hc =>
    obtain ⟨ids, m, hg, hg'⟩ := h.malloc_enters hrun hc hdeep
    exact ⟨c, .malloc hg hg'⟩
  | @free c _ hrun _ hc =>
    obtain ⟨ids, m, hg, hg'⟩ := h.free_enters hrun hc hdeep
    exact ⟨c, .free hg hg'⟩
  | @resume c rest _ htop =>
    obtain ⟨m, hg, hg'⟩ := h.resume_stack htop
    exact ⟨c, .resume hg hg'⟩
  | enter _ hrun => exact (Nat.lt_irrefl _ hdeep).elim
  | leave _ htop => exact (Nat.not_lt.mpr (depth_back htop) hdeep).elim
  | push _ htop hlt =>
    rw [Guards.depth, Guards.depth, htop] at hdeep
    exact (Nat.lt_irrefl _ hdeep).elim
  | finish _ htop hend => exact (Nat.not_lt.mpr (depth_back htop) hdeep).elim
  | done _ htop => exact (Nat.not_lt.mpr (depth_back htop) hdeep).elim

/-- What a step adds to the tuners, and that `init_tuners` ends once. -/
theorem guardStep_counts (h : GuardInv g) (hs : GuardStep g op g') :
    g'.apfTuners.length = g.apfTuners.length + [op].count .push ∧
      g'.apfInit.toNat = g.apfInit.toNat + [op].count .finish := by
  have htune : ∀ (g : Guards) (c : Nat),
      (g.tune c).apfTuners = g.apfTuners ∧ (g.tune c).apfInit = g.apfInit := by
    intro g c
    unfold Guards.tune
    split
    · split <;> exact ⟨rfl, rfl⟩
    · exact ⟨rfl, rfl⟩
  cases hs with
  | @malloc c _ _ _ _ =>
    unfold Guards.malloc
    split
    · rw [(htune g c).1, (htune g c).2]
      exact ⟨rfl, rfl⟩
    · dsimp only
      split
      · rw [(htune _ c).1, (htune _ c).2]
        exact ⟨rfl, rfl⟩
      · exact ⟨rfl, rfl⟩
  | @free c _ _ _ _ =>
    unfold Guards.free
    split
    · rw [(htune g c).1, (htune g c).2]
      exact ⟨rfl, rfl⟩
    · exact ⟨rfl, rfl⟩
  | enter _ _ => exact ⟨rfl, rfl⟩
  | leave _ _ => exact ⟨rfl, rfl⟩
  | push _ htop _ => exact ⟨List.length_append, rfl⟩
  | finish _ htop _ =>
    obtain ⟨m, c, -, -, rfl, rfl⟩ := h.init_top htop
    exact ⟨rfl, rfl⟩
  | resume _ htop =>
    obtain ⟨m, -, rfl, rfl⟩ := h.waits_top htop
    unfold Guards.resume
    rw [(htune _ _).1, (htune _ _).2]
    exact ⟨rfl, rfl⟩
  | done _ _ => exact ⟨rfl, rfl⟩

end Steps

/-! ## Every run -/

section Runs

variable {g g' : Guards} {ops : List GuardOp}

theorem guardRun_counts (hrun : Run GuardStep g ops g') : GuardInv g →
    g'.apfTuners.length = g.apfTuners.length + ops.count .push ∧
      g'.apfInit.toNat = g.apfInit.toNat + ops.count .finish := by
  induction hrun with
  | nil g =>
    intro _
    exact ⟨rfl, rfl⟩
  | @cons g g₁ g' op ops hs _ ih =>
    intro h
    obtain ⟨hlen, hinit⟩ := guardStep_counts h hs
    obtain ⟨hlen', hinit'⟩ := ih (guardStep_inv h hs)
    have hsplit : ∀ a, ([op] ++ ops).count a = [op].count a + ops.count a := fun a =>
      List.count_append
    rw [List.singleton_append] at hsplit
    rw [hsplit, hsplit]
    omega

theorem GuardInv.tuners_range (h : GuardInv g) :
    ∃ i, g.apfTuners = List.range i ∧ (g.apfInit = true → i = maxSzIdx) := by
  cases h with
  | before m => exact ⟨0, rfl, fun hf => by cases hf⟩
  | @during k m i c hi hc => exact ⟨i, rfl, fun hf => by cases hf⟩
  | finished m hc => exact ⟨maxSzIdx, rfl, fun _ => rfl⟩
  | after k m hids => exact ⟨maxSzIdx, rfl, fun _ => rfl⟩

theorem GuardInv.panicked (h : GuardInv g) : g.panicked = false := by
  cases h <;> rfl

theorem GuardInv.inside (h : GuardInv g) (hdeep : 0 < g.depth) :
    ∃ ids m, g.stack = tuned g.skipTuners ids m := by
  cases h with
  | before m => simp [Guards.depth, guards, List.countP_replicate, TuneFrame.isTuner] at hdeep
  | during k m hi hc =>
    simp [Guards.depth, guards, List.countP_replicate, TuneFrame.isTuner] at hdeep
  | finished m hc => simp [Guards.depth, guards, List.countP_replicate, TuneFrame.isTuner] at hdeep
  | @after k m ids hids => exact ⟨ids, m, rfl⟩

theorem GuardInv.closed (h : GuardInv g) (hstack : g.stack = []) :
    g.skipTuners = if g.apfInit then 0 else 1 := by
  cases h with
  | before m =>
    cases m with
    | zero => rfl
    | succ m => cases hstack
  | during k m hi hc => cases k <;> cases hstack
  | finished m hc => cases hstack
  | after k m hids =>
    cases k with
    | zero => rfl
    | succ k => cases hstack

/-- What holds of a thread after the steps `ops`. -/
structure Guarded (ops : List GuardOp) (g : Guards) : Prop where
  /-- every tuner that was asked for was there -/
  sound : g.panicked = false
  /-- the tuners are pushed once each, in the order of the classes -/
  tuners : g.apfTuners = List.range (ops.count .push)
  once : ops.count .finish = g.apfInit.toNat
  ready : g.apfInit = true → ops.count .push = maxSzIdx
  /-- while a tuner runs, the counter counts the innermost calls of `no_tuning`, above all
  tuners -/
  inside : 0 < g.depth → ∃ ids m, g.stack = tuned g.skipTuners ids m
  closed : g.stack = [] → g.skipTuners = if g.apfInit then 0 else 1
  enters : ∀ {op g'}, GuardStep g op g' → g.depth < g'.depth → ∃ c, EntersTuner g c g' op

/-- **The tuners are guarded**, in every run of a thread, however its calls are nested. -/
theorem tuners_guarded (hrun : Run GuardStep Guards.start ops g) : Guarded ops g := by
  have h := Run.invariant (P := GuardInv) guardStep_inv hrun guardInv_start
  obtain ⟨hlen, hinit⟩ := guardRun_counts hrun guardInv_start
  obtain ⟨i, hrange, hready⟩ := h.tuners_range
  have hi : i = ops.count .push := by
    rw [hrange, List.length_range] at hlen
    exact hlen.trans (Nat.zero_add _)
  refine ⟨h.panicked, hi ▸ hrange, ?_, fun hin => hi ▸ hready hin, h.inside, h.closed, h.enters⟩
  exact (hinit.trans (Nat.zero_add _)).symm

/-- `init_tuners` pushes what is missing. -/
theorem pushes_run (c m : Nat) : ∀ n i, i + n = maxSzIdx →
    Run GuardStep ⟨true, m, false, List.range i, .initTuners i :: .waits c :: guards 0, false⟩
      (List.replicate n .push)
      ⟨true, m, false, List.range maxSzIdx, .initTuners maxSzIdx :: .waits c :: guards 0,
        false⟩ := by
  intro n
  induction n with
  | zero =>
    intro i hi
    rw [Nat.add_zero] at hi
    subst hi
    exact .nil _
  | succ n ih =>
    intro i hi
    have hs := GuardStep.push (g := ⟨true, m, false, List.range i,
      .initTuners i :: .waits c :: guards 0, false⟩) rfl rfl (show i < maxSzIdx by omega)
    have hnext := ih (i + 1) (by omega)
    rw [List.range_succ] at hnext
    rw [List.replicate_succ]
    exact .cons hs hnext

/-- The first cached malloc of a thread makes the tuners and ends up in that of its class. -/
theorem first_malloc {c : Nat} (h1 : 1 ≤ c) (hc : c < maxSzIdx) :
    Run GuardStep Guards.start (.malloc c :: (List.replicate maxSzIdx .push ++ [.finish, .resume]))
      ⟨true, 0, true, List.range maxSzIdx, tuned 0 [c] 0, false⟩ := by
  have hmalloc := GuardStep.malloc (g := Guards.start) rfl (fun _ _ h => by cases h) h1 hc
  refine .cons hmalloc ((pushes_run c 2 maxSzIdx 0 (Nat.zero_add _)).append ?_)
  refine .cons (.finish rfl rfl (Nat.lt_irrefl _)) (.cons ?_ (.nil _))
  have hs := GuardStep.resume
    (g := ⟨true, 0, true, List.range maxSzIdx, .waits c :: guards 0, false⟩) rfl rfl
  have htune := @tune_eq 0 0 c [] hc
  rw [if_pos rfl] at htune
  exact htune ▸ hs

/-- A thread in the tuner of its first malloc. -/
theorem tuners_guarded_first : ∃ ops g, Run GuardStep Guards.start ops g ∧ g.depth = 1 ∧
    Guarded ops g :=
  have hrun := first_malloc (c := 1) (by decide) (by decide)
  ⟨_, _, hrun, rfl, tuners_guarded hrun⟩

/-! ## Tuners that call the allocator -/

/-- A tuner mallocs or frees a cached block itself, outside a `no_tuning`. -/
def Unguarded (g : Guards) (op : GuardOp) : Prop :=
  (∃ c, op = .malloc c ∨ op = .free c) ∧ ∃ id rest, g.stack = .tuner id :: rest

theorem unguarded_of_enters {op : GuardOp} {c : Nat} (he : EntersTuner g c g' op)
    (hdeep : 2 ≤ g'.depth) : Unguarded g op := by
  have htop : ∀ {ids m}, g.stack = tuned 0 ids m → g'.stack = tuned 0 (c :: ids) m →
      ∃ id rest, g.stack = .tuner id :: rest := by
    intro ids m hg hg'
    rw [depth_tuned hg'] at hdeep
    cases ids with
    | nil => exact absurd hdeep (by decide : ¬2 ≤ 1)
    | cons id ids => exact ⟨id, tuned 0 ids m, hg⟩
  cases he with
  | malloc hg hg' => exact ⟨⟨c, Or.inl rfl⟩, htop hg hg'⟩
  | free hg hg' => exact ⟨⟨c, Or.inr rfl⟩, htop hg hg'⟩
  | resume hg hg' =>
    rw [depth_tuned hg'] at hdeep
    exact absurd hdeep (by decide : ¬2 ≤ 1)

/-- Such a call runs a second tuner inside the first. -/
theorem GuardInv.reenters {op : GuardOp} (h : GuardInv g) (hs : GuardStep g op g')
    (hu : Unguarded g op) : 2 ≤ g'.depth := by
  obtain ⟨⟨c, hop⟩, id, rest, htop⟩ := hu
  obtain ⟨m, ids, hids, rfl, rfl⟩ := h.tuner_top htop
  have hdeep : ∀ {c}, c < maxSzIdx → 2 ≤ (Guards.tune c
      ⟨true, 0, true, List.range maxSzIdx, tuned 0 (id :: ids) m, false⟩).depth := by
    intro c hc
    rw [tune_eq hc, if_pos rfl, depth_tuned rfl]
    exact Nat.le_add_left 2 ids.length
  rcases hop with rfl | rfl
  · cases hs with
    | malloc _ _ _ hc => exact hdeep hc
  · cases hs with
    | free _ _ _ hc => exact hdeep hc

/-- The first state with two tuners follows such a call. -/
theorem unguarded_of_depth (hrun : Run GuardStep g ops g') : GuardInv g → g.depth ≤ 1 →
    2 ≤ g'.depth → ∃ as op bs g₁ g₂, ops = as ++ op :: bs ∧ Run GuardStep g as g₁ ∧
      GuardStep g₁ op g₂ ∧ Run GuardStep g₂ bs g' ∧ Unguarded g₁ op := by
  induction hrun with
  | nil g =>
    intro _ hle hge
    omega
  | @cons g g₁ g' op ops hs hrest ih =>
    intro h hle hge
    by_cases hdeep : 2 ≤ g₁.depth
    · obtain ⟨c, he⟩ := h.enters hs (by omega)
      exact ⟨[], op, ops, g, g₁, rfl, .nil g, hs, hrest, unguarded_of_enters he hdeep⟩
    · obtain ⟨as, op', bs, g₂, g₃, rfl, has, hs', hbs, hu⟩ :=
        ih (guardStep_inv h hs) (by omega) hge
      exact ⟨op :: as, op', bs, g₂, g₃, rfl, .cons hs has, hs', hbs, hu⟩

end Runs

/-- **A tuner is entered while another one runs exactly if a tuner calls the allocator
outside a `no_tuning`.** -/
theorem tuner_reentered_iff {ops : List GuardOp} {g : Guards}
    (hrun : Run GuardStep Guards.start ops g) :
    (∃ as bs g₁, ops = as ++ bs ∧ Run GuardStep Guards.start as g₁ ∧ Run GuardStep g₁ bs g ∧
      2 ≤ g₁.depth) ↔
    ∃ as op bs g₁ g₂, ops = as ++ op :: bs ∧ Run GuardStep Guards.start as g₁ ∧
      GuardStep g₁ op g₂ ∧ Run GuardStep g₂ bs g ∧ Unguarded g₁ op := by
  constructor
  · rintro ⟨as, bs, g₁, rfl, has, hbs, hdeep⟩
    obtain ⟨as', op, bs', g₂, g₃, rfl, has', hs, hbs', hu⟩ :=
      unguarded_of_depth has guardInv_start (by decide) hdeep
    exact ⟨as', op, bs' ++ bs, g₂, g₃, by simp, has', hs, hbs'.append hbs, hu⟩
  · rintro ⟨as, op, bs, g₁, g₂, rfl, has, hs, hbs, hu⟩
    have h := Run.invariant (P := GuardInv) guardStep_inv has guardInv_start
    exact ⟨as ++ [op], bs, g₂, by simp, has.append (.cons hs (.nil _)), hbs, h.reenters hs hu⟩

/-- The tuner of class 1 drops a map of its own, a block of class 9. -/
theorem tuner_reentered_iff_drop : ∃ ops g, Run GuardStep Guards.start ops g ∧ g.depth = 2 ∧
    ∃ as op bs g₁ g₂, ops = as ++ op :: bs ∧ Run GuardStep Guards.start as g₁ ∧
      GuardStep g₁ op g₂ ∧ Run GuardStep g₂ bs g ∧ Unguarded g₁ op := by
  have hfirst := first_malloc (c := 1) (by decide) (by decide)
  have hs := GuardStep.free (g := ⟨true, 0, true, List.range maxSzIdx, tuned 0 [1] 0, false⟩)
    (c := 9) rfl (fun _ _ h => by cases h) (by decide) (by decide)
  have hrun := hfirst.append (.cons hs (.nil _))
  refine ⟨_, _, hrun, by decide,
    (tuner_reentered_iff hrun).mp ⟨_, [], _, ?_, hrun, .nil _, by decide⟩⟩
  rw [List.append_nil]

end Apfmalloc
