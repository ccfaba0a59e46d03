import Apfmalloc.Apf.ReuseCounter
import Apfmalloc.RetDrop

/-!
# `apf/mod.rs`: the tuner of a size class

A tuner sees the mallocs and frees of one class on one thread. When a malloc has taken the
last block of the bin it fetches as many as it expects the thread to need until the next
fetch is due, its demand; when a free finds more than twice the demand in the bin, `ret`
takes some away. `ret` asserts that it is not asked for more than there is, and the guard
that decides and the number that is asked for are computed in different places.
`tuner_returns_held` says that they agree: for a demand of at least zero, `2 * d + 1 ≤ c`
leaves room for `⌈d⌉ + 1`.

The demand is an `f32` in the source and a rational here. `USE_ALLOCATION_CLOCK` is a
constant that is set, so the liveness counter is neither ticked nor read. An assertion that
fails, an overflow and a bin that is empty are `none`.
-/

namespace Apfmalloc

open Base

/-- `TARGET_APF` and the lengths of the reuse counter, and where its buffers come from. -/
structure TunerCfg where
  targetApf : Nat
  burstLength : Nat
  hibernationPeriod : Nat
  buffers : Buffers Event

structure ApfTuner where
  id : Nat
  rCounter : ReuseCounter
  time : Nat
  fetchCount : Nat
  record : Option (List (Nat × Nat))

/-- `reuse(k)`; a length that the burst has no entry for has no reuse. -/
def ReuseCounter.reuseAt (k : Nat) (rc : ReuseCounter) : Option Rat :=
  match rc.reuse with
  | some reuse =>
    match reuse.lookup k with
    | some (num, den) => some (num / den)
    | none => some 0
  | none => none

/-- The number of blocks in the bin. -/
def check (t c : Nat) (s : State) : Nat := (s.threadCache t c).blockNum

/-- `x.ceil() as u32` and `x.ceil() as usize`; the casts saturate. -/
def ceilU32 (x : Rat) : Nat := min x.ceil.toNat (u32Size - 1)
def ceilUsize (x : Rat) : Nat := min x.ceil.toNat (usizeSize - 1)

/-- What `free` does with its demand: `ret` gets `ceil + 1`, a `u32`. -/
def giveBack (cfg : Cfg) (t c : Nat) (d : Option Rat) (s : State) : Option (Bool × State) :=
  match d with
  | none => some (false, s)
  | some demand =>
    if demand < 0 then some (false, s)
    -- too many free blocks
    else if (check t c s : Rat) ≥ 2 * demand + 1 then
      let ceil := ceilU32 demand
      if ceil + 1 < u32Size then (ret cfg t c (ceil + 1) s).map fun s => (true, s) else none
    else some (true, s)

namespace ApfTuner

def new (tc : TunerCfg) (id : Nat) (useRecord : Bool) : ApfTuner where
  id := id
  rCounter := ReuseCounter.new tc.buffers tc.burstLength tc.hibernationPeriod
  time := 0
  fetchCount := 0
  record := if useRecord then some [] else none

def calculateDapf (tc : TunerCfg) (T : ApfTuner) : Nat :=
  if T.time ≥ tc.targetApf * (T.fetchCount + 1) then tc.targetApf
  else tc.targetApf * (T.fetchCount + 1) - T.time

/-- Average demand in windows of length `k`. -/
def demand (k : Nat) (T : ApfTuner) : Option Rat :=
  if k > T.time then none
  else (T.rCounter.reuseAt k).map fun r => (k : Rat) - r

def malloc (tc : TunerCfg) (cfg : Cfg) (os : Os) (t ptr : Nat) (T : ApfTuner) (s : State) :
    Option (Bool × ApfTuner × State) := do
  let T := { T with time := T.time + 1 }
  let rCounter ← T.rCounter.alloc tc.buffers ptr
  let rCounter ← rCounter.incTimer tc.buffers
  let T := { T with rCounter := rCounter }
  if check t T.id s = 0 then
    let dapf := T.calculateDapf tc
    match T.demand dapf with
    | none => some (false, T, s)
    | some d => do
      let T := { T with record := T.record.map fun rec => rec ++ [(T.time, dapf)] }
      let s ← fetch cfg os t T.id (ceilUsize d) s
      some (true, { T with fetchCount := T.fetchCount + 1 }, s)
  else some (true, T, s)

def free (tc : TunerCfg) (cfg : Cfg) (t ptr : Nat) (T : ApfTuner) (s : State) :
    Option (Bool × ApfTuner × State) := do
  let rCounter ← T.rCounter.free tc.buffers ptr
  let T := { T with rCounter := rCounter }
  let (known, s) ← giveBack cfg t T.id (T.demand (T.calculateDapf tc)) s
  some (known, T, s)

end ApfTuner

/-! ## The bin -/

section
variable {noMet : Bool} {m : Mem} {bin bin' : ThreadCacheBin}

theorem popBlock_blockNum {x : Nat} (h : bin.popBlock noMet m = some (x, bin')) :
    bin.blockNum ≤ bin'.blockNum + 1 := by
  unfold ThreadCacheBin.popBlock at h
  grind

/-- Pops take one block each, whatever the bin. -/
theorem popBlocks_blockNum : ∀ (n : Nat) {bin bin' : ThreadCacheBin},
    popBlocks noMet m n bin = some bin' → bin.blockNum ≤ bin'.blockNum + n := by
  intro n
  induction n with
  | zero =>
    intro bin bin' h
    cases h
    exact Nat.le_refl _
  | succ n ih =>
    intro bin bin' h
    simp only [popBlocks, Option.bind_eq_bind, Option.bind_eq_some_iff, Prod.exists] at h
    obtain ⟨x, bin₁, hpop, h⟩ := h
    have h₁ := popBlock_blockNum hpop
    have h₂ := ih h
    omega

/-- From a bin in order they all succeed. -/
theorem Holds.popBlocks : ∀ (n : Nat) {bin : ThreadCacheBin} {l : List Nat},
    Holds noMet m bin l → (∀ x ∈ l, x ≠ 0) → n ≤ l.length →
      ∃ bin', Apfmalloc.popBlocks noMet m n bin = some bin' ∧ Holds noMet m bin' (l.drop n) := by
  intro n
  induction n with
  | zero =>
    intro bin l h _ _
    exact ⟨bin, rfl, h⟩
  | succ n ih =>
    intro bin l h hne hn
    cases l with
    | nil => cases hn
    | cons x l =>
      obtain ⟨bin₁, hpop, h₁, -⟩ := h.popBlock (hne x (List.mem_cons_self ..))
      obtain ⟨bin', hpops, h'⟩ := ih h₁ (fun y hy => hne y (List.mem_cons_of_mem _ hy))
        (Nat.le_of_succ_le_succ hn)
      refine ⟨bin', ?_, h'⟩
      rw [Apfmalloc.popBlocks, hpop]
      exact hpops

end

/-! ## What is given back -/

/-- The guard in integers. -/
theorem ceil_add_one_le {d : Rat} {c : Nat} (hd : 0 ≤ d) (hguard : (c : Rat) ≥ 2 * d + 1) :
    0 ≤ d.ceil ∧ d.ceil + 1 ≤ c := by
  have hlow : ¬d.ceil ≤ -1 := by
    rw [Rat.ceil_le_iff]
    grind
  have hhigh : d.ceil ≤ (c : Int) - 1 := by
    rw [Rat.ceil_le_iff, Rat.intCast_sub, Rat.intCast_natCast]
    grind
  omega

/-- The `u32` that is asked for is not cut off. -/
theorem ceilU32_eq {d : Rat} {c : Nat} (hd : 0 ≤ d) (hguard : (c : Rat) ≥ 2 * d + 1)
    (hc : c < u32Size) : (ceilU32 d : Int) = d.ceil ∧ ceilU32 d + 1 ≤ c := by
  obtain ⟨hlow, hhigh⟩ := ceil_add_one_le hd hguard
  unfold ceilU32
  omega

section
variable {cfg : Cfg} {t c : Nat} {s : State} {d : Rat}

/-- Above the guard it is a call of `ret`, -/
theorem giveBack_above (hd : 0 ≤ d) (hguard : (check t c s : Rat) ≥ 2 * d + 1)
    (hu : check t c s < u32Size) :
    giveBack cfg t c (some d) s =
      (ret cfg t c (ceilU32 d + 1) s).map fun s => (true, s) := by
  have hle := (ceilU32_eq hd hguard hu).2
  rw [giveBack]
  simp only [Rat.not_lt.mpr hd, hguard, if_true, if_false]
  rw [if_pos (Nat.lt_of_le_of_lt hle hu)]

/-- and below it, or without a demand, nothing. -/
theorem giveBack_below (cfg : Cfg) {known : Option Rat}
    (h : ∀ d, known = some d → 0 ≤ d → ¬(check t c s : Rat) ≥ 2 * d + 1) :
    ∃ b, giveBack cfg t c known s = some (b, s) := by
  cases known with
  | none => exact ⟨false, rfl⟩
  | some d =>
    rw [giveBack]
    by_cases hneg : d < 0
    · exact ⟨false, if_pos hneg⟩
    · refine ⟨true, ?_⟩
      simp only
      rw [if_neg hneg, if_neg (h d rfl (Rat.not_lt.mp hneg))]

/-- **What `free` gives back is there.** For a demand of at least zero, whenever the bin
passes the guard, `ret` is asked for `⌈d⌉ + 1` blocks and the bin has them: the assertion
holds, none of the pops finds the bin empty, and from a bin in order, with that many blocks
that are not null, the call returns and takes the top ones. The count of a bin is a
`u32`. -/
theorem tuner_returns_held (hd : 0 ≤ d) (hguard : (check t c s : Rat) ≥ 2 * d + 1)
    (hu : check t c s < u32Size) :
    ((ceilU32 d + 1 : Nat) : Int) = d.ceil + 1 ∧ ceilU32 d + 1 ≤ (s.threadCache t c).blockNum ∧
    giveBack cfg t c (some d) s = (ret cfg t c (ceilU32 d + 1) s).map (fun s => (true, s)) ∧
    (∀ j < ceilU32 d + 1, ∀ bin, popBlocks cfg.noMetStack s.mem j (s.threadCache t c) = some bin →
      bin.blockNum ≠ 0) ∧
    ∀ l, Holds cfg.noMetStack s.mem (s.threadCache t c) l → (∀ x ∈ l, x ≠ 0) →
      ∃ bin, ret cfg t c (ceilU32 d + 1) s = some (s.setBin t c bin) ∧
        Holds cfg.noMetStack s.mem bin (l.drop (ceilU32 d + 1)) := by
  obtain ⟨heq, hle⟩ := ceilU32_eq hd hguard hu
  unfold check at hle
  refine ⟨by omega, hle, giveBack_above hd hguard hu, fun j hj bin hpops => ?_, fun l hl hne => ?_⟩
  · have hnum := popBlocks_blockNum j hpops
    omega
  · obtain ⟨bin, hpops, hbin⟩ := hl.popBlocks _ hne (hl.num ▸ hle)
    refine ⟨bin, ?_, hbin⟩
    rw [ret, if_neg (Nat.not_lt.mpr hle), hpops]
    rfl

/-- Two blocks and a demand of one half: both are taken. -/
theorem tuner_returns_held_half :
    ∃ bin, ret Cfg.default 0 1 2 (startState.setBin 0 1 ⟨4096, 2, some 8⟩) =
        some ((startState.setBin 0 1 ⟨4096, 2, some 8⟩).setBin 0 1 bin) ∧
      Holds false startState.mem bin [] := by
  have hceil : ceilU32 (1 / 2) + 1 = 2 := by decide +kernel
  obtain ⟨-, -, -, -, hret⟩ := @tuner_returns_held Cfg.default 0 1
    (startState.setBin 0 1 ⟨4096, 2, some 8⟩) (1 / 2) (by decide +kernel) (by decide +kernel)
    (by decide +kernel)
  rw [hceil] at hret
  exact hret [4096, 4104] ⟨rfl, 4112, by decide +kernel⟩ (by decide)

end

/-! ## The life of a tuner -/

namespace ApfTuner

/-- A tuner after mallocs and frees that returned, in whatever states. -/
inductive Reach (tc : TunerCfg) : ApfTuner → Prop
  | new (id : Nat) (useRecord : Bool) : Reach tc (new tc id useRecord)
  | malloc {cfg : Cfg} {os : Os} {t ptr : Nat} {b : Bool} {T T' : ApfTuner} {s s' : State} :
      Reach tc T → T.malloc tc cfg os t ptr s = some (b, T', s') → Reach tc T'
  | free {cfg : Cfg} {t ptr : Nat} {b : Bool} {T T' : ApfTuner} {s s' : State} :
      Reach tc T → T.free tc cfg t ptr s = some (b, T', s') → Reach tc T'

section
variable {tc : TunerCfg} {cfg : Cfg} {os : Os} {t ptr : Nat} {b : Bool} {T T' : ApfTuner}
  {s s' : State}

/-- The counter of the tuner is in a burst or hibernates. -/
def Counts (tc : TunerCfg) (T : ApfTuner) : Prop :=
  ∃ j, CounterInv tc.burstLength tc.hibernationPeriod j T.rCounter

theorem malloc_counts (h : T.Counts tc) (hrun : T.malloc tc cfg os t ptr s = some (b, T', s')) :
    T'.Counts tc := by
  obtain ⟨j, hj⟩ := h
  obtain ⟨rc, hev, hrc⟩ := hj.event tc.buffers (.malloc ptr)
  rw [ReuseCounter.event, Option.bind_eq_some_iff] at hev
  obtain ⟨rc₁, halloc, htick⟩ := hev
  simp only [malloc, halloc, htick, Option.bind_eq_bind, Option.bind_some] at hrun
  -- whether it fetches or not, the counter is the one that has ticked
  have heq : T'.rCounter = rc := by
    split at hrun
    · split at hrun
      · cases hrun
        rfl
      · obtain ⟨s₁, -, hrun⟩ := Option.bind_eq_some_iff.mp hrun
        cases hrun
        rfl
    · cases hrun
      rfl
  exact ⟨_, heq ▸ hrc⟩

/-- A free is its event for the counter, then `giveBack` with some demand. -/
theorem free_cases (h : T.Counts tc) (cfg : Cfg) (t ptr : Nat) :
    ∃ T' known, T'.Counts tc ∧ ∀ s, T.free tc cfg t ptr s =
      (giveBack cfg t T.id known s).map fun r => (r.1, T', r.2) := by
  obtain ⟨j, hj⟩ := h
  obtain ⟨rc, hfree, hrc⟩ := hj.event tc.buffers (.free ptr)
  change T.rCounter.free tc.buffers ptr = some rc at hfree
  refine ⟨{ T with rCounter := rc }, demand (calculateDapf tc T) { T with rCounter := rc },
    ⟨_, hrc⟩, fun s => ?_⟩
  rw [free, hfree, Option.map_eq_bind]
  rfl

theorem Reach.counts (h : Reach tc T) : T.Counts tc := by
  induction h with
  | new id useRecord => exact ⟨0, counterInv_new ..⟩
  | malloc _ hrun ih => exact malloc_counts ih hrun
  | @free cfg t ptr b T T' s s' _ hrun ih =>
    obtain ⟨T₁, known, hcounts, hfree⟩ := free_cases ih cfg t ptr
    rw [hfree] at hrun
    obtain ⟨r, -, hr⟩ := Option.map_eq_some_iff.mp hrun
    cases hr
    exact hcounts

end

end ApfTuner

/-- **A free that the tuner sees returns**, whatever mallocs and frees it has seen before:
the state is the one before, or the one after a `ret` of blocks that the bin has. -/
theorem ApfTuner.free_returns {tc : TunerCfg} {cfg : Cfg} {t ptr : Nat} {T : ApfTuner} {s : State}
    {H : Heap} {live : List Live} (hT : Reach tc T) (h : RunInv cfg s H live)
    (hu : check t T.id s < u32Size) :
    ∃ b T' s', T.free tc cfg t ptr s = some (b, T', s') ∧ Reach tc T' ∧
      (s' = s ∨ ∃ count live', TunedStep cfg (s, live) (.ret t T.id count) (s', live') ∧
        ∃ H', RunInv cfg s' H' live') := by
  obtain ⟨T', known, -, hfree⟩ := free_cases hT.counts cfg t ptr
  suffices hgive : ∃ b s', giveBack cfg t T.id known s = some (b, s') ∧
      (s' = s ∨ ∃ count live', TunedStep cfg (s, live) (.ret t T.id count) (s', live') ∧
        ∃ H', RunInv cfg s' H' live') by
    obtain ⟨b, s', hgive, hs'⟩ := hgive
    have hrun : T.free tc cfg t ptr s = some (b, T', s') := by
      rw [hfree, hgive]
      rfl
    exact ⟨b, T', s', hrun, hT.free hrun, hs'⟩
  by_cases hguard : ∃ d, known = some d ∧ 0 ≤ d ∧ (check t T.id s : Rat) ≥ 2 * d + 1
  · obtain ⟨d, rfl, hd, hguard⟩ := hguard
    obtain ⟨bin, H', hret, h'⟩ := h.ret (ceilU32_eq hd hguard hu).2
    refine ⟨true, s.setBin t T.id bin, ?_, .inr ⟨_, _, .ret (h.heap.block.holds t T.id) hret, H', h'⟩⟩
    rw [giveBack_above hd hguard hu, hret]
    rfl
  · obtain ⟨b, hgive⟩ := giveBack_below cfg
      fun d hk hd hge => hguard ⟨d, hk, hd, hge⟩
    exact ⟨b, s, hgive, .inl rfl⟩

end Apfmalloc
