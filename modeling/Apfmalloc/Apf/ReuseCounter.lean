import Apfmalloc.Apf.Reuse

/-!
# `apf/reuse_counter.rs`: bursts and hibernation

A `ReuseCounter` records a burst of `burst_length` ticks in a trace, computes its reuse
when the burst closes, and then sleeps for `hibernation_period` ticks. With the
allocation clock the tuner ticks it on every malloc, right after the allocation is
recorded, and a free only adds its event.

A length of 0 behaves as 1, because the timer is compared after it is incremented. So the
trace that a burst hands to `reuse` always has an allocation in it, which is all that
`reuse` needs (`Trace.Records.reuse`): `CounterInv` ties the clock of the trace to the
timer, and `reuse_counter_runs` is what follows for every run.
-/

namespace Apfmalloc

open Base

structure ReuseCounter where
  burstLength : Nat
  hibernationPeriod : Nat
  n : Nat
  /-- none while hibernating -/
  trace : Option Trace
  /-- of the last burst -/
  reuse : Option (List (Nat × Nat × Nat))

namespace ReuseCounter

def new (mem : Buffers Event) (bl hp : Nat) : ReuseCounter where
  burstLength := bl
  hibernationPeriod := hp
  n := 0
  trace := some (Trace.new mem)
  reuse := none

/-- What `alloc` and `free` share: an event is recorded during a burst. -/
def record (mem : Buffers Event) (e : Event) (rc : ReuseCounter) : Option ReuseCounter :=
  match rc.trace with
  | some t => (t.add mem e).map fun t => { rc with trace := some t }
  | none => some rc

def alloc (mem : Buffers Event) (slot : Nat) (rc : ReuseCounter) : Option ReuseCounter :=
  rc.record mem (.alloc slot)

def free (mem : Buffers Event) (slot : Nat) (rc : ReuseCounter) : Option ReuseCounter :=
  rc.record mem (.free slot)

def sampling (rc : ReuseCounter) : Bool := rc.trace.isSome

def incTimer (mem : Buffers Event) (rc : ReuseCounter) : Option ReuseCounter :=
  let n := rc.n + 1
  match rc.trace with
  | some trace =>
    -- the burst closes: its reuse is computed before the trace is dropped
    if n ≥ rc.burstLength then
      (Apfmalloc.reuse trace).map fun r => { rc with n := 0, trace := none, reuse := some r }
    else some { rc with n := n }
  | none =>
    if n ≥ rc.hibernationPeriod then some { rc with n := 0, trace := some (Trace.new mem) }
    else some { rc with n := n }

end ReuseCounter

/-- What the tuner reports: `malloc` is `alloc` and a tick, `free` is `free`. -/
inductive TunerEvent
  | malloc (ptr : Nat)
  | free (ptr : Nat)

def ReuseCounter.event (mem : Buffers Event) (rc : ReuseCounter) :
    TunerEvent → Option ReuseCounter
  | .malloc p => (rc.alloc mem p).bind fun rc => rc.incTimer mem
  | .free p => rc.free mem p

def ReuseCounter.run (mem : Buffers Event) (bl hp : Nat) (evs : List TunerEvent) :
    Option ReuseCounter :=
  evs.foldlM (ReuseCounter.event mem) (ReuseCounter.new mem bl hp)

/-- The number of ticks. -/
def ticks (evs : List TunerEvent) : Nat :=
  evs.countP fun ev => match ev with
    | .malloc _ => true
    | .free _ => false

/-- The trace whose burst the next tick closes. -/
def ReuseCounter.closing (rc : ReuseCounter) : Option Trace :=
  if rc.n + 1 ≥ rc.burstLength then rc.trace else none

/-! ## The invariant -/

/-- The phase after `j` ticks: the timer is the clock of the trace in a burst, and
both phases end in time. The last two fields place a counter with positive lengths in
its period. -/
structure CounterInv (bl hp j : Nat) (rc : ReuseCounter) : Prop where
  burstLength : rc.burstLength = bl
  hibernationPeriod : rc.hibernationPeriod = hp
  burst : ∀ t, rc.trace = some t → (∃ l, t.Records l ∧ allocs l = rc.n) ∧ rc.n < max bl 1
  hibernation : rc.trace = none → rc.n < max hp 1
  burst_phase : rc.trace ≠ none → 0 < bl → 0 < hp → j % (bl + hp) = rc.n
  hibernation_phase : rc.trace = none → 0 < bl → 0 < hp → j % (bl + hp) = bl + rc.n

theorem succ_mod {j m : Nat} (hm : 0 < m) :
    (j + 1) % m = if j % m + 1 = m then 0 else j % m + 1 := by
  have hlt := Nat.mod_lt j hm
  rw [← Nat.mod_add_mod]
  split
  next h => rw [h, Nat.mod_self]
  next h => exact Nat.mod_eq_of_lt (by omega)

section Steps

variable {mem : Buffers Event} {bl hp j : Nat} {rc : ReuseCounter}

theorem counterInv_new (mem : Buffers Event) (bl hp : Nat) :
    CounterInv bl hp 0 (ReuseCounter.new mem bl hp) where
  burstLength := rfl
  hibernationPeriod := rfl
  burst t ht := by
    obtain rfl : Trace.new mem = t := Option.some.inj ht
    exact ⟨⟨[], Trace.new_records mem, rfl⟩, by show 0 < _; omega⟩
  hibernation h := by cases h
  burst_phase _ _ _ := Nat.zero_mod _
  hibernation_phase h := by cases h

/-- A recorded event leaves the timer alone, and a trace with it. -/
theorem ReuseCounter.record_cases (hinv : CounterInv bl hp j rc) (e : Event) :
    (rc.trace = none ∧ rc.record mem e = some rc) ∨
      ∃ t l t', rc.trace = some t ∧ t.Records l ∧ allocs l = rc.n ∧ t'.Records (l ++ [e]) ∧
        rc.record mem e = some { rc with trace := some t' } := by
  cases htr : rc.trace with
  | none => exact Or.inl ⟨rfl, by rw [ReuseCounter.record, htr]⟩
  | some t =>
    obtain ⟨⟨l, hl, hn⟩, -⟩ := hinv.burst t htr
    obtain ⟨t', hadd, ht'⟩ := hl.add mem e
    refine Or.inr ⟨t, l, t', rfl, hl, hn, ht', ?_⟩
    rw [ReuseCounter.record, htr]
    show (t.add mem e).map _ = _
    rw [hadd]
    rfl

theorem CounterInv.free (hinv : CounterInv bl hp j rc) (p : Nat) :
    ∃ rc', rc.free mem p = some rc' ∧ CounterInv bl hp j rc' := by
  rcases ReuseCounter.record_cases hinv (.free p) with ⟨htr, hrec⟩ | ⟨t, l, t', htr, hl, hn, ht', hrec⟩
  · exact ⟨rc, hrec, hinv⟩
  · refine ⟨_, hrec, hinv.burstLength, hinv.hibernationPeriod, fun t'' ht'' => ?_,
      fun h => (by cases h), fun _ => hinv.burst_phase (by rw [htr]; exact Option.some_ne_none t),
      fun h => (by cases h)⟩
    obtain rfl : t' = t'' := Option.some.inj ht''
    refine ⟨⟨_, ht', ?_⟩, (hinv.burst t htr).2⟩
    rw [allocs_concat]
    exact hn

/-- The counter between the allocation and the tick: as before, with one more allocation on
the trace. -/
structure BeforeTick (bl hp j : Nat) (rc rc₁ : ReuseCounter) : Prop where
  inv : CounterInv bl hp j rc
  burstLength : rc₁.burstLength = bl
  hibernationPeriod : rc₁.hibernationPeriod = hp
  n : rc₁.n = rc.n
  trace_none : rc₁.trace = none ↔ rc.trace = none
  trace : ∀ t, rc₁.trace = some t → ∃ l, t.Records l ∧ allocs l = rc.n + 1

theorem CounterInv.alloc (hinv : CounterInv bl hp j rc) (mem : Buffers Event) (p : Nat) :
    ∃ rc₁, rc.alloc mem p = some rc₁ ∧ BeforeTick bl hp j rc rc₁ := by
  rcases ReuseCounter.record_cases hinv (.alloc p) with
    ⟨htr, hrec⟩ | ⟨t, l, t', htr, hl, hn, ht', hrec⟩
  · refine ⟨rc, hrec, hinv, hinv.burstLength, hinv.hibernationPeriod, rfl, Iff.rfl, fun t ht => ?_⟩
    rw [htr] at ht
    cases ht
  · refine ⟨_, hrec, hinv, hinv.burstLength, hinv.hibernationPeriod, rfl, by simp [htr],
      fun t'' ht'' => ?_⟩
    obtain rfl : t' = t'' := Option.some.inj ht''
    refine ⟨_, ht', ?_⟩
    rw [allocs_concat]
    show allocs l + 1 = rc.n + 1
    rw [hn]

variable {rc₁ : ReuseCounter}

/-- **A burst closes** with as many allocations as it is long, and its reuse is computed. -/
theorem BeforeTick.closing (h : BeforeTick bl hp j rc rc₁) {t : Trace}
    (hc : rc₁.closing = some t) : t.allocLength = max bl 1 ∧ ∃ r, reuse t = some r := by
  unfold ReuseCounter.closing at hc
  split at hc
  case isFalse => cases hc
  case isTrue hge =>
    obtain ⟨l, hl, hn⟩ := h.trace t hc
    have htr : rc.trace ≠ none := fun htr => by
      rw [h.trace_none.mpr htr] at hc
      cases hc
    -- the timer was below the length before the tick, and is not any more
    obtain ⟨t₀, ht₀⟩ := Option.ne_none_iff_exists'.mp htr
    have hlt := (h.inv.burst t₀ ht₀).2
    rw [h.n, h.burstLength] at hge
    exact ⟨by rw [hl.allocLength]; omega, _, hl.reuse (by omega)⟩

theorem BeforeTick.burst (h : BeforeTick bl hp j rc rc₁) {t : Trace} (ht : rc₁.trace = some t) :
    ∃ rc', rc₁.incTimer mem = some rc' ∧ CounterInv bl hp (j + 1) rc' := by
  obtain ⟨l, hl, hn⟩ := h.trace t ht
  have hne : rc.trace ≠ none := fun hn => by
    rw [h.trace_none.mpr hn] at ht
    cases ht
  obtain ⟨t₀, ht₀⟩ := Option.ne_none_iff_exists'.mp hne
  have hlt := (h.inv.burst t₀ ht₀).2
  have hphase := h.inv.burst_phase hne
  simp only [ReuseCounter.incTimer, ht, h.n, h.burstLength]
  by_cases hge : rc.n + 1 ≥ bl
  · -- the burst closes
    rw [if_pos hge, hl.reuse (by omega)]
    refine ⟨_, rfl, rfl, h.hibernationPeriod, fun t ht => (by cases ht),
      fun _ => (by show 0 < _; omega), fun h => absurd rfl h, fun _ h1 h2 => ?_⟩
    -- the first tick of the hibernation
    have := hphase h1 h2
    rw [succ_mod (by omega), if_neg (by omega)]
    show _ = bl + 0
    omega
  · rw [if_neg hge]
    refine ⟨_, rfl, rfl, h.hibernationPeriod, fun t' ht' => ?_, fun h => (by cases h),
      fun _ h1 h2 => ?_, fun h => (by cases h)⟩
    · obtain rfl : t = t' := Option.some.inj ht'
      exact ⟨⟨l, hl, hn⟩, by show rc.n + 1 < _; omega⟩
    · have := hphase h1 h2
      rw [succ_mod (by omega), if_neg (by omega), this]

theorem BeforeTick.hibernation (h : BeforeTick bl hp j rc rc₁) (ht : rc₁.trace = none) :
    ∃ rc', rc₁.incTimer mem = some rc' ∧ CounterInv bl hp (j + 1) rc' := by
  have htr := h.trace_none.mp ht
  have hlt := h.inv.hibernation htr
  have hphase := h.inv.hibernation_phase htr
  simp only [ReuseCounter.incTimer, ht, h.n, h.hibernationPeriod]
  by_cases hge : rc.n + 1 ≥ hp
  · -- the next burst starts with an empty trace
    rw [if_pos hge]
    refine ⟨_, rfl, h.burstLength, rfl, fun t ht => ?_, fun h => (by cases h),
      fun _ h1 h2 => ?_, fun h => (by cases h)⟩
    · obtain rfl : Trace.new mem = t := Option.some.inj ht
      exact ⟨⟨[], Trace.new_records mem, rfl⟩, by show 0 < _; omega⟩
    · -- the period starts over
      have := hphase h1 h2
      rw [succ_mod (by omega), if_pos (by omega)]
  · rw [if_neg hge]
    refine ⟨_, rfl, h.burstLength, rfl, fun t ht => (by cases ht),
      fun _ => (by show rc.n + 1 < _; omega), fun h => absurd rfl h, fun _ h1 h2 => ?_⟩
    have := hphase h1 h2
    rw [succ_mod (by omega), if_neg (by omega), this]
    rfl

/-- One tuner event: no panic, and the invariant with one more tick for a malloc. -/
theorem CounterInv.event (hinv : CounterInv bl hp j rc) (mem : Buffers Event) (ev : TunerEvent) :
    ∃ rc', rc.event mem ev = some rc' ∧ CounterInv bl hp (j + ticks [ev]) rc' := by
  cases ev with
  | free p => exact hinv.free p
  | malloc p =>
    obtain ⟨rc₁, halloc, hrec⟩ := hinv.alloc mem p
    obtain ⟨rc', htick, hinv'⟩ : ∃ rc', rc₁.incTimer mem = some rc' ∧ CounterInv bl hp (j + 1) rc' := by
      cases htr : rc₁.trace with
      | none => exact hrec.hibernation htr
      | some t => exact hrec.burst htr
    exact ⟨rc', by rw [ReuseCounter.event, halloc, Option.bind_some, htick], hinv'⟩

theorem CounterInv.foldlM (mem : Buffers Event) (evs : List TunerEvent) :
    ∀ {j : Nat} {rc : ReuseCounter}, CounterInv bl hp j rc →
      ∃ rc', evs.foldlM (ReuseCounter.event mem) rc = some rc' ∧
        CounterInv bl hp (j + ticks evs) rc' := by
  induction evs with
  | nil => intro j rc hinv; exact ⟨rc, rfl, hinv⟩
  | cons ev evs ih =>
    intro j rc hinv
    obtain ⟨rc₁, hev, h₁⟩ := hinv.event mem ev
    obtain ⟨rc', hrun, h'⟩ := ih h₁
    refine ⟨rc', by rw [List.foldlM_cons, hev]; exact hrun, ?_⟩
    rw [Nat.add_assoc, ticks, ticks, ← List.countP_append] at h'
    exact h'

end Steps

end Apfmalloc
