import Apfmalloc.Apf.Tuner

/-!
# How often a tuner fetches

`TARGET_APF` is the number of allocations a tuner wants per fetch. `calculate_dapf` is the
window of the next fetch: up to the allocation where the one after it is due,
`TARGET_APF * (fetch_count + 1)`, or a whole target if that one has passed. The demand for a
window longer than the time so far is not known, and then the tuner does not fetch. Nothing
else limits it: a bin that is empty again is filled again, and when that happens is up to
the program.

The two together are a limit all the same, in every run of a thread and whatever else
happens to its bin: at a fetch the window ends at its turn at the earliest and is no longer
than the past, so half of its turn has passed. There are never more than two fetches per
`TARGET_APF` allocations, counted from the start; and if each fetch lasts for its window,
never more than one. That is `fetches_spaced`.
-/

namespace Apfmalloc

open Base

/-! ## A thread and the tuner of a class -/

/-- What the thread does with the class. `other` is everything else: other classes, other
threads, writes of clients. -/
inductive ThreadOp
  | malloc (ptr : Nat)
  | free (ptr : Nat)
  | other

/-- `allocate_to_cache` pops first and then tells the tuner, `do_free` tells the tuner and
then pushes. The kernel answers each call afresh. -/
inductive ThreadStep (tc : TunerCfg) (cfg : Cfg) (t : Nat) :
    ApfTuner × State → ThreadOp → ApfTuner × State → Prop
  | malloc {T T' : ApfTuner} {s s₁ s' : State} {os os' : Os} {size ptr : Nat} {b : Bool} :
      allocateToCache cfg os none t size T.id s = some (ptr, s₁) →
      T.malloc tc cfg os' t ptr s₁ = some (b, T', s') →
      ThreadStep tc cfg t (T, s) (.malloc ptr) (T', s')
  | free {T T' : ApfTuner} {s s₁ s' : State} {ptr : Nat} {b : Bool} :
      T.free tc cfg t ptr s = some (b, T', s₁) → freeSmall cfg none t T.id ptr s₁ = some s' →
      ThreadStep tc cfg t (T, s) (.free ptr) (T', s')
  | other {T : ApfTuner} {s s' : State} : ThreadStep tc cfg t (T, s) .other (T, s')

/-- The number of allocations. -/
def mallocs (ops : List ThreadOp) : Nat :=
  ops.countP fun op => match op with
    | .malloc _ => true
    | _ => false

theorem mallocs_malloc (ptr : Nat) (ops : List ThreadOp) :
    mallocs (.malloc ptr :: ops) = mallocs ops + 1 := List.countP_cons_of_pos rfl

theorem mallocs_free (ptr : Nat) (ops : List ThreadOp) :
    mallocs (.free ptr :: ops) = mallocs ops := List.countP_cons_of_neg (by simp)

theorem mallocs_other (ops : List ThreadOp) : mallocs (.other :: ops) = mallocs ops :=
  List.countP_cons_of_neg (by simp)

/-! ## One call -/

section Calls

variable {tc : TunerCfg} {cfg : Cfg} {os : Os} {t ptr : Nat} {b : Bool} {T T' : ApfTuner}
  {s s' : State}

/-- Where the window of a fetch ends. -/
theorem ApfTuner.dapf_ends (tc : TunerCfg) (T : ApfTuner) :
    tc.targetApf * (T.fetchCount + 1) ≤ T.time + T.calculateDapf tc := by
  unfold ApfTuner.calculateDapf
  split <;> omega

/-- A demand is known for windows that are over. -/
theorem ApfTuner.le_time_of_demand {k : Nat} {d : Rat} (h : T.demand k = some d) :
    k ≤ T.time := by
  unfold ApfTuner.demand at h
  split at h
  next => cases h
  next hk => exact Nat.not_lt.mp hk

/-- What a malloc does to the schedule: it counts, and it may fetch. -/
inductive Ticks (tc : TunerCfg) (T T' : ApfTuner) : Prop
  | quiet : T'.fetchCount = T.fetchCount → T'.record = T.record → Ticks tc T T'
  | fetched {k : Nat} : k ≤ T.time + 1 →
      tc.targetApf * (T.fetchCount + 1) ≤ T.time + 1 + k → T'.fetchCount = T.fetchCount + 1 →
      T'.record = T.record.map (fun log => log ++ [(T.time + 1, k)]) → Ticks tc T T'

theorem ApfTuner.malloc_ticks (hrun : T.malloc tc cfg os t ptr s = some (b, T', s')) :
    T'.time = T.time + 1 ∧ Ticks tc T T' := by
  simp only [ApfTuner.malloc, Option.bind_eq_bind, Option.bind_eq_some_iff] at hrun
  obtain ⟨rc₁, -, rc₂, -, hrun⟩ := hrun
  split at hrun
  next =>
    split at hrun
    next =>
      cases hrun
      exact ⟨rfl, .quiet rfl rfl⟩
    next d hd =>
      obtain ⟨s₁, -, hrun⟩ := Option.bind_eq_some_iff.mp hrun
      cases hrun
      refine ⟨rfl, .fetched (ApfTuner.le_time_of_demand hd) ?_ rfl rfl⟩
      exact ApfTuner.dapf_ends tc { T with time := T.time + 1, rCounter := rc₂ }
  next =>
    cases hrun
    exact ⟨rfl, .quiet rfl rfl⟩

/-- A free is no part of the schedule. -/
theorem ApfTuner.free_same (hrun : T.free tc cfg t ptr s = some (b, T', s')) :
    T'.time = T.time ∧ T'.fetchCount = T.fetchCount ∧ T'.record = T.record := by
  simp only [ApfTuner.free, Option.bind_eq_bind, Option.bind_eq_some_iff, Prod.exists] at hrun
  obtain ⟨rc, -, known, s₁, -, hrun⟩ := hrun
  cases hrun
  exact ⟨rfl, rfl, rfl⟩

end Calls

/-! ## The schedule -/

/-- The fetches at the times of `log`, each with its window, seen at `time`. -/
structure Scheduled (target time : Nat) (log : List (Nat × Nat)) : Prop where
  past : ∀ p ∈ log, p.2 ≤ p.1 ∧ p.1 ≤ time
  turn : ∀ {i p}, log[i]? = some p → target * (i + 1) ≤ p.1 + p.2
  sorted : log.Pairwise fun p q => p.1 < q.1

/-- No fetch before the window of the one before it is over. -/
def Lasts (log : List (Nat × Nat)) : Prop :=
  ∀ {i p q}, log[i]? = some p → log[i + 1]? = some q → p.1 + p.2 ≤ q.1

section Schedule

variable {target time k : Nat} {log : List (Nat × Nat)}

theorem Scheduled.later (h : Scheduled target time log) :
    Scheduled target (time + 1) log :=
  ⟨fun p hp => ⟨(h.past p hp).1, Nat.le_succ_of_le (h.past p hp).2⟩, h.turn, h.sorted⟩

/-- One more fetch, at a time when no other was. -/
theorem Scheduled.fetch (h : Scheduled target time log) (hk : k ≤ time + 1)
    (hturn : target * (log.length + 1) ≤ time + 1 + k) :
    Scheduled target (time + 1) (log ++ [(time + 1, k)]) := by
  refine ⟨fun p hp => ?_, fun {i p} hp => ?_, ?_⟩
  · rcases List.mem_append.mp hp with hp | hp
    · exact h.later.past p hp
    · obtain rfl := List.mem_singleton.mp hp
      exact ⟨hk, Nat.le_refl _⟩
  · rcases Nat.lt_or_ge i log.length with hi | hi
    · rw [List.getElem?_append_left hi] at hp
      exact h.turn hp
    · have hlt := (List.getElem?_eq_some_iff.mp hp).1
      rw [List.length_append, List.length_singleton] at hlt
      obtain rfl : i = log.length := by omega
      rw [List.getElem?_append_right (Nat.le_refl _), Nat.sub_self] at hp
      obtain rfl := Option.some.inj hp
      exact hturn
  · refine List.pairwise_append.mpr ⟨h.sorted, List.pairwise_singleton .., fun p hp q hq => ?_⟩
    obtain rfl := List.mem_singleton.mp hq
    exact Nat.lt_succ_of_le (h.past p hp).2

/-- The window of a fetch ends at the turn of the next, so a fetch that waits for the window
of the one before has waited for its turn. -/
theorem Scheduled.lasts (h : Scheduled target time log) (hl : Lasts log) {i : Nat}
    {p : Nat × Nat} (hp : log[i]? = some p) : target * i ≤ p.1 := by
  cases i with
  | zero => exact Nat.zero_le _
  | succ i =>
    have hlt := (List.getElem?_eq_some_iff.mp hp).1
    obtain ⟨q, hq⟩ : ∃ q, log[i]? = some q := ⟨_, List.getElem?_eq_getElem (by omega)⟩
    exact Nat.le_trans (h.turn hq) (hl hq hp)

end Schedule

/-- The invariant of a tuner: what it has counted agrees with what it has recorded. -/
structure ScheduleInv (tc : TunerCfg) (T : ApfTuner) : Prop where
  half : tc.targetApf * T.fetchCount ≤ 2 * T.time
  log : ∀ {log}, T.record = some log →
    log.length = T.fetchCount ∧ Scheduled tc.targetApf T.time log

section Runs

variable {tc : TunerCfg} {cfg : Cfg} {t : Nat}

theorem scheduleInv_new (tc : TunerCfg) (id : Nat) (useRecord : Bool) :
    ScheduleInv tc (ApfTuner.new tc id useRecord) := by
  refine ⟨Nat.zero_le _, fun {log} hlog => ?_⟩
  obtain rfl : log = [] := by
    cases useRecord with
    | false => cases hlog
    | true => exact (Option.some.inj hlog).symm
  exact ⟨rfl, fun p hp => (List.not_mem_nil hp).elim, fun {i p} hp => by simp at hp, .nil⟩

theorem ScheduleInv.ticks {T T' : ApfTuner} (h : ScheduleInv tc T) (htime : T'.time = T.time + 1)
    (ht : Ticks tc T T') : ScheduleInv tc T' := by
  have hhalf := h.half
  cases ht with
  | quiet hcount hrec =>
    refine ⟨by rw [hcount, htime]; omega, fun {log} hlog => ?_⟩
    rw [hrec] at hlog
    rw [hcount, htime]
    exact ⟨(h.log hlog).1, (h.log hlog).2.later⟩
  | fetched hk hturn hcount hrec =>
    refine ⟨by rw [hcount, htime]; omega, fun {log} hlog => ?_⟩
    rw [hrec] at hlog
    obtain ⟨log₀, hlog₀, rfl⟩ := Option.map_eq_some_iff.mp hlog
    obtain ⟨hlen, hs⟩ := h.log hlog₀
    rw [hcount, htime, List.length_append, hlen]
    exact ⟨rfl, hs.fetch hk (by rw [hlen]; exact hturn)⟩

theorem threadStep_inv {p p' : ApfTuner × State} {op : ThreadOp} (h : ScheduleInv tc p.1)
    (hstep : ThreadStep tc cfg t p op p') : ScheduleInv tc p'.1 := by
  cases hstep with
  | malloc _ hmalloc =>
    obtain ⟨htime, hticks⟩ := ApfTuner.malloc_ticks hmalloc
    exact h.ticks htime hticks
  | free hfree _ =>
    obtain ⟨htime, hcount, hrec⟩ := ApfTuner.free_same hfree
    exact ⟨by rw [htime, hcount]; exact h.half, by rw [htime, hcount, hrec]; exact h.log⟩
  | other => exact h

/-- The time of a tuner is the number of allocations it has seen. -/
theorem time_mallocs {p p' : ApfTuner × State} {ops : List ThreadOp}
    (hrun : Run (ThreadStep tc cfg t) p ops p') : p'.1.time = p.1.time + mallocs ops := by
  induction hrun with
  | nil => rfl
  | cons hstep _ ih =>
    rw [ih]
    cases hstep with
    | malloc _ hmalloc =>
      simp only [(ApfTuner.malloc_ticks hmalloc).1, mallocs_malloc]
      omega
    | free hfree _ =>
      simp only [(ApfTuner.free_same hfree).1, mallocs_free]
    | other => rw [mallocs_other]

end Runs

/-- **Fetches are spaced.** In every run of a thread its tuner has made at most two fetches
per `TARGET_APF` allocations; and each fetch it recorded comes when half of its turn has
passed, or all of it if the fetches before have lasted for their windows. -/
theorem fetches_spaced {tc : TunerCfg} {cfg : Cfg} {t id : Nat} {useRecord : Bool} {s₀ s : State}
    {T : ApfTuner} {ops : List ThreadOp}
    (hrun : Run (ThreadStep tc cfg t) (ApfTuner.new tc id useRecord, s₀) ops (T, s)) :
    tc.targetApf * T.fetchCount ≤ 2 * mallocs ops ∧
    ∀ log, T.record = some log → log.length = T.fetchCount ∧
      log.Pairwise (fun p q => p.1 < q.1) ∧
      ∀ {i p}, log[i]? = some p → p.1 ≤ mallocs ops ∧ tc.targetApf * (i + 1) ≤ 2 * p.1 ∧
        (Lasts log → tc.targetApf * i ≤ p.1) := by
  have htime : T.time = mallocs ops := (time_mallocs hrun).trans (Nat.zero_add _)
  have h : ScheduleInv tc T := Run.invariant (P := fun p => ScheduleInv tc p.1) threadStep_inv
    hrun (scheduleInv_new tc id useRecord)
  refine ⟨htime ▸ h.half, fun log hlog => ?_⟩
  obtain ⟨hlen, hs⟩ := h.log hlog
  refine ⟨hlen, hs.sorted, fun {i p} hp => ?_⟩
  obtain ⟨hk, hle⟩ := hs.past p (List.mem_of_getElem? hp)
  have hturn := hs.turn hp
  exact ⟨htime ▸ hle, by omega, fun hl => hs.lasts hl hp⟩

/-- `TARGET_APF=2` with a burst and a hibernation of one tick. -/
def TunerCfg.two : TunerCfg := ⟨2, 1, 1, Buffers.padded (.alloc 0)⟩
def Cfg.two : Cfg := { Cfg.default with target := ⟨2, by decide⟩ }

/-- A thread takes the four blocks of a superblock: with the last one the tuner fetches the
blocks for two more. -/
theorem fetches_spaced_superblock :
    ∃ (s₀ s : State) (T : ApfTuner) (w x y z : Nat),
      Run (ThreadStep TunerCfg.two Cfg.two 0) (ApfTuner.new TunerCfg.two 24 true, s₀)
        [.malloc w, .malloc x, .malloc y, .malloc z] (T, s) ∧
      T.record = some [(4, 2)] ∧ 2 * T.fetchCount ≤ 2 * 4 := by
  have h : ((initMalloc Os.bump).any fun s₀ =>
      (allocateToCache Cfg.two Os.bump none 0 1024 24 s₀).any fun r₁ =>
      ((ApfTuner.new TunerCfg.two 24 true).malloc TunerCfg.two Cfg.two Os.bump 0 r₁.1 r₁.2).any
        fun q₁ =>
      (allocateToCache Cfg.two Os.bump none 0 1024 q₁.2.1.id q₁.2.2).any fun r₂ =>
      (q₁.2.1.malloc TunerCfg.two Cfg.two Os.bump 0 r₂.1 r₂.2).any fun q₂ =>
      (allocateToCache Cfg.two Os.bump none 0 1024 q₂.2.1.id q₂.2.2).any fun r₃ =>
      (q₂.2.1.malloc TunerCfg.two Cfg.two Os.bump 0 r₃.1 r₃.2).any fun q₃ =>
      (allocateToCache Cfg.two Os.bump none 0 1024 q₃.2.1.id q₃.2.2).any fun r₄ =>
      (q₃.2.1.malloc TunerCfg.two Cfg.two Os.bump 0 r₄.1 r₄.2).any fun q₄ =>
      q₄.2.1.record = some [(4, 2)]) = true := by
    decide +kernel
  simp only [Option.any_eq_true, decide_eq_true_eq, Prod.exists] at h
  obtain ⟨s₀, -, w, s₁, h₁, b₁, T₁, u₁, k₁, x, s₂, h₂, b₂, T₂, u₂, k₂, y, s₃, h₃, b₃, T₃, u₃, k₃,
    z, s₄, h₄, b₄, T₄, u₄, k₄, hrec⟩ := h
  have hrun := Run.cons (ThreadStep.malloc h₁ k₁) (.cons (.malloc h₂ k₂)
    (.cons (.malloc h₃ k₃) (.cons (.malloc h₄ k₄) (.nil _))))
  exact ⟨s₀, u₄, T₄, w, x, y, z, hrun, hrec, (fetches_spaced hrun).1⟩

end Apfmalloc
