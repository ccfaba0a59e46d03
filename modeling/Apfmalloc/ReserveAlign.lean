import Apfmalloc.Realloc

/-!
# Alignment on the bootstrap reserve

While a thread panics or the bootstrap is on, `do_malloc` and `do_aligned_alloc` cut their
blocks off the bootstrap reserve. The reserve knows sizes only: what `do_aligned_alloc`
asks it for is the rounded size, and the block starts where the one before it ended. A
segment of the reserve starts at a page, so the block is aligned exactly if the bytes cut
from this segment so far add up to a multiple of the alignment, or if the request opens a
segment of its own.

`ReserveUse` is that account as a function of the requests alone. `ReserveAt.run` connects
it with the reserve of the state over every run.
-/

namespace Apfmalloc

open Base

/-! ## The account -/

/-- The bytes cut from the segment in use, and the bytes left in it. -/
structure ReserveUse where
  used : Nat
  left : Nat
deriving DecidableEq, Repr

/-- A request that does not fit opens a segment, and what is left of the old one is lost. -/
def ReserveUse.serve (u : ReserveUse) (n : Nat) : ReserveUse :=
  if n ≤ u.left then ⟨u.used + n, u.left - n⟩ else ⟨n, max BootstrapReserve.maxSize n - n⟩

inductive ReserveOp
  | malloc (t size : Nat)
  | alignedAlloc (t align size : Nat)
  | other

def ReserveUse.step (u : ReserveUse) : ReserveOp → ReserveUse
  | .malloc _ size => u.serve size
  | .alignedAlloc _ align size => u.serve (alignSize size align)
  | .other => u

/-- The account of a history, from the segment that `init_malloc` gives the reserve. -/
def reserveUse (ops : List ReserveOp) : ReserveUse :=
  ops.foldl ReserveUse.step ⟨0, BootstrapReserve.maxSize⟩

/-! ## Runs -/

/-- The requests the reserve serves, and whatever leaves it alone: the allocations off the
bootstrap path and the large ones, the frees, the switches of the mode. -/
inductive ReserveStep (cfg : Cfg) : State → ReserveOp → State → Prop
  | malloc {s s' : State} {os : Os} {tuner : Option Nat} {t size p : Nat} :
      mallocOnReserve s t size = true → doMalloc cfg os tuner t size s = some (p, s') →
      ReserveStep cfg s (.malloc t size) s'
  | alignedAlloc {s s' : State} {os : Os} {tuner : Option Nat} {t align size p : Nat} :
      isPowerOfTwo align = true → alignedOnReserve s t align size = true →
      doAlignedAlloc cfg os tuner t align size s = some (p, s') →
      ReserveStep cfg s (.alignedAlloc t align size) s'
  | other {s s' : State} :
      s'.bootstrapReserve = s.bootstrapReserve → ReserveStep cfg s .other s'

/-- The reserve of the state is as the account says, in a segment that starts at a page. -/
structure ReserveAt (s : State) (u : ReserveUse) : Prop where
  next : ∃ base, base % page = 0 ∧ s.bootstrapReserve.next = base + u.used
  avail : s.bootstrapReserve.avail = u.left
  segSize : s.bootstrapReserve.max = BootstrapReserve.maxSize

section
variable {cfg : Cfg} {os : Os} {tuner : Option Nat} {s s' : State} {u : ReserveUse} {t p : Nat}

theorem mallocOnReserve_bootstrap {size : Nat} (hsize : size ≤ maxSz) (hmode : s.useBootstrap = true) :
    mallocOnReserve s t size = true := by
  rw [mallocOnReserve, decide_eq_true hsize, onReserve_iff.mpr (Or.inr hmode)]
  rfl

theorem doMalloc_onReserve {size : Nat} (h : mallocOnReserve s t size = true) :
    doMalloc cfg os tuner t size s = bootstrapAllocate os size s := by
  rw [mallocOnReserve, Bool.and_eq_true, decide_eq_true_eq, onReserve_iff] at h
  rw [doMalloc, if_neg (Nat.not_lt.mpr h.1), allocateToCache, if_pos h.2]

theorem doAlignedAlloc_onReserve {align size : Nat} (hpow : isPowerOfTwo align = true)
    (h : alignedOnReserve s t align size = true) :
    doAlignedAlloc cfg os tuner t align size s =
      bootstrapAllocate os (alignSize size align) s := by
  rw [alignedOnReserve, Bool.and_eq_true, decide_eq_true_eq, onReserve_iff] at h
  rw [doAlignedAlloc, if_neg (by rw [hpow]; decide)]
  simp only [if_neg (Nat.not_lt.mpr h.1)]
  rw [allocateToCache, if_pos h.2]

theorem reserveAt_init (h : initMalloc os = some s) :
    ReserveAt s ⟨0, BootstrapReserve.maxSize⟩ := by
  obtain ⟨seg, hv, rfl⟩ := initMalloc_cases h
  exact ⟨⟨seg.ptr, hv.aligned, rfl⟩, rfl, rfl⟩

/-- **One request**: the account follows, and says where the block starts. -/
theorem ReserveAt.allocate {n : Nat} (h : ReserveAt s u)
    (hs : bootstrapAllocate os n s = some (p, s')) :
    ReserveAt s' (u.serve n) ∧
      ∃ base, base % page = 0 ∧ p = if n ≤ u.left then base + u.used else base := by
  obtain ⟨base, hbase, hnext⟩ := h.next
  unfold ReserveUse.serve
  rcases bootstrapAllocate_cases hs with ⟨hroom, rfl, rfl⟩ | ⟨seg, hroom, hlen, hv, -, rfl, rfl⟩
  · -- it fits, and starts where the block before it ended
    rw [h.avail] at hroom
    rw [if_pos hroom]
    refine ⟨⟨⟨base, hbase, ?_⟩, ?_, h.segSize⟩, base, hbase, by rw [if_pos hroom, hnext]⟩
    · show s.bootstrapReserve.next + n = base + (u.used + n)
      omega
    · show s.bootstrapReserve.avail - n = u.left - n
      rw [h.avail]
  · -- a segment of its own, which starts at a page
    rw [h.avail] at hroom
    rw [if_neg (Nat.not_le.mpr hroom)]
    refine ⟨⟨⟨seg.ptr, hv.aligned, rfl⟩, ?_, h.segSize⟩, seg.ptr, hv.aligned, ?_⟩
    · show seg.length - n = max BootstrapReserve.maxSize n - n
      rw [hlen, h.segSize]
    · rw [if_neg (Nat.not_le.mpr hroom)]

theorem ReserveAt.step {op : ReserveOp} (h : ReserveAt s u) (hs : ReserveStep cfg s op s') :
    ReserveAt s' (u.step op) := by
  cases hs with
  | malloc hon hm =>
    rw [doMalloc_onReserve hon] at hm
    exact (h.allocate hm).1
  | alignedAlloc hpow hon hm =>
    rw [doAlignedAlloc_onReserve hpow hon] at hm
    exact (h.allocate hm).1
  | other heq => exact ⟨heq ▸ h.next, heq ▸ h.avail, heq ▸ h.segSize⟩

/-- **Every run** keeps the account. -/
theorem ReserveAt.run {ops : List ReserveOp} (hrun : Run (ReserveStep cfg) s ops s') :
    ∀ {u}, ReserveAt s u → ReserveAt s' (ops.foldl ReserveUse.step u) := by
  induction hrun with
  | nil s =>
    intro u h
    exact h
  | cons hs _ ih =>
    intro u h
    exact ih (h.step hs)

end

/-! ## Alignment -/

/-- **When the reserve aligns.** After every history of requests it served,
`do_aligned_alloc` returns a multiple of the alignment exactly if the bytes cut from the
segment in use add up to one, or the request does not fit into what is left of it. It
returns unless it needs a new segment and the kernel refuses. -/
theorem reserve_aligned_iff {cfg : Cfg} {os os₀ : Os} {tuner : Option Nat} {s₀ s : State}
    {ops : List ReserveOp} {t k size : Nat} (hinit : initMalloc os₀ = some s₀)
    (hrun : Run (ReserveStep cfg) s₀ ops s) (hmode : s.panicking t = true ∨ s.useBootstrap = true)
    (hk : 2 ^ k ≤ page) (hsize : alignSize size (2 ^ k) ≤ page) :
    ((doAlignedAlloc cfg os tuner t (2 ^ k) size s).isSome ↔
      alignSize size (2 ^ k) ≤ (reserveUse ops).left ∨
        (os.serve s.mapped [max BootstrapReserve.maxSize (alignSize size (2 ^ k))]).isSome) ∧
    ((∀ p s', doAlignedAlloc cfg os tuner t (2 ^ k) size s = some (p, s') → 2 ^ k ∣ p) ↔
      2 ^ k ∣ (reserveUse ops).used ∨ (reserveUse ops).left < alignSize size (2 ^ k)) := by
  have hat : ReserveAt s (reserveUse ops) := ReserveAt.run hrun (reserveAt_init hinit)
  have hpage := pow_dvd_page hk
  have h12 : k ≤ 12 := (Nat.pow_le_pow_iff_right (by omega : 1 < 2)).mp hk
  have hon : alignedOnReserve s t (2 ^ k) size = true := by
    rw [alignedOnReserve, decide_eq_true hsize, onReserve_iff.mpr hmode]
    rfl
  rw [doAlignedAlloc_onReserve (isPowerOfTwo_pow (by omega : k < 64)) hon]
  -- from here on it is a request for the rounded size
  have hsome := @bootstrapAllocate_isSome os s (alignSize size (2 ^ k))
  unfold ReserveHas at hsome
  rw [hat.avail, hat.segSize] at hsome
  refine ⟨hsome, ?_, ?_⟩
  · intro h
    -- A request that fits returns whatever the kernel does, so there is a block to look at.
    by_cases hfit : alignSize size (2 ^ k) ≤ (reserveUse ops).left
    · obtain ⟨⟨p, s'⟩, hr⟩ := Option.isSome_iff_exists.mp (hsome.mpr (Or.inl hfit))
      obtain ⟨-, base, hbase, hp⟩ := hat.allocate hr
      have hdvd := h p s' hr
      rw [hp, if_pos hfit] at hdvd
      exact Or.inl ((Nat.dvd_add_right (Nat.dvd_trans hpage (Nat.dvd_of_mod_eq_zero hbase))).mp hdvd)
    · exact Or.inr (Nat.not_le.mp hfit)
  · intro h p s' hr
    obtain ⟨-, base, hbase, hp⟩ := hat.allocate hr
    have hdvd : 2 ^ k ∣ base := Nat.dvd_trans hpage (Nat.dvd_of_mod_eq_zero hbase)
    rw [hp]
    split
    next hfit => exact Nat.dvd_add hdvd (h.resolve_right (Nat.not_lt.mpr hfit))
    next => exact hdvd

/-- After a `do_malloc` of 8 bytes from the reserve, one of 8 bytes aligned to 8. -/
theorem reserve_aligned_iff_even :
    ∃ s₀ s, initMalloc Os.bump = some s₀ ∧
      Run (ReserveStep Cfg.default) s₀ [.other, .malloc 0 8] s ∧ s.useBootstrap = true ∧
      (reserveUse [.other, .malloc 0 8]) = ⟨8, 131576⟩ ∧
      (doAlignedAlloc Cfg.default Os.bump none 0 (2 ^ 3) 8 s).isSome ∧
      ∀ p s', doAlignedAlloc Cfg.default Os.bump none 0 (2 ^ 3) 8 s = some (p, s') → 2 ^ 3 ∣ p := by
  have h : ((initMalloc Os.bump).any fun s₀ =>
      (doMalloc Cfg.default Os.bump none 0 8 { s₀ with useBootstrap := true }).any fun r =>
        r.2.useBootstrap = true) = true := by
    decide +kernel
  simp only [Option.any_eq_true, decide_eq_true_eq] at h
  obtain ⟨s₀, hinit, ⟨p, s⟩, hm, hmode⟩ := h
  have hon : ReserveStep Cfg.default s₀ .other { s₀ with useBootstrap := true } := .other rfl
  have hrun : Run (ReserveStep Cfg.default) s₀ [.other, .malloc 0 8] s :=
    .cons hon (.cons (.malloc (mallocOnReserve_bootstrap (by decide) rfl) hm) (.nil s))
  obtain ⟨hsome, hiff⟩ := @reserve_aligned_iff Cfg.default Os.bump Os.bump none s₀ s _ 0 3 8
    hinit hrun (Or.inr hmode) (by decide) (by decide)
  exact ⟨s₀, s, hinit, hrun, hmode, by decide, hsome.mpr (Or.inl (by decide)),
    hiff.mpr (Or.inl (by decide))⟩

/-- After a `do_malloc` of one byte from the reserve, the 8 bytes aligned to 8 start one
byte later. -/
theorem reserve_misaligned :
    ∃ s₀ s, initMalloc Os.bump = some s₀ ∧
      Run (ReserveStep Cfg.default) s₀ [.other, .malloc 0 1] s ∧ s.useBootstrap = true ∧
      alignSize 8 8 ≤ page ∧
      ∃ p s', doAlignedAlloc Cfg.default Os.bump none 0 8 8 s = some (p, s') ∧ ¬8 ∣ p := by
  have h : ((initMalloc Os.bump).any fun s₀ =>
      (doMalloc Cfg.default Os.bump none 0 1 { s₀ with useBootstrap := true }).any fun r =>
        (doAlignedAlloc Cfg.default Os.bump none 0 8 8 r.2).any fun r' =>
          r.2.useBootstrap = true ∧ ¬8 ∣ r'.1) = true := by
    decide +kernel
  simp only [Option.any_eq_true, decide_eq_true_eq] at h
  obtain ⟨s₀, hinit, ⟨p, s⟩, hm, ⟨q, s'⟩, ha, hc⟩ := h
  have hon : ReserveStep Cfg.default s₀ .other { s₀ with useBootstrap := true } := .other rfl
  refine ⟨s₀, s, hinit, .cons hon (.cons (.malloc ?_ hm) (.nil s)), hc.1, by decide, q, s', ha,
    hc.2⟩
  exact mallocOnReserve_bootstrap (by decide) rfl

end Apfmalloc
