import Apfmalloc.BinRefine
import Apfmalloc.CountSb

/-!
# The tuner's fetch and the encoding of a bin

A fresh superblock is lazily linked: its words are zero, and only a bin that has
recorded its `block_size` reads them as "the next block". `fill_cache` records
it. `fetch` puts the same kind of blocks into the bin and does not, so it relies
on an earlier fill of the same bin. A thread that only ever freed blocks of the
class has none: the first pop after such a fetch moves to null, and every later
one returns null and leaves the count.

`BinContents` is the client's record of what the bin holds: the blocks pushed on
top and what is left of the superblock of the last fill or fetch. With
`USE_APF` nothing is ever flushed, so the partial lists are empty throughout.
-/

namespace Apfmalloc

open Base

/-! ## What a fetch does -/

theorem mallocCountFromNewSb_blockNum {cfg : Cfg} {os : Os} {t c count n : Nat} {s s' : State}
    (h : mallocCountFromNewSb cfg os t c count s = some (n, s')) :
    (s.threadCache t c).blockNum = 0 ∧ n = (cfg.sizeClass c).blockNum ∧
      (s'.threadCache t c).blockNum = min (cfg.sizeClass c).blockNum count := by
  obtain ⟨d, s₁, seg, halloc, hn, -, -, -, hnum, -, rfl⟩ := newSuperBlock_cases h
  obtain ⟨-, htc, -⟩ := alloc_pageMap halloc
  exact ⟨htc ▸ hnum, hn, by simp⟩

theorem mallocCountFromPartial_none {cfg : Cfg} {t c count : Nat} {s : State}
    (h : s.partialList c = none) : mallocCountFromPartial cfg t c count s = some (0, s) := by
  rw [mallocCountFromPartial, listPopPartial, h]
  rfl

/-- Without a partial list a fetch is one new superblock at most: a second round
would push onto a bin that is not empty. -/
theorem fetch_cases {cfg : Cfg} {os : Os} {t c count : Nat} {s s' : State}
    (hempty : s.partialList c = none) (hcount : 0 < count)
    (h : fetch cfg os t c count s = some s') :
    count ≤ (cfg.sizeClass c).blockNum ∧ ∃ n, mallocCountFromNewSb cfg os t c count s = some (n, s') := by
  simp only [fetch, mallocCountFromPartial_none hempty, Option.bind_eq_bind, Option.bind_some] at h
  obtain ⟨k, rfl⟩ : ∃ k, count = k + 1 := ⟨count - 1, by omega⟩
  rw [fetchLoop, if_pos hcount] at h
  simp only [Option.bind_eq_bind, Option.bind_eq_some_iff, Prod.exists] at h
  obtain ⟨n, s₁, hnew, h⟩ := h
  obtain ⟨-, hn, hnum⟩ := mallocCountFromNewSb_blockNum hnew
  rw [fetchLoop] at h
  by_cases hlt : 0 + n < k + 1
  · -- the bin now holds the whole superblock, so `push_list` panics in the next round
    simp only [if_pos hlt, Option.bind_eq_bind, Option.bind_eq_some_iff, Prod.exists] at h
    obtain ⟨n₂, s₂, hnew₂, -⟩ := h
    have hz := (mallocCountFromNewSb_blockNum hnew₂).1
    have hcl := mallocCountFromNewSb_class hnew
    have hge := (cfg.classSpec hcl.1 hcl.2).blockNum_ge
    omega
  · rw [if_neg hlt, Option.some.injEq] at h
    subst h
    exact ⟨by omega, n, hnew⟩

/-! ## Runs with a fetch -/

structure BinContents where
  pushed : List Nat
  fresh : List Nat

def BinContents.all (k : BinContents) : List Nat := k.pushed ++ k.fresh

/-- The contents without the top block. -/
def BinContents.pop (k : BinContents) : BinContents :=
  match k.pushed with
  | _ :: pushed => ⟨pushed, k.fresh⟩
  | [] => ⟨[], k.fresh.tail⟩

inductive FetchOp
  | fill
  | pop
  | push (x : Nat)
  | fetch (count : Nat)
  | other

/-- The four operations on the bin of thread `t` for class `c`, and whatever else
leaves the bin and the bytes of its blocks alone. -/
inductive FetchStep (cfg : Cfg) (t c : Nat) :
    State × BinContents → FetchOp → State × BinContents → Prop
  | fill {s s' : State} {k : BinContents} {os : Os} :
      (s.threadCache t c).blockNum = 0 → s.partialList c = none →
      fillCache cfg os t c s = some s' →
      FetchStep cfg t c (s, k) .fill (s', ⟨[], strideList (s'.threadCache t c).block
        (cfg.sizeClass c).blockSize (s'.threadCache t c).blockNum⟩)
  | pop {s : State} {k : BinContents} {x : Nat} {bin : ThreadCacheBin} :
      0 < (s.threadCache t c).blockNum →
      (s.threadCache t c).popBlock cfg.noMetStack s.mem = some (x, bin) →
      FetchStep cfg t c (s, k) .pop (s.setBin t c bin, k.pop)
  | push {s : State} {k : BinContents} {x : Nat} {bin : ThreadCacheBin} {m : Mem} :
      BlockAddr x → (∀ y ∈ k.all, BlocksApart (cfg.sizeClass c).blockSize x y) →
      (s.threadCache t c).pushBlock cfg.noMetStack s.mem x = some (bin, m) →
      FetchStep cfg t c (s, k) (.push x)
        ({ s with mem := m }.setBin t c bin, { k with pushed := x :: k.pushed })
  | fetch {s s' : State} {k : BinContents} {os : Os} {count : Nat} :
      (s.threadCache t c).blockNum = 0 → s.partialList c = none →
      Apfmalloc.fetch cfg os t c count s = some s' →
      FetchStep cfg t c (s, k) (.fetch count) (s', ⟨[], strideList (s'.threadCache t c).block
        (cfg.sizeClass c).blockSize (s'.threadCache t c).blockNum⟩)
  | other {s s' : State} {k : BinContents} :
      s'.threadCache t c = s.threadCache t c →
      (∀ y ∈ k.all, ∀ a, y ≤ a → a < y + (cfg.sizeClass c).blockSize → s'.mem a = s.mem a) →
      FetchStep cfg t c (s, k) .other (s', k)

/-- The fetches that are safe: of nothing, or into a bin that knows its block
size. -/
def FetchOk (t c : Nat) (s : State) : FetchOp → Prop
  | .fetch count => count = 0 ∨ (s.threadCache t c).blockSize ≠ none
  | _ => True

/-- The bin is its contents, and no superblock is lazily linked in a bin that
would misread it. -/
structure FetchInv (cfg : Cfg) (t c : Nat) (s : State) (k : BinContents) : Prop where
  bin : BinInv cfg.noMetStack (cfg.sizeClass c).blockSize s.mem (s.threadCache t c) k.all
  size : ∀ b, (s.threadCache t c).blockSize = some b → b = (cfg.sizeClass c).blockSize
  fresh : k.fresh ≠ [] → (s.threadCache t c).blockSize = some (cfg.sizeClass c).blockSize

theorem BinContents.pop_all {k : BinContents} : k.pop.all = k.all.tail := by
  obtain ⟨pushed, fresh⟩ := k
  cases pushed with
  | nil => rfl
  | cons x pushed => rfl

theorem BinContents.pop_fresh {k : BinContents} (h : k.pop.fresh ≠ []) : k.fresh ≠ [] := by
  obtain ⟨pushed, fresh⟩ := k
  cases pushed with
  | nil =>
    intro he
    subst he
    exact h rfl
  | cons x pushed => exact h

theorem FetchInv.fetch {cfg : Cfg} {os : Os} {t c count : Nat} (h1 : 1 ≤ c) (h2 : c < maxSzIdx)
    {s s' : State} {k : BinContents} (h : FetchInv cfg t c s k)
    (hempty : s.partialList c = none) (hok : count = 0 ∨ (s.threadCache t c).blockSize ≠ none)
    (hnum : (s.threadCache t c).blockNum = 0) (hfetch : Apfmalloc.fetch cfg os t c count s = some s') :
    FetchInv cfg t c s' ⟨[], strideList (s'.threadCache t c).block (cfg.sizeClass c).blockSize
      (s'.threadCache t c).blockNum⟩ := by
  by_cases hz : count = 0
  · -- nothing is fetched
    subst hz
    simp only [Apfmalloc.fetch, mallocCountFromPartial_none hempty, Option.bind_eq_bind,
      Option.bind_some, fetchLoop, Nat.lt_irrefl, if_false, Option.some.injEq] at hfetch
    subst hfetch
    rw [hnum]
    exact ⟨binInv_empty _ _ _ hnum, h.size, fun hne => absurd rfl hne⟩
  · obtain ⟨hle, n, hnew⟩ := fetch_cases hempty (by omega) hfetch
    obtain ⟨b, hb⟩ := Option.ne_none_iff_exists'.mp (hok.resolve_left hz)
    have hbs := h.size b hb
    subst hbs
    -- the bin kept its block size when it was emptied, so it reads the lazy links right
    rw [mallocCountFromNewSb, Nat.min_eq_right hle] at hnew
    obtain ⟨sb, hbin, hinv⟩ := newSuperBlock_binInv h1 h2 (by omega) (Nat.le_refl _) hnew
    rw [hb] at hbin
    refine ⟨?_, ?_, ?_⟩
    · rw [hbin]
      exact hinv _ rfl rfl rfl
    · intro b' hb'
      rw [hbin] at hb'
      exact (Option.some.inj hb').symm
    · intro _
      rw [hbin]

theorem fetchStep_inv {cfg : Cfg} {t c : Nat} (h1 : 1 ≤ c) (h2 : c < maxSzIdx)
    {p p' : State × BinContents} {op : FetchOp} (h : FetchInv cfg t c p.1 p.2)
    (hstep : FetchStep cfg t c p op p' ∧ FetchOk t c p.1 op) : FetchInv cfg t c p'.1 p'.2 := by
  have hbs := (cfg.classSpec h1 h2).blockSize_ge
  obtain ⟨hstep, hok⟩ := hstep
  cases hstep with
  | @fill s s' k os hnum hempty hfill =>
    obtain ⟨hsz, hinv⟩ := fillCache_binInv h1 h2 hempty hfill
    have hlen := hinv.holds.num
    rw [strideList_length] at hlen
    refine ⟨?_, ?_, fun _ => hsz⟩
    · show BinInv _ _ _ _ ([] ++ strideList _ _ _)
      rw [hlen]
      exact hinv
    · intro b hb
      exact (Option.some.inj (hsz.symm.trans hb)).symm
  | @pop s k x bin hnum hpop =>
    have hbin := h.bin
    have hall := BinContents.pop_all (k := k)
    cases hk : k.all with
    | nil =>
      have := hbin.holds.num
      simp only [hk, List.length_nil] at this
      omega
    | cons y l =>
      simp only [hk] at hbin hall
      obtain ⟨bin', hpop', hinv, hsz, -⟩ := hbin.popBlock
      rw [hpop', Option.some.injEq, Prod.mk.injEq] at hpop
      obtain ⟨-, rfl⟩ := hpop
      refine ⟨?_, ?_, ?_⟩
      · simp only [setBin_same, setBin_mem, hall]
        exact hinv
      · simp only [setBin_same, hsz]
        exact h.size
      · simp only [setBin_same, hsz]
        exact fun hne => h.fresh (BinContents.pop_fresh hne)
  | @push s k x bin m hx hap hpush =>
    obtain ⟨hinv, hsz⟩ := h.bin.pushBlock hbs hx hap hpush
    refine ⟨?_, ?_, ?_⟩
    · simp only [setBin_same, setBin_mem]
      exact hinv
    · simp only [setBin_same, hsz]
      exact h.size
    · simp only [setBin_same, hsz]
      exact h.fresh
  | fetch hnum hempty hfetch => exact h.fetch h1 h2 hempty hok hnum hfetch
  | other hbin hmem =>
    refine ⟨?_, ?_, ?_⟩
    · simp only [hbin]
      exact h.bin.frame hbs hmem
    · simp only [hbin]
      exact h.size
    · simp only [hbin]
      exact h.fresh

/-- **The encoding of a bin is right** in every run whose fetches (of at least one
block) only go to bins that already know their block size: a bin that still
holds blocks of a fresh superblock has it recorded, and every pop of a bin that
is not empty returns a block of the bin and takes it off the count. -/
theorem fetch_run_pops {cfg : Cfg} {t c : Nat} (h1 : 1 ≤ c) (h2 : c < maxSzIdx) {s₀ s : State}
    {k : BinContents} {ops : List FetchOp} (hnew : s₀.threadCache t c = ThreadCacheBin.new)
    (hrun : Run (fun p op p' => FetchStep cfg t c p op p' ∧ FetchOk t c p.1 op) (s₀, ⟨[], []⟩) ops
      (s, k)) :
    (k.fresh ≠ [] → (s.threadCache t c).blockSize = some (cfg.sizeClass c).blockSize) ∧
    (0 < (s.threadCache t c).blockNum → ∃ x ∈ k.all, ∃ bin, x ≠ 0 ∧
      (s.threadCache t c).popBlock cfg.noMetStack s.mem = some (x, bin) ∧
      bin.blockNum + 1 = (s.threadCache t c).blockNum) := by
  have h0 : FetchInv cfg t c s₀ ⟨[], []⟩ := by
    refine ⟨?_, ?_, fun hne => absurd rfl hne⟩
    · rw [hnew]
      exact binInv_empty _ _ _ rfl
    · intro b hb
      rw [hnew] at hb
      cases hb
  have h : FetchInv cfg t c s k :=
    Run.invariant (P := fun p => FetchInv cfg t c p.1 p.2) (fetchStep_inv h1 h2) hrun h0
  refine ⟨h.fresh, fun hpos => ?_⟩
  have hbin := h.bin
  -- the count says that the bin is not empty
  cases hk : k.all with
  | nil =>
    have := hbin.holds.num
    rw [hk, List.length_nil] at this
    omega
  | cons x l =>
    rw [hk] at hbin
    obtain ⟨bin, hpop, -, -, hnum⟩ := hbin.popBlock
    have hx := (hbin.addr x (List.mem_cons_self ..)).pos
    exact ⟨x, List.mem_cons_self .., bin, Nat.ne_of_gt hx, hpop, hnum⟩

/-- A bin of class 39 that was filled, emptied and then refilled by the tuner. -/
theorem fetch_run_pops_refilled :
    ∃ s k x bin, Run (fun p op p' => FetchStep Cfg.small 0 39 p op p' ∧ FetchOk 0 39 p.1 op)
        (startState, ⟨[], []⟩) [.fill, .pop, .pop, .fetch 2] (s, k) ∧
      k.fresh ≠ [] ∧ (s.threadCache 0 39).popBlock false s.mem = some (x, bin) ∧ x ∈ k.all := by
  have h : ((fillCache Cfg.small Os.bump 0 39 startState).any fun s₁ =>
      ((s₁.threadCache 0 39).popBlock false s₁.mem).any fun r₂ =>
      (r₂.2.popBlock false s₁.mem).any fun r₃ =>
      (fetch Cfg.small Os.bump 0 39 2 ((s₁.setBin 0 39 r₂.2).setBin 0 39 r₃.2)).any fun s₄ =>
      (s₁.threadCache 0 39).blockNum = 2 ∧ r₂.2.blockNum = 1 ∧ r₃.2.blockNum = 0 ∧
        r₃.2.blockSize ≠ none ∧ (s₄.threadCache 0 39).blockNum = 2 ∧
        s₁.partialList 39 = none) = true := by
    decide +kernel
  simp only [Option.any_eq_true, decide_eq_true_eq, Prod.exists] at h
  obtain ⟨s₁, hfill, x₂, b₂, hpop₂, x₃, b₃, hpop₃, s₄, hfetch, hc⟩ := h
  obtain ⟨hn₁, hn₂, hn₃, hsz, hn₄, hpart⟩ := hc
  have hp₃ : ((s₁.setBin 0 39 b₂).threadCache 0 39).popBlock false s₁.mem = some (x₃, b₃) := by
    rw [setBin_same]
    exact hpop₃
  have hrun : ∃ k, Run (fun p op p' => FetchStep Cfg.small 0 39 p op p' ∧ FetchOk 0 39 p.1 op)
      (startState, ⟨[], []⟩) [.fill, .pop, .pop, .fetch 2] (s₄, k) ∧ k.fresh ≠ [] := by
    refine ⟨_, .cons ⟨.fill rfl rfl hfill, trivial⟩ (.cons ⟨.pop ?_ hpop₂, trivial⟩
      (.cons ⟨.pop ?_ hp₃, trivial⟩ (.cons ⟨.fetch ?_ hpart hfetch, Or.inr ?_⟩ (.nil _)))), ?_⟩
    · rw [hn₁]
      exact Nat.two_pos
    · rw [setBin_same, hn₂]
      exact Nat.one_pos
    · rw [setBin_same, hn₃]
    · rw [setBin_same]
      exact hsz
    · rw [hn₄]
      exact List.cons_ne_nil _ _
  obtain ⟨k, hrun, hfresh⟩ := hrun
  obtain ⟨-, hpop⟩ := fetch_run_pops (by decide) (by decide) rfl hrun
  obtain ⟨x, hx, bin, -, hpop, -⟩ := hpop (by rw [hn₄]; exact Nat.two_pos)
  exact ⟨s₄, k, x, bin, hrun, hfresh, hpop, hx⟩

/-- The order that breaks it: a thread frees a foreign block, takes it back, and
the tuner fetches two blocks. The first pop is fine; the second finds null and
leaves the count at 1. -/
theorem fetch_unfilled_pops_null :
    ∃ s k bin, Run (FetchStep Cfg.default 0 1) (startState, ⟨[], []⟩)
        [.push 1048576, .pop, .fetch 2, .pop] (s, k) ∧
      k.fresh ≠ [] ∧ (s.threadCache 0 1).blockSize = none ∧ (s.threadCache 0 1).blockNum = 1 ∧
      (s.threadCache 0 1).popBlock false s.mem = some (0, bin) ∧ bin.blockNum = 1 := by
  have h : (((startState.threadCache 0 1).pushBlock false startState.mem 1048576).any fun r₁ =>
      (r₁.1.popBlock false r₁.2).any fun r₂ =>
      (fetch Cfg.default Os.bump 0 1 2
        (({ startState with mem := r₁.2 }.setBin 0 1 r₁.1).setBin 0 1 r₂.2)).any fun s₃ =>
      ((s₃.threadCache 0 1).popBlock false s₃.mem).any fun r₄ =>
      (r₄.2.popBlock false s₃.mem).any fun r₅ =>
      r₁.1.blockNum = 1 ∧ r₂.2.blockNum = 0 ∧ (s₃.threadCache 0 1).blockNum = 2 ∧
        r₄.2.blockSize = none ∧ r₄.2.blockNum = 1 ∧ r₅.1 = 0 ∧ r₅.2.blockNum = 1) = true := by
    decide +kernel
  simp only [Option.any_eq_true, decide_eq_true_eq, Prod.exists] at h
  obtain ⟨b₁, m₁, hpush, x₂, b₂, hpop₂, s₃, hfetch, x₄, b₄, hpop₄, x₅, b₅, hpop₅, hc⟩ := h
  obtain ⟨hn₁, hn₂, hn₃, hsz, hn₄, rfl, hn₅⟩ := hc
  have hp₂ : (({ startState with mem := m₁ }.setBin 0 1 b₁).threadCache 0 1).popBlock false m₁ =
      some (x₂, b₂) := by
    rw [setBin_same]
    exact hpop₂
  refine ⟨s₃.setBin 0 1 b₄, _, b₅, .cons (.push ⟨by decide, by decide⟩ ?_ hpush)
    (.cons (.pop ?_ hp₂) (.cons (.fetch ?_ rfl hfetch)
      (.cons (.pop ?_ hpop₄) (.nil _)))), ?_, ?_, ?_, ?_, hn₅⟩
  · intro y hy
    cases hy
  · rw [setBin_same, hn₁]
    exact Nat.one_pos
  · rw [setBin_same, hn₂]
  · rw [hn₃]
    exact Nat.two_pos
  · rw [hn₃]
    exact List.cons_ne_nil _ _
  · rw [setBin_same, hsz]
  · rw [setBin_same, hn₄]
  · rw [setBin_same, setBin_mem]
    exact hpop₅

end Apfmalloc
