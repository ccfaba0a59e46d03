import Apfmalloc.CacheOps
import Apfmalloc.Base.Runs

/-!
# A bin is a stack, in both builds

`BinInv` is what a bin keeps: it is a stack of blocks (`Holds`) that do not
overlap. One lemma per operation says how the stack changes; together they make
the bin a refinement of a LIFO list of addresses (`LifoStep`), whatever clients
write into the blocks they hold. The list does not know which build it is in, so
the default build and `no_met_stack` return the same pointers.
-/

namespace Apfmalloc

open Base

/-! ## The invariant of a bin -/

/-- Blocks of `bs` bytes at `x` and `y` do not overlap. -/
def BlocksApart (bs x y : Nat) : Prop := x + bs ≤ y ∨ y + bs ≤ x

theorem BlocksApart.symm {bs x y : Nat} (h : BlocksApart bs x y) : BlocksApart bs y x := Or.symm h

theorem BlocksApart.words {bs x y : Nat} (hbs : 8 ≤ bs) (h : BlocksApart bs x y) :
    WordsApart x y := by
  unfold BlocksApart at h
  unfold WordsApart
  omega

structure BinInv (noMet : Bool) (bs : Nat) (m : Mem) (bin : ThreadCacheBin) (l : List Nat) :
    Prop where
  holds : Holds noMet m bin l
  addr : ∀ x ∈ l, BlockAddr x
  apart : l.Pairwise (BlocksApart bs)

theorem binInv_empty (noMet : Bool) (bs : Nat) (m : Mem) {bin : ThreadCacheBin}
    (h : bin.blockNum = 0) : BinInv noMet bs m bin [] :=
  ⟨holds_empty noMet m h, fun _ hx => (List.not_mem_nil hx).elim, List.Pairwise.nil⟩

/-- The stack is a function of the bin and the memory. -/
theorem Holds.unique {noMet : Bool} {m : Mem} {bin : ThreadCacheBin} {l l' : List Nat}
    (h : Holds noMet m bin l) (h' : Holds noMet m bin l') : l = l' := by
  obtain ⟨z, hz⟩ := h.chain
  obtain ⟨z', hz'⟩ := h'.chain
  exact (hz.unique hz' (h.num.symm.trans h'.num)).1

theorem BinInv.popBlock {noMet : Bool} {bs : Nat} {m : Mem} {bin : ThreadCacheBin} {x : Nat}
    {l : List Nat} (h : BinInv noMet bs m bin (x :: l)) :
    ∃ bin', bin.popBlock noMet m = some (x, bin') ∧ BinInv noMet bs m bin' l ∧
      bin'.blockSize = bin.blockSize ∧ bin'.blockNum + 1 = bin.blockNum := by
  have hx := h.addr x (List.mem_cons_self ..)
  obtain ⟨bin', hpop, hholds, hsz, hnum⟩ := h.holds.popBlock (Nat.ne_of_gt hx.pos)
  exact ⟨bin', hpop, ⟨hholds, fun y hy => h.addr y (List.mem_cons_of_mem _ hy),
    (List.pairwise_cons.mp h.apart).2⟩, hsz, hnum⟩

theorem BinInv.pushBlock {noMet : Bool} {bs : Nat} {m m' : Mem} {bin bin' : ThreadCacheBin}
    {x : Nat} {l : List Nat} (h : BinInv noMet bs m bin l) (hbs : 8 ≤ bs) (hx : BlockAddr x)
    (hap : ∀ y ∈ l, BlocksApart bs x y) (hpush : bin.pushBlock noMet m x = some (bin', m')) :
    BinInv noMet bs m' bin' (x :: l) ∧ bin'.blockSize = bin.blockSize := by
  obtain ⟨hholds, hsz, -, -⟩ := h.holds.pushBlock h.addr (fun y hy => (hap y hy).words hbs) hpush
  refine ⟨⟨hholds, ?_, List.pairwise_cons.mpr ⟨hap, h.apart⟩⟩, hsz⟩
  intro y hy
  rcases List.mem_cons.mp hy with rfl | hy
  · exact hx
  · exact h.addr y hy

/-- Only the bytes of the blocks in the bin matter. -/
theorem BinInv.frame {noMet : Bool} {bs : Nat} {m m' : Mem} {bin : ThreadCacheBin} {l : List Nat}
    (h : BinInv noMet bs m bin l) (hbs : 8 ≤ bs)
    (hm : ∀ x ∈ l, ∀ a, x ≤ a → a < x + bs → m' a = m a) : BinInv noMet bs m' bin l := by
  refine ⟨h.holds.frame fun x hx => ?_, h.addr, h.apart⟩
  exact readWord_congr fun i hi => (hm x hx (x + i) (by omega) (by omega)).symm

/-- The blocks of one superblock do not overlap. -/
theorem strideList_apart {sb bs : Nat} : ∀ n, (strideList sb bs n).Pairwise (BlocksApart bs) := by
  intro n
  induction n generalizing sb with
  | zero => exact List.Pairwise.nil
  | succ n ih =>
    rw [strideList, List.pairwise_cons]
    refine ⟨fun y hy => ?_, ih⟩
    exact Or.inl (strideList_inside hy).1

/-- **A fresh superblock**, once its block size is recorded, is the stack of its
first `count` blocks. -/
theorem newSuperBlock_binInv {cfg : Cfg} {os : Os} {t c count segLen n : Nat} {s s' : State}
    (h1 : 1 ≤ c) (h2 : c < maxSzIdx) (hcount : 0 < count)
    (hlen : (cfg.sizeClass c).blockSize * count ≤ segLen)
    (h : newSuperBlock cfg os t c count segLen s = some (n, s')) :
    ∃ sb, s'.threadCache t c = ⟨sb, count, (s.threadCache t c).blockSize⟩ ∧
      ∀ bin : ThreadCacheBin, bin.block = sb → bin.blockNum = count →
        bin.blockSize = some (cfg.sizeClass c).blockSize →
        BinInv cfg.noMetStack (cfg.sizeClass c).blockSize s'.mem bin
          (strideList sb (cfg.sizeClass c).blockSize count) := by
  have hbs := (cfg.classSpec h1 h2).blockSize_ge
  obtain ⟨d, s₁, seg, halloc, -, hseg, hvalid, -, -, -, rfl⟩ := newSuperBlock_cases h
  obtain ⟨-, htc, -⟩ := alloc_pageMap halloc
  refine ⟨seg.ptr, by simp [htc], fun bin hb hn hsz => ?_⟩
  have hend := hvalid.bound
  have hreg := (regionLen_bounds segLen).1
  rw [hseg, addrSpace] at hend
  refine ⟨?_, ?_, strideList_apart count⟩
  · exact holds_linkFresh hbs hcount (Nat.le_trans hlen hreg) (by omega) hb hn hsz
  · intro x hx
    obtain ⟨hlo, hhi⟩ := strideList_inside hx
    have hpos := hvalid.pos
    exact ⟨by omega, by rw [usizeSize_eq]; omega⟩

/-! ## `fill_cache` with an empty partial list -/

theorem mallocFromPartial_none {t c : Nat} {s : State} (h : s.partialList c = none) :
    mallocFromPartial t c s = some (0, s) :=
  mallocFromPartialLoop_none (listPopPartial_none h)

/-- Without a partial list a fill is a new superblock and its block size. -/
theorem fillCache_cases {cfg : Cfg} {os : Os} {t c : Nat} {s s' : State}
    (hempty : s.partialList c = none) (h : fillCache cfg os t c s = some s') :
    ∃ n s₁, mallocFromNewSb cfg os t c s = some (n, s₁) ∧
      s' = s₁.setBin t c
        { s₁.threadCache t c with blockSize := some (cfg.sizeClass c).blockSize } := by
  simp only [fillCache, mallocFromPartial_none hempty, Option.bind_eq_bind, Option.bind_some,
    if_true, Option.bind_eq_some_iff, Prod.exists] at h
  obtain ⟨n, s₁, hnew, h⟩ := h
  split at h
  next => cases h
  next => exact ⟨n, s₁, hnew, (Option.some.inj h).symm⟩

theorem fillCache_binInv {cfg : Cfg} {os : Os} {t c : Nat} {s s' : State} (h1 : 1 ≤ c)
    (h2 : c < maxSzIdx) (hempty : s.partialList c = none) (h : fillCache cfg os t c s = some s') :
    (s'.threadCache t c).blockSize = some (cfg.sizeClass c).blockSize ∧
    BinInv cfg.noMetStack (cfg.sizeClass c).blockSize s'.mem (s'.threadCache t c)
      (strideList (s'.threadCache t c).block (cfg.sizeClass c).blockSize
        (cfg.sizeClass c).blockNum) := by
  have hspec := cfg.classSpec h1 h2
  have hnum := hspec.blockNum_ge
  obtain ⟨n, s₁, hnew, rfl⟩ := fillCache_cases hempty h
  obtain ⟨sb, hbin, hinv⟩ := newSuperBlock_binInv h1 h2 (by omega)
    (Nat.le_of_eq hspec.sbSize_eq.symm) hnew
  rw [setBin_same, setBin_mem, hbin]
  exact ⟨rfl, hinv _ rfl rfl rfl⟩

/-! ## The refinement -/

/-- The operations on one bin with what they return: the superblock a fill got
from the kernel and the block a pop gave. -/
inductive BinOp
  | fill (sb : Nat)
  | pop (x : Nat)
  | push (x : Nat)
  | other
  deriving DecidableEq, Repr

/-- The operation without its answer. -/
def BinOp.call : BinOp → BinOp
  | .pop _ => .pop 0
  | op => op

/-- What a bin is for: a stack of addresses, filled with the `n` blocks of `bs`
bytes of a superblock. -/
inductive LifoStep (bs n : Nat) : List Nat → BinOp → List Nat → Prop
  | fill (sb : Nat) : LifoStep bs n [] (.fill sb) (strideList sb bs n)
  | pop (x : Nat) (l : List Nat) : LifoStep bs n (x :: l) (.pop x) l
  | push (x : Nat) (l : List Nat) : LifoStep bs n l (.push x) (x :: l)
  | other (l : List Nat) : LifoStep bs n l .other l

/-- The operations of thread `t` on its bin of class `c`. A pushed block is not in
the bin, and everything else that happens (writes of clients, other threads)
leaves this bin and the bytes of its blocks alone. -/
inductive BinStep (cfg : Cfg) (t c : Nat) : State → BinOp → State → Prop
  | fill {s s' : State} {os : Os} :
      (s.threadCache t c).blockNum = 0 → s.partialList c = none →
      fillCache cfg os t c s = some s' →
      BinStep cfg t c s (.fill (s'.threadCache t c).block) s'
  | pop {s : State} {x : Nat} {bin : ThreadCacheBin} :
      0 < (s.threadCache t c).blockNum →
      (s.threadCache t c).popBlock cfg.noMetStack s.mem = some (x, bin) →
      BinStep cfg t c s (.pop x) (s.setBin t c bin)
  | push {s : State} {x : Nat} {bin : ThreadCacheBin} {m : Mem} :
      BlockAddr x →
      (∀ l, Holds cfg.noMetStack s.mem (s.threadCache t c) l →
        ∀ y ∈ l, BlocksApart (cfg.sizeClass c).blockSize x y) →
      (s.threadCache t c).pushBlock cfg.noMetStack s.mem x = some (bin, m) →
      BinStep cfg t c s (.push x) ({ s with mem := m }.setBin t c bin)
  | other {s s' : State} :
      s'.threadCache t c = s.threadCache t c →
      (∀ l, Holds cfg.noMetStack s.mem (s.threadCache t c) l → ∀ y ∈ l, ∀ a, y ≤ a →
        a < y + (cfg.sizeClass c).blockSize → s'.mem a = s.mem a) →
      BinStep cfg t c s .other s'

/-- The bin of thread `t` for class `c` is the stack `l`. -/
def BinIs (cfg : Cfg) (t c : Nat) (s : State) (l : List Nat) : Prop :=
  BinInv cfg.noMetStack (cfg.sizeClass c).blockSize s.mem (s.threadCache t c) l

theorem binStep_lifo {cfg : Cfg} {t c : Nat} (h1 : 1 ≤ c) (h2 : c < maxSzIdx) {s s' : State}
    {op : BinOp} {l : List Nat} (h : BinIs cfg t c s l) (hstep : BinStep cfg t c s op s') :
    ∃ l', LifoStep (cfg.sizeClass c).blockSize (cfg.sizeClass c).blockNum l op l' ∧
      BinIs cfg t c s' l' := by
  have hbs := (cfg.classSpec h1 h2).blockSize_ge
  cases hstep with
  | fill hnum hempty hfill =>
    have hl : l = [] := h.holds.unique (holds_empty _ _ hnum)
    subst hl
    exact ⟨_, .fill _, (fillCache_binInv h1 h2 hempty hfill).2⟩
  | @pop x bin hnum hpop =>
    cases l with
    | nil =>
      have := h.holds.num
      rw [List.length_nil] at this
      omega
    | cons y l =>
      obtain ⟨bin', hpop', hinv, -, -⟩ := h.popBlock
      rw [hpop', Option.some.injEq, Prod.mk.injEq] at hpop
      obtain ⟨rfl, rfl⟩ := hpop
      refine ⟨l, .pop _ _, ?_⟩
      rw [BinIs, setBin_same, setBin_mem]
      exact hinv
  | @push x bin m hx hap hpush =>
    obtain ⟨hinv, -⟩ := h.pushBlock hbs hx (hap l h.holds) hpush
    refine ⟨x :: l, .push _ _, ?_⟩
    rw [BinIs, setBin_same, setBin_mem]
    exact hinv
  | other hbin hmem =>
    refine ⟨l, .other _, ?_⟩
    rw [BinIs, hbin]
    exact BinInv.frame h hbs (hmem l h.holds)

/-- The abstract stack answers a sequence of calls in one way only. -/
theorem lifo_deterministic {bs n : Nat} :
    ∀ {ops ops' : List BinOp} {l l₁ l₂ : List Nat}, Run (LifoStep bs n) l ops l₁ →
      Run (LifoStep bs n) l ops' l₂ → ops.map BinOp.call = ops'.map BinOp.call → ops = ops' := by
  intro ops
  induction ops with
  | nil =>
    intro ops' l l₁ l₂ _ _ hcall
    rw [List.map_nil, eq_comm, List.map_eq_nil_iff] at hcall
    exact hcall.symm
  | cons op ops ih =>
    intro ops' l l₁ l₂ hrun hrun' hcall
    cases ops' with
    | nil => cases hcall
    | cons op' ops' =>
      rw [List.map_cons, List.map_cons, List.cons.injEq] at hcall
      obtain ⟨hop, hrest⟩ := hcall
      cases hrun with
      | cons hs hr =>
        cases hrun' with
        | cons hs' hr' =>
          -- the same call on the same stack has the same answer and the same result
          cases hs <;> cases hs' <;> cases hop <;> exact congrArg _ (ih hr hr' hrest)

/-- **A bin refines a LIFO list of addresses.** Whatever the build, every run from
an empty bin is a run of the abstract stack with the same answers; `block_num`
is its length and a pop gives its head. Two builds that make the same calls and
get the same superblocks therefore return the same pointers. -/
theorem bin_refines_stack {cfg : Cfg} {t c : Nat} (h1 : 1 ≤ c) (h2 : c < maxSzIdx) {s₀ s : State}
    {ops : List BinOp} (hnew : s₀.threadCache t c = ThreadCacheBin.new)
    (hrun : Run (BinStep cfg t c) s₀ ops s) :
    (∃ l, Run (LifoStep (cfg.sizeClass c).blockSize (cfg.sizeClass c).blockNum) [] ops l ∧
      (s.threadCache t c).blockNum = l.length ∧
      (0 < (s.threadCache t c).blockNum → ∃ x l' bin, l = x :: l' ∧
        (s.threadCache t c).popBlock cfg.noMetStack s.mem = some (x, bin))) ∧
    ∀ (cfg' : Cfg) (s₀' s' : State) (ops' : List BinOp), cfg'.target = cfg.target →
      s₀'.threadCache t c = ThreadCacheBin.new → Run (BinStep cfg' t c) s₀' ops' s' →
      ops'.map BinOp.call = ops.map BinOp.call → ops' = ops := by
  have hempty : ∀ {cfg : Cfg} {s : State}, s.threadCache t c = ThreadCacheBin.new →
      BinIs cfg t c s [] := fun {cfg s} h => by
    rw [BinIs, h]
    exact binInv_empty _ _ _ rfl
  obtain ⟨l, hlifo, hinv⟩ := hrun.simulation (binStep_lifo h1 h2) (hempty hnew)
  refine ⟨⟨l, hlifo, hinv.holds.num, fun hpos => ?_⟩, ?_⟩
  · cases l with
    | nil =>
      have := hinv.holds.num
      rw [List.length_nil] at this
      omega
    | cons x l =>
      obtain ⟨bin, hpop, -⟩ := hinv.popBlock
      exact ⟨x, l, bin, rfl, hpop⟩
  · intro cfg' s₀' s' ops' htarget hnew' hrun' hcall
    obtain ⟨l', hlifo', -⟩ := hrun'.simulation (binStep_lifo h1 h2) (hempty hnew')
    have hclass : cfg'.sizeClass c = cfg.sizeClass c := by
      rw [Cfg.sizeClass, Cfg.sizeClass, htarget]
    rw [hclass] at hlifo'
    exact lifo_deterministic hlifo' hlifo hcall

/-- A foreign block pushed on a new bin and popped, then a fill and a pop. -/
theorem bin_refines_stack_foreign :
    ∃ s, Run (BinStep Cfg.default 0 1) startState
        [.push 1048576, .pop 1048576, .fill 69632, .pop 69632] s ∧
      ∃ l, Run (LifoStep (Cfg.default.sizeClass 1).blockSize (Cfg.default.sizeClass 1).blockNum) []
        [.push 1048576, .pop 1048576, .fill 69632, .pop 69632] l := by
  have h : (((startState.threadCache 0 1).pushBlock false startState.mem 1048576).any fun r₁ =>
      (r₁.1.popBlock false r₁.2).any fun r₂ =>
      (fillCache Cfg.default Os.bump 0 1
        (({ startState with mem := r₁.2 }.setBin 0 1 r₁.1).setBin 0 1 r₂.2)).any fun s₃ =>
      ((s₃.threadCache 0 1).popBlock false s₃.mem).any fun r₄ =>
      r₂.1 = 1048576 ∧ r₁.1.blockNum = 1 ∧ r₂.2.blockNum = 0 ∧
        (s₃.threadCache 0 1).block = 69632 ∧ 0 < (s₃.threadCache 0 1).blockNum ∧ r₄.1 = 69632) = true := by
    decide +kernel
  simp only [Option.any_eq_true, decide_eq_true_eq, Prod.exists] at h
  obtain ⟨b₁, m₁, hpush, x₂, b₂, hpop, s₃, hfill, x₄, b₄, hpop', hc⟩ := h
  obtain ⟨rfl, hn₁, hn₂, hsb, hn₃, rfl⟩ := hc
  have hrun : Run (BinStep Cfg.default 0 1) startState
      [.push 1048576, .pop 1048576, .fill 69632, .pop 69632] (s₃.setBin 0 1 b₄) := by
    rw [← hsb]
    refine .cons (.push ⟨by decide, by decide⟩ ?_ hpush) (.cons (.pop ?_ ?_)
      (.cons (.fill ?_ rfl hfill) (.cons (.pop hn₃ (hsb ▸ hpop')) (.nil _))))
    · intro l hl y hy
      rw [hl.unique (holds_empty _ _ rfl)] at hy
      cases hy
    · rw [setBin_same, hn₁]
      exact Nat.one_pos
    · rw [setBin_same, setBin_mem]
      exact hpop
    · rw [setBin_same, hn₂]
  obtain ⟨⟨l, hlifo, -, -⟩, -⟩ := bin_refines_stack (by decide) (by decide) rfl hrun
  exact ⟨_, hrun, l, hlifo⟩

end Apfmalloc
