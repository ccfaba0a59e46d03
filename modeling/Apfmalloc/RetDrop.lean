import Apfmalloc.Refill

/-!
# What `ret` does with the blocks it takes

The tuner's `ret` is meant to move blocks of a bin back to the central reserve. It pops
them and drops the pointers: no free list, no anchor and no partial list is touched.
For the heap invariant that is a `pop` whose block nobody will ever free, so the
dropped blocks count as live from then on, and `ret_returns_iff` says that only a `ret`
of nothing returns all it took.
-/

namespace Apfmalloc

open Base

/-! ## Popping and dropping -/

/-- The live blocks once the blocks of `l` were popped, one after the other. -/
def dropBlocks (cfg : Cfg) (c : Nat) (l : List Nat) (live : List Live) : List Live :=
  l.foldl (fun live x => ⟨x, (cfg.sizeClass c).blockSize, (cfg.sizeClass c).blockSize⟩ :: live) live

/-- **Popping `n` blocks** is `n` pops. -/
theorem HeapInv.popBlocks {cfg : Cfg} {t c : Nat} :
    ∀ (n : Nat) {s : State} {H : Heap} {live : List Live}, HeapInv cfg s H live →
      n ≤ (s.threadCache t c).blockNum →
      ∃ bin H', Apfmalloc.popBlocks cfg.noMetStack s.mem n (s.threadCache t c) = some bin ∧
        HeapInv cfg (s.setBin t c bin) H' (dropBlocks cfg c ((H.bins t c).take n) live) ∧
        ∀ x, H'.place x = .free → H.place x = .free := by
  intro n
  induction n with
  | zero =>
    intro s H live h _
    refine ⟨s.threadCache t c, H, rfl, ?_, fun _ hx => hx⟩
    rw [setBin_self]
    exact h
  | succ n ih =>
    intro s H live h hn
    obtain ⟨x, l, bin, hl, -, hpop, -, h'⟩ := h.pop (t := t) (c := c)
      (cfg.sizeClass c).blockSize (by omega) (Nat.le_refl _)
    have hnum : bin.blockNum + 1 = (s.threadCache t c).blockNum := by
      have h₀ := (h.block.holds t c).num
      have h₁ := (h'.block.holds t c).num
      rw [setBin_same] at h₁
      change bin.blockNum = ((H.setBin t c l).bins t c).length at h₁
      rw [Heap.setBin_same] at h₁
      rw [hl, List.length_cons] at h₀
      omega
    obtain ⟨bin', H', hpops, hi', hfree⟩ := ih h' (by rw [setBin_same]; omega)
    rw [setBin_same, setBin_mem] at hpops
    refine ⟨bin', H', ?_, ?_, fun y hy => ?_⟩
    · rw [Apfmalloc.popBlocks, hpop]
      exact hpops
    · rw [setBin_setBin] at hi'
      change HeapInv cfg _ H' (dropBlocks cfg c (((H.setBin t c l).bins t c).take n) _) at hi'
      rw [Heap.setBin_same] at hi'
      rw [hl, List.take_succ_cons]
      exact hi'
    · have hy' := hfree y hy
      by_cases hyx : y = x
      · rw [hyx, Heap.setPlace_same] at hy'
        cases hy'
      · rw [Heap.setPlace_other _ _ hyx] at hy'
        exact hy'

/-- **`ret`** of no more than there is takes the top blocks and gives them to nobody. -/
theorem HeapInv.ret {cfg : Cfg} {t c count : Nat} {s : State} {H : Heap} {live : List Live}
    (h : HeapInv cfg s H live) (hcount : count ≤ (s.threadCache t c).blockNum) :
    ∃ bin H', Apfmalloc.ret cfg t c count s = some (s.setBin t c bin) ∧
      HeapInv cfg (s.setBin t c bin) H' (dropBlocks cfg c ((H.bins t c).take count) live) ∧
      ∀ x, H'.place x = .free → H.place x = .free := by
  obtain ⟨bin, H', hpops, hi', hfree⟩ := h.popBlocks count hcount
  refine ⟨bin, H', ?_, hi', hfree⟩
  rw [Apfmalloc.ret, if_neg (by omega), hpops]
  rfl

/-! ## The reserve -/

/-- A block of class `c` that a later refill can hand out: it is on the free list of a
superblock on the partial list, or its superblock went back to the kernel. -/
inductive InReserve (cfg : Cfg) (s : State) (c x : Nat) : Prop
  | free {d : Nat} {seg : Segment} {fl P : List Nat} : Owns s d seg →
      (s.descs d).procHeap = some c → FreeList cfg s d c seg fl → x ∈ fl →
      PartialLinked s (s.partialList c) P → d ∈ P → InReserve cfg s c x
  | released : (∀ d seg, Owns s d seg → x < seg.ptr ∨ seg.ptr + seg.length ≤ x) →
      InReserve cfg s c x

/-- The free list that is there is the only one. -/
theorem HeapInv.freeList_unique {cfg : Cfg} {s : State} {H : Heap} {live : List Live}
    (h : HeapInv cfg s H live) {d c : Nat} {seg : Segment} {fl : List Nat} (ho : Owns s d seg)
    (hheap : (s.descs d).procHeap = some c) (hfl : FreeList cfg s d c seg fl) : fl = H.frees d := by
  have hbs := (cfg.classSpec (h.region.small ho hheap).one_le (h.region.small ho hheap).lt).blockSize_ge
  -- the end of the list is one past the last block
  have hend : ∀ x, BlockOf cfg s d c x →
      x ≠ seg.ptr + (cfg.sizeClass c).blockNum * (cfg.sizeClass c).blockSize := by
    intro x hx
    obtain ⟨sg, f⟩ := h.region.blockFacts hx
    cases f.owns.unique ho
    have hhi := f.hi
    rw [f.spec.sbSize_eq, Nat.mul_comm] at hhi
    omega
  refine hfl.chain.unique_end (h.block.freeChain ho hheap) (fun hm => hend _ (hfl.blocks _ hm) rfl)
    fun hm => hend _ ((h.block.freeMem ho hheap _).mp hm).2 rfl

/-- What is still handed out or in a bin is not in the reserve. -/
theorem HeapInv.not_inReserve {cfg : Cfg} {s : State} {H : Heap} {live : List Live}
    (h : HeapInv cfg s H live) {c x : Nat} (hb : IsBlock cfg s c x) (hx : H.place x ≠ .free) :
    ¬InReserve cfg s c x := by
  intro hr
  cases hr with
  | @free d seg fl P ho hheap hfl hm =>
    rw [h.freeList_unique ho hheap hfl] at hm
    exact hx ((h.block.freeMem ho hheap x).mp hm).1
  | released hout =>
    obtain ⟨d, hb⟩ := hb
    obtain ⟨seg, f⟩ := h.region.blockFacts hb
    have := f.lo
    have := f.hi
    have := f.spec.blockSize_ge
    have hlen := f.super.length
    rcases hout d seg f.owns with hlt | hge <;> omega

/-! ## Runs -/

inductive TunedOp
  | alloc (op : AllocOp)
  | ret (t c count : Nat)

/-- Calls of the tuned build: allocations, frees, client writes, and `ret`, which a free
makes before it pushes its block. Dropped blocks join the live ones. -/
inductive TunedStep (cfg : Cfg) : State × List Live → TunedOp → State × List Live → Prop
  | alloc {p p' : State × List Live} {op : AllocOp} :
      AllocStep cfg p op p' → TunedStep cfg p (.alloc op) p'
  | ret {s s' : State} {live : List Live} {t c count : Nat} {l : List Nat} :
      Holds cfg.noMetStack s.mem (s.threadCache t c) l → Apfmalloc.ret cfg t c count s = some s' →
      TunedStep cfg (s, live) (.ret t c count) (s', dropBlocks cfg c (l.take count) live)

theorem RunInv.ret {cfg : Cfg} {t c count : Nat} {s : State} {H : Heap} {live : List Live}
    (h : RunInv cfg s H live) (hcount : count ≤ (s.threadCache t c).blockNum) :
    ∃ bin H', Apfmalloc.ret cfg t c count s = some (s.setBin t c bin) ∧
      RunInv cfg (s.setBin t c bin) H' (dropBlocks cfg c ((H.bins t c).take count) live) := by
  obtain ⟨bin, H', hret, hi', hfree⟩ := h.heap.ret hcount
  exact ⟨bin, H', hret, hi', h.quiet.of_same ⟨rfl, rfl, rfl⟩,
    fun c' x hb hx => h.noFree c' x hb (hfree x hx)⟩

theorem tunedStep_inv {cfg : Cfg} (hapf : cfg.useApf = true) {p p' : State × List Live}
    {op : TunedOp} (h : ∃ H, RunInv cfg p.1 H p.2) (hstep : TunedStep cfg p op p') :
    ∃ H', RunInv cfg p'.1 H' p'.2 := by
  cases hstep with
  | alloc hstep => exact allocStep_inv hapf h hstep
  | @ret s s' live t c count l hl hret =>
    obtain ⟨H, h⟩ := h
    have hcount : count ≤ (s.threadCache t c).blockNum := by
      refine Nat.not_lt.mp fun hlt => ?_
      rw [Apfmalloc.ret, if_pos hlt] at hret
      cases hret
    obtain ⟨bin, H', hret', h'⟩ := h.ret hcount
    rw [hret', Option.some.injEq] at hret
    subst hret
    rw [(h.heap.block.holds t c).unique hl] at h'
    exact ⟨H', h'⟩

/-- A run to a bin that is not empty: one allocation of eight bytes. -/
theorem tunedRun_malloc : ∃ (s₀ s : State) (live : List Live), initMalloc Os.bump = some s₀ ∧
    Run (TunedStep Cfg.default) (s₀, []) [.alloc (.malloc 0 8)] (s, live) ∧
    (s.threadCache 0 1).blockNum ≠ 0 := by
  have h : ((initMalloc Os.bump).any fun s₀ =>
      (allocateToCache Cfg.default Os.bump none 0 8 1 s₀).any fun r =>
      (r.2.threadCache 0 1).blockNum ≠ 0) = true := by
    decide +kernel
  simp only [Option.any_eq_true, decide_eq_true_eq, Prod.exists] at h
  obtain ⟨s₀, hinit, p, s, hsmall, hne⟩ := h
  have hmalloc : doMalloc Cfg.default Os.bump none 0 8 s₀ = some (p, s) := by
    rw [doMalloc, if_neg (by decide), getSizeClass_eight]
    exact hsmall
  exact ⟨s₀, s, _, hinit, .cons (.alloc (.malloc (by decide) hmalloc)) (.nil _), hne⟩

/-- **`ret` returns what it takes only if it takes nothing**, in every bin of every
state the tuned build can reach. -/
theorem ret_returns_iff {cfg : Cfg} (hapf : cfg.useApf = true) {os : Os} {s₀ s : State}
    {live : List Live} {ops : List TunedOp} (hinit : initMalloc os = some s₀)
    (hrun : Run (TunedStep cfg) (s₀, []) ops (s, live)) {t c count : Nat} {l : List Nat}
    (hl : Holds cfg.noMetStack s.mem (s.threadCache t c) l) (hcount : count ≤ l.length) :
    (∃ s', ret cfg t c count s = some s' ∧ ∀ x ∈ l.take count, InReserve cfg s' c x) ↔
      count = 0 := by
  obtain ⟨H, h⟩ := Run.invariant (P := fun p => ∃ H, RunInv cfg p.1 H p.2) (tunedStep_inv hapf) hrun
    ⟨Heap.start, runInv_init hinit⟩
  have hbins := (h.heap.block.holds t c).unique hl
  have hle : count ≤ (s.threadCache t c).blockNum := hl.num ▸ hcount
  obtain ⟨bin, H', hret, h'⟩ := h.ret hle
  constructor
  · intro hex
    obtain ⟨s', hret', hall⟩ := hex
    rw [hret, Option.some.injEq] at hret'
    subst hret'
    refine Decidable.byContradiction fun hne => ?_
    cases l with
    | nil => exact hne (Nat.le_zero.mp hcount)
    | cons x l =>
      obtain ⟨n, rfl⟩ := Nat.exists_eq_succ_of_ne_zero hne
      have hb : IsBlock cfg s c x :=
        ((h.heap.block.binMem t c x).mp (by rw [hbins]; exact List.mem_cons_self ..)).2
      exact h'.heap.not_inReserve hb (h'.noFree c x hb)
        (hall x (by rw [List.take_succ_cons]; exact List.mem_cons_self ..))
  · intro h0
    subst h0
    exact ⟨_, hret, fun x hx => (List.not_mem_nil hx).elim⟩

theorem ret_returns_iff_nothing :
    ∃ (s₀ s : State) (live : List Live) (l : List Nat), initMalloc Os.bump = some s₀ ∧
      Run (TunedStep Cfg.default) (s₀, []) [.alloc (.malloc 0 8)] (s, live) ∧
      Holds Cfg.default.noMetStack s.mem (s.threadCache 0 1) l ∧ l ≠ [] ∧
      ∃ s', ret Cfg.default 0 1 0 s = some s' ∧ ∀ x ∈ l.take 0, InReserve Cfg.default s' 1 x := by
  obtain ⟨s₀, s, live, hinit, hrun, hne⟩ := tunedRun_malloc
  obtain ⟨H, h⟩ := Run.invariant (P := fun p => ∃ H, RunInv Cfg.default p.1 H p.2)
    (tunedStep_inv rfl) hrun ⟨Heap.start, runInv_init hinit⟩
  have hl := h.heap.block.holds 0 1
  refine ⟨s₀, s, live, H.bins 0 1, hinit, hrun, hl, fun he => ?_,
    (ret_returns_iff rfl hinit hrun hl (Nat.zero_le _)).mpr rfl⟩
  rw [hl.num, he] at hne
  exact hne rfl

/-- The top block of a bin, returned by the tuner, is on no free list. -/
theorem ret_drops_block :
    ∃ (s₀ s s' : State) (live : List Live) (l : List Nat) (x : Nat),
      initMalloc Os.bump = some s₀ ∧
      Run (TunedStep Cfg.default) (s₀, []) [.alloc (.malloc 0 8)] (s, live) ∧
      Holds Cfg.default.noMetStack s.mem (s.threadCache 0 1) l ∧ 1 ≤ l.length ∧ x ∈ l.take 1 ∧
      ret Cfg.default 0 1 1 s = some s' ∧ ¬InReserve Cfg.default s' 1 x := by
  obtain ⟨s₀, s, live, hinit, hrun, hne⟩ := tunedRun_malloc
  obtain ⟨H, h⟩ := Run.invariant (P := fun p => ∃ H, RunInv Cfg.default p.1 H p.2)
    (tunedStep_inv rfl) hrun ⟨Heap.start, runInv_init hinit⟩
  have hl := h.heap.block.holds 0 1
  have hone : 1 ≤ (s.threadCache 0 1).blockNum := Nat.pos_of_ne_zero hne
  obtain ⟨bin, H', hret, h'⟩ := h.ret hone
  cases hbins : H.bins 0 1 with
  | nil =>
    rw [hl.num, hbins] at hne
    exact absurd rfl hne
  | cons x l =>
    have hb : IsBlock Cfg.default s 1 x :=
      ((h.heap.block.binMem 0 1 x).mp (by rw [hbins]; exact List.mem_cons_self ..)).2
    rw [hbins] at hl
    exact ⟨s₀, s, _, live, x :: l, x, hinit, hrun, hl, Nat.succ_pos _, List.mem_cons_self .., hret,
      h'.heap.not_inReserve hb (h'.noFree 1 x hb)⟩

end Apfmalloc
