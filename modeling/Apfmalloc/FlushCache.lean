import Apfmalloc.Flush

/-!
# Flushing a lazily linked bin

`flush_cache` reads raw first words where `pop_block` decodes them. In the default
build a word may be 0, "the contiguous neighbour", and a flush that comes to such
a block takes 0 for the next one: the bin is left with NULL on top and the blocks
below still counted, and the early return ends the flush. `LinksOk` says that no
block but the last holds the lazy link. Under it a flush gives every block back;
without it a flush never empties the bin.
-/

namespace Apfmalloc

open Base

/-- No block of the bin but the last one is linked lazily. -/
def LinksOk (m : Mem) (l : List Nat) : Prop := ∀ x ∈ l.dropLast, readWord m x ≠ 0

instance (m : Mem) (l : List Nat) : Decidable (LinksOk m l) :=
  inferInstanceAs (Decidable (∀ x ∈ l.dropLast, readWord m x ≠ 0))

section Loop

variable {cfg : Cfg} {s : State} {H : Heap} {live : List Live} {t c : Nat}

/-- The end of a flush forgets the block size of the bin. -/
theorem HeapInv.forgetSize (h : HeapInv cfg s H live) (hnil : H.bins t c = []) :
    HeapInv cfg (s.setBin t c { s.threadCache t c with blockSize := none }) H live := by
  refine h.rebin ?_
  have hnum := (h.block.holds t c).num
  rw [hnil] at hnum ⊢
  exact holds_empty _ _ hnum

/-- What a flush that came to its end did. -/
structure FlushDone (cfg : Cfg) (t c : Nat) (s s' : State) (H H' : Heap) (live : List Live) :
    Prop where
  heap : HeapInv cfg s' H' live
  num : (s'.threadCache t c).blockNum = 0
  free : ∀ x, H.place x = .free ∨ x ∈ H.bins t c → H'.place x = .free
  owns : ∀ {d sg}, Owns s' d sg → Owns s d sg ∧ (s'.descs d).procHeap = (s.descs d).procHeap

/-- A round changes neither the verdict on the links that are left nor their
words. -/
theorem LinksOk.round {m m' : Mem} {run rest : List Nat}
    (hwords : ∀ w ∈ rest, readWord m' w = readWord m w)
    (hgood : ∀ w ∈ run, w ∈ (run ++ rest).dropLast → readWord m w ≠ 0) :
    LinksOk m (run ++ rest) ↔ LinksOk m' rest := by
  cases rest with
  | nil =>
    rw [List.append_nil] at *
    refine ⟨fun _ x hx => (List.not_mem_nil hx).elim, fun _ x hx => ?_⟩
    exact hgood x (List.dropLast_subset _ hx) hx
  | cons r rest =>
    have hdrop : (run ++ r :: rest).dropLast = run ++ (r :: rest).dropLast :=
      List.dropLast_append_cons
    unfold LinksOk
    rw [hdrop]
    constructor
    · intro h x hx
      rw [hwords x (List.dropLast_subset _ hx)]
      exact h x (List.mem_append_right _ hx)
    · intro h x hx
      rcases List.mem_append.mp hx with hx' | hx'
      · exact hgood x hx' (hdrop ▸ hx)
      · rw [← hwords x (List.dropLast_subset _ hx')]
        exact h x hx'

/-- **The loop of a flush**, by induction on its rounds: it comes to its end if the
links are good, and stops with blocks left if one is not. -/
theorem HeapInv.flushLoop : ∀ (fuel : Nat) {s : State} {H : Heap}, HeapInv cfg s H live →
    AnchorsOk s H → s.pageMap (addrToKey 0) = PageInfo.default → (H.bins t c).length < fuel →
    ∃ s', flushLoop cfg t c fuel s = some s' ∧
      ((LinksOk s.mem (H.bins t c) ∧ ∃ H', FlushDone cfg t c s s' H H' live) ∨
        (¬LinksOk s.mem (H.bins t c) ∧ (s'.threadCache t c).blockNum ≠ 0)) := by
  intro fuel
  induction fuel with
  | zero => intro s H _ _ _ hlt; exact absurd hlt (Nat.not_lt_zero _)
  | succ fuel ih =>
    intro s H h ha hpage hlt
    rw [Apfmalloc.flushLoop]
    cases hl : H.bins t c with
    | nil =>
      have hnum : (s.threadCache t c).blockNum = 0 := by
        rw [(h.block.holds t c).num, hl]
        rfl
      rw [Apfmalloc.flushIter, if_pos hnum]
      refine ⟨_, rfl, Or.inl ⟨fun x hx => (List.not_mem_nil hx).elim, H, h.forgetSize hl, ?_, ?_,
        fun ho => ⟨ho, rfl⟩⟩⟩
      · rw [setBin_same]
        exact hnum
      · intro x hx
        rcases hx with hx | hx
        · exact hx
        · rw [hl] at hx
          exact (List.not_mem_nil hx).elim
    | cons x xs =>
      obtain ⟨s₁, hiter, hcases⟩ := h.flushIter ha hl
      rw [hiter]
      simp only [Option.bind_eq_bind, Option.bind_some, if_true]
      rcases hcases with ⟨d, seg, run, rest, hr, h₁, hwords, hgood⟩ | ⟨-, y, n, hy, hy0, hstuck⟩
      · -- a full round: the rest of the bin is shorter
        have hbins₁ : (H.flush t c d run rest).bins t c = rest := Heap.setBin_same ..
        have hlen := hr.rest_lt
        have hpage₁ : s₁.pageMap (addrToKey 0) = PageInfo.default := by
          obtain ⟨i, y, next, bin, -, -, rfl⟩ := hr.result
          exact finishRound_pageMap _ _ _ _ _ _ _ hpage
        -- the run had good links, so the bin has them exactly if the rest has
        have hlinks : LinksOk s.mem (x :: xs) ↔ LinksOk s₁.mem rest := by
          rw [← hl, hr.bins]
          refine LinksOk.round hwords fun w hw hlast => hgood w hw ?_
          rw [← hl, hr.bins]
          exact hlast
        obtain ⟨s', hloop, hres⟩ := ih h₁ (hr.anchorsOk h ha) hpage₁ (by rw [hbins₁]; omega)
        rw [hbins₁, ← hlinks] at hres
        refine ⟨s', hloop, hres.imp (fun hdone => ⟨hdone.1, ?_⟩) id⟩
        obtain ⟨-, H', hd⟩ := hdone
        refine ⟨H', hd.heap, hd.num, fun w hw => hd.free w ?_, fun ho => ?_⟩
        · by_cases hin : w ∈ run
          · exact Or.inl (if_pos hin)
          · refine hw.imp (fun hp => (if_neg hin).trans hp) fun hm => ?_
            rw [hr.bins, List.mem_append] at hm
            rw [hbins₁]
            exact hm.resolve_left hin
        · obtain ⟨ho₁, hh₁⟩ := hd.owns ho
          obtain ⟨ho₀, hh₀⟩ := hr.owns_old ho₁
          exact ⟨ho₀, hh₁.trans hh₀⟩
      · -- the early return
        have hnot : ¬LinksOk s.mem (x :: xs) := fun hok => hok y hy hy0
        have hne : (s₁.threadCache t c).blockNum ≠ 0 := by
          rw [hstuck.num]
          exact Nat.succ_ne_zero n
        -- The next round looks up the page of null and returns.
        cases fuel with
        | zero =>
          rw [hl, List.length_cons] at hlt
          omega
        | succ fuel =>
          refine ⟨s₁, ?_, Or.inr ⟨hnot, hne⟩⟩
          rw [Apfmalloc.flushLoop, Apfmalloc.flushIter, if_neg hne, getPageInfoForPtr,
            hstuck.block, hstuck.pageMap hpage]
          rfl

end Loop

/-! ## Runs of fills, pops and pushes -/

inductive CacheOp
  | fill (t c : Nat)
  | pop (t c : Nat)
  | push (t c ptr : Nat)
  | write

/-- Every thread's bins, one call at a time: `fill_cache` asserts that the bin is
empty, and a push is of a live block of the class. -/
inductive CacheStep (cfg : Cfg) : State × List Live → CacheOp → State × List Live → Prop
  | fill {s s' : State} {live : List Live} {os : Os} {t c : Nat} :
      1 ≤ c → c < maxSzIdx → (s.threadCache t c).blockNum = 0 →
      fillCache cfg os t c s = some s' → CacheStep cfg (s, live) (.fill t c) (s', live)
  | pop {s : State} {live : List Live} {t c x : Nat} {bin : ThreadCacheBin} :
      (s.threadCache t c).blockNum ≠ 0 →
      (s.threadCache t c).popBlock cfg.noMetStack s.mem = some (x, bin) →
      CacheStep cfg (s, live) (.pop t c)
        (s.setBin t c bin, ⟨x, (cfg.sizeClass c).blockSize, (cfg.sizeClass c).blockSize⟩ :: live)
  | push {s : State} {live : List Live} {t c : Nat} {e : Live} {bin : ThreadCacheBin} {m : Mem} :
      e ∈ live → IsBlock cfg s c e.ptr →
      (s.threadCache t c).pushBlock cfg.noMetStack s.mem e.ptr = some (bin, m) →
      CacheStep cfg (s, live) (.push t c e.ptr) ({ s with mem := m }.setBin t c bin, live.erase e)
  | write {s : State} {live : List Live} {m : Mem} :
      (∀ a, (∀ e ∈ live, ¬(e.ptr ≤ a ∧ a < e.ptr + e.len)) → m a = s.mem a) →
      CacheStep cfg (s, live) .write ({ s with mem := m }, live)

/-- Before the first flush: no block is free, every superblock is full, and the
page of NULL has no descriptor. -/
structure CacheInv (cfg : Cfg) (s : State) (H : Heap) (live : List Live) : Prop where
  heap : HeapInv cfg s H live
  partialList : ∀ c, s.partialList c = none
  full : ∀ {d sg c}, Owns s d sg → (s.descs d).procHeap = some c →
    (s.descs d).anchor.count = 0 ∧ (s.descs d).anchor.state = .full
  null : s.pageMap (addrToKey 0) = PageInfo.default

theorem CacheInv.anchorsOk {cfg : Cfg} {s : State} {H : Heap} {live : List Live}
    (h : CacheInv cfg s H live) : AnchorsOk s H := by
  intro d sg c ho hheap
  obtain ⟨hc, hs⟩ := h.full ho hheap
  refine ⟨by rw [hc]; exact Nat.zero_le _, ?_⟩
  rw [hs]
  exact fun he => by cases he

/-- No segment reaches down to the page of NULL. -/
theorem Segment.Valid.not_null {seg : Segment} (h : seg.Valid) {len : Nat}
    (hb : seg.ptr + len ≤ addrSpace) : ¬PageOf seg.ptr len (addrToKey 0) := by
  intro hk
  obtain ⟨a, hlo, hhi, he⟩ := hk
  have hpos := h.pos
  have hal := h.aligned
  rw [addrToKey_eq (by rw [addrSpace]; omega), addrToKey_eq (by omega)] at he
  rw [page_eq] at *
  omega

theorem CacheInv.fill {cfg : Cfg} {os : Os} {s s' : State} {H : Heap} {live : List Live} {t c : Nat}
    (h : CacheInv cfg s H live) (h1 : 1 ≤ c) (h2 : c < maxSzIdx)
    (hfill : fillCache cfg os t c s = some s') : ∃ H', CacheInv cfg s' H' live := by
  obtain ⟨d, seg, -, H', -, hfr, h', hext⟩ := h.heap.fill h1 h2 (h.partialList c) hfill
  refine ⟨H', h', fun c' => ?_, fun {d' sg c'} ho' hheap' => ?_, ?_⟩
  · rw [hext.mode.partialList]
    exact h.partialList c'
  · by_cases hd : d' = d
    · subst hd
      rw [hfr.desc]
      exact ⟨rfl, rfl⟩
    · have ho := hfr.owns hd ho'
      have hdesc := hfr.descs d' (h.heap.desc.alloced_carved (h.heap.region.alloced ho)) hd
      rw [hdesc] at hheap' ⊢
      exact h.full ho hheap'
  · rw [hfr.pageMap _ (hfr.valid.not_null hfr.bound)]
    exact h.null

theorem cacheStep_inv {cfg : Cfg} {s s' : State × List Live} {op : CacheOp}
    (h : ∃ H, CacheInv cfg s.1 H s.2) (hstep : CacheStep cfg s op s') :
    ∃ H', CacheInv cfg s'.1 H' s'.2 := by
  obtain ⟨H, h⟩ := h
  cases hstep with
  | fill h1 h2 _ hfill => exact h.fill h1 h2 hfill
  | pop hnum hpop =>
    obtain ⟨x, l, bin, -, -, hpop', -, h'⟩ := h.heap.pop _ hnum (Nat.le_refl _)
    rw [hpop', Option.some.injEq, Prod.mk.injEq] at hpop
    obtain ⟨rfl, rfl⟩ := hpop
    exact ⟨_, h', h.partialList, h.full, h.null⟩
  | push he hb hpush => exact ⟨_, h.heap.push he hb hpush, h.partialList, h.full, h.null⟩
  | write hm => exact ⟨H, h.heap.write hm, h.partialList, h.full, h.null⟩

theorem cacheInv_init {cfg : Cfg} {os : Os} {s : State} (h : initMalloc os = some s) :
    CacheInv cfg s Heap.start [] := by
  refine ⟨heapInv_init h, (quiet_init h).partialList, fun ho => ?_, ?_⟩
  · obtain ⟨seg, -, rfl⟩ := initMalloc_cases h
    cases ho
  · obtain ⟨seg, -, rfl⟩ := initMalloc_cases h
    rfl

/-! ## What a flush should do -/

/-- The blocks on the free list of a superblock, from `avail` to its end. -/
structure FreeList (cfg : Cfg) (s : State) (d c : Nat) (seg : Segment) (l : List Nat) : Prop where
  chain : ChainTo (readWord s.mem)
    (seg.ptr + (s.descs d).anchor.avail * (cfg.sizeClass c).blockSize) l
    (seg.ptr + (cfg.sizeClass c).blockNum * (cfg.sizeClass c).blockSize)
  nodup : l.Nodup
  blocks : ∀ x ∈ l, BlockOf cfg s d c x

/-- The bin is empty and each of its blocks is on the free list of its superblock,
unless that was released. -/
structure FlushedAll (cfg : Cfg) (t c : Nat) (s s' : State) (l : List Nat) : Prop where
  num : (s'.threadCache t c).blockNum = 0
  back : ∀ x ∈ l, ∃ d seg, Owns s d seg ∧ BlockOf cfg s d c x ∧
    ((s'.descs d).superBlock = none ∨
      (Owns s' d seg ∧ ∃ fl, FreeList cfg s' d c seg fl ∧ x ∈ fl))

theorem FlushDone.flushedAll {cfg : Cfg} {t c : Nat} {s s' : State} {H H' : Heap} {live : List Live}
    (h : FlushDone cfg t c s s' H H' live) (hi : HeapInv cfg s H live) :
    FlushedAll cfg t c s s' (H.bins t c) := by
  refine ⟨h.num, fun x hx => ?_⟩
  obtain ⟨-, d, hb⟩ := (hi.block.binMem t c x).mp hx
  obtain ⟨seg, f⟩ := hi.region.blockFacts hb
  refine ⟨d, seg, f.owns, hb, ?_⟩
  cases hs : (s'.descs d).superBlock with
  | none => exact Or.inl rfl
  | some sg =>
    obtain ⟨ho, hheap⟩ := h.owns hs
    obtain rfl := ho.unique f.owns
    have ho' : Owns s' d sg := hs
    have hheap' := hheap.trans f.heap
    have hb' : BlockOf cfg s' d c x := ⟨sg, ho', hheap', f.index⟩
    have hfree := h.heap.block.freeMem ho' hheap'
    exact Or.inr ⟨ho', H'.frees d, ⟨h.heap.block.freeChain ho' hheap',
      h.heap.block.freeNodup ho' hheap', fun y hy => ((hfree y).mp hy).2⟩,
      (hfree x).mpr ⟨h.free x (Or.inr hx), hb'⟩⟩

/-- **A flush gives every block back iff no block but the last is lazily linked.**
In every state fills, pops and pushes can lead to. -/
theorem flush_empties_iff {cfg : Cfg} {os : Os} {s₀ s : State} {live : List Live}
    {ops : List CacheOp} (hinit : initMalloc os = some s₀)
    (hrun : Run (CacheStep cfg) (s₀, []) ops (s, live)) {t c : Nat} {l : List Nat}
    (hl : Holds cfg.noMetStack s.mem (s.threadCache t c) l) :
    (∃ s', flushCache cfg t c s = some s' ∧ FlushedAll cfg t c s s' l) ↔ LinksOk s.mem l := by
  obtain ⟨H, h⟩ := Run.invariant (P := fun p => ∃ H, CacheInv cfg p.1 H p.2) cacheStep_inv hrun
    ⟨Heap.start, cacheInv_init hinit⟩
  have hbins : H.bins t c = l := (h.heap.block.holds t c).unique hl
  obtain ⟨s', hflush, hcases⟩ := h.heap.flushLoop (t := t) (c := c) ((s.threadCache t c).blockNum + 1)
    h.anchorsOk h.null (by rw [(h.heap.block.holds t c).num]; exact Nat.lt_succ_self _)
  rw [hbins] at hcases
  constructor
  · intro hex
    obtain ⟨s'', hflush', hall⟩ := hex
    rw [flushCache, hflush, Option.some.injEq] at hflush'
    subst hflush'
    rcases hcases with ⟨hok, -⟩ | ⟨-, hne⟩
    · exact hok
    · exact absurd hall.num hne
  · intro hok
    rcases hcases with ⟨-, H', hdone⟩ | ⟨hnot, -⟩
    · exact ⟨s', hflush, hbins ▸ hdone.flushedAll h.heap⟩
    · exact absurd hok hnot

/-- A superblock of two blocks, one of them popped and pushed back: its link is an
address then, and the flush gives both blocks back. -/
theorem flush_empties_pushed_back :
    ∃ (s₀ s s' : State) (live : List Live) (ops : List CacheOp) (l : List Nat), l.length = 2 ∧
      initMalloc Os.bump = some s₀ ∧ Run (CacheStep Cfg.small) (s₀, []) ops (s, live) ∧
      flushCache Cfg.small 0 39 s = some s' ∧ FlushedAll Cfg.small 0 39 s s' l := by
  have h : ((initMalloc Os.bump).any fun s₀ =>
      (fillCache Cfg.small Os.bump 0 39 s₀).any fun s₁ =>
      ((s₁.threadCache 0 39).popBlock false s₁.mem).any fun r₂ =>
      (r₂.2.pushBlock false s₁.mem r₂.1).any fun r₃ =>
      (s₀.threadCache 0 39).blockNum = 0 ∧ (s₁.threadCache 0 39).blockNum ≠ 0 ∧
        r₃.1.blockNum = 2 ∧ r₃.1.block = r₂.1 ∧ readWord r₃.2 r₂.1 ≠ 0) = true := by
    decide +kernel
  simp only [Option.any_eq_true, decide_eq_true_eq, Prod.exists] at h
  obtain ⟨s₀, hinit, s₁, hfill, x, b₂, hpop, b₃, m₃, hpush, hc⟩ := h
  obtain ⟨hn₀, hn₁, hnum, hblock, hword⟩ := hc
  have hrun₁ : Run (CacheStep Cfg.small) (s₀, []) [.fill 0 39] (s₁, []) :=
    .cons (.fill (by decide) (by decide) hn₀ hfill) (.nil _)
  obtain ⟨H, hinv⟩ := Run.invariant (P := fun p => ∃ H, CacheInv Cfg.small p.1 H p.2)
    cacheStep_inv hrun₁ ⟨Heap.start, cacheInv_init hinit⟩
  obtain ⟨x', l', b', -, hb, hpop', -, -⟩ := hinv.heap.pop 0 hn₁ (Nat.zero_le _)
  obtain rfl : x' = x := by
    rw [show Cfg.small.noMetStack = false from rfl, hpop, Option.some.injEq,
      Prod.mk.injEq] at hpop'
    exact hpop'.1.symm
  have hpush' : ((s₁.setBin 0 39 b₂).threadCache 0 39).pushBlock Cfg.small.noMetStack
      (s₁.setBin 0 39 b₂).mem x' = some (b₃, m₃) := by
    rw [setBin_same]
    exact hpush
  have hrun := hrun₁.append (.cons (.pop hn₁ hpop)
    (.cons (.push (List.mem_cons_self ..) hb hpush') (.nil _)))
  obtain ⟨H', hinv'⟩ := Run.invariant (P := fun p => ∃ H, CacheInv Cfg.small p.1 H p.2)
    cacheStep_inv hrun ⟨Heap.start, cacheInv_init hinit⟩
  have hholds := hinv'.heap.block.holds 0 39
  rw [setBin_same] at hholds
  have hlen : (H'.bins 0 39).length = 2 := by
    rw [← hholds.num]
    exact hnum
  have hlinks : LinksOk m₃ (H'.bins 0 39) := by
    intro w hw
    obtain ⟨v, u, hl⟩ : ∃ v u, H'.bins 0 39 = [v, u] := List.length_eq_two.mp hlen
    rw [hl] at hw hholds
    have hv : v = x' := hholds.block_eq.symm.trans hblock
    rw [List.dropLast_cons_cons, List.dropLast_singleton, List.mem_singleton] at hw
    rw [hw, hv]
    exact hword
  obtain ⟨s', hflush, hall⟩ :=
    (flush_empties_iff hinit hrun (hinv'.heap.block.holds 0 39)).mpr hlinks
  exact ⟨s₀, _, s', _, _, _, hlen, hinit, hrun, hflush, hall⟩

/-- A fresh superblock is lazily linked, so a flush of it stops at once with all
but one of its blocks still in the bin. -/
theorem flush_fresh_stuck :
    ∃ (s₀ s : State) (l : List Nat), initMalloc Os.bump = some s₀ ∧
      Run (CacheStep Cfg.default) (s₀, []) [.fill 0 1] (s, []) ∧
      Holds Cfg.default.noMetStack s.mem (s.threadCache 0 1) l ∧
      ¬∃ s', flushCache Cfg.default 0 1 s = some s' ∧ FlushedAll Cfg.default 0 1 s s' l := by
  have h : ((initMalloc Os.bump).any fun s₀ =>
      (fillCache Cfg.default Os.bump 0 1 s₀).any fun s₁ =>
      (flushCache Cfg.default 0 1 s₁).any fun s₂ =>
      (s₀.threadCache 0 1).blockNum = 0 ∧ (s₂.threadCache 0 1).blockNum ≠ 0) = true := by
    decide +kernel
  simp only [Option.any_eq_true, decide_eq_true_eq] at h
  obtain ⟨s₀, hinit, s₁, hfill, s₂, hflush, hn₀, hne⟩ := h
  have hrun : Run (CacheStep Cfg.default) (s₀, []) [.fill 0 1] (s₁, []) :=
    .cons (.fill (by decide) (by decide) hn₀ hfill) (.nil _)
  obtain ⟨H, hinv⟩ := Run.invariant (P := fun p => ∃ H, CacheInv Cfg.default p.1 H p.2)
    cacheStep_inv hrun ⟨Heap.start, cacheInv_init hinit⟩
  refine ⟨s₀, s₁, H.bins 0 1, hinit, hrun, hinv.heap.block.holds 0 1, fun hex => ?_⟩
  obtain ⟨s', hflush', hall⟩ := hex
  rw [hflush, Option.some.injEq] at hflush'
  subst hflush'
  exact hne hall.num

end Apfmalloc
