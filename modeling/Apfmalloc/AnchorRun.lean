import Apfmalloc.Refill
import Apfmalloc.Base.Groups

/-!
# How many blocks of a superblock are free

In the `no_met_stack` build every link is an address, so a flush always comes to
its end and a refill from the partial list finds a finished stack. What may go
wrong is the count: `flush_cache` stores the length of the run it just moved, not
that plus what was on the free list before. So a run that falls on a superblock
which already has free blocks, and does not complete it, leaves a count that is too
small; the next refill takes that many blocks and drops the others.

`RunsOk` is the condition on a flush: each run of the bin falls on a superblock with
no free block, or completes it.
-/

namespace Apfmalloc

open Base

/-! ## The runs of a flush -/

/-- Each run falls on an owner without free blocks, or brings the last ones. -/
def RunsOk (max : Nat → Nat) : (Nat → Nat) → List (Nat × Nat) → Prop
  | _, [] => True
  | count, (d, n) :: r =>
    (count d = 0 ∨ count d + n = max d) ∧
      RunsOk max (fun d' => if d' = d then count d + n else count d') r

instance RunsOk.decidable (max : Nat → Nat) :
    ∀ (count : Nat → Nat) (r : List (Nat × Nat)), Decidable (RunsOk max count r)
  | _, [] => inferInstanceAs (Decidable True)
  | count, (d, n) :: r =>
    have := RunsOk.decidable max (fun d' => if d' = d then count d + n else count d') r
    inferInstanceAs (Decidable (_ ∧ _))

/-- The condition only looks at the counts of the owners. -/
theorem RunsOk.congr {max max' : Nat → Nat} :
    ∀ {r : List (Nat × Nat)} {count count' : Nat → Nat},
      (∀ p ∈ r, count' p.1 = count p.1 ∧ max' p.1 = max p.1) → RunsOk max count r →
      RunsOk max' count' r := by
  intro r
  induction r with
  | nil => intro count count' _ _; trivial
  | cons p r ih =>
    intro count count' h hr
    obtain ⟨d, n⟩ := p
    obtain ⟨hc, hm⟩ := h (d, n) (List.mem_cons_self ..)
    simp only at hc hm
    refine ⟨by rw [hc, hm]; exact hr.1, ih (fun p hp => ⟨?_, ?_⟩) hr.2⟩
    · rw [hc, (h p (List.mem_cons_of_mem _ hp)).1]
    · exact (h p (List.mem_cons_of_mem _ hp)).2

/-! ## Refills -/

section Steps

variable {cfg : Cfg} {s s' : State} {H : Heap} {P : Nat → List Nat} {live : List Live}

/-- `malloc_from_partial` always has an answer, and takes a free list whole. -/
theorem mallocFromPartial_spec (hnomet : cfg.noMetStack = true) {t c : Nat}
    (hi : HeapInv cfg s H live) (h : PartialInv cfg s H P) (hnil : H.bins t c = []) :
    ∃ n s' H' P', mallocFromPartial t c s = some (n, s') ∧ HeapInv cfg s' H' live ∧
      PartialInv cfg s' H' P' ∧ s'.mem = s.mem ∧ Taken cfg t c s s' H H' n := by
  exact mallocFromPartialLoop_spec hnomet _ hi h hnil (Nat.lt_succ_of_le (h.length_le hi c))

/-- A new superblock is full. -/
theorem PartialInv.fresh (h : PartialInv cfg s H P) (hi : HeapInv cfg s H live) {t c d : Nat}
    {seg : Segment} {free' blocks : List Nat} (h1 : 1 ≤ c) (h2 : c < maxSzIdx)
    (hfr : Fresh cfg c d seg s s' H) (hlist : s'.partialList = s.partialList) :
    PartialInv cfg s' (Heap.addSuper { H with alloced := d :: H.alloced, freeDescs := free' }
      t c d blocks) P := by
  have hne : ∀ c', ∀ d' ∈ P c', d' ≠ d := fun c' d' hd' he =>
    hfr.not_alloced (he ▸ (h.listed c' d' hd').alloced)
  have hdesc : ∀ d' ∈ H.alloced, d' ≠ d → s'.descs d' = s.descs d' := fun d' hd' hn =>
    hfr.descs d' (hi.desc.alloced_carved hd') hn
  have hnum := (cfg.classSpec h1 h2).blockNum_ge
  refine ⟨fun c' => ?_, h.nodup, fun c' d' hd' => ?_, fun {d' sg c'} ho hheap => ?_⟩
  · rw [hlist]
    refine (h.linked c').congr fun d' hd' => ?_
    rw [hdesc d' (h.listed c' d' hd').alloced (hne c' d' hd')]
  · have hl := h.listed c' d' hd'
    have hd := hdesc d' hl.alloced (hne c' d' hd')
    refine ⟨List.mem_cons_of_mem _ hl.alloced, by rw [hd]; exact hl.heap, ?_⟩
    unfold Owns
    rw [hd]
    exact hl.state
  · by_cases hd : d' = d
    · subst hd
      have hfrees : (Heap.addSuper { H with alloced := d' :: H.alloced, freeDescs := free' }
        t c d' blocks).frees d' = [] := if_pos rfl
      rw [hfr.desc] at hheap
      obtain rfl : c = c' := Option.some.inj hheap
      refine ⟨by rw [hfr.desc, hfrees]; rfl, ?_, Or.inl ⟨by rw [hfr.desc]; rfl, hfrees⟩⟩
      rw [hfrees, List.length_nil]
      omega
    · have hfrees : (Heap.addSuper { H with alloced := d :: H.alloced, freeDescs := free' }
        t c d blocks).frees d' = H.frees d' := if_neg hd
      have ho' := hfr.owns hd ho
      have hd' := hdesc d' (hi.region.alloced ho') hd
      rw [hd'] at hheap
      have he := h.owner ho' hheap
      exact ⟨by rw [hd', hfrees]; exact he.count, by rw [hfrees]; exact he.lt,
        by rw [hd', hfrees]; exact he.state⟩

/-- The block size of a bin plays no part in the `no_met_stack` build. -/
theorem HeapInv.resize (h : HeapInv cfg s H live) (hnomet : cfg.noMetStack = true) (t c : Nat)
    (b : Option Nat) :
    HeapInv cfg (s.setBin t c { s.threadCache t c with blockSize := b }) H live := by
  obtain ⟨hnum, z, hchain⟩ := h.block.holds t c
  refine h.rebin ⟨hnum, z, hchain.congr fun x _ => ?_⟩
  rw [hnomet, nextBlock_noMet, nextBlock_noMet]

/-- **A fill**, from the partial list or from the kernel. -/
theorem PartialInv.fill {os : Os} (hnomet : cfg.noMetStack = true) (h : PartialInv cfg s H P)
    (hi : HeapInv cfg s H live) {t c : Nat} (h1 : 1 ≤ c) (h2 : c < maxSzIdx)
    (hnum : (s.threadCache t c).blockNum = 0) (hfill : fillCache cfg os t c s = some s') :
    ∃ H' P', HeapInv cfg s' H' live ∧ PartialInv cfg s' H' P' := by
  have hnil : H.bins t c = [] := by
    have := (hi.block.holds t c).num
    rw [hnum] at this
    exact List.length_eq_zero_iff.mp this.symm
  obtain ⟨n, s₁, H₁, P₁, hpart, hi₁, h₁, -, htaken⟩ := mallocFromPartial_spec hnomet hi h hnil
  cases htaken with
  | none hlist _ _ _ _ _ =>
    -- as if the list had been empty from the start
    have hfill₁ : fillCache cfg os t c s₁ = some s' := by
      rw [fillCache, mallocFromPartial_none hlist]
      rw [fillCache, hpart] at hfill
      exact hfill
    obtain ⟨d, seg, free', H', rfl, hfr, hi', hext⟩ := hi₁.fill h1 h2 hlist hfill₁
    exact ⟨_, P₁, hi', h₁.fresh hi₁ h1 h2 hfr hext.mode.partialList⟩
  | some ho hheap hne hbins hfrees ho' hanchor =>
    have hpos : (s₁.threadCache t c).blockNum ≠ 0 := by
      rw [(hi₁.block.holds t c).num, hbins]
      exact Nat.ne_of_gt (List.length_pos_iff.mpr hne)
    rw [fillCache, hpart] at hfill
    simp only [Option.bind_eq_bind, Option.bind_some, Nat.one_ne_zero, if_false, hpos, or_self,
      Option.some.injEq] at hfill
    subst hfill
    exact ⟨H₁, P₁, hi₁.resize hnomet t c _, h₁.congr rfl rfl rfl rfl⟩

/-! ## Flushes -/

/-- The list of class `c` with `d` in front. -/
def consOf (P : Nat → List Nat) (c d : Nat) : Nat → List Nat :=
  fun c' => if c' = c then d :: P c else P c'

theorem finishRound_partialList (s : State) (cfg : Cfg) (c d : Nat) (seg : Segment)
    (old new : Anchor) :
    (new.state = .empty → (s.finishRound cfg c d seg old new).partialList = s.partialList ∧
      ((s.finishRound cfg c d seg old new).descs d).nextPartial = (s.descs d).nextPartial) ∧
    (new.state ≠ .empty → old.state = .full →
      (s.finishRound cfg c d seg old new).partialList =
        (s.setPartialList c (some (pushNewHead d (s.partialList c)))).partialList ∧
      ((s.finishRound cfg c d seg old new).descs d).nextPartial = s.partialList c) := by
  unfold State.finishRound
  refine ⟨fun he => ?_, fun he hf => ?_⟩
  · rw [if_pos he]
    refine ⟨rfl, ?_⟩
    show ((State.setDesc _ d _).descs d).nextPartial = _
    rw [setDesc_same]
  · rw [if_neg he, if_pos hf]
    refine ⟨rfl, ?_⟩
    show ((State.setDesc _ d _).descs d).nextPartial = _
    rw [setDesc_same]

/-- What a round does to the list of the class. -/
theorem Round.partialList {t c d : Nat} {seg : Segment} {run rest : List Nat}
    (hr : Round cfg t c s s' H d seg run rest) :
    ((s'.descs d).anchor.state = .empty → s'.partialList = s.partialList ∧
      (s'.descs d).nextPartial = (s.descs d).nextPartial) ∧
    ((s'.descs d).anchor.state ≠ .empty → (s.descs d).anchor.state = .full →
      s'.partialList = (s.setPartialList c (some (pushNewHead d (s.partialList c)))).partialList ∧
      (s'.descs d).nextPartial = s.partialList c) := by
  obtain ⟨i, -, -, hanchor, -⟩ := hr.same_desc
  obtain ⟨j, y, next, bin, -, -, hs'⟩ := hr.result
  have hanchor' : (s'.descs d).anchor =
      flushAnchor (s.descs d).anchor (s.descs d).maxCount j run.length := by
    rw [hs', (finishRound_same ..).2.1, flushTo_same]
  rw [hanchor', hs']
  obtain ⟨h1, h2⟩ := finishRound_partialList (s.flushTo t c d bin y next
    (flushAnchor (s.descs d).anchor (s.descs d).maxCount j run.length)) cfg c d seg
    (s.descs d).anchor (flushAnchor (s.descs d).anchor (s.descs d).maxCount j run.length)
  refine ⟨fun he => ?_, fun he hf => h2 he hf⟩
  obtain ⟨hp, hn⟩ := h1 he
  refine ⟨hp, hn.trans ?_⟩
  rw [flushTo_same]

section Round

variable {t c d : Nat} {seg : Segment} {run rest : List Nat}

/-- The other owners are as before, on whichever lists have them. -/
theorem PartialInv.round_owner (h : PartialInv cfg s H P) (hr : Round cfg t c s s' H d seg run rest)
    {P' : Nat → List Nat} (hsub : ∀ c' d', d' ∈ P c' → d' ∈ P' c') {d' c' : Nat} {sg : Segment}
    (hne : d' ≠ d) (ho : Owns s' d' sg) (hheap : (s'.descs d').procHeap = some c') :
    AnchorExact cfg s' (H.flush t c d run rest) P' d' c' := by
  have hfrees : (H.flush t c d run rest).frees d' = H.frees d' := if_neg hne
  have hd := hr.other_desc hne
  rw [Owns, hd] at ho
  rw [hd] at hheap
  have he := h.owner ho hheap
  refine ⟨by rw [hd, hfrees]; exact he.count, by rw [hfrees]; exact he.lt, ?_⟩
  rw [hd, hfrees]
  exact he.state.imp id fun hst => ⟨hst.1, hst.2.1, hsub c' d' hst.2.2⟩

theorem PartialInv.round_listed (h : PartialInv cfg s H P)
    (hr : Round cfg t c s s' H d seg run rest) {c' d' : Nat} (hd' : d' ∈ P c') (hne : d' ≠ d) :
    Listed s' (H.flush t c d run rest) c' d' := by
  have hl := h.listed c' d' hd'
  have hd := hr.other_desc hne
  refine ⟨hl.alloced, by rw [hd]; exact hl.heap, ?_⟩
  unfold Owns
  rw [hd]
  exact hl.state

/-- All blocks are back: the superblock is released, its descriptor stays where it is. -/
theorem PartialInv.round_full (h : PartialInv cfg s H P) (hr : Round cfg t c s s' H d seg run rest)
    (hfull : (s.descs d).anchor.count + run.length = (s.descs d).maxCount) :
    PartialInv cfg s' (H.flush t c d run rest) P := by
  obtain ⟨i, -, hheap', hanchor, hsuper⟩ := hr.same_desc
  have hempty : (s'.descs d).anchor.state = .empty := by
    rw [hanchor]
    exact (flushAnchor_empty (h.anchorsOk hr.owns hr.heap).2).mpr hfull
  have hnone : (s'.descs d).superBlock = none := by
    rw [hsuper, if_pos hempty]
  obtain ⟨hpl, hnp⟩ := hr.partialList.1 hempty
  refine ⟨fun c' => ?_, h.nodup, fun c' d' hd' => ?_, fun {d' sg c'} ho hheap => ?_⟩
  · rw [hpl]
    refine (h.linked c').congr fun d' _ => ?_
    by_cases hd : d' = d
    · rw [hd, hnp]
    · rw [hr.other_desc hd]
  · by_cases hd : d' = d
    · subst hd
      have hl := h.listed c' d' hd'
      have hc : c' = c := Option.some.inj (hl.heap.symm.trans hr.heap)
      exact ⟨hl.alloced, hc ▸ hheap', Or.inr ⟨hempty, hnone⟩⟩
    · exact h.round_listed hr hd' hd
  · by_cases hd : d' = d
    · rw [hd, Owns, hnone] at ho
      cases ho
    · exact h.round_owner hr (fun _ _ hm => hm) hd ho hheap

theorem mem_consOf {P : Nat → List Nat} {c d c' d' : Nat} :
    d' ∈ consOf P c d c' ↔ (c' = c ∧ d' = d) ∨ d' ∈ P c' := by
  unfold consOf
  split
  next hc =>
    subst hc
    rw [List.mem_cons, and_iff_right rfl]
  next hc => exact ⟨Or.inr, fun hm => hm.resolve_left fun hx => hc hx.1⟩

/-- The anchor of a superblock that had no free block and now has some. -/
theorem PartialInv.round_anchor (h : PartialInv cfg s H P) (hi : HeapInv cfg s H live)
    (hr : Round cfg t c s s' H d seg run rest) (hnil : H.frees d = [])
    (hold : (s.descs d).anchor.state = .full)
    (hfull : (s.descs d).anchor.count + run.length ≠ (s.descs d).maxCount) :
    (s'.descs d).anchor.state = .partly ∧ (s'.descs d).anchor.count = run.length ∧
      run.length < (cfg.sizeClass c).blockNum := by
  obtain ⟨i, -, -, hanchor, -⟩ := hr.same_desc
  have hsm := hi.region.small hr.owns hr.heap
  have hlt := (cfg.classSpec hsm.one_le hsm.lt).blockNum_lt
  have hcount := (h.owner hr.owns hr.heap).count
  obtain ⟨hnd, hall⟩ := hi.block.run_nodup hr.bins hr.owns hr.heap hr.blocks
  have hle := (blocks_all hr.owns hr.heap hnd hall).1
  rw [List.length_append, hnil, List.length_nil] at hle
  have hlen : run.length < (cfg.sizeClass c).blockNum := by
    rw [hcount, hnil, List.length_nil, hsm.maxCount] at hfull
    omega
  refine ⟨?_, ?_, hlen⟩
  · rw [hanchor]
    unfold flushAnchor
    simp only [hfull, if_false, hold, if_true, Anchor.setState, Anchor.setCount]
  · rw [hanchor, flushAnchor_count (by omega) hfull]

/-- The superblock had no free block: it joins the list. -/
theorem PartialInv.round_joins (h : PartialInv cfg s H P) (hi : HeapInv cfg s H live)
    (hr : Round cfg t c s s' H d seg run rest) (hcount : (s.descs d).anchor.count = 0)
    (hfull : (s.descs d).anchor.count + run.length ≠ (s.descs d).maxCount) :
    PartialInv cfg s' (H.flush t c d run rest) (consOf P c d) := by
  obtain ⟨i, -, hheap', hanchor, hsuper⟩ := hr.same_desc
  have hex := h.owner hr.owns hr.heap
  have hfrees : (H.flush t c d run rest).frees d = run ++ H.frees d := if_pos rfl
  have hnil : H.frees d = [] := by
    rw [hex.count] at hcount
    exact List.length_eq_zero_iff.mp hcount
  have hold : (s.descs d).anchor.state = .full := by
    rcases hex.state with ⟨hst, -⟩ | ⟨-, hne, -⟩
    · exact hst
    · exact absurd hnil hne
  obtain ⟨hpartly, hcount', hlen⟩ := h.round_anchor hi hr hnil hold hfull
  have hne' : (s'.descs d).anchor.state ≠ .empty := by
    rw [hpartly]
    exact fun he => by cases he
  have hown : Owns s' d seg := by
    rw [Owns, hsuper, if_neg hne']
  obtain ⟨hpl, hnp⟩ := hr.partialList.2 hne' hold
  have hnot : ∀ c', d ∉ P c' := fun c' hd => by
    rcases (h.listed c' d hd).state with ⟨hst, -⟩ | ⟨hst, -⟩ <;> rw [hold] at hst <;> cases hst
  have haddr := hi.desc.addr d (hi.desc.alloced_carved (hi.region.alloced hr.owns))
  refine ⟨fun c' => ?_, fun c' => ?_, fun c' d' hd' => ?_, fun {d' sg c'} ho hheap => ?_⟩
  · have hlink : PartialLinked s' (s.partialList c') (P c') :=
      (h.linked c').congr fun d' hd' => by
        rw [hr.other_desc fun he => hnot c' (he ▸ hd')]
    rw [hpl, consOf]
    by_cases hc : c' = c
    · subst hc
      rw [if_pos rfl]
      exact ⟨pushNewHead d (s.partialList c'), if_pos rfl, getDesc_set haddr _, hnp ▸ hlink⟩
    · rw [if_neg hc]
      show PartialLinked s' (if c' = c then _ else _) _
      rw [if_neg hc]
      exact hlink
  · unfold consOf
    split
    next => exact List.nodup_cons.mpr ⟨hnot c, h.nodup c⟩
    next => exact h.nodup c'
  · rcases mem_consOf.mp hd' with ⟨rfl, rfl⟩ | hd'
    · exact ⟨hi.region.alloced hr.owns, hheap', Or.inl ⟨hpartly, seg, hown⟩⟩
    · exact h.round_listed hr hd' fun he => hnot c' (he ▸ hd')
  · by_cases hd : d' = d
    · subst hd
      obtain rfl : c = c' := Option.some.inj (hheap'.symm.trans hheap)
      rw [hnil, List.append_nil] at hfrees
      refine ⟨by rw [hcount', hfrees], by rw [hfrees]; exact hlen, Or.inr ⟨hpartly, ?_, ?_⟩⟩
      · rw [hfrees]
        exact hr.run_ne
      · exact mem_consOf.mpr (Or.inl ⟨rfl, rfl⟩)
    · exact h.round_owner hr (fun _ _ hm => mem_consOf.mpr (Or.inr hm)) hd ho hheap

/-- **A round** that falls on a superblock without free blocks, or completes one. -/
theorem PartialInv.round (h : PartialInv cfg s H P) (hi : HeapInv cfg s H live)
    (hr : Round cfg t c s s' H d seg run rest)
    (hok : (s.descs d).anchor.count = 0 ∨
      (s.descs d).anchor.count + run.length = (s.descs d).maxCount) :
    ∃ P', PartialInv cfg s' (H.flush t c d run rest) P' := by
  by_cases hfull : (s.descs d).anchor.count + run.length = (s.descs d).maxCount
  · exact ⟨P, h.round_full hr hfull⟩
  · exact ⟨_, h.round_joins hi hr (hok.resolve_right hfull) hfull⟩

end Round

/-- The condition on a flush of the blocks `l`. -/
def FlushOk (s : State) (l : List Nat) : Prop :=
  RunsOk (fun d => (s.descs d).maxCount) (fun d => (s.descs d).anchor.count)
    (splitRuns (fun x => (getPageInfoForPtr s x).desc) l)

instance (s : State) (l : List Nat) : Decidable (FlushOk s l) :=
  inferInstanceAs (Decidable (RunsOk _ _ _))

theorem Round.blockOf_old {t c d d' x : Nat} {seg : Segment} {run rest : List Nat}
    (hr : Round cfg t c s s' H d seg run rest) (hb : BlockOf cfg s' d' c x) :
    BlockOf cfg s d' c x := by
  obtain ⟨sg, ho, hheap, hx⟩ := hb
  obtain ⟨ho', hh⟩ := hr.owns_old ho
  exact ⟨sg, ho', hh.symm.trans hheap, hx⟩

/-- The condition on a flush is a condition on its first round and one on the flush
of the rest. -/
theorem FlushOk.round {t c d : Nat} {seg : Segment} {run rest : List Nat}
    (hok : FlushOk s (run ++ rest)) (h : PartialInv cfg s H P) (hi : HeapInv cfg s H live)
    (hr : Round cfg t c s s' H d seg run rest)
    (hi' : HeapInv cfg s' (H.flush t c d run rest) live) :
    ((s.descs d).anchor.count = 0 ∨
      (s.descs d).anchor.count + run.length = (s.descs d).maxCount) ∧ FlushOk s' rest := by
  have hbins' : (H.flush t c d run rest).bins t c = rest := Heap.setBin_same ..
  -- who owns a block that is left, before and after
  have hown : ∀ x ∈ rest, ∃ d', BlockOf cfg s' d' c x ∧ (getPageInfoForPtr s' x).desc = d' ∧
      (getPageInfoForPtr s x).desc = d' := by
    intro x hx
    obtain ⟨-, d', hb⟩ := (hi'.block.binMem t c x).mp (by rw [hbins']; exact hx)
    obtain ⟨sg', f'⟩ := hi'.region.blockFacts hb
    obtain ⟨sg, f⟩ := hi.region.blockFacts (hr.blockOf_old hb)
    exact ⟨d', hb, by rw [f'.page], by rw [f.page]⟩
  have hsplit : splitRuns (fun x => (getPageInfoForPtr s x).desc) (run ++ rest) =
      (d, run.length) :: splitRuns (fun x => (getPageInfoForPtr s x).desc) rest := by
    refine splitRuns_append (fun x l hx he => ?_) hr.run_ne fun x hx => ?_
    · obtain ⟨d', hb, -, hd'⟩ := hown x (by rw [hx]; exact List.mem_cons_self ..)
      rw [hd'] at he
      exact hr.other x l hx (he ▸ hr.blockOf_old hb)
    · obtain ⟨sg, f⟩ := hi.region.blockFacts (hr.blocks x hx)
      rw [f.page]
  rw [FlushOk, hsplit] at hok
  obtain ⟨hfirst, hrest⟩ := hok
  refine ⟨hfirst, ?_⟩
  have hkeys : ∀ x ∈ rest, (getPageInfoForPtr s' x).desc = (getPageInfoForPtr s x).desc := by
    intro x hx
    obtain ⟨d', -, h1, h2⟩ := hown x hx
    rw [h1, h2]
  unfold FlushOk
  rw [splitRuns_congr hkeys]
  refine RunsOk.congr (fun p hp => ?_) hrest
  obtain ⟨x, hx, hkey⟩ := splitRuns_key hp
  obtain ⟨d', hb, -, hd'⟩ := hown x hx
  obtain ⟨d₁, n⟩ := p
  obtain rfl : d₁ = d' := hkey.symm.trans hd'
  by_cases hd : d₁ = d
  · -- the superblock of the run is still owned, so it had no free block before
    subst hd
    obtain ⟨sg, ho', hheap', -⟩ := id hb
    obtain ⟨i, -, -, hanchor, hsuper⟩ := hr.same_desc
    have hne : (s'.descs d₁).anchor.state ≠ .empty := fun he => by
      rw [Owns, hsuper, if_pos he] at ho'
      cases ho'
    have hstate := (h.anchorsOk hr.owns hr.heap).2
    rw [hanchor] at hne
    have hnot : (s.descs d₁).anchor.count + run.length ≠ (s.descs d₁).maxCount :=
      fun he => hne ((flushAnchor_empty hstate).mpr he)
    have hs := hi.region.small hr.owns hr.heap
    have hs' := hi'.region.small ho' hheap'
    have hlt := (cfg.classSpec hs.one_le hs.lt).blockNum_lt
    obtain ⟨hnd, hall⟩ := hi.block.run_nodup hr.bins hr.owns hr.heap hr.blocks
    have hle := (blocks_all hr.owns hr.heap hnd hall).1
    rw [List.length_append] at hle
    refine ⟨?_, hs'.maxCount.trans hs.maxCount.symm⟩
    rw [if_pos rfl, hanchor, flushAnchor_count (by omega) hnot, hfirst.resolve_right hnot,
      Nat.zero_add]
  · rw [if_neg hd, hr.other_desc hd]
    exact ⟨rfl, rfl⟩

/-- What a flush did to the superblocks: those it released are marked empty and had
all their blocks free or in the bin; descriptors without one are as before. -/
structure FlushExact (cfg : Cfg) (t c : Nat) (s s' : State) (H H' : Heap) : Prop where
  nil : H'.bins t c = []
  free : ∀ x, H.place x = .free ∨ x ∈ H.bins t c → H'.place x = .free
  owns : ∀ {d sg}, Owns s' d sg → Owns s d sg ∧ (s'.descs d).procHeap = (s.descs d).procHeap
  keep : ∀ {d}, (s.descs d).superBlock = none → s'.descs d = s.descs d
  lost : ∀ {d sg}, Owns s d sg → (s.descs d).procHeap = some c → (s'.descs d).superBlock = none →
    (s'.descs d).anchor.state = .empty ∧
      ∀ x, BlockOf cfg s d c x → x ∈ H.frees d ∨ x ∈ H.bins t c

/-- A round that releases the superblock had all its blocks, those of the free list and
those of the run. -/
theorem Round.released {t c d : Nat} {seg : Segment} {run rest : List Nat}
    (hr : Round cfg t c s s' H d seg run rest) (h : PartialInv cfg s H P)
    (hi : HeapInv cfg s H live) (hnone : (s'.descs d).superBlock = none) :
    (s'.descs d).anchor.state = .empty ∧
      ∀ x, BlockOf cfg s d c x → x ∈ H.frees d ∨ x ∈ H.bins t c := by
  obtain ⟨i, -, -, hanchor, hsuper⟩ := hr.same_desc
  have hempty : (s'.descs d).anchor.state = .empty := by
    by_cases he : (s'.descs d).anchor.state = .empty
    · exact he
    · rw [hsuper, if_neg he] at hnone
      cases hnone
  refine ⟨hempty, fun x hx => ?_⟩
  rw [hanchor] at hempty
  have hfull := (flushAnchor_empty (h.anchorsOk hr.owns hr.heap).2).mp hempty
  rw [(h.owner hr.owns hr.heap).count, (hi.region.small hr.owns hr.heap).maxCount] at hfull
  obtain ⟨hnd, hall⟩ := hi.block.run_nodup hr.bins hr.owns hr.heap hr.blocks
  have hmem := (blocks_all hr.owns hr.heap hnd hall).2 (by rw [List.length_append]; omega) x hx
  refine (List.mem_append.mp hmem).symm.imp id fun hrun => ?_
  rw [hr.bins]
  exact List.mem_append_left _ hrun

/-- A round, and the flush of what it left. -/
theorem FlushExact.round {t c d : Nat} {seg : Segment} {run rest : List Nat} {s₁ : State}
    {H' : Heap} (hf : FlushExact cfg t c s₁ s' (H.flush t c d run rest) H')
    (hr : Round cfg t c s s₁ H d seg run rest) (h : PartialInv cfg s H P)
    (hi : HeapInv cfg s H live) : FlushExact cfg t c s s' H H' := by
  have hbins : (H.flush t c d run rest).bins t c = rest := Heap.setBin_same ..
  refine ⟨hf.nil, fun y hy => hf.free y ?_, fun ho => ?_, fun {d'} hn => ?_,
    fun {d' sg} ho hheap hn => ?_⟩
  · by_cases hin : y ∈ run
    · exact Or.inl (if_pos hin)
    · refine hy.imp (fun hp => (if_neg hin).trans hp) fun hm => ?_
      rw [hr.bins, List.mem_append] at hm
      rw [hbins]
      exact hm.resolve_left hin
  · obtain ⟨ho₁, hh₁⟩ := hf.owns ho
    obtain ⟨ho₀, hh₀⟩ := hr.owns_old ho₁
    exact ⟨ho₀, hh₁.trans hh₀⟩
  · have hd : d' ≠ d := fun he => by
      rw [he] at hn
      exact absurd (hr.owns.symm.trans hn) fun he => by cases he
    rw [hf.keep (by rw [hr.other_desc hd]; exact hn), hr.other_desc hd]
  · rcases hr.owns_new ho with hn₁ | ho₁
    · -- released by this round
      have hd : d' = d := Decidable.byContradiction fun hd => by
        rw [hr.other_desc hd] at hn₁
        exact absurd (ho.symm.trans hn₁) fun he => by cases he
      subst hd
      rw [hf.keep hn₁]
      exact hr.released h hi hn₁
    · -- released by a later one: what it had then, it has now
      have hheap₁ := (hr.owns_old ho₁).2.trans hheap
      obtain ⟨hempty, hall⟩ := hf.lost ho₁ hheap₁ hn
      refine ⟨hempty, fun y hy => ?_⟩
      obtain ⟨sg', ho', -, hidx⟩ := hy
      obtain rfl := ho'.unique ho
      rw [hr.bins, List.mem_append]
      rcases hall y ⟨sg', ho₁, hheap₁, hidx⟩ with hm | hm
      · change y ∈ (if d' = d then run ++ H.frees d else H.frees d') at hm
        by_cases hd : d' = d
        · rw [if_pos hd, List.mem_append] at hm
          exact hm.symm.imp (fun hm => hd ▸ hm) Or.inl
        · rw [if_neg hd] at hm
          exact Or.inl hm
      · rw [hbins] at hm
        exact Or.inr (Or.inr hm)

/-- **The loop of a flush** keeps the anchors exact, by induction on its rounds. -/
theorem PartialInv.flushLoop (hnomet : cfg.noMetStack = true) {t c : Nat} :
    ∀ (fuel : Nat) {s : State} {H : Heap} {P : Nat → List Nat}, PartialInv cfg s H P →
      HeapInv cfg s H live → FlushOk s (H.bins t c) → (H.bins t c).length < fuel →
      ∃ s' H' P', flushLoop cfg t c fuel s = some s' ∧ HeapInv cfg s' H' live ∧
        PartialInv cfg s' H' P' ∧ FlushExact cfg t c s s' H H' := by
  intro fuel
  induction fuel with
  | zero => intro s H P _ _ _ hlt; exact absurd hlt (Nat.not_lt_zero _)
  | succ fuel ih =>
    intro s H P h hi hok hlt
    rw [Apfmalloc.flushLoop]
    cases hl : H.bins t c with
    | nil =>
      have hnum : (s.threadCache t c).blockNum = 0 := by
        rw [(hi.block.holds t c).num, hl]
        rfl
      rw [Apfmalloc.flushIter, if_pos hnum]
      refine ⟨_, H, P, rfl, hi.forgetSize hl, h.congr rfl rfl rfl rfl, hl, fun x hx => ?_,
        fun ho => ⟨ho, rfl⟩, fun _ => rfl, fun ho _ hn => ?_⟩
      · rcases hx with hx | hx
        · exact hx
        · rw [hl] at hx
          exact (List.not_mem_nil hx).elim
      · exact absurd (ho.symm.trans hn) fun he => by cases he
    | cons x xs =>
      obtain ⟨s₁, hiter, hcases⟩ := hi.flushIter h.anchorsOk hl
      rw [hiter]
      simp only [Option.bind_eq_bind, Option.bind_some, if_true]
      rcases hcases with ⟨d, seg, run, rest, hr, hi₁, -, -⟩ | ⟨hmet, -⟩
      case inr =>
        rw [hnomet] at hmet
        cases hmet
      have hbins₁ : (H.flush t c d run rest).bins t c = rest := Heap.setBin_same ..
      have hlen := hr.rest_lt
      rw [hr.bins] at hok
      obtain ⟨hfirst, hrest⟩ := hok.round h hi hr hi₁
      obtain ⟨P₁, h₁⟩ := h.round hi hr hfirst
      obtain ⟨s', H', P', hloop, hi', h', hf⟩ := ih h₁ hi₁ (by rw [hbins₁]; exact hrest)
        (by rw [hbins₁]; omega)
      exact ⟨s', H', P', hloop, hi', h', hf.round hr h hi⟩

/-- A flush marks a superblock empty exactly when all its blocks are back. -/
theorem FlushExact.empty_iff {t c d : Nat} {sg : Segment} {H' : Heap} {P' : Nat → List Nat}
    (hf : FlushExact cfg t c s s' H H') (hi : HeapInv cfg s H live) (hi' : HeapInv cfg s' H' live)
    (h' : PartialInv cfg s' H' P') (ho : Owns s d sg) (hheap : (s.descs d).procHeap = some c) :
    (s'.descs d).anchor.state = .empty ↔
      ∀ x, BlockOf cfg s d c x → x ∈ H.frees d ∨ x ∈ H.bins t c := by
  cases hn : (s'.descs d).superBlock with
  | none =>
    obtain ⟨hempty, hall⟩ := hf.lost ho hheap hn
    exact ⟨fun _ => hall, fun _ => hempty⟩
  | some sg' =>
    obtain ⟨ho₀, hh⟩ := hf.owns hn
    obtain rfl := ho₀.unique ho
    have ho' : Owns s' d sg' := hn
    have hheap' := hh.trans hheap
    refine ⟨fun he => absurd he (h'.anchorsOk ho' hheap').2, fun hall => ?_⟩
    -- all of them would be on the free list, which is not that long
    have hlt := (h'.owner ho' hheap').lt
    have hs := hi.region.small ho hheap
    have hbs := (cfg.classSpec hs.one_le hs.lt).blockSize_ge
    have hsub : strideList sg'.ptr (cfg.sizeClass c).blockSize (cfg.sizeClass c).blockNum ⊆
        H'.frees d := fun x hx => by
      have hb := (blockOf_stride ho hheap).mpr hx
      refine (hi'.block.freeMem ho' hheap' x).mpr
        ⟨hf.free x ?_, (blockOf_stride ho' hheap').mpr hx⟩
      exact (hall x hb).imp (fun hm => ((hi.block.freeMem ho hheap x).mp hm).1) id
    have hle := ((strideList_nodup (by omega) _).subperm hsub).length_le
    rw [strideList_length] at hle
    omega

end Steps

/-! ## Runs -/

inductive AnchorOp
  | cache (op : CacheOp)
  | flush (t c : Nat)

inductive AnchorStep (cfg : Cfg) : State × List Live → AnchorOp → State × List Live → Prop
  | cache {p p' : State × List Live} {op : CacheOp} :
      CacheStep cfg p op p' → AnchorStep cfg p (.cache op) p'
  | flush {s s' : State} {live : List Live} {t c : Nat} :
      flushCache cfg t c s = some s' → AnchorStep cfg (s, live) (.flush t c) (s', live)

/-- The flushes that count right. -/
def AnchorOk (cfg : Cfg) (s : State) : AnchorOp → Prop
  | .cache _ => True
  | .flush t c => ∀ l, Holds cfg.noMetStack s.mem (s.threadCache t c) l → FlushOk s l

/-- A step that meets the condition. -/
def GoodStep (cfg : Cfg) (p : State × List Live) (op : AnchorOp) (p' : State × List Live) : Prop :=
  AnchorStep cfg p op p' ∧ AnchorOk cfg p.1 op

/-- The invariant of a run of good steps. -/
def AnchorInv (cfg : Cfg) (p : State × List Live) : Prop :=
  ∃ H P, HeapInv cfg p.1 H p.2 ∧ PartialInv cfg p.1 H P

theorem flushCache_exact {cfg : Cfg} (hnomet : cfg.noMetStack = true) {s s' : State} {H : Heap}
    {P : Nat → List Nat} {live : List Live} {t c : Nat} (hi : HeapInv cfg s H live)
    (h : PartialInv cfg s H P) (hok : FlushOk s (H.bins t c))
    (hflush : flushCache cfg t c s = some s') :
    ∃ H' P', HeapInv cfg s' H' live ∧ PartialInv cfg s' H' P' ∧ FlushExact cfg t c s s' H H' := by
  have hlen : (H.bins t c).length < (s.threadCache t c).blockNum + 1 := by
    rw [(hi.block.holds t c).num]
    exact Nat.lt_succ_self _
  obtain ⟨s'', H', P', hloop, hi', h', hf⟩ := h.flushLoop hnomet _ hi hok hlen
  rw [flushCache, hloop, Option.some.injEq] at hflush
  subst hflush
  exact ⟨H', P', hi', h', hf⟩

theorem goodStep_inv {cfg : Cfg} (hnomet : cfg.noMetStack = true) {p p' : State × List Live}
    {op : AnchorOp} (h : AnchorInv cfg p) (hstep : GoodStep cfg p op p') : AnchorInv cfg p' := by
  obtain ⟨H, P, hi, h⟩ := h
  obtain ⟨hstep, hok⟩ := hstep
  cases hstep with
  | cache hstep =>
    cases hstep with
    | fill h1 h2 hnum hfill => exact h.fill hnomet hi h1 h2 hnum hfill
    | pop hnum hpop =>
      obtain ⟨x, l, bin, -, -, hpop', -, hi'⟩ := hi.pop _ hnum (Nat.le_refl _)
      rw [hpop', Option.some.injEq, Prod.mk.injEq] at hpop
      obtain ⟨rfl, rfl⟩ := hpop
      exact ⟨_, P, hi', h.congr rfl rfl rfl rfl⟩
    | push he hb hpush => exact ⟨_, P, hi.push he hb hpush, h.congr rfl rfl rfl rfl⟩
    | write hm => exact ⟨H, P, hi.write hm, h.congr rfl rfl rfl rfl⟩
  | @flush s s' live t c hflush =>
    obtain ⟨H', P', hi', h', -⟩ := flushCache_exact hnomet hi h (hok _ (hi.block.holds t c)) hflush
    exact ⟨H', P', hi', h'⟩

theorem anchorInv_init {cfg : Cfg} {os : Os} {s : State} (h : initMalloc os = some s) :
    AnchorInv cfg (s, []) := by
  have hc : CacheInv cfg s Heap.start [] := cacheInv_init h
  refine ⟨Heap.start, fun _ => [], hc.heap, fun c => hc.partialList c, fun _ => List.nodup_nil,
    fun _ _ hd => (List.not_mem_nil hd).elim, fun ho => ?_⟩
  obtain ⟨seg, -, rfl⟩ := initMalloc_cases h
  cases ho

/-- What `malloc_from_partial` takes: the whole free list of a superblock of the
class, unless none has a free block. -/
inductive MovesAll (cfg : Cfg) (t c : Nat) (s s' : State) (frees : Nat → List Nat) : Nat → Prop
  | none : (∀ d seg, Owns s d seg → (s.descs d).procHeap = some c → frees d = []) →
      MovesAll cfg t c s s' frees 0
  | some {d : Nat} {seg : Segment} : Owns s d seg → (s.descs d).procHeap = some c →
      frees d ≠ [] → Holds cfg.noMetStack s'.mem (s'.threadCache t c) (frees d) → Owns s' d seg →
      FreeList cfg s' d c seg [] → (s'.descs d).anchor.count = 0 → MovesAll cfg t c s s' frees 1

/-- The anchors agree with the bins, the live blocks and the free lists. -/
structure AnchorsExact (cfg : Cfg) (s : State) (live : List Live) (bins : Nat → Nat → List Nat)
    (frees : Nat → List Nat) : Prop where
  holds : ∀ t c, Holds cfg.noMetStack s.mem (s.threadCache t c) (bins t c)
  count : ∀ {d seg c}, Owns s d seg → (s.descs d).procHeap = some c →
    FreeList cfg s d c seg (frees d) ∧ (s.descs d).anchor.count = (frees d).length
  free : ∀ {d c x}, BlockOf cfg s d c x →
    (x ∈ frees d ↔ x ∉ live.map Live.ptr ∧ ∀ t c', x ∉ bins t c')
  refill : ∀ t c, (s.threadCache t c).blockNum = 0 →
    ∃ n s', mallocFromPartial t c s = some (n, s') ∧ MovesAll cfg t c s s' frees n
  notEmpty : ∀ {d seg c}, Owns s d seg → (s.descs d).procHeap = some c →
    (s.descs d).anchor.state ≠ .empty ∧ ∃ x, BlockOf cfg s d c x ∧ x ∉ frees d
  empty : ∀ {t c s'}, FlushOk s (bins t c) → flushCache cfg t c s = some s' →
    ∀ {d seg}, Owns s d seg → (s.descs d).procHeap = some c →
      ((s'.descs d).anchor.state = .empty ↔
        ∀ x, BlockOf cfg s d c x → x ∈ frees d ∨ x ∈ bins t c)

theorem PartialInv.anchorsExact {cfg : Cfg} (hnomet : cfg.noMetStack = true) {s : State} {H : Heap}
    {P : Nat → List Nat} {live : List Live} (h : PartialInv cfg s H P)
    (hi : HeapInv cfg s H live) : AnchorsExact cfg s live H.bins H.frees := by
  have hb := hi.block
  refine ⟨hb.holds, fun ho hheap => ⟨⟨hb.freeChain ho hheap, hb.freeNodup ho hheap, fun x hx => ?_⟩,
    (h.owner ho hheap).count⟩, fun {d c x} hbx => ?_, fun t c hnum => ?_,
    fun {d seg c} ho hheap => ⟨(h.anchorsOk ho hheap).2, ?_⟩, fun {t c s'} hok hflush d seg ho hheap => ?_⟩
  · exact ((hb.freeMem ho hheap x).mp hx).2
  · obtain ⟨seg, f⟩ := hi.region.blockFacts hbx
    rw [hb.freeMem f.owns f.heap x]
    constructor
    · intro hx
      refine ⟨fun hlive => ?_, fun t c' hm => ?_⟩
      · obtain ⟨e, he, rfl⟩ := List.mem_map.mp hlive
        rw [(hb.live_small hi.region he ⟨d, hbx⟩).1] at hx
        cases hx.1
      · rw [((hb.binMem t c' x).mp hm).1] at hx
        cases hx.1
    · intro hx
      refine ⟨?_, hbx⟩
      cases hp : H.place x with
      | live =>
        obtain ⟨e, he, hptr⟩ := hb.liveAll c x ⟨d, hbx⟩ hp
        exact absurd (List.mem_map.mpr ⟨e, he, hptr⟩) hx.1
      | bin t => exact absurd ((hb.binMem t c x).mpr ⟨hp, d, hbx⟩) (hx.2 t c)
      | free => rfl
  · have hnil : H.bins t c = [] := by
      have := (hb.holds t c).num
      rw [hnum] at this
      exact List.length_eq_zero_iff.mp this.symm
    obtain ⟨n, s', H', P', hpart, hi', -, -, htaken⟩ := mallocFromPartial_spec hnomet hi h hnil
    refine ⟨n, s', hpart, ?_⟩
    cases htaken with
    | none _ _ _ _ _ hall => exact .none fun d seg ho hheap => hall ho hheap
    | @some d seg ho hheap hne hbins hfrees ho' hanchor =>
      refine .some ho hheap hne (hbins ▸ hi'.block.holds t c) ho' ⟨?_, List.nodup_nil, ?_⟩ ?_
      · rw [hanchor]
        rfl
      · exact fun x hx => (List.not_mem_nil hx).elim
      · rw [hanchor]
  · -- the free list is shorter than the superblock
    have hs := hi.region.small ho hheap
    have hbs := (cfg.classSpec hs.one_le hs.lt).blockSize_ge
    refine Classical.byContradiction fun hno => ?_
    have hsub : strideList seg.ptr (cfg.sizeClass c).blockSize (cfg.sizeClass c).blockNum ⊆
        H.frees d := fun x hx => Decidable.byContradiction fun hnot =>
      hno ⟨x, (blockOf_stride ho hheap).mpr hx, hnot⟩
    have hle := ((strideList_nodup (by omega) _).subperm hsub).length_le
    rw [strideList_length] at hle
    have := (h.owner ho hheap).lt
    omega
  · obtain ⟨H', P', hi', h', hf⟩ := flushCache_exact hnomet hi h hok hflush
    exact hf.empty_iff hi hi' h' ho hheap

/-- **The anchors count right in every run of good flushes** of the `no_met_stack`
build: the count is the length of the free list, which has the blocks that are
neither live nor in a bin, a refill takes all of them, and an anchor becomes empty
when all blocks are back. -/
theorem anchors_exact {cfg : Cfg} (hnomet : cfg.noMetStack = true) {os : Os} {s₀ s : State}
    {live : List Live} {ops : List AnchorOp} (hinit : initMalloc os = some s₀)
    (hrun : Run (GoodStep cfg) (s₀, []) ops (s, live)) :
    ∃ bins frees, AnchorsExact cfg s live bins frees := by
  obtain ⟨H, P, hi, h⟩ :=
    Run.invariant (P := AnchorInv cfg) (goodStep_inv hnomet) hrun (anchorInv_init hinit)
  exact ⟨H.bins, H.frees, h.anchorsExact hnomet hi⟩

/-- The `no_met_stack` build with superblocks of few blocks. -/
def Cfg.smallNoMet : Cfg := { Cfg.small with noMetStack := true }

theorem isBlock_of_index {cfg : Cfg} {s : State} {c d x i : Nat}
    (h : ∃ seg, (s.descs d).superBlock = some seg ∧
      x = seg.ptr + i * (cfg.sizeClass c).blockSize)
    (hheap : (s.descs d).procHeap = some c) (hi : i < (cfg.sizeClass c).blockNum) :
    IsBlock cfg s c x := by
  obtain ⟨seg, hs, hx⟩ := h
  exact ⟨d, seg, hs, hheap, i, hi, hx⟩

/-- A block of a new superblock flushed by another thread: the first on its free
list. -/
theorem anchors_exact_first_flush :
    ∃ (s₀ s : State) (live : List Live) (x : Nat), initMalloc Os.bump = some s₀ ∧
      Run (GoodStep Cfg.smallNoMet) (s₀, [])
        [.cache (.fill 0 24), .cache (.pop 0 24), .cache (.push 1 24 x), .flush 1 24] (s, live) ∧
      ∃ bins frees, AnchorsExact Cfg.smallNoMet s live bins frees := by
  have h : ((initMalloc Os.bump).any fun s₀ =>
      (fillCache Cfg.smallNoMet Os.bump 0 24 s₀).any fun s₁ =>
      ((s₁.threadCache 0 24).popBlock true s₁.mem).any fun r₂ =>
      ((s₁.threadCache 1 24).pushBlock true s₁.mem r₂.1).any fun r₃ =>
      (flushCache Cfg.smallNoMet 1 24
        ({ s₁.setBin 0 24 r₂.2 with mem := r₃.2 }.setBin 1 24 r₃.1)).any fun _ =>
      (s₀.threadCache 0 24).blockNum = 0 ∧ (s₁.threadCache 0 24).blockNum ≠ 0 ∧
        r₃.1.block = r₂.1 ∧ r₃.1.blockNum = 1 ∧
        FlushOk ({ s₁.setBin 0 24 r₂.2 with mem := r₃.2 }.setBin 1 24 r₃.1) [r₂.1] ∧
        (s₁.descs (getPageInfoForPtr s₁ r₂.1).desc).superBlock.any
          (fun seg => decide (r₂.1 = seg.ptr + 0 * (Cfg.smallNoMet.sizeClass 24).blockSize)) ∧
        (s₁.descs (getPageInfoForPtr s₁ r₂.1).desc).procHeap = some 24) = true := by
    decide +kernel
  simp only [Option.any_eq_true, decide_eq_true_eq, Prod.exists] at h
  obtain ⟨s₀, hinit, s₁, hfill, x, b₂, hpop, b₃, m₃, hpush, s₄, hflush, hc⟩ := h
  obtain ⟨hn₀, hn₁, hblock, hnum, hok, hany, hheap⟩ := hc
  have hb : IsBlock Cfg.smallNoMet s₁ 24 x := isBlock_of_index hany hheap (by decide)
  have hrun : Run (GoodStep Cfg.smallNoMet) (s₀, [])
      [.cache (.fill 0 24), .cache (.pop 0 24), .cache (.push 1 24 x), .flush 1 24]
      (s₄, List.erase [⟨x, (Cfg.smallNoMet.sizeClass 24).blockSize,
        (Cfg.smallNoMet.sizeClass 24).blockSize⟩] ⟨x, (Cfg.smallNoMet.sizeClass 24).blockSize,
        (Cfg.smallNoMet.sizeClass 24).blockSize⟩) := by
    refine .cons ⟨.cache (.fill (by decide) (by decide) hn₀ hfill), trivial⟩
      (.cons ⟨.cache (.pop hn₁ hpop), trivial⟩
        (.cons ⟨.cache (.push (List.mem_cons_self ..) hb hpush), trivial⟩
          (.cons ⟨.flush hflush, fun l hl => ?_⟩ (.nil _))))
    have hone : Holds true m₃ b₃ [x] := ⟨hnum, _, hblock, rfl⟩
    rw [setBin_same] at hl
    rw [hl.unique hone]
    exact hok
  exact ⟨s₀, s₄, _, x, hinit, hrun, anchors_exact rfl hinit hrun⟩

/-- Two flushes of one block each on the same superblock of four: the count is that
of the second flush alone. -/
theorem anchors_second_flush_wrong :
    ∃ (s₀ s : State) (live : List Live) (ops : List AnchorOp), initMalloc Os.bump = some s₀ ∧
      Run (AnchorStep Cfg.smallNoMet) (s₀, []) ops (s, live) ∧
      ¬∃ bins frees, AnchorsExact Cfg.smallNoMet s live bins frees := by
  have h : ((initMalloc Os.bump).any fun s₀ =>
      (fillCache Cfg.smallNoMet Os.bump 0 24 s₀).any fun s₁ =>
      ((s₁.threadCache 0 24).popBlock true s₁.mem).any fun r₂ =>
      (r₂.2.popBlock true s₁.mem).any fun r₃ =>
      ((s₁.threadCache 1 24).pushBlock true s₁.mem r₂.1).any fun r₄ =>
      (flushCache Cfg.smallNoMet 1 24 ({ (s₁.setBin 0 24 r₂.2).setBin 0 24 r₃.2 with
        mem := r₄.2 }.setBin 1 24 r₄.1)).any fun s₅ =>
      ((s₅.threadCache 1 24).pushBlock true s₅.mem r₃.1).any fun r₆ =>
      (flushCache Cfg.smallNoMet 1 24 ({ s₅ with mem := r₆.2 }.setBin 1 24 r₆.1)).any fun s₇ =>
      (s₇.descs (getPageInfoForPtr s₁ r₂.1).desc).superBlock.any fun seg =>
      (s₀.threadCache 0 24).blockNum = 0 ∧ (s₁.threadCache 0 24).blockNum ≠ 0 ∧
        r₂.2.blockNum ≠ 0 ∧ r₃.1 ≠ r₂.1 ∧
        (s₁.descs (getPageInfoForPtr s₁ r₂.1).desc).superBlock.any
          (fun seg => decide (r₂.1 = seg.ptr + 0 * (Cfg.smallNoMet.sizeClass 24).blockSize)) ∧
        (s₁.descs (getPageInfoForPtr s₁ r₂.1).desc).procHeap = some 24 ∧
        (s₅.descs (getPageInfoForPtr s₁ r₂.1).desc).superBlock.any
          (fun seg => decide (r₃.1 = seg.ptr + 1 * (Cfg.smallNoMet.sizeClass 24).blockSize)) ∧
        (s₅.descs (getPageInfoForPtr s₁ r₂.1).desc).procHeap = some 24 ∧
        (s₇.descs (getPageInfoForPtr s₁ r₂.1).desc).procHeap = some 24 ∧
        (s₇.descs (getPageInfoForPtr s₁ r₂.1).desc).anchor.count = 1 ∧
        readWord s₇.mem (seg.ptr + (s₇.descs (getPageInfoForPtr s₁ r₂.1).desc).anchor.avail *
          (Cfg.smallNoMet.sizeClass 24).blockSize) ≠
          seg.ptr + (Cfg.smallNoMet.sizeClass 24).blockNum *
            (Cfg.smallNoMet.sizeClass 24).blockSize) = true := by
    decide +kernel
  simp only [Option.any_eq_true, decide_eq_true_eq, Prod.exists] at h
  obtain ⟨s₀, hinit, s₁, hfill, x, b₂, hpop, y, b₃, hpop', b₄, m₄, hpush, s₅, hflush, b₆, m₆, hpush',
    s₇, hflush', seg, hseg, hc⟩ := h
  obtain ⟨hn₀, hn₁, hn₂, hyx, hany, hheap, hany', hheap', hheap₇, hcount, hword⟩ := hc
  have hb : IsBlock Cfg.smallNoMet s₁ 24 x := isBlock_of_index hany hheap (by decide)
  have hb' : IsBlock Cfg.smallNoMet s₅ 24 y := isBlock_of_index hany' hheap' (by decide)
  obtain ⟨ex, hex⟩ : ∃ e : Live, e = ⟨x, (Cfg.smallNoMet.sizeClass 24).blockSize,
    (Cfg.smallNoMet.sizeClass 24).blockSize⟩ := ⟨_, rfl⟩
  obtain ⟨ey, hey⟩ : ∃ e : Live, e = ⟨y, (Cfg.smallNoMet.sizeClass 24).blockSize,
    (Cfg.smallNoMet.sizeClass 24).blockSize⟩ := ⟨_, rfl⟩
  have hstep₂ : AnchorStep Cfg.smallNoMet (s₁, []) (.cache (.pop 0 24)) (s₁.setBin 0 24 b₂, [ex]) := by
    rw [hex]
    exact .cache (.pop hn₁ hpop)
  have hstep₃ : AnchorStep Cfg.smallNoMet (s₁.setBin 0 24 b₂, [ex]) (.cache (.pop 0 24))
      ((s₁.setBin 0 24 b₂).setBin 0 24 b₃, [ey, ex]) := by
    rw [hey]
    refine .cache (.pop ?_ ?_)
    · rw [setBin_same]
      exact hn₂
    · rw [setBin_same, setBin_mem]
      exact hpop'
  have hstep₄ : AnchorStep Cfg.smallNoMet ((s₁.setBin 0 24 b₂).setBin 0 24 b₃, [ey, ex])
      (.cache (.push 1 24 ex.ptr)) ({ (s₁.setBin 0 24 b₂).setBin 0 24 b₃ with
        mem := m₄ }.setBin 1 24 b₄, [ey, ex].erase ex) := by
    refine .cache (.push (List.mem_cons_of_mem _ (List.mem_cons_self ..)) ?_ ?_)
    · rw [hex]
      exact hb
    · rw [hex]
      exact hpush
  have hmem : ey ∈ [ey, ex].erase ex := by
    refine (List.mem_erase_of_ne fun he => hyx ?_).mpr (List.mem_cons_self ..)
    have := congrArg Live.ptr he
    rw [hex, hey] at this
    exact this
  have hstep₆ : AnchorStep Cfg.smallNoMet (s₅, [ey, ex].erase ex) (.cache (.push 1 24 ey.ptr))
      ({ s₅ with mem := m₆ }.setBin 1 24 b₆, ([ey, ex].erase ex).erase ey) := by
    refine .cache (.push hmem ?_ ?_)
    · rw [hey]
      exact hb'
    · rw [hey]
      exact hpush'
  refine ⟨s₀, s₇, _, _, hinit, .cons (.cache (.fill (by decide) (by decide) hn₀ hfill))
    (.cons hstep₂ (.cons hstep₃ (.cons hstep₄ (.cons (.flush hflush) (.cons hstep₆
      (.cons (.flush hflush') (.nil _))))))), fun hex => ?_⟩
  obtain ⟨bins, frees, hexact⟩ := hex
  obtain ⟨hlist, hlen⟩ := hexact.count hseg hheap₇
  rw [hcount] at hlen
  obtain ⟨z, hz⟩ := List.length_eq_one_iff.mp hlen.symm
  -- a list of one block would end at the end of the superblock
  have hchain := hlist.chain
  rw [hz] at hchain
  obtain ⟨hza, hzend⟩ := hchain
  rw [hza] at hword
  exact hword hzend

end Apfmalloc
