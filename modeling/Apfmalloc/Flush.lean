import Apfmalloc.AllocRun
import Mathlib.Data.List.Perm.Subperm

/-!
# `flush_cache` keeps the heap invariant

One round of the outer loop takes a run of blocks off the bin, as far as the raw
first words stay in the superblock of the top block, and puts it in front of the
free list of that superblock. `flushRun_spec` says what the run is,
`HeapInv.flush` that moving it keeps the invariant, and `HeapInv.release` that
giving an empty superblock back does.

The raw word of a block is its successor in the bin, except where the bin is
linked lazily: there it is 0. A round whose run ends at such a block leaves 0 as
the top of the bin.
-/

namespace Apfmalloc

open Base

/-! ## The run of a round -/

/-- A raw word that points into a superblock is the next block. -/
theorem nextBlock_inside {noMet : Bool} {bsz : Option Nat} {m : Mem} {x sb size : Nat} (hsb : 0 < sb)
    (hend : sb + size ≤ addrSpace) (hlo : sb ≤ readWord m x) (hhi : readWord m x < sb + size) :
    nextBlock noMet bsz m x = readWord m x := by
  have hmax : readWord m x ≠ usizeMax := by
    unfold usizeMax
    rw [usizeSize_eq]
    rw [addrSpace] at hend
    omega
  unfold nextBlock
  cases bsz with
  | none => rfl
  | some b =>
    cases noMet with
    | true => rfl
    | false => simp only [Bool.false_eq_true, if_false, if_neg hmax, if_neg (show readWord m x ≠ 0 by omega)]

/-- A raw word is the next block or the lazy link. -/
theorem readWord_cases {noMet : Bool} {bsz : Option Nat} {m : Mem} {x y : Nat}
    (h : nextBlock noMet bsz m x = y) (hy : y ≠ 0) :
    readWord m x = y ∨ (readWord m x = 0 ∧ noMet = false ∧ bsz ≠ none) := by
  unfold nextBlock at h
  cases bsz with
  | none => exact Or.inl h
  | some b =>
    cases noMet with
    | true => exact Or.inl h
    | false =>
      simp only [Bool.false_eq_true, if_false] at h
      by_cases h0 : readWord m x = 0
      · exact Or.inr ⟨h0, rfl, Option.some_ne_none b⟩
      · rw [if_neg h0] at h
        by_cases hm : readWord m x = usizeMax
        · rw [if_pos hm] at h
          exact absurd h.symm hy
        · rw [if_neg hm] at h
          exact Or.inl h

/-- The inner loop splits the bin after the first block whose raw word leaves the
superblock. -/
theorem flushRun_spec {noMet : Bool} {bsz : Option Nat} {m : Mem} {sb size : Nat} (hsb : 0 < sb)
    (hend : sb + size ≤ addrSpace) :
    ∀ {xs : List Nat} {x k z : Nat}, ChainTo (nextBlock noMet bsz m) x (x :: xs) z →
      ∃ pre y rest, x :: xs = pre ++ y :: rest ∧
        flushRun m sb size xs.length k x = (k + pre.length, y) ∧
        ChainTo (readWord m) x (pre ++ [y]) (readWord m y) ∧
        (∀ w ∈ pre ++ [y], w = x ∨ sb ≤ w ∧ w < sb + size) ∧
        (rest = [] ∨ readWord m y < sb ∨ sb + size ≤ readWord m y) := by
  intro xs
  induction xs with
  | nil =>
    intro x k z _
    exact ⟨[], x, [], rfl, rfl, ⟨rfl, rfl⟩, fun w hw => Or.inl (List.mem_singleton.mp hw),
      Or.inl rfl⟩
  | cons x' xs ih =>
    intro x k z hchain
    by_cases hout : readWord m x < sb ∨ sb + size ≤ readWord m x
    · refine ⟨[], x, x' :: xs, rfl, ?_, ⟨rfl, rfl⟩, fun w hw => Or.inl (List.mem_singleton.mp hw),
        Or.inr hout⟩
      rw [List.length_cons, flushRun]
      exact if_pos hout
    · have hnext : nextBlock noMet bsz m x = readWord m x :=
        nextBlock_inside hsb hend (by omega) (by omega)
      obtain ⟨-, hx', hrest⟩ := hchain
      rw [hnext] at hx'
      obtain ⟨pre, y, rest, hl, hrun, hc, hin, hstop⟩ := ih (k := k + 1) ⟨rfl, hrest⟩
      refine ⟨x :: pre, y, rest, by rw [hl]; rfl, ?_, ⟨rfl, by rw [hx']; exact hc⟩, ?_, hstop⟩
      · rw [List.length_cons, flushRun]
        simp only [if_neg hout]
        rw [hx', hrun, List.length_cons, Nat.add_assoc, Nat.add_comm 1]
      · intro w hw
        rcases List.mem_cons.mp hw with rfl | hw
        · exact Or.inl rfl
        · rcases hin w hw with rfl | hw
          · exact Or.inr (by omega)
          · exact Or.inr hw

/-! ## Moving a run to the free list -/

/-- The run goes from the bin to the front of the free list of `d`. -/
def Heap.flush (H : Heap) (t c d : Nat) (run rest : List Nat) : Heap :=
  { H.setBin t c rest with
    place := fun x => if x ∈ run then .free else H.place x
    frees := fun d' => if d' = d then run ++ H.frees d else H.frees d' }

/-- The state after the anchor was exchanged: `bin` in the cache, the last block
of the run linked to `next`. -/
def State.flushTo (s : State) (t c d : Nat) (bin : ThreadCacheBin) (tail next : Nat)
    (anchor : Anchor) : State :=
  { s.setBin t c bin with mem := writeWord s.mem tail next }.setDesc d
    { s.descs d with anchor := anchor }

theorem flushTo_same (s : State) (t c d : Nat) (bin : ThreadCacheBin) (tail next : Nat)
    (anchor : Anchor) :
    (s.flushTo t c d bin tail next anchor).descs d = { s.descs d with anchor := anchor } :=
  setDesc_same ..

theorem flushTo_other (s : State) (t c : Nat) {d d' : Nat} (bin : ThreadCacheBin) (tail next : Nat)
    (anchor : Anchor) (hne : d' ≠ d) :
    (s.flushTo t c d bin tail next anchor).descs d' = s.descs d' :=
  setDesc_other _ _ _ hne

theorem sameOwners_flushTo (s : State) (t c d : Nat) (bin : ThreadCacheBin) (tail next : Nat)
    (anchor : Anchor) : SameOwners s (s.flushTo t c d bin tail next anchor) := by
  have hdesc : ∀ d', (s.flushTo t c d bin tail next anchor).descs d' =
      { s.descs d' with anchor := ((s.flushTo t c d bin tail next anchor).descs d').anchor } := by
    intro d'
    by_cases hd : d' = d
    · rw [hd, flushTo_same]
    · rw [flushTo_other _ _ _ _ _ _ _ hd]
  refine ⟨fun d' seg => ?_, fun _ => ?_, fun _ => ?_, fun _ => ?_⟩
  · rw [Owns, hdesc, Owns]
  · rw [hdesc]
  · rw [hdesc]
  · rw [hdesc]

section Flush

variable {cfg : Cfg} {s : State} {H : Heap} {live : List Live}

/-- The run `pre ++ [y]` of blocks of `d` stands before `rest` in the bin. -/
structure RunInBin (cfg : Cfg) (s : State) (H : Heap) (t c d y : Nat) (pre rest : List Nat) : Prop where
  block : ∀ x ∈ pre ++ [y], BlockOf cfg s d c x
  place : ∀ x ∈ pre ++ [y], H.place x = .bin t
  runNodup : (pre ++ [y]).Nodup
  restNodup : rest.Nodup
  bin : ∀ x, x ∈ H.bins t c ↔ x ∈ pre ++ [y] ∨ x ∈ rest
  rest : ∀ x ∈ rest, x ∉ pre ++ [y]
  other : ∀ t' c', ¬(t' = t ∧ c' = c) → ∀ x ∈ H.bins t' c', x ∉ pre ++ [y]

theorem BlockInv.runInBin (h : BlockInv cfg s H live) {alloced : List Nat}
    (hr : RegionInv cfg s alloced) {t c d y : Nat} {pre rest : List Nat}
    (hl : H.bins t c = pre ++ y :: rest) (hrun : ∀ x ∈ pre ++ [y], BlockOf cfg s d c x) :
    RunInBin cfg s H t c d y pre rest := by
  have hbin : ∀ x, x ∈ H.bins t c ↔ x ∈ pre ++ [y] ∨ x ∈ rest := by
    intro x
    rw [hl, List.append_cons, List.mem_append]
  have hplace : ∀ x ∈ pre ++ [y], H.place x = .bin t := fun x hx =>
    ((h.binMem t c x).mp ((hbin x).mpr (Or.inl hx))).1
  have hnd : (pre ++ [y] ++ rest).Nodup := by
    have := h.binNodup t c
    rw [hl] at this
    rw [List.append_assoc]
    exact this
  obtain ⟨hndrun, hndrest, hdisj⟩ := List.nodup_append.mp hnd
  refine ⟨hrun, hplace, hndrun, hndrest, hbin, fun x hx hx' => hdisj x hx' x hx rfl, ?_⟩
  intro t' c' htc x hx hx'
  obtain ⟨hp, d', hb⟩ := (h.binMem t' c' x).mp hx
  rw [hplace x hx'] at hp
  exact htc ⟨(Place.bin.inj hp).symm, (hr.block_unique hb (hrun x hx')).2⟩

section Run

variable {t c d y : Nat} {pre rest : List Nat}

theorem RunInBin.last (_ : RunInBin cfg s H t c d y pre rest) : y ∈ pre ++ [y] :=
  List.mem_append_right _ (List.mem_cons_self ..)

theorem RunInBin.placeIn (_ : RunInBin cfg s H t c d y pre rest) {x : Nat} (hx : x ∈ pre ++ [y]) :
    (H.flush t c d (pre ++ [y]) rest).place x = .free :=
  if_pos hx

theorem RunInBin.placeOut (_ : RunInBin cfg s H t c d y pre rest) {x : Nat} (hx : x ∉ pre ++ [y]) :
    (H.flush t c d (pre ++ [y]) rest).place x = H.place x :=
  if_neg hx

/-- A block that is not in the run's bin is not of the run. -/
theorem RunInBin.not_mem (hb : RunInBin cfg s H t c d y pre rest) {x : Nat}
    (hx : H.place x ≠ .bin t) : x ∉ pre ++ [y] :=
  fun hm => hx (hb.place x hm)

/-- The only word that changes is that of the last block. -/
theorem RunInBin.word (hb : RunInBin cfg s H t c d y pre rest) {alloced : List Nat}
    (hr : RegionInv cfg s alloced) {c' x : Nat} (hx : IsBlock cfg s c' x) (hne : x ≠ y) (v : Nat) :
    readWord (writeWord s.mem y v) x = readWord s.mem x := by
  obtain ⟨d', hx⟩ := hx
  exact readWord_writeWord_ne (hr.words_apart hx (hb.block y hb.last) hne)

theorem RunInBin.holds (hb : RunInBin cfg s H t c d y pre rest) (h : BlockInv cfg s H live)
    {alloced : List Nat} (hr : RegionInv cfg s alloced) {bin : ThreadCacheBin}
    (hholds : Holds cfg.noMetStack s.mem bin rest) (v : Nat) (t' c' : Nat) :
    Holds cfg.noMetStack (writeWord s.mem y v) ((s.setBin t c bin).threadCache t' c')
      ((H.setBin t c rest).bins t' c') := by
  refine Heap.setBin_forall (P := fun t' c' b => Holds cfg.noMetStack (writeWord s.mem y v)
    ((s.setBin t c bin).threadCache t' c') b) ?_ (fun t' c' htc => ?_) t' c'
  · rw [Apfmalloc.setBin_same]
    refine hholds.frame fun x hx => ?_
    have hblock := ((h.binMem t c x).mp ((hb.bin x).mpr (Or.inr hx))).2
    exact (hb.word hr hblock (fun he => hb.rest x hx (he ▸ hb.last)) v).symm
  · rw [Apfmalloc.setBin_other _ _ _ _ htc]
    refine (h.holds t' c').frame fun x hx => (hb.word hr ((h.binMem t' c' x).mp hx).2 ?_ v).symm
    exact fun he => hb.other t' c' htc x hx (he ▸ hb.last)

theorem RunInBin.binMem (hb : RunInBin cfg s H t c d y pre rest) (h : BlockInv cfg s H live)
    (t' c' x : Nat) : x ∈ (H.setBin t c rest).bins t' c' ↔
      (H.flush t c d (pre ++ [y]) rest).place x = .bin t' ∧ IsBlock cfg s c' x := by
  by_cases hx : x ∈ pre ++ [y]
  · -- a block of the run is in no bin any more
    rw [hb.placeIn hx]
    refine ⟨fun hm => ?_, fun hp => by cases hp.1⟩
    exact absurd hm (Heap.setBin_forall (P := fun _ _ b => x ∉ b) (fun hm => hb.rest x hm hx)
      (fun t' c' htc hm => hb.other t' c' htc x hm hx) t' c')
  · rw [hb.placeOut hx, ← h.binMem t' c' x]
    refine Heap.setBin_forall (P := fun t' c' b => x ∈ b ↔ x ∈ H.bins t' c') ?_
      (fun _ _ _ => Iff.rfl) t' c'
    rw [hb.bin x]
    exact ⟨Or.inr, fun hm => hm.resolve_left hx⟩

/-- The free list of a superblock, but for `y`, has the words it had. -/
theorem RunInBin.freeWord (hb : RunInBin cfg s H t c d y pre rest) (h : BlockInv cfg s H live)
    {alloced : List Nat} (hr : RegionInv cfg s alloced) {d' c' : Nat} {sg : Segment}
    (hd : Owns s d' sg) (hheap : (s.descs d').procHeap = some c') (v : Nat) :
    ∀ x ∈ H.frees d', readWord s.mem x = readWord (writeWord s.mem y v) x := by
  intro x hx
  obtain ⟨hp, hblock⟩ := (h.freeMem hd hheap x).mp hx
  refine (hb.word hr ⟨d', hblock⟩ (fun he => ?_) v).symm
  rw [he, hb.place y hb.last] at hp
  cases hp

/-- The links inside the run stay, the last one is the new word of `y`. -/
theorem RunInBin.chain (hb : RunInBin cfg s H t c d y pre rest) {alloced : List Nat}
    (hr : RegionInv cfg s alloced) {a v : Nat}
    (hchain : ChainTo (readWord s.mem) a (pre ++ [y]) (readWord s.mem y)) (hv : v < 2 ^ 64) :
    ChainTo (readWord (writeWord s.mem y v)) a (pre ++ [y]) v := by
  obtain ⟨b, hpre, hlast⟩ := chainTo_append.mp hchain
  refine chainTo_append.mpr ⟨b, hpre.congr fun x hx => ?_, hlast.1, readWord_writeWord hv⟩
  have hblock := hb.block x (List.mem_append_left _ hx)
  have hne : x ≠ y := (List.nodup_append.mp hb.runNodup).2.2 x hx y (List.mem_cons_self ..)
  exact (hb.word hr ⟨d, hblock⟩ hne v).symm

end Run

theorem BlockInv.flush (h : BlockInv cfg s H live) {alloced : List Nat}
    (hr : RegionInv cfg s alloced) {t c d y i : Nat} {pre rest : List Nat} {seg : Segment}
    {bin : ThreadCacheBin} {anchor : Anchor} (hl : H.bins t c = pre ++ y :: rest)
    (ho : Owns s d seg) (hheap : (s.descs d).procHeap = some c)
    (hrun : ∀ x ∈ pre ++ [y], BlockOf cfg s d c x)
    (hchain : ChainTo (readWord s.mem) (seg.ptr + i * (cfg.sizeClass c).blockSize) (pre ++ [y])
      (readWord s.mem y))
    (hholds : Holds cfg.noMetStack s.mem bin rest) (hav : anchor.avail = i)
    (hnext : seg.ptr + (s.descs d).anchor.avail * (cfg.sizeClass c).blockSize < 2 ^ 64) :
    BlockInv cfg (s.flushTo t c d bin y
      (seg.ptr + (s.descs d).anchor.avail * (cfg.sizeClass c).blockSize) anchor)
      (H.flush t c d (pre ++ [y]) rest) live := by
  have hb := h.runInBin hr hl hrun
  generalize hv : seg.ptr + (s.descs d).anchor.avail * (cfg.sizeClass c).blockSize = v at hnext
  have hso := sameOwners_flushTo s t c d bin y v anchor
  refine ⟨hb.holds h hr hholds v, ?_, fun t' c' x => ?_, ?_, ?_, ?_, fun e he => ?_,
    fun c' x hbx hp => ?_, h.liveApart⟩
  · exact Heap.setBin_forall hb.restNodup fun t' c' _ => h.binNodup t' c'
  · rw [hso.isBlock]
    exact hb.binMem h t' c' x
  · refine hso.frees_forall (P := fun d' sg c' l => ChainTo (readWord (writeWord s.mem y v))
      (sg.ptr + ((s.flushTo t c d bin y v anchor).descs d').anchor.avail *
        (cfg.sizeClass c').blockSize) l
      (sg.ptr + (cfg.sizeClass c').blockNum * (cfg.sizeClass c').blockSize)) ho hheap ?_
      fun hdd hd hheap' => ?_
    · rw [flushTo_same, hav]
      -- the run, then the old list, which the last block of the run now links to
      refine chainTo_append.mpr ⟨v, hb.chain hr hchain hnext, ?_⟩
      rw [← hv]
      exact (h.freeChain ho hheap).congr (hb.freeWord h hr ho hheap _)
    · rw [flushTo_other _ _ _ _ _ _ _ hdd]
      exact (h.freeChain hd hheap').congr (hb.freeWord h hr hd hheap' v)
  · refine hso.frees_forall (P := fun _ _ _ l => l.Nodup) ho hheap ?_ fun _ hd hheap' =>
      h.freeNodup hd hheap'
    refine List.nodup_append.mpr ⟨hb.runNodup, h.freeNodup ho hheap, fun x hx z hz he => ?_⟩
    subst he
    have hp := ((h.freeMem ho hheap x).mp hz).1
    rw [hb.place x hx] at hp
    cases hp
  · refine hso.frees_forall (P := fun d' _ c' l => ∀ x, x ∈ l ↔
      (H.flush t c d (pre ++ [y]) rest).place x = .free ∧
        BlockOf cfg (s.flushTo t c d bin y v anchor) d' c' x) ho hheap (fun x => ?_)
      fun hdd hd hheap' x => ?_
    · rw [hso.blockOf, List.mem_append]
      by_cases hx : x ∈ pre ++ [y]
      · rw [hb.placeIn hx]
        exact ⟨fun _ => ⟨rfl, hrun x hx⟩, fun _ => Or.inl hx⟩
      · rw [hb.placeOut hx, ← h.freeMem ho hheap x]
        exact ⟨fun hm => hm.resolve_left hx, Or.inr⟩
    · rw [hso.blockOf, h.freeMem hd hheap' x]
      by_cases hx : x ∈ pre ++ [y]
      · -- the run is of another superblock
        refine ⟨fun hp => ?_, fun hp => ?_⟩
        · exact absurd (hr.block_unique hp.2 (hrun x hx)).1 hdd
        · exact absurd (hr.block_unique hp.2 (hrun x hx)).1 hdd
      · rw [hb.placeOut hx]
  · refine (h.liveOk e he).frame hso (fun c' _ hp => ?_) (fun _ _ _ _ => rfl)
    rw [hb.placeOut (hb.not_mem (by rw [hp]; exact fun hx => by cases hx))]
    exact hp
  · by_cases hx : x ∈ pre ++ [y]
    · rw [hb.placeIn hx] at hp
      cases hp
    · rw [hb.placeOut hx] at hp
      exact h.liveAll c' x ((hso.isBlock c' x).mp hbx) hp

theorem HeapInv.flush (h : HeapInv cfg s H live) {t c d y i : Nat} {pre rest : List Nat}
    {seg : Segment} {bin : ThreadCacheBin} {anchor : Anchor} (hl : H.bins t c = pre ++ y :: rest)
    (ho : Owns s d seg) (hheap : (s.descs d).procHeap = some c)
    (hrun : ∀ x ∈ pre ++ [y], BlockOf cfg s d c x)
    (hchain : ChainTo (readWord s.mem) (seg.ptr + i * (cfg.sizeClass c).blockSize) (pre ++ [y])
      (readWord s.mem y))
    (hholds : Holds cfg.noMetStack s.mem bin rest) (hav : anchor.avail = i)
    (hnext : seg.ptr + (s.descs d).anchor.avail * (cfg.sizeClass c).blockSize < 2 ^ 64) :
    HeapInv cfg (s.flushTo t c d bin y
      (seg.ptr + (s.descs d).anchor.avail * (cfg.sizeClass c).blockSize) anchor)
      (H.flush t c d (pre ++ [y]) rest) live := by
  refine ⟨h.desc.frame rfl (fun d' _ => ?_) rfl (fun _ _ hm => hm),
    h.region.frame (sameOwners_flushTo ..) rfl (fun _ hd => hd) (fun hd => h.region.mapped hd)
      fun _ hx => Or.inl hx,
    h.block.flush h.region hl ho hheap hrun hchain hholds hav hnext⟩
  by_cases hd : d' = d
  · rw [hd, flushTo_same]
  · rw [flushTo_other _ _ _ _ _ _ _ hd]

/-! ## What becomes of the superblock -/

/-- The state after an empty superblock went back to the kernel. The descriptor
stays allocated. -/
def State.releaseSb (s : State) (cfg : Cfg) (c d : Nat) (seg : Segment) : State :=
  segDeallocate seg ({ s with pageMap := setPages s.pageMap seg.ptr PageInfo.default
                                ((cfg.sizeClass c).sbSize / page) }.setDesc d
    { s.descs d with superBlock := none })

/-- The state after `heap_push_partial`. -/
def State.pushPartial (s : State) (c d : Nat) : State :=
  (s.setDesc d { s.descs d with nextPartial := s.partialList c }).setPartialList c
    (some (pushNewHead d (s.partialList c)))

/-- Where a superblock goes at the end of a round. -/
def State.finishRound (s : State) (cfg : Cfg) (c d : Nat) (seg : Segment) (old new : Anchor) : State :=
  if new.state = .empty then s.releaseSb cfg c d seg
  else if old.state = .full then s.pushPartial c d
  else s

theorem flushRelease_eq {c d : Nat} {seg : Segment} {old new : Anchor}
    (hheap : (s.descs d).procHeap = some c) (hspec : ClassSpec (cfg.sizeClass c) c)
    (hptr : seg.ptr ≠ 0) :
    flushRelease cfg c d seg old new s = some (s.finishRound cfg c d seg old new) := by
  have hmask := hspec.sbSize_mask
  unfold flushRelease State.finishRound
  by_cases hempty : new.state = .empty
  · simp only [hempty, if_true, unregisterDesc, updatePageMap, if_neg hptr, hmask, ne_eq,
      not_true_eq_false, if_false, Option.bind_eq_bind, Option.bind_some, Option.getD_none,
      setPtr_null]
    rfl
  · rw [if_neg hempty, if_neg hempty]
    by_cases hfull : old.state = .full
    · rw [if_pos hfull, if_pos hfull, listPushPartial, hheap]
      rfl
    · rw [if_neg hfull, if_neg hfull]

theorem removes_releaseSb {c d : Nat} {seg : Segment} (ho : Owns s d seg) (hvalid : seg.Valid)
    (hs : SuperOk cfg s d seg c) : RemovesRegion s (s.releaseSb cfg c d seg) d seg := by
  have hspec := cfg.classSpec hs.one_le hs.lt
  have hbound := hvalid.bound
  rw [hs.regionLen, ← hspec.pages] at hbound
  refine ⟨ho, fun sg hg => ?_, fun d' hne => ?_, rfl, rfl, fun k hk => ?_, rfl, rfl⟩
  · rw [Owns, State.releaseSb, segDeallocate] at hg
    simp only [setDesc_same] at hg
    cases hg
  · show (State.setDesc _ d _).descs d' = _
    rw [setDesc_other _ _ _ hne]
  · refine setPages_out hvalid.aligned hbound ?_
    rw [hspec.pages, ← hs.regionLen]
    exact hk

/-- **Releasing a superblock** whose blocks are all free. -/
theorem HeapInv.release (h : HeapInv cfg s H live) {c d : Nat} {seg : Segment} (ho : Owns s d seg)
    (hheap : (s.descs d).procHeap = some c) (hfree : ∀ x, BlockOf cfg s d c x → H.place x = .free) :
    HeapInv cfg (s.releaseSb cfg c d seg) H live := by
  have hs := h.region.small ho hheap
  have hrem := removes_releaseSb ho (h.region.valid ho) hs
  refine ⟨h.desc.frame rfl (fun d' _ => ?_) rfl fun x hx hm => hrem.inMapped h.region hx hm,
    hrem.regionInv h.region fun _ hd _ => hd,
    hrem.blockInv h.region h.block (fun c' x hb => ?_) (List.Sublist.refl _) (fun e he hin => ?_)
      fun e he hne => absurd he hne⟩
  · by_cases hd : d' = d
    · subst hd
      show ((State.setDesc _ d' _).descs d').nextFree = _
      rw [setDesc_same]
    · rw [hrem.descs d' hd]
  · obtain ⟨sg, -, hheap', -⟩ := id hb
    obtain rfl : c' = c := Option.some.inj (hheap'.symm.trans hheap)
    exact hfree x hb
  · -- a live block in the segment would be one of its blocks
    have hreg := (regionLen_bounds seg.length).1
    cases h.block.liveOk e he with
    | @small d' c' hb hp hlen hsize =>
      obtain ⟨sg, f⟩ := h.region.blockFacts hb
      by_cases hd : d' = d
      · subst hd
        obtain rfl : c' = c := Option.some.inj (f.heap.symm.trans hheap)
        rw [hfree e.ptr hb] at hp
        cases hp
      · have hout := h.region.block_outside hb ho hd
        omega
    | @large d' sg ho' hheap' hlo hpos hend hsize hpage =>
      have hd : d' ≠ d := fun hd => by
        subst hd
        rw [hheap] at hheap'
        cases hheap'
      have hap := h.region.apart ho' ho hd
      have := (regionLen_bounds sg.length).1
      unfold Segment.Apart at hap
      omega

theorem HeapInv.pushPartial (h : HeapInv cfg s H live) (c d : Nat) :
    HeapInv cfg (s.pushPartial c d) H live := by
  have hdesc : ∀ d', (s.pushPartial c d).descs d' =
      { s.descs d' with nextPartial := ((s.pushPartial c d).descs d').nextPartial } := by
    intro d'
    by_cases hd : d' = d
    · subst hd
      simp only [State.pushPartial, setPartialList_descs, setDesc_same]
    · simp only [State.pushPartial, setPartialList_descs, setDesc_other _ _ _ hd]
  have ho : SameOwners s (s.pushPartial c d) := by
    refine ⟨fun d' seg => ?_, fun _ => ?_, fun _ => ?_, fun _ => ?_⟩
    · rw [Owns, hdesc, Owns]
    · rw [hdesc]
    · rw [hdesc]
    · rw [hdesc]
  exact ⟨h.desc.frame rfl (fun d' _ => by rw [hdesc]) rfl (fun _ _ hm => hm),
    h.region.frame ho rfl (fun _ hd => hd) (fun hd => h.region.mapped hd) fun _ hx => Or.inl hx,
    h.block.frame ho rfl rfl rfl rfl (fun _ => by rw [hdesc]) (fun _ _ _ _ => rfl)
      fun _ _ _ _ => rfl⟩

/-! ## One round -/

/-- The free list starts inside the superblock or at its end. -/
theorem HeapInv.avail_lt (h : HeapInv cfg s H live) {c d : Nat} {seg : Segment} (ho : Owns s d seg)
    (hheap : (s.descs d).procHeap = some c) :
    seg.ptr + (s.descs d).anchor.avail * (cfg.sizeClass c).blockSize < 2 ^ 64 := by
  have hs := h.region.small ho hheap
  have hspec := cfg.classSpec hs.one_le hs.lt
  have hbound := (h.region.valid ho).bound
  have hchain := h.block.freeChain ho hheap
  have hmem := h.block.freeMem ho hheap
  cases hf : H.frees d with
  | nil =>
    -- nothing free: `avail` is one past the last block
    rw [hf, chainTo_nil] at hchain
    rw [hchain, Nat.mul_comm, ← hspec.sbSize_eq, ← hs.regionLen]
    rw [addrSpace] at hbound
    omega
  | cons x l =>
    rw [hf] at hchain hmem
    obtain ⟨sg, f⟩ := h.region.blockFacts ((hmem x).mp (List.mem_cons_self ..)).2
    rw [hchain.1]
    exact f.addr.lt

/-- A block of index `i` gets index `i` back from its address. -/
theorem computeIndex_eq {c d x i : Nat} {seg : Segment} (f : BlockFacts cfg s d c x seg)
    (hx : x = seg.ptr + i * (cfg.sizeClass c).blockSize) :
    computeIndex seg.ptr x c = some i := by
  have hlt := f.spec.sbSize_lt
  have hhi := f.hi
  have hbs := f.spec.blockSize_ge
  -- the difference is taken as `u32`, and a superblock is shorter than that
  have hdiff : (x % u32Size + u32Size - seg.ptr % u32Size) % u32Size =
      i * (cfg.sizeClass c).blockSize := by
    rw [u32Size_eq] at *
    omega
  unfold computeIndex
  simp only [hdiff]
  rw [if_pos ⟨f.super.one_le, f.super.lt⟩, ← f.spec.blockSize_eq,
    Nat.mul_div_cancel _ (by omega)]

/-- What a round does with a bin whose top block is a block of `d`: it splits the
bin, moves the first part and decides about the superblock. -/
theorem HeapInv.flushRound (h : HeapInv cfg s H live) {t c d x : Nat} {xs : List Nat}
    (hl : H.bins t c = x :: xs) (hb : BlockOf cfg s d c x) :
    ∃ seg pre y rest i, BlockFacts cfg s d c x seg ∧ H.bins t c = pre ++ y :: rest ∧
      i < (cfg.sizeClass c).blockNum ∧ (∀ w ∈ pre ++ [y], BlockOf cfg s d c w) ∧
      ChainTo (readWord s.mem) (seg.ptr + i * (cfg.sizeClass c).blockSize) (pre ++ [y])
        (readWord s.mem y) ∧
      (rest = [] ∨ readWord s.mem y < seg.ptr ∨
        seg.ptr + (cfg.sizeClass c).sbSize ≤ readWord s.mem y) ∧
      Apfmalloc.flushRound cfg t c d s = flushRelease cfg c d seg (s.descs d).anchor
        (flushAnchor (s.descs d).anchor (s.descs d).maxCount i (pre.length + 1))
        (s.flushTo t c d ⟨readWord s.mem y, rest.length, (s.threadCache t c).blockSize⟩ y
          (seg.ptr + (s.descs d).anchor.avail * (cfg.sizeClass c).blockSize)
          (flushAnchor (s.descs d).anchor (s.descs d).maxCount i (pre.length + 1))) := by
  obtain ⟨seg, f⟩ := h.region.blockFacts hb
  obtain ⟨i, hi, hx⟩ := f.index
  have hholds := h.block.holds t c
  rw [hl] at hholds
  have htop := hholds.block_eq
  have hnum := hholds.num
  rw [List.length_cons] at hnum
  obtain ⟨z, hchain⟩ := hholds.chain
  rw [htop] at hchain
  have hbound := f.valid.bound
  rw [f.super.regionLen] at hbound
  obtain ⟨pre, y, rest, hsplit, hrun, hraw, hin, hstop⟩ :=
    flushRun_spec (k := 1) f.valid.pos hbound hchain
  -- the run and the rest are the bin
  have hlen : xs.length = pre.length + rest.length := by
    have := congrArg List.length hsplit
    rw [List.length_cons, List.length_append, List.length_cons] at this
    omega
  refine ⟨seg, pre, y, rest, i, f, by rw [hl, hsplit], hi, fun w hw => ?_, hx ▸ hraw, hstop, ?_⟩
  · rcases hin w hw with rfl | ⟨hlo, hhi⟩
    · exact hb
    · -- a block of the bin in the range of the superblock is one of its blocks
      have hwm : w ∈ H.bins t c := by
        rw [hl, hsplit, List.append_cons]
        exact List.mem_append_left _ hw
      obtain ⟨-, d', hb'⟩ := (h.block.binMem t c w).mp hwm
      obtain ⟨sg, f'⟩ := h.region.blockFacts hb'
      by_cases hd : d' = d
      · exact hd ▸ hb'
      · have hap := h.region.apart f'.owns f.owns hd
        rw [Segment.Apart, f'.super.regionLen, f.super.regionLen] at hap
        have := f'.lo
        have := f'.hi
        have := f'.spec.blockSize_ge
        omega
  · unfold Apfmalloc.flushRound
    rw [show (s.descs d).superBlock = some seg from f.owns]
    simp only [Option.bind_eq_bind, Option.bind_some, htop, hnum, Nat.add_sub_cancel, hrun,
      ThreadCacheBin.popList]
    rw [if_neg (by omega)]
    simp only [Option.bind_some, computeIndex_eq f hx, setBin_descs, setBin_mem]
    rw [show xs.length + 1 - (1 + pre.length) = rest.length by omega, Nat.add_comm 1]
    rfl

/-- The anchors never claim more free blocks than there are, and no superblock
that is still owned is marked empty. -/
def AnchorsOk (s : State) (H : Heap) : Prop :=
  ∀ {d seg c}, Owns s d seg → (s.descs d).procHeap = some c →
    (s.descs d).anchor.count ≤ (H.frees d).length ∧ (s.descs d).anchor.state ≠ .empty

theorem flushAnchor_avail {old : Anchor} {n i k : Nat} (hi : i < 2 ^ 30) :
    (flushAnchor old n i k).avail = i := by
  unfold flushAnchor
  simp only [Anchor.setAvail, Anchor.setState, Anchor.setCount, Nat.mod_eq_of_lt hi]
  split <;> split <;> rfl

theorem flushAnchor_empty {old : Anchor} {n i k : Nat} (h : old.state ≠ .empty) :
    (flushAnchor old n i k).state = .empty ↔ old.count + k = n := by
  unfold flushAnchor
  simp only [Anchor.setAvail, Anchor.setState, Anchor.setCount]
  by_cases hk : old.count + k = n
  · simp only [hk, if_true]
  · simp only [hk, if_false, iff_false]
    by_cases hf : old.state = .full
    · simp only [hf, if_true]
      exact fun he => by cases he
    · simp only [hf, if_false]
      exact h

theorem flushAnchor_count {old : Anchor} {n i k : Nat} (hk : k < 2 ^ 32) (hne : old.count + k ≠ n) :
    (flushAnchor old n i k).count = k := by
  unfold flushAnchor
  simp only [hne, if_false, Anchor.setCount, Nat.mod_eq_of_lt hk]

/-- As many different blocks of a superblock as it has are all its blocks. -/
theorem blocks_all {c d : Nat} {seg : Segment} {l : List Nat} (ho : Owns s d seg)
    (hheap : (s.descs d).procHeap = some c) (hnd : l.Nodup) (hl : ∀ x ∈ l, BlockOf cfg s d c x) :
    l.length ≤ (cfg.sizeClass c).blockNum ∧
      ((cfg.sizeClass c).blockNum ≤ l.length → ∀ x, BlockOf cfg s d c x → x ∈ l) := by
  have hsub : l ⊆ strideList seg.ptr (cfg.sizeClass c).blockSize (cfg.sizeClass c).blockNum :=
    fun x hx => (blockOf_stride ho hheap).mp (hl x hx)
  have hsp := hnd.subperm hsub
  have hle := hsp.length_le
  rw [strideList_length] at hle
  refine ⟨hle, fun hge x hx => ?_⟩
  refine (hsp.perm_of_length_le ?_).mem_iff.mpr ((blockOf_stride ho hheap).mp hx)
  rw [strideList_length]
  exact hge

/-- The blocks of a run and the free list they join are different blocks of one
superblock. -/
theorem BlockInv.run_nodup (h : BlockInv cfg s H live) {t c d : Nat} {seg : Segment}
    {run rest : List Nat} (hl : H.bins t c = run ++ rest) (ho : Owns s d seg)
    (hheap : (s.descs d).procHeap = some c) (hrun : ∀ x ∈ run, BlockOf cfg s d c x) :
    (run ++ H.frees d).Nodup ∧ ∀ x ∈ run ++ H.frees d, BlockOf cfg s d c x := by
  have hnd := h.binNodup t c
  rw [hl] at hnd
  refine ⟨List.nodup_append.mpr ⟨(List.nodup_append.mp hnd).1, h.freeNodup ho hheap,
    fun x hx y hy he => ?_⟩, fun x hx => ?_⟩
  · subst he
    have hp := ((h.binMem t c x).mp (by rw [hl]; exact List.mem_append_left _ hx)).1
    rw [((h.freeMem ho hheap x).mp hy).1] at hp
    cases hp
  · rcases List.mem_append.mp hx with hx | hx
    · exact hrun x hx
    · exact ((h.freeMem ho hheap x).mp hx).2

/-- What a round with a good link does: it moves a run of blocks of one superblock
to the free list, and the next block of the bin is of another superblock. -/
structure Round (cfg : Cfg) (t c : Nat) (s s' : State) (H : Heap) (d : Nat) (seg : Segment)
    (run rest : List Nat) : Prop where
  bins : H.bins t c = run ++ rest
  run_ne : run ≠ []
  owns : Owns s d seg
  heap : (s.descs d).procHeap = some c
  blocks : ∀ w ∈ run, BlockOf cfg s d c w
  other : ∀ r rest', rest = r :: rest' → ¬BlockOf cfg s d c r
  result : ∃ i y next bin, i < (cfg.sizeClass c).blockNum ∧ y ∈ run ∧
    s' = (s.flushTo t c d bin y next (flushAnchor (s.descs d).anchor (s.descs d).maxCount i
      run.length)).finishRound cfg c d seg (s.descs d).anchor
        (flushAnchor (s.descs d).anchor (s.descs d).maxCount i run.length)

/-- A round leaves fewer blocks in the bin. -/
theorem Round.rest_lt {t c d : Nat} {s' : State} {seg : Segment} {run rest : List Nat}
    (hr : Round cfg t c s s' H d seg run rest) : rest.length < (H.bins t c).length := by
  have hpos := List.length_pos_iff.mpr hr.run_ne
  rw [hr.bins, List.length_append]
  omega

/-- The invariant survives the end of a round if an empty anchor tells the truth. -/
theorem HeapInv.finishRound (h : HeapInv cfg s H live) {c d : Nat} {seg : Segment} {old new : Anchor}
    (ho : Owns s d seg) (hheap : (s.descs d).procHeap = some c)
    (hempty : new.state = .empty → ∀ x, BlockOf cfg s d c x → H.place x = .free) :
    HeapInv cfg (s.finishRound cfg c d seg old new) H live := by
  unfold State.finishRound
  split
  next he => exact h.release ho hheap (hempty he)
  next =>
    split
    next => exact h.pushPartial c d
    next => exact h

theorem finishRound_mem (s : State) (cfg : Cfg) (c d : Nat) (seg : Segment) (old new : Anchor) :
    (s.finishRound cfg c d seg old new).mem = s.mem ∧
      (s.finishRound cfg c d seg old new).threadCache = s.threadCache := by
  unfold State.finishRound
  split
  next => exact ⟨rfl, rfl⟩
  next => split <;> exact ⟨rfl, rfl⟩

/-- A round never makes a page entry. -/
theorem finishRound_pageMap (s : State) (cfg : Cfg) (c d : Nat) (seg : Segment) (old new : Anchor)
    {k : Nat} (h : s.pageMap k = PageInfo.default) :
    (s.finishRound cfg c d seg old new).pageMap k = PageInfo.default := by
  unfold State.finishRound
  split
  next =>
    show setPages s.pageMap seg.ptr PageInfo.default _ k = _
    rw [setPages_apply]
    split
    next => rfl
    next => exact h
  next => split <;> exact h

/-- A round that ends at a lazily linked block leaves NULL as the top of a bin that
still counts blocks. -/
structure Stuck (t c : Nat) (s s' : State) (n : Nat) : Prop where
  block : (s'.threadCache t c).block = 0
  num : (s'.threadCache t c).blockNum = n + 1
  pageMap : ∀ {k}, s.pageMap k = PageInfo.default → s'.pageMap k = PageInfo.default

/-- The raw word of the last block `y` of a run leads to the rest of the bin, whose next
block is of another superblock than `d`. -/
inductive GoodLink (cfg : Cfg) (s : State) (t c d y : Nat) : List Nat → Prop
  | last : GoodLink cfg s t c d y []
  | next {r : Nat} {rest : List Nat} : readWord s.mem y = r → r ≠ 0 →
      nextBlock cfg.noMetStack (s.threadCache t c).blockSize s.mem y = r →
      ¬BlockOf cfg s d c r → GoodLink cfg s t c d y (r :: rest)

/-- The raw word of `y` is the next block of the bin, or the lazy link. -/
theorem HeapInv.link_cases (h : HeapInv cfg s H live) {t c d y x : Nat} {seg : Segment}
    {pre rest : List Nat} (f : BlockFacts cfg s d c x seg) (hsplit : H.bins t c = pre ++ y :: rest)
    (hstop : rest = [] ∨ readWord s.mem y < seg.ptr ∨
      seg.ptr + (cfg.sizeClass c).sbSize ≤ readWord s.mem y) :
    GoodLink cfg s t c d y rest ∨
      (cfg.noMetStack = false ∧ rest ≠ [] ∧ readWord s.mem y = 0) := by
  cases rest with
  | nil => exact Or.inl .last
  | cons r rest' =>
    obtain ⟨z, hchain⟩ := (h.block.holds t c).chain
    rw [hsplit] at hchain
    obtain ⟨a, -, -, hr, -⟩ := chainTo_append.mp hchain
    obtain ⟨-, d', hbr⟩ := (h.block.binMem t c r).mp (by
      rw [hsplit]
      exact List.mem_append_right _ (List.mem_cons_of_mem _ (List.mem_cons_self ..)))
    obtain ⟨sg, fr⟩ := h.region.blockFacts hbr
    have hr0 := Nat.ne_of_gt fr.addr.pos
    rcases readWord_cases hr hr0 with hword | ⟨hword, hmet, -⟩
    · -- the word left the superblock of `d`, so `r` is not one of its blocks
      refine Or.inl (.next hword hr0 hr fun hbd => ?_)
      obtain ⟨sg', fd⟩ := h.region.blockFacts hbd
      obtain rfl := fd.owns.unique f.owns
      have := fd.lo
      have := fd.hi
      have := fd.spec.blockSize_ge
      rcases hstop with hs | hs
      · cases hs
      · omega
    · exact Or.inr ⟨hmet, List.cons_ne_nil _ _, hword⟩

/-- A good link keeps the rest of the bin together. -/
theorem GoodLink.holds {t c d y : Nat} {pre rest : List Nat} (hg : GoodLink cfg s t c d y rest)
    (hholds : Holds cfg.noMetStack s.mem (s.threadCache t c) (pre ++ y :: rest)) :
    Holds cfg.noMetStack s.mem ⟨readWord s.mem y, rest.length, (s.threadCache t c).blockSize⟩
      rest := by
  cases hg with
  | last => exact holds_empty _ _ rfl
  | next hword _ hnb _ =>
    obtain ⟨z, hchain⟩ := hholds.chain
    obtain ⟨a, -, -, hc⟩ := chainTo_append.mp hchain
    rw [hnb, ← hword] at hc
    exact ⟨rfl, z, hword ▸ hc⟩

/-- When the anchor says that all blocks of a superblock are back, each of them is in the
run or was free before. -/
theorem HeapInv.flush_all_free (h : HeapInv cfg s H live) (ha : AnchorsOk s H) {t c d i z : Nat}
    {seg : Segment} {run rest : List Nat} (hl : H.bins t c = run ++ rest) (ho : Owns s d seg)
    (hheap : (s.descs d).procHeap = some c) (hrun : ∀ x ∈ run, BlockOf cfg s d c x)
    (he : (flushAnchor (s.descs d).anchor (s.descs d).maxCount i run.length).state = .empty)
    (hz : BlockOf cfg s d c z) : (H.flush t c d run rest).place z = .free := by
  obtain ⟨hcount, hstate⟩ := ha ho hheap
  obtain ⟨hndall, hall⟩ := h.block.run_nodup hl ho hheap hrun
  have hfull := (flushAnchor_empty hstate).mp he
  rw [(h.region.small ho hheap).maxCount] at hfull
  have hmem := (blocks_all ho hheap hndall hall).2 (by rw [List.length_append]; omega) z hz
  by_cases hin : z ∈ run
  · exact if_pos hin
  · have hfree := (List.mem_append.mp hmem).resolve_left hin
    exact (if_neg hin).trans ((h.block.freeMem ho hheap z).mp hfree).1

/-- The links inside a run are addresses, and so is the last one unless the run is the
whole bin. -/
theorem HeapInv.run_words (h : HeapInv cfg s H live) {t c d y a : Nat} {pre rest : List Nat}
    (hg : GoodLink cfg s t c d y rest) (hsplit : H.bins t c = (pre ++ [y]) ++ rest)
    (hrun : ∀ x ∈ pre ++ [y], BlockOf cfg s d c x)
    (hraw : ChainTo (readWord s.mem) a (pre ++ [y]) (readWord s.mem y)) :
    ∀ w ∈ pre ++ [y], w ∈ (H.bins t c).dropLast → readWord s.mem w ≠ 0 := by
  intro w hw hlast
  rcases List.mem_append.mp hw with hw | hw
  · -- the successor of `w` is in the run
    obtain ⟨sg, fw⟩ := h.region.blockFacts (hrun _ (hraw.next_mem w hw))
    exact Nat.ne_of_gt fw.addr.pos
  · rw [List.mem_singleton] at hw
    subst hw
    cases hg with
    | last =>
      have hnd := h.block.binNodup t c
      rw [hsplit, List.append_nil] at hnd
      rw [hsplit, List.append_nil, List.dropLast_concat] at hlast
      exact absurd rfl ((List.nodup_append.mp hnd).2.2 w hlast w (List.mem_cons_self ..))
    | next hword hr0 _ _ =>
      rw [hword]
      exact hr0

/-- The state after a round that emptied the link of the last block. -/
theorem finishRound_stuck {t c d y v : Nat} {seg : Segment} {rest : List Nat} {old new : Anchor}
    (hne : rest ≠ []) (hword : readWord s.mem y = 0) :
    Stuck t c s ((s.flushTo t c d ⟨readWord s.mem y, rest.length, (s.threadCache t c).blockSize⟩ y v
      new).finishRound cfg c d seg old new) (rest.length - 1) := by
  have hpos := List.length_pos_iff.mpr hne
  refine ⟨?_, ?_, fun hk => finishRound_pageMap _ _ _ _ _ _ _ hk⟩
  · rw [(finishRound_mem ..).2, State.flushTo, setDesc_threadCache]
    show ((s.setBin t c _).threadCache t c).block = 0
    rw [setBin_same, hword]
  · rw [(finishRound_mem ..).2, State.flushTo, setDesc_threadCache]
    show ((s.setBin t c _).threadCache t c).blockNum = _
    rw [setBin_same]
    exact (Nat.sub_add_cancel hpos).symm

/-- The page of the top block names the superblock of the round. -/
theorem HeapInv.flushIter_eq (h : HeapInv cfg s H live) {t c d x : Nat} {xs : List Nat}
    {seg : Segment} {s' : State} (hl : H.bins t c = x :: xs) (f : BlockFacts cfg s d c x seg)
    (hround : Apfmalloc.flushRound cfg t c d s = some s') :
    Apfmalloc.flushIter cfg t c s = some (true, s') := by
  have hd := (h.desc.addr d (h.desc.alloced_carved (h.region.alloced f.owns))).pos
  have hholds := hl ▸ h.block.holds t c
  unfold Apfmalloc.flushIter
  rw [if_neg hholds.blockNum_pos, hholds.block_eq, f.page]
  simp only [PageInfo.getDesc, if_neg (Nat.ne_of_gt hd), hround, Option.map_some]

/-- **A flush meets a block:** one round, and the run ends at the superblock's
border or at a lazily linked block. -/
theorem HeapInv.flushIter (h : HeapInv cfg s H live) (ha : AnchorsOk s H) {t c x : Nat}
    {xs : List Nat} (hl : H.bins t c = x :: xs) :
    ∃ s', Apfmalloc.flushIter cfg t c s = some (true, s') ∧
      ((∃ d seg run rest, Round cfg t c s s' H d seg run rest ∧
          HeapInv cfg s' (H.flush t c d run rest) live ∧
          (∀ w ∈ rest, readWord s'.mem w = readWord s.mem w) ∧
          ∀ w ∈ run, w ∈ (x :: xs).dropLast → readWord s.mem w ≠ 0) ∨
        ((cfg.noMetStack = false) ∧
          ∃ y n, y ∈ (x :: xs).dropLast ∧ readWord s.mem y = 0 ∧ Stuck t c s s' n)) := by
  obtain ⟨-, d, hb⟩ := (h.block.binMem t c x).mp (by rw [hl]; exact List.mem_cons_self ..)
  obtain ⟨seg, pre, y, rest, i, f, hsplit, hi, hrun, hraw, hstop, hround⟩ := h.flushRound hl hb
  have hholds := h.block.holds t c
  have hnext := h.avail_lt f.owns f.heap
  have hheap := f.heap
  have hlen : (pre ++ [y]).length = pre.length + 1 := by
    rw [List.length_append, List.length_singleton]
  have hsplit' : H.bins t c = (pre ++ [y]) ++ rest := by
    rw [hsplit, List.append_cons]
  have hymem : y ∈ pre ++ [y] := List.mem_append_right _ (List.mem_cons_self ..)
  rw [← hlen] at hround
  have hso := sameOwners_flushTo s t c d
    ⟨readWord s.mem y, rest.length, (s.threadCache t c).blockSize⟩ y
    (seg.ptr + (s.descs d).anchor.avail * (cfg.sizeClass c).blockSize)
    (flushAnchor (s.descs d).anchor (s.descs d).maxCount i (pre ++ [y]).length)
  have hheap' := (hso.procHeap f.owns).trans hheap
  rw [flushRelease_eq hheap' f.spec (Nat.ne_of_gt f.valid.pos)] at hround
  refine ⟨_, h.flushIter_eq hl f hround, ?_⟩
  rcases h.link_cases f hsplit hstop with hgood | ⟨hmet, hne, hword⟩
  · have hav := @flushAnchor_avail (s.descs d).anchor (s.descs d).maxCount i (pre ++ [y]).length
      (Nat.lt_trans hi f.spec.blockNum_lt)
    have hflush := h.flush hsplit f.owns hheap hrun hraw (hgood.holds (hsplit ▸ hholds)) hav hnext
    refine Or.inl ⟨d, seg, pre ++ [y], rest, ⟨hsplit', ?_, f.owns, hheap, hrun, ?_, ?_⟩, ?_, ?_, ?_⟩
    · exact fun he => by cases (List.append_eq_nil_iff.mp he).2
    · intro r rest' hr
      subst hr
      cases hgood with
      | next _ _ _ hnb => exact hnb
    · exact ⟨i, y, _, _, hi, hymem, rfl⟩
    · refine hflush.finishRound ((hso.owns d seg).mpr f.owns) hheap' fun he z hz => ?_
      exact h.flush_all_free ha hsplit' f.owns hheap hrun he ((hso.blockOf d c z).mp hz)
    · intro w hw
      rw [(finishRound_mem ..).1]
      have hrib := h.block.runInBin h.region hsplit hrun
      have hbw := ((h.block.binMem t c w).mp ((hrib.bin w).mpr (Or.inr hw))).2
      exact hrib.word h.region hbw (fun he => hrib.rest w hw (he ▸ hymem)) _
    · rw [← hl]
      exact h.run_words hgood hsplit' hrun hraw
  · -- the decoded chain goes on, the raw word of `y` is NULL
    refine Or.inr ⟨hmet, y, rest.length - 1, ?_, hword, finishRound_stuck hne hword⟩
    obtain ⟨r, rest', rfl⟩ := List.exists_cons_of_ne_nil hne
    rw [← hl, hsplit, List.dropLast_append_cons, List.dropLast_cons_cons]
    exact List.mem_append_right _ (List.mem_cons_self ..)

/-! ## What a round leaves of the descriptors -/

theorem finishRound_other (s : State) (cfg : Cfg) {c d d' : Nat} (seg : Segment) (old new : Anchor)
    (hne : d' ≠ d) : (s.finishRound cfg c d seg old new).descs d' = s.descs d' := by
  unfold State.finishRound
  split
  next => exact setDesc_other _ _ _ hne
  next =>
    split
    next => exact setDesc_other _ _ _ hne
    next => rfl

/-- The descriptor itself keeps everything but the link, or loses its segment. -/
theorem finishRound_same (s : State) (cfg : Cfg) (c d : Nat) (seg : Segment) (old new : Anchor) :
    ((s.finishRound cfg c d seg old new).descs d).procHeap = (s.descs d).procHeap ∧
    ((s.finishRound cfg c d seg old new).descs d).anchor = (s.descs d).anchor ∧
    ((s.finishRound cfg c d seg old new).descs d).superBlock =
      if new.state = .empty then none else (s.descs d).superBlock := by
  unfold State.finishRound
  by_cases he : new.state = .empty
  · rw [if_pos he, if_pos he]
    simp only [State.releaseSb, segDeallocate, setDesc_same, and_self]
  · rw [if_neg he, if_neg he]
    split
    next => simp only [State.pushPartial, setPartialList_descs, setDesc_same, and_self]
    next => exact ⟨rfl, rfl, rfl⟩

theorem Round.other_desc {t c d d' : Nat} {seg : Segment} {run rest : List Nat} {s' : State}
    (h : Round cfg t c s s' H d seg run rest) (hne : d' ≠ d) : s'.descs d' = s.descs d' := by
  obtain ⟨i, y, next, bin, -, -, rfl⟩ := h.result
  rw [finishRound_other _ _ _ _ _ hne, flushTo_other _ _ _ _ _ _ _ hne]

theorem Round.same_desc {t c d : Nat} {seg : Segment} {run rest : List Nat} {s' : State}
    (h : Round cfg t c s s' H d seg run rest) :
    ∃ i < (cfg.sizeClass c).blockNum, (s'.descs d).procHeap = some c ∧
      (s'.descs d).anchor =
        flushAnchor (s.descs d).anchor (s.descs d).maxCount i run.length ∧
      (s'.descs d).superBlock = if (s'.descs d).anchor.state = .empty then none else some seg := by
  obtain ⟨i, y, next, bin, hi, -, rfl⟩ := h.result
  obtain ⟨hh, ha, hs⟩ := finishRound_same (s.flushTo t c d bin y next
    (flushAnchor (s.descs d).anchor (s.descs d).maxCount i run.length)) cfg c d seg
    (s.descs d).anchor (flushAnchor (s.descs d).anchor (s.descs d).maxCount i run.length)
  rw [flushTo_same] at hh ha hs
  refine ⟨i, hi, hh.trans h.heap, ha, ?_⟩
  rw [ha, hs, show (s.descs d).superBlock = some seg from h.owns]

/-- Who owns what after a round: `d` may have lost its segment. -/
theorem Round.owns_old {t c d d' : Nat} {seg sg : Segment} {run rest : List Nat} {s' : State}
    (h : Round cfg t c s s' H d seg run rest) (ho : Owns s' d' sg) :
    Owns s d' sg ∧ (s'.descs d').procHeap = (s.descs d').procHeap := by
  by_cases hd : d' = d
  · subst hd
    obtain ⟨i, -, hh, -, hs⟩ := h.same_desc
    refine ⟨?_, hh.trans h.heap.symm⟩
    rw [Owns, hs] at ho
    split at ho
    next => cases ho
    next => exact h.owns.trans ho
  · rw [Owns, h.other_desc hd] at ho
    exact ⟨ho, by rw [h.other_desc hd]⟩

theorem Round.owns_new {t c d d' : Nat} {seg sg : Segment} {run rest : List Nat} {s' : State}
    (h : Round cfg t c s s' H d seg run rest) (ho : Owns s d' sg) :
    (s'.descs d').superBlock = none ∨ Owns s' d' sg := by
  by_cases hd : d' = d
  · subst hd
    obtain ⟨i, -, -, -, hs⟩ := h.same_desc
    rw [Owns, hs]
    split
    next => exact Or.inl rfl
    next => exact Or.inr (h.owns.symm.trans ho)
  · rw [Owns, h.other_desc hd]
    exact Or.inr ho

theorem Round.anchorsOk {t c d : Nat} {seg : Segment} {run rest : List Nat} {s' : State}
    (h : Round cfg t c s s' H d seg run rest) (hi : HeapInv cfg s H live) (ha : AnchorsOk s H) :
    AnchorsOk s' (H.flush t c d run rest) := by
  intro d' sg c' ho hheap
  obtain ⟨ho', hh⟩ := h.owns_old ho
  rw [hh] at hheap
  obtain ⟨hcount, hstate⟩ := ha ho' hheap
  show _ ≤ (if d' = d then run ++ H.frees d else H.frees d').length ∧ _
  by_cases hd : d' = d
  · subst hd
    obtain ⟨i, -, -, hanchor, hs⟩ := h.same_desc
    rw [if_pos rfl, List.length_append]
    have hne : (s'.descs d').anchor.state ≠ .empty := fun he => by
      rw [Owns, hs, if_pos he] at ho
      cases ho
    refine ⟨?_, hne⟩
    have hs' := hi.region.small h.owns h.heap
    have hspec := cfg.classSpec hs'.one_le hs'.lt
    obtain ⟨hnd, hall⟩ := hi.block.run_nodup h.bins h.owns h.heap h.blocks
    have hle := (blocks_all h.owns h.heap hnd hall).1
    rw [List.length_append] at hle
    have hlt := hspec.blockNum_lt
    rw [hanchor] at hne ⊢
    rw [flushAnchor_count (by omega) fun he => hne ((flushAnchor_empty hstate).mpr he)]
    omega
  · rw [if_neg hd, h.other_desc hd]
    exact ⟨hcount, hstate⟩

end Flush

end Apfmalloc
