import Apfmalloc.SharedSb

/-!
# What the threads lose, and what they race for

Three results about the interleavings of `SharedSb.lean`. Flushes that find no free block or
bring the last ones lose nothing (`shared_superblock_exact`); a refill may retire the descriptor
of a superblock that another thread is still releasing (`retired_before_release`); and a round of
`flush_cache` or a refill that nobody interrupts is the function of `CacheOps.lean` and
`Alloc.lean` (`flushRound_solo`, `mallocFromPartial_solo`), so the steps are those of the code.
-/

namespace Apfmalloc

open Base

/-! ## Lost blocks

A flush stores the length of its run as the count. That is the length of the free list when
there was none before, and a run that completes the superblock needs no count. Flushes of
either kind lose nothing, in any interleaving. -/

/-- The exchange of this step finds no free block, or brings the last ones back. -/
def FlushWhole (sb : Super) (s : ShareState) : ShareOp → Prop
  | .flushCas t => ∀ run oldAnchor, s.pc t = .flushCas run oldAnchor →
      s.anchor.count = 0 ∨ s.anchor.count + run.length = sb.maxCount
  | _ => True

/-- The count is the length of the free list, and no block is lost. -/
structure ExactInv (sb : Super) (s : ShareState) (free : List Nat) : Prop where
  count : s.anchor.state ≠ .empty → s.anchor.count = free.length
  kept : ∀ i < sb.maxCount, s.owner i ≠ .lost

section Exact

variable {sb : Super} {s s' : ShareState} {free : List Nat} {hand rel : Option Nat} {t : Nat}

theorem ExactInv.flushCas (he : ExactInv sb s free) (h : ShareInv sb s free hand rel)
    {run : List Nat} (hpc : s.pc t = .flushCas run s.anchor)
    (hw : s.anchor.count = 0 ∨ s.anchor.count + run.length = sb.maxCount) :
    ExactInv sb (s.putBack sb s.anchor run) (run ++ free) := by
  have hrun : RunHeld sb s t run (sb.at s.anchor.avail) := h.at_pc hpc
  obtain ⟨hnd, hlt, hne⟩ := h.free.disjoint hrun
  obtain ⟨hle, -⟩ := indices_all hnd hlt
  have hmax := sb.maxCount_lt
  rw [List.length_append] at hle
  refine ⟨fun hne' => ?_, fun i hlt => ?_⟩
  · have hall : s.anchor.count + run.length ≠ sb.maxCount :=
      fun hall => hne' ((flushAnchor_empty hne).mpr hall)
    have hnil : free.length = 0 := (he.count hne).symm.trans (hw.resolve_right hall)
    show (flushStore sb.maxCount s.anchor run).count = _
    rw [flushStore, flushAnchor_count (by omega) hall, List.length_append, hnil, Nat.add_zero]
  · by_cases hi : i ∈ run
    · rw [show (s.putBack sb s.anchor run).owner i = .free from if_pos hi]
      exact fun hx => by cases hx
    · rw [show (s.putBack sb s.anchor run).owner i = s.owner i from if_neg hi]
      exact he.kept i hlt

/-- With the right count a refill takes all there is. -/
theorem ExactInv.take (he : ExactInv sb s free) (h : FreeOk sb s free)
    (hne : s.anchor.state ≠ .empty) {i : Nat} (hi : i < sb.maxCount) :
    (s.take sb s.anchor).owner i ≠ .lost := by
  have hwalk := h.walk
  rw [he.count hne, List.take_length, ← he.count hne] at hwalk
  unfold ShareState.take
  simp only [hwalk, sb.mem_map_at]
  by_cases hmem : i ∈ free
  · rw [if_pos hmem]
    exact fun hx => by cases hx
  · have hnot : s.owner i ≠ .free := fun hf => hmem ((h.mem i).mpr ⟨hi, hf⟩)
    rw [if_neg hmem, if_neg hnot]
    exact he.kept i hi

/-- The state of a step of a run without lost blocks: the list is the same but for the two
exchanges. -/
def ExactAt (sb : Super) (s : ShareState) : Prop :=
  ∃ free hand rel, ShareInv sb s free hand rel ∧ ExactInv sb s free

theorem exactStep_inv {op : ShareOp} (h : ExactAt sb s)
    (hs : ShareStep sb s op s' ∧ FlushWhole sb s op) : ExactAt sb s' := by
  obtain ⟨free, hand, rel, h, he⟩ := h
  obtain ⟨hs, hw⟩ := hs
  cases hs with
  | write hm => exact ⟨_, _, _, h.write hm, he.count, he.kept⟩
  | @grab t run hpc _ _ hne hnd hout hchain =>
    refine ⟨_, _, _, h.grab hpc hne hnd hout hchain, he.count, fun i hi => ?_⟩
    by_cases hmem : i ∈ run
    · rw [show (ShareState.setPc (s.give run (.run t)) t (.flushLoad run)).owner i = .run t from
        if_pos hmem]
      exact fun hx => by cases hx
    · rw [show (ShareState.setPc (s.give run (.run t)) t (.flushLoad run)).owner i = s.owner i from
        if_neg hmem]
      exact he.kept i hi
  | flushLoad hpc =>
    have hrun := h.at_pc hpc
    exact ⟨_, _, _, h.move ⟨h.free.avail_le, hrun⟩ hpc Iff.rfl Iff.rfl, he.count, he.kept⟩
  | flushLink hpc => exact ⟨_, _, _, h.flushLink hpc, he.count, he.kept⟩
  | flushCas hpc ha =>
    subst ha
    obtain ⟨hand', rel', h'⟩ := h.flushCas hpc
    have he' := he.flushCas h hpc (hw _ _ hpc)
    exact ⟨_, _, _, h', he'.count, he'.kept⟩
  | flushRetry hpc =>
    have hrun := h.at_pc hpc
    exact ⟨_, _, _, h.move ⟨_, hrun⟩ hpc Iff.rfl Iff.rfl, he.count, he.kept⟩
  | unregister hpc _ => exact ⟨_, _, _, h.unregister hpc, he.count, he.kept⟩
  | dealloc hpc => exact ⟨_, _, _, h.dealloc hpc, he.count, he.kept⟩
  | push hpc => exact ⟨_, _, _, h.push hpc, he.count, he.kept⟩
  | pop hpc hlist => exact ⟨_, _, _, h.pop hpc hlist, he.count, he.kept⟩
  | takeLoad hpc =>
    exact ⟨_, _, _, h.move (fun he => he) hpc Iff.rfl Iff.rfl, he.count, he.kept⟩
  | takeCas hpc hne ha _ =>
    subst ha
    refine ⟨_, _, _, h.takeCas hpc hne, fun _ => ?_, fun i hi => he.take h.free hne hi⟩
    exact congrArg Anchor.count (listAnchor_eq sb.maxCount_lt s.anchor)
  | takeRetry hpc _ _ =>
    exact ⟨_, _, _, h.move (h.at_pc hpc) hpc Iff.rfl Iff.rfl, he.count, he.kept⟩
  | retire hpc hold => exact ⟨_, _, _, h.retire hpc hold, he.count, he.kept⟩

end Exact

/-- **Nothing is lost** if every exchange of a flush finds a superblock without free blocks, or
completes it: in every interleaving the count is that of the free blocks until the superblock is
empty, and each of its blocks is with a client, a bin, a flush or the free list. -/
theorem shared_superblock_exact (sb : Super) (m : Mem) {ops : List ShareOp} {s : ShareState}
    (hrun : Run (fun s op s' => ShareStep sb s op s' ∧ FlushWhole sb s op)
      (ShareState.new sb m) ops s) :
    (∀ i < sb.maxCount, s.owner i ≠ .lost) ∧
      (s.anchor.state ≠ .empty → s.anchor.count =
        (List.range sb.maxCount).countP fun i => s.owner i = .free) := by
  have hnew : ExactAt sb (ShareState.new sb m) :=
    ⟨_, _, _, shareInv_new sb m, fun _ => congrArg Anchor.count (listAnchor_eq sb.maxCount_lt _),
      fun _ _ hx => by cases hx⟩
  obtain ⟨free, hand, rel, h, he⟩ := Run.invariant (P := ExactAt sb)
    (fun h hs => exactStep_inv h hs) hrun hnew
  refine ⟨he.kept, fun hne => ?_⟩
  rw [he.count hne, List.countP_eq_length_filter]
  refine List.Perm.length_eq ((List.perm_ext_iff_of_nodup h.free.nodup
    (List.nodup_range.filter _)).mpr fun i => ?_)
  rw [h.free.mem, List.mem_filter, List.mem_range, decide_eq_true_iff]

/-- Thread 0 gives a block back and pushes the descriptor. -/
theorem shared_superblock_exact_two : ∃ s,
    Run (fun s op s' => ShareStep twoBlocks s op s' ∧ FlushWhole twoBlocks s op)
      (ShareState.new twoBlocks fun _ => 0)
      [.grab 0 [0], .flushLoad 0, .flushLink 0, .flushCas 0, .push 0] s ∧
    s.anchor.state = .partly ∧ s.anchor.count =
      (List.range twoBlocks.maxCount).countP fun i => s.owner i = .free := by
  have hrun : Run (fun s op s' => ShareStep twoBlocks s op s' ∧ FlushWhole twoBlocks s op)
      (ShareState.new twoBlocks fun _ => 0)
      [.grab 0 [0], .flushLoad 0, .flushLink 0, .flushCas 0, .push 0] _ :=
    .cons ⟨.grab rfl rfl rfl (List.cons_ne_nil 0 []) (by decide) (by decide) ⟨rfl, rfl⟩, trivial⟩ <|
    .cons ⟨.flushLoad rfl, trivial⟩ <| .cons ⟨.flushLink rfl, trivial⟩ <|
    .cons ⟨.flushCas rfl rfl, fun _ _ _ => Or.inl rfl⟩ <| .cons ⟨.push rfl, trivial⟩ <| .nil _
  have hpartly : SuperBlockState.partly ≠ .empty := fun h => by cases h
  exact ⟨_, hrun, rfl, (shared_superblock_exact twoBlocks _ hrun).2 hpartly⟩

/-! ## Retired before it is released

The thread that brings the last blocks back leaves the descriptor where it is, on the partial
list, and gives the superblock back afterwards. Nothing makes a refill wait for that. -/

/-- The blocks from `j` on, linked in the order of their addresses. -/
theorem range_chain (sb : Super) {m : Mem} :
    ∀ {n j : Nat}, (∀ i, j ≤ i → i + 1 < sb.maxCount → readWord m (sb.at i) = sb.at (i + 1)) →
      0 < n → j + n = sb.maxCount →
      RunChain sb m (List.range' j n) (readWord m (sb.at ((List.range' j n).getLastD 0))) := by
  intro n
  induction n with
  | zero => intro j _ hn _; exact absurd hn (Nat.lt_irrefl 0)
  | succ n ih =>
    intro j hlink _ hj
    cases n with
    | zero => exact ⟨rfl, rfl⟩
    | succ n =>
      have hrest := ih (j := j + 1) (fun i hi => hlink i (by omega)) (Nat.succ_pos n) (by omega)
      rw [List.range'_succ]
      refine ⟨rfl, ?_⟩
      rw [hlink j (Nat.le_refl j) (by omega)]
      exact hrest

/-- The first block is back, and the descriptor is on the list. -/
structure FirstBack (sb : Super) (m : Mem) (s : ShareState) : Prop where
  anchor : s.anchor = ⟨.partly, 0, 1⟩
  pc : ∀ t, s.pc t = .idle
  listed : s.listed = true
  there : s.registered = true ∧ s.superBlock = true
  owner : ∀ i, i ≠ 0 → s.owner i = .out
  word : ∀ i, i ≠ 0 → readWord s.mem (sb.at i) = readWord m (sb.at i)

theorem firstBack_reached (sb : Super) (m : Mem) (t : Nat) (htwo : 2 ≤ sb.maxCount) :
    ∃ s, Run (ShareStep sb) (ShareState.new sb m) (flushOps t [0] ++ [.push t]) s ∧
      FirstBack sb m s := by
  have hanchor : (ShareState.new sb m).anchor = ⟨.full, sb.maxCount, 0⟩ :=
    listAnchor_eq sb.maxCount_lt _
  have hflush : Run (ShareStep sb) (ShareState.new sb m) (flushOps t [0]) _ :=
    flush_solo rfl rfl rfl (List.cons_ne_nil 0 []) (List.nodup_singleton 0)
      (fun i hi => ⟨by rw [List.mem_singleton.mp hi]; exact sb.maxCount_pos, rfl⟩) ⟨rfl, rfl⟩
  have hstore : flushStore sb.maxCount (ShareState.new sb m).anchor [0] = ⟨.partly, 0, 1⟩ := by
    rw [hanchor, flushStore, flushAnchor]
    simp only [Anchor.setAvail, Anchor.setState, Anchor.setCount, List.headD_cons,
      List.length_singleton, if_true, if_neg (show 0 + 1 ≠ sb.maxCount by omega)]
    rfl
  have hpc : ((ShareState.new sb m).flushSolo sb t [0]).pc t = .push := by
    refine (if_pos rfl).trans ?_
    rw [hstore, hanchor]
    rfl
  refine ⟨_, hflush.append (.cons (.push hpc) (.nil _)), hstore, fun t' => ?_, rfl, ⟨rfl, rfl⟩,
    fun i hi => if_neg fun h0 => hi (List.mem_singleton.mp h0), fun i hi => sb.word_write hi⟩
  by_cases ht : t' = t
  · rw [ht]
    exact if_pos rfl
  · exact (if_neg ht).trans (if_neg ht)

/-- All other blocks come back at once, linked as they were. -/
theorem FirstBack.lastBack {sb : Super} {m : Mem} {s : ShareState} (h : FirstBack sb m s) (t : Nat)
    (htwo : 2 ≤ sb.maxCount)
    (hlink : ∀ i, i + 1 < sb.maxCount → readWord m (sb.at i) = sb.at (i + 1)) :
    ∃ s', Run (ShareStep sb) s (flushOps t (List.range' 1 (sb.maxCount - 1))) s' ∧
      s'.anchor.state = .empty ∧ s'.pc t = .unregister ∧ (∀ t', t' ≠ t → s'.pc t' = .idle) ∧
      s'.listed = true ∧ s'.registered = true ∧ s'.superBlock = true := by
  have hne : List.range' 1 (sb.maxCount - 1) ≠ [] := fun he => by
    have := congrArg List.length he
    rw [List.length_range', List.length_nil] at this
    omega
  have hflush : Run (ShareStep sb) s (flushOps t (List.range' 1 (sb.maxCount - 1)))
      (s.flushSolo sb t (List.range' 1 (sb.maxCount - 1))) := by
    refine flush_solo (h.pc t) h.there.1 h.there.2 hne List.nodup_range' (fun i hi => ?_)
      (range_chain sb (fun i hi hlt => ?_) (by omega) (by omega))
    · rw [List.mem_range'_1] at hi
      exact ⟨by omega, h.owner i (by omega)⟩
    · rw [h.word i (by omega)]
      exact hlink i hlt
  have hempty :
      (flushStore sb.maxCount s.anchor (List.range' 1 (sb.maxCount - 1))).state = .empty := by
    rw [h.anchor]
    refine (flushAnchor_empty fun he => by cases he).mpr ?_
    rw [List.length_range']
    show 1 + (sb.maxCount - 1) = sb.maxCount
    omega
  exact ⟨_, hflush, hempty, (if_pos rfl).trans (if_pos hempty),
    fun t' ht => (if_neg ht).trans (h.pc t'), h.listed, h.there.1, h.there.2⟩

/-- **A descriptor can be retired while its superblock is still being released.** In every
superblock whose blocks are linked as `malloc_from_new_sb` leaves them in the `no_met_stack` build,
thread `t` may give the first block back and then all others; before it goes on, thread `t'` pops
the descriptor, finds it empty and retires it. What `t` does next, it does to a descriptor that the
next `Descriptor::alloc` hands out. -/
theorem retired_before_release (sb : Super) {m : Mem} {t t' : Nat} (htwo : 2 ≤ sb.maxCount)
    (hlink : ∀ i, i + 1 < sb.maxCount → readWord m (sb.at i) = sb.at (i + 1)) (hne : t' ≠ t) :
    ∃ ops s, Run (ShareStep sb) (ShareState.new sb m) ops s ∧ s.retired = true ∧
      s.registered = true ∧ s.superBlock = true ∧ s.pc t = .unregister := by
  obtain ⟨s₁, h₁, hfirst⟩ := firstBack_reached sb m t htwo
  obtain ⟨s₂, h₂, hempty, hpc, hidle, hlist, hreg, hsup⟩ := hfirst.lastBack t htwo hlink
  have hretire : Run (ShareStep sb) s₂ [.pop t', .takeLoad t', .retire t'] _ :=
    .cons (.pop (hidle t' hne) hlist) <| .cons (.takeLoad (if_pos rfl)) <|
    .cons (.retire (if_pos rfl) hempty) <| .nil _
  refine ⟨_, _, (h₁.append h₂).append hretire, rfl, hreg, hsup, ?_⟩
  exact (if_neg hne.symm).trans ((if_neg hne.symm).trans ((if_neg hne.symm).trans hpc))

/-- Two blocks, the first linked to the second. -/
theorem retired_before_release_two : ∃ ops s,
    Run (ShareStep twoBlocks) (ShareState.new twoBlocks (writeWord (fun _ => 0) 4096 4104)) ops s ∧
      s.retired = true ∧ s.registered = true ∧ s.superBlock = true ∧ s.pc 0 = .unregister := by
  refine retired_before_release twoBlocks (Nat.le_refl 2) (fun i hi => ?_) Nat.one_ne_zero
  obtain rfl : i = 0 := by
    have : i + 1 < 2 := hi
    omega
  exact readWord_writeWord (by decide)

/-! ## One call at a time

A round of `flush_cache` and a refill that nobody interrupts are the functions of `CacheOps.lean`
and `Alloc.lean`. -/

/-- The superblock of class `c` in the segment `seg`. -/
def Super.ofSeg {cfg : Cfg} {c : Nat} (seg : Segment) (hspec : ClassSpec (cfg.sizeClass c) c)
    (hend : seg.ptr + (cfg.sizeClass c).sbSize ≤ addrSpace) : Super where
  ptr := seg.ptr
  blockSize := (cfg.sizeClass c).blockSize
  maxCount := (cfg.sizeClass c).blockNum
  word_fits := hspec.blockSize_ge
  maxCount_pos := Nat.lt_of_lt_of_le (Nat.succ_pos 1) hspec.blockNum_ge
  maxCount_lt := hspec.blockNum_lt
  end_lt := by
    rw [Nat.mul_comm, ← hspec.sbSize_eq]
    exact Nat.lt_of_le_of_lt hend (by decide)

/-- The part of the state the superblock of `d` lives in. -/
structure ShareState.Views (ss : ShareState) (s : State) (d : Nat) : Prop where
  anchor : ss.anchor = (s.descs d).anchor
  mem : ss.mem = s.mem
  superBlock : ss.superBlock = (s.descs d).superBlock.isSome

section Views

variable {cfg : Cfg} {s s' : State} {H : Heap} {live : List Live} {ss : ShareState} {sb : Super}
  {t c d : Nat} {seg : Segment}

/-- Blocks by their indices. -/
theorem Super.indices (sb : Super) {l : List Nat} (h : ∀ x ∈ l, ∃ i < sb.maxCount, x = sb.at i) :
    ∃ run : List Nat, l = run.map sb.at ∧ ∀ i ∈ run, i < sb.maxCount := by
  induction l with
  | nil => exact ⟨[], rfl, fun i hi => absurd hi List.not_mem_nil⟩
  | cons x l ih =>
    obtain ⟨i, hi, rfl⟩ := h x (List.mem_cons_self ..)
    obtain ⟨run, rfl, hrun⟩ := ih fun y hy => h y (List.mem_cons_of_mem _ hy)
    refine ⟨i :: run, rfl, fun j hj => ?_⟩
    rcases List.mem_cons.mp hj with rfl | hj
    · exact hi
    · exact hrun j hj

/-- The last block of a run, by its index. -/
theorem Super.run_last (sb : Super) {pre run : List Nat} {y : Nat}
    (hrun : pre ++ [y] = run.map sb.at) (hnd : (pre ++ [y]).Nodup) :
    run ≠ [] ∧ run.Nodup ∧ run.length = pre.length + 1 ∧ sb.at (run.getLastD 0) = y := by
  have hne : run ≠ [] := fun he => by
    rw [he] at hrun
    exact List.append_ne_nil_of_right_ne_nil pre (List.cons_ne_nil y []) hrun
  have hlen := congrArg List.length hrun
  have hlast := congrArg List.getLast? hrun
  rw [List.length_append, List.length_map] at hlen
  rw [List.getLast?_concat, List.getLast?_map, List.getLast?_eq_some_getLast hne] at hlast
  rw [hrun] at hnd
  refine ⟨hne, List.Nodup.of_map _ hnd, hlen.symm, ?_⟩
  rw [List.getLastD_eq_getLast?, List.getLast?_eq_some_getLast hne]
  exact (Option.some.inj hlast).symm

/-- What follows the exchange of a flush. -/
def finishOps (t : Nat) (oldAnchor newAnchor : Anchor) : List ShareOp :=
  if newAnchor.state = .empty then [.unregister t, .dealloc t]
  else if oldAnchor.state = .full then [.push t]
  else []

/-- The end of a round, step by step. -/
theorem finish_solo {oldAnchor newAnchor : Anchor} (hpc : ss.pc t = flushNext oldAnchor newAnchor)
    (hsup : ss.superBlock = true) :
    ∃ ss', Run (ShareStep sb) ss (finishOps t oldAnchor newAnchor) ss' ∧ ss'.pc t = .idle ∧
      ss'.anchor = ss.anchor ∧ ss'.mem = ss.mem ∧
      ss'.superBlock = !decide (newAnchor.state = .empty) := by
  unfold finishOps
  rcases flushNext_cases oldAnchor newAnchor with ⟨he, hnext⟩ | ⟨he, hold, hnext⟩ |
    ⟨he, hold, hnext⟩
  · rw [hnext] at hpc
    rw [if_pos he]
    refine ⟨_, .cons (.unregister hpc hsup) (.cons (.dealloc (if_pos rfl)) (.nil _)), if_pos rfl,
      rfl, rfl, ?_⟩
    rw [decide_eq_true he]
    rfl
  · rw [hnext] at hpc
    rw [if_neg he, if_pos hold]
    refine ⟨_, .cons (.push hpc) (.nil _), if_pos rfl, rfl, rfl, ?_⟩
    rw [decide_eq_false he]
    exact hsup
  · rw [hnext] at hpc
    rw [if_neg he, if_neg hold]
    refine ⟨ss, .nil _, hpc, rfl, rfl, ?_⟩
    rw [decide_eq_false he]
    exact hsup

/-- **A round of `flush_cache`** is a flush of this file, and what follows it. -/
theorem flushRound_solo (h : HeapInv cfg s H live) {x : Nat} {xs : List Nat}
    (hl : H.bins t c = x :: xs) (hb : BlockOf cfg s d c x)
    (hround : flushRound cfg t c d s = some s') (hv : ss.Views s d) (hpc : ss.pc t = .idle)
    (hreg : ss.registered = true) (hspec : ClassSpec (cfg.sizeClass c) c) (ho : Owns s d seg)
    (hend : seg.ptr + (cfg.sizeClass c).sbSize ≤ addrSpace)
    (hout : ∀ i, H.place ((Super.ofSeg seg hspec hend).at i) = .bin t → ss.owner i = .out) :
    ∃ run ss', Run (ShareStep (Super.ofSeg seg hspec hend)) ss
      (flushOps t run ++
        finishOps t ss.anchor (flushStore (cfg.sizeClass c).blockNum ss.anchor run)) ss' ∧
      ss'.Views s' d ∧ ss'.pc t = .idle := by
  obtain ⟨seg', pre, y, rest, i, f, hsplit, hi, hblocks, hchain, -, heq⟩ := h.flushRound hl hb
  obtain rfl := f.owns.unique ho
  have hb' := h.block.runInBin h.region hsplit hblocks
  generalize hsb : Super.ofSeg seg' hspec hend = sb at *
  have hat : ∀ j, sb.at j = seg'.ptr + j * (cfg.sizeClass c).blockSize := fun j => by
    rw [← hsb]
    rfl
  have hmax : sb.maxCount = (cfg.sizeClass c).blockNum := by rw [← hsb]; rfl
  obtain ⟨run, hrun, hlt⟩ := sb.indices fun w hw => by
    obtain ⟨sg, ho', -, j, hj, hw⟩ := hblocks w hw
    obtain rfl := ho'.unique ho
    exact ⟨j, by rw [hmax]; exact hj, by rw [hat]; exact hw⟩
  obtain ⟨hne, hnd, hlen, hlast⟩ := sb.run_last hrun hb'.runNodup
  rw [hrun] at hchain
  have hhead : run.headD 0 = i := by
    obtain ⟨j, run', rfl⟩ := List.exists_cons_of_ne_nil hne
    refine sb.at_inj ?_
    rw [hat i]
    exact hchain.1.symm
  have hsup : ss.superBlock = true := by
    rw [hv.superBlock, show (s.descs d).superBlock = some seg' from ho]
    rfl
  have hflush : Run (ShareStep sb) ss (flushOps t run) _ := flush_solo hpc hreg hsup hne hnd
    (fun j hj => ⟨hlt j hj, hout j (hb'.place _ (by rw [hrun]; exact List.mem_map_of_mem hj))⟩) (by
      rw [RunChain, hhead, hat i, hlast, hv.mem]
      exact hchain)
  have hnew : flushStore sb.maxCount ss.anchor run =
      flushAnchor (s.descs d).anchor (s.descs d).maxCount i (pre.length + 1) := by
    rw [flushStore, hhead, hlen, hv.anchor, hmax, f.super.maxCount]
  have hpc' : (ss.flushSolo sb t run).pc t =
      flushNext ss.anchor (flushStore sb.maxCount ss.anchor run) := if_pos rfl
  obtain ⟨ss', hfin, hidle, ha, hm, hsup'⟩ :
      ∃ ss', Run (ShareStep sb) (ss.flushSolo sb t run) _ ss' ∧ _ := finish_solo hpc' hsup
  rw [← hmax]
  refine ⟨run, ss', hflush.append hfin, ?_, hidle⟩
  rw [heq, flushRelease_eq (((sameOwners_flushTo ..).procHeap ho).trans f.heap) hspec
    (Nat.ne_of_gt f.valid.pos)] at hround
  obtain rfl := Option.some.inj hround
  obtain ⟨-, hanchor, hsuper⟩ := finishRound_same (s.flushTo t c d
    ⟨readWord s.mem y, rest.length, (s.threadCache t c).blockSize⟩ y
    (seg'.ptr + (s.descs d).anchor.avail * (cfg.sizeClass c).blockSize)
    (flushAnchor (s.descs d).anchor (s.descs d).maxCount i (pre.length + 1))) cfg c d seg'
    (s.descs d).anchor (flushAnchor (s.descs d).anchor (s.descs d).maxCount i (pre.length + 1))
  rw [flushTo_same] at hanchor hsuper
  refine ⟨?_, ?_, ?_⟩
  · rw [ha, hanchor]
    exact hnew
  · rw [hm, (finishRound_mem ..).1]
    show writeWord ss.mem (sb.at (run.getLastD 0)) (sb.at ss.anchor.avail) = _
    rw [hlast, hat, hv.mem, hv.anchor]
    rfl
  · rw [hsup', hsuper, hnew, show (s.descs d).superBlock = some seg' from ho]
    by_cases he :
        (flushAnchor (s.descs d).anchor (s.descs d).maxCount i (pre.length + 1)).state = .empty
    · rw [decide_eq_true he, if_pos he]
      rfl
    · rw [decide_eq_false he, if_neg he]
      rfl

/-- **A refill** that finds a superblock with free blocks is a refill of this file; the bin gets
what the links lead to. -/
theorem mallocFromPartial_solo {s₁ : State} {n : Nat}
    (hpop : listPopPartial c s = some (some d, s₁))
    (hstate : (s₁.descs d).anchor.state ≠ .empty) (hmax : (s₁.descs d).maxCount = sb.maxCount)
    (hrefill : mallocFromPartial t c s = some (n, s')) (hv : ss.Views s₁ d) (hpc : ss.pc t = .idle)
    (hlist : ss.listed = true) :
    ∃ ss', Run (ShareStep sb) ss (takeOps t) ss' ∧ ss'.Views s' d ∧ n = 1 ∧
      (s'.threadCache t c).blockNum = ss.anchor.count := by
  rw [mallocFromPartial, mallocFromPartialLoop_take hpop hstate] at hrefill
  obtain ⟨seg, bin, hseg, -, hbin, rfl, rfl⟩ := takeList_cases hrefill
  rw [State.setAnchor, setDesc_same] at hseg
  have hsup : ss.superBlock = true := by
    rw [hv.superBlock, hseg]
    rfl
  refine ⟨_, take_solo hpc hlist (by rw [hv.anchor]; exact hstate) hsup, ⟨?_, hv.mem, ?_⟩, rfl, ?_⟩
  · show listAnchor sb.maxCount ss.anchor = _
    rw [setBin_descs, State.setAnchor, setDesc_same, hv.anchor, hmax]
  · show ss.superBlock = _
    rw [setBin_descs, State.setAnchor, setDesc_same, hv.superBlock]
  · unfold ThreadCacheBin.pushList at hbin
    split at hbin
    · cases hbin
    · obtain rfl := Option.some.inj hbin
      rw [Apfmalloc.setBin_same, hv.anchor]

end Views

end Apfmalloc
