import Apfmalloc.BinFetch
import Apfmalloc.Kernel

/-!
# What `fetch` leaves in an empty bin

The tuner asks for `count` blocks. `fetch` counts what it has by the `block_num` of the
class, which a refill returns, not by what the refill put into the bin, and it refills
through `push_list`, which panics unless the bin is empty: one superblock is all a
fetch survives. The refill does not record the block size in the bin, so in the lazily
linked build a bin that never was filled misreads the links of the second block on.
`fetch_leaves_iff` is the exact account.
-/

namespace Apfmalloc

open Base

/-- The bin decodes to at least `count` blocks, each inside a mapped segment. -/
def BinHas (cfg : Cfg) (t c count : Nat) (s : State) : Prop :=
  ∃ l, Holds cfg.noMetStack s.mem (s.threadCache t c) l ∧ count ≤ l.length ∧
    ∀ x ∈ l, ∃ seg ∈ s.mapped, seg.ptr ≤ x ∧
      x + (cfg.sizeClass c).blockSize ≤ seg.ptr + seg.length

/-- The links of a fresh superblock are read back by a bin of block size `bsz`. -/
def ReadsFresh (cfg : Cfg) (bsz : Option Nat) (count : Nat) : Prop :=
  cfg.noMetStack = true ∨ bsz ≠ none ∨ count = 1

instance (cfg : Cfg) (bsz : Option Nat) (count : Nat) : Decidable (ReadsFresh cfg bsz count) :=
  inferInstanceAs (Decidable (_ ∨ _ ∨ _))

/-- Without lazy links the recorded block size is not used. -/
theorem Holds.of_noMet {m : Mem} {bin : ThreadCacheBin} {l : List Nat} {b : Option Nat}
    (h : Holds true m { bin with blockSize := b } l) : Holds true m bin l := by
  obtain ⟨z, hz⟩ := h.chain
  refine ⟨h.num, z, hz.congr fun x _ => ?_⟩
  rw [nextBlock_noMet, nextBlock_noMet]

section
variable {cfg : Cfg} {os : Os} {t c count : Nat} {s s' : State}

/-- **A fetch returns** just when one superblock is enough and the kernel grants it. -/
theorem fetch_isSome_iff (h1 : 1 ≤ c) (h2 : c < maxSzIdx) (hempty : s.partialList c = none)
    (hnum : (s.threadCache t c).blockNum = 0) :
    (fetch cfg os t c count s).isSome ↔ count = 0 ∨ count ≤ (cfg.sizeClass c).blockNum ∧
      (os.serve s.mapped (descLens s ++ [(cfg.sizeClass c).blockSize * count])).isSome := by
  constructor
  · intro h
    obtain ⟨s', hs'⟩ := Option.isSome_iff_exists.mp h
    refine (Nat.eq_zero_or_pos count).imp id fun hpos => ?_
    obtain ⟨hle, n, hnew⟩ := fetch_cases hempty hpos hs'
    rw [mallocCountFromNewSb, Nat.min_eq_right hle] at hnew
    exact ⟨hle, ((newSuperBlock_serve h1 h2).mp (Option.isSome_of_eq_some hnew)).2⟩
  · intro h
    unfold fetch
    rw [mallocCountFromPartial_none hempty]
    simp only [Option.bind_eq_bind, Option.bind_some]
    rcases h with rfl | ⟨hle, hserve⟩
    · rw [fetchLoop, if_neg (Nat.lt_irrefl 0)]
      rfl
    · rcases Nat.eq_zero_or_pos count with rfl | hpos
      · rw [fetchLoop, if_neg (Nat.lt_irrefl 0)]
        rfl
      · obtain ⟨⟨n, s'⟩, hnew⟩ := Option.isSome_iff_exists.mp
          ((newSuperBlock_serve h1 h2).mpr ⟨hnum, hserve⟩)
        have hcount : mallocCountFromNewSb cfg os t c count s = some (n, s') := by
          rw [mallocCountFromNewSb, Nat.min_eq_right hle]
          exact hnew
        have hn := (mallocCountFromNewSb_blockNum hcount).2.1
        obtain ⟨k, rfl⟩ : ∃ k, count = k + 1 := ⟨count - 1, by omega⟩
        rw [fetchLoop, if_pos hpos, hcount]
        simp only [Option.bind_eq_bind, Option.bind_some]
        rw [fetchLoop, if_neg (by omega)]
        rfl

/-- The bin after a fetch of at least one block. -/
structure Fetched (cfg : Cfg) (t c count : Nat) (s s' : State) (seg : Segment) : Prop where
  valid : seg.Valid
  length : seg.length = (cfg.sizeClass c).blockSize * count
  mapped : seg ∈ s'.mapped
  bin : s'.threadCache t c = ⟨seg.ptr, count, (s.threadCache t c).blockSize⟩
  mem : ∃ m, s'.mem = linkFresh cfg.noMetStack (zeroFill m seg.ptr (regionLen seg.length)) seg.ptr
    (cfg.sizeClass c).blockSize count
  allValid : (∀ sg ∈ s.mapped, sg.Valid) → ∀ sg ∈ s'.mapped, sg.Valid

theorem fetch_fetched (hempty : s.partialList c = none) (hpos : 0 < count)
    (h : fetch cfg os t c count s = some s') :
    count ≤ (cfg.sizeClass c).blockNum ∧ ∃ seg, Fetched cfg t c count s s' seg := by
  obtain ⟨hle, n, hnew⟩ := fetch_cases hempty hpos h
  rw [mallocCountFromNewSb, Nat.min_eq_right hle] at hnew
  obtain ⟨d, s₁, seg, halloc, -, hlen, hvalid, -, -, -, rfl⟩ := newSuperBlock_cases hnew
  obtain ⟨-, htc, -⟩ := alloc_pageMap halloc
  refine ⟨hle, seg, hvalid, hlen, List.mem_cons_self .., ?_, ⟨s₁.mem, by rw [hlen]⟩,
    fun hall sg hsg => ?_⟩
  · simp only [and_self, if_true, htc]
  · have hserve := alloc_serve cfg os s
    rw [halloc] at hserve
    rcases List.mem_cons.mp hsg with rfl | hsg
    · exact hvalid
    · exact Os.serve_all os.valid _ hserve.symm hall sg hsg

/-- **The blocks** are the new superblock's, if the bin can read them. -/
theorem Fetched.binHas (h1 : 1 ≤ c) (h2 : c < maxSzIdx) {seg : Segment} (hpos : 0 < count)
    (h : Fetched cfg t c count s s' seg)
    (hsize : ∀ b, (s.threadCache t c).blockSize = some b → b = (cfg.sizeClass c).blockSize)
    (hreads : ReadsFresh cfg (s.threadCache t c).blockSize count) : BinHas cfg t c count s' := by
  have hbs := (cfg.classSpec h1 h2).blockSize_ge
  have hend := h.valid.bound
  have hreg := (regionLen_bounds seg.length).1
  have hlen := h.length
  rw [addrSpace] at hend
  obtain ⟨m, hm⟩ := h.mem
  have hfresh : ∀ bin : ThreadCacheBin, bin.block = seg.ptr → bin.blockNum = count →
      bin.blockSize = some (cfg.sizeClass c).blockSize → Holds cfg.noMetStack s'.mem bin
        (strideList seg.ptr (cfg.sizeClass c).blockSize count) := by
    intro bin hb hn hs
    rw [hm]
    exact holds_linkFresh hbs hpos (by omega) (by omega) hb hn hs
  have hholds : Holds cfg.noMetStack s'.mem (s'.threadCache t c)
      (strideList seg.ptr (cfg.sizeClass c).blockSize count) := by
    rw [h.bin]
    rcases hreads with hnomet | hsome | rfl
    · rw [hnomet] at hfresh ⊢
      exact (hfresh ⟨seg.ptr, count, some (cfg.sizeClass c).blockSize⟩ rfl rfl rfl).of_noMet
    · obtain ⟨b, hb⟩ := Option.ne_none_iff_exists'.mp hsome
      exact hfresh _ rfl rfl (by rw [hb, hsize b hb])
    · exact ⟨rfl, _, rfl, rfl⟩
  refine ⟨_, hholds, Nat.le_of_eq (strideList_length ..).symm, fun x hx => ?_⟩
  obtain ⟨hlo, hhi⟩ := strideList_inside hx
  exact ⟨seg, h.mapped, hlo, by omega⟩

/-- **A bin without a block size** reads the second block as NULL. -/
theorem Fetched.not_binHas (h1 : 1 ≤ c) (h2 : c < maxSzIdx) {seg : Segment} (hpos : 0 < count)
    (h : Fetched cfg t c count s s' seg) (hvalid : ∀ sg ∈ s.mapped, sg.Valid)
    (hreads : ¬ReadsFresh cfg (s.threadCache t c).blockSize count) : ¬BinHas cfg t c count s' := by
  have hbs := (cfg.classSpec h1 h2).blockSize_ge
  have hreg := (regionLen_bounds seg.length).1
  have hlen := h.length
  obtain ⟨m, hm⟩ := h.mem
  obtain ⟨hnomet, hnone, hone⟩ : cfg.noMetStack = false ∧ (s.threadCache t c).blockSize = none ∧
      count ≠ 1 := by
    refine ⟨Bool.eq_false_iff.mpr fun he => hreads (.inl he), ?_, fun he => hreads (.inr (.inr he))⟩
    exact Decidable.byContradiction fun hne => hreads (.inr (.inl hne))
  have hmul : (cfg.sizeClass c).blockSize * 2 ≤ (cfg.sizeClass c).blockSize * count :=
    Nat.mul_le_mul_left _ (by omega)
  have hzero : readWord s'.mem seg.ptr = 0 := by
    rw [hm, hnomet, linkFresh, if_neg Bool.false_ne_true, sealLast,
      readWord_writeWord_ne (by omega)]
    exact readWord_zeroFill (Nat.le_refl _) (by omega)
  intro hhas
  obtain ⟨l, hholds, hcount, hin⟩ := hhas
  rw [h.bin, hnone, hnomet] at hholds
  obtain ⟨z, hz⟩ := hholds.chain
  have htwo : 2 ≤ l.length := by omega
  cases l with
  | nil => cases htwo
  | cons x l =>
    cases l with
    | nil => exact absurd htwo (Nat.not_succ_le_self 1)
    | cons y l =>
      obtain ⟨rfl, rfl, -⟩ := hz
      obtain ⟨sg, hsg, hle, -⟩ := hin _ (List.mem_cons_of_mem _ (List.mem_cons_self ..))
      have hnext : nextBlock false none s'.mem seg.ptr = 0 := hzero
      have := (h.allValid hvalid sg hsg).pos
      rw [hnext] at hle
      omega

end

end Apfmalloc
