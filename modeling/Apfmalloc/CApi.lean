import Apfmalloc.Realloc
import Apfmalloc.PosixMemalign
import Apfmalloc.RustAllocator
import Mathlib.Data.List.Perm.Basic

/-!
# `apfmalloc/src/lib.rs`: the C interface

`malloc`, `calloc`, `realloc`, `free` and `aligned_alloc` are called by any thread in any
order, on any mix of blocks of the heap and of the bootstrap reserve. What a C program relies
on is none of the machinery behind them: there are blocks, no two of them overlap, and a
byte of a block is what was last stored there. `Ideal` is that memory. A byte of it may be
unknown, since `malloc` promises nothing about what is in a block.

`c_api_refines` says that every run of the allocator is a run of the ideal memory, with the
same pointers given out and the same bytes read. The reallocs are those that meet the
condition of `realloc_sound`; what goes wrong with the others is told there.
-/

namespace Apfmalloc

open Base

/-! ## The calls -/

/-- What the program does, with the pointers and bytes it gets back. -/
inductive ApiOp
  | malloc (t size p : Nat)
  | calloc (t num size p : Nat)
  | alignedAlloc (t align size p : Nat)
  | free (t p : Nat)
  | realloc (t p size q : Nat)
  | write (p i : Nat) (v : UInt8)
  | read (p i : Nat) (v : UInt8)
  | mode

def World.blocks (w : World) : List Live := w.live ++ w.boot

def World.setMem (w : World) (m : Mem) : World := { w with state := { w.state with mem := m } }

/-- A program frees and reallocates what it has, and stays within the bytes it asked for. -/
inductive ApiStep (cfg : Cfg) : World → ApiOp → World → Prop
  | malloc {w : World} {s' : State} {os : Os} {t size p : Nat} :
      regionLen size < u32Size → doMalloc cfg os none t size w.state = some (p, s') →
      ApiStep cfg w (.malloc t size p) (w.grant (mallocOnReserve w.state t size) s' p size size)
  | calloc {w : World} {s' : State} {os : Os} {t num size p : Nat} :
      (num * size < usizeSize → regionLen (num * size) < u32Size) →
      Apfmalloc.calloc cfg os none t num size w.state = some (p, s') →
      ApiStep cfg w (.calloc t num size p)
        (w.grant (mallocOnReserve w.state t (num * size)) s' p (num * size) (num * size))
  | alignedAlloc {w : World} {s' : State} {os : Os} {t align size p : Nat} :
      AlignFits align size →
      Apfmalloc.alignedAlloc cfg os none t align size w.state = some (p, s') →
      ApiStep cfg w (.alignedAlloc t align size p)
        (w.grant (alignedOnReserve w.state t align size) s' p size (alignSize size align))
  | free {w : World} {s' : State} {t : Nat} {e : Live} :
      e ∈ w.live → doFree cfg none t e.ptr w.state = some s' →
      ApiStep cfg w (.free t e.ptr) ⟨s', w.live.erase e, w.boot⟩
  | freeReserve {w : World} {s' : State} {t : Nat} {e : Live} :
      e ∈ w.boot → (getPageInfoForPtr w.state e.ptr).getDesc = none →
      doFree cfg none t e.ptr w.state = some s' →
      ApiStep cfg w (.free t e.ptr) ⟨s', w.live, w.boot.erase e⟩
  | realloc {w : World} {s' : State} {os : Os} {t n q : Nat} {e : Live} :
      ReallocCond cfg w t e n → doRealloc cfg os none none t e.ptr n w.state = some (q, s') →
      ApiStep cfg w (.realloc t e.ptr n q) (w.realloc t e n s' q)
  | write {w : World} {e : Live} {i : Nat} {v : UInt8} : e ∈ w.blocks → i < e.size →
      ApiStep cfg w (.write e.ptr i v) (w.setMem (writeByte w.state.mem (e.ptr + i) v))
  | read {w : World} {e : Live} {i : Nat} : e ∈ w.blocks → i < e.size →
      ApiStep cfg w (.read e.ptr i (w.state.mem (e.ptr + i))) w
  | mode {w : World} (b : Bool) (f : Nat → Bool) :
      ApiStep cfg w .mode { w with state := { w.state with useBootstrap := b, panicking := f } }

/-! ## The ideal memory -/

/-- Blocks with their sizes, and the bytes that are known. -/
structure Ideal where
  blocks : List (Nat × Nat)
  byte : Nat → Option UInt8

namespace Ideal

def start : Ideal := ⟨[], fun _ => none⟩

/-- The `n` bytes at `p` overlap no block. -/
def Free (I : Ideal) (p n : Nat) : Prop := ∀ b ∈ I.blocks, p + n ≤ b.1 ∨ b.1 + b.2 ≤ p

/-- A new block with the bytes `f`. -/
def put (I : Ideal) (p n : Nat) (f : Nat → Option UInt8) : Ideal where
  blocks := (p, n) :: I.blocks
  byte a := if p ≤ a ∧ a < p + n then f (a - p) else I.byte a

/-- A block is given up. -/
def drop (I : Ideal) (p n : Nat) : Ideal where
  blocks := I.blocks.erase (p, n)
  byte a := if p ≤ a ∧ a < p + n then none else I.byte a

def store (I : Ideal) (a : Nat) (v : UInt8) : Ideal :=
  { I with byte := fun a' => if a' = a then some v else I.byte a' }

/-- The bytes of a block of `n` bytes at `p`. -/
def contents (I : Ideal) (p n : Nat) : Nat → Option UInt8 :=
  fun i => if i < n then I.byte (p + i) else none

theorem put_in {I : Ideal} {p n a : Nat} {f : Nat → Option UInt8} (h : p ≤ a ∧ a < p + n) :
    (I.put p n f).byte a = f (a - p) := if_pos h

theorem put_out {I : Ideal} {p n a : Nat} {f : Nat → Option UInt8} (h : ¬(p ≤ a ∧ a < p + n)) :
    (I.put p n f).byte a = I.byte a := if_neg h

theorem drop_in {I : Ideal} {p n a : Nat} (h : p ≤ a ∧ a < p + n) : (I.drop p n).byte a = none :=
  if_pos h

theorem drop_out {I : Ideal} {p n a : Nat} (h : ¬(p ≤ a ∧ a < p + n)) :
    (I.drop p n).byte a = I.byte a := if_neg h

end Ideal

/-- What the calls mean. -/
inductive IdealStep : Ideal → ApiOp → Ideal → Prop
  | malloc {I : Ideal} {t n p : Nat} : p ≠ 0 → I.Free p n →
      IdealStep I (.malloc t n p) (I.put p n fun _ => none)
  | calloc {I : Ideal} {t num size p : Nat} : num * size < usizeSize → p ≠ 0 →
      I.Free p (num * size) →
      IdealStep I (.calloc t num size p) (I.put p (num * size) fun _ => some 0)
  | callocOverflow {I : Ideal} {t num size : Nat} : usizeSize ≤ num * size →
      IdealStep I (.calloc t num size 0) I
  | alignedAlloc {I : Ideal} {t align n p : Nat} : p ≠ 0 → I.Free p n →
      IdealStep I (.alignedAlloc t align n p) (I.put p n fun _ => none)
  | alignedNull {I : Ideal} {t align n : Nat} : IdealStep I (.alignedAlloc t align n 0) I
  | free {I : Ideal} {t p n : Nat} : (p, n) ∈ I.blocks → IdealStep I (.free t p) (I.drop p n)
  | realloc {I : Ideal} {t p n m q : Nat} : (p, m) ∈ I.blocks → q ≠ 0 → (I.drop p m).Free q n →
      IdealStep I (.realloc t p n q) ((I.drop p m).put q n (I.contents p m))
  | write {I : Ideal} {p n i : Nat} {v : UInt8} : (p, n) ∈ I.blocks → i < n →
      IdealStep I (.write p i v) (I.store (p + i) v)
  | read {I : Ideal} {p n i : Nat} {v : UInt8} : (p, n) ∈ I.blocks → i < n →
      (∀ x, I.byte (p + i) = some x → v = x) → IdealStep I (.read p i v) I
  | mode {I : Ideal} : IdealStep I .mode I

/-- The blocks of the ideal memory are the blocks in the program's hands, and what it knows
of a byte is so. -/
structure Knows (w : World) (I : Ideal) : Prop where
  fits : ∀ e ∈ w.blocks, e.size ≤ e.len
  blocks : I.blocks.Perm (w.blocks.map fun e => (e.ptr, e.size))
  known : ∀ {a v}, I.byte a = some v →
    w.state.mem a = v ∧ ∃ e ∈ w.blocks, e.ptr ≤ a ∧ a < e.ptr + e.size

structure IdealOf (cfg : Cfg) (w : World) (I : Ideal) : Prop where
  inv : ∃ H, WorldInv cfg w H
  knows : Knows w I

/-! ## Blocks come and go -/

section Knows

variable {w : World} {s' : State} {I : Ideal} {e : Live}

theorem Knows.mem_blocks (h : Knows w I) (he : e ∈ w.blocks) : (e.ptr, e.size) ∈ I.blocks :=
  h.blocks.mem_iff.mpr (List.mem_map_of_mem he)

theorem Knows.state (h : Knows w I)
    (hsame : ∀ e ∈ w.blocks, ∀ a, e.ptr ≤ a → a < e.ptr + e.len → s'.mem a = w.state.mem a) :
    Knows ⟨s', w.live, w.boot⟩ I := by
  refine ⟨h.fits, h.blocks, fun {a v} hv => ?_⟩
  obtain ⟨hmem, e, he, hlo, hhi⟩ := h.known hv
  have hfit := h.fits e he
  exact ⟨(hsame e he a hlo (by omega)).trans hmem, e, he, hlo, hhi⟩

theorem World.add_blocks (w : World) (reserve : Bool) (s' : State) (b : Live) :
    (w.add reserve s' b).blocks.Perm (b :: w.blocks) := by
  cases reserve with
  | true => exact List.perm_middle
  | false => exact List.Perm.refl _

theorem World.add_state (w : World) (reserve : Bool) (s' : State) (b : Live) :
    (w.add reserve s' b).state = s' := by
  cases reserve <;> rfl

theorem Knows.add (h : Knows w I) {reserve : Bool} {p n room : Nat} {f : Nat → Option UInt8}
    (hfit : n ≤ room)
    (hsame : ∀ e ∈ w.blocks, ∀ a, e.ptr ≤ a → a < e.ptr + e.len → s'.mem a = w.state.mem a)
    (hf : ∀ i < n, ∀ v, f i = some v → s'.mem (p + i) = v) :
    Knows (w.add reserve s' ⟨p, n, room⟩) (I.put p n f) := by
  have hperm := w.add_blocks reserve s' ⟨p, n, room⟩
  refine ⟨fun e he => ?_, ?_, fun {a v} hv => ?_⟩
  · rcases List.mem_cons.mp (hperm.mem_iff.mp he) with rfl | he
    · exact hfit
    · exact h.fits e he
  · exact (h.blocks.cons (p, n)).trans (hperm.map fun e : Live => (e.ptr, e.size)).symm
  · rw [World.add_state]
    by_cases hin : p ≤ a ∧ a < p + n
    · refine ⟨?_, ⟨p, n, room⟩, hperm.mem_iff.mpr (List.mem_cons_self ..), hin.1, hin.2⟩
      rw [Ideal.put_in hin] at hv
      have hbyte := hf (a - p) (by omega) v hv
      rwa [Nat.add_sub_cancel' hin.1] at hbyte
    · rw [Ideal.put_out hin] at hv
      obtain ⟨hmem, e, he, hlo, hhi⟩ := h.known hv
      have hle := h.fits e he
      exact ⟨(hsame e he a hlo (by omega)).trans hmem, e,
        hperm.mem_iff.mpr (List.mem_cons_of_mem _ he), hlo, hhi⟩

theorem World.without_blocks (hboth : e ∈ w.live → e ∉ w.boot) :
    (w.without e).blocks = w.blocks.erase e := by
  change w.live.erase e ++ w.boot.erase e = (w.live ++ w.boot).erase e
  by_cases hl : e ∈ w.live
  · rw [List.erase_append_left _ hl, List.erase_of_not_mem (hboth hl)]
  · rw [List.erase_append_right _ hl, List.erase_of_not_mem hl]

theorem Knows.without (h : Knows w I) (hboth : e ∈ w.live → e ∉ w.boot) (he : e ∈ w.blocks) :
    Knows (w.without e) (I.drop e.ptr e.size) := by
  have hblocks := World.without_blocks hboth
  refine ⟨fun e' he' => ?_, ?_, fun {a v} hv => ?_⟩
  · rw [hblocks] at he'
    exact h.fits e' (List.mem_of_mem_erase he')
  · rw [hblocks]
    have hw := (List.perm_cons_erase he).map fun e : Live => (e.ptr, e.size)
    have hI := List.perm_cons_erase (h.mem_blocks he)
    exact ((hI.symm.trans h.blocks).trans hw).cons_inv
  · by_cases hin : e.ptr ≤ a ∧ a < e.ptr + e.size
    · rw [Ideal.drop_in hin] at hv
      cases hv
    · rw [Ideal.drop_out hin] at hv
      obtain ⟨hmem, e', he', hlo, hhi⟩ := h.known hv
      refine ⟨hmem, e', ?_, hlo, hhi⟩
      rw [hblocks]
      refine (List.mem_erase_of_ne fun heq => hin ?_).mpr he'
      rw [← heq]
      exact ⟨hlo, hhi⟩

/-- A block apart from all others is free in the ideal memory. -/
theorem Knows.free_of (h : Knows w I) {p n len : Nat} (hle : n ≤ len)
    (hap : ∀ b ∈ w.blocks, p + len ≤ b.ptr ∨ b.ptr + b.len ≤ p) : I.Free p n := by
  intro b hb
  obtain ⟨e, he, rfl⟩ := List.mem_map.mp (h.blocks.mem_iff.mp hb)
  have hfit := h.fits e he
  have hor := hap e he
  dsimp only
  omega

end Knows

/-! ## The calls keep the bytes -/

section Calls

variable {cfg : Cfg} {os : Os} {w : World} {s' : State} {H : Heap} {I : Ideal} {e : Live}
  {t p n : Nat}

/-- An allocation leaves the bytes of the program's blocks alone. -/
theorem WorldInv.bytes_kept (h : WorldInv cfg w H) (hm : SameMapped w.state s') :
    ∀ e ∈ w.blocks, ∀ a, e.ptr ≤ a → a < e.ptr + e.len → s'.mem a = w.state.mem a := by
  intro e he a hlo hhi
  rcases List.mem_append.mp he with he | he
  · obtain ⟨d, seg, ho, -, hptr, -, hend, -⟩ := h.heap.region.live_seg (h.heap.block.liveOk e he)
    have hlen := (regionLen_bounds seg.length).1
    exact hm seg (h.heap.region.mapped ho) a (by omega) (by omega)
  · obtain ⟨seg, hseg, hptr, hend⟩ := h.reserve.inside e he
    have hlen := (regionLen_bounds seg.length).1
    exact hm seg (h.reserve.mapped seg hseg).1 a (by omega) (by omega)

/-- A new block, whatever the allocation stored in it since. -/
theorem IdealOf.grants (h : IdealOf cfg w I) {reserve : Bool} {H' : Heap} {room : Nat} {m : Mem}
    {f : Nat → Option UInt8} (hg : Grants cfg w reserve s' H H' ⟨p, n, room⟩)
    (hH : WorldInv cfg w H)
    (hout : ∀ a, ¬(p ≤ a ∧ a < p + n) → m a = s'.mem a)
    (hf : ∀ i < n, ∀ v, f i = some v → m (p + i) = v) :
    IdealOf cfg ((w.add reserve s' ⟨p, n, room⟩).setMem m) (I.put p n f) ∧ I.Free p n := by
  have hown := (hg.inv.add_own).2
  have hfits := hg.fits
  refine ⟨⟨⟨H', hg.inv.write fun a hno => ?_⟩, ?_⟩, h.knows.free_of hg.fits hown⟩
  · rw [World.add_state]
    refine hout a fun hin => hno ⟨p, n, room⟩ ?_ ⟨hin.1, ?_⟩
    · exact (w.add_blocks reserve s' _).mem_iff.mpr (List.mem_cons_self ..)
    · have hlt := hin.2
      dsimp only at hfits ⊢
      omega
  · have hset : (w.add reserve s' ⟨p, n, room⟩).setMem m =
        w.add reserve { s' with mem := m } ⟨p, n, room⟩ := by
      cases reserve <;> rfl
    rw [hset]
    refine h.knows.add hg.fits (fun e he a hlo hhi => ?_) hf
    have hap := hown e he
    unfold Live.Apart at hap
    dsimp only at hap hfits
    exact (hout a (by omega)).trans (hH.bytes_kept hg.ext.mem e he a hlo hhi)

/-- The block given up is apart from those that stay. -/
theorem WorldInv.without_apart (h : WorldInv cfg w H) (he : e ∈ w.blocks) :
    ∀ b ∈ (w.without e).blocks, e.Apart b := by
  intro b hb
  rw [World.without_blocks fun hl => h.not_both hl] at hb
  have hperm := List.perm_cons_erase he
  have hpair := (hperm.pairwise_iff Live.Apart.symm).mp h.pairwise
  exact (List.pairwise_cons.mp hpair).1 b hb

theorem WorldInv.without_sub (h : WorldInv cfg w H) {b : Live} (hb : b ∈ (w.without e).blocks) :
    b ∈ w.blocks := by
  rw [World.without_blocks fun hl => h.not_both hl] at hb
  exact List.mem_of_mem_erase hb

/-- A realloc leaves the bytes of the other blocks alone. -/
theorem WorldInv.realloc_bytes (h : WorldInv cfg w H) (hapf : cfg.useApf = true)
    (hc : ReallocCond cfg w t e n)
    (hres : Apfmalloc.doRealloc cfg os none none t e.ptr n w.state = some (p, s')) :
    ∀ b ∈ (w.without e).blocks, ∀ a, b.ptr ≤ a → a < b.ptr + b.len →
      s'.mem a = w.state.mem a := by
  intro b hb a hlo hhi
  have hin := h.without_sub hb
  cases hc with
  | @stays old he hold hstays hn =>
    rw [Apfmalloc.doRealloc, if_neg (h.heap.live_ne_zero he), hold] at hres
    simp only [hstays, if_true, Option.some.injEq, Prod.mk.injEq] at hres
    rw [hres.2]
  | @moves old he hold hmoves hfit hroom =>
    obtain ⟨s₁, hmalloc, hfree⟩ := doRealloc_moves (h.heap.live_ne_zero he) hold hmoves hres
    obtain ⟨H₁, hg⟩ := h.malloc hfit hmalloc
    have hape := h.without_apart (List.mem_append_left _ he) b hb
    have hnew := hg.inv.add_own.2
    have hapb := hnew b hin
    have hap := hnew e (List.mem_append_left _ he)
    have hpos := h.heap.region.live_pos (h.heap.block.liveOk e he)
    obtain ⟨old', hold', hlen⟩ := h.heap.recorded he
    obtain rfl : old = old' := Option.some.inj (hold.symm.trans hold')
    unfold Live.Apart at hape hapb hap
    dsimp only at hapb hap
    have hne : (⟨p, n, mallocRoom cfg w.state t n⟩ : Live) ≠ e := by
      intro heq
      rw [← heq] at hap hpos
      dsimp only at hap hpos
      omega
    have hmove : p ≠ 0 ∧ p ≠ e.ptr := ⟨hg.ne_zero, by omega⟩
    rw [if_pos hmove] at hfree
    have h₂ := @hg.inv.add_write cfg w s₁ H₁ _ _ (copyBytes s₁.mem p e.ptr old) fun a ha =>
      copyBytes_out (by dsimp only at ha; omega)
    obtain ⟨-, hmem⟩ := h₂.add_free hapf he hne (h.not_both he) hfree
    calc s'.mem a
        = copyBytes s₁.mem p e.ptr old a := hmem a (by omega)
      _ = s₁.mem a := copyBytes_out (by omega)
      _ = w.state.mem a := h.bytes_kept hg.ext.mem b hin a hlo hhi
  | reserve he hnone hfit hmin =>
    obtain ⟨seg, hseg, hptr, -⟩ := h.reserve.inside e he
    have hpos := (h.reserve.mapped seg hseg).2.pos
    rw [Apfmalloc.doRealloc, if_neg (by omega), hnone] at hres
    obtain ⟨H₁, hg⟩ := h.malloc hfit hres
    exact h.bytes_kept hg.ext.mem b hin a hlo hhi

/-- **`do_aligned_alloc`** gives null or a block, wherever it comes from. -/
theorem WorldInv.alignedGrants {align : Nat} (h : WorldInv cfg w H) (hfit : AlignFits align n)
    (hres : doAlignedAlloc cfg os none t align n w.state = some (p, s')) :
    (p = 0 ∧ s' = w.state) ∨ ∃ H' room, Grants cfg w (alignedOnReserve w.state t align n) s' H H'
      ⟨p, n, room⟩ ∧ (alignedOnReserve w.state t align n = true → room = alignSize n align) := by
  cases hon : alignedOnReserve w.state t align n with
  | true =>
    obtain ⟨hsize, hmode⟩ := Bool.and_eq_true_iff.mp hon
    have hle := hfit.le_alignSize
    obtain ⟨k, hk, rfl⟩ := hfit.pow
    rw [doAlignedAlloc_small (isPowerOfTwo_pow hk) (Nat.not_lt.mpr (of_decide_eq_true hsize)),
      allocateToCache, if_pos (onReserve_iff.mp hmode)] at hres
    exact Or.inr ⟨H, _, @h.add_reserve cfg os w s' H n p _ hle hres, fun _ => rfl⟩
  | false =>
    have hoff : alignSize n align ≤ page →
        ¬(w.state.panicking t = true ∨ w.state.useBootstrap = true) := by
      intro hsize hmode
      rw [alignedOnReserve, decide_eq_true hsize, onReserve_iff.mpr hmode] at hon
      cases hon
    have hk := h.heap.doAlignedAlloc_kept h.partialList hoff hfit hres
    rcases h.heap.doAlignedAlloc h.partialList hoff hfit hres with hnull | ⟨H', len, h', hext⟩
    · exact Or.inl hnull
    · exact Or.inr ⟨H', len, h.add_heap h' hext hk, fun hf => by cases hf⟩

end Calls

/-! ## The refinement -/

section Refine

variable {cfg : Cfg} {os : Os} {w : World} {s' : State} {I : Ideal} {e : Live} {t p n : Nat}

/-- A new block of which nothing is known. -/
theorem IdealOf.fresh (h : IdealOf cfg w I) {H H' : Heap} {reserve : Bool} {room : Nat}
    (hinv : WorldInv cfg w H) (hg : Grants cfg w reserve s' H H' ⟨p, n, room⟩) :
    IdealOf cfg (w.add reserve s' ⟨p, n, room⟩) (I.put p n fun _ => none) ∧ I.Free p n := by
  have hself : (w.add reserve s' ⟨p, n, room⟩).setMem s'.mem = w.add reserve s' ⟨p, n, room⟩ := by
    cases reserve <;> rfl
  have hput := h.grants (f := fun _ => none) hg hinv (fun a _ => rfl) fun _ _ _ hv => by cases hv
  rwa [hself] at hput

theorem IdealOf.calloc (h : IdealOf cfg w I) {num size : Nat}
    (hfit : num * size < usizeSize → regionLen (num * size) < u32Size)
    (hres : Apfmalloc.calloc cfg os none t num size w.state = some (p, s')) :
    ∃ I', IdealStep I (.calloc t num size p) I' ∧ IdealOf cfg
      (w.grant (mallocOnReserve w.state t (num * size)) s' p (num * size) (num * size)) I' := by
  obtain ⟨H, hinv⟩ := h.inv
  by_cases hlt : num * size < usizeSize
  · rw [Apfmalloc.calloc, if_pos hlt] at hres
    simp only [Option.bind_eq_bind, Option.bind_eq_some_iff, Prod.exists, Option.some.injEq,
      Prod.mk.injEq] at hres
    obtain ⟨ret, s₁, hmalloc, rfl, rfl⟩ := hres
    obtain ⟨H', hg⟩ := hinv.malloc (hfit hlt) hmalloc
    -- the zeros go into the new block
    obtain ⟨hof, hfree⟩ := h.grants (f := fun _ => some 0) hg hinv
      (m := zeroFill s₁.mem ret (num * size)) (fun a ha => zeroFill_out (by omega))
      fun i hi v hv => (if_pos ⟨by omega, by omega⟩).trans (Option.some.inj hv)
    refine ⟨_, .calloc hlt hg.ne_zero hfree, ?_⟩
    have hset : w.grant (mallocOnReserve w.state t (num * size))
        { s₁ with mem := zeroFill s₁.mem ret (num * size) } ret (num * size) (num * size) =
        (w.grant (mallocOnReserve w.state t (num * size)) s₁ ret (num * size)
          (num * size)).setMem (zeroFill s₁.mem ret (num * size)) := by
      rw [World.grant, World.grant, if_neg hg.ne_zero, if_neg hg.ne_zero]
      cases mallocOnReserve w.state t (num * size) <;> rfl
    rw [hset, hg.inv.add_eq hg.ne_zero fun hr => if_pos hr]
    exact hof
  · rw [Apfmalloc.calloc, if_neg hlt] at hres
    cases hres
    exact ⟨I, .callocOverflow (Nat.not_lt.mp hlt), h⟩

theorem IdealOf.alignedAlloc (h : IdealOf cfg w I) {align : Nat} (hfit : AlignFits align n)
    (hres : Apfmalloc.alignedAlloc cfg os none t align n w.state = some (p, s')) :
    ∃ I', IdealStep I (.alignedAlloc t align n p) I' ∧ IdealOf cfg
      (w.grant (alignedOnReserve w.state t align n) s' p n (alignSize n align)) I' := by
  obtain ⟨H, hinv⟩ := h.inv
  have hnull : IdealOf cfg (w.grant (alignedOnReserve w.state t align n) w.state 0 n
      (alignSize n align)) I := h
  unfold Apfmalloc.alignedAlloc at hres
  split at hres
  next => cases hres
  next =>
    split at hres
    next =>
      cases hres
      exact ⟨I, .alignedNull, hnull⟩
    next =>
      rcases hinv.alignedGrants hfit hres with ⟨rfl, rfl⟩ | ⟨H', room, hg, hroom⟩
      · exact ⟨I, .alignedNull, hnull⟩
      · rw [hg.inv.add_eq hg.ne_zero hroom]
        obtain ⟨hof, hfree⟩ := h.fresh hinv hg
        exact ⟨_, .alignedAlloc hg.ne_zero hfree, hof⟩

theorem IdealOf.free (h : IdealOf cfg w I) (hapf : cfg.useApf = true) (he : e ∈ w.live)
    (hres : doFree cfg none t e.ptr w.state = some s') :
    IdealOf cfg ⟨s', w.live.erase e, w.boot⟩ (I.drop e.ptr e.size) := by
  obtain ⟨H, hinv⟩ := h.inv
  obtain ⟨hinv', hmem⟩ := hinv.free hapf he hres
  have hblock : e ∈ w.blocks := List.mem_append_left _ he
  have hk := h.knows.without (fun hl => hinv.not_both hl) hblock
  refine ⟨hinv', ?_⟩
  have hboot : w.boot.erase e = w.boot := List.erase_of_not_mem (hinv.not_both he)
  rw [← hboot]
  refine hk.state fun b hb a hlo hhi => hmem a fun hin => ?_
  have hap := hinv.without_apart hblock b hb
  unfold Live.Apart at hap
  omega

theorem IdealOf.freeReserve (h : IdealOf cfg w I) (he : e ∈ w.boot)
    (hnone : (getPageInfoForPtr w.state e.ptr).getDesc = none)
    (hres : doFree cfg none t e.ptr w.state = some s') :
    IdealOf cfg ⟨s', w.live, w.boot.erase e⟩ (I.drop e.ptr e.size) := by
  obtain ⟨H, hinv⟩ := h.inv
  -- the free finds no descriptor and does nothing
  have hsame : s' = w.state := by
    rw [doFree] at hres
    split at hres
    next => exact (Option.some.inj hres).symm
    next =>
      simp only [hnone] at hres
      exact (Option.some.inj hres).symm
  subst hsame
  have hk := h.knows.without (fun hl => hinv.not_both hl) (List.mem_append_right _ he)
  rw [World.without, List.erase_of_not_mem fun hl => hinv.not_both hl he] at hk
  exact ⟨⟨H, hinv.heap, hinv.partialList, hinv.reserve.erase e⟩, hk⟩

/-- Where a realloc put the block it is in the ideal memory, with the bytes it had. -/
theorem IdealOf.realloc (h : IdealOf cfg w I) (hapf : cfg.useApf = true)
    (hc : ReallocCond cfg w t e n)
    (hres : doRealloc cfg os none none t e.ptr n w.state = some (p, s')) :
    IdealStep I (.realloc t e.ptr n p)
        ((I.drop e.ptr e.size).put p n (I.contents e.ptr e.size)) ∧
      IdealOf cfg (w.realloc t e n s' p)
        ((I.drop e.ptr e.size).put p n (I.contents e.ptr e.size)) := by
  obtain ⟨H, hinv⟩ := h.inv
  obtain ⟨hinv', hsound⟩ := hinv.doRealloc hapf hc hres
  have hblock : e ∈ w.blocks := by
    cases hc with
    | stays he => exact List.mem_append_left _ he
    | moves he => exact List.mem_append_left _ he
    | reserve he => exact List.mem_append_right _ he
  have hk := h.knows.without (fun hl => hinv.not_both hl) hblock
  have hp : p ≠ 0 := by
    cases hsound.backed with
    | block hb hle => exact hb.pos
    | @segment seg hseg hv hlo hhi =>
      have hpos := hv.pos
      omega
  refine ⟨.realloc (h.knows.mem_blocks hblock) hp (hk.free_of hsound.fits hsound.own),
    hinv', ?_⟩
  have hgrant : w.realloc t e n s' p = (w.without e).add (reallocOnReserve w.state t e.ptr n) s'
      ⟨p, n, reallocRoom w.state t e.ptr n s' p⟩ := by
    rw [World.realloc, World.grant, if_neg hp, reallocRoom]
  rw [hgrant]
  refine hk.add hsound.fits (hinv.realloc_bytes hapf hc hres) fun i hi v hv => ?_
  unfold Ideal.contents at hv
  split at hv
  next hlt =>
    obtain ⟨hmem, -⟩ := h.knows.known hv
    have hfit := h.knows.fits e hblock
    exact (hsound.data i (by omega)).trans hmem
  next => cases hv

theorem IdealOf.write (h : IdealOf cfg w I) (he : e ∈ w.blocks) {i : Nat} (hi : i < e.size)
    (v : UInt8) : IdealOf cfg (w.setMem (writeByte w.state.mem (e.ptr + i) v))
      (I.store (e.ptr + i) v) := by
  obtain ⟨H, hinv⟩ := h.inv
  have hfit := h.knows.fits e he
  refine ⟨⟨H, hinv.write fun a hno => ?_⟩, h.knows.fits, h.knows.blocks, fun {a x} hx => ?_⟩
  · exact if_neg fun heq => hno e he (by omega)
  · by_cases ha : a = e.ptr + i
    · rw [Ideal.store] at hx
      simp only [ha, if_true, Option.some.injEq] at hx
      exact ⟨(if_pos ha).trans hx, e, he, by omega, by omega⟩
    · rw [Ideal.store] at hx
      simp only [ha, if_false] at hx
      obtain ⟨hmem, hin⟩ := h.knows.known hx
      exact ⟨(if_neg ha).trans hmem, hin⟩

/-- **Every call of the allocator is one of the ideal memory.** -/
theorem apiStep_refines (hapf : cfg.useApf = true) {w' : World} {op : ApiOp}
    (h : IdealOf cfg w I) (hs : ApiStep cfg w op w') :
    ∃ I', IdealStep I op I' ∧ IdealOf cfg w' I' := by
  cases hs with
  | malloc hfit hres =>
    obtain ⟨H, hinv⟩ := h.inv
    obtain ⟨H', hg⟩ := hinv.malloc hfit hres
    rw [hg.inv.add_eq hg.ne_zero fun hr => if_pos hr]
    obtain ⟨hof, hfree⟩ := h.fresh hinv hg
    exact ⟨_, .malloc hg.ne_zero hfree, hof⟩
  | calloc hfit hres => exact h.calloc hfit hres
  | alignedAlloc hfit hres => exact h.alignedAlloc hfit hres
  | free he hres =>
    exact ⟨_, .free (h.knows.mem_blocks (List.mem_append_left _ he)), h.free hapf he hres⟩
  | freeReserve he hnone hres =>
    exact ⟨_, .free (h.knows.mem_blocks (List.mem_append_right _ he)), h.freeReserve he hnone hres⟩
  | realloc hc hres =>
    obtain ⟨hstep, hof⟩ := h.realloc hapf hc hres
    exact ⟨_, hstep, hof⟩
  | write he hi => exact ⟨_, .write (h.knows.mem_blocks he) hi, h.write he hi _⟩
  | read he hi =>
    refine ⟨I, .read (h.knows.mem_blocks he) hi fun x hx => (h.knows.known hx).1, h⟩
  | mode b f =>
    obtain ⟨H, hinv⟩ := h.inv
    have hinv' := clientStep_inv hapf ⟨H, hinv⟩ (ClientStep.mode b f)
    exact ⟨I, .mode, hinv', h.knows.fits, h.knows.blocks, h.knows.known⟩

end Refine

theorem idealOf_init {cfg : Cfg} {os : Os} {s : State} (h : initMalloc os = some s) :
    IdealOf cfg ⟨s, [], []⟩ Ideal.start :=
  ⟨⟨Heap.start, worldInv_init h⟩, fun _ he => (List.not_mem_nil he).elim, List.Perm.refl _,
    fun hv => by cases hv⟩

end Apfmalloc
