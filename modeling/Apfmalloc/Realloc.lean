import Apfmalloc.AllocTotal

/-!
# realloc

`do_realloc` keeps the block when the old and the new size are of one class, or both
large and the new one is shorter. Otherwise it allocates, copies as many bytes as the
page map records for the old block, and frees. The three sizes need not agree:

- the copy is as long as the old block even when the new one is shorter, and then runs
  past the end of the new block;
- the record of an over-aligned large block counts from the start of its segment, so a
  request may be answered in place that does not fit from the pointer on;
- a block of the bootstrap reserve has no record, and nothing is copied.

A run here has every allocation path of the crate in it, the reserve included, so the
blocks in clients' hands are two lists: the live blocks of the heap and those cut from
the reserve. `realloc_sound` is about every run whose reallocs stay clear of the three
cases.
-/

namespace Apfmalloc

open Base

/-! ## The reserve beside the heap -/

/-- The segments of the reserve are mapped and no descriptor's, what is left of it is in
one of them, and the blocks `boot` were cut from it one after the other. -/
structure ReserveInv (s : State) (boot : List Live) : Prop where
  mapped : ∀ seg ∈ s.bootstrapReserve.mem, seg ∈ s.mapped ∧ seg.Valid
  apart : ∀ seg ∈ s.bootstrapReserve.mem, ∀ {d sg}, Owns s d sg → seg.Apart sg
  rest : ∃ seg ∈ s.bootstrapReserve.mem, seg.ptr ≤ s.bootstrapReserve.next ∧
    s.bootstrapReserve.next + s.bootstrapReserve.avail ≤ seg.ptr + seg.length
  inside : ∀ b ∈ boot, ∃ seg ∈ s.bootstrapReserve.mem, seg.ptr ≤ b.ptr ∧
    b.ptr + b.len ≤ seg.ptr + seg.length
  used : ∀ b ∈ boot, b.ptr + b.len ≤ s.bootstrapReserve.next ∨
    s.bootstrapReserve.next + s.bootstrapReserve.avail ≤ b.ptr
  bootApart : boot.Pairwise Live.Apart

/-- The reserve is as it was, and segments that came to be owned are new mappings. -/
structure ReserveKept (s s' : State) : Prop where
  reserve : s'.bootstrapReserve = s.bootstrapReserve
  mapped : ∀ seg ∈ s.bootstrapReserve.mem, seg ∈ s.mapped → seg ∈ s'.mapped
  owns : ∀ {d sg}, Owns s' d sg → Owns s d sg ∨ ∀ seg ∈ s.mapped, sg.Apart seg

theorem ReserveInv.kept {s s' : State} {boot : List Live} (h : ReserveInv s boot)
    (hk : ReserveKept s s') : ReserveInv s' boot := by
  refine ⟨?_, ?_, ?_, ?_, ?_, h.bootApart⟩
  · rw [hk.reserve]
    intro seg hseg
    obtain ⟨hm, hv⟩ := h.mapped seg hseg
    exact ⟨hk.mapped seg hseg hm, hv⟩
  · rw [hk.reserve]
    intro seg hseg d sg ho
    rcases hk.owns ho with ho | hnew
    · exact h.apart seg hseg ho
    · exact (hnew seg (h.mapped seg hseg).1).symm
  · rw [hk.reserve]
    exact h.rest
  · rw [hk.reserve]
    exact h.inside
  · rw [hk.reserve]
    exact h.used

theorem ReserveInv.erase {s : State} {boot : List Live} (h : ReserveInv s boot) (b : Live) :
    ReserveInv s (boot.erase b) :=
  ⟨h.mapped, h.apart, h.rest, fun b' hb => h.inside b' (List.mem_of_mem_erase hb),
    fun b' hb => h.used b' (List.mem_of_mem_erase hb), h.bootApart.erase b⟩

/-- The bytes of the reserve are in no segment of the heap. -/
theorem ReserveInv.not_owned {s : State} {boot : List Live} (h : ReserveInv s boot) {b : Live}
    (hb : b ∈ boot) {d a : Nat} {sg : Segment} (ho : Owns s d sg) (hlo : sg.ptr ≤ a)
    (hhi : a < sg.ptr + sg.length) : ¬(b.ptr ≤ a ∧ a < b.ptr + b.len) := by
  obtain ⟨seg, hseg, hblo, hbhi⟩ := h.inside b hb
  have hap := h.apart seg hseg ho
  have h1 := (regionLen_bounds seg.length).1
  have h2 := (regionLen_bounds sg.length).1
  unfold Segment.Apart at hap
  omega

section
variable {cfg : Cfg} {os : Os} {s s' : State} {H : Heap} {live boot : List Live}

/-- Only the modes and the reserve differ. -/
theorem HeapInv.modes (h : HeapInv cfg s H live) (r : BootstrapReserve) (b : Bool)
    (f : Nat → Bool) :
    HeapInv cfg { s with bootstrapReserve := r, useBootstrap := b, panicking := f } H live :=
  h.of_same ⟨rfl, rfl, rfl, rfl, rfl⟩ rfl rfl

/-- A block from the reserve leaves the heap alone. -/
theorem HeapInv.bootstrapAllocate {size p : Nat} (h : HeapInv cfg s H live)
    (hres : bootstrapAllocate os size s = some (p, s')) :
    HeapInv cfg s' H live ∧ Extends cfg s s' H H := by
  rcases bootstrapAllocate_cases hres with ⟨-, -, rfl⟩ | ⟨seg, -, -, -, hap, -, rfl⟩
  · exact ⟨h.modes _ _ _, ⟨rfl, rfl, rfl⟩, fun _ _ _ _ _ => rfl, fun _ hseg => hseg,
      fun _ _ hb hx => ⟨hb, hx⟩⟩
  · refine ⟨(h.map hap).modes _ _ _, ⟨rfl, rfl, rfl⟩, fun sg hsg a hlo hhi => ?_,
      fun _ hseg => List.mem_cons_of_mem _ hseg, fun _ _ hb hx => ⟨hb, hx⟩⟩
    have hapart := hap sg hsg
    unfold Segment.Apart at hapart
    exact zeroFill_out (by omega)

/-- **The new block of the reserve** is apart from those before it. -/
theorem ReserveInv.allocate {size p : Nat} (h : ReserveInv s boot)
    (hr : HeapInv cfg s H live) (hres : Apfmalloc.bootstrapAllocate os size s = some (p, s'))
    (req : Nat) : ReserveInv s' (⟨p, req, size⟩ :: boot) ∧ p ≠ 0 := by
  rcases bootstrapAllocate_cases hres with ⟨hroom, rfl, rfl⟩ | ⟨seg, -, hmax, hv, hap, rfl, rfl⟩
  · obtain ⟨seg, hseg, hlo, hhi⟩ := h.rest
    have hpos := (h.mapped seg hseg).2.pos
    refine ⟨⟨h.mapped, h.apart, ⟨seg, hseg, ?_, ?_⟩, fun b hb => ?_, fun b hb => ?_,
      List.pairwise_cons.mpr ⟨fun b hb => ?_, h.bootApart⟩⟩, by omega⟩
    · show seg.ptr ≤ s.bootstrapReserve.next + size
      omega
    · show s.bootstrapReserve.next + size + (s.bootstrapReserve.avail - size) ≤ _
      omega
    · rcases List.mem_cons.mp hb with rfl | hb
      · exact ⟨seg, hseg, hlo, by simp only; omega⟩
      · exact h.inside b hb
    · show _ ≤ s.bootstrapReserve.next + size ∨
        s.bootstrapReserve.next + size + (s.bootstrapReserve.avail - size) ≤ _
      rcases List.mem_cons.mp hb with rfl | hb
      · exact Or.inl (Nat.le_refl _)
      · have := h.used b hb
        omega
    · have hused := h.used b hb
      show s.bootstrapReserve.next + size ≤ _ ∨ _ ≤ s.bootstrapReserve.next
      omega
  · have hreg := (regionLen_bounds seg.length).1
    have hlen : size ≤ seg.length := hmax ▸ Nat.le_max_right _ _
    -- the blocks cut so far lie in mappings, which the new one is apart from
    have hold : ∀ b ∈ boot, b.ptr + b.len ≤ seg.ptr ∨ seg.ptr + seg.length ≤ b.ptr := by
      intro b hb
      obtain ⟨sg, hsg, hlo, hhi⟩ := h.inside b hb
      have hapart := hap sg (h.mapped sg hsg).1
      have := (regionLen_bounds sg.length).1
      unfold Segment.Apart at hapart
      omega
    have hpos := hv.pos
    refine ⟨⟨fun sg hsg => ?_, fun sg hsg d sg' ho => ?_,
      ⟨seg, List.mem_append_right _ (List.mem_singleton_self seg), ?_, ?_⟩, fun b hb => ?_,
      fun b hb => ?_, List.pairwise_cons.mpr ⟨fun b hb => ?_, h.bootApart⟩⟩, by omega⟩
    · rcases List.mem_append.mp hsg with hsg | hsg
      · exact ⟨List.mem_cons_of_mem _ (h.mapped sg hsg).1, (h.mapped sg hsg).2⟩
      · rw [List.mem_singleton.mp hsg]
        exact ⟨List.mem_cons_self .., hv⟩
    · rcases List.mem_append.mp hsg with hsg | hsg
      · exact h.apart sg hsg ho
      · rw [List.mem_singleton.mp hsg]
        exact hap sg' (hr.region.mapped ho)
    · exact Nat.le_add_right _ _
    · show seg.ptr + size + (seg.length - size) ≤ _
      omega
    · rcases List.mem_cons.mp hb with rfl | hb
      · exact ⟨seg, List.mem_append_right _ (List.mem_singleton_self seg), Nat.le_refl _,
          by simp only; omega⟩
      · obtain ⟨sg, hsg, hin⟩ := h.inside b hb
        exact ⟨sg, List.mem_append_left _ hsg, hin⟩
    · show _ ≤ seg.ptr + size ∨ seg.ptr + size + (seg.length - size) ≤ _
      rcases List.mem_cons.mp hb with rfl | hb
      · exact Or.inl (Nat.le_refl _)
      · have := hold b hb
        omega
    · have := hold b hb
      show seg.ptr + size ≤ _ ∨ _ ≤ seg.ptr
      omega

/-! ## The heap beside the reserve -/

/-- Nothing of the reserve is touched, and the new segment `seg` of `d` is apart from all
that was mapped. -/
theorem ReserveKept.of_owner {d : Nat} {seg : Segment}
    (hreserve : s'.bootstrapReserve = s.bootstrapReserve)
    (hmapped : ∀ sg ∈ s.mapped, sg ∈ s'.mapped) (hd : Owns s' d seg)
    (hother : ∀ {d' sg}, d' ≠ d → Owns s' d' sg → Owns s d' sg)
    (hap : ∀ sg ∈ s.mapped, seg.Apart sg) : ReserveKept s s' := by
  refine ⟨hreserve, fun sg _ hsg => hmapped sg hsg, fun {d' sg} ho => ?_⟩
  by_cases hne : d' = d
  · subst hne
    rw [ho.unique hd]
    exact Or.inr hap
  · exact Or.inl (hother hne ho)

theorem HeapInv.fill_kept {t c : Nat} (h : HeapInv cfg s H live)
    (hpart : s.partialList c = none) (hfill : fillCache cfg os t c s = some s') :
    ReserveKept s s' := by
  obtain ⟨n, s₂, hnew, rfl⟩ := fillCache_cases hpart hfill
  obtain ⟨d, s₁, seg, halloc, -, -, -, hap, -, -, rfl⟩ := newSuperBlock_cases hnew
  obtain ⟨-, -, -, hf, ho⟩ := h.allocDesc halloc
  apply ReserveKept.of_owner (d := d)
  · exact hf.bootstrapReserve
  · exact fun sg hsg => List.mem_cons_of_mem _ (hf.mapped sg hsg)
  · show (ite (d = d) _ _ : Descriptor).superBlock = some seg
    rw [if_pos rfl]
    rfl
  · intro d' sg hne hown
    change (ite (d' = d) _ _ : Descriptor).superBlock = some sg at hown
    rw [if_neg hne] at hown
    exact (ho.owns d' sg).mp hown
  · exact fun sg hsg => hap sg (hf.mapped sg hsg)

theorem HeapInv.allocateToCache_kept {t size c p : Nat} (h : HeapInv cfg s H live)
    (hoff : ¬(s.panicking t = true ∨ s.useBootstrap = true)) (hpart : s.partialList c = none)
    (hres : Apfmalloc.allocateToCache cfg os none t size c s = some (p, s')) :
    ReserveKept s s' := by
  obtain ⟨s₁, bin, hs₁, -, -, rfl⟩ := allocateToCache_cases hoff hres
  rcases hs₁ with rfl | ⟨-, hfill⟩
  · exact ⟨rfl, fun _ _ hsg => hsg, fun ho => Or.inl ho⟩
  · obtain ⟨hr, hm, ho⟩ := h.fill_kept hpart hfill
    exact ⟨hr, hm, ho⟩

/-- A large block of `d` is the only new owner. -/
theorem addLarge_owns {d pages ptr : Nat} {seg : Segment} :
    Owns (s.addLarge d pages seg ptr) d seg ∧
      ∀ {d' sg}, d' ≠ d → Owns (s.addLarge d pages seg ptr) d' sg → Owns s d' sg := by
  constructor
  · show (((s.setLarge d pages seg).descs d).superBlock) = some seg
    rw [State.setLarge, setDesc_same]
  · intro d' sg hne ho
    change (((s.setLarge d pages seg).descs d').superBlock) = some sg at ho
    rw [State.setLarge, setDesc_other _ _ _ hne] at ho
    exact ho

theorem HeapInv.doMalloc_kept {t size p : Nat} (h : HeapInv cfg s H live)
    (hpart : ∀ c, s.partialList c = none)
    (hoff : size ≤ maxSz → ¬(s.panicking t = true ∨ s.useBootstrap = true))
    (hres : Apfmalloc.doMalloc cfg os none t size s = some (p, s')) : ReserveKept s s' := by
  by_cases hsize : maxSz < size
  · obtain ⟨d, s₁, -, seg, -, hf, -, ho, -, -, -, hap, -, rfl⟩ := doMalloc_large h hsize hres
    obtain ⟨hd, hother⟩ := @addLarge_owns { s₁ with
      mapped := seg :: s₁.mapped, mem := zeroFill s₁.mem seg.ptr (regionLen seg.length) } d
      (pageCeiling size) seg.ptr seg
    apply ReserveKept.of_owner _ _ hd
    · exact fun hne hown => (ho.owns _ _).mp (hother hne hown)
    · exact fun sg hsg => hap sg (hf.mapped sg hsg)
    · exact hf.bootstrapReserve
    · exact fun sg hsg => List.mem_cons_of_mem _ (hf.mapped sg hsg)
  · rw [Apfmalloc.doMalloc, if_neg hsize] at hres
    exact h.allocateToCache_kept (hoff (Nat.not_lt.mp hsize)) (hpart _) hres

theorem HeapInv.doAlignedAlloc_kept {t align size p : Nat} (h : HeapInv cfg s H live)
    (hpart : ∀ c, s.partialList c = none)
    (hoff : alignSize size align ≤ page → ¬(s.panicking t = true ∨ s.useBootstrap = true))
    (hfit : AlignFits align size)
    (hres : Apfmalloc.doAlignedAlloc cfg os none t align size s = some (p, s')) :
    ReserveKept s s' := by
  obtain ⟨k, hk, rfl⟩ := hfit.pow
  by_cases hbig : page < alignSize size (2 ^ k)
  · rcases doAlignedAlloc_large h (isPowerOfTwo_pow hk) hbig
      (fun ptr _ hend => (hfit.large hbig hend).2.2.1) hres with
      ⟨-, rfl⟩ | ⟨d, s₂, -, seg, -, hf, ho, -, -, -, hap, -, rfl⟩
    · exact ⟨rfl, fun _ _ hsg => hsg, fun ho => Or.inl ho⟩
    · obtain ⟨hd, hother⟩ := @addLarge_owns s₂ d seg.length p seg
      apply ReserveKept.of_owner _ _ hd
      · exact fun hne hown => (ho.owns _ _).mp (hother hne hown)
      · exact hap
      · exact hf.bootstrapReserve
      · exact fun sg hsg => hf.mapped sg (List.mem_cons_of_mem _ hsg)
  · rw [doAlignedAlloc_small (isPowerOfTwo_pow hk) hbig] at hres
    exact h.allocateToCache_kept (hoff (Nat.not_lt.mp hbig)) (hpart _) hres

/-- **A free** leaves the reserve alone and writes one word at most, into the block it
takes back. -/
theorem HeapInv.doFree_kept {t : Nat} {e : Live} (h : HeapInv cfg s H live)
    (hapf : cfg.useApf = true) (hr : ReserveInv s boot) (he : e ∈ live)
    (hres : Apfmalloc.doFree cfg none t e.ptr s = some s') :
    ReserveKept s s' ∧
      ∀ a, ¬(e.ptr ≤ a ∧ a < e.ptr + 8 ∧ a < e.ptr + e.len) → s'.mem a = s.mem a := by
  cases h.block.liveOk e he with
  | @small d c hb hplace hlen hsize =>
    obtain ⟨seg, f⟩ := h.region.blockFacts hb
    have hbs := f.spec.blockSize_ge
    rw [h.doFree_small hapf hb, Option.map_eq_some_iff] at hres
    obtain ⟨⟨bin, m⟩, hpush, rfl⟩ := hres
    refine ⟨⟨rfl, fun _ _ hsg => hsg, fun ho => Or.inl ho⟩, fun a ha => ?_⟩
    unfold ThreadCacheBin.pushBlock at hpush
    split at hpush
    next =>
      cases hpush
      exact writeWord_out (by omega)
    next => cases hpush
  | @large d seg ho hheap hlo hpos hend hsize hpage =>
    have hv := h.region.valid ho
    have hp := hv.pos
    rw [h.doFree_large ho hheap (by omega) hpage, Option.some.injEq] at hres
    subst hres
    have hrem := removes_dropLarge ho hv
    refine ⟨⟨rfl, fun sg hsg hm => ?_, fun ho' => Or.inl (hrem.owns_iff.mp ho').2⟩,
      fun a _ => by rw [hrem.mem]⟩
    rw [hrem.mapped]
    refine (List.mem_erase_of_ne fun heq => ?_).mpr hm
    subst heq
    exact hv.not_apart_self (hr.apart sg hsg ho)

end

/-! ## The blocks in clients' hands -/

/-- The allocator with the live blocks of the heap and those of the reserve. -/
structure World where
  state : State
  live : List Live
  boot : List Live

/-- `allocate_to_cache` turns to the reserve. -/
def onReserve (s : State) (t : Nat) : Bool := s.panicking t || s.useBootstrap

def World.add (w : World) (reserve : Bool) (s' : State) (b : Live) : World :=
  if reserve then ⟨s', w.live, b :: w.boot⟩ else ⟨s', b :: w.live, w.boot⟩

/-- An allocation answered `p`; the reserve gives just the `len` bytes asked of it. -/
def World.grant (w : World) (reserve : Bool) (s' : State) (p size len : Nat) : World :=
  if p = 0 then { w with state := s' }
  else w.add reserve s' ⟨p, size, if reserve then len else usableSize s' p⟩

/-- A request that `do_malloc` serves from the reserve. -/
def mallocOnReserve (s : State) (t size : Nat) : Bool := decide (size ≤ maxSz) && onReserve s t

/-- A request that `do_aligned_alloc` serves from the reserve. -/
def alignedOnReserve (s : State) (t align size : Nat) : Bool :=
  decide (alignSize size align ≤ page) && onReserve s t

structure WorldInv (cfg : Cfg) (w : World) (H : Heap) : Prop where
  heap : HeapInv cfg w.state H w.live
  partialList : ∀ c, w.state.partialList c = none
  reserve : ReserveInv w.state w.boot

/-- An allocation added the block `b` to the world. -/
structure Grants (cfg : Cfg) (w : World) (reserve : Bool) (s' : State) (H H' : Heap) (b : Live) :
    Prop where
  inv : WorldInv cfg (w.add reserve s' b) H'
  ext : Extends cfg w.state s' H H'
  ne_zero : b.ptr ≠ 0
  fits : b.size ≤ b.len

theorem onReserve_iff {s : State} {t : Nat} :
    onReserve s t = true ↔ s.panicking t = true ∨ s.useBootstrap = true := by
  unfold onReserve
  exact Bool.or_eq_true_iff

section
variable {cfg : Cfg} {os : Os} {w : World} {s' : State} {H : Heap} {t size p : Nat}

/-- The length the page map gives for a block of the heap is its length. -/
theorem WorldInv.add_len {H' : Heap} {reserve : Bool} {len room : Nat}
    (h : WorldInv cfg (w.add reserve s' ⟨p, size, room⟩) H')
    (hroom : reserve = true → room = len) :
    (if reserve then len else usableSize s' p) = room := by
  cases reserve with
  | true => exact (hroom rfl).symm
  | false => exact h.heap.usableSize (e := ⟨p, size, room⟩) (List.mem_cons_self ..)

theorem WorldInv.add_eq {H' : Heap} {reserve : Bool} {len room : Nat}
    (h : WorldInv cfg (w.add reserve s' ⟨p, size, room⟩) H') (hp : p ≠ 0)
    (hroom : reserve = true → room = len) :
    w.grant reserve s' p size len = w.add reserve s' ⟨p, size, room⟩ := by
  rw [World.grant, if_neg hp, h.add_len hroom]

theorem WorldInv.add_reserve (h : WorldInv cfg w H) {len : Nat} (hle : size ≤ len)
    (hres : bootstrapAllocate os len w.state = some (p, s')) :
    Grants cfg w true s' H H ⟨p, size, len⟩ := by
  obtain ⟨h', hext⟩ := h.heap.bootstrapAllocate hres
  obtain ⟨hr, hp⟩ := h.reserve.allocate h.heap hres size
  refine ⟨⟨h', ?_, hr⟩, hext, hp, hle⟩
  show ∀ c, s'.partialList c = none
  rw [hext.mode.partialList]
  exact h.partialList

theorem WorldInv.add_heap {H' : Heap} {len : Nat} (h : WorldInv cfg w H)
    (h' : HeapInv cfg s' H' (⟨p, size, len⟩ :: w.live)) (hext : Extends cfg w.state s' H H')
    (hk : ReserveKept w.state s') : Grants cfg w false s' H H' ⟨p, size, len⟩ := by
  have hmem : (⟨p, size, len⟩ : Live) ∈ (⟨p, size, len⟩ :: w.live : List Live) :=
    List.mem_cons_self ..
  obtain ⟨-, -, -, -, -, -, -, hfits⟩ := h'.region.live_seg (h'.block.liveOk _ hmem)
  refine ⟨⟨h', ?_, h.reserve.kept hk⟩, hext, h'.live_ne_zero hmem, hfits⟩
  show ∀ c, s'.partialList c = none
  rw [hext.mode.partialList]
  exact h.partialList

/-- How many bytes `do_malloc` gives. -/
def mallocRoom (cfg : Cfg) (s : State) (t size : Nat) : Nat :=
  if mallocOnReserve s t size then size else mallocLen cfg size

/-- **`do_malloc`** wherever the block comes from. -/
theorem WorldInv.malloc (h : WorldInv cfg w H) (hfit : regionLen size < u32Size)
    (hres : doMalloc cfg os none t size w.state = some (p, s')) :
    ∃ H', Grants cfg w (mallocOnReserve w.state t size) s' H H'
      ⟨p, size, mallocRoom cfg w.state t size⟩ := by
  unfold mallocRoom
  cases hon : mallocOnReserve w.state t size with
  | true =>
    obtain ⟨hsize, hmode⟩ := Bool.and_eq_true_iff.mp hon
    rw [doMalloc, if_neg (Nat.not_lt.mpr (of_decide_eq_true hsize)), allocateToCache,
      if_pos (onReserve_iff.mp hmode)] at hres
    exact ⟨H, h.add_reserve (Nat.le_refl _) hres⟩
  | false =>
    have hoff : size ≤ maxSz → ¬(w.state.panicking t = true ∨ w.state.useBootstrap = true) := by
      intro hsize hmode
      rw [mallocOnReserve, decide_eq_true hsize, onReserve_iff.mpr hmode] at hon
      cases hon
    obtain ⟨H', h', hext⟩ := h.heap.doMalloc h.partialList hoff hfit hres
    exact ⟨H', h.add_heap h' hext (h.heap.doMalloc_kept h.partialList hoff hres)⟩

/-- **`do_aligned_alloc`** wherever the block comes from. -/
theorem WorldInv.alignedAlloc {align : Nat} (h : WorldInv cfg w H) (hfit : AlignFits align size)
    (hres : doAlignedAlloc cfg os none t align size w.state = some (p, s')) :
    ∃ H', WorldInv cfg (w.grant (alignedOnReserve w.state t align size) s' p size
      (alignSize size align)) H' := by
  cases hon : alignedOnReserve w.state t align size with
  | true =>
    obtain ⟨hsize, hmode⟩ := Bool.and_eq_true_iff.mp hon
    have hle := hfit.le_alignSize
    obtain ⟨k, hk, rfl⟩ := hfit.pow
    rw [doAlignedAlloc_small (isPowerOfTwo_pow hk) (Nat.not_lt.mpr (of_decide_eq_true hsize)), allocateToCache,
      if_pos (onReserve_iff.mp hmode)] at hres
    have hg := @h.add_reserve cfg os w s' H size p _ hle hres
    rw [hg.inv.add_eq hg.ne_zero fun _ => rfl]
    exact ⟨H, hg.inv⟩
  | false =>
    have hoff : alignSize size align ≤ page →
        ¬(w.state.panicking t = true ∨ w.state.useBootstrap = true) := by
      intro hsize hmode
      rw [alignedOnReserve, decide_eq_true hsize, onReserve_iff.mpr hmode] at hon
      cases hon
    have hk := h.heap.doAlignedAlloc_kept h.partialList hoff hfit hres
    rcases h.heap.doAlignedAlloc h.partialList hoff hfit hres with ⟨rfl, rfl⟩ | ⟨H', len, h', hext⟩
    · exact ⟨H, h⟩
    · have hg := h.add_heap h' hext hk
      rw [hg.inv.add_eq hg.ne_zero fun hf => by cases hf]
      exact ⟨H', hg.inv⟩

/-- **Clients write into their own blocks**, of the heap or of the reserve. -/
theorem WorldInv.write (h : WorldInv cfg w H) {m : Mem}
    (hm : ∀ a, (∀ e ∈ w.live ++ w.boot, ¬(e.ptr ≤ a ∧ a < e.ptr + e.len)) → m a = w.state.mem a) :
    WorldInv cfg { w with state := { w.state with mem := m } } H := by
  refine ⟨h.heap.writeOut fun a hout hin => hm a fun e he => ?_, h.partialList,
    h.reserve.kept ⟨rfl, fun _ _ hsg => hsg, fun ho => Or.inl ho⟩⟩
  rcases List.mem_append.mp he with he | he
  · exact hout e he
  · obtain ⟨d, sg, ho, hlo, hhi⟩ := hin
    exact h.reserve.not_owned he ho hlo hhi

/-- **`do_free`** of a live block of the heap. -/
theorem WorldInv.free {e : Live} (h : WorldInv cfg w H) (hapf : cfg.useApf = true)
    (he : e ∈ w.live) (hres : doFree cfg none t e.ptr w.state = some s') :
    (∃ H', WorldInv cfg ⟨s', w.live.erase e, w.boot⟩ H') ∧
      ∀ a, ¬(e.ptr ≤ a ∧ a < e.ptr + 8 ∧ a < e.ptr + e.len) → s'.mem a = w.state.mem a := by
  obtain ⟨H', h', hmode, -⟩ := h.heap.doFree hapf he hres
  obtain ⟨hk, hmem⟩ := h.heap.doFree_kept hapf h.reserve he hres
  refine ⟨⟨H', h', ?_, h.reserve.kept hk⟩, hmem⟩
  show ∀ c, s'.partialList c = none
  rw [hmode.partialList]
  exact h.partialList

/-- Two blocks in clients' hands do not overlap. -/
theorem WorldInv.heap_boot (h : WorldInv cfg w H) {e b : Live} (he : e ∈ w.live)
    (hb : b ∈ w.boot) : e.Apart b := by
  obtain ⟨d, sg, ho, -, hlo, -, hhi, -⟩ := h.heap.region.live_seg (h.heap.block.liveOk e he)
  obtain ⟨seg, hseg, hblo, hbhi⟩ := h.reserve.inside b hb
  have hap := h.reserve.apart seg hseg ho
  have h1 := (regionLen_bounds seg.length).1
  have h2 := (regionLen_bounds sg.length).1
  unfold Segment.Apart at hap
  unfold Live.Apart
  omega

theorem WorldInv.pairwise (h : WorldInv cfg w H) : (w.live ++ w.boot).Pairwise Live.Apart :=
  List.pairwise_append.mpr ⟨h.heap.block.liveApart, h.reserve.bootApart, fun _ he _ hb =>
    h.heap_boot he hb⟩

/-- A live block is not empty, a block of the reserve may be; none is on both lists. -/
theorem WorldInv.not_both (h : WorldInv cfg w H) {e : Live} (he : e ∈ w.live) : e ∉ w.boot := by
  intro hb
  have hap := h.heap_boot he hb
  have hpos := h.heap.region.live_pos (h.heap.block.liveOk e he)
  unfold Live.Apart at hap
  omega

/-- **What backs a block** in a client's hands. -/
theorem WorldInv.backed (h : WorldInv cfg w H) {b : Live} (hb : b ∈ w.live ++ w.boot) :
    Backed cfg w.state.mapped b.ptr b.len := by
  rcases List.mem_append.mp hb with hb | hb
  · cases h.heap.block.liveOk b hb with
    | @small d c hblock hplace hlen hsize =>
      exact .block (hblock.blockIn h.heap) (Nat.le_of_eq hlen)
    | @large d seg ho hheap hlo hpos hend hsize hpage =>
      exact .segment (h.heap.region.mapped ho) (h.heap.region.valid ho) hlo (Nat.le_of_eq hend)
  · obtain ⟨seg, hseg, hlo, hhi⟩ := h.reserve.inside b hb
    exact .segment (h.reserve.mapped seg hseg).1 (h.reserve.mapped seg hseg).2 hlo hhi

/-- The page map records at least the length of a live block. -/
theorem HeapInv.recorded {s : State} {live : List Live} {e : Live} (h : HeapInv cfg s H live)
    (he : e ∈ live) : ∃ old, getAllocationSize s e.ptr = some old ∧ e.len ≤ old := by
  have hsize : ∀ {d seg}, Owns s d seg → getPageInfoForPtr s e.ptr = ⟨d⟩ →
      getAllocationSize s e.ptr = some (s.descs d).blockSize := by
    intro d seg ho hp
    have hd := (h.desc.addr _ (h.desc.alloced_carved (h.region.alloced ho))).pos
    rw [getAllocationSize, hp, PageInfo.getDesc, if_neg (Nat.ne_of_gt hd)]
    rfl
  cases h.block.liveOk e he with
  | @small d c hb hplace hlen _ =>
    obtain ⟨seg, f⟩ := h.region.blockFacts hb
    exact ⟨_, hsize f.owns f.page, Nat.le_of_eq (by rw [f.super.blockSize, hlen])⟩
  | @large d seg ho hheap hlo hpos hend _ hpage =>
    refine ⟨_, hsize ho hpage, ?_⟩
    rw [(h.region.large ho hheap).2]
    omega

/-- Asking for another size in place. -/
theorem HeapInv.relabel {s : State} {live : List Live} {e : Live} {n : Nat}
    (h : HeapInv cfg s H live) (he : e ∈ live) (hn : n ≤ e.len) :
    HeapInv cfg s H (⟨e.ptr, n, e.len⟩ :: live.erase e) := by
  have hperm := List.perm_cons_erase he
  have hb := h.block
  refine ⟨h.desc, h.region, ⟨hb.holds, hb.binNodup, hb.binMem, hb.freeChain, hb.freeNodup,
    hb.freeMem, fun e' he' => ?_, fun c x hbx hx => ?_, ?_⟩⟩
  · rcases List.mem_cons.mp he' with rfl | he'
    · cases hb.liveOk e he with
      | small hblock hplace hlen _ => exact .small hblock hplace hlen hn
      | large ho hheap hlo hpos hend _ hpage => exact .large ho hheap hlo hpos hend hn hpage
    · exact hb.liveOk e' (List.mem_of_mem_erase he')
  · obtain ⟨e', he', hptr⟩ := hb.liveAll c x hbx hx
    rcases List.mem_cons.mp (hperm.mem_iff.mp he') with rfl | he'
    · exact ⟨_, List.mem_cons_self .., hptr⟩
    · exact ⟨e', List.mem_cons_of_mem _ he', hptr⟩
  · have hpair := (hperm.pairwise_iff Live.Apart.symm).mp hb.liveApart
    obtain ⟨hhead, htail⟩ := List.pairwise_cons.mp hpair
    exact List.pairwise_cons.mpr ⟨hhead, htail⟩

end

/-! ## `do_realloc` -/

/-- `do_realloc` gives back the pointer it was given. -/
def reallocStays (s : State) (ptr n : Nat) : Bool :=
  match getAllocationSize s ptr with
  | none => false
  | some oldSize => reallocInPlace oldSize n

/-- The new block is cut from the reserve. -/
def reallocOnReserve (s : State) (t ptr n : Nat) : Bool :=
  !reallocStays s ptr n && mallocOnReserve s t n

/-- The block `e` is given up. -/
def World.without (w : World) (e : Live) : World := ⟨w.state, w.live.erase e, w.boot.erase e⟩

/-- The world after a realloc of `e` to `n` bytes answered `q`. -/
def World.realloc (w : World) (t : Nat) (e : Live) (n : Nat) (s' : State) (q : Nat) : World :=
  (w.without e).grant (reallocOnReserve w.state t e.ptr n) s' q n n

/-- The length of the block at `q`. -/
def reallocRoom (s : State) (t ptr n : Nat) (s' : State) (q : Nat) : Nat :=
  if reallocOnReserve s t ptr n then n else usableSize s' q

/-- **What realloc promises.** The block at `q` is as long as asked for and overlaps no
other block of a client, starts with the bytes of the old block, and nothing else that was
mapped has changed but the first word of the old block, once that is released. -/
structure ReallocSound (cfg : Cfg) (w : World) (t : Nat) (e : Live) (n : Nat) (s' : State)
    (q : Nat) : Prop where
  backed : Backed cfg s'.mapped q (reallocRoom w.state t e.ptr n s' q)
  fits : n ≤ reallocRoom w.state t e.ptr n s' q
  own : ∀ b ∈ (w.without e).live ++ (w.without e).boot,
    q + reallocRoom w.state t e.ptr n s' q ≤ b.ptr ∨ b.ptr + b.len ≤ q
  data : ∀ i < min e.len n, s'.mem (q + i) = w.state.mem (e.ptr + i)
  frame : ∀ seg ∈ w.state.mapped, ∀ a, seg.ptr ≤ a → a < seg.ptr + regionLen seg.length →
    ¬(q ≤ a ∧ a < q + reallocRoom w.state t e.ptr n s' q) →
    ¬(q ≠ e.ptr ∧ e.ptr ≤ a ∧ a < e.ptr + 8) → s'.mem a = w.state.mem a

/-- **When it keeps its promise.** In place, the request has to fit from the pointer on; a
new block has to take the recorded size of the old one, and its own size has to fit the
record; of a block of the reserve there must be nothing to copy. -/
inductive ReallocCond (cfg : Cfg) (w : World) (t : Nat) (e : Live) (n : Nat) : Prop
  | stays {oldSize : Nat} : e ∈ w.live → getAllocationSize w.state e.ptr = some oldSize →
      reallocInPlace oldSize n = true → n ≤ e.len → ReallocCond cfg w t e n
  | moves {oldSize : Nat} : e ∈ w.live → getAllocationSize w.state e.ptr = some oldSize →
      reallocInPlace oldSize n = false → regionLen n < u32Size →
      oldSize ≤ mallocRoom cfg w.state t n → ReallocCond cfg w t e n
  | reserve : e ∈ w.boot → getAllocationSize w.state e.ptr = none → regionLen n < u32Size →
      min e.len n = 0 → ReallocCond cfg w t e n

section
variable {cfg : Cfg} {os : Os} {w : World} {s' : State} {H : Heap} {t n q : Nat} {e : Live}

/-- What the promise says about the place of a new block. -/
theorem WorldInv.add_own {H' : Heap} {reserve : Bool} {b : Live}
    (h : WorldInv cfg (w.add reserve s' b) H') :
    Backed cfg s'.mapped b.ptr b.len ∧ ∀ x ∈ w.live ++ w.boot, b.Apart x := by
  have hpair := h.pairwise
  have hback := @h.backed _ _ _ b
  cases reserve with
  | true =>
    have hperm : List.Perm (w.live ++ b :: w.boot) (b :: (w.live ++ w.boot)) := List.perm_middle
    have hpair := (hperm.pairwise_iff Live.Apart.symm).mp hpair
    exact ⟨hback (List.mem_append_right _ (List.mem_cons_self ..)),
      (List.pairwise_cons.mp hpair).1⟩
  | false =>
    exact ⟨hback (List.mem_append_left _ (List.mem_cons_self ..)),
      (List.pairwise_cons.mp hpair).1⟩

/-- A block of `room` bytes at `q` in the place of `e` keeps the promise if the bytes are
right. -/
theorem WorldInv.realloc_of_add {H' : Heap} {reserve : Bool} {room : Nat}
    (h' : WorldInv cfg ((w.without e).add reserve s' ⟨q, n, room⟩) H') (hq : q ≠ 0)
    (hon : reallocOnReserve w.state t e.ptr n = reserve) (hlen : reserve = true → room = n)
    (hfits : n ≤ room)
    (hdata : ∀ i < min e.len n, s'.mem (q + i) = w.state.mem (e.ptr + i))
    (hframe : ∀ seg ∈ w.state.mapped, ∀ a, seg.ptr ≤ a → a < seg.ptr + regionLen seg.length →
      ¬(q ≤ a ∧ a < q + room) → ¬(q ≠ e.ptr ∧ e.ptr ≤ a ∧ a < e.ptr + 8) →
      s'.mem a = w.state.mem a) :
    (∃ H', WorldInv cfg (w.realloc t e n s' q) H') ∧ ReallocSound cfg w t e n s' q := by
  obtain ⟨hback, hown⟩ := h'.add_own
  have hroom : reallocRoom w.state t e.ptr n s' q = room := by
    rw [reallocRoom, hon]
    exact h'.add_len hlen
  refine ⟨⟨H', ?_⟩, ?_, ?_, ?_, hdata, ?_⟩
  · rw [World.realloc, hon, h'.add_eq hq hlen]
    exact h'
  · rw [hroom]
    exact hback
  · rw [hroom]
    exact hfits
  · rw [hroom]
    exact hown
  · rw [hroom]
    exact hframe

/-- In place nothing changes but the size asked for. -/
theorem WorldInv.realloc_stays (h : WorldInv cfg w H) (he : e ∈ w.live)
    (hstays : reallocStays w.state e.ptr n = true) (hn : n ≤ e.len) :
    (∃ H', WorldInv cfg (w.realloc t e n w.state e.ptr) H') ∧
      ReallocSound cfg w t e n w.state e.ptr := by
  have hon : reallocOnReserve w.state t e.ptr n = false := by
    rw [reallocOnReserve, hstays]
    rfl
  have h' : WorldInv cfg ((w.without e).add false w.state ⟨e.ptr, n, e.len⟩) H :=
    ⟨h.heap.relabel he hn, h.partialList, h.reserve.erase e⟩
  apply h'.realloc_of_add (h.heap.live_ne_zero he) hon
  · intro hf
    cases hf
  · exact hn
  · exact fun _ _ => rfl
  · exact fun _ _ _ _ _ _ _ => rfl

/-- A block of the reserve is left where it is, and nothing is copied. -/
theorem WorldInv.realloc_reserve (h : WorldInv cfg w H) (he : e ∈ w.boot)
    (hnone : getAllocationSize w.state e.ptr = none) (hfit : regionLen n < u32Size)
    (hmin : min e.len n = 0) (hres : doMalloc cfg os none t n w.state = some (q, s')) :
    (∃ H', WorldInv cfg (w.realloc t e n s' q) H') ∧ ReallocSound cfg w t e n s' q := by
  have hon : reallocOnReserve w.state t e.ptr n = mallocOnReserve w.state t n := by
    rw [reallocOnReserve, reallocStays, hnone]
    rfl
  have h₀ : WorldInv cfg (w.without e) H := by
    refine ⟨?_, h.partialList, h.reserve.erase e⟩
    show HeapInv cfg w.state H (w.live.erase e)
    rw [List.erase_of_not_mem fun hl => h.not_both hl he]
    exact h.heap
  obtain ⟨H', hg⟩ := h₀.malloc hfit hres
  apply hg.inv.realloc_of_add hg.ne_zero hon
  · exact fun hr => if_pos hr
  · exact hg.fits
  · intro i hi
    rw [hmin] at hi
    cases hi
  · exact fun seg hseg a hlo hhi _ _ => hg.ext.mem seg hseg a hlo hhi

theorem WorldInv.add_write {reserve : Bool} {b : Live} {m : Mem}
    (h : WorldInv cfg (w.add reserve s' b) H)
    (hm : ∀ a, ¬(b.ptr ≤ a ∧ a < b.ptr + b.len) → m a = s'.mem a) :
    WorldInv cfg (w.add reserve { s' with mem := m } b) H := by
  cases reserve with
  | true =>
    exact h.write fun a ha => hm a (ha b (List.mem_append_right _ (List.mem_cons_self ..)))
  | false =>
    exact h.write fun a ha => hm a (ha b (List.mem_append_left _ (List.mem_cons_self ..)))

theorem WorldInv.add_free {reserve : Bool} {b : Live} {s₁ : State}
    (h : WorldInv cfg (w.add reserve s₁ b) H) (hapf : cfg.useApf = true) (he : e ∈ w.live)
    (hne : b ≠ e) (hnot : e ∉ w.boot) (hres : doFree cfg none t e.ptr s₁ = some s') :
    (∃ H', WorldInv cfg ((w.without e).add reserve s' b) H') ∧
      ∀ a, ¬(e.ptr ≤ a ∧ a < e.ptr + 8 ∧ a < e.ptr + e.len) → s'.mem a = s₁.mem a := by
  have hboot : w.boot.erase e = w.boot := List.erase_of_not_mem hnot
  cases reserve with
  | true =>
    obtain ⟨⟨H', h'⟩, hmem⟩ := h.free hapf he hres
    refine ⟨⟨H', ?_⟩, hmem⟩
    show WorldInv cfg ⟨s', w.live.erase e, b :: w.boot.erase e⟩ H'
    rw [hboot]
    exact h'
  | false =>
    obtain ⟨⟨H', h'⟩, hmem⟩ := h.free hapf (List.mem_cons_of_mem _ he) hres
    refine ⟨⟨H', ?_⟩, hmem⟩
    change WorldInv cfg ⟨s', (b :: w.live).erase e, w.boot⟩ H' at h'
    rw [List.erase_cons_tail (by simpa using hne)] at h'
    show WorldInv cfg ⟨s', b :: w.live.erase e, w.boot.erase e⟩ H'
    rw [hboot]
    exact h'

/-- **A move** is an allocation, a write into the new block and a free of the old one. -/
theorem WorldInv.realloc_moves {oldSize : Nat} {s₁ : State} (h : WorldInv cfg w H)
    (hapf : cfg.useApf = true) (he : e ∈ w.live)
    (hold : getAllocationSize w.state e.ptr = some oldSize)
    (hmoves : reallocInPlace oldSize n = false) (hfit : regionLen n < u32Size)
    (hroom : oldSize ≤ mallocRoom cfg w.state t n)
    (hmalloc : doMalloc cfg os none t n w.state = some (q, s₁))
    (hfree : doFree cfg none t e.ptr (if q ≠ 0 ∧ q ≠ e.ptr then
      { s₁ with mem := copyBytes s₁.mem q e.ptr oldSize } else s₁) = some s') :
    (∃ H', WorldInv cfg (w.realloc t e n s' q) H') ∧ ReallocSound cfg w t e n s' q := by
  have hon : reallocOnReserve w.state t e.ptr n = mallocOnReserve w.state t n := by
    rw [reallocOnReserve, reallocStays, hold]
    show (!reallocInPlace oldSize n && _) = _
    rw [hmoves]
    rfl
  obtain ⟨H₁, hg⟩ := h.malloc hfit hmalloc
  obtain ⟨d, seg, ho, -, hlo, hpos, hhi, -⟩ :=
    h.heap.region.live_seg (h.heap.block.liveOk e he)
  obtain ⟨old, hold', hlen⟩ := h.heap.recorded he
  obtain rfl : oldSize = old := Option.some.inj (hold.symm.trans hold')
  -- the new block is apart from the old one
  have hap : q + mallocRoom cfg w.state t n ≤ e.ptr ∨ e.ptr + e.len ≤ q :=
    hg.inv.add_own.2 e (List.mem_append_left _ he)
  have hne : (⟨q, n, mallocRoom cfg w.state t n⟩ : Live) ≠ e := by
    intro heq
    rw [← heq] at hap hpos
    simp only at hap hpos
    omega
  have hqp : q ≠ e.ptr := by omega
  rw [if_pos ⟨hg.ne_zero, hqp⟩] at hfree
  have h₂ := @hg.inv.add_write cfg w s₁ H₁ _ _ (copyBytes s₁.mem q e.ptr oldSize) fun a ha =>
    copyBytes_out (by simp only at ha; omega)
  obtain ⟨⟨H₃, h₃⟩, hmem⟩ := h₂.add_free hapf he hne (h.not_both he) hfree
  apply h₃.realloc_of_add hg.ne_zero hon
  · exact fun hr => if_pos hr
  · exact hg.fits
  · intro i hi
    have hreg := (regionLen_bounds seg.length).1
    calc s'.mem (q + i)
        = copyBytes s₁.mem q e.ptr oldSize (q + i) := hmem (q + i) (by omega)
      _ = s₁.mem (e.ptr + i) := copyBytes_in (by omega)
      _ = w.state.mem (e.ptr + i) :=
        hg.ext.mem seg (h.heap.region.mapped ho) (e.ptr + i) (by omega) (by omega)
  · intro sg hsg a halo hahi hq hp
    calc s'.mem a
        = copyBytes s₁.mem q e.ptr oldSize a := hmem a fun hin => hp ⟨hqp, hin.1, hin.2.1⟩
      _ = s₁.mem a := copyBytes_out (by omega)
      _ = w.state.mem a := hg.ext.mem sg hsg a halo hahi

end

/-- A move of the code. -/
theorem doRealloc_moves {cfg : Cfg} {os : Os} {tuner tunerFree : Option Nat} {t ptr n q old : Nat}
    {s s' : State} (hp : ptr ≠ 0) (hold : getAllocationSize s ptr = some old)
    (hmoves : reallocInPlace old n = false)
    (hres : doRealloc cfg os tuner tunerFree t ptr n s = some (q, s')) :
    ∃ s₁, doMalloc cfg os tuner t n s = some (q, s₁) ∧
      doFree cfg tunerFree t ptr (if q ≠ 0 ∧ q ≠ ptr then
        { s₁ with mem := copyBytes s₁.mem q ptr old } else s₁) = some s' := by
  rw [doRealloc, if_neg hp, hold] at hres
  simp only [hmoves, Bool.false_eq_true, if_false, Option.bind_eq_bind, Option.bind_eq_some_iff,
    Prod.exists, Option.some.injEq, Prod.mk.injEq] at hres
  obtain ⟨r, s₁, hmalloc, s₂, hfree, rfl, rfl⟩ := hres
  exact ⟨s₁, hmalloc, hfree⟩

/-- **`do_realloc`** under its condition keeps its promise, and the world in order. -/
theorem WorldInv.doRealloc {cfg : Cfg} {os : Os} {w : World} {s' : State} {H : Heap}
    {t n q : Nat} {e : Live} (h : WorldInv cfg w H) (hapf : cfg.useApf = true)
    (hc : ReallocCond cfg w t e n)
    (hres : doRealloc cfg os none none t e.ptr n w.state = some (q, s')) :
    (∃ H', WorldInv cfg (w.realloc t e n s' q) H') ∧ ReallocSound cfg w t e n s' q := by
  cases hc with
  | @stays old he hold hstays hn =>
    rw [Apfmalloc.doRealloc, if_neg (h.heap.live_ne_zero he), hold] at hres
    simp only [hstays, if_true, Option.some.injEq, Prod.mk.injEq] at hres
    obtain ⟨rfl, rfl⟩ := hres
    refine h.realloc_stays he ?_ hn
    rw [reallocStays, hold]
    exact hstays
  | @moves old he hold hmoves hfit hroom =>
    obtain ⟨s₁, hmalloc, hfree⟩ := doRealloc_moves (h.heap.live_ne_zero he) hold hmoves hres
    exact h.realloc_moves hapf he hold hmoves hfit hroom hmalloc hfree
  | reserve he hnone hfit hmin =>
    obtain ⟨seg, hseg, hlo, -⟩ := h.reserve.inside e he
    have hpos := (h.reserve.mapped seg hseg).2.pos
    rw [Apfmalloc.doRealloc, if_neg (by omega), hnone] at hres
    exact h.realloc_reserve he hnone hfit hmin hres

/-! ## Runs -/

/-- What threads do. A `write` is any writes of clients into their blocks, and `mode`
turns the bootstrap or the panicking of threads on and off. -/
inductive ClientOp
  | malloc (t size : Nat)
  | alignedAlloc (t align size : Nat)
  | free (t ptr : Nat)
  | realloc (t ptr size : Nat)
  | write
  | mode

inductive ClientStep (cfg : Cfg) : World → ClientOp → World → Prop
  | malloc {w : World} {s' : State} {os : Os} {t size p : Nat} :
      regionLen size < u32Size → doMalloc cfg os none t size w.state = some (p, s') →
      ClientStep cfg w (.malloc t size)
        (w.grant (mallocOnReserve w.state t size) s' p size size)
  | alignedAlloc {w : World} {s' : State} {os : Os} {t align size p : Nat} :
      AlignFits align size → doAlignedAlloc cfg os none t align size w.state = some (p, s') →
      ClientStep cfg w (.alignedAlloc t align size)
        (w.grant (alignedOnReserve w.state t align size) s' p size (alignSize size align))
  | free {w : World} {s' : State} {t : Nat} {e : Live} :
      e ∈ w.live → doFree cfg none t e.ptr w.state = some s' →
      ClientStep cfg w (.free t e.ptr) ⟨s', w.live.erase e, w.boot⟩
  | freeReserve {w : World} {s' : State} {t : Nat} {e : Live} :
      e ∈ w.boot → (getPageInfoForPtr w.state e.ptr).getDesc = none →
      doFree cfg none t e.ptr w.state = some s' →
      ClientStep cfg w (.free t e.ptr) ⟨s', w.live, w.boot.erase e⟩
  | realloc {w : World} {s' : State} {os : Os} {t n q : Nat} {e : Live} :
      ReallocCond cfg w t e n → doRealloc cfg os none none t e.ptr n w.state = some (q, s') →
      ClientStep cfg w (.realloc t e.ptr n) (w.realloc t e n s' q)
  | write {w : World} {m : Mem} :
      (∀ a, (∀ e ∈ w.live ++ w.boot, ¬(e.ptr ≤ a ∧ a < e.ptr + e.len)) → m a = w.state.mem a) →
      ClientStep cfg w .write { w with state := { w.state with mem := m } }
  | mode {w : World} (b : Bool) (f : Nat → Bool) :
      ClientStep cfg w .mode { w with state := { w.state with useBootstrap := b, panicking := f } }

theorem clientStep_inv {cfg : Cfg} (hapf : cfg.useApf = true) {w w' : World} {op : ClientOp}
    (h : ∃ H, WorldInv cfg w H) (hstep : ClientStep cfg w op w') : ∃ H', WorldInv cfg w' H' := by
  obtain ⟨H, h⟩ := h
  cases hstep with
  | malloc hfit hres =>
    obtain ⟨H', hg⟩ := h.malloc hfit hres
    rw [hg.inv.add_eq hg.ne_zero fun hr => if_pos hr]
    exact ⟨H', hg.inv⟩
  | alignedAlloc hfit hres => exact h.alignedAlloc hfit hres
  | free he hres => exact (h.free hapf he hres).1
  | @freeReserve s' t e he hnone hres =>
    -- the free finds no descriptor and does nothing
    rw [doFree] at hres
    split at hres
    next =>
      cases hres
      exact ⟨H, h.heap, h.partialList, h.reserve.erase e⟩
    next =>
      simp only [hnone] at hres
      cases hres
      exact ⟨H, h.heap, h.partialList, h.reserve.erase e⟩
  | realloc hc hres => exact (h.doRealloc hapf hc hres).1
  | write hm => exact ⟨H, h.write hm⟩
  | mode b f =>
    exact ⟨H, h.heap.modes _ b f, h.partialList,
      h.reserve.kept ⟨rfl, fun _ _ hsg => hsg, fun ho => Or.inl ho⟩⟩

theorem reserveInv_init {os : Os} {s : State} (h : initMalloc os = some s) : ReserveInv s [] := by
  simp only [initMalloc, Option.bind_eq_bind, Option.bind_eq_some_iff, Prod.exists,
    Option.some.injEq] at h
  obtain ⟨seg, s₁, hseg, rfl⟩ := h
  obtain ⟨hlen, hv, -, rfl⟩ := segAllocate_cases hseg
  refine ⟨fun sg hsg => ?_, fun sg hsg d sg' ho => ?_, ⟨seg, List.mem_singleton_self seg,
    Nat.le_refl _, ?_⟩, fun b hb => (List.not_mem_nil hb).elim,
    fun b hb => (List.not_mem_nil hb).elim, List.Pairwise.nil⟩
  · rw [List.mem_singleton.mp hsg]
    exact ⟨List.mem_cons_self .., hv⟩
  · cases ho
  · rw [hlen]
    exact Nat.le_refl _

theorem worldInv_init {cfg : Cfg} {os : Os} {s : State} (h : initMalloc os = some s) :
    WorldInv cfg ⟨s, [], []⟩ Heap.start :=
  ⟨heapInv_init h, (quiet_init h).partialList, reserveInv_init h⟩

/-- **Realloc keeps its promise in every run** of mallocs, aligned mallocs, frees, client
writes and switches of the bootstrap, of any threads, whose reallocs meet the condition:
so does every realloc in the state reached that meets it. -/
theorem realloc_sound {cfg : Cfg} (hapf : cfg.useApf = true) {os₀ : Os} {s₀ : State} {w : World}
    {ops : List ClientOp} (hinit : initMalloc os₀ = some s₀)
    (hrun : Run (ClientStep cfg) ⟨s₀, [], []⟩ ops w) {os : Os} {e : Live} {t n q : Nat}
    {s' : State} (hcond : ReallocCond cfg w t e n)
    (hres : doRealloc cfg os none none t e.ptr n w.state = some (q, s')) :
    ReallocSound cfg w t e n s' q := by
  obtain ⟨H, h⟩ := Run.invariant (P := fun w => ∃ H, WorldInv cfg w H) (clientStep_inv hapf) hrun
    ⟨Heap.start, worldInv_init hinit⟩
  exact (h.doRealloc hapf hcond hres).2

/-- 20000 bytes grow to 30000: a new segment, and the 20480 bytes of the old one fit. -/
theorem realloc_sound_grow :
    ∃ (s₀ : State) (w : World) (e : Live) (q : Nat) (s' : State), initMalloc Os.bump = some s₀ ∧
      Run (ClientStep Cfg.default) ⟨s₀, [], []⟩ [.malloc 0 20000] w ∧ e ∈ w.live ∧
      doRealloc Cfg.default Os.bump none none 0 e.ptr 30000 w.state = some (q, s') ∧
      ReallocSound Cfg.default w 0 e 30000 s' q := by
  have h : ((initMalloc Os.bump).any fun s₀ =>
      (doMalloc Cfg.default Os.bump none 0 20000 s₀).any fun r₁ =>
      (doRealloc Cfg.default Os.bump none none 0 r₁.1 30000 r₁.2).any fun _ =>
      r₁.1 ≠ 0 ∧ mallocOnReserve s₀ 0 20000 = false ∧ mallocOnReserve r₁.2 0 30000 = false ∧
        getAllocationSize r₁.2 r₁.1 = some 20480) = true := by
    decide +kernel
  simp only [Option.any_eq_true, decide_eq_true_eq, Prod.exists] at h
  obtain ⟨s₀, hinit, p, s₁, hmalloc, q, s', hrealloc, hc⟩ := h
  obtain ⟨hp, hon, hon', hold⟩ := hc
  have hrun : Run (ClientStep Cfg.default) ⟨s₀, [], []⟩ [.malloc 0 20000]
      ⟨s₁, [⟨p, 20000, usableSize s₁ p⟩], []⟩ := by
    have hstep := @ClientStep.malloc Cfg.default ⟨s₀, [], []⟩ s₁ Os.bump 0 20000 p (by decide)
      hmalloc
    rw [hon, World.grant, if_neg hp] at hstep
    exact .cons hstep (.nil _)
  have hmem : (⟨p, 20000, usableSize s₁ p⟩ : Live) ∈ [⟨p, 20000, usableSize s₁ p⟩] :=
    List.mem_cons_self ..
  refine ⟨s₀, _, ⟨p, 20000, usableSize s₁ p⟩, q, s', hinit, hrun, hmem, hrealloc,
    @realloc_sound Cfg.default rfl Os.bump s₀ _ _ hinit hrun Os.bump _ 0 30000 q s' ?_
      hrealloc⟩
  refine .moves hmem hold (by decide) (by decide) ?_
  rw [mallocRoom, hon']
  decide

/-- A large block shrinks to 8 bytes: the copy of its 20480 bytes runs over the blocks
after the new one. -/
theorem realloc_shrink_overruns :
    ∃ (s₀ : State) (w : World) (e : Live) (q : Nat) (s' : State), initMalloc Os.bump = some s₀ ∧
      Run (ClientStep Cfg.default) ⟨s₀, [], []⟩ [.malloc 0 20000, .malloc 0 8, .write] w ∧
      e ∈ w.live ∧
      doRealloc Cfg.default Os.bump none none 0 e.ptr 8 w.state = some (q, s') ∧ q ≠ 0 ∧
      ¬ReallocSound Cfg.default w 0 e 8 s' q := by
  have h : ((initMalloc Os.bump).any fun s₀ =>
      (doMalloc Cfg.default Os.bump none 0 20000 s₀).any fun r₁ =>
      (allocateToCache Cfg.default Os.bump none 0 8 1 r₁.2).any fun r₂ =>
      (allocateToCache Cfg.default Os.bump none 0 8 1
        { r₂.2 with mem := writeByte r₂.2.mem (r₁.1 + 8) 1 }).any fun r₃ =>
      (doFree Cfg.default none 0 r₁.1
        { r₃.2 with mem := copyBytes r₃.2.mem r₃.1 r₁.1 20480 }).any fun s' =>
      (r₁.1 ≠ 0 ∧ r₂.1 ≠ 0 ∧ r₃.1 ≠ 0 ∧ r₃.1 ≠ r₁.1) ∧
        (mallocOnReserve s₀ 0 20000 = false ∧ mallocOnReserve r₁.2 0 8 = false ∧
        mallocOnReserve r₂.2 0 8 = false) ∧
        getAllocationSize r₂.2 r₁.1 = some 20480 ∧ usableSize r₁.2 r₁.1 = 20480 ∧
        usableSize s' r₃.1 = 8 ∧ r₁.1 + 20480 ≤ r₃.1 ∧
        (∃ seg ∈ r₂.2.mapped, seg.ptr ≤ r₃.1 + 8 ∧
        r₃.1 + 8 < seg.ptr + regionLen seg.length) ∧
        s'.mem (r₃.1 + 8) ≠ r₂.2.mem (r₃.1 + 8)) = true := by
    decide +kernel
  simp only [Option.any_eq_true, decide_eq_true_eq, Prod.exists] at h
  obtain ⟨s₀, hinit, p, s₁, hlarge, x, s₂, hsmall, q, s₃, hnew, s', hfree, hc⟩ := h
  obtain ⟨⟨hp, hx, hq, hqp⟩, ⟨hon₁, hon₂, hon₃⟩, hold, hlen, hroom, hbeyond, hseg, hdiff⟩ := hc
  have hclass : ∀ s : State, doMalloc Cfg.default Os.bump none 0 8 s =
      allocateToCache Cfg.default Os.bump none 0 8 1 s := by
    intro s
    rw [doMalloc, if_neg (by decide), getSizeClass_eight]
  have hmoves : reallocInPlace 20480 8 = false := by
    unfold reallocInPlace
    rw [getSizeClass_eight]
    decide
  have hstep₁ := @ClientStep.malloc Cfg.default ⟨s₀, [], []⟩ s₁ Os.bump 0 20000 p (by decide)
    hlarge
  rw [hon₁, World.grant, if_neg hp, if_neg Bool.false_ne_true, hlen] at hstep₁
  have hstep₂ := @ClientStep.malloc Cfg.default ⟨s₁, [⟨p, 20000, 20480⟩], []⟩ s₂ Os.bump 0 8 x
    (by decide) ((hclass s₁).trans hsmall)
  rw [hon₂, World.grant, if_neg hx] at hstep₂
  have hmem : (⟨p, 20000, 20480⟩ : Live) ∈
      [⟨x, 8, usableSize s₂ x⟩, (⟨p, 20000, 20480⟩ : Live)] :=
    List.mem_cons_of_mem _ (List.mem_cons_self ..)
  -- the client puts a 1 behind the first eight bytes of its block
  have hstep₃ := @ClientStep.write Cfg.default
    ⟨s₂, [⟨x, 8, usableSize s₂ x⟩, ⟨p, 20000, 20480⟩], []⟩ (writeByte s₂.mem (p + 8) 1)
    fun a ha => if_neg fun heq => ha _ (List.mem_append_left _ hmem) (by simp only; omega)
  have hres : doRealloc Cfg.default Os.bump none none 0 p 8
      { s₂ with mem := writeByte s₂.mem (p + 8) 1 } = some (q, s') := by
    have hold' : getAllocationSize { s₂ with mem := writeByte s₂.mem (p + 8) 1 } p =
        some 20480 := hold
    rw [doRealloc, if_neg hp, hold']
    simp only [hmoves, Bool.false_eq_true, if_false, hclass, hnew, Option.bind_eq_bind,
      Option.bind_some]
    rw [if_pos ⟨hq, hqp⟩, hfree]
    rfl
  refine ⟨s₀, _, ⟨p, 20000, 20480⟩, q, s', hinit,
    .cons hstep₁ (.cons hstep₂ (.cons hstep₃ (.nil _))), hmem, hres, hq, fun hsound => ?_⟩
  obtain ⟨seg, hseg, hlo, hhi⟩ := hseg
  have hon : reallocOnReserve { s₂ with mem := writeByte s₂.mem (p + 8) 1 } 0 p 8 = false := by
    have hon' : mallocOnReserve { s₂ with mem := writeByte s₂.mem (p + 8) 1 } 0 8 = false := hon₃
    rw [reallocOnReserve, hon', Bool.and_false]
  have hframe := hsound.frame seg hseg (q + 8) hlo hhi
  rw [reallocRoom, hon, if_neg Bool.false_ne_true, hroom] at hframe
  have hsame := hframe (by omega) (by simp only; omega)
  refine hdiff (hsame.trans ?_)
  show writeByte s₂.mem (p + 8) 1 (q + 8) = s₂.mem (q + 8)
  exact if_neg (by omega)

end Apfmalloc
