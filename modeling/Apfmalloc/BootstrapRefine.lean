import Apfmalloc.Bootstrap
import Apfmalloc.Malloc

/-!
# The reserve of the allocator and the reserve in memory

The allocator's state keeps the segments of its reserve as a list. In `bootstrap.rs` they are
in an `Array`, which has a segment of its own, grows and moves, and a lookup walks it through an
array of references. `ReserveOf` relates the two: the same pointer and the same bytes left, the
list is what the array holds, and what the allocator's state says is mapped is mapped, apart from
the array and with the same bytes.

`bootstrap_refines` is the simulation: whatever the reserve in memory gives out, the reserve of
the allocator gives out as well, under a kernel that maps a new segment to the same place. The
kernel is one for each call, and says nothing about the array.
-/

namespace Apfmalloc

open Base

/-! ## One more segment -/

section Opens

variable {os : Os} {b b' : Bootstrap} {s s' : State} {segs : List Segment} {size : Nat}

/-- The segment `seg` was opened, and recorded in an array that may have moved. -/
structure Opened (b : Bootstrap) (s : State) (seg : Segment) (b' : Bootstrap) (s' : State) :
    Prop where
  valid : seg.Valid
  fresh : ∀ sg ∈ s.mapped, seg.Apart sg
  here : seg ∈ s'.mapped ∧ ∀ sg ∈ b'.mem.array.segs, seg.Apart sg
  zero : ∀ x, seg.Has x → s'.mem x = 0
  frame : Frame b.mem.array.segs b'.mem.array.segs s s'
  bootstrap : b' = { b' with next := seg.ptr, avail := seg.length, max := b.max }

theorem opened_of_openSegment (h : Bootstrap.Keeps s b.mem segs)
    (hr : b.openSegment os size s = .ok (b', s')) :
    ∃ seg : Segment, seg.length = size ∧ Opened b s seg b' s' ∧
      Bootstrap.Keeps s' b'.mem (segs ++ [seg]) := by
  obtain ⟨seg', hlen', -, hk, hb⟩ := h.openSegment.of_ok hr
  obtain ⟨⟨seg, s₁⟩, halloc, hr⟩ := ok_of_bind hr
  obtain ⟨⟨array, s₂⟩, hpush, hr⟩ := ok_of_bind hr
  cases hr
  have hseg : segAllocate os size s = some (seg, s₁) := by
    unfold allocateOrExit at halloc
    split at halloc
    next => cases halloc
    next hs =>
      cases halloc
      exact hs
  obtain ⟨hlen, hv, hap, hs₁⟩ := segAllocate_cases hseg
  have hframe := Bootstrap.segAllocate_frame hseg
  obtain ⟨h₁, harr⟩ := h.holds.frame hframe fun _ _ _ hx => (List.not_mem_nil hx).elim
  obtain ⟨-, hf⟩ := (h₁.push (by decide) seg.words).of_ok hpush
  have hold : ∀ old ∈ b.mem.array.segs, seg.Apart old := fun old ho =>
    (harr old ho seg (List.mem_singleton_self _)).symm
  have hin : seg ∈ s₁.mapped := by
    rw [hs₁]
    exact List.mem_cons_self ..
  obtain ⟨hin', hnew, hmem⟩ := hf.kept seg hin hold
  have hkeep : Frame b.mem.array.segs b.mem.array.segs s s₁ :=
    (hframe.append _).mono (fun _ ho => ho) fun _ ho => List.mem_append_right _ ho
  -- it is the segment that is recorded
  have hsame : seg' = seg := by
    have hp : seg'.ptr = seg.ptr := (congrArg Bootstrap.next hb).symm
    have hl : seg'.length = seg.length := hlen'.trans hlen.symm
    cases seg
    cases seg'
    exact congrArg₂ Segment.mk hp hl
  refine ⟨seg, hlen, ⟨hv, hap, ⟨hin', hnew⟩, fun x hx => ?_, hkeep.trans hf, ?_⟩, hsame ▸ hk⟩
  · rw [hmem x hx, hs₁]
    exact if_pos (hlen ▸ hx)
  · rw [hlen]

end Opens

/-- A kernel that maps to `p` where there is room. -/
theorem segAllocate_hint {s : State} {seg : Segment} (hv : seg.Valid)
    (hap : ∀ sg ∈ s.mapped, seg.Apart sg) :
    segAllocate (Os.hint seg.ptr) seg.length s =
      some (seg, { s with mapped := seg :: s.mapped,
                          mem := zeroFill s.mem seg.ptr (regionLen seg.length) }) := by
  have hmap : (Os.hint seg.ptr).mmap s.mapped seg.length = some seg.ptr := if_pos ⟨hv, hap⟩
  rw [segAllocate, hmap]

theorem bootstrapAllocate_room {os : Os} {s : State} {size : Nat}
    (h : size ≤ s.bootstrapReserve.avail) :
    bootstrapAllocate os size s = some (s.bootstrapReserve.next,
      { s with bootstrapReserve := { s.bootstrapReserve with
                next := s.bootstrapReserve.next + size,
                avail := s.bootstrapReserve.avail - size } }) := by
  rw [bootstrapAllocate, if_neg (Nat.not_lt.mpr h)]
  rfl

theorem bootstrapAllocate_fresh {os : Os} {s s₁ : State} {seg : Segment} {size : Nat}
    (h : s.bootstrapReserve.avail < size)
    (hseg : segAllocate os (max s.bootstrapReserve.max size) s = some (seg, s₁)) :
    bootstrapAllocate os size s = some (seg.ptr,
      { s₁ with bootstrapReserve := { s.bootstrapReserve with
                  mem := s.bootstrapReserve.mem ++ [seg], next := seg.ptr + size,
                  avail := seg.length - size } }) := by
  obtain ⟨hlen, -, -, hs₁⟩ := segAllocate_cases hseg
  rw [bootstrapAllocate, if_pos h]
  simp only [hseg]
  rw [hlen, hs₁]
  rfl

/-! ## The two reserves -/

/-- An array holds one list of segments. -/
theorem Bootstrap.Keeps.unique {s : State} {mem : Array (UInt64 × UInt64)}
    {segs segs' : List Segment} (h : Bootstrap.Keeps s mem segs)
    (h' : Bootstrap.Keeps s mem segs') : segs = segs' := by
  have hback : ∀ {l : List Segment}, (∀ seg ∈ l, seg ∈ s.mapped ∧ seg.Valid) →
      (l.map Segment.words).map (fun w => ⟨w.1.toNat, w.2.toNat⟩) = l := by
    intro l hl
    rw [List.map_map]
    refine (List.map_congr_left fun seg hseg => ?_).trans (List.map_id l)
    obtain ⟨hp, hn, -⟩ := Bootstrap.words_toNat (hl seg hseg).2
    rw [Function.comp_apply, hp, hn, id_eq]
  have heq : segs.map Segment.words = segs'.map Segment.words := by
    have hd := h.holds.deref
    rw [h'.holds.deref] at hd
    exact (Except.ok.inj hd).symm
  rw [← hback h.mapped, heq, hback h'.mapped]

/-- The reserve in memory is the reserve of `a`. -/
structure ReserveOf (b : Bootstrap) (s a : State) : Prop where
  inv : ∃ given, Bootstrap.Inv s b a.bootstrapReserve.mem given
  next : a.bootstrapReserve.next = b.next
  avail : a.bootstrapReserve.avail = b.avail
  max : a.bootstrapReserve.max = b.max
  there : ∀ seg ∈ a.bootstrapReserve.mem, seg ∈ a.mapped
  mapped : ∀ seg ∈ a.mapped, seg ∈ s.mapped ∧ ∀ sg ∈ b.mem.array.segs, seg.Apart sg
  mem : ∀ seg ∈ a.mapped, ∀ x, seg.Has x → a.mem x = s.mem x

inductive BootOp
  | allocate (size p : Nat)
  | lookup (ptr : Nat) (found : Bool)
  | others

/-- A call that returns, or what the rest of the program does. -/
inductive BootStep (checks : Bool) : Bootstrap × State → BootOp → Bootstrap × State → Prop
  | allocate {os : Os} {b b' : Bootstrap} {s s' : State} {size p : Nat} :
      b.allocate checks os size s = .ok (p, b', s') →
      BootStep checks (b, s) (.allocate size p) (b', s')
  | lookup {os : Os} {b : Bootstrap} {s s' : State} {ptr : Nat} {found : Bool} :
      b.ptrInBootstrap os ptr s = .ok (found, s') →
      BootStep checks (b, s) (.lookup ptr found) (b, s')
  | others {b : Bootstrap} {s s' : State} : b.Others s s' → BootStep checks (b, s) .others (b, s')

/-- The same on the reserve of the allocator: the rest of the program leaves it alone, and unmaps
none of its segments. -/
inductive ReserveSpec : State → BootOp → State → Prop
  | allocate {os : Os} {a a' : State} {size p : Nat} :
      bootstrapAllocate os size a = some (p, a') → ReserveSpec a (.allocate size p) a'
  | lookup {a : State} {ptr : Nat} {found : Bool} :
      (found = true ↔ ∃ seg ∈ a.bootstrapReserve.mem, seg.span.Has ptr) →
      ReserveSpec a (.lookup ptr found) a
  | others {a a' : State} : a'.bootstrapReserve = a.bootstrapReserve →
      (∀ seg ∈ a.bootstrapReserve.mem, seg ∈ a'.mapped) → ReserveSpec a .others a'

section Steps

variable {checks : Bool} {os : Os} {b b' : Bootstrap} {s s' a : State} {size p ptr : Nat}
  {found : Bool}

/-- What keeps to other segments than the array keeps what the two have in common. -/
theorem ReserveOf.mapped_frame {o' : List Segment} (h : ReserveOf b s a)
    (hf : Frame b.mem.array.segs o' s s') {seg : Segment} (hseg : seg ∈ a.mapped) :
    seg ∈ s'.mapped ∧ (∀ sg ∈ o', seg.Apart sg) ∧ ∀ x, seg.Has x → a.mem x = s'.mem x := by
  obtain ⟨hin, hap⟩ := h.mapped seg hseg
  obtain ⟨hin', hap', hmem⟩ := hf.kept seg hin hap
  exact ⟨hin', hap', fun x hx => (h.mem seg hseg x hx).trans (hmem x hx).symm⟩

/-- **Opening a segment** where the reserve in memory opened it. -/
theorem ReserveOf.opened {seg : Segment} (h : ReserveOf b s a) (ho : Opened b s seg b' s') :
    segAllocate (Os.hint seg.ptr) seg.length a =
      some (seg, { a with mapped := seg :: a.mapped,
                          mem := zeroFill a.mem seg.ptr (regionLen seg.length) }) ∧
    (∀ sg ∈ seg :: a.mapped, sg ∈ s'.mapped ∧ ∀ x ∈ b'.mem.array.segs, sg.Apart x) ∧
    ∀ sg ∈ seg :: a.mapped, ∀ x, sg.Has x →
      zeroFill a.mem seg.ptr (regionLen seg.length) x = s'.mem x := by
  have hap : ∀ sg ∈ a.mapped, seg.Apart sg := fun sg hsg => ho.fresh sg (h.mapped sg hsg).1
  refine ⟨segAllocate_hint ho.valid hap, fun sg hsg => ?_, fun sg hsg x hx => ?_⟩
  · rcases List.mem_cons.mp hsg with rfl | hsg
    · exact ho.here
    · obtain ⟨hin, hapart, -⟩ := h.mapped_frame ho.frame hsg
      exact ⟨hin, hapart⟩
  · rcases List.mem_cons.mp hsg with rfl | hsg
    · rw [ho.zero x hx]
      exact if_pos hx
    · rw [RawArray.zeroFill_kept (hap sg hsg) hx]
      exact (h.mapped_frame ho.frame hsg).2.2 x hx

/-- **A request** gets the same pointer. -/
theorem ReserveOf.allocate (h : ReserveOf b s a)
    (hr : b.allocate checks os size s = .ok (p, b', s')) :
    ∃ os' a', bootstrapAllocate os' size a = some (p, a') ∧ ReserveOf b' s' a' := by
  obtain ⟨given, hinv⟩ := h.inv
  obtain ⟨segs', hinv'⟩ := hinv.allocate.of_ok hr
  rw [Bootstrap.allocate] at hr
  by_cases hroom : size > b.avail
  · rw [if_pos hroom] at hr
    obtain ⟨⟨b₁, s₁⟩, hopen, hr⟩ := ok_of_bind hr
    obtain ⟨seg, hlen, ho, hk⟩ := opened_of_openSegment hinv.keeps hopen
    obtain ⟨hn₁, ha₁, hm₁⟩ : b₁.next = seg.ptr ∧ b₁.avail = seg.length ∧ b₁.max = b.max := by
      rw [ho.bootstrap]
      exact ⟨rfl, rfl, rfl⟩
    have hbound := ho.valid.bound
    have hreg := (regionLen_bounds seg.length).1
    have hle : size ≤ seg.length := hlen ▸ Nat.le_max_right _ _
    obtain ⟨hnext, havail⟩ := Bootstrap.cut_eq hle
      (show seg.ptr + seg.length ≤ addrSpace by omega)
    simp only [hn₁, ha₁, hnext, havail] at hr
    split at hr
    next => cases hr
    cases hr
    obtain rfl : segs' = a.bootstrapReserve.mem ++ [seg] := hinv'.keeps.unique hk
    obtain ⟨halloc, hmapped, hmem⟩ := h.opened ho
    rw [hlen, ← h.max] at halloc hmem
    refine ⟨_, _, bootstrapAllocate_fresh (h.avail ▸ hroom) halloc, ⟨_, hinv'⟩, rfl, rfl,
      h.max.trans hm₁.symm, fun sg hsg => ?_, hmapped, fun sg hsg x hx => ?_⟩
    · rcases List.mem_append.mp hsg with hsg | hsg
      · exact List.mem_cons_of_mem _ (h.there sg hsg)
      · exact List.mem_singleton.mp hsg ▸ List.mem_cons_self ..
    · exact hmem sg hsg x hx
  · rw [if_neg hroom] at hr
    have hle := Nat.not_lt.mp hroom
    obtain ⟨hnext, havail⟩ := Bootstrap.cut_eq hle hinv.bound
    simp only [ok_bind, hnext, havail] at hr
    split at hr
    next => cases hr
    cases hr
    obtain rfl : segs' = a.bootstrapReserve.mem := hinv'.keeps.unique hinv.keeps
    have halloc := @bootstrapAllocate_room Os.bump a size (by rw [h.avail]; exact hle)
    rw [h.next, h.avail] at halloc
    exact ⟨_, _, halloc, ⟨_, hinv'⟩, rfl, rfl, h.max, h.there, h.mapped, h.mem⟩

/-- **A lookup** tells the same. -/
theorem ReserveOf.lookup (h : ReserveOf b s a) (hr : b.ptrInBootstrap os ptr s = .ok (found, s')) :
    ReserveSpec a (.lookup ptr found) a ∧ ReserveOf b s' a := by
  obtain ⟨given, hinv⟩ := h.inv
  obtain ⟨hfound, o, hf⟩ := (hinv.ptrInBootstrap ptr).of_ok hr
  have hf' : Frame b.mem.array.segs b.mem.array.segs s s' :=
    (hf.append _).mono (fun _ ho => ho) fun _ ho => List.mem_append_right _ ho
  refine ⟨.lookup hfound, ⟨given, (hinv.keeps.frame hf).1, hinv.arena⟩, h.next, h.avail, h.max,
    h.there, fun sg hsg => ?_, fun sg hsg => (h.mapped_frame hf' hsg).2.2⟩
  obtain ⟨hin, hap, -⟩ := h.mapped_frame hf' hsg
  exact ⟨hin, hap⟩

/-- **The rest of the program** does the same to what the two have in common. -/
theorem ReserveOf.others (h : ReserveOf b s a) (ho : b.Others s s') :
    ∃ a', ReserveSpec a .others a' ∧ ReserveOf b s' a' := by
  obtain ⟨given, hinv⟩ := h.inv
  have hkeeps := hinv.keeps.others ho
  have hthere : ∀ seg ∈ a.bootstrapReserve.mem,
      seg ∈ s'.mapped.filter fun sg => ∀ x ∈ b.mem.array.segs, sg.Apart x := by
    intro seg hseg
    rw [List.mem_filter, decide_eq_true_iff]
    exact ⟨(hkeeps.mapped seg hseg).1, hkeeps.apart seg hseg⟩
  refine ⟨{ s' with
    mapped := s'.mapped.filter fun sg => ∀ x ∈ b.mem.array.segs, sg.Apart x,
    bootstrapReserve := a.bootstrapReserve }, .others rfl hthere, ⟨given, hkeeps, hinv.arena⟩,
    h.next, h.avail, h.max, hthere, fun sg hsg => ?_, fun _ _ _ _ => rfl⟩
  rwa [List.mem_filter, decide_eq_true_iff] at hsg

theorem bootStep_refines {q q' : Bootstrap × State} {op : BootOp} (h : ReserveOf q.1 q.2 a)
    (hs : BootStep checks q op q') : ∃ a', ReserveSpec a op a' ∧ ReserveOf q'.1 q'.2 a' := by
  cases hs with
  | allocate hr =>
    obtain ⟨os', a', hr', h'⟩ := h.allocate hr
    exact ⟨a', .allocate hr', h'⟩
  | lookup hr => exact ⟨a, h.lookup hr⟩
  | others ho => exact h.others ho

/-- **`init`** is that of `init_malloc`. -/
theorem reserveOf_init
    (hr : (Bootstrap.new BootstrapReserve.maxSize).init os startState = .ok (b, s)) :
    ∃ os' a, initMalloc os' = some a ∧ ReserveOf b s a := by
  obtain ⟨segs, hinv⟩ := (Bootstrap.init_inv _ _).of_ok hr
  have hnew : Bootstrap.Keeps startState (Bootstrap.new BootstrapReserve.maxSize).mem [] :=
    ⟨Array.holds_new startState, fun _ h => (List.not_mem_nil h).elim,
      fun _ h => (List.not_mem_nil h).elim⟩
  obtain ⟨seg, hlen, ho, hk⟩ := opened_of_openSegment hnew hr
  obtain rfl : segs = [seg] := hinv.keeps.unique hk
  have hmax : seg.length = BootstrapReserve.maxSize := hlen
  have halloc := @segAllocate_hint startState seg ho.valid fun _ h => (List.not_mem_nil h).elim
  have hstart : initMalloc (Os.hint seg.ptr) = some
      { startState with
        mapped := [seg], mem := zeroFill startState.mem seg.ptr (regionLen seg.length),
        bootstrapReserve := ⟨[seg], seg.ptr, seg.length, seg.length⟩ } := by
    rw [initMalloc, show startState.bootstrapReserve.max = seg.length from hmax.symm, halloc]
    simp only [Option.bind_eq_bind, Option.bind_some, ← hmax]
    rfl
  obtain ⟨hn, ha, hm⟩ : b.next = seg.ptr ∧ b.avail = seg.length ∧ b.max = seg.length := by
    rw [ho.bootstrap]
    exact ⟨rfl, rfl, hmax.symm⟩
  refine ⟨_, _, hstart, ⟨[], hinv⟩, hn.symm, ha.symm, hm.symm, fun _ h => h, fun sg hsg => ?_,
    fun sg hsg x hx => ?_⟩
  · obtain rfl := List.mem_singleton.mp hsg
    exact ho.here
  · obtain rfl := List.mem_singleton.mp hsg
    rw [ho.zero x hx]
    exact if_pos hx

end Steps

/-- **The reserve in memory is the reserve of the allocator.** In every run, with a kernel of its
own for each call and whatever the rest of the program does to its own memory, every pointer and
every answer is one of the reserve that `initMalloc` sets up, and at the end the two have the same
segments, the same bytes left and, in what both have mapped, the same bytes. -/
theorem bootstrap_refines {checks : Bool} {os : Os} {b b' : Bootstrap} {s s' : State}
    {ops : List BootOp}
    (hinit : (Bootstrap.new BootstrapReserve.maxSize).init os startState = .ok (b, s))
    (hrun : Run (BootStep checks) (b, s) ops (b', s')) :
    ∃ os' a a', initMalloc os' = some a ∧ Run ReserveSpec a ops a' ∧ ReserveOf b' s' a' := by
  obtain ⟨os', a, hinit', h⟩ := reserveOf_init hinit
  obtain ⟨a', hrun', h'⟩ := Run.simulation (R := fun q a => ReserveOf q.1 q.2 a)
    (fun h hs => bootStep_refines h hs) hrun h
  exact ⟨os', a, a', hinit', hrun', h'⟩

/-- A request that fits, one that does not, and a lookup. -/
theorem bootstrap_refines_opens :
    ∃ (b b' : Bootstrap) (s s' : State) (p q : Nat) (found : Bool),
      (Bootstrap.new BootstrapReserve.maxSize).init Os.bump startState = .ok (b, s) ∧
      Run (BootStep true) (b, s) [.allocate 24 p, .allocate 200000 q, .lookup p found] (b', s') ∧
      ∃ os' a a', initMalloc os' = some a ∧
        Run ReserveSpec a [.allocate 24 p, .allocate 200000 q, .lookup p found] a' ∧
        ReserveOf b' s' a' := by
  have h : (do
      let r₀ ← (Bootstrap.new BootstrapReserve.maxSize).init Os.bump startState
      let r₁ ← r₀.1.allocate true Os.bump 24 r₀.2
      let r₂ ← r₁.2.1.allocate true Os.bump 200000 r₁.2.2
      r₂.2.1.ptrInBootstrap Os.bump r₁.1 r₂.2.2).toOption.isSome = true := by
    decide +kernel
  obtain ⟨⟨found, s₃⟩, h⟩ := ok_of_isSome h
  obtain ⟨⟨b₀, s₀⟩, h₀, h⟩ := ok_of_bind h
  obtain ⟨⟨p, b₁, s₁⟩, h₁, h⟩ := ok_of_bind h
  obtain ⟨⟨q, b₂, s₂⟩, h₂, h₃⟩ := ok_of_bind h
  have hrun : Run (BootStep true) (b₀, s₀) _ (b₂, s₃) :=
    .cons (.allocate h₁) <| .cons (.allocate h₂) <| .cons (.lookup h₃) <| .nil _
  exact ⟨b₀, b₂, s₀, s₃, p, q, found, h₀, hrun, bootstrap_refines h₀ hrun⟩

end Apfmalloc
