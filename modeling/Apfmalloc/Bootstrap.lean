import Apfmalloc.Base.Arena
import Apfmalloc.ArrayDeque

/-!
# `bootstrap.rs`: the reserve and its segments

The reserve that `State` has is a pointer and a list of segments. Here it is as it is in
memory: the segments are elements of an `Array`, which needs a segment of its own and
moves to another when it grows. `allocate` cuts the next bytes off the last segment and
opens another when they do not fit; `ptr_in_bootstrap` walks the array.

Between two calls the rest of the program does what it likes, to what was handed out as
well, but keeps its hands off the array and unmaps no segment of the reserve.
-/

namespace Apfmalloc

open Base

/-- `Segment` as an element of an array. -/
def Segment.words (seg : Segment) : UInt64 × UInt64 :=
  (UInt64.ofNat seg.ptr, UInt64.ofNat seg.length)

def Segment.span (seg : Segment) : Span := ⟨seg.ptr, seg.length⟩

/-- `SEGMENT_ALLOCATOR.allocate(len).unwrap_or_else(|_| exit(-1))` -/
def allocateOrExit (os : Os) (len : Nat) (s : State) : Except Fault (Segment × State) :=
  match segAllocate os len s with
  | none => .error .exit
  | some r => .ok r

structure Bootstrap where
  mem : Array (UInt64 × UInt64)
  next : Nat
  avail : Nat
  max : Nat
  deriving DecidableEq, Repr

namespace Bootstrap

def new (size : Nat) : Bootstrap := ⟨Array.new, 0, 0, size⟩

/-- A new last segment. -/
def openSegment (os : Os) (size : Nat) (b : Bootstrap) (s : State) :
    Except Fault (Bootstrap × State) := do
  let (mem, s) ← allocateOrExit os size s
  let (array, s) ← b.mem.push os mem.words s
  .ok ({ b with mem := array, next := mem.ptr, avail := size }, s)

def init (os : Os) (b : Bootstrap) (s : State) : Except Fault (Bootstrap × State) :=
  b.openSegment os b.max s

def addNewSegment (os : Os) (requestSize : Nat) (b : Bootstrap) (s : State) :
    Except Fault (Bootstrap × State) :=
  b.openSegment os (Nat.max b.max requestSize) s

/-- With overflow checks a subtraction below zero panics. -/
def allocate (checks : Bool) (os : Os) (size : Nat) (b : Bootstrap) (s : State) :
    Except Fault (Nat × Bootstrap × State) := do
  let (b, s) ← if size > b.avail then b.addNewSegment os size s else .ok (b, s)
  let ret := b.next
  if checks ∧ b.avail < size then .error .panic
  else .ok (ret, { b with next := (b.next + size) % usizeSize, avail := usizeSub b.avail size }, s)

/-- The loop of `ptr_in_bootstrap` over references to segments, with a bound on the rounds. -/
def anyHas (ptr : Nat) : Nat → ArrayIterator UInt64 → State → Except Fault Bool
  | 0, _, _ => .error .fuel
  | n + 1, it, s => do
    let (x, it) ← it.next s
    match x with
    | none => .ok false
    | some ref => do
      let (start, len) ← (load ref.toNat s : Except Fault (UInt64 × UInt64))
      let stop := (start.toNat + len.toNat) % usizeSize
      if ptr ≥ start.toNat ∧ ptr < stop then .ok true else anyHas ptr n it s

def ptrInBootstrap (os : Os) (ptr : Nat) (b : Bootstrap) (s : State) :
    Except Fault (Bool × State) := do
  let (it, s) ← b.mem.intoIterRef os s
  let found ← anyHas ptr (it.array.size + 1) it s
  .ok (found, s)

/-! ## One call -/

/-- What a call may end in instead of a result: the exit, or a panic for want of memory. -/
def Ends (e : Fault) : Prop := e = .exit ∨ Refusal e

/-- The array holds the segments of the reserve, which are mapped and apart from its own. -/
structure Keeps (s : State) (mem : Array (UInt64 × UInt64)) (segs : List Segment) : Prop where
  holds : mem.Holds s (segs.map Segment.words)
  mapped : ∀ seg ∈ segs, seg ∈ s.mapped ∧ seg.Valid
  apart : ∀ seg ∈ segs, ∀ sg ∈ mem.array.segs, seg.Apart sg

section
variable {checks : Bool} {os : Os} {b : Bootstrap} {mem : Array (UInt64 × UInt64)} {s s' : State}
  {segs : List Segment} {given : List Span} {size : Nat}

/-- A fresh mapping leaves the others alone. -/
theorem segAllocate_frame {seg : Segment} (h : segAllocate os size s = some (seg, s')) :
    Frame [] [seg] s s' := by
  obtain ⟨rfl, hv, hap, rfl⟩ := segAllocate_cases h
  refine ⟨fun sg hsg _ => ⟨List.mem_cons_of_mem _ hsg, fun new hnew => ?_, fun x hx => ?_⟩,
    fun hall sg hsg => ?_, rfl⟩
  · obtain rfl := List.mem_singleton.mp hnew
    exact (hap sg hsg).symm
  · exact RawArray.zeroFill_kept (hap sg hsg) hx
  · rcases List.mem_cons.mp hsg with rfl | hsg
    · exact hv
    · exact hall sg hsg

/-- What does not touch the array or the segments keeps them. -/
theorem Keeps.frame {o : List Segment} (h : Keeps s mem segs) (hf : Frame [] o s s') :
    Keeps s' mem segs ∧ (∀ seg ∈ segs, ∀ x ∈ o, seg.Apart x) ∧
      ∀ sg ∈ mem.array.segs, ∀ x ∈ o, sg.Apart x := by
  have hnil : ∀ seg : Segment, ∀ old ∈ ([] : List Segment), seg.Apart old :=
    fun _ _ hx => (List.not_mem_nil hx).elim
  obtain ⟨hholds, hapart⟩ := h.holds.frame hf fun seg _ => hnil seg
  refine ⟨⟨hholds, fun seg hseg => ?_, h.apart⟩, fun seg hseg => ?_, hapart⟩
  · obtain ⟨hin, hv⟩ := h.mapped seg hseg
    exact ⟨(hf.kept seg hin (hnil seg)).1, hv⟩
  · exact (hf.kept seg (h.mapped seg hseg).1 (hnil seg)).2.1

/-- **A new segment** is recorded, in an array that may have moved. -/
theorem Keeps.openSegment (h : Keeps s b.mem segs) :
    Post Ends (fun q => ∃ seg : Segment, seg.length = size ∧ (∀ sg ∈ segs, seg.Apart sg) ∧
      Keeps q.2 q.1.mem (segs ++ [seg]) ∧ q.1 = { q.1 with next := seg.ptr, avail := size, max := b.max })
      (b.openSegment os size s) := by
  rw [Bootstrap.openSegment, allocateOrExit]
  cases hseg : segAllocate os size s with
  | none => exact Or.inl rfl
  | some q =>
    obtain ⟨seg, s₁⟩ := q
    obtain ⟨h₁, hap, hapm⟩ := h.frame (segAllocate_frame hseg)
    obtain ⟨hlen, hv, -, hs₁⟩ := segAllocate_cases hseg
    simp only [ok_bind]
    refine Post.bind ((h₁.holds.push (by decide) seg.words).weaken fun e he => Or.inr he)
      fun q hq => ?_
    obtain ⟨hholds, hf⟩ := hq
    -- the segments, old and new, are apart from what the push touched
    have hold : ∀ sg ∈ segs ++ [seg], sg ∈ s₁.mapped ∧ sg.Valid ∧
        ∀ x ∈ b.mem.array.segs, sg.Apart x := by
      intro sg hsg
      rcases List.mem_append.mp hsg with hsg | hsg
      · exact ⟨(h₁.mapped sg hsg).1, (h₁.mapped sg hsg).2, h₁.apart sg hsg⟩
      · obtain rfl := List.mem_singleton.mp hsg
        refine ⟨by rw [hs₁]; exact List.mem_cons_self .., hv, fun x hx => ?_⟩
        exact (hapm x hx sg (List.mem_singleton_self _)).symm
    refine ⟨seg, hlen, fun sg hsg => (hap sg hsg seg (List.mem_singleton_self _)).symm,
      ⟨?_, fun sg hsg => ?_, fun sg hsg => ?_⟩, rfl⟩
    · rw [List.map_append]
      exact hholds
    · obtain ⟨hin, hvs, hx⟩ := hold sg hsg
      exact ⟨(hf.kept sg hin hx).1, hvs⟩
    · obtain ⟨hin, -, hx⟩ := hold sg hsg
      exact (hf.kept sg hin hx).2.1

/-- The reserve is an arena whose chunks are the segments of the array. -/
structure Inv (s : State) (b : Bootstrap) (segs : List Segment) (given : List Span) : Prop where
  keeps : Keeps s b.mem segs
  arena : Arena.Sound ⟨segs.map Segment.span, b.next, b.avail⟩ given

/-- What is left ends with the last segment. -/
theorem Inv.last (h : Inv s b segs given) :
    ∃ cs seg, segs = cs ++ [seg] ∧ seg.ptr ≤ b.next ∧
      b.next + b.avail = seg.ptr + seg.length := by
  obtain ⟨cs, c, hchunks, hlo, hend⟩ := h.arena.last
  simp only at hchunks hlo hend
  rcases List.eq_nil_or_concat segs with rfl | ⟨cs', seg, rfl⟩
  · exact absurd hchunks.symm (List.append_ne_nil_of_right_ne_nil _ (List.cons_ne_nil _ _))
  · rw [List.concat_eq_append, List.map_append, List.map_singleton] at hchunks
    obtain ⟨-, hc⟩ := List.append_inj' hchunks rfl
    cases hc
    exact ⟨cs', seg, List.concat_eq_append, hlo, hend⟩

theorem Inv.bound (h : Inv s b segs given) : b.next + b.avail ≤ addrSpace := by
  obtain ⟨cs, seg, rfl, -, hend⟩ := h.last
  obtain ⟨-, hv⟩ := h.keeps.mapped seg (List.mem_append_right _ (List.mem_singleton_self _))
  have hb := hv.bound
  have hreg := (regionLen_bounds seg.length).1
  omega

/-- The subtraction does not go below zero, and nothing wraps. -/
theorem cut_eq {next avail : Nat} (hle : size ≤ avail) (hb : next + avail ≤ addrSpace) :
    (next + size) % usizeSize = next + size ∧ usizeSub avail size = avail - size := by
  have hspace : addrSpace = 281474976710656 := rfl
  have hu := usizeSize_eq
  exact ⟨Nat.mod_eq_of_lt (by omega), usizeSub_of_le hle (by omega)⟩

/-- **`init`** opens the first segment. -/
theorem init_inv (max : Nat) (s : State) :
    Post Ends (fun q => ∃ segs, Inv q.2 q.1 segs []) ((new max).init os s) := by
  have hnew : Keeps s (new max).mem [] :=
    ⟨Array.holds_new s, fun _ h => (List.not_mem_nil h).elim, fun _ h => (List.not_mem_nil h).elim⟩
  refine (hnew.openSegment).mono fun q hq => ?_
  obtain ⟨seg, hlen, -, hk, hb⟩ := hq
  refine ⟨[seg], hk, ?_⟩
  rw [hb]
  show Arena.Sound ⟨[seg.span], seg.ptr, (new max).max⟩ []
  rw [← hlen]
  exact Arena.sound_open seg.span

/-- **`allocate`** serves the request as an arena does. -/
theorem Inv.allocate (h : Inv s b segs given) :
    Post Ends (fun q => ∃ segs', Inv q.2.2 q.2.1 segs' (⟨q.1, size⟩ :: given))
      (b.allocate checks os size s) := by
  rw [Bootstrap.allocate]
  by_cases hroom : size > b.avail
  · rw [if_pos hroom, Bootstrap.addNewSegment]
    refine Post.bind h.keeps.openSegment fun q hq => ?_
    obtain ⟨b₁, s₁⟩ := q
    obtain ⟨seg, hlen, hap, hk, hb⟩ := hq
    simp only at hk hb
    obtain ⟨-, hv⟩ := hk.mapped seg (List.mem_append_right _ (List.mem_singleton_self _))
    have hbound := hv.bound
    have hreg := (regionLen_bounds seg.length).1
    have hle : size ≤ seg.length := hlen ▸ Nat.le_max_right _ _
    rw [← hlen] at hb
    obtain ⟨hnext, havail⟩ := cut_eq hle (by omega : seg.ptr + seg.length ≤ addrSpace)
    have hn : b₁.next = seg.ptr := by rw [hb]
    have ha : b₁.avail = seg.length := by rw [hb]
    simp only [hn, ha, hnext, havail]
    rw [if_neg (by omega)]
    refine ⟨segs ++ [seg], hk, ?_⟩
    have hserve := h.arena.serve (.fresh (c := seg.span) hroom hle fun r hr => ?_)
    · rw [List.map_append]
      exact hserve
    · obtain ⟨sg, hsg, rfl⟩ := List.mem_map.mp hr
      have hreg' := (regionLen_bounds sg.length).1
      rcases hap sg hsg with hap | hap
      · exact Or.inl (by show seg.ptr + seg.length ≤ sg.ptr; omega)
      · exact Or.inr (by show sg.ptr + sg.length ≤ seg.ptr; omega)
  · rw [if_neg hroom]
    obtain ⟨hnext, havail⟩ := cut_eq (Nat.not_lt.mp hroom) h.bound
    simp only [ok_bind]
    rw [if_neg (fun hc => hroom hc.2), hnext, havail]
    exact ⟨segs, h.keeps, h.arena.serve (.cut (Nat.not_lt.mp hroom))⟩

/-! ## Looking up an address -/

/-- The words of a valid segment are its fields. -/
theorem words_toNat {seg : Segment} (hv : seg.Valid) :
    seg.words.1.toNat = seg.ptr ∧ seg.words.2.toNat = seg.length ∧
      (seg.ptr + seg.length) % usizeSize = seg.ptr + seg.length := by
  have hb := hv.bound
  have hreg := (regionLen_bounds seg.length).1
  have hspace : addrSpace = 281474976710656 := rfl
  refine ⟨?_, ?_, Nat.mod_eq_of_lt (by rw [usizeSize_eq]; omega)⟩
  · rw [Segment.words, UInt64.toNat_ofNat']
    exact Nat.mod_eq_of_lt (by omega)
  · rw [Segment.words, UInt64.toNat_ofNat']
    exact Nat.mod_eq_of_lt (by omega)

/-- **The loop** finds a segment that has the address, by induction on the segments left. -/
theorem anyHas_eq {ptr : Nat} {arr : Array UInt64}
    (href : Array.RefIter mem (segs.map Segment.words) (⟨0, arr⟩, s))
    (hv : ∀ seg ∈ segs, seg.Valid) : ∀ n i, i + n = segs.length →
    ∃ found, anyHas ptr (n + 1) ⟨i, arr⟩ s = .ok found ∧
      (found = true ↔ ∃ seg ∈ segs.drop i, seg.span.Has ptr) := by
  have hlen : (mem.refs 0 (segs.map Segment.words).length).length = segs.length := by
    rw [Array.length_refs, List.length_map]
  intro n
  induction n with
  | zero =>
    intro i hi
    have hsize : arr.size ≤ i := by
      rw [href.held.size, hlen]
      omega
    refine ⟨false, ?_, iff_of_false Bool.false_ne_true fun ⟨seg, hseg, _⟩ => ?_⟩
    · rw [anyHas, ArrayIterator.next_none hsize]
      rfl
    · rw [List.drop_eq_nil_of_le (by omega)] at hseg
      cases hseg
  | succ n ih =>
    intro i hi
    have hlt : i < segs.length := by omega
    have hltr : i < (mem.refs 0 (segs.map Segment.words).length).length := by rwa [hlen]
    have hltm : i < (segs.map Segment.words).length := by rwa [List.length_map]
    obtain ⟨hp, hl, hstop⟩ := words_toNat (hv segs[i] (List.getElem_mem hlt))
    rw [anyHas, ArrayIterator.next_some href.held.size hltr (href.held.load hltr)]
    simp only [ok_bind]
    rw [href.views.load_ref hltr hltm, List.getElem_map]
    simp only [ok_bind, hp, hl, hstop]
    rw [List.drop_eq_getElem_cons hlt]
    by_cases hhas : ptr ≥ segs[i].ptr ∧ ptr < segs[i].ptr + segs[i].length
    · rw [if_pos hhas]
      exact ⟨true, rfl, iff_of_true rfl ⟨segs[i], List.mem_cons_self .., hhas⟩⟩
    · rw [if_neg hhas]
      obtain ⟨found, hfound, hiff⟩ := ih (i + 1) (by omega)
      refine ⟨found, hfound, hiff.trans ⟨fun ⟨seg, hseg, hx⟩ => ?_, fun ⟨seg, hseg, hx⟩ => ?_⟩⟩
      · exact ⟨seg, List.mem_cons_of_mem _ hseg, hx⟩
      · rcases List.mem_cons.mp hseg with rfl | hseg
        · exact absurd hx hhas
        · exact ⟨seg, hseg, hx⟩

/-- **`ptr_in_bootstrap`** is true for the addresses in the segments, and leaves the reserve
alone. -/
theorem Inv.ptrInBootstrap (h : Inv s b segs given) (ptr : Nat) :
    Served (fun q => (q.1 = true ↔ ∃ seg ∈ segs, seg.span.Has ptr) ∧ ∃ o, Frame [] o s q.2)
      (b.ptrInBootstrap os ptr s) := by
  have hviews := h.keeps.holds.views_self
  have hne : segs.map Segment.words ≠ [] := by
    obtain ⟨cs, seg, rfl, -⟩ := h.last
    rw [List.map_append]
    exact List.append_ne_nil_of_right_ne_nil _ (List.cons_ne_nil _ _)
  have hfit : (segs.map Segment.words).length * 8 < usizeSize :=
    Nat.lt_of_le_of_lt (Nat.mul_le_mul_right 8 (hviews.length_le (by decide))) (by decide)
  rw [Bootstrap.ptrInBootstrap]
  refine Post.bind (Array.intoIterRef_served hviews hne hfit) fun q hq => ?_
  obtain ⟨⟨i, arr⟩, s₁⟩ := q
  obtain ⟨href, hf⟩ := hq
  obtain rfl : i = 0 := href.index
  have hsize : arr.size = segs.length := by
    have := href.held.size
    rwa [Array.length_refs, List.length_map] at this
  obtain ⟨found, hfound, hiff⟩ := @anyHas_eq _ _ _ ptr _ href
    (fun seg hseg => (h.keeps.mapped seg hseg).2) arr.size 0 (by omega)
  rw [List.drop_zero] at hiff
  simp only
  rw [hfound]
  exact ⟨hiff, _, hf⟩

end

/-! ## Every history -/

/-- What the rest of the program does between two calls. -/
structure Others (b : Bootstrap) (s s' : State) : Prop where
  segments : ∀ segs : List Segment, b.mem.deref s = .ok (segs.map Segment.words) →
    ∀ seg ∈ segs, seg ∈ s.mapped → seg ∈ s'.mapped
  array : ∀ seg ∈ b.mem.array.segs, seg ∈ s.mapped → seg ∈ s'.mapped
  bytes : ∀ seg ∈ b.mem.array.segs, ∀ x, seg.Has x → s'.mem x = s.mem x

/-- A reserve in use: after `init`, calls that return, each with a kernel of its own, and
whatever happens in between. `given` is what was handed out. -/
inductive Used (checks : Bool) : Bootstrap → State → List Span → Prop
  | init {os : Os} {max : Nat} {b : Bootstrap} {s s' : State} :
      (new max).init os s = .ok (b, s') → Used checks b s' []
  | allocate {os : Os} {size p : Nat} {b b' : Bootstrap} {s s' : State} {given : List Span} :
      Used checks b s given → 1 ≤ size → b.allocate checks os size s = .ok (p, b', s') →
      Used checks b' s' (⟨p, size⟩ :: given)
  | lookup {os : Os} {ptr : Nat} {found : Bool} {b : Bootstrap} {s s' : State}
      {given : List Span} : Used checks b s given →
      b.ptrInBootstrap os ptr s = .ok (found, s') → Used checks b s' given
  | others {b : Bootstrap} {s s' : State} {given : List Span} : Used checks b s given →
      b.Others s s' → Used checks b s' given

section
variable {checks : Bool} {b : Bootstrap} {mem : Array (UInt64 × UInt64)} {s s' : State}
  {segs : List Segment} {given : List Span}

theorem Keeps.others (h : Keeps s b.mem segs) (ho : b.Others s s') : Keeps s' b.mem segs := by
  have howned : b.mem.array.Owned s' := by
    intro seg hseg
    obtain ⟨hin, hv⟩ := h.holds.owned seg hseg
    exact ⟨ho.array seg hseg hin, hv⟩
  refine ⟨⟨howned, h.holds.exact, h.holds.size, h.holds.le, fun i hi => ?_, h.holds.dealloc⟩,
    fun seg hseg => ?_, h.apart⟩
  · rw [← h.holds.cell i hi]
    obtain ⟨seg, hseg, -, hslot, hend, -⟩ := h.holds.owned.slot (Nat.lt_of_lt_of_le hi h.holds.le)
    have hreg := (regionLen_bounds seg.length).1
    refine Elem.read_congr fun k hk => ho.bytes seg (RawArray.mem_segs hseg) _ ?_
    rw [hslot]
    exact ⟨by omega, by omega⟩
  · obtain ⟨hin, hv⟩ := h.mapped seg hseg
    exact ⟨ho.segments segs h.holds.deref seg hseg hin, hv⟩

/-- **Every reserve in use** is an arena, by induction on its history. -/
theorem Used.inv (h : Used checks b s given) :
    (∃ segs, Inv s b segs given) ∧ ∀ r ∈ given, 0 < r.len := by
  induction h with
  | init hinit =>
    obtain ⟨segs, h⟩ := (init_inv _ _).of_ok hinit
    exact ⟨⟨segs, h⟩, fun r hr => (List.not_mem_nil hr).elim⟩
  | allocate _ hsize hres ih =>
    obtain ⟨⟨segs, h⟩, hpos⟩ := ih
    obtain ⟨segs', h'⟩ := h.allocate.of_ok hres
    refine ⟨⟨segs', h'⟩, fun r hr => ?_⟩
    rcases List.mem_cons.mp hr with rfl | hr
    · exact hsize
    · exact hpos r hr
  | lookup _ hres ih =>
    obtain ⟨⟨segs, h⟩, hpos⟩ := ih
    obtain ⟨-, o, hf⟩ := (h.ptrInBootstrap _).of_ok hres
    exact ⟨⟨segs, (h.keeps.frame hf).1, h.arena⟩, hpos⟩
  | others _ ho ih =>
    obtain ⟨⟨segs, h⟩, hpos⟩ := ih
    exact ⟨⟨segs, h.keeps.others ho, h.arena⟩, hpos⟩

end

end Bootstrap

/-- **The bootstrap reserve.** However it was used since `init`, what it handed out does not
overlap and lies in segments of its array; what is left ends where the last of them ends;
the next request, of any size, does not take more than there is, if it returns; and
`ptr_in_bootstrap` is true for the addresses in the segments, so for every pointer that
was handed out. -/
theorem bootstrap_reserve_sound {checks : Bool} {b : Bootstrap} {s : State} {given : List Span}
    (h : Bootstrap.Used checks b s given) :
    given.Pairwise Span.Apart ∧
    ∃ segs : List Segment, b.mem.deref s = .ok (segs.map Segment.words) ∧
      (∀ r ∈ given, ∃ seg ∈ segs, r.Within seg.span) ∧
      (∃ cs seg, segs = cs ++ [seg] ∧ seg.ptr ≤ b.next ∧
        b.next + b.avail = seg.ptr + seg.length) ∧
      (∀ os size, Post Bootstrap.Ends (fun _ => True) (b.allocate true os size s)) ∧
      (∀ os ptr, Served (fun q => q.1 = true ↔ ∃ seg ∈ segs, seg.span.Has ptr)
        (b.ptrInBootstrap os ptr s)) ∧
      ∀ r ∈ given, ∀ os, Served (fun q => q.1 = true) (b.ptrInBootstrap os r.start s) := by
  obtain ⟨⟨segs, hinv⟩, hpos⟩ := h.inv
  have hwithin : ∀ r ∈ given, ∃ seg ∈ segs, r.Within seg.span := by
    intro r hr
    obtain ⟨c, hc, hw⟩ := hinv.arena.within r hr
    obtain ⟨seg, hseg, rfl⟩ := List.mem_map.mp hc
    exact ⟨seg, hseg, hw⟩
  refine ⟨hinv.arena.apart, segs, hinv.keeps.holds.deref, hwithin, hinv.last, ?_, ?_, ?_⟩
  · exact fun os size => hinv.allocate.mono fun _ _ => trivial
  · exact fun os ptr => (hinv.ptrInBootstrap ptr).mono fun _ hq => hq.1
  · intro r hr os
    obtain ⟨seg, hseg, hw⟩ := hwithin r hr
    refine (hinv.ptrInBootstrap r.start).mono fun _ hq => hq.1.mpr ?_
    exact ⟨seg, hseg, hw.has_start (hpos r hr)⟩

/-- A request that fits and one that does not. -/
theorem bootstrap_reserve_two :
    ∃ (b : Bootstrap) (s : State) (p q : Nat),
      Bootstrap.Used true b s [⟨q, 5000⟩, ⟨p, 24⟩] ∧ Span.Apart ⟨q, 5000⟩ ⟨p, 24⟩ := by
  have h : (do
      let (b, s) ← (Bootstrap.new 4096).init Os.bump startState
      let (_, b, s) ← b.allocate true Os.bump 24 s
      b.allocate true Os.bump 5000 s).toOption.isSome = true := by
    decide +kernel
  obtain ⟨⟨q, b₂, s₂⟩, h⟩ := ok_of_isSome h
  obtain ⟨⟨b₀, s₀⟩, h₀, h⟩ := ok_of_bind h
  obtain ⟨⟨p, b₁, s₁⟩, h₁, h₂⟩ := ok_of_bind h
  have hused := ((Bootstrap.Used.init h₀).allocate (by decide) h₁).allocate (by decide) h₂
  obtain ⟨hapart, -⟩ := bootstrap_reserve_sound hused
  exact ⟨b₂, s₂, p, q, hused, (List.pairwise_cons.mp hapart).1 _ (List.mem_singleton_self _)⟩

end Apfmalloc
