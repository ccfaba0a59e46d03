import Apfmalloc.Base.Post
import Apfmalloc.Base.Values
import Apfmalloc.State

/-!
# `RawArray`: a segment as the slots of a buffer

The collections of the crate keep their elements in a segment of their own, which
they ask the segment allocator for. A `RawArray` is that segment; its capacity is the
segment's length in elements. Growing maps a larger one, copies the bytes and unmaps
the old.

The accesses are those of the machine: a load or a store of an element reaches any
mapped address, in the segment or not, and faults at any other. A load whose bytes
are no value of the type is undefined. `Frame` says that a call kept to its own
segment, and every specification here has one.
-/

namespace Apfmalloc

open Base

/-! ## Accesses -/

/-- What ends a call before it returns. -/
inductive Fault
  /-- the `Err` of `allocate(len)` is unwrapped -/
  | refused (len : Nat)
  | exit
  | panic
  /-- an address that nothing is mapped at -/
  | segv
  /-- bytes that are no value of their type -/
  | undefined
  /-- the loop goes on after the rounds it was given -/
  | fuel
  deriving DecidableEq, Repr

/-- The kernel refused memory for at least one byte. -/
def Refusal : Fault → Prop
  | .refused len => 0 < len
  | _ => False

instance (f : Fault) : Decidable (Refusal f) := by
  cases f <;> unfold Refusal <;> infer_instance

/-- The call returns a result with `P`, unless the kernel has no memory for it. -/
abbrev Served {β : Type} (P : β → Prop) (x : Except Fault β) : Prop := Post Refusal P x

def Segment.Has (seg : Segment) (x : Nat) : Prop :=
  seg.ptr ≤ x ∧ x < seg.ptr + regionLen seg.length

instance (seg : Segment) (x : Nat) : Decidable (seg.Has x) := inferInstanceAs (Decidable (_ ∧ _))

/-- All of the `n` bytes from `a` are mapped. -/
def State.covers (s : State) (a n : Nat) : Bool :=
  (List.range n).all fun i => s.mapped.any fun seg => decide (seg.Has (a + i))

section
variable {α : Type} [Elem α]

/-- `ptr.read()` -/
def load (a : Nat) (s : State) : Except Fault α :=
  if s.covers a (Elem.size α) then
    match Elem.read s.mem a with
    | some v => .ok v
    | none => .error .undefined
  else .error .segv

/-- `ptr.write(v)` -/
def store (a : Nat) (v : α) (s : State) : Except Fault State :=
  if s.covers a (Elem.size α) then .ok { s with mem := Elem.write s.mem a v } else .error .segv

/-- `copy_nonoverlapping` of `n` bytes. -/
def copyNonoverlapping (dst src n : Nat) (s : State) : Except Fault State :=
  if s.covers dst n && s.covers src n then .ok { s with mem := copyBytes s.mem dst src n }
  else .error .segv

end

/-- `SEGMENT_ALLOCATOR.allocate(len).unwrap()` -/
def allocateUnwrap (os : Os) (len : Nat) (s : State) : Except Fault (Segment × State) :=
  match segAllocate os len s with
  | none => .error (.refused len)
  | some r => .ok r

/-! ## The buffer -/

structure RawArray (α : Type) where
  segment : Option Segment
  noDealloc : Bool
  deriving DecidableEq, Repr

namespace RawArray

variable {α : Type}

def new : RawArray α := ⟨none, false⟩

def getPtr (r : RawArray α) : Nat :=
  match r.segment with
  | none => 0
  | some seg => seg.ptr

def segs (r : RawArray α) : List Segment := r.segment.toList

/-- The segment is mapped. -/
def Owned (s : State) (r : RawArray α) : Prop := ∀ seg ∈ r.segs, seg ∈ s.mapped ∧ seg.Valid

theorem owned_new (s : State) : Owned s (new : RawArray α) := fun _ hseg => by cases hseg

/-- No other mapping meets the segment. -/
def Alone (s : State) (r : RawArray α) : Prop :=
  ∀ seg ∈ r.segs, ∀ sg ∈ s.mapped.erase seg, sg.Apart seg

/-- Nothing is mapped where the segment is. -/
def Gone (s : State) (r : RawArray α) : Prop := ∀ seg ∈ r.segs, ∀ sg ∈ s.mapped, sg.Apart seg

theorem alone_new (s : State) : Alone s (new : RawArray α) := fun _ hseg => by cases hseg

theorem mem_segs {r : RawArray α} {seg : Segment} (h : r.segment = some seg) : seg ∈ r.segs := by
  rw [segs, h]
  exact List.mem_singleton_self _

/-- `clear` forgets the segment and leaves it mapped. -/
def clear (r : RawArray α) : RawArray α :=
  if r.noDealloc then r else { r with segment := none }

variable [Elem α]

/-- A division by the size of the type, which panics if that is zero. -/
def capacity (r : RawArray α) : Except Fault Nat :=
  match r.segment with
  | none => .ok 0
  | some seg => if Elem.size α = 0 then .error .panic else .ok (seg.length / Elem.size α)

/-- `get_ptr().add(index)` -/
def slot (r : RawArray α) (index : Nat) : Nat := (r.getPtr + index * Elem.size α) % usizeSize

def reserve (os : Os) (newCapacity : Nat) (r : RawArray α) (s : State) :
    Except Fault (RawArray α × State) := do
  let room ← match r.segment with
    | none => .ok false
    | some _ => do
      let capacity ← r.capacity
      .ok (decide (newCapacity < capacity))
  if room then .ok (r, s)
  else do
    -- the product wraps
    let initialSize := newCapacity * Elem.size α % usizeSize
    let actualSize := alignVal initialSize (2 ^ Elem.alignLog α)
    let (newPtr, s) ← allocateUnwrap os actualSize s
    match r.segment with
    | none => .ok ({ r with segment := some newPtr }, s)
    | some old => do
      let s ← copyNonoverlapping newPtr.ptr old.ptr old.length s
      let s := if old.ptr ≠ newPtr.ptr then segDeallocate old s else s
      .ok ({ r with segment := some newPtr }, s)

def withCapacity (os : Os) (capacity : Nat) (s : State) : Except Fault (RawArray α × State) :=
  RawArray.new.reserve os capacity s

def write (index : Nat) (val : α) (r : RawArray α) (s : State) : Except Fault State :=
  store (r.slot index) val s

/-- The number of slots, and what a slot holds. -/
def cap (r : RawArray α) : Nat :=
  match r.segment with
  | none => 0
  | some seg => seg.length / Elem.size α

def cell (s : State) (r : RawArray α) (i : Nat) : Option α := Elem.read s.mem (r.slot i)

/-- The segment is a whole number of elements long. -/
def Exact (r : RawArray α) : Prop := ∀ seg ∈ r.segs, Elem.size α ∣ seg.length

end RawArray

/-! ## What a call leaves alone -/

/-- A call took the segments `o` to the segments `o'` and left every other mapping as it
was. -/
structure Frame (o o' : List Segment) (s s' : State) : Prop where
  kept : ∀ seg ∈ s.mapped, (∀ old ∈ o, seg.Apart old) →
    seg ∈ s'.mapped ∧ (∀ new ∈ o', seg.Apart new) ∧ ∀ x, seg.Has x → s'.mem x = s.mem x
  valid : (∀ seg ∈ s.mapped, seg.Valid) → ∀ seg ∈ s'.mapped, seg.Valid
  rest : s' = { s with mem := s'.mem, mapped := s'.mapped }

theorem Frame.refl (o : List Segment) (s : State) : Frame o o s s :=
  ⟨fun _ hseg hap => ⟨hseg, hap, fun _ _ => rfl⟩, fun h => h, rfl⟩

theorem Frame.trans {o o' o'' : List Segment} {s s' s'' : State} (h : Frame o o' s s')
    (h' : Frame o' o'' s' s'') : Frame o o'' s s'' := by
  refine ⟨fun seg hseg hap => ?_, fun hv => h'.valid (h.valid hv), ?_⟩
  · obtain ⟨hin, hap', hmem⟩ := h.kept seg hseg hap
    obtain ⟨hin', hap'', hmem'⟩ := h'.kept seg hin hap'
    exact ⟨hin', hap'', fun x hx => (hmem' x hx).trans (hmem x hx)⟩
  · rw [h'.rest, h.rest]

/-- What the call did not touch can be counted among its own. -/
theorem Frame.append {o o' : List Segment} {s s' : State} (h : Frame o o' s s')
    (x : List Segment) : Frame (o ++ x) (o' ++ x) s s' := by
  refine ⟨fun seg hseg hap => ?_, h.valid, h.rest⟩
  obtain ⟨hin, hap', hmem⟩ := h.kept seg hseg fun old hold => hap old (List.mem_append_left _ hold)
  refine ⟨hin, fun new hnew => ?_, hmem⟩
  rcases List.mem_append.mp hnew with hnew | hnew
  · exact hap' new hnew
  · exact hap new (List.mem_append_right _ hnew)

/-- More may be named as touched, and less of what is left. -/
theorem Frame.mono {o o' p p' : List Segment} {s s' : State} (h : Frame o o' s s')
    (ho : ∀ seg ∈ o, seg ∈ p) (ho' : ∀ seg ∈ p', seg ∈ o') : Frame p p' s s' := by
  refine ⟨fun seg hseg hap => ?_, h.valid, h.rest⟩
  obtain ⟨hin, hap', hmem⟩ := h.kept seg hseg fun old hold => hap old (ho old hold)
  exact ⟨hin, fun new hnew => hap' new (ho' new hnew), hmem⟩

theorem State.covers_iff {s : State} {a n : Nat} :
    s.covers a n = true ↔ ∀ i < n, ∃ seg ∈ s.mapped, seg.Has (a + i) := by
  simp only [State.covers, List.all_eq_true, List.mem_range, List.any_eq_true, decide_eq_true_eq]

theorem State.covers_segment {s : State} {a n : Nat} {seg : Segment} (hseg : seg ∈ s.mapped)
    (hlo : seg.ptr ≤ a) (hhi : a + n ≤ seg.ptr + regionLen seg.length) : s.covers a n = true := by
  rw [State.covers_iff]
  intro i hi
  exact ⟨seg, hseg, by omega, by omega⟩

/-- A mapping that is apart from `seg` has none of its addresses. -/
theorem Segment.Apart.not_has {seg seg' : Segment} {x : Nat} (h : seg.Apart seg')
    (hx : seg.Has x) : x < seg'.ptr ∨ seg'.ptr + regionLen seg'.length ≤ x := by
  rcases h with h | h
  · exact Or.inl (Nat.lt_of_lt_of_le hx.2 h)
  · exact Or.inr (Nat.le_trans h hx.1)

/-- Two mappings apart from each other do not start at one address. -/
theorem Segment.Apart.ptr_ne {seg old : Segment} (h : seg.Apart old) (hv : seg.Valid)
    (hold : old.Valid) : old.ptr ≠ seg.ptr := by
  have h₁ := (regionLen_bounds seg.length).1
  have h₂ := (regionLen_bounds old.length).1
  have h₃ := hv.length_pos
  have h₄ := hold.length_pos
  rcases h with h | h <;> omega

/-- Writes inside the segment are framed. -/
theorem Frame.of_mem {o : List Segment} {s : State} {m : Mem}
    (h : ∀ x, (∀ seg ∈ o, x < seg.ptr ∨ seg.ptr + regionLen seg.length ≤ x) → m x = s.mem x) :
    Frame o o s { s with mem := m } :=
  ⟨fun _ hseg hap => ⟨hseg, hap, fun _ hx => h _ fun old hold => (hap old hold).not_has hx⟩,
    fun hv => hv, rfl⟩

/-! ## Slots -/

namespace RawArray

variable {α : Type} [Elem α] {r r' : RawArray α} {s s' : State} {i j : Nat} {v : α}

theorem capacity_eq (hsz : 0 < Elem.size α) (r : RawArray α) : r.capacity = .ok r.cap := by
  unfold capacity cap
  cases r.segment with
  | none => rfl
  | some seg =>
    simp only
    rw [if_neg (Nat.ne_of_gt hsz)]

/-- A slot lies in the segment. -/
theorem Owned.slot (h : Owned s r) (hi : i < r.cap) :
    ∃ seg, r.segment = some seg ∧ seg ∈ s.mapped ∧ r.slot i = seg.ptr + i * Elem.size α ∧
      seg.ptr + i * Elem.size α + Elem.size α ≤ seg.ptr + seg.length ∧
      seg.ptr + seg.length ≤ addrSpace := by
  unfold cap at hi
  cases hseg : r.segment with
  | none =>
    rw [hseg] at hi
    cases hi
  | some seg =>
    obtain ⟨hin, hv⟩ := h seg (mem_segs hseg)
    rw [hseg] at hi
    have hle : (i + 1) * Elem.size α ≤ seg.length :=
      Nat.le_trans (Nat.mul_le_mul_right _ hi) (Nat.div_mul_le_self _ _)
    rw [Nat.add_mul, Nat.one_mul] at hle
    have hb := hv.bound
    have hreg := (regionLen_bounds seg.length).1
    refine ⟨seg, rfl, hin, ?_, by omega, by omega⟩
    rw [RawArray.slot, getPtr, hseg]
    refine Nat.mod_eq_of_lt (Nat.lt_of_le_of_lt (?_ : _ ≤ addrSpace) (by decide))
    show seg.ptr + i * Elem.size α ≤ addrSpace
    omega

/-- The slot behind one that is in the segment. -/
theorem Owned.slot_succ (h : Owned s r) (hi : i < r.cap) :
    r.slot (i + 1) = r.slot i + Elem.size α := by
  obtain ⟨seg, hseg, -, hslot, hend, hspace⟩ := h.slot hi
  rw [hslot, RawArray.slot, getPtr, hseg, Nat.succ_mul, ← Nat.add_assoc]
  exact Nat.mod_eq_of_lt (Nat.lt_of_le_of_lt (Nat.le_trans hend hspace) (by decide))

/-- Different slots do not overlap. -/
theorem Owned.slot_apart (h : Owned s r) (hi : i < r.cap) (hj : j < r.cap) (hne : i ≠ j) :
    r.slot i + Elem.size α ≤ r.slot j ∨ r.slot j + Elem.size α ≤ r.slot i := by
  obtain ⟨seg, hseg, -, hsi, -⟩ := h.slot hi
  obtain ⟨seg', hseg', -, hsj, -⟩ := h.slot hj
  rw [hseg] at hseg'
  cases hseg'
  rw [hsi, hsj]
  rcases Nat.lt_or_gt_of_ne hne with hlt | hlt
  · have hle := Nat.mul_le_mul_right (Elem.size α) hlt
    rw [Nat.succ_mul] at hle
    exact Or.inl (by omega)
  · have hle := Nat.mul_le_mul_right (Elem.size α) hlt
    rw [Nat.succ_mul] at hle
    exact Or.inr (by omega)

theorem Owned.covers (h : Owned s r) (hi : i < r.cap) :
    s.covers (r.slot i) (Elem.size α) = true := by
  obtain ⟨seg, -, hin, hslot, hend, -⟩ := h.slot hi
  have hreg := (regionLen_bounds seg.length).1
  rw [hslot]
  exact State.covers_segment hin (Nat.le_add_right _ _) (by omega)

theorem load_of_covers {a : Nat} (h : s.covers a (Elem.size α) = true)
    (hv : Elem.read s.mem a = some v) : load a s = .ok v := by
  rw [load, if_pos h, hv]

theorem Owned.load (h : Owned s r) (hi : i < r.cap) (hv : r.cell s i = some v) :
    load (r.slot i) s = .ok v :=
  load_of_covers (h.covers hi) hv

/-- **A write** changes its slot only. -/
theorem Owned.write (h : Owned s r) (hi : i < r.cap) (v : α) :
    ∃ s', r.write i v s = .ok s' ∧ Owned s' r ∧ r.cell s' i = some v ∧
      (∀ j < r.cap, j ≠ i → r.cell s' j = r.cell s j) ∧ Frame r.segs r.segs s s' := by
  obtain ⟨seg, hseg, -, hslot, hend, -⟩ := h.slot hi
  have hreg := (regionLen_bounds seg.length).1
  refine ⟨{ s with mem := Elem.write s.mem (r.slot i) v }, ?_, h, Elem.read_write _ _ _, ?_, ?_⟩
  · rw [RawArray.write, store, if_pos (h.covers hi)]
  · intro j hj hne
    exact Elem.read_write_ne (h.slot_apart hj hi hne)
  · refine Frame.of_mem fun x hx => Elem.write_out ?_
    have := hx seg (mem_segs hseg)
    omega

/-- And it maps nothing. -/
theorem write_mapped (h : r.write i v s = .ok s') : s'.mapped = s.mapped := by
  unfold RawArray.write store at h
  split at h
  next =>
    cases h
    rfl
  next => cases h

/-- What another call leaves alone. -/
theorem Owned.frame {o o' : List Segment} (h : Owned s r) (hf : Frame o o' s s')
    (hap : ∀ seg ∈ r.segs, ∀ old ∈ o, seg.Apart old) :
    Owned s' r ∧ (∀ i < r.cap, r.cell s' i = r.cell s i) ∧
      ∀ seg ∈ r.segs, ∀ new ∈ o', seg.Apart new := by
  refine ⟨fun seg hseg => ?_, fun i hi => ?_, fun seg hseg => ?_⟩
  · obtain ⟨hin, hv⟩ := h seg hseg
    exact ⟨(hf.kept seg hin (hap seg hseg)).1, hv⟩
  · obtain ⟨seg, hseg, hin, hslot, hend, -⟩ := h.slot hi
    have hreg := (regionLen_bounds seg.length).1
    refine Elem.read_congr fun k hk => (hf.kept seg hin (hap seg (mem_segs hseg))).2.2 _ ?_
    rw [hslot]
    exact ⟨by omega, by omega⟩
  · exact (hf.kept seg (h seg hseg).1 (hap seg hseg)).2.1

/-! ## Growth -/

/-- The length asked for is not rounded: elements are a multiple of their alignment. -/
theorem alignVal_bytes (α : Type) [Elem α] (n : Nat) :
    alignVal (n * Elem.size α % usizeSize) (2 ^ Elem.alignLog α) = n * Elem.size α % usizeSize := by
  have hk := Elem.align_lt (α := α)
  have hdvd : 2 ^ Elem.alignLog α ∣ n * Elem.size α % usizeSize :=
    (Nat.dvd_mod_iff (Nat.pow_dvd_pow 2 (by omega : Elem.alignLog α ≤ 64))).mpr
      (Nat.dvd_mul_left_of_dvd Elem.align_dvd n)
  refine alignVal_of_dvd (by omega) ?_ hdvd
  -- the next multiple is at most `2^64`, which is one too
  have hlt : n * Elem.size α % usizeSize < usizeSize := Nat.mod_lt _ (by decide)
  have hdvd' : 2 ^ Elem.alignLog α ∣ usizeSize - n * Elem.size α % usizeSize :=
    Nat.dvd_sub (Nat.pow_dvd_pow 2 (by omega : Elem.alignLog α ≤ 64)) hdvd
  have := Nat.le_of_dvd (by omega) hdvd'
  omega

theorem exact_new : (new : RawArray α).Exact := fun _ hseg => by cases hseg

/-- The first segment. -/
theorem reserve_none (os : Os) (n : Nat) (hseg : r.segment = none) (s : State) :
    r.reserve os n s =
      (allocateUnwrap os (n * Elem.size α % usizeSize) s).map fun q =>
        ({ r with segment := some q.1 }, q.2) := by
  unfold reserve
  simp only [alignVal_bytes, hseg]
  cases allocateUnwrap os (n * Elem.size α % usizeSize) s <;> rfl

/-- A fresh segment in the state that `allocate` leaves. -/
theorem allocateUnwrap_served {os : Os} {len : Nat} (hpos : 0 < len) :
    Served (fun q => q.1.length = len ∧ q.1.Valid ∧ (∀ seg ∈ s.mapped, q.1.Apart seg) ∧
      q.2 = { s with mapped := q.1 :: s.mapped,
                     mem := zeroFill s.mem q.1.ptr (regionLen len) }) (allocateUnwrap os len s) := by
  unfold allocateUnwrap
  cases hseg : segAllocate os len s with
  | none => exact hpos
  | some q => exact segAllocate_cases hseg

theorem allocateUnwrap_cases {os : Os} {len : Nat} {seg : Segment}
    (h : allocateUnwrap os len s = .ok (seg, s')) :
    seg.length = len ∧ seg.Valid ∧ (∀ sg ∈ s.mapped, seg.Apart sg) ∧
      s' = { s with mapped := seg :: s.mapped, mem := zeroFill s.mem seg.ptr (regionLen len) } := by
  unfold allocateUnwrap at h
  split at h
  next => cases h
  next q hq =>
    cases h
    exact segAllocate_cases hq

/-- The buffer of a new array, also with a capacity whose bytes wrap. -/
theorem withCapacity_owned {os : Os} {n : Nat} (h : withCapacity os n s = .ok (r, s')) :
    Owned s' r := by
  rw [withCapacity, reserve_none os n rfl] at h
  obtain ⟨⟨seg, s₁⟩, ha, heq⟩ := map_eq_ok.mp h
  cases heq
  obtain ⟨-, hv, -, rfl⟩ := allocateUnwrap_cases ha
  intro sg hsg
  obtain rfl := List.mem_singleton.mp hsg
  exact ⟨List.mem_cons_self .., hv⟩

/-- What `reserve` returns. -/
structure Reserved (r : RawArray α) (n : Nat) (s : State) (q : RawArray α × State) : Prop where
  owned : Owned q.2 q.1
  exact : q.1.Exact
  cap : q.1.cap = n
  noDealloc : q.1.noDealloc = r.noDealloc
  segment : q.1.segment.isSome
  cell : ∀ i < r.cap, q.1.cell q.2 i = r.cell s i
  /-- behind what was copied -/
  zero : ∀ seg ∈ q.1.segs, ∀ k < regionLen seg.length, (∀ old ∈ r.segs, old.length ≤ k) →
    q.2.mem (seg.ptr + k) = 0
  frame : Frame r.segs q.1.segs s q.2

/-- A fresh mapping has no address of the old ones. -/
theorem zeroFill_kept {seg seg' : Segment} {m : Mem} {x : Nat} (hap : seg'.Apart seg)
    (hx : seg.Has x) : zeroFill m seg'.ptr (regionLen seg'.length) x = m x :=
  zeroFill_out (hap.symm.not_has hx)

theorem reserved_first {seg : Segment} {n : Nat} (hsz : 0 < Elem.size α) (hnone : r.segment = none)
    (hlen : seg.length = n * Elem.size α) (hv : seg.Valid) (hap : ∀ sg ∈ s.mapped, seg.Apart sg) :
    Reserved r n s ({ r with segment := some seg },
      { s with mapped := seg :: s.mapped,
               mem := zeroFill s.mem seg.ptr (regionLen seg.length) }) where
  owned sg hsg := by
    obtain rfl := List.mem_singleton.mp hsg
    exact ⟨List.mem_cons_self .., hv⟩
  exact sg hsg := by
    obtain rfl := List.mem_singleton.mp hsg
    exact ⟨n, by rw [hlen, Nat.mul_comm]⟩
  cap := by
    show seg.length / Elem.size α = n
    rw [hlen, Nat.mul_div_cancel n hsz]
  noDealloc := rfl
  segment := rfl
  cell i hi := by
    unfold RawArray.cap at hi
    rw [hnone] at hi
    cases hi
  zero sg hsg k hk _ := by
    obtain rfl := List.mem_singleton.mp hsg
    show zeroFill _ _ _ _ = _
    rw [zeroFill, if_pos (by omega)]
  frame := by
    refine ⟨fun sg hsg _ => ⟨List.mem_cons_of_mem _ hsg, ?_, ?_⟩, fun hv' sg hsg => ?_, rfl⟩
    · intro new hnew
      obtain rfl := List.mem_singleton.mp hnew
      exact (hap sg hsg).symm
    · exact fun x hx => zeroFill_kept (hap sg hsg) hx
    · rcases List.mem_cons.mp hsg with rfl | hsg
      · exact hv
      · exact hv' sg hsg

/-- The bytes go to the new segment and the old one is unmapped. -/
def moved (s : State) (seg old : Segment) : State :=
  segDeallocate old
    { s with mapped := seg :: s.mapped,
             mem := copyBytes (zeroFill s.mem seg.ptr (regionLen seg.length)) seg.ptr old.ptr
               old.length }

/-- A mapping apart from both has its bytes still. -/
theorem moved_mem {seg old sg : Segment} {x : Nat} (hlen : old.length ≤ seg.length)
    (hap : seg.Apart sg) (hx : sg.Has x) : (moved s seg old).mem x = s.mem x := by
  have hreg := (regionLen_bounds seg.length).1
  have hout := hap.symm.not_has hx
  show copyBytes _ _ _ _ _ = _
  rw [copyBytes_out (by omega)]
  exact zeroFill_out hout

theorem reserved_moved {seg old : Segment} {n : Nat} (h : Owned s r) (hsz : 0 < Elem.size α)
    (hold : r.segment = some old) (hle : old.length ≤ seg.length)
    (hlen : seg.length = n * Elem.size α) (hv : seg.Valid)
    (hap : ∀ sg ∈ s.mapped, seg.Apart sg) :
    Reserved r n s ({ r with segment := some seg }, moved s seg old) := by
  obtain ⟨hin, hvold⟩ := h old (mem_segs hold)
  have hne : seg ≠ old := fun he => hv.not_apart_self (he ▸ hap old hin)
  have hseg : seg ∈ (moved s seg old).mapped :=
    (List.mem_erase_of_ne hne).mpr (List.mem_cons_self ..)
  have howned : Owned (moved s seg old) ({ r with segment := some seg } : RawArray α) := by
    intro sg hsg
    obtain rfl := List.mem_singleton.mp hsg
    exact ⟨hseg, hv⟩
  have hcap' : ({ r with segment := some seg } : RawArray α).cap = n := by
    show seg.length / Elem.size α = n
    rw [hlen, Nat.mul_div_cancel n hsz]
  refine ⟨howned, fun sg hsg => ?_, hcap', rfl, rfl, fun i hi => ?_, fun sg hsg k hk hcopied => ?_,
    fun sg hsg hapo => ⟨?_, ?_, ?_⟩, ?_, rfl⟩
  · obtain rfl := List.mem_singleton.mp hsg
    exact ⟨n, by rw [hlen, Nat.mul_comm]⟩
  · -- a copied slot, byte for byte
    obtain ⟨sg, hsg, -, hslot, hend, -⟩ := h.slot hi
    rw [hold] at hsg
    cases hsg
    have hin' : i < ({ r with segment := some seg } : RawArray α).cap := by
      rw [cap, hold] at hi
      exact Nat.lt_of_lt_of_le hi (Nat.div_le_div_right hle)
    obtain ⟨sg, hsg, -, hslot', -, -⟩ := howned.slot hin'
    cases hsg
    have hreg := (regionLen_bounds old.length).1
    refine Elem.read_congr fun k hk => ?_
    show copyBytes _ _ _ _ _ = _
    rw [hslot', hslot, Nat.add_assoc, copyBytes_in (by omega)]
    rw [zeroFill_kept (hap old hin) ⟨by omega, by omega⟩, Nat.add_assoc]
  · obtain rfl := List.mem_singleton.mp hsg
    have hk' := hcopied old (mem_segs hold)
    show copyBytes _ _ _ _ _ = _
    rw [copyBytes_out (by omega), zeroFill, if_pos (by omega)]
  · refine (List.mem_erase_of_ne fun he => ?_).mpr (List.mem_cons_of_mem _ hsg)
    exact hvold.not_apart_self (he ▸ hapo old (mem_segs hold))
  · intro new hnew
    obtain rfl := List.mem_singleton.mp hnew
    exact (hap sg hsg).symm
  · exact fun x hx => moved_mem hle (hap sg hsg) hx
  · intro hv' sg hsg
    rcases List.mem_cons.mp (List.mem_of_mem_erase hsg) with rfl | hsg
    · exact hv
    · exact hv' sg hsg

/-- What is asked for holds the old segment: when there is one slot more, -/
theorem bytes_of_lt {n : Nat} (hsz : 0 < Elem.size α) (h : r.cap < n) :
    ∀ seg ∈ r.segs, seg.length ≤ n * Elem.size α := by
  intro seg hseg
  have hcap : r.cap = seg.length / Elem.size α := by
    rw [cap, Option.mem_toList.mp hseg]
  have hlt := Nat.lt_mul_div_succ seg.length hsz
  rw [← hcap, Nat.mul_comm] at hlt
  exact Nat.le_of_lt (Nat.lt_of_lt_of_le hlt (Nat.mul_le_mul_right _ h))

/-- or when the old one has no bytes left over. -/
theorem Exact.bytes {n : Nat} (hx : r.Exact) (h : r.cap ≤ n) :
    ∀ seg ∈ r.segs, seg.length ≤ n * Elem.size α := by
  intro seg hseg
  have hcap : r.cap = seg.length / Elem.size α := by
    rw [cap, Option.mem_toList.mp hseg]
  rw [← Nat.div_mul_cancel (hx seg hseg), ← hcap]
  exact Nat.mul_le_mul_right _ h

/-- A move to a new segment. -/
theorem reserve_some {os : Os} {n : Nat} {old : Segment} (hsz : 0 < Elem.size α)
    (hold : r.segment = some old) (hn : r.cap ≤ n) :
    r.reserve os n s = (do
      let q ← allocateUnwrap os (n * Elem.size α % usizeSize) s
      let s ← copyNonoverlapping q.1.ptr old.ptr old.length q.2
      let s := if old.ptr ≠ q.1.ptr then segDeallocate old s else s
      .ok ({ r with segment := some q.1 }, s)) := by
  unfold RawArray.reserve
  simp only [hold, capacity_eq hsz, alignVal_bytes]
  show (if decide (n < r.cap) = true then _ else _) = _
  rw [if_neg (by rw [decide_eq_true_eq]; exact Nat.not_lt.mpr hn)]

/-- **`reserve`** gives the slots asked for and keeps what the old ones hold. -/
theorem Owned.reserve {os : Os} {n : Nat} (h : Owned s r) (hsz : 0 < Elem.size α)
    (hbytes : ∀ seg ∈ r.segs, seg.length ≤ n * Elem.size α) (hpos : 0 < n)
    (hfit : n * Elem.size α < usizeSize) : Served (Reserved r n s) (r.reserve os n s) := by
  have hlen : 0 < n * Elem.size α := Nat.mul_pos hpos hsz
  have hs := @allocateUnwrap_served s os _ hlen
  cases hseg : r.segment with
  | none =>
    rw [reserve_none os n hseg, Nat.mod_eq_of_lt hfit]
    cases ha : allocateUnwrap os (n * Elem.size α) s with
    | error e =>
      rw [ha] at hs
      exact hs
    | ok q =>
      rw [ha] at hs
      obtain ⟨seg, s₁⟩ := q
      obtain ⟨hl, hv, hap, hs₁⟩ := hs
      simp only at hl hv hap hs₁
      rw [← hl] at hs₁
      subst hs₁
      exact reserved_first hsz hseg hl hv hap
  | some old =>
    obtain ⟨hin, hvold⟩ := h old (mem_segs hseg)
    have hold := hbytes old (mem_segs hseg)
    have hn : r.cap ≤ n := by
      rw [cap, hseg]
      exact Nat.div_le_of_le_mul (by rw [Nat.mul_comm]; exact hold)
    rw [reserve_some hsz hseg hn, Nat.mod_eq_of_lt hfit]
    refine Post.bind hs fun q hq => ?_
    obtain ⟨seg, s₁⟩ := q
    obtain ⟨hl, hv, hap, hs₁⟩ := hq
    simp only at hl hv hap hs₁
    rw [← hl] at hs₁
    subst hs₁
    have hle : old.length ≤ seg.length := hl ▸ hold
    have hreg₁ := (regionLen_bounds seg.length).1
    have hreg₂ := (regionLen_bounds old.length).1
    -- both ends of the copy are mapped
    simp only [copyNonoverlapping]
    rw [State.covers_segment (List.mem_cons_self ..) (Nat.le_refl _) (by omega),
      State.covers_segment (List.mem_cons_of_mem _ hin) (Nat.le_refl _) (by omega)]
    have hmoved := reserved_moved h hsz hseg hle hl hv hap
    show Served _ (.ok ({ r with segment := some seg }, if old.ptr ≠ seg.ptr then _ else _))
    rw [if_pos ((hap old hin).ptr_ne hv hvold)]
    exact hmoved

/-- **What is mapped** after a growth: a new segment in place of the old one. -/
theorem reserve_mapped {os : Os} {n : Nat} (h : Owned s r) (hsz : 0 < Elem.size α)
    (hn : r.cap ≤ n) (hres : r.reserve os n s = .ok (r', s')) :
    ∃ seg rest, r'.segment = some seg ∧ s'.mapped = seg :: rest ∧
      (∀ sg ∈ s.mapped, seg.Apart sg) ∧
      ∀ sg ∈ rest, sg ∈ s.mapped ∧ ∀ old ∈ r.segs, sg ∈ s.mapped.erase old := by
  cases hseg : r.segment with
  | none =>
    rw [reserve_none os n hseg] at hres
    obtain ⟨⟨seg, s₁⟩, ha, heq⟩ := map_eq_ok.mp hres
    cases heq
    obtain ⟨-, -, hap, rfl⟩ := allocateUnwrap_cases ha
    refine ⟨seg, s.mapped, rfl, rfl, hap, fun sg hsg => ⟨hsg, fun old hold => ?_⟩⟩
    rw [segs, hseg] at hold
    cases hold
  | some old =>
    obtain ⟨hin, hvold⟩ := h old (mem_segs hseg)
    rw [reserve_some hsz hseg hn] at hres
    obtain ⟨⟨seg, s₁⟩, ha, hres⟩ := ok_of_bind hres
    obtain ⟨s₂, hcopy, hres⟩ := ok_of_bind hres
    obtain ⟨-, hv, hap, rfl⟩ := allocateUnwrap_cases ha
    have hne : seg ≠ old := fun he => hv.not_apart_self (he ▸ hap old hin)
    unfold copyNonoverlapping at hcopy
    split at hcopy
    next =>
      cases hcopy
      simp only [if_pos ((hap old hin).ptr_ne hv hvold)] at hres
      cases hres
      refine ⟨seg, s.mapped.erase old, rfl, List.erase_cons_tail (by simpa using hne), hap,
        fun sg hsg => ⟨List.mem_of_mem_erase hsg, fun old' hold => ?_⟩⟩
      rw [segs, hseg] at hold
      obtain rfl := List.mem_singleton.mp hold
      exact hsg
    next => cases hcopy

/-- A buffer that grew has left its old place for good. -/
theorem Alone.reserve {os : Os} {n : Nat} (h : Alone s r) (howned : Owned s r)
    (hsz : 0 < Elem.size α) (hn : r.cap ≤ n) (hres : r.reserve os n s = .ok (r', s')) :
    Alone s' r' ∧ Gone s' r := by
  obtain ⟨seg, rest, hseg, hmapped, hap, hrest⟩ := reserve_mapped howned hsz hn hres
  refine ⟨fun sg hsg x hx => ?_, fun old hold sg hsg => ?_⟩
  · rw [segs, hseg] at hsg
    obtain rfl := List.mem_singleton.mp hsg
    rw [hmapped, List.erase_cons_head] at hx
    exact (hap x (hrest x hx).1).symm
  · rw [hmapped] at hsg
    rcases List.mem_cons.mp hsg with rfl | hsg
    · exact hap old (howned old hold).1
    · exact h old hold sg ((hrest sg hsg).2 old hold)

/-- There is room already. -/
theorem reserve_room {os : Os} {n : Nat} (hsz : 0 < Elem.size α) (hn : n < r.cap) :
    r.reserve os n s = .ok (r, s) := by
  unfold RawArray.reserve
  cases hseg : r.segment with
  | none =>
    unfold cap at hn
    rw [hseg] at hn
    cases hn
  | some seg =>
    simp only [capacity_eq hsz, ok_bind, decide_eq_true hn, if_true]

/-! ## Ranges of slots -/

/-- The elements of `n` slots from `i` on. -/
def loads (r : RawArray α) : Nat → Nat → State → Except Fault (List α)
  | _, 0, _ => .ok []
  | i, n + 1, s => do
    let x ← Apfmalloc.load (r.slot i) s
    let l ← r.loads (i + 1) n s
    .ok (x :: l)

/-- One element a slot, from `i` on. -/
def stores (r : RawArray α) : Nat → List α → State → Except Fault State
  | _, [], s => .ok s
  | i, x :: l, s => do
    let s ← r.write i x s
    r.stores (i + 1) l s

theorem Owned.loads (h : Owned s r) : ∀ (l : List α) (k : Nat), k + l.length ≤ r.cap →
    (∀ i < l.length, r.cell s (k + i) = l[i]?) → r.loads k l.length s = .ok l := by
  intro l
  induction l with
  | nil =>
    intro k _ _
    rfl
  | cons x l ih =>
    intro k hk hcell
    rw [List.length_cons] at hk
    have hx := hcell 0 (Nat.succ_pos _)
    rw [Nat.add_zero, List.getElem?_cons_zero] at hx
    have hl : ∀ i < l.length, r.cell s (k + 1 + i) = l[i]? := by
      intro i hi
      have := hcell (i + 1) (Nat.succ_lt_succ hi)
      rwa [List.getElem?_cons_succ, show k + (i + 1) = k + 1 + i by omega] at this
    rw [List.length_cons, RawArray.loads, h.load (by omega) hx]
    show (do let l ← r.loads (k + 1) l.length s; Except.ok (x :: l)) = _
    rw [ih (k + 1) (by omega) hl]
    rfl

/-- **A range of writes** changes its slots only. -/
theorem Owned.stores : ∀ (l : List α) {s : State} (k : Nat), Owned s r → k + l.length ≤ r.cap →
    ∃ s', r.stores k l s = .ok s' ∧ Owned s' r ∧ (∀ i < l.length, r.cell s' (k + i) = l[i]?) ∧
      (∀ j < r.cap, j < k ∨ k + l.length ≤ j → r.cell s' j = r.cell s j) ∧
      Frame r.segs r.segs s s' := by
  intro l
  induction l with
  | nil =>
    intro s k h _
    exact ⟨s, rfl, h, fun i hi => absurd hi (Nat.not_lt_zero i), fun _ _ _ => rfl,
      Frame.refl _ _⟩
  | cons x l ih =>
    intro s k h hk
    rw [List.length_cons] at hk
    obtain ⟨s₁, hw, h₁, hx, hother, hf₁⟩ := h.write (by omega : k < r.cap) x
    obtain ⟨s₂, hs, h₂, hcell, hout, hf₂⟩ := ih (k + 1) h₁ (by omega)
    refine ⟨s₂, ?_, h₂, fun i hi => ?_, fun j hj hne => ?_, hf₁.trans hf₂⟩
    · rw [RawArray.stores, hw]
      exact hs
    · cases i with
      | zero => rw [Nat.add_zero, hout k (by omega) (by omega), hx, List.getElem?_cons_zero]
      | succ i =>
        rw [List.length_cons] at hi
        rw [show k + (i + 1) = k + 1 + i by omega, hcell i (by omega), List.getElem?_cons_succ]
    · rw [List.length_cons] at hne
      rw [hout j hj (by omega), hother j hj (by omega)]

/-- A buffer fits the address space. -/
theorem Owned.cap_bytes (h : Owned s r) : r.cap * Elem.size α < addrSpace := by
  unfold cap
  cases hseg : r.segment with
  | none =>
    rw [Nat.zero_mul]
    decide
  | some seg =>
    obtain ⟨-, hv⟩ := h seg (mem_segs hseg)
    have hb := hv.bound
    have hp := hv.pos
    have hreg := (regionLen_bounds seg.length).1
    exact Nat.lt_of_le_of_lt (Nat.div_mul_le_self _ _) (by omega)

theorem Owned.capacity_lt {c : Nat} (h : Owned s r) (hc : r.capacity = .ok c) : c < addrSpace := by
  unfold capacity at hc
  cases hseg : r.segment with
  | none =>
    rw [hseg] at hc
    cases hc
    decide
  | some seg =>
    obtain ⟨-, hv⟩ := h seg (mem_segs hseg)
    have hb := hv.bound
    have hp := hv.pos
    have hreg := (regionLen_bounds seg.length).1
    rw [hseg] at hc
    simp only at hc
    split at hc
    · cases hc
    · cases hc
      exact Nat.lt_of_le_of_lt (Nat.div_le_self _ _) (by omega)

/-! ## Slots that nothing is mapped at -/

/-- The first slot with `2^48` bytes before it, where the array ends at the latest. -/
def endSlot (α : Type) [Elem α] : Nat := addrSpace / Elem.size α + 1

theorem endSlot_bytes (hsz : 0 < Elem.size α) :
    addrSpace < endSlot α * Elem.size α ∧ endSlot α * Elem.size α ≤ addrSpace + Elem.size α := by
  have h₁ := Nat.div_mul_le_self addrSpace (Elem.size α)
  have h₂ := Nat.lt_mul_div_succ addrSpace hsz
  rw [Nat.mul_comm] at h₂
  refine ⟨h₂, ?_⟩
  rw [endSlot, Nat.succ_mul]
  omega

theorem endSlot_le (α : Type) [Elem α] : endSlot α ≤ addrSpace + 1 :=
  Nat.succ_le_succ (Nat.div_le_self _ _)

theorem slot_endSlot (hsz : 0 < Elem.size α) (h₀ : r.slot 0 < addrSpace) :
    addrSpace ≤ r.slot (endSlot α) := by
  obtain ⟨h₁, h₂⟩ := endSlot_bytes hsz
  have hsize := Elem.size_lt (α := α)
  have hspace : addrSpace = 281474976710656 := rfl
  have hu := usizeSize_eq
  unfold slot at *
  rw [Nat.zero_mul, Nat.add_zero] at h₀
  generalize endSlot α * Elem.size α = x at *
  generalize r.getPtr = p at *
  rw [hu] at *
  omega

theorem covers_lt (hv : ∀ seg ∈ s.mapped, seg.Valid) {x n : Nat} (hn : 0 < n)
    (h : s.covers x n = true) : x < addrSpace := by
  obtain ⟨seg, hseg, hx⟩ := State.covers_iff.mp h 0 hn
  exact Nat.lt_of_lt_of_le hx.2 (hv seg hseg).bound

/-- A range of writes that comes to its end was mapped all along. -/
theorem stores_covers : ∀ (l : List α) {k : Nat} {s s' : State}, r.stores k l s = .ok s' →
    ∀ i < l.length, s.covers (r.slot (k + i)) (Elem.size α) = true := by
  intro l
  induction l with
  | nil =>
    intro k s s' _ i hi
    exact absurd hi (Nat.not_lt_zero i)
  | cons x l ih =>
    intro k s s' h i hi
    rw [stores, RawArray.write, store] at h
    by_cases hc : s.covers (r.slot k) (Elem.size α) = true
    · rw [if_pos hc] at h
      cases i with
      | zero => exact hc
      | succ i =>
        have := ih h i (Nat.lt_of_succ_lt_succ hi)
        rwa [show k + (i + 1) = k + 1 + i by omega]
    · rw [if_neg hc] at h
      cases h

theorem stores_error : ∀ (l : List α) {k : Nat} {s : State} {e : Fault},
    r.stores k l s = .error e → e = .segv := by
  intro l
  induction l with
  | nil =>
    intro k s e h
    cases h
  | cons x l ih =>
    intro k s e h
    rw [stores, RawArray.write, store] at h
    by_cases hc : s.covers (r.slot k) (Elem.size α) = true
    · rw [if_pos hc] at h
      exact ih h
    · rw [if_neg hc] at h
      cases h
      rfl

/-- More elements than there are addresses. -/
theorem stores_segv (hsz : 0 < Elem.size α) (hv : ∀ seg ∈ s.mapped, seg.Valid) {l : List α}
    (hlen : endSlot α < l.length) : r.stores 0 l s = .error .segv := by
  cases h : r.stores 0 l s with
  | error e => rw [stores_error l h]
  | ok s' =>
    have hall := stores_covers l h
    simp only [Nat.zero_add] at hall
    have h₀ := covers_lt hv hsz (hall 0 (by omega))
    have h₁ := covers_lt hv hsz (hall _ hlen)
    exact absurd (slot_endSlot hsz h₀) (Nat.not_le.mpr h₁)

end RawArray

end Apfmalloc
