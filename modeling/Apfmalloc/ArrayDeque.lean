import Apfmalloc.ArrayIter

/-!
# `array.rs`: `ArrayDeque`

A window `[start, stop)` of the slots of a buffer (`stop` is `end` in the source). It
grows at the back by doubling the buffer, and at the front by doubling it and moving
everything up by the old capacity; a window that gets empty is put back in the middle.

As a queue this is right, for elements of at least one byte (`deque_queue_iff`). With
`pop_back` it is not: `get_end_ptr` is the slot behind the last element, and what is read
there is whatever an earlier element, or the kernel, left in it.
-/

namespace Apfmalloc

open Base

/-- `a - b` on `usize`. -/
def usizeSub (a b : Nat) : Nat := (a + usizeSize - b) % usizeSize

theorem usizeSub_of_le {a b : Nat} (hle : b ≤ a) (hlt : a < usizeSize) : usizeSub a b = a - b := by
  rw [usizeSub, show a + usizeSize - b = a - b + usizeSize by omega, Nat.add_mod_right]
  exact Nat.mod_eq_of_lt (by omega)

structure ArrayDeque (α : Type) where
  raw : RawArray α
  start : Nat
  stop : Nat
  deriving DecidableEq, Repr

namespace ArrayDeque

variable {α : Type}

def new : ArrayDeque α := ⟨RawArray.new, 0, 0⟩

def len (d : ArrayDeque α) : Nat := usizeSub d.stop d.start

def isEmpty (d : ArrayDeque α) : Bool := d.start == d.stop

variable [Elem α]

def withCapacity (os : Os) (capacity : Nat) (s : State) : Except Fault (ArrayDeque α × State) := do
  let (raw, s) ← RawArray.withCapacity os capacity s
  .ok (⟨raw, 0, 0⟩, s)

def growBack (os : Os) (d : ArrayDeque α) (s : State) : Except Fault (ArrayDeque α × State) := do
  let oldCapacity ← d.raw.capacity
  let capacity := oldCapacity * 2 % usizeSize
  let (raw, s) ← d.raw.reserve os (if capacity = 0 then 1 else capacity) s
  .ok ({ d with raw := raw }, s)

def growFront (os : Os) (d : ArrayDeque α) (s : State) : Except Fault (ArrayDeque α × State) := do
  let oldCapacity ← d.raw.capacity
  let (d, s) ← d.growBack os s
  let newStartPtr := d.raw.slot oldCapacity
  let s ← copyNonoverlapping newStartPtr d.raw.getPtr (oldCapacity * Elem.size α) s
  .ok ({ d with start := oldCapacity, stop := (d.stop + oldCapacity) % usizeSize }, s)

def pushBack (os : Os) (val : α) (d : ArrayDeque α) (s : State) :
    Except Fault (ArrayDeque α × State) := do
  let capacity ← d.raw.capacity
  let (d, s) ← if d.stop = capacity then d.growBack os s else .ok (d, s)
  let s ← d.raw.write d.stop val s
  .ok ({ d with stop := (d.stop + 1) % usizeSize }, s)

def pushFront (os : Os) (val : α) (d : ArrayDeque α) (s : State) :
    Except Fault (ArrayDeque α × State) :=
  if d.len = 0 then d.pushBack os val s
  else do
    let (d, s) ← if d.start = 0 then d.growFront os s else .ok (d, s)
    let start := usizeSub d.start 1
    let s ← d.raw.write start val s
    .ok ({ d with start := start }, s)

def getStartPtr (d : ArrayDeque α) : Nat := d.raw.slot d.start

def getEndPtr (d : ArrayDeque α) : Nat := d.raw.slot d.stop

/-- A window that got empty is put in the middle of the buffer. -/
def recentre (d : ArrayDeque α) : Except Fault (ArrayDeque α) :=
  if d.start = d.stop then do
    let capacity ← d.raw.capacity
    .ok { d with start := capacity / 2, stop := capacity / 2 }
  else .ok d

def popFront (d : ArrayDeque α) (s : State) : Except Fault (Option α × ArrayDeque α) :=
  if d.isEmpty then .ok (none, d)
  else do
    let read ← load d.getStartPtr s
    let d ← { d with start := (d.start + 1) % usizeSize }.recentre
    .ok (some read, d)

def popBack (d : ArrayDeque α) (s : State) : Except Fault (Option α × ArrayDeque α) :=
  if d.isEmpty then .ok (none, d)
  else do
    let read ← load d.getEndPtr s
    let d ← { d with stop := usizeSub d.stop 1 }.recentre
    .ok (some read, d)

/-- The deque as a slice. -/
def deref (d : ArrayDeque α) (s : State) : Except Fault (List α) :=
  if d.raw.getPtr = 0 then .ok [] else d.raw.loads d.start d.len s

/-! ## The window -/

/-- The window is in the buffer and holds `l`. -/
structure Queue (s : State) (d : ArrayDeque α) (l : List α) : Prop where
  owned : d.raw.Owned s
  window : d.start + l.length = d.stop
  le : d.stop ≤ d.raw.cap
  cell : ∀ i < l.length, d.raw.cell s (d.start + i) = l[i]?

section
variable {os : Os} {d : ArrayDeque α} {s : State} {l : List α} {v : α}

theorem queue_new (s : State) : Queue s (new : ArrayDeque α) [] where
  owned := RawArray.owned_new s
  window := rfl
  le := Nat.zero_le _
  cell i hi := absurd hi (Nat.not_lt_zero i)

theorem Queue.stop_lt (h : Queue s d l) (hsz : 0 < Elem.size α) : d.stop < addrSpace := by
  have hbytes := h.owned.cap_bytes
  have hle := Nat.le_mul_of_pos_right d.raw.cap hsz
  have := h.le
  omega

/-- An index in the window or at its end has a next one. -/
theorem Queue.succ_mod (h : Queue s d l) (hsz : 0 < Elem.size α) {k : Nat} (hk : k ≤ d.stop) :
    (k + 1) % usizeSize = k + 1 := by
  have hstop := h.stop_lt hsz
  have hspace : addrSpace = 281474976710656 := rfl
  apply Nat.mod_eq_of_lt
  rw [usizeSize_eq]
  omega

theorem Queue.len_eq (h : Queue s d l) (hsz : 0 < Elem.size α) : d.len = l.length := by
  have hstop := h.stop_lt hsz
  have hw := h.window
  have hlt : d.stop < usizeSize := Nat.lt_trans hstop (by decide)
  rw [len, usizeSub_of_le (by omega) hlt]
  omega

theorem Queue.isEmpty_eq (h : Queue s d l) : d.isEmpty = l.isEmpty := by
  have hw := h.window
  unfold isEmpty
  cases l with
  | nil =>
    rw [List.length_nil, Nat.add_zero] at hw
    rw [hw, beq_self_eq_true]
    rfl
  | cons x l =>
    rw [List.length_cons] at hw
    exact beq_false_of_ne (by omega)

/-- The slice is the window. -/
theorem Queue.deref (h : Queue s d l) (hsz : 0 < Elem.size α) : d.deref s = .ok l := by
  have hle := h.le
  have hw := h.window
  rw [ArrayDeque.deref]
  by_cases hp : d.raw.getPtr = 0
  · rw [if_pos hp]
    unfold RawArray.getPtr at hp
    cases hseg : d.raw.segment with
    | none =>
      rw [RawArray.cap, hseg] at hle
      simp only at hle
      have : l.length = 0 := by omega
      rw [List.length_eq_zero_iff.mp this]
    | some seg =>
      rw [hseg] at hp
      exact absurd hp (Nat.ne_of_gt (h.owned seg (RawArray.mem_segs hseg)).2.pos)
  · rw [if_neg hp, h.len_eq hsz]
    exact h.owned.loads l d.start (by omega) h.cell

/-- The capacity that `grow_back` asks for. -/
theorem grow_fits {n : Nat} (hsz : 0 < Elem.size α) (hbytes : n * Elem.size α < addrSpace) :
    (if n * 2 % usizeSize = 0 then 1 else n * 2 % usizeSize) = (if n = 0 then 1 else n * 2) ∧
      (if n = 0 then 1 else n * 2) * Elem.size α < usizeSize := by
  have hlen : n ≤ n * Elem.size α := Nat.le_mul_of_pos_right _ hsz
  have hsize := Elem.size_lt (α := α)
  have hspace : addrSpace = 281474976710656 := rfl
  have hu := usizeSize_eq
  rw [Nat.mod_eq_of_lt (by omega : n * 2 < usizeSize)]
  by_cases h0 : n = 0
  · rw [if_pos h0, if_pos (by omega)]
    exact ⟨rfl, by omega⟩
  · rw [if_neg h0, if_neg (by omega)]
    refine ⟨rfl, ?_⟩
    rw [Nat.mul_right_comm]
    omega

/-- **Growth at the back** doubles the buffer around the window. -/
theorem Queue.growBack (h : Queue s d l) (hsz : 0 < Elem.size α) :
    Served (fun q => Queue q.2 q.1 l ∧ q.1.start = d.start ∧ q.1.stop = d.stop ∧
      d.raw.Reserved (if d.raw.cap = 0 then 1 else d.raw.cap * 2) s (q.1.raw, q.2))
      (d.growBack os s) := by
  obtain ⟨hn, hfit⟩ := grow_fits hsz h.owned.cap_bytes
  have hlt : d.raw.cap < (if d.raw.cap = 0 then 1 else d.raw.cap * 2) := by split <;> omega
  rw [ArrayDeque.growBack, RawArray.capacity_eq hsz]
  simp only [ok_bind]
  rw [hn]
  refine Post.bind (h.owned.reserve hsz (RawArray.bytes_of_lt hsz hlt) (by omega) hfit)
    fun q hq => ?_
  have hle := h.le
  have hw := h.window
  have hcap := hq.cap
  refine ⟨⟨hq.owned, hw, ?_, fun i hi => ?_⟩, rfl, rfl, hq⟩
  · show d.stop ≤ q.1.cap
    omega
  · show q.1.cell q.2 (d.start + i) = _
    rw [hq.cell (d.start + i) (by omega), h.cell i hi]

/-- The lower half of a buffer copied to the upper. -/
theorem copy_up {r : RawArray α} {n : Nat} (h : r.Owned s) (hn : 0 < n)
    (hcap : r.cap = n * 2) :
    ∃ s', copyNonoverlapping (r.slot n) r.getPtr (n * Elem.size α) s = .ok s' ∧ r.Owned s' ∧
      (∀ i < n, r.cell s' (n + i) = r.cell s i) ∧ Frame r.segs r.segs s s' := by
  obtain ⟨seg, hseg, hin, hslot, -, hspace⟩ := h.slot (by omega : n < r.cap)
  have hptr : r.getPtr = seg.ptr := by rw [RawArray.getPtr, hseg]
  have hlen : n * Elem.size α + n * Elem.size α ≤ seg.length := by
    have hle := Nat.div_mul_le_self seg.length (Elem.size α)
    rw [RawArray.cap, hseg] at hcap
    simp only at hcap
    rw [hcap, Nat.mul_right_comm] at hle
    omega
  have hreg := (regionLen_bounds seg.length).1
  have hcov : s.covers (r.slot n) (n * Elem.size α) = true :=
    State.covers_segment hin (by omega) (by omega)
  have hcov' : s.covers r.getPtr (n * Elem.size α) = true :=
    State.covers_segment hin (by omega) (by omega)
  refine ⟨{ s with mem := copyBytes s.mem (r.slot n) r.getPtr (n * Elem.size α) }, ?_, h, ?_, ?_⟩
  · rw [copyNonoverlapping, hcov, hcov']
    rfl
  · intro i hi
    obtain ⟨seg₁, hseg₁, -, hslot₁, -, -⟩ := h.slot (by omega : n + i < r.cap)
    obtain ⟨seg₂, hseg₂, -, hslot₂, hend₂, -⟩ := h.slot (by omega : i < r.cap)
    rw [hseg] at hseg₁ hseg₂
    cases hseg₁
    cases hseg₂
    have hi' : i * Elem.size α + Elem.size α ≤ n * Elem.size α := by
      rw [← Nat.succ_mul]
      exact Nat.mul_le_mul_right _ hi
    refine Elem.read_congr fun k hk => ?_
    show copyBytes _ _ _ _ _ = _
    rw [hslot₁, hslot, hslot₂, hptr, Nat.add_mul,
      show seg.ptr + (n * Elem.size α + i * Elem.size α) + k =
        seg.ptr + n * Elem.size α + (i * Elem.size α + k) by omega, copyBytes_in (by omega),
      Nat.add_assoc]
  · refine Frame.of_mem fun x hx => copyBytes_out ?_
    have := hx seg (RawArray.mem_segs hseg)
    omega

/-- **Growth at the front** leaves as much room before the window as there was in all. -/
theorem Queue.growFront (h : Queue s d l) (hsz : 0 < Elem.size α) (hl : l ≠ [])
    (hstart : d.start = 0) :
    Served (fun q => Queue q.2 q.1 l ∧ q.1.start = d.raw.cap ∧ 0 < d.raw.cap ∧
      Frame d.raw.segs q.1.raw.segs s q.2) (d.growFront os s) := by
  have hpos : 0 < l.length := List.length_pos_iff.mpr hl
  have hw := h.window
  have hle := h.le
  have hstop := h.stop_lt hsz
  have hcapb := h.owned.cap_bytes
  have hcapl := Nat.le_mul_of_pos_right d.raw.cap hsz
  have hspace : addrSpace = 281474976710656 := rfl
  rw [ArrayDeque.growFront, RawArray.capacity_eq hsz]
  simp only [ok_bind]
  refine Post.bind (h.growBack hsz) fun q hq => ?_
  obtain ⟨d₁, s₁⟩ := q
  obtain ⟨hq₁, hs₁, hst₁, hres⟩ := hq
  simp only at hq₁ hs₁ hst₁ hres
  have hcap₁ : d₁.raw.cap = _ := hres.cap
  have hf₁ := hres.frame
  rw [if_neg (by omega)] at hcap₁
  obtain ⟨s₂, hcopy, howned₂, hcell₂, hf₂⟩ := copy_up hq₁.owned (by omega) hcap₁
  rw [hcopy]
  have hmod : (d₁.stop + d.raw.cap) % usizeSize = d₁.stop + d.raw.cap := by
    apply Nat.mod_eq_of_lt
    rw [usizeSize_eq]
    omega
  refine ⟨⟨howned₂, ?_, ?_, fun i hi => ?_⟩, rfl, by omega, hf₁.trans hf₂⟩
  · show d.raw.cap + l.length = (d₁.stop + d.raw.cap) % usizeSize
    omega
  · show (d₁.stop + d.raw.cap) % usizeSize ≤ d₁.raw.cap
    omega
  · show d₁.raw.cell s₂ (d.raw.cap + i) = _
    have hi' := hq₁.cell i hi
    rw [hs₁, hstart, Nat.zero_add] at hi'
    rw [hcell₂ i (by omega), hi']

/-- A write behind the window takes the slot in. -/
theorem Queue.write_back (h : Queue s d l) (hsz : 0 < Elem.size α) (hlt : d.stop < d.raw.cap)
    (v : α) :
    ∃ s', d.raw.write d.stop v s = .ok s' ∧
      Queue s' { d with stop := (d.stop + 1) % usizeSize } (l ++ [v]) ∧
      Frame d.raw.segs d.raw.segs s s' := by
  obtain ⟨s', hw, howned, hv, hother, hf⟩ := h.owned.write hlt v
  have hwin := h.window
  have hmod := h.succ_mod hsz (Nat.le_refl d.stop)
  refine ⟨s', hw, ⟨howned, ?_, ?_, fun i hi => ?_⟩, hf⟩
  · show d.start + (l ++ [v]).length = (d.stop + 1) % usizeSize
    rw [List.length_append, List.length_singleton]
    omega
  · show (d.stop + 1) % usizeSize ≤ d.raw.cap
    omega
  · rw [List.length_append, List.length_singleton] at hi
    show d.raw.cell s' (d.start + i) = _
    by_cases he : i = l.length
    · rw [he, hwin, hv, List.getElem?_append_right (Nat.le_refl _), Nat.sub_self]
      rfl
    · have hi' : i < l.length := by omega
      rw [hother _ (by omega) (by omega), h.cell i hi', List.getElem?_append_left hi']

/-- **`push_back`** appends. -/
theorem Queue.pushBack (h : Queue s d l) (hsz : 0 < Elem.size α) (v : α) :
    Served (fun q => Queue q.2 q.1 (l ++ [v]) ∧ Frame d.raw.segs q.1.raw.segs s q.2)
      (d.pushBack os v s) := by
  have hle := h.le
  rw [ArrayDeque.pushBack, RawArray.capacity_eq hsz]
  simp only [ok_bind]
  by_cases hfull : d.stop = d.raw.cap
  · rw [if_pos hfull]
    refine Post.bind (h.growBack hsz) fun q hq => ?_
    obtain ⟨d₁, s₁⟩ := q
    obtain ⟨hq₁, -, hst₁, hres⟩ := hq
    simp only at hq₁ hst₁ hres
    have hcap₁ : d₁.raw.cap = _ := hres.cap
    have hf₁ := hres.frame
    have hlt : d₁.stop < d₁.raw.cap := by
      split at hcap₁ <;> omega
    obtain ⟨s₂, hw, hq₂, hf₂⟩ := hq₁.write_back hsz hlt v
    rw [hw]
    exact ⟨hq₂, hf₁.trans hf₂⟩
  · rw [if_neg hfull]
    obtain ⟨s₂, hw, hq₂, hf₂⟩ := h.write_back hsz (by omega) v
    rw [hw]
    exact ⟨hq₂, hf₂⟩

/-- A write before the window takes the slot in. -/
theorem Queue.write_front (h : Queue s d l) (hsz : 0 < Elem.size α) (hl : l ≠ [])
    (hstart : 0 < d.start) (v : α) :
    ∃ k s', usizeSub d.start 1 = k ∧ d.raw.write k v s = .ok s' ∧
      Queue s' { d with start := k } (v :: l) ∧ Frame d.raw.segs d.raw.segs s s' := by
  have hpos : 0 < l.length := List.length_pos_iff.mpr hl
  have hwin := h.window
  have hle := h.le
  have hstop := h.stop_lt hsz
  have hlt : d.stop < usizeSize := Nat.lt_trans hstop (by decide)
  obtain ⟨s', hw, howned, hv, hother, hf⟩ := h.owned.write (by omega : d.start - 1 < d.raw.cap) v
  refine ⟨d.start - 1, s', usizeSub_of_le hstart (by omega), hw, ⟨howned, ?_, hle, fun i hi => ?_⟩, hf⟩
  · show d.start - 1 + (v :: l).length = d.stop
    rw [List.length_cons]
    omega
  · rw [List.length_cons] at hi
    show d.raw.cell s' (d.start - 1 + i) = _
    cases i with
    | zero => rw [Nat.add_zero, hv, List.getElem?_cons_zero]
    | succ i =>
      rw [show d.start - 1 + (i + 1) = d.start + i by omega, hother _ (by omega) (by omega),
        h.cell i (by omega), List.getElem?_cons_succ]

/-- **`push_front`** prepends. -/
theorem Queue.pushFront (h : Queue s d l) (hsz : 0 < Elem.size α) (v : α) :
    Served (fun q => Queue q.2 q.1 (v :: l) ∧ Frame d.raw.segs q.1.raw.segs s q.2)
      (d.pushFront os v s) := by
  rw [ArrayDeque.pushFront, h.len_eq hsz]
  by_cases hl : l = []
  · subst hl
    rw [List.length_nil, if_pos rfl]
    exact h.pushBack hsz v
  · rw [if_neg (Nat.ne_of_gt (List.length_pos_iff.mpr hl))]
    by_cases hstart : d.start = 0
    · rw [if_pos hstart]
      refine Post.bind (h.growFront hsz hl hstart) fun q hq => ?_
      obtain ⟨d₁, s₁⟩ := q
      obtain ⟨hq₁, hs₁, hpos, hf₁⟩ := hq
      simp only at hq₁ hs₁ hf₁
      obtain ⟨k, s₂, hk, hw, hq₂, hf₂⟩ := hq₁.write_front hsz hl (by omega) v
      simp only
      rw [hk, hw]
      exact ⟨hq₂, hf₁.trans hf₂⟩
    · rw [if_neg hstart]
      obtain ⟨k, s₂, hk, hw, hq₂, hf₂⟩ := h.write_front hsz hl (Nat.pos_of_ne_zero hstart) v
      simp only [ok_bind]
      rw [hk, hw]
      exact ⟨hq₂, hf₂⟩

/-- An empty window may be anywhere. -/
theorem Queue.recentre (h : Queue s d l) (hsz : 0 < Elem.size α) :
    ∃ d', d.recentre = .ok d' ∧ d'.raw = d.raw ∧ Queue s d' l := by
  have hwin := h.window
  unfold ArrayDeque.recentre
  by_cases he : d.start = d.stop
  · have hl : l = [] := List.length_eq_zero_iff.mp (by omega)
    subst hl
    rw [if_pos he, RawArray.capacity_eq hsz]
    exact ⟨_, rfl, rfl, h.owned, rfl, Nat.div_le_self _ _, fun i hi => absurd hi (Nat.not_lt_zero i)⟩
  · rw [if_neg he]
    exact ⟨d, rfl, rfl, h⟩

/-- **`pop_front`** takes the first element. -/
theorem Queue.popFront (h : Queue s d (v :: l)) (hsz : 0 < Elem.size α) :
    ∃ d', d.popFront s = .ok (some v, d') ∧ Queue s d' l := by
  have hwin := h.window
  have hle := h.le
  rw [List.length_cons] at hwin
  have hv := h.cell 0 (Nat.succ_pos _)
  rw [Nat.add_zero, List.getElem?_cons_zero] at hv
  have hmod := h.succ_mod hsz (by omega : d.start ≤ d.stop)
  have hq : Queue s { d with start := (d.start + 1) % usizeSize } l := by
    refine ⟨h.owned, ?_, hle, fun i hi => ?_⟩
    · show (d.start + 1) % usizeSize + l.length = d.stop
      omega
    · show d.raw.cell s ((d.start + 1) % usizeSize + i) = _
      have := h.cell (i + 1) (by rw [List.length_cons]; omega)
      rwa [hmod, show d.start + 1 + i = d.start + (i + 1) by omega]
  obtain ⟨d', hd', -, hq'⟩ := hq.recentre hsz
  refine ⟨d', ?_, hq'⟩
  rw [ArrayDeque.popFront, h.isEmpty_eq, if_neg (by rw [List.isEmpty_cons]; exact Bool.false_ne_true),
    getStartPtr, h.owned.load (by omega) hv]
  simp only [ok_bind]
  rw [hd']
  rfl

theorem Queue.popFront_nil (h : Queue s d []) : d.popFront s = .ok (none, d) := by
  rw [ArrayDeque.popFront, h.isEmpty_eq, if_pos List.isEmpty_nil]

end

end ArrayDeque

/-! ## Runs as a queue -/

inductive DequeOp (α : Type)
  | pushFront (val : α)
  | pushBack (val : α)
  | popFront

section
variable {α : Type} [Elem α]

/-- What the operation returns is what was popped, if it pops. -/
def DequeOp.exec (os : Os) : DequeOp α → ArrayDeque α → State →
    Except Fault (Option α × ArrayDeque α × State)
  | .pushFront val, d, s => do
    let (d, s) ← d.pushFront os val s
    .ok (none, d, s)
  | .pushBack val, d, s => do
    let (d, s) ← d.pushBack os val s
    .ok (none, d, s)
  | .popFront, d, s => do
    let (x, d) ← d.popFront s
    .ok (x, d, s)

def ArrayDeque.runOps : List (Os × DequeOp α) → ArrayDeque α → State →
    Except Fault (List (Option α) × ArrayDeque α × State)
  | [], d, s => .ok ([], d, s)
  | (os, op) :: ops, d, s => do
    let (out, d, s) ← op.exec os d s
    let (outs, d, s) ← ArrayDeque.runOps ops d s
    .ok (out :: outs, d, s)

def DequeOp.onList : DequeOp α → List α → Option α × List α
  | .pushFront val, l => (none, val :: l)
  | .pushBack val, l => (none, l ++ [val])
  | .popFront, l => (l.head?, l.tail)

def dequeOnList : List (Os × DequeOp α) → List α → List (Option α) × List α
  | [], l => ([], l)
  | (_, op) :: ops, l =>
    ((op.onList l).1 :: (dequeOnList ops (op.onList l).2).1, (dequeOnList ops (op.onList l).2).2)

/-- A deque as it is made. -/
inductive DequeStart : ArrayDeque α → State → Prop
  | new (s : State) : DequeStart ArrayDeque.new s
  | withCapacity {os : Os} {capacity : Nat} {d : ArrayDeque α} {s s' : State} : 1 ≤ capacity →
      ArrayDeque.withCapacity os capacity s = .ok (d, s') → DequeStart d s'

/-- What a caller sees of a deque, and the window in the buffer. -/
structure ArrayDeque.Shows (s : State) (d : ArrayDeque α) (l : List α) : Prop where
  deref : d.deref s = .ok l
  len : d.len = l.length
  isEmpty : d.isEmpty = l.isEmpty
  window : d.start ≤ d.stop ∧ ∃ capacity, d.raw.capacity = .ok capacity ∧ d.stop ≤ capacity

variable {os : Os} {d : ArrayDeque α} {s : State} {l : List α}

theorem ArrayDeque.Queue.shows (h : d.Queue s l) (hsz : 0 < Elem.size α) : d.Shows s l :=
  ⟨h.deref hsz, h.len_eq hsz, h.isEmpty_eq, by have := h.window; omega, d.raw.cap,
    RawArray.capacity_eq hsz _, h.le⟩

/-- Also with a capacity whose bytes wrap: there are fewer slots then, and the first growth
makes up for it. -/
theorem DequeStart.queue (h : DequeStart d s) : d.Queue s [] := by
  cases h with
  | new => exact ArrayDeque.queue_new s
  | @withCapacity os capacity d s₀ s hc hd =>
    obtain ⟨⟨raw, s₁⟩, hres, heq⟩ := ok_of_bind hd
    cases heq
    exact ⟨RawArray.withCapacity_owned hres, rfl, Nat.zero_le _,
      fun i hi => absurd hi (Nat.not_lt_zero i)⟩

theorem DequeOp.exec_served (hsz : 0 < Elem.size α) (h : d.Queue s l) (op : DequeOp α) :
    Served (fun q => q.1 = (op.onList l).1 ∧ q.2.1.Queue q.2.2 (op.onList l).2)
      (op.exec os d s) := by
  cases op with
  | pushFront val => exact Post.bind (h.pushFront hsz val) fun q hq => ⟨rfl, hq.1⟩
  | pushBack val => exact Post.bind (h.pushBack hsz val) fun q hq => ⟨rfl, hq.1⟩
  | popFront =>
    rw [DequeOp.exec]
    cases l with
    | nil =>
      rw [h.popFront_nil]
      exact ⟨rfl, h⟩
    | cons x l =>
      obtain ⟨d', hpop, hq⟩ := h.popFront hsz
      rw [hpop]
      exact ⟨rfl, hq⟩

/-- **A run**, by induction on the operations. -/
theorem ArrayDeque.Queue.runOps (hsz : 0 < Elem.size α) : ∀ (ops : List (Os × DequeOp α))
    {d : ArrayDeque α} {l : List α} {s : State}, d.Queue s l →
    Served (fun q => q.1 = (dequeOnList ops l).1 ∧ q.2.1.Queue q.2.2 (dequeOnList ops l).2)
      (ArrayDeque.runOps ops d s) := by
  intro ops
  induction ops with
  | nil =>
    intro d l s h
    exact ⟨rfl, h⟩
  | cons p ops ih =>
    intro d l s h
    obtain ⟨os, op⟩ := p
    rw [ArrayDeque.runOps]
    refine Post.bind (op.exec_served hsz h) fun q hq => ?_
    obtain ⟨out, d₁, s₁⟩ := q
    obtain ⟨hout, h₁⟩ := hq
    simp only at hout h₁
    refine Post.bind (ih h₁) fun q hq => ?_
    obtain ⟨outs, d₂, s₂⟩ := q
    obtain ⟨houts, h₂⟩ := hq
    simp only at houts h₂
    exact ⟨by rw [dequeOnList, hout, houts], h₂⟩

/-- The first element without bytes has no segment to go to. -/
theorem ArrayDeque.pushBack_zero (hsz : Elem.size α = 0) (v : α) :
    (ArrayDeque.new : ArrayDeque α).pushBack os v s = .error (.refused 0) := by
  have hres : (RawArray.new : RawArray α).reserve os 1 s = .error (.refused 0) := by
    rw [RawArray.reserve_none os 1 rfl, hsz, Nat.mul_zero, Nat.zero_mod, Array.allocateUnwrap_zero]
    rfl
  have hgrow : (ArrayDeque.new : ArrayDeque α).growBack os s = .error (.refused 0) := by
    show (do let q ← (RawArray.new : RawArray α).reserve os 1 s; _) = _
    rw [hres]
    rfl
  show (do let q ← (ArrayDeque.new : ArrayDeque α).growBack os s; _) = _
  rw [hgrow]
  rfl

end

/-- **A deque is a queue**, exactly for elements of at least one byte. From `new` or
`with_capacity` on, every sequence of `push_front`, `push_back` and `pop_front` pops what
it pops from a list, and leaves the window in the buffer and the list in the window. A
call fails only for want of memory; for elements without bytes the first push asks for
none, which the kernel refuses. -/
theorem deque_queue_iff {α : Type} [Elem α] [Inhabited α] :
    (∀ (d : ArrayDeque α) (s : State), DequeStart d s → ∀ ops : List (Os × DequeOp α),
      Served (fun q => q.1 = (dequeOnList ops []).1 ∧ q.2.1.Shows q.2.2 (dequeOnList ops []).2)
        (ArrayDeque.runOps ops d s)) ↔ 0 < Elem.size α := by
  constructor
  · intro h
    apply Nat.pos_of_ne_zero
    intro h0
    have hs := h ArrayDeque.new startState (.new _) [(Os.bump, .pushBack default)]
    rw [ArrayDeque.runOps, DequeOp.exec, ArrayDeque.pushBack_zero h0] at hs
    exact absurd hs (Nat.lt_irrefl 0)
  · intro hsz d s hd ops
    refine (hd.queue.runOps hsz ops).mono fun q hq => ?_
    exact ⟨hq.1, hq.2.shows hsz⟩

/-- `push_back(())` panics. -/
theorem deque_unit_panics :
    DequeStart (ArrayDeque.new : ArrayDeque Unit) startState ∧
      ArrayDeque.runOps [(Os.bump, DequeOp.pushBack ())] ArrayDeque.new startState =
        .error (.refused 0) := by
  refine ⟨.new _, ?_⟩
  rw [ArrayDeque.runOps, DequeOp.exec, ArrayDeque.pushBack_zero rfl]
  rfl

end Apfmalloc
