import Apfmalloc.RawArray

/-!
# `array.rs`: `Array` and its iterator

An `Array` is a buffer and the number of its slots in use. Everything that reads or
moves elements is here as the code does it: `push` doubles, `remove` pops what is above
the index into a second array, reverses that and pushes it back, `iter` collects
references into an array of their own.

A reference is an address. Dropping an array runs the destructors of its elements,
whether or not they were moved out before; a call that drops elements returns which,
though the code keeps no such list. A type without a destructor has nothing to do then.
-/

namespace Apfmalloc

open Base

structure Array (α : Type) where
  size : Nat
  noDealloc : Bool
  array : RawArray α
  deriving DecidableEq, Repr

structure ArrayIterator (α : Type) where
  index : Nat
  array : Array α
  deriving DecidableEq, Repr

namespace Array

variable {α : Type}

def new : Array α := ⟨0, false, RawArray.new⟩

def intoIter (a : Array α) : ArrayIterator α := ⟨0, a⟩

variable [Elem α]

def withCapacity (os : Os) (capacity : Nat) (s : State) : Except Fault (Array α × State) := do
  let (raw, s) ← RawArray.withCapacity os capacity s
  .ok (⟨0, false, raw⟩, s)

/-- `default` is what the closure returns. -/
def ofSizeUsing (os : Os) (dflt : α) (size : Nat) (s : State) : Except Fault (Array α × State) := do
  let (raw, s) ← RawArray.withCapacity os size s
  let s ← raw.stores 0 (List.replicate size dflt) s
  .ok (⟨size, false, raw⟩, s)

def ofSize [Inhabited α] (os : Os) (size : Nat) (s : State) : Except Fault (Array α × State) :=
  ofSizeUsing os default size s

/-- The segment is made as long as there are elements, whatever their size. -/
def fromPtr [Inhabited α] (ptr length : Nat) (s : State) : Except Fault (Array α × State) := do
  let raw : RawArray α := ⟨some ⟨ptr, length⟩, true⟩
  let s ← if ptr = 0 then .ok s else raw.stores 0 (List.replicate length default) s
  .ok (⟨length, true, raw⟩, s)

def grow [Inhabited α] (os : Os) (newSize : Nat) (a : Array α) (s : State) :
    Except Fault (Array α × State) :=
  if newSize > a.size then do
    let (raw, s) ← a.array.reserve os newSize s
    let s ← raw.stores a.size (List.replicate (newSize - a.size) default) s
    .ok ({ a with size := newSize, array := raw }, s)
  else .ok (a, s)

def get (a : Array α) (index : Nat) : Option Nat :=
  if index ≥ a.size then none else some (a.array.slot index)

def getMut (a : Array α) (index : Nat) : Option Nat :=
  if index ≥ a.size then none else some (a.array.slot index)

/-- `&self[index]` and `&mut self[index]`. -/
def index (a : Array α) (index : Nat) : Except Fault Nat :=
  match a.get index with
  | none => .error .panic
  | some ptr => .ok ptr

def push (os : Os) (val : α) (a : Array α) (s : State) : Except Fault (Array α × State) := do
  let capacity ← a.array.capacity
  let (raw, s) ←
    if a.size ≥ capacity then
      a.array.reserve os (if a.size > 0 then a.size * 2 % usizeSize else 1) s
    else .ok (a.array, s)
  let s ← raw.write a.size val s
  .ok ({ a with size := a.size + 1, array := raw }, s)

def pop (a : Array α) (s : State) : Except Fault (Option α × Array α) :=
  if a.size = 0 then .ok (none, a)
  else do
    let x ← load (a.array.slot (a.size - 1)) s
    .ok (some x, { a with size := a.size - 1 })

/-- The array as a slice; `deref_mut` is the same. -/
def deref (a : Array α) (s : State) : Except Fault (List α) :=
  if a.array.getPtr = 0 then .ok [] else a.array.loads 0 a.size s

/-- Also what was dropped. -/
def clear (a : Array α) (s : State) : Except Fault (List α × Array α) := do
  let dropped ← a.deref s
  .ok (dropped, { a with size := 0, array := a.array.clear })

/-- What `Drop for Array` drops. -/
def drop (a : Array α) (s : State) : Except Fault (List α) :=
  if a.noDealloc then .ok []
  else do
    let (dropped, _) ← a.clear s
    .ok dropped

def swap (index : Nat) (val : α) (a : Array α) (s : State) : Except Fault (Option α × State) :=
  if index ≥ a.size then .ok (none, s)
  else do
    let ptr ← a.index index
    let ret ← load ptr s
    let s ← store ptr val s
    .ok (some ret, s)

/-- `reverse` of the slice. -/
def reverse (a : Array α) (s : State) : Except Fault State := do
  let l ← a.deref s
  a.array.stores 0 l.reverse s

end Array

namespace ArrayIterator

variable {α β : Type} [Elem α] [Elem β]

def next (it : ArrayIterator α) (s : State) : Except Fault (Option α × ArrayIterator α) :=
  if it.index ≥ it.array.size then .ok (none, it)
  else do
    let ptr ← it.array.index it.index
    let ret ← load ptr s
    .ok (some ret, { it with index := it.index + 1 })

/-- `for x in it { out.push(f(x)) }`, with a bound on the rounds. -/
def pushAll (os : Os) (f : β → State → Except Fault α) :
    Nat → ArrayIterator β → Array α → State → Except Fault (ArrayIterator β × Array α × State)
  | 0, _, _, _ => .error .fuel
  | n + 1, it, out, s => do
    let (x, it) ← it.next s
    match x with
    | none => .ok (it, out, s)
    | some x => do
      let y ← f x s
      let (out, s) ← out.push os y s
      it.pushAll os f n out s

end ArrayIterator

namespace Array

variable {α : Type} [Elem α]

/-- `for _ in 0..n { saved.push(self.pop().unwrap()) }` -/
def popInto (os : Os) : Nat → Array α → Array α → State →
    Except Fault (Array α × Array α × State)
  | 0, a, saved, s => .ok (a, saved, s)
  | n + 1, a, saved, s => do
    let (x, a) ← a.pop s
    match x with
    | none => .error .panic
    | some x => do
      let (saved, s) ← saved.push os x s
      popInto os n a saved s

/-- The element removed, and what the end of the loop's iterator drops. -/
def remove (os : Os) (index : Nat) (a : Array α) (s : State) :
    Except Fault (Option α × List α × Array α × State) :=
  if index ≥ a.size then .ok (none, [], a, s)
  else do
    let (a, saved, s) ← popInto os (a.size - index - 1) a new s
    let (ret, a) ← a.pop s
    let s ← saved.reverse s
    let (it, a, s) ← saved.intoIter.pushAll os (fun x _ => .ok x) (saved.size + 1) a s
    let dropped ← it.array.drop s
    .ok (ret, dropped, a, s)

/-- `from_iter` of what the iterator yields. -/
def extend (os : Os) : List α → Array α → State → Except Fault (Array α × State)
  | [], a, s => .ok (a, s)
  | x :: xs, a, s => do
    let (a, s) ← a.push os x s
    extend os xs a s

def fromIter (os : Os) (xs : List α) (s : State) : Except Fault (Array α × State) :=
  extend os xs new s

/-- `for i in 0..n { arr.push(&self[i]) }` -/
def pushRefs (os : Os) (a : Array α) : Nat → Nat → Array UInt64 → State →
    Except Fault (Array UInt64 × State)
  | _, 0, arr, s => .ok (arr, s)
  | i, n + 1, arr, s => do
    let ptr ← a.index i
    let (arr, s) ← arr.push os (UInt64.ofNat ptr) s
    pushRefs os a (i + 1) n arr s

def iter (os : Os) (a : Array α) (s : State) : Except Fault (ArrayIterator UInt64 × State) := do
  let (arr, s) ← a.pushRefs os 0 a.size new s
  .ok (arr.intoIter, s)

/-- `(&a).into_iter()` -/
def intoIterRef (os : Os) (a : Array α) (s : State) :
    Except Fault (ArrayIterator UInt64 × State) := do
  let (out, s) ← withCapacity os a.size s
  let (out, s) ← a.pushRefs os 0 a.size out s
  .ok (out.intoIter, s)

/-- `self.iter().map(|v| v.clone()).collect()` -/
def clone (os : Os) (cl : α → α) (a : Array α) (s : State) : Except Fault (Array α × State) := do
  let (it, s) ← a.iter os s
  let (_, out, s) ← it.pushAll os (fun ref s => (load ref.toNat s).map cl) (it.array.size + 1) new s
  .ok (out, s)

/-! ## What an array holds -/

/-- The elements `l` are in the first slots of the buffer. -/
structure Stored (s : State) (a : Array α) (l : List α) : Prop where
  owned : a.array.Owned s
  size : a.size = l.length
  le : l.length ≤ a.array.cap
  cell : ∀ i < l.length, a.array.cell s i = l[i]?

/-- `a` has a buffer of its own, and the elements `l` in its first slots. -/
structure Holds (s : State) (a : Array α) (l : List α) : Prop where
  owned : a.array.Owned s
  exact : a.array.Exact
  size : a.size = l.length
  le : l.length ≤ a.array.cap
  cell : ∀ i < l.length, a.array.cell s i = l[i]?
  dealloc : a.noDealloc = false ∧ a.array.noDealloc = false

section
variable {os : Os} {a b : Array α} {s s' : State} {l l' : List α} {v : α}

theorem Holds.stored (h : Holds s a l) : Stored s a l := ⟨h.owned, h.size, h.le, h.cell⟩

theorem holds_new (s : State) : Holds s (new : Array α) [] where
  owned := RawArray.owned_new s
  exact := RawArray.exact_new
  size := rfl
  le := Nat.zero_le _
  cell i hi := absurd hi (Nat.not_lt_zero i)
  dealloc := ⟨rfl, rfl⟩

/-- What another call leaves alone. -/
theorem Holds.frame {o o' : List Segment} (h : Holds s a l) (hf : Frame o o' s s')
    (hap : ∀ seg ∈ a.array.segs, ∀ old ∈ o, seg.Apart old) :
    Holds s' a l ∧ ∀ seg ∈ a.array.segs, ∀ new ∈ o', seg.Apart new := by
  obtain ⟨howned, hcell, hap'⟩ := h.owned.frame hf hap
  refine ⟨⟨howned, h.exact, h.size, h.le, fun i hi => ?_, h.dealloc⟩, hap'⟩
  rw [hcell i (Nat.lt_of_lt_of_le hi h.le), h.cell i hi]

/-- A slot at the end gets the element. -/
theorem Stored.write_end {raw : RawArray α} (howned : raw.Owned s) (hlt : l.length < raw.cap)
    (hcell : ∀ i < l.length, raw.cell s i = l[i]?) (noDealloc : Bool) (v : α) :
    ∃ s', raw.write l.length v s = .ok s' ∧
      Stored s' ⟨l.length + 1, noDealloc, raw⟩ (l ++ [v]) ∧ s'.mapped = s.mapped ∧
      Frame raw.segs raw.segs s s' := by
  obtain ⟨s', hw, howned', hv, hother, hf⟩ := howned.write hlt v
  have hlen : (l ++ [v]).length = l.length + 1 := by rw [List.length_append]; rfl
  refine ⟨s', hw, ⟨howned', hlen.symm, by rw [hlen]; exact hlt, fun i hi => ?_⟩,
    RawArray.write_mapped hw, hf⟩
  by_cases he : i = l.length
  · rw [he, hv, List.getElem?_append_right (Nat.le_refl _), Nat.sub_self]
    rfl
  · have hi' : i < l.length := by omega
    rw [hother i (by omega) he, hcell i hi', List.getElem?_append_left hi']

/-- The capacity a full array asks for. -/
theorem push_fits {n : Nat} (hsz : 0 < Elem.size α) (hbytes : n * Elem.size α < addrSpace) :
    n < (if n > 0 then n * 2 % usizeSize else 1) ∧
      (if n > 0 then n * 2 % usizeSize else 1) * Elem.size α < usizeSize := by
  have hlen : n ≤ n * Elem.size α := Nat.le_mul_of_pos_right _ hsz
  have hsize := Elem.size_lt (α := α)
  have hspace : addrSpace = 281474976710656 := rfl
  have hu := usizeSize_eq
  split
  · rw [Nat.mod_eq_of_lt (by omega), Nat.mul_right_comm]
    exact ⟨by omega, by omega⟩
  · exact ⟨by omega, by omega⟩

/-- The buffer after a push: the old one, or the one that `reserve` gave. -/
inductive Pushed (os : Os) (a : Array α) (s : State) (q : Array α × State) : Prop
  | room : q.1.array = a.array → q.2.mapped = s.mapped → Pushed os a s q
  | moved {n : Nat} {s₁ : State} : a.array.cap ≤ n →
      a.array.reserve os n s = .ok (q.1.array, s₁) →
      RawArray.Reserved a.array n s (q.1.array, s₁) → q.2.mapped = s₁.mapped → Pushed os a s q

/-- **`push`** appends, -/
theorem Stored.push (h : Stored s a l) (hsz : 0 < Elem.size α) (v : α) :
    Served (fun q => Stored q.2 q.1 (l ++ [v]) ∧ q.1.noDealloc = a.noDealloc ∧ Pushed os a s q ∧
      Frame a.array.segs q.1.array.segs s q.2) (a.push os v s) := by
  obtain ⟨size, noDealloc, raw⟩ := a
  obtain ⟨howned, hsize, hle, hcell⟩ := h
  simp only at howned hsize hle hcell
  subst hsize
  rw [Array.push, RawArray.capacity_eq hsz]
  simp only [ok_bind]
  by_cases hfull : l.length ≥ raw.cap
  · -- the buffer is full and doubles
    have hcap : raw.cap = l.length := by omega
    have hbytes := howned.cap_bytes
    rw [hcap] at hbytes
    obtain ⟨hlt, hfit⟩ := push_fits hsz hbytes
    have hserved := @RawArray.Owned.reserve α _ raw s os _ howned hsz
      (RawArray.bytes_of_lt hsz (by omega)) (Nat.lt_of_le_of_lt (Nat.zero_le _) hlt) hfit
    rw [if_pos hfull]
    cases hres : raw.reserve os (if l.length > 0 then l.length * 2 % usizeSize else 1) s with
    | error e =>
      rw [hres] at hserved
      exact hserved
    | ok q =>
      obtain ⟨raw', s₁⟩ := q
      have hq := hserved.of_ok hres
      have hcell' : ∀ i < l.length, raw'.cell s₁ i = l[i]? := fun i hi => by
        rw [hq.cell i (by omega), hcell i hi]
      obtain ⟨s₂, hw, hst, hmapped, hf⟩ := Stored.write_end hq.owned (by rw [hq.cap]; exact hlt)
        hcell' noDealloc v
      simp only [ok_bind]
      rw [hw]
      have hgrown := Nat.le_trans (Nat.le_of_eq hcap) (Nat.le_of_lt hlt)
      exact ⟨hst, rfl, .moved hgrown hres hq hmapped, hq.frame.trans hf⟩
  · obtain ⟨s₂, hw, hst, hmapped, hf⟩ :=
      Stored.write_end howned (Nat.not_le.mp hfull) hcell noDealloc v
    rw [if_neg hfull, hw]
    exact ⟨hst, rfl, .room rfl hmapped, hf⟩

/-- to an array that holds its elements as well. -/
theorem Holds.push (h : Holds s a l) (hsz : 0 < Elem.size α) (v : α) :
    Served (fun q => Holds q.2 q.1 (l ++ [v]) ∧ Frame a.array.segs q.1.array.segs s q.2)
      (a.push os v s) := by
  refine (h.stored.push hsz v).mono fun q hq => ?_
  obtain ⟨hst, hd, hpushed, hf⟩ := hq
  have hbuffer : q.1.array.Exact ∧ q.1.array.noDealloc = false := by
    cases hpushed with
    | room harray =>
      rw [harray]
      exact ⟨h.exact, h.dealloc.2⟩
    | moved _ _ hres => exact ⟨hres.exact, hres.noDealloc.trans h.dealloc.2⟩
  exact ⟨⟨hst.owned, hbuffer.1, hst.size, hst.le, hst.cell, hd.trans h.dealloc.1, hbuffer.2⟩, hf⟩

/-- A push that returns has made the array longer, whatever the buffer. -/
theorem push_size {a' : Array α} (h : a.push os v s = .ok (a', s')) : a'.size = a.size + 1 := by
  obtain ⟨c, -, h⟩ := ok_of_bind h
  split at h
  all_goals
    obtain ⟨⟨raw, s₁⟩, -, h⟩ := ok_of_bind h
    obtain ⟨s₂, -, h⟩ := ok_of_bind h
    cases h
    rfl

/-- Without its last element the array holds the others. -/
theorem Holds.dropLast (h : Holds s a (l ++ [v])) : Holds s { a with size := l.length } l := by
  have hle := h.le
  rw [List.length_append, List.length_singleton] at hle
  refine ⟨h.owned, h.exact, rfl, by show l.length ≤ a.array.cap; omega, fun i hi => ?_, h.dealloc⟩
  have := h.cell i (by rw [List.length_append]; omega)
  rwa [List.getElem?_append_left hi] at this

/-- **`pop`** takes the last element. -/
theorem Holds.pop (h : Holds s a (l ++ [v])) :
    a.pop s = .ok (some v, { a with size := l.length }) := by
  have hlen : (l ++ [v]).length = l.length + 1 := by rw [List.length_append]; rfl
  have hv := h.cell l.length (by omega)
  rw [List.getElem?_append_right (Nat.le_refl _), Nat.sub_self] at hv
  have hle := h.le
  rw [Array.pop, h.size, hlen, if_neg (Nat.succ_ne_zero _), Nat.add_sub_cancel,
    h.owned.load (by omega) hv]
  rfl

theorem Holds.pop_nil (h : Holds s a []) : a.pop s = .ok (none, a) := by
  rw [Array.pop, if_pos (show a.size = 0 from h.size)]

/-- The slice is the list. -/
theorem Holds.deref (h : Holds s a l) : a.deref s = .ok l := by
  have hle := h.le
  unfold Array.deref RawArray.getPtr
  cases hseg : a.array.segment with
  | none =>
    unfold RawArray.cap at hle
    rw [hseg] at hle
    rw [List.length_eq_zero_iff.mp (Nat.le_zero.mp hle)]
    rfl
  | some seg =>
    obtain ⟨-, hv⟩ := h.owned seg (RawArray.mem_segs hseg)
    simp only
    rw [if_neg (Nat.ne_of_gt hv.pos), h.size]
    refine h.owned.loads l 0 (by omega) fun i hi => ?_
    rw [Nat.zero_add]
    exact h.cell i hi

/-- **`clear`** drops every element and lets go of the buffer. -/
theorem Holds.clear (h : Holds s a l) :
    a.clear s = .ok (l, new) := by
  obtain ⟨size, noDealloc, raw⟩ := a
  obtain ⟨rfl, hd⟩ := h.dealloc
  rw [Array.clear, h.deref]
  show Except.ok (l, Array.mk 0 false raw.clear) = _
  rw [RawArray.clear, if_neg (by rw [hd]; decide), hd]
  rfl

theorem Holds.drop (h : Holds s a l) : a.drop s = .ok l := by
  rw [Array.drop, if_neg (by rw [h.dealloc.1]; decide), h.clear]
  rfl

/-- A store to a slot in use. -/
theorem Stored.store {i : Nat} (h : Stored s a l) (hi : i < l.length) (v : α) :
    ∃ s', store (a.array.slot i) v s = .ok s' ∧ Stored s' a (l.set i v) ∧ s'.mapped = s.mapped ∧
      Frame a.array.segs a.array.segs s s' := by
  obtain ⟨s', hw, howned, hv, hother, hf⟩ := h.owned.write (Nat.lt_of_lt_of_le hi h.le) v
  refine ⟨s', hw, ⟨howned, ?_, ?_, fun j hj => ?_⟩, RawArray.write_mapped hw, hf⟩
  · rw [List.length_set, h.size]
  · rw [List.length_set]
    exact h.le
  · rw [List.length_set] at hj
    by_cases he : j = i
    · rw [he, hv, List.getElem?_set_self hi]
    · rw [hother j (Nat.lt_of_lt_of_le hj h.le) he, h.cell j hj,
        List.getElem?_set_ne (Ne.symm he)]

theorem Holds.store {i : Nat} (h : Holds s a l) (hi : i < l.length) (v : α) :
    ∃ s', store (a.array.slot i) v s = .ok s' ∧ Holds s' a (l.set i v) ∧
      Frame a.array.segs a.array.segs s s' := by
  obtain ⟨s', hs, hst, -, hf⟩ := h.stored.store hi v
  exact ⟨s', hs, ⟨hst.owned, h.exact, hst.size, hst.le, hst.cell, h.dealloc⟩, hf⟩

theorem Stored.load {i : Nat} (h : Stored s a l) (hi : i < l.length) :
    load (a.array.slot i) s = .ok l[i] :=
  h.owned.load (Nat.lt_of_lt_of_le hi h.le) (by rw [h.cell i hi, List.getElem?_eq_getElem hi])

theorem Holds.load {i : Nat} (h : Holds s a l) (hi : i < l.length) :
    load (a.array.slot i) s = .ok l[i] :=
  h.stored.load hi

theorem Holds.index {i : Nat} (h : Holds s a l) (hi : i < l.length) :
    a.index i = .ok (a.array.slot i) := by
  rw [Array.index, Array.get, if_neg (by rw [h.size]; omega)]

/-- **`swap`** replaces an element and returns it. -/
theorem Holds.swap {i : Nat} (h : Holds s a l) (v : α) :
    ∃ s', a.swap i v s = .ok (l[i]?, s') ∧ Holds s' a (l.set i v) ∧
      Frame a.array.segs a.array.segs s s' := by
  unfold Array.swap
  by_cases hi : i < l.length
  · obtain ⟨s', hs, hh, hf⟩ := h.store hi v
    refine ⟨s', ?_, hh, hf⟩
    rw [if_neg (by rw [h.size]; omega), h.index hi, List.getElem?_eq_getElem hi]
    simp only [ok_bind]
    rw [h.load hi]
    simp only [ok_bind]
    rw [hs]
    rfl
  · refine ⟨s, ?_, ?_, Frame.refl _ _⟩
    · rw [if_pos (by rw [h.size]; omega), List.getElem?_eq_none (Nat.not_lt.mp hi)]
    · rw [List.set_eq_of_length_le (Nat.not_lt.mp hi)]
      exact h

/-- All slots in use are written. -/
theorem Holds.stores (h : Holds s a l) (hlen : l'.length = l.length) :
    ∃ s', a.array.stores 0 l' s = .ok s' ∧ Holds s' a l' ∧
      Frame a.array.segs a.array.segs s s' := by
  have hle := h.le
  obtain ⟨s', hs, howned, hcell, -, hf⟩ := RawArray.Owned.stores l' 0 h.owned (by omega)
  refine ⟨s', hs, ⟨howned, h.exact, h.size.trans hlen.symm, by omega, fun i hi => ?_, h.dealloc⟩, hf⟩
  rw [← hcell i hi, Nat.zero_add]

theorem Holds.reverse (h : Holds s a l) :
    ∃ s', a.reverse s = .ok s' ∧ Holds s' a l.reverse ∧
      Frame a.array.segs a.array.segs s s' := by
  obtain ⟨s', hs, hh, hf⟩ := h.stores (List.length_reverse : l.reverse.length = l.length)
  refine ⟨s', ?_, hh, hf⟩
  rw [Array.reverse, h.deref]
  exact hs

/-- A buffer with room behind the list, filled up. -/
theorem holds_filled {raw : RawArray α} {n : Nat} {v : α} (howned : raw.Owned s) (hx : raw.Exact)
    (hn : l.length + n ≤ raw.cap) (hcell : ∀ i < l.length, raw.cell s i = l[i]?)
    (hd : raw.noDealloc = false) :
    ∃ s', raw.stores l.length (List.replicate n v) s = .ok s' ∧
      Holds s' ⟨l.length + n, false, raw⟩ (l ++ List.replicate n v) ∧
      Frame raw.segs raw.segs s s' := by
  obtain ⟨s', hs, howned', hin, hout, hf⟩ :=
    RawArray.Owned.stores (List.replicate n v) l.length howned (by rw [List.length_replicate]; exact hn)
  rw [List.length_replicate] at hin
  have hlen : (l ++ List.replicate n v).length = l.length + n := by
    rw [List.length_append, List.length_replicate]
  refine ⟨s', hs, ⟨howned', hx, hlen.symm, by rw [hlen]; exact hn, fun i hi => ?_, rfl, hd⟩, hf⟩
  rw [hlen] at hi
  by_cases hlt : i < l.length
  · rw [hout i (by omega) (Or.inl hlt), hcell i hlt, List.getElem?_append_left hlt]
  · have := hin (i - l.length) (by omega)
    rw [Nat.add_sub_cancel' (Nat.not_lt.mp hlt)] at this
    rw [this, List.getElem?_append_right (Nat.not_lt.mp hlt)]

/-- **`with_capacity`** holds nothing yet. -/
theorem withCapacity_served {c : Nat} (hsz : 0 < Elem.size α) (hc : 0 < c)
    (hfit : c * Elem.size α < usizeSize) :
    Served (fun q => Holds q.2 q.1 [] ∧ c ≤ q.1.array.cap ∧ Frame [] q.1.array.segs s q.2)
      (withCapacity os c s : Except Fault (Array α × State)) := by
  rw [withCapacity]
  refine Post.bind ((RawArray.owned_new s).reserve hsz (RawArray.bytes_of_lt hsz hc) hc hfit)
    fun q hq => ?_
  have hcap := hq.cap
  refine ⟨⟨hq.owned, hq.exact, rfl, Nat.zero_le _, fun i hi => absurd hi (Nat.not_lt_zero i), rfl,
    hq.noDealloc⟩, ?_, hq.frame⟩
  show c ≤ q.1.cap
  omega

/-- **`of_size`** holds that many defaults. -/
theorem ofSizeUsing_served {n : Nat} {v : α} (hsz : 0 < Elem.size α) (hn : 0 < n)
    (hfit : n * Elem.size α < usizeSize) :
    Served (fun q => Holds q.2 q.1 (List.replicate n v) ∧ Frame [] q.1.array.segs s q.2)
      (ofSizeUsing os v n s) := by
  rw [ofSizeUsing]
  refine Post.bind ((RawArray.owned_new s).reserve hsz (RawArray.bytes_of_lt hsz hn) hn hfit)
    fun q hq => ?_
  obtain ⟨raw, s₁⟩ := q
  obtain ⟨s₂, hs, hh, hf⟩ := @holds_filled α _ s₁ [] raw n v hq.owned hq.exact
    (Nat.le_of_eq ((Nat.zero_add n).trans hq.cap.symm)) (fun i hi => absurd hi (Nat.not_lt_zero i))
    hq.noDealloc
  rw [List.length_nil] at hs
  simp only
  rw [hs]
  rw [List.length_nil, Nat.zero_add, List.nil_append] at hh
  exact ⟨hh, hq.frame.trans hf⟩

/-- **`grow`** appends defaults up to the new size. -/
theorem Holds.grow [Inhabited α] {n : Nat} (h : Holds s a l) (hsz : 0 < Elem.size α)
    (hfit : n * Elem.size α < usizeSize) :
    Served (fun q => Holds q.2 q.1 (l ++ List.replicate (n - l.length) default) ∧
      Frame a.array.segs q.1.array.segs s q.2) (a.grow os n s) := by
  obtain ⟨size, noDealloc, raw⟩ := a
  obtain ⟨howned, hx, hsize, hle, hcell, hd⟩ := h
  simp only at howned hx hsize hle hcell hd
  obtain ⟨rfl, hd⟩ := hd
  subst hsize
  unfold Array.grow
  simp only
  by_cases hn : n > l.length
  · rw [if_pos hn]
    -- the buffer has the room, or `reserve` makes it
    have hres : Served (fun q => q.1.Owned q.2 ∧ q.1.Exact ∧ n ≤ q.1.cap ∧ q.1.noDealloc = false ∧
        (∀ i < l.length, q.1.cell q.2 i = l[i]?) ∧ Frame raw.segs q.1.segs s q.2)
        (raw.reserve os n s) := by
      by_cases hroom : n < raw.cap
      · rw [RawArray.reserve_room hsz hroom]
        exact ⟨howned, hx, Nat.le_of_lt hroom, hd, hcell, Frame.refl _ _⟩
      · refine (howned.reserve hsz (hx.bytes (Nat.not_lt.mp hroom)) (by omega) hfit).mono
          fun q hq => ?_
        refine ⟨hq.owned, hq.exact, Nat.le_of_eq hq.cap.symm, hq.noDealloc.trans hd, fun i hi => ?_, hq.frame⟩
        rw [hq.cell i (by omega), hcell i hi]
    refine Post.bind hres fun q hq => ?_
    obtain ⟨raw', s₁⟩ := q
    obtain ⟨howned', hx', hcap, hd', hcell', hf⟩ := hq
    obtain ⟨s₂, hs, hh, hf'⟩ := @holds_filled α _ s₁ l raw' (n - l.length) default howned' hx'
      (by simp only at hcap; omega) hcell' hd'
    simp only
    rw [hs]
    rw [Nat.add_sub_cancel' (Nat.le_of_lt hn)] at hh
    exact ⟨hh, hf.trans hf'⟩
  · rw [if_neg hn, Nat.sub_eq_zero_of_le (Nat.not_lt.mp hn), List.replicate_zero, List.append_nil]
    exact ⟨⟨howned, hx, rfl, hle, hcell, rfl, hd⟩, Frame.refl _ _⟩

end

end Array

end Apfmalloc
