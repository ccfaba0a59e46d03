import Apfmalloc.Array

/-!
# Loops over arrays

An iterator owns the array it walks and reads it element by element. While it does, the
loop's body allocates and writes elsewhere: into the array it fills, which grows and
moves. `Stable` is the frame rule for that, and `pushAll_served` the rule for the loop
that every use of an iterator in the crate comes down to.

There are three ways to walk an array without giving it up. `iter` collects references
in an array that grows from nothing, `(&a).into_iter()` in one of the right capacity from
the start, and `clone` makes a second array with the first. They agree, but for the array
without elements: its capacity is zero, and no kernel maps zero bytes.
-/

namespace Apfmalloc

open Base

/-- `J o` says something of memory apart from the segments `o`, so that it outlives every
call that keeps to these. -/
def Stable (J : List Segment → State → Prop) : Prop :=
  ∀ {o o' : List Segment} {s s' : State}, Frame o o' s s' → J o s → J o' s'

namespace Array

variable {α : Type} [Elem α] {os : Os} {a b : Array α} {s s' : State} {l xs : List α}

theorem Holds.stable (b : Array α) (l : List α) :
    Stable fun o s => Holds s b l ∧ ∀ seg ∈ b.array.segs, ∀ x ∈ o, seg.Apart x :=
  fun hf h => h.1.frame hf h.2

/-- The elements of `a` are `l`, wherever they are. -/
structure Views (o : List Segment) (s : State) (a : Array α) (l : List α) : Prop where
  size : a.size = l.length
  inside : ∀ i < l.length, ∃ seg ∈ s.mapped, seg.Valid ∧ (∀ x ∈ o, seg.Apart x) ∧
    seg.ptr ≤ a.array.slot i ∧ a.array.slot i + Elem.size α ≤ seg.ptr + regionLen seg.length
  cell : ∀ i < l.length, a.array.cell s i = l[i]?

theorem Views.stable (a : Array α) (l : List α) : Stable fun o s => Views o s a l := by
  intro o o' s s' hf h
  refine ⟨h.size, fun i hi => ?_, fun i hi => ?_⟩
  · obtain ⟨seg, hseg, hv, hap, hlo, hhi⟩ := h.inside i hi
    obtain ⟨hin, hap', -⟩ := hf.kept seg hseg hap
    exact ⟨seg, hin, hv, hap', hlo, hhi⟩
  · obtain ⟨seg, hseg, -, hap, hlo, hhi⟩ := h.inside i hi
    rw [← h.cell i hi]
    refine Elem.read_congr fun k hk => (hf.kept seg hseg hap).2.2 _ ?_
    exact ⟨by omega, by omega⟩

theorem Holds.views {o : List Segment} (h : Holds s a l)
    (hap : ∀ seg ∈ a.array.segs, ∀ x ∈ o, seg.Apart x) : Views o s a l := by
  refine ⟨h.size, fun i hi => ?_, h.cell⟩
  obtain ⟨seg, hseg, hin, hslot, hend, -⟩ := h.owned.slot (Nat.lt_of_lt_of_le hi h.le)
  have hreg := (regionLen_bounds seg.length).1
  have hmem := RawArray.mem_segs hseg
  exact ⟨seg, hin, (h.owned seg hmem).2, hap seg hmem, by omega, by omega⟩

theorem Holds.views_self (h : Holds s a l) : Views [] s a l :=
  h.views fun _ _ _ hx => (List.not_mem_nil hx).elim

theorem Views.load {o : List Segment} (h : Views o s a l) {i : Nat} (hi : i < l.length) :
    load (a.array.slot i) s = .ok l[i] := by
  obtain ⟨seg, hseg, -, -, hlo, hhi⟩ := h.inside i hi
  refine RawArray.load_of_covers (State.covers_segment hseg hlo hhi) ?_
  rw [← List.getElem?_eq_getElem hi]
  exact h.cell i hi

end Array

/-! ## Iterators -/

namespace ArrayIterator

variable {α β : Type} [Elem α] [Elem β] {os : Os} {b : Array β} {s : State} {xs : List β}

theorem next_some {i : Nat} (hsize : b.size = xs.length) (hi : i < xs.length)
    (hload : load (b.array.slot i) s = .ok xs[i]) :
    (⟨i, b⟩ : ArrayIterator β).next s = .ok (some xs[i], ⟨i + 1, b⟩) := by
  have hlt : ¬i ≥ b.size := by
    rw [hsize]
    exact Nat.not_le.mpr hi
  rw [next, if_neg hlt, Array.index, Array.get, if_neg hlt]
  simp only [ok_bind]
  rw [hload]
  rfl

theorem next_none {i : Nat} (hi : b.size ≤ i) :
    (⟨i, b⟩ : ArrayIterator β).next s = .ok (none, ⟨i, b⟩) := by
  rw [next, if_pos hi]

/-- **The loop `for x in it { out.push(f(x)) }`**: it ends, and the array has the images of
what was left to yield. By induction on how much that is. -/
theorem pushAll_served (ys : List α) {f : β → State → Except Fault α}
    {J : List Segment → State → Prop} (hJ : Stable J) (hsz : 0 < Elem.size α)
    (hsize : b.size = xs.length) (hlen : ys.length = xs.length)
    (hload : ∀ {o s}, J o s → ∀ i (hi : i < xs.length), load (b.array.slot i) s = .ok xs[i])
    (hf : ∀ {o s}, J o s → ∀ i (hi : i < xs.length) (hi' : i < ys.length),
      f xs[i] s = .ok ys[i]) :
    ∀ (n i : Nat) {out : Array α} {l : List α} {s : State}, i + n = xs.length → out.Holds s l →
      J out.array.segs s →
      Served (fun q => q.1 = ⟨xs.length, b⟩ ∧ q.2.1.Holds q.2.2 (l ++ ys.drop i) ∧
        J q.2.1.array.segs q.2.2 ∧ Frame out.array.segs q.2.1.array.segs s q.2.2)
        ((⟨i, b⟩ : ArrayIterator β).pushAll os f (n + 1) out s) := by
  intro n
  induction n with
  | zero =>
    intro i out l s hi hout hj
    rw [pushAll, next_none (by omega), List.drop_eq_nil_of_le (by omega), List.append_nil]
    obtain rfl : i = xs.length := by omega
    exact ⟨rfl, hout, hj, Frame.refl _ _⟩
  | succ n ih =>
    intro i out l s hi hout hj
    have hlt : i < xs.length := by omega
    have hlt' : i < ys.length := by omega
    rw [pushAll, next_some hsize hlt (hload hj i hlt)]
    simp only [ok_bind]
    rw [hf hj i hlt hlt']
    simp only [ok_bind]
    refine Post.bind (hout.push hsz ys[i]) fun q hq => ?_
    refine (ih (i + 1) (by omega) hq.1 (hJ hq.2 hj)).mono fun q' hq' => ?_
    obtain ⟨hit, hh, hj', hf'⟩ := hq'
    refine ⟨hit, ?_, hj', hq.2.trans hf'⟩
    rwa [List.append_assoc, List.singleton_append, ← List.drop_eq_getElem_cons hlt'] at hh

/-- What the iterator yields until it is done. -/
def items : Nat → ArrayIterator α → State → Except Fault (List α)
  | 0, _, _ => .error .fuel
  | n + 1, it, s => do
    let (x, it) ← it.next s
    match x with
    | none => .ok []
    | some x => do
      let l ← items n it s
      .ok (x :: l)

theorem items_eq (hsize : b.size = xs.length)
    (hload : ∀ i (hi : i < xs.length), load (b.array.slot i) s = .ok xs[i]) :
    ∀ n i, i + n = xs.length →
      items (n + 1) (⟨i, b⟩ : ArrayIterator β) s = .ok (xs.drop i) := by
  intro n
  induction n with
  | zero =>
    intro i hi
    rw [items, next_none (by omega), List.drop_eq_nil_of_le (by omega)]
    rfl
  | succ n ih =>
    intro i hi
    have hlt : i < xs.length := by omega
    rw [items, next_some hsize hlt (hload i hlt)]
    simp only [ok_bind]
    rw [ih (i + 1) (by omega), List.drop_eq_getElem_cons hlt]
    rfl

end ArrayIterator

/-! ## Collecting -/

namespace Array

variable {α : Type} [Elem α] {os : Os}

theorem extend_served (hsz : 0 < Elem.size α) : ∀ (xs : List α) {a : Array α} {l : List α} {s : State},
    a.Holds s l →
    Served (fun q => q.1.Holds q.2 (l ++ xs) ∧ Frame a.array.segs q.1.array.segs s q.2)
      (extend os xs a s) := by
  intro xs
  induction xs with
  | nil =>
    intro a l s h
    rw [List.append_nil]
    exact ⟨h, Frame.refl _ _⟩
  | cons x xs ih =>
    intro a l s h
    rw [extend]
    refine Post.bind (h.push hsz x) fun q hq => ?_
    refine (ih hq.1).mono fun q' hq' => ⟨?_, hq.2.trans hq'.2⟩
    have hh := hq'.1
    rwa [List.append_assoc, List.singleton_append] at hh

theorem extend_size : ∀ (xs : List α) {a a' : Array α} {s s' : State},
    Array.extend os xs a s = .ok (a', s') → a'.size = a.size + xs.length := by
  intro xs
  induction xs with
  | nil =>
    intro a a' s s' h
    cases h
    rfl
  | cons x xs ih =>
    intro a a' s s' h
    obtain ⟨⟨a₁, s₁⟩, hpush, h⟩ := ok_of_bind h
    rw [ih h, push_size hpush, List.length_cons]
    omega

/-- **`from_iter`** holds what the iterator yielded. -/
theorem fromIter_served (hsz : 0 < Elem.size α) (xs : List α) (s : State) :
    Served (fun q => q.1.Holds q.2 xs ∧ Frame [] q.1.array.segs s q.2) (fromIter os xs s) :=
  extend_served hsz xs (holds_new s)

end Array

/-! ## Walking an array through references -/

namespace Array

variable {α : Type} [Elem α] {os : Os} {a : Array α} {s : State} {l : List α} {cl : α → α}

/-- References to `n` elements from `i` on. -/
def refs (a : Array α) (i n : Nat) : List UInt64 :=
  (List.range' i n).map fun i => UInt64.ofNat (a.array.slot i)

/-- The elements that references point to. -/
def derefs : List UInt64 → State → Except Fault (List α)
  | [], _ => .ok []
  | ref :: refs, s => do
    let x ← load ref.toNat s
    let l ← derefs refs s
    .ok (x :: l)

/-- The elements that an iterator over references comes by. -/
def walk (it : ArrayIterator UInt64) (s : State) : Except Fault (List α) := do
  let refs ← it.items (it.array.size + 1) s
  derefs refs s

/-- What each of the three ways yields. -/
def elemsIter (os : Os) (a : Array α) (s : State) : Except Fault (List α) := do
  let (it, s) ← a.iter os s
  walk it s

def elemsRef (os : Os) (a : Array α) (s : State) : Except Fault (List α) := do
  let (it, s) ← a.intoIterRef os s
  walk it s

def elemsClone (os : Os) (cl : α → α) (a : Array α) (s : State) : Except Fault (List α) := do
  let (c, s) ← a.clone os cl s
  c.intoIter.items (c.size + 1) s

theorem slot_toNat (a : Array α) (i : Nat) :
    (UInt64.ofNat (a.array.slot i)).toNat = a.array.slot i := by
  rw [UInt64.toNat_ofNat']
  exact Nat.mod_eq_of_lt (Nat.mod_lt _ (by decide))

theorem pushRefs_served : ∀ (n i : Nat) {arr : Array UInt64} {l : List UInt64} {s : State},
    i + n ≤ a.size → arr.Holds s l →
    Served (fun q => q.1.Holds q.2 (l ++ a.refs i n) ∧ Frame arr.array.segs q.1.array.segs s q.2)
      (a.pushRefs os i n arr s) := by
  intro n
  induction n with
  | zero =>
    intro i arr l s _ h
    rw [refs, List.range'_zero, List.map_nil, List.append_nil]
    exact ⟨h, Frame.refl _ _⟩
  | succ n ih =>
    intro i arr l s hi h
    rw [pushRefs, index, get, if_neg (by omega)]
    simp only [ok_bind]
    refine Post.bind (h.push (by decide) _) fun q hq => ?_
    refine (ih (i + 1) (by omega) hq.1).mono fun q' hq' => ⟨?_, hq.2.trans hq'.2⟩
    have hh := hq'.1
    rwa [List.append_assoc, List.singleton_append] at hh

theorem Views.derefs {o : List Segment} (h : Views o s a l) : ∀ n i, i + n = l.length →
    Array.derefs (a.refs i n) s = .ok (l.drop i) := by
  intro n
  induction n with
  | zero =>
    intro i hi
    rw [List.drop_eq_nil_of_le (by omega)]
    rfl
  | succ n ih =>
    intro i hi
    have hlt : i < l.length := by omega
    rw [refs, List.range'_succ, List.map_cons, Array.derefs, slot_toNat, h.load hlt]
    simp only [ok_bind]
    have := ih (i + 1) (by omega)
    rw [refs] at this
    rw [this, List.drop_eq_getElem_cons hlt]
    rfl

/-- An iterator over references to the elements. -/
structure RefIter (a : Array α) (l : List α) (q : ArrayIterator UInt64 × State) : Prop where
  index : q.1.index = 0
  held : q.1.array.Holds q.2 (a.refs 0 l.length)
  views : Views q.1.array.array.segs q.2 a l

/-- The references are collected in an empty array, of whatever capacity. -/
theorem refIter_served {arr : Array UInt64} (hviews : Views arr.array.segs s a l)
    (harr : arr.Holds s []) :
    Served (fun q => RefIter a l (q.1.intoIter, q.2) ∧ Frame arr.array.segs q.1.array.segs s q.2)
      (a.pushRefs os 0 a.size arr s) := by
  have hp := @pushRefs_served α _ os a a.size 0 arr [] s (by omega) harr
  refine hp.mono fun q hq => ⟨⟨rfl, ?_, Views.stable a l hq.2 hviews⟩, hq.2⟩
  have hh := hq.1
  rwa [List.nil_append, hviews.size] at hh

theorem iter_served (hviews : Views [] s a l) : Served (RefIter a l) (a.iter os s) := by
  rw [iter]
  exact Post.bind (refIter_served hviews (holds_new s)) fun q hq => hq.1

/-- The references take a segment of their own. -/
theorem intoIterRef_served (hviews : Views [] s a l) (hl : l ≠ [])
    (hfit : l.length * 8 < usizeSize) :
    Served (fun q => RefIter a l q ∧ Frame [] q.1.array.array.segs s q.2)
      (a.intoIterRef os s) := by
  have hpos : 0 < l.length := List.length_pos_iff.mpr hl
  rw [intoIterRef]
  refine Post.bind (withCapacity_served (by decide) (by rw [hviews.size]; exact hpos)
    (by rw [hviews.size]; exact hfit)) fun q hq => ?_
  exact Post.bind (refIter_served (Views.stable a l hq.2.2 hviews) hq.1)
    fun q' hq' => ⟨hq'.1, hq.2.2.trans hq'.2⟩

/-- A walk through references sees the elements. -/
theorem RefIter.walk {q : ArrayIterator UInt64 × State} (h : RefIter a l q) :
    Array.walk q.1 q.2 = .ok l := by
  obtain ⟨⟨i, arr⟩, s⟩ := q
  obtain ⟨rfl, hrefs, hviews⟩ := h
  have hitems := @ArrayIterator.items_eq UInt64 _ arr s (a.refs 0 l.length) hrefs.size
    (fun i hi => hrefs.load hi) arr.size 0 (by rw [hrefs.size, Nat.zero_add])
  rw [Array.walk, hitems, List.drop_zero, ok_bind, hviews.derefs l.length 0 (Nat.zero_add _), List.drop_zero]

theorem length_refs (a : Array α) (i n : Nat) : (a.refs i n).length = n := by
  rw [refs, List.length_map, List.length_range']

/-- A reference read through. -/
theorem Views.load_ref {o : List Segment} (h : Views o s a l) {i : Nat}
    (hi : i < (a.refs 0 l.length).length) (hl : i < l.length) :
    Apfmalloc.load (a.refs 0 l.length)[i].toNat s = .ok l[i] := by
  simp only [refs, List.getElem_map, List.getElem_range', Nat.zero_add, Nat.one_mul]
  rw [slot_toNat, h.load hl]

/-- The copy of an array holds the copies. -/
theorem clone_served (hviews : Views [] s a l) (hsz : 0 < Elem.size α) :
    Served (fun q => q.1.Holds q.2 (l.map cl)) (a.clone os cl s) := by
  rw [clone]
  refine Post.bind (iter_served hviews) fun q hq => ?_
  obtain ⟨⟨i, arr⟩, s₁⟩ := q
  obtain ⟨rfl, hrefs, hv⟩ := hq
  simp only at hrefs hv
  -- the references and the elements stay as they are while the copy grows
  have hJ : Stable fun o s => (arr.Holds s (a.refs 0 l.length) ∧
      ∀ seg ∈ arr.array.segs, ∀ x ∈ o, seg.Apart x) ∧ Views o s a l :=
    fun hf h => ⟨Holds.stable _ _ hf h.1, Views.stable _ _ hf h.2⟩
  have hlen := length_refs a 0 l.length
  refine Post.bind (ArrayIterator.pushAll_served (l.map cl) hJ hsz hrefs.size
    (by rw [List.length_map, hlen]) (fun hj i hi => hj.1.1.load hi) ?_ arr.size 0
    (by rw [hrefs.size, Nat.zero_add]) (holds_new s₁) ?_) fun q hq => ?_
  · intro o s hj i hi hi'
    have hl : i < l.length := by rwa [hlen] at hi
    rw [hj.2.load_ref hi hl, List.getElem_map]
    rfl
  · refine ⟨⟨hrefs, fun _ _ x hx => (List.not_mem_nil hx).elim⟩, ⟨hv.size, fun i hi => ?_, hv.cell⟩⟩
    obtain ⟨seg, hseg, hvalid, -, hlo, hhi⟩ := hv.inside i hi
    exact ⟨seg, hseg, hvalid, fun x hx => (List.not_mem_nil hx).elim, hlo, hhi⟩
  · have hh := hq.2.1
    rwa [List.nil_append, List.drop_zero] at hh

/-! ## The three ways compared -/

/-- No kernel maps zero bytes. -/
theorem allocateUnwrap_zero (os : Os) (s : State) :
    allocateUnwrap os 0 s = .error (.refused 0) := by
  unfold allocateUnwrap
  cases hseg : segAllocate os 0 s with
  | none => rfl
  | some q =>
    obtain ⟨hlen, hv, -⟩ := segAllocate_cases hseg
    have := hv.length_pos
    omega

/-- The first push of an element without bytes. -/
theorem push_new_zero (hsz : Elem.size α = 0) (v : α) :
    (new : Array α).push os v s = .error (.refused 0) := by
  have hres : (RawArray.new : RawArray α).reserve os 1 s = .error (.refused 0) := by
    rw [RawArray.reserve_none os 1 rfl, hsz, Nat.mul_zero, Nat.zero_mod, allocateUnwrap_zero]
    rfl
  show (do let q ← (RawArray.new : RawArray α).reserve os 1 s; _) = _
  rw [hres]
  rfl

theorem elemsRef_nil (hviews : Views [] s a []) : a.elemsRef os s = .error (.refused 0) := by
  have hsize : a.size = 0 := hviews.size
  have hres : (RawArray.new : RawArray UInt64).reserve os 0 s = .error (.refused 0) := by
    rw [RawArray.reserve_none os 0 rfl, Nat.zero_mul, Nat.zero_mod, allocateUnwrap_zero]
    rfl
  rw [elemsRef, intoIterRef, withCapacity, RawArray.withCapacity, hsize, hres]
  rfl

/-- Mapped elements are fewer than addresses. -/
theorem Views.length_le {o : List Segment} (h : Views o s a l) (hsz : 0 < Elem.size α) :
    l.length ≤ addrSpace + 1 := by
  have hlt : ∀ i < l.length, a.array.slot i < addrSpace := by
    intro i hi
    obtain ⟨seg, -, hv, -, -, hend⟩ := h.inside i hi
    have := hv.bound
    omega
  apply Nat.le_of_not_lt
  intro hlen
  have hend := hlt _ (Nat.lt_of_le_of_lt (RawArray.endSlot_le α) hlen)
  exact absurd (RawArray.slot_endSlot hsz (hlt 0 (by omega))) (Nat.not_le.mpr hend)

/-- **Walking an array.** The three ways yield the elements in order and end, exactly if
there are any, for elements of at least one byte. For elements without bytes the copy
panics, if it gets so far. -/
theorem array_traversals_iff {α : Type} [Elem α] {a : Array α} {s : State} {l : List α}
    (cl : α → α) (hviews : Views [] s a l) :
    (0 < Elem.size α →
      ((∀ os, Served (· = l) (a.elemsIter os s) ∧ Served (· = l) (a.elemsRef os s) ∧
        Served (· = l.map cl) (a.elemsClone os cl s)) ↔ l ≠ [])) ∧
    (Elem.size α = 0 → l ≠ [] → ∀ os it, a.iter os s = .ok it →
      a.elemsClone os cl s = .error (.refused 0)) := by
  refine ⟨fun hsz => ⟨fun h hl => ?_, fun hl os => ⟨?_, ?_, ?_⟩⟩, fun hsz hl os it hit => ?_⟩
  · subst hl
    have := (h Os.bump).2.1
    rw [elemsRef_nil hviews] at this
    exact absurd this (Nat.lt_irrefl 0)
  · rw [elemsIter]
    refine Post.bind (iter_served hviews) fun q hq => ?_
    show Served _ (walk q.1 q.2)
    rw [hq.walk]
    exact rfl
  · have hle := hviews.length_le hsz
    have hfit : l.length * 8 < usizeSize :=
      Nat.lt_of_le_of_lt (Nat.mul_le_mul_right 8 hle) (by decide)
    rw [elemsRef]
    refine Post.bind (intoIterRef_served hviews hl hfit) fun q hq => ?_
    show Served _ (walk q.1 q.2)
    rw [hq.1.walk]
    exact rfl
  · rw [elemsClone]
    refine Post.bind (clone_served hviews hsz) fun q hq => ?_
    have hitems := @ArrayIterator.items_eq α _ q.1 q.2 (l.map cl) hq.size
      (fun i hi => hq.load hi) q.1.size 0 (by rw [hq.size, Nat.zero_add])
    simp only [intoIter]
    rw [hitems, List.drop_zero]
    exact rfl
  · -- the first reference is read through, and what it points to has no place to go
    have hpos : 0 < l.length := List.length_pos_iff.mpr hl
    have hri : RefIter a l it := (iter_served hviews).of_ok hit
    obtain ⟨⟨i, arr⟩, s₁⟩ := it
    obtain ⟨rfl, hrefs, hv⟩ := hri
    simp only at hrefs hv
    have hlt : 0 < (a.refs 0 l.length).length := by rw [length_refs]; exact hpos
    rw [elemsClone, clone, hit]
    simp only [ok_bind]
    rw [ArrayIterator.pushAll, ArrayIterator.next_some hrefs.size hlt (hrefs.load hlt)]
    simp only [ok_bind]
    rw [hv.load_ref hlt hpos]
    simp only [Except.map, ok_bind]
    rw [push_new_zero hsz]
    rfl

/-- Of two elements, by all three. -/
theorem array_traversals_two :
    ∃ (a : Array UInt64) (s : State), fromIter Os.bump [7, 8] startState = .ok (a, s) ∧
      ∀ os, Served (· = [7, 8]) (a.elemsIter os s) ∧ Served (· = [7, 8]) (a.elemsRef os s) ∧
        Served (· = [7, 8]) (a.elemsClone os id s) := by
  have h : (fromIter (α := UInt64) Os.bump [7, 8] startState).toOption.isSome = true := by
    decide +kernel
  obtain ⟨⟨a, s⟩, hr⟩ := ok_of_isSome h
  have hh : a.Holds s [7, 8] := ((fromIter_served (by decide) _ _).of_ok hr).1
  have hviews : Views [] s a [7, 8] := hh.views_self
  have hall := ((array_traversals_iff id hviews).1 (by decide)).mpr (List.cons_ne_nil _ _)
  rw [List.map_id] at hall
  exact ⟨a, s, hr, hall⟩

/-- `iter` of the empty array yields nothing, and `(&a).into_iter()` panics. -/
theorem traversal_empty_panics :
    (new : Array UInt64).Holds startState [] ∧
      (new : Array UInt64).elemsIter Os.bump startState = .ok [] ∧
      (new : Array UInt64).elemsRef Os.bump startState = .error (.refused 0) := by
  refine ⟨holds_new _, rfl, elemsRef_nil ?_⟩
  exact (holds_new _).views_self

end Array

end Apfmalloc
