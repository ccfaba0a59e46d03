import Apfmalloc.ArrayIter

/-!
# Runs of an array

Every sequence of operations on an array does what the same operations do on a list, for
elements of at least one byte. `remove` is the one with work in it: the elements above
the index go through a second array and back.

The condition is on the capacities asked for. `reserve` multiplies by the size of an
element without a check, and a product past `2^64` wraps to a small one: the segment is
mapped, and `of_size` and `grow` write their defaults far behind it. `array_refines_list`
is about all runs in which no product wraps.
-/

namespace Apfmalloc

open Base

namespace Array

variable {α : Type} [Elem α] {os : Os} {a : Array α} {s : State} {l pre post : List α} {v : α}

/-! ## `remove` -/

/-- **The first loop**: what is above comes off in reverse, `a` keeps its buffer. -/
theorem popInto_served (hsz : 0 < Elem.size α) : ∀ (xs : List α) {a saved : Array α}
    {sv : List α} {s : State}, Holds s a (l ++ xs.reverse) → Holds s saved sv →
    (∀ seg ∈ a.array.segs, ∀ x ∈ saved.array.segs, seg.Apart x) →
    Served (fun q => q.1.array = a.array ∧ Holds q.2.2 q.1 l ∧ Holds q.2.2 q.2.1 (sv ++ xs) ∧
      (∀ seg ∈ a.array.segs, ∀ x ∈ q.2.1.array.segs, seg.Apart x) ∧
      Frame saved.array.segs q.2.1.array.segs s q.2.2) (popInto os xs.length a saved s) := by
  intro xs
  induction xs with
  | nil =>
    intro a saved sv s ha hsv hap
    rw [List.reverse_nil, List.append_nil] at ha
    rw [List.append_nil]
    exact ⟨rfl, ha, hsv, hap, Frame.refl _ _⟩
  | cons x xs ih =>
    intro a saved sv s ha hsv hap
    rw [List.reverse_cons, ← List.append_assoc] at ha
    rw [List.length_cons, popInto, ha.pop]
    simp only [ok_bind]
    refine Post.bind (hsv.push hsz x) fun q hq => ?_
    -- the push of the one array leaves the other alone
    obtain ⟨ha', hap'⟩ := ha.dropLast.frame hq.2 hap
    refine (ih ha' hq.1 hap').mono fun q' hq' => ?_
    obtain ⟨heq, hl, hs, hap'', hf⟩ := hq'
    refine ⟨heq, hl, ?_, hap'', hq.2.trans hf⟩
    rwa [List.append_assoc, List.singleton_append] at hs

/-- **The second loop**: the saved elements go back, and are dropped with their array. -/
theorem pushBack_served {saved : Array α} (hsz : 0 < Elem.size α) (ha : Holds s a pre)
    (hsv : Holds s saved post) (hap : ∀ seg ∈ saved.array.segs, ∀ x ∈ a.array.segs, seg.Apart x) :
    Served (fun q => Holds q.2.2 q.2.1 (pre ++ post) ∧ q.1.array.drop q.2.2 = .ok post ∧
      Frame a.array.segs q.2.1.array.segs s q.2.2)
      (saved.intoIter.pushAll os (fun x _ => .ok x) (saved.size + 1) a s) := by
  have hp := @ArrayIterator.pushAll_served α α _ _ os saved post post (fun x _ => .ok x) _
    (Holds.stable saved post) hsz hsv.size rfl (fun hj i hi => hj.1.load hi)
    (fun _ i _ _ => rfl) saved.size 0 a pre s (by rw [hsv.size, Nat.zero_add]) ha ⟨hsv, hap⟩
  refine hp.mono fun q hq => ?_
  obtain ⟨hit, hh, hj, hf⟩ := hq
  rw [List.drop_zero] at hh
  rw [hit]
  exact ⟨hh, hj.1.drop, hf⟩

/-- **`remove`** takes the element out. What it drops are the elements behind it. -/
theorem Holds.remove_mid (h : Holds s a (pre ++ v :: post)) (hsz : 0 < Elem.size α) :
    Served (fun q => q.1 = some v ∧ q.2.1 = post ∧ Holds q.2.2.2 q.2.2.1 (pre ++ post) ∧
      Frame a.array.segs q.2.2.1.array.segs s q.2.2.2) (a.remove os pre.length s) := by
  have hsize : a.size = pre.length + (post.length + 1) := by
    rw [h.size, List.length_append, List.length_cons]
  have hlen : a.size - pre.length - 1 = post.reverse.length := by
    rw [List.length_reverse, hsize]
    omega
  have ha : Holds s a ((pre ++ [v]) ++ post.reverse.reverse) := by
    rwa [List.reverse_reverse, List.append_assoc, List.singleton_append]
  rw [Array.remove, if_neg (by omega), hlen]
  refine Post.bind (popInto_served hsz post.reverse ha (holds_new s)
    fun _ _ x hx => (List.not_mem_nil hx).elim) fun q hq => ?_
  obtain ⟨a₁, saved, s₁⟩ := q
  obtain ⟨heq, ha₁, hsv, hap, hf₁⟩ := hq
  simp only at heq ha₁ hsv hap hf₁
  rw [List.nil_append] at hsv
  simp only
  rw [ha₁.pop]
  simp only [ok_bind]
  obtain ⟨s₂, hrev, hsv₂, hf₂⟩ := hsv.reverse
  rw [List.reverse_reverse] at hsv₂
  rw [hrev]
  simp only [ok_bind]
  obtain ⟨ha₂, hap₂⟩ := ha₁.dropLast.frame hf₂ (by rw [heq]; exact hap)
  have hap₂' : ∀ seg ∈ saved.array.segs, ∀ x ∈ a₁.array.segs, seg.Apart x :=
    fun seg hseg x hx => (hap₂ x hx seg hseg).symm
  refine Post.bind (pushBack_served hsz ha₂ hsv₂ hap₂') fun q hq => ?_
  obtain ⟨it, a₃, s₃⟩ := q
  obtain ⟨ha₃, hdrop, hf₃⟩ := hq
  simp only at ha₃ hdrop hf₃
  simp only
  rw [hdrop]
  refine ⟨rfl, rfl, ha₃, ?_⟩
  -- the second array came and went in between
  have hA : Frame a.array.segs (saved.array.segs ++ a.array.segs) s s₁ := hf₁.append _
  have hB : Frame (saved.array.segs ++ a.array.segs) (saved.array.segs ++ a.array.segs) s₁ s₂ :=
    hf₂.append _
  have hC : Frame (saved.array.segs ++ a.array.segs) a₃.array.segs s₂ s₃ := by
    refine hf₃.mono (fun seg hseg => List.mem_append_right _ ?_) fun seg hseg => hseg
    rwa [heq] at hseg
  exact hA.trans (hB.trans hC)

theorem Holds.remove {i : Nat} (h : Holds s a l) (hsz : 0 < Elem.size α) :
    Served (fun q => q.1 = l[i]? ∧ q.2.1 = l.drop (i + 1) ∧
      Holds q.2.2.2 q.2.2.1 (l.eraseIdx i) ∧
      Frame a.array.segs q.2.2.1.array.segs s q.2.2.2) (a.remove os i s) := by
  by_cases hi : i < l.length
  · have hsplit : l = l.take i ++ l[i] :: l.drop (i + 1) := by
      rw [← List.drop_eq_getElem_cons hi, List.take_append_drop]
    have hlen : (l.take i).length = i := List.length_take_of_le (Nat.le_of_lt hi)
    have h' := h
    rw [hsplit] at h'
    have hr := @Holds.remove_mid α _ os a s (l.take i) (l.drop (i + 1)) l[i] h' hsz
    rw [hlen] at hr
    rw [List.getElem?_eq_getElem hi, List.eraseIdx_eq_take_drop_succ]
    exact hr
  · rw [Array.remove, if_pos (by rw [h.size]; omega), List.getElem?_eq_none (Nat.not_lt.mp hi),
      List.drop_eq_nil_of_le (by omega), List.eraseIdx_of_length_le (Nat.not_lt.mp hi)]
    exact ⟨rfl, rfl, h, Frame.refl _ _⟩

end Array

/-! ## Operations -/

inductive ArrayOp (α : Type)
  | push (val : α)
  | pop
  | swap (index : Nat) (val : α)
  | remove (index : Nat)
  | grow (newSize : Nat)
  | clear
  /-- `a[index] = val` -/
  | set (index : Nat) (val : α)
  /-- a write through `get_mut`, if that gives a reference -/
  | getMut (index : Nat) (val : α)

inductive ArrayOut (α : Type)
  | done
  | value (x : Option α)
  | found (b : Bool)
  /-- the index is out of bounds; nothing was written -/
  | panicked
  deriving DecidableEq, Repr

inductive ArrayStart (α : Type)
  | new
  | withCapacity (capacity : Nat)
  | ofSize (size : Nat)
  | fromIter (xs : List α)

section
variable {α : Type} [Elem α] [Inhabited α]

def ArrayOp.exec (os : Os) : ArrayOp α → Array α → State →
    Except Fault (ArrayOut α × Array α × State)
  | .push val, a, s => do
    let (a, s) ← a.push os val s
    .ok (.done, a, s)
  | .pop, a, s => do
    let (x, a) ← a.pop s
    .ok (.value x, a, s)
  | .swap index val, a, s => do
    let (x, s) ← a.swap index val s
    .ok (.value x, a, s)
  | .remove index, a, s => do
    let (x, _, a, s) ← a.remove os index s
    .ok (.value x, a, s)
  | .grow newSize, a, s => do
    let (a, s) ← a.grow os newSize s
    .ok (.done, a, s)
  | .clear, a, s => do
    let (_, a) ← a.clear s
    .ok (.done, a, s)
  | .set index val, a, s =>
    match a.index index with
    | .error _ => .ok (.panicked, a, s)
    | .ok ptr => do
      let s ← store ptr val s
      .ok (.done, a, s)
  | .getMut index val, a, s =>
    match a.getMut index with
    | none => .ok (.found false, a, s)
    | some ptr => do
      let s ← store ptr val s
      .ok (.found true, a, s)

/-- Each operation has a kernel of its own. -/
def Array.runOps : List (Os × ArrayOp α) → Array α → State →
    Except Fault (List (ArrayOut α) × Array α × State)
  | [], a, s => .ok ([], a, s)
  | (os, op) :: ops, a, s => do
    let (out, a, s) ← op.exec os a s
    let (outs, a, s) ← Array.runOps ops a s
    .ok (out :: outs, a, s)

def ArrayStart.build (os : Os) : ArrayStart α → State → Except Fault (Array α × State)
  | .new, s => .ok (Array.new, s)
  | .withCapacity capacity, s => Array.withCapacity os capacity s
  | .ofSize size, s => Array.ofSize os size s
  | .fromIter xs, s => Array.fromIter os xs s

def ArrayStart.run (start : ArrayStart α) (os : Os) (ops : List (Os × ArrayOp α)) (s : State) :
    Except Fault (List (ArrayOut α) × Array α × State) := do
  let (a, s) ← start.build os s
  Array.runOps ops a s

/-! ## The list -/

def ArrayOp.onList : ArrayOp α → List α → ArrayOut α × List α
  | .push val, l => (.done, l ++ [val])
  | .pop, l => (.value l.getLast?, l.dropLast)
  | .swap index val, l => (.value l[index]?, l.set index val)
  | .remove index, l => (.value l[index]?, l.eraseIdx index)
  | .grow newSize, l => (.done, l ++ List.replicate (newSize - l.length) default)
  | .clear, _ => (.done, [])
  | .set index val, l => (if index < l.length then .done else .panicked, l.set index val)
  | .getMut index val, l => (.found (decide (index < l.length)), l.set index val)

def listOps : List (Os × ArrayOp α) → List α → List (ArrayOut α) × List α
  | [], l => ([], l)
  | (_, op) :: ops, l =>
    ((op.onList l).1 :: (listOps ops (op.onList l).2).1, (listOps ops (op.onList l).2).2)

def ArrayStart.list : ArrayStart α → List α
  | .new => []
  | .withCapacity _ => []
  | .ofSize size => List.replicate size default
  | .fromIter xs => xs

/-- The bytes of the capacity asked for are a `usize`. -/
def ArrayOp.Fits : ArrayOp α → Prop
  | .grow newSize => newSize * Elem.size α < usizeSize
  | _ => True

def ArrayStart.Fits : ArrayStart α → Prop
  | .withCapacity capacity => 1 ≤ capacity ∧ capacity * Elem.size α < usizeSize
  | .ofSize size => 1 ≤ size ∧ size * Elem.size α < usizeSize
  | _ => True

/-! ## Refinement -/

variable {os : Os} {a : Array α} {s : State} {l : List α}

theorem holds_start (hsz : 0 < Elem.size α) (start : ArrayStart α) (hfit : start.Fits) (s : State) :
    Served (fun q => q.1.Holds q.2 start.list) (start.build os s) := by
  cases start with
  | new => exact Array.holds_new s
  | withCapacity c => exact (Array.withCapacity_served hsz hfit.1 hfit.2).mono fun q hq => hq.1
  | ofSize m => exact (Array.ofSizeUsing_served hsz hfit.1 hfit.2).mono fun q hq => hq.1
  | fromIter xs => exact (Array.fromIter_served hsz xs s).mono fun q hq => hq.1

/-- **One operation** on the array is the one on the list. -/
theorem ArrayOp.exec_served (hsz : 0 < Elem.size α) (h : a.Holds s l) (op : ArrayOp α)
    (hfit : op.Fits) :
    Served (fun q => q.1 = (op.onList l).1 ∧ q.2.1.Holds q.2.2 (op.onList l).2)
      (op.exec os a s) := by
  cases op with
  | push val => exact Post.bind (h.push hsz val) fun q hq => ⟨rfl, hq.1⟩
  | pop =>
    rw [ArrayOp.exec]
    rcases List.eq_nil_or_concat l with rfl | ⟨l', x, rfl⟩
    · rw [h.pop_nil]
      exact ⟨rfl, h⟩
    · rw [List.concat_eq_append] at h ⊢
      rw [h.pop, ArrayOp.onList, List.getLast?_concat, List.dropLast_concat]
      exact ⟨rfl, h.dropLast⟩
  | swap index val =>
    obtain ⟨s', hs, hh, -⟩ := @Array.Holds.swap α _ a s l index h val
    rw [ArrayOp.exec, hs]
    exact ⟨rfl, hh⟩
  | remove index =>
    refine Post.bind (h.remove hsz) fun q hq => ?_
    obtain ⟨x, dropped, a', s'⟩ := q
    obtain ⟨hx, -, hh, -⟩ := hq
    exact ⟨by rw [ArrayOp.onList, ← hx], hh⟩
  | grow newSize => exact Post.bind (h.grow hsz hfit) fun q hq => ⟨rfl, hq.1⟩
  | clear =>
    rw [ArrayOp.exec, h.clear]
    exact ⟨rfl, Array.holds_new s⟩
  | set index val =>
    rw [ArrayOp.exec, ArrayOp.onList]
    by_cases hi : index < l.length
    · obtain ⟨s', hs, hh, -⟩ := h.store hi val
      rw [h.index hi, if_pos hi]
      simp only
      rw [hs]
      exact ⟨rfl, hh⟩
    · rw [if_neg hi, Array.index, Array.get, if_pos (by rw [h.size]; omega),
        List.set_eq_of_length_le (Nat.not_lt.mp hi)]
      exact ⟨rfl, h⟩
  | getMut index val =>
    rw [ArrayOp.exec, ArrayOp.onList]
    by_cases hi : index < l.length
    · obtain ⟨s', hs, hh, -⟩ := h.store hi val
      rw [Array.getMut, if_neg (by rw [h.size]; omega), decide_eq_true hi]
      simp only
      rw [hs]
      exact ⟨rfl, hh⟩
    · rw [Array.getMut, if_pos (by rw [h.size]; omega), decide_eq_false hi,
        List.set_eq_of_length_le (Nat.not_lt.mp hi)]
      exact ⟨rfl, h⟩

/-- **A run**, by induction on the operations. -/
theorem runOps_served (hsz : 0 < Elem.size α) : ∀ (ops : List (Os × ArrayOp α)) {a : Array α}
    {l : List α} {s : State}, (∀ op ∈ ops, op.2.Fits) → a.Holds s l →
    Served (fun q => q.1 = (listOps ops l).1 ∧ q.2.1.Holds q.2.2 (listOps ops l).2)
      (Array.runOps ops a s) := by
  intro ops
  induction ops with
  | nil =>
    intro a l s _ h
    exact ⟨rfl, h⟩
  | cons p ops ih =>
    intro a l s hfit h
    obtain ⟨os, op⟩ := p
    rw [Array.runOps]
    refine Post.bind (op.exec_served hsz h (hfit _ (List.mem_cons_self ..))) fun q hq => ?_
    obtain ⟨out, a₁, s₁⟩ := q
    obtain ⟨hout, h₁⟩ := hq
    simp only at hout h₁
    refine Post.bind (ih (fun op' hop => hfit op' (List.mem_cons_of_mem _ hop)) h₁) fun q hq => ?_
    obtain ⟨outs, a₂, s₂⟩ := q
    obtain ⟨houts, h₂⟩ := hq
    simp only at houts h₂
    exact ⟨by rw [listOps, hout, houts], h₂⟩

/-- What a caller sees of an array: `[self[0], …, self[len - 1]]`, in a buffer that has room
for it. -/
def Array.Shows (s : State) (a : Array α) (l : List α) : Prop :=
  a.array.loads 0 a.size s = .ok l ∧ ∃ c, a.array.capacity = .ok c ∧ a.size ≤ c

omit [Inhabited α] in
theorem Array.Holds.shows (h : a.Holds s l) (hsz : 0 < Elem.size α) : a.Shows s l := by
  have hle := h.le
  refine ⟨?_, a.array.cap, RawArray.capacity_eq hsz _, by rw [h.size]; exact hle⟩
  rw [h.size]
  refine h.owned.loads l 0 (by omega) fun i hi => ?_
  rw [Nat.zero_add]
  exact h.cell i hi

end

/-- **An array is a list.** Whatever it was made from and whatever is done to it, each
operation returns what it returns on a list, and the array shows the list after it. No
call fails but for want of memory. This is for runs in which no capacity in bytes is
past `usize::MAX`. -/
theorem array_refines_list {α : Type} [Elem α] [Inhabited α] (hsz : 0 < Elem.size α)
    (start : ArrayStart α) (ops : List (Os × ArrayOp α)) (hstart : start.Fits)
    (hops : ∀ op ∈ ops, op.2.Fits) (os : Os) (s : State) :
    Served (fun q => q.1 = (listOps ops start.list).1 ∧
      q.2.1.Shows q.2.2 (listOps ops start.list).2) (start.run os ops s) := by
  rw [ArrayStart.run]
  refine Post.bind (holds_start hsz start hstart s) fun q hq => ?_
  refine (runOps_served hsz ops hops hq).mono fun q hq => ?_
  exact ⟨hq.1, hq.2.shows hsz⟩

/-- Two defaults, one more element, an exchange and a removal. -/
theorem array_refines_list_four :
    ∃ a s, (ArrayStart.ofSize 2 : ArrayStart UInt64).run Os.bump
        [(Os.bump, .push 5), (Os.bump, .swap 0 7), (Os.bump, .remove 1), (Os.bump, .pop)]
        startState = .ok ([.done, .value (some 0), .value (some 0), .value (some 5)], a, s) ∧
      a.Shows s [7] := by
  have h : ((ArrayStart.ofSize 2 : ArrayStart UInt64).run Os.bump
      [(Os.bump, .push 5), (Os.bump, .swap 0 7), (Os.bump, .remove 1), (Os.bump, .pop)]
      startState).toOption.isSome = true := by
    decide +kernel
  obtain ⟨⟨outs, a, s⟩, hr⟩ := ok_of_isSome h
  have hs := array_refines_list (by decide) (ArrayStart.ofSize 2 : ArrayStart UInt64)
    [(Os.bump, .push 5), (Os.bump, .swap 0 7), (Os.bump, .remove 1), (Os.bump, .pop)]
    ⟨by decide, by decide⟩ (by simp [ArrayOp.Fits]) Os.bump startState
  obtain ⟨houts, hshows⟩ := hs.of_ok hr
  obtain rfl : outs = [.done, .value (some 0), .value (some 0), .value (some 5)] := houts
  exact ⟨a, s, hr, hshows⟩

/-- A product that wraps, with a segment for what is left of it. -/
theorem ofSizeUsing_wraps {α : Type} [Elem α] {os : Os} {n : Nat} {v : α} {s : State}
    {q : Segment × State} (hsz : 0 < Elem.size α) (hv : ∀ seg ∈ s.mapped, seg.Valid)
    (hwrap : usizeSize ≤ n * Elem.size α)
    (hgrant : allocateUnwrap os (n * Elem.size α % usizeSize) s = .ok q) :
    Array.ofSizeUsing os v n s = .error .segv := by
  obtain ⟨-, hq, -, hs₁⟩ := RawArray.allocateUnwrap_cases hgrant
  have hv₁ : ∀ seg ∈ q.2.mapped, seg.Valid := by
    rw [hs₁]
    intro seg hseg
    rcases List.mem_cons.mp hseg with rfl | hseg
    · exact hq
    · exact hv seg hseg
  have hend : RawArray.endSlot α < (List.replicate n v).length := by
    rw [List.length_replicate]
    apply Nat.lt_of_mul_lt_mul_right (a := Elem.size α)
    have h₁ := (RawArray.endSlot_bytes hsz).2
    have h₂ := Elem.size_lt (α := α)
    have hspace : addrSpace = 281474976710656 := rfl
    rw [usizeSize_eq] at hwrap
    omega
  rw [Array.ofSizeUsing, RawArray.withCapacity, RawArray.reserve_none os n rfl, hgrant]
  simp only [Except.map, ok_bind]
  rw [RawArray.stores_segv hsz hv₁ hend]
  rfl

/-- `of_size(2^61 + 1)` for elements of eight bytes maps eight bytes, and writes on until
nothing is mapped. -/
theorem of_size_wraps :
    (allocateUnwrap Os.bump ((2 ^ 61 + 1) * 8 % usizeSize) startState).toOption.isSome = true ∧
      (ArrayStart.ofSize (2 ^ 61 + 1) : ArrayStart UInt64).run Os.bump [] startState =
        .error .segv := by
  have h : (allocateUnwrap Os.bump ((2 ^ 61 + 1) * 8 % usizeSize) startState).toOption.isSome =
      true := by
    decide +kernel
  obtain ⟨q, hgrant⟩ := ok_of_isSome h
  refine ⟨h, ?_⟩
  rw [ArrayStart.run, ArrayStart.build, Array.ofSize, ofSizeUsing_wraps (by decide)
    (fun seg hseg => (List.not_mem_nil hseg).elim) (by decide) hgrant]
  rfl

end Apfmalloc
