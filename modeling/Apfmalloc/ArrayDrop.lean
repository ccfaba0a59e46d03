import Apfmalloc.ArrayRun
import Apfmalloc.HashMap

/-!
# What an iterator drops

An iterator hands its elements out by reading them, and its array keeps its full size.
There is no destructor for the iterator, only the one of the array in it, which drops
all of them again: `next` moves an element out and the array does not know. A caller
that has taken an element holds one that has been dropped.

`Array::remove` and `HashMap::grow` walk arrays this way. What `remove` has pushed back
it drops, and `grow` drops every bucket of the old table twice, once with the copy of its
chain that the inner loop walks and once with the chain itself.
-/

namespace Apfmalloc

open Base

variable {α β : Type}

/-! ## The iterator over a list -/

/-- An iterator over what an array holds, those it has yielded included. -/
structure OwnedIter (α : Type) where
  index : Nat
  array : List α

def OwnedIter.next (it : OwnedIter α) : Option α × OwnedIter α :=
  if it.index ≥ it.array.length then (none, it)
  else (it.array[it.index]?, { it with index := it.index + 1 })

/-- The iterator ends with its array, and an element with what `glue` says. -/
def OwnedIter.drop (glue : α → List β) (it : OwnedIter α) : List β := it.array.flatMap glue

theorem OwnedIter.next_some {i : Nat} {l : List α} (h : i < l.length) :
    (⟨i, l⟩ : OwnedIter α).next = (some l[i], ⟨i + 1, l⟩) := by
  rw [OwnedIter.next, if_neg (Nat.not_le.mpr h)]
  simp only [List.getElem?_eq_getElem h]

theorem OwnedIter.next_none {i : Nat} {l : List α} (h : l.length ≤ i) :
    (⟨i, l⟩ : OwnedIter α).next = (none, ⟨i, l⟩) := by
  rw [OwnedIter.next, if_pos h]

section
variable [Elem α] {a : Array α} {s : State} {l : List α} {o : List Segment}

/-- The iterator of `array.rs` yields what the one over the list yields. -/
theorem Array.Views.next (h : a.Views o s l) (i : Nat) :
    (⟨i, a⟩ : ArrayIterator α).next s =
      .ok ((⟨i, l⟩ : OwnedIter α).next.1, ⟨(⟨i, l⟩ : OwnedIter α).next.2.index, a⟩) := by
  by_cases hi : i < l.length
  · rw [OwnedIter.next_some hi, ArrayIterator.next_some h.size hi (h.load hi)]
  · rw [OwnedIter.next_none (Nat.not_lt.mp hi),
      ArrayIterator.next_none (by rw [h.size]; exact Nat.not_lt.mp hi)]

theorem Array.Views.deref (h : a.Views o s l) : a.deref s = .ok l := by
  have hloads : ∀ n i, i + n = l.length → a.array.loads i n s = .ok (l.drop i) := by
    intro n
    induction n with
    | zero =>
      intro i hi
      rw [List.drop_eq_nil_of_le (by omega)]
      rfl
    | succ n ih =>
      intro i hi
      have hlt : i < l.length := by omega
      rw [RawArray.loads, h.load hlt, ok_bind, ih (i + 1) (by omega), ok_bind,
        ← List.drop_eq_getElem_cons hlt]
  rw [Array.deref]
  by_cases hp : a.array.getPtr = 0
  · -- nothing is mapped at address 0
    rw [if_pos hp]
    cases l with
    | nil => rfl
    | cons x l =>
      obtain ⟨seg, -, hv, -, hlo, -⟩ := h.inside 0 (Nat.succ_pos _)
      rw [RawArray.slot, hp, Nat.zero_mul] at hlo
      exact absurd hv.pos (Nat.not_lt.mpr hlo)
  · rw [if_neg hp, h.size, hloads l.length 0 (Nat.zero_add _), List.drop_zero]

/-- And it drops what that one drops, if the array is its own. -/
theorem Array.Views.drop (h : a.Views o s l) (i : Nat) :
    a.drop s = .ok (if a.noDealloc then [] else (⟨i, l⟩ : OwnedIter α).drop fun x => [x]) := by
  have hglue : (⟨i, l⟩ : OwnedIter α).drop (fun x => [x]) = l := List.flatMap_singleton' l
  rw [Array.drop]
  by_cases hd : a.noDealloc = true
  · rw [if_pos hd, if_pos hd]
  · rw [if_neg hd, if_neg hd, hglue, Array.clear, h.deref]
    rfl

/-- An array over memory it was given does not drop what is there. -/
theorem Array.fromPtr_drop [Inhabited α] {ptr n : Nat} {q : Array α × State}
    (h : Array.fromPtr ptr n s = .ok q) : q.1.drop q.2 = .ok [] := by
  simp only [Array.fromPtr] at h
  split at h
  · cases h
    rfl
  · obtain ⟨s', -, hq⟩ := ok_of_bind h
    cases hq
    rfl

/-- One `next` in each of the states, and then the end of the iterator: what was handed
out, and what was dropped. -/
def Array.takeFrom : List State → ArrayIterator α → Except Fault (List α × ArrayIterator α)
  | [], it => .ok ([], it)
  | s :: ss, it => do
    let (x, it) ← it.next s
    let (xs, it) ← Array.takeFrom ss it
    .ok (x.toList ++ xs, it)

def Array.takeAndDrop (ss : List State) (s : State) (a : Array α) :
    Except Fault (List α × List α) := do
  let (handed, it) ← Array.takeFrom ss a.intoIter
  let dropped ← it.array.drop s
  .ok (handed, dropped)

theorem takeFrom_eq : ∀ (ss : List State) (i : Nat), (∀ s ∈ ss, a.Views o s l) →
    ∃ i', Array.takeFrom ss ⟨i, a⟩ = .ok ((l.drop i).take ss.length, ⟨i', a⟩) := by
  intro ss
  induction ss with
  | nil =>
    intro i _
    exact ⟨i, rfl⟩
  | cons s ss ih =>
    intro i h
    have hs := h s (List.mem_cons_self ..)
    rw [Array.takeFrom, hs.next i]
    by_cases hi : i < l.length
    · rw [OwnedIter.next_some hi]
      obtain ⟨i', hi'⟩ := ih (i + 1) fun s' hs' => h s' (List.mem_cons_of_mem _ hs')
      refine ⟨i', ?_⟩
      simp only [ok_bind]
      rw [hi', List.drop_eq_getElem_cons hi, List.length_cons, List.take_succ_cons]
      rfl
    · rw [OwnedIter.next_none (Nat.not_lt.mp hi)]
      obtain ⟨i', hi'⟩ := ih i fun s' hs' => h s' (List.mem_cons_of_mem _ hs')
      refine ⟨i', ?_⟩
      simp only [ok_bind]
      rw [hi', List.drop_eq_nil_of_le (Nat.not_lt.mp hi), List.take_nil, List.take_nil]
      rfl

/-- **An iterator taken from and dropped**: the elements handed out are the first, the
elements dropped are all. -/
theorem takeAndDrop_eq {ss : List State} (hss : ∀ s' ∈ ss, a.Views o s' l) (hs : a.Views o s l) :
    a.takeAndDrop ss s = .ok (l.take ss.length, if a.noDealloc then [] else l) := by
  obtain ⟨i, htake⟩ := takeFrom_eq ss 0 hss
  have hglue : (⟨i, l⟩ : OwnedIter α).drop (fun x => [x]) = l := List.flatMap_singleton' l
  have hdrop := hs.drop i
  rw [hglue] at hdrop
  rw [List.drop_zero] at htake
  rw [Array.takeAndDrop, Array.intoIter, htake]
  simp only [ok_bind]
  rw [hdrop]
  rfl

end

/-! ## `HashMap::grow` -/

namespace HashMap

variable {K V : Type} [Hashable K]

/-- `for mut bucket in old_buckets { … }` -/
def growChain (newCapacity : Nat) : Nat → OwnedIter (Bucket K V) →
    List (List (Bucket K V)) × Nat →
    Option (OwnedIter (Bucket K V) × (List (List (Bucket K V)) × Nat))
  | 0, _, _ => none
  | n + 1, it, st =>
    match it.next with
    | (none, it) => some (it, st)
    | (some bucket, it) => do
      let st ← rehome newCapacity st bucket
      growChain newCapacity n it st

/-- `for old_buckets in old.buckets { … }`; the inner iterator ends with each round. -/
def growTable (newCapacity : Nat) : Nat → OwnedIter (List (Bucket K V)) →
    List (List (Bucket K V)) × Nat → List (Bucket K V) →
    Option (OwnedIter (List (Bucket K V)) × (List (List (Bucket K V)) × Nat) × List (Bucket K V))
  | 0, _, _, _ => none
  | n + 1, it, st, dropped =>
    match it.next with
    | (none, it) => some (it, st, dropped)
    | (some oldBuckets, it) => do
      let (inner, st) ← growChain newCapacity (oldBuckets.length + 1) ⟨0, oldBuckets⟩ st
      growTable newCapacity n it st (dropped ++ inner.drop fun bucket => [bucket])

/-- `grow` with its iterators, and the buckets whose destructors it runs. The one of a
chain runs those of its buckets. -/
def growDrops (m : HashMap K V) : Option (HashMap K V × List (Bucket K V)) := do
  let newCapacity := m.buckets.length * 2 + 1
  let (it, (buckets, used), dropped) ← growTable newCapacity (m.buckets.length + 1)
    ⟨0, m.buckets⟩ (List.replicate newCapacity [], 0) []
  some ({ m with buckets := buckets, containersUsed := used },
    dropped ++ it.drop fun oldBuckets => oldBuckets)

theorem growChain_eq (newCapacity : Nat) (chain : List (Bucket K V)) : ∀ (n i : Nat)
    (st : List (List (Bucket K V)) × Nat), i + n = chain.length →
    growChain newCapacity (n + 1) ⟨i, chain⟩ st =
      ((chain.drop i).foldlM (rehome newCapacity) st).map fun st => (⟨chain.length, chain⟩, st) := by
  intro n
  induction n with
  | zero =>
    intro i st hi
    obtain rfl : i = chain.length := by omega
    rw [growChain, OwnedIter.next_none (Nat.le_refl _), List.drop_length]
    rfl
  | succ n ih =>
    intro i st hi
    have hlt : i < chain.length := by omega
    rw [growChain, OwnedIter.next_some hlt, List.drop_eq_getElem_cons hlt, List.foldlM_cons]
    simp only
    cases rehome newCapacity st chain[i] with
    | none => rfl
    | some st₁ => exact ih (i + 1) st₁ (by omega)

theorem growTable_eq (newCapacity : Nat) (buckets : List (List (Bucket K V))) : ∀ (n i : Nat)
    (st : List (List (Bucket K V)) × Nat) (dropped : List (Bucket K V)), i + n = buckets.length →
    growTable newCapacity (n + 1) ⟨i, buckets⟩ st dropped =
      ((buckets.drop i).flatten.foldlM (rehome newCapacity) st).map fun st =>
        (⟨buckets.length, buckets⟩, st, dropped ++ (buckets.drop i).flatten) := by
  intro n
  induction n with
  | zero =>
    intro i st dropped hi
    obtain rfl : i = buckets.length := by omega
    rw [growTable, OwnedIter.next_none (Nat.le_refl _), List.drop_length, List.flatten_nil,
      List.append_nil]
    rfl
  | succ n ih =>
    intro i st dropped hi
    have hlt : i < buckets.length := by omega
    rw [growTable, OwnedIter.next_some hlt, List.drop_eq_getElem_cons hlt, List.flatten_cons,
      List.foldlM_append]
    simp only
    rw [growChain_eq newCapacity buckets[i] buckets[i].length 0 st (Nat.zero_add _),
      List.drop_zero]
    cases buckets[i].foldlM (rehome newCapacity) st with
    | none => rfl
    | some st₁ =>
      -- the inner iterator ends with the whole chain
      have hglue : (⟨buckets[i].length, buckets[i]⟩ : OwnedIter (Bucket K V)).drop
          (fun bucket => [bucket]) = buckets[i] := List.flatMap_singleton' _
      show growTable newCapacity (n + 1) ⟨i + 1, buckets⟩ st₁ (dropped ++ _) = _
      rw [hglue, ih (i + 1) st₁ _ (by omega), List.append_assoc]
      rfl

/-- **`grow` drops every bucket twice.** -/
theorem growDrops_eq (m : HashMap K V) :
    m.growDrops = m.grow.map fun m' => (m', m.buckets.flatten ++ m.buckets.flatten) := by
  rw [growDrops, grow]
  simp only
  rw [growTable_eq _ m.buckets m.buckets.length 0 _ _ (Nat.zero_add _), List.drop_zero,
    List.nil_append]
  cases m.buckets.flatten.foldlM (rehome (m.buckets.length * 2 + 1))
      (List.replicate (m.buckets.length * 2 + 1) [], 0) with
  | none => rfl
  | some st =>
    show some (_, _ ++ m.buckets.flatMap id) = _
    rw [List.flatMap_id]
    rfl

end HashMap

/-! ## Every element once -/

/-- **When each element is accounted for once.** An iterator over an array of its own hands
out the first elements and drops the others exactly if it handed out none, or there were
none; over an array made by `from_ptr`, which drops nothing, exactly if it handed out all.
`remove` leaves the elements it keeps alone exactly if there are none behind the one it
removes, and `grow` exactly if there is no bucket. -/
theorem accounted_once_iff {α K V : Type} [Elem α] [Hashable K] :
    (∀ (a : Array α) (l : List α) (ss : List State) (s : State),
      (∀ s' ∈ s :: ss, a.Views [] s' l) →
      ∃ handed dropped, a.takeAndDrop ss s = .ok (handed, dropped) ∧
        (handed = l.take ss.length ∧ dropped = l.drop ss.length ↔
          if a.noDealloc then l.length ≤ ss.length else ss.length = 0 ∨ l = [])) ∧
    (∀ (a a' : Array α) (l dropped : List α) (os : Os) (i : Nat) (s s' : State)
      (ret : Option α), 0 < Elem.size α → a.Holds s l →
      a.remove os i s = .ok (ret, dropped, a', s') →
      a'.Holds s' (l.take i ++ dropped) ∧ (dropped = [] ↔ l.length ≤ i + 1)) ∧
    (∀ (m m' : HashMap K V) (dropped : List (Bucket K V)),
      m.growDrops = some (m', dropped) →
      m.grow = some m' ∧ (dropped = [] ↔ m.buckets.flatten = [])) := by
  refine ⟨?_, ?_, ?_⟩
  · intro a l ss s h
    refine ⟨_, _, takeAndDrop_eq (fun s' hs' => h s' (List.mem_cons_of_mem _ hs'))
      (h s (List.mem_cons_self ..)), ?_⟩
    rw [and_iff_right rfl]
    by_cases hd : a.noDealloc = true
    · rw [if_pos hd, if_pos hd, eq_comm, List.drop_eq_nil_iff]
    · rw [if_neg hd, if_neg hd]
      constructor
      · intro heq
        have hlen := congrArg List.length heq
        rw [List.length_drop] at hlen
        by_cases hl : l.length = 0
        · exact Or.inr (List.length_eq_zero_iff.mp hl)
        · exact Or.inl (by omega)
      · intro hor
        rcases hor with h0 | rfl
        · rw [h0, List.drop_zero]
        · rw [List.drop_nil]
  · intro a a' l dropped os i s s' ret hsz hh hr
    obtain ⟨-, hdrop, hh', -⟩ := (hh.remove hsz).of_ok hr
    simp only at hdrop hh'
    subst hdrop
    rw [List.eraseIdx_eq_take_drop_succ] at hh'
    exact ⟨hh', List.drop_eq_nil_iff⟩
  · intro m m' dropped hg
    rw [HashMap.growDrops_eq, Option.map_eq_some_iff] at hg
    obtain ⟨m₁, hm, heq⟩ := hg
    cases heq
    refine ⟨hm, ?_⟩
    rw [List.append_eq_nil_iff, and_self]

/-- Of the array `[7, 8]`: an iterator that is not used, the removal of the last element, and
a map without buckets that grows. -/
theorem accounted_once_iff_whole :
    ∃ (a : Array UInt64) (s : State), Array.fromIter Os.bump [7, 8] startState = .ok (a, s) ∧
      a.takeAndDrop [] s = .ok ([], [7, 8]) ∧
      (∃ ret a' s', a.remove Os.bump 1 s = .ok (ret, [], a', s')) ∧
      ∃ m', (HashMap.withCapacity 2 : HashMap Nat Nat).growDrops = some (m', []) := by
  have h : (do let q ← Array.fromIter (α := UInt64) Os.bump [7, 8] startState
               q.1.remove Os.bump 1 q.2).toOption.isSome = true := by
    decide +kernel
  have hg : (HashMap.withCapacity 2 : HashMap Nat Nat).growDrops.isSome = true := by decide
  obtain ⟨hit, hrem, hgrow⟩ := @accounted_once_iff UInt64 Nat Nat _ _
  obtain ⟨⟨ret, dropped, a', s'⟩, h⟩ := ok_of_isSome h
  obtain ⟨⟨a, s⟩, hr, hr'⟩ := ok_of_bind h
  have hh : a.Holds s [7, 8] := ((Array.fromIter_served (by decide) _ _).of_ok hr).1
  have hviews : a.Views [] s [7, 8] := hh.views_self
  refine ⟨a, s, hr, ?_, ?_, ?_⟩
  · obtain ⟨handed, dropped, heq, hiff⟩ := hit a [7, 8] [] s fun s' hs' => by
      rw [List.mem_singleton.mp hs']
      exact hviews
    rw [hh.dealloc.1] at hiff
    obtain ⟨rfl, rfl⟩ := hiff.mpr (Or.inl rfl)
    exact heq
  · obtain ⟨-, hiff⟩ := hrem a a' [7, 8] dropped Os.bump 1 s s' ret (by decide) hh hr'
    obtain rfl := hiff.mpr (by decide)
    exact ⟨ret, a', s', hr'⟩
  · obtain ⟨⟨m', dropped⟩, hm⟩ := Option.isSome_iff_exists.mp hg
    obtain rfl := (hgrow _ m' dropped hm).2.mpr (by decide)
    exact ⟨m', hm⟩

/-- One `next` on `[7, 8]`: 7 is handed out, and dropped with the iterator. `remove(0)` drops
the 8 that it keeps. -/
theorem next_then_dropped :
    ∃ (a a' : Array UInt64) (s s' : State) (ret : Option UInt64),
      Array.fromIter Os.bump [7, 8] startState = .ok (a, s) ∧
      a.takeAndDrop [s] s = .ok ([7], [7, 8]) ∧
      a.remove Os.bump 0 s = .ok (ret, [8], a', s') ∧ a'.Holds s' [8] := by
  have h : (do let q ← Array.fromIter (α := UInt64) Os.bump [7, 8] startState
               q.1.remove Os.bump 0 q.2).toOption.isSome = true := by
    decide +kernel
  obtain ⟨⟨ret, dropped, a', s'⟩, h⟩ := ok_of_isSome h
  obtain ⟨⟨a, s⟩, hr, hr'⟩ := ok_of_bind h
  have hh : a.Holds s [7, 8] := ((Array.fromIter_served (by decide) _ _).of_ok hr).1
  have hviews : a.Views [] s [7, 8] := hh.views_self
  have htake := @takeAndDrop_eq UInt64 _ a s [7, 8] [] [s]
    (fun s' hs' => by rw [List.mem_singleton.mp hs']; exact hviews) hviews
  rw [hh.dealloc.1] at htake
  obtain ⟨-, hdrop, hh', -⟩ := (hh.remove (by decide)).of_ok hr'
  obtain rfl : dropped = [8] := hdrop
  exact ⟨a, a', s, s', ret, hr, htake, hr', hh'⟩

end Apfmalloc
