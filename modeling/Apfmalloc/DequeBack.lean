import Apfmalloc.ArrayDeque

/-!
# The back of a deque

`end` is the slot behind the last element, and two places take it for the last element.
`pop_back` reads there before it steps back: it returns what the slot was left with, and
returns the last element only where the two agree. `From<Array<T>>` sets `end` to one less
than the length: a collection loses its last element on the way into a deque, and for one
without elements `end` is `usize::MAX`. `collect` and `clone` go through it, so the copy of
a deque with a buffer is never equal to it.
-/

namespace Apfmalloc

open Base

namespace ArrayDeque

variable {α : Type}

/-- `From<Array<T>>`; nothing is dropped with what is left of the array. -/
def fromArray (a : Array α) : ArrayDeque α := ⟨a.array, 0, usizeSub a.size 1⟩

variable [Elem α]

def fromIter (os : Os) (xs : List α) (s : State) : Except Fault (ArrayDeque α × State) := do
  let (a, s) ← Array.fromIter os xs s
  .ok (fromArray a, s)

/-- `for v in slice { out.push(v.clone()) }`, for `n` elements from slot `i` on. -/
def cloneInto (os : Os) (cl : α → α) (d : ArrayDeque α) : Nat → Nat → Array α → State →
    Except Fault (Array α × State)
  | _, 0, out, s => .ok (out, s)
  | i, n + 1, out, s => do
    let x ← load (d.raw.slot i) s
    let (out, s) ← out.push os (cl x) s
    cloneInto os cl d (i + 1) n out s

def clone (os : Os) (cl : α → α) (d : ArrayDeque α) (s : State) :
    Except Fault (ArrayDeque α × State) := do
  let n := if d.raw.getPtr = 0 then 0 else d.len
  let (a, s) ← d.cloneInto os cl d.start n Array.new s
  .ok (fromArray a, s)

/-- The loop of `eq` over two iterators. -/
def eqLoop [BEq α] : List α → List α → Bool
  | [], _ => true
  | _, [] => true
  | x :: xs, y :: ys => if x != y then false else eqLoop xs ys

def eq [BEq α] (d d' : ArrayDeque α) (s : State) : Except Fault Bool :=
  if d.len ≠ d'.len then .ok false
  else do
    let l ← d.deref s
    let l' ← d'.deref s
    .ok (eqLoop l l')

/-! ## Reachable deques -/

/-- Made by `new`, by `with_capacity` or from a collection with elements, and then used, also
through its slice. -/
inductive Reach : ArrayDeque α → State → Prop
  | start {d : ArrayDeque α} {s : State} : DequeStart d s → Reach d s
  | fromArray {a : Array α} {l : List α} {s : State} : a.Holds s l → l ≠ [] →
      Reach (ArrayDeque.fromArray a) s
  | op {d d' : ArrayDeque α} {s s' : State} {os : Os} {op : DequeOp α} {x : Option α} : Reach d s →
      op.exec os d s = .ok (x, d', s') → Reach d' s'
  | popBack {d d' : ArrayDeque α} {s : State} {x : Option α} : Reach d s →
      d.popBack s = .ok (x, d') → Reach d' s
  | set {d : ArrayDeque α} {s s' : State} {i : Nat} {v : α} : Reach d s → i < d.len →
      store (d.raw.slot (d.start + i)) v s = .ok s' → Reach d s'

section
variable {os : Os} {d : ArrayDeque α} {a : Array α} {s : State} {l : List α} {v : α}

/-- Without the last element. -/
theorem Queue.dropLast {k : Nat} (h : Queue s d (l ++ [v])) (hk : k + 1 = d.stop) :
    Queue s { d with stop := k } l := by
  have hwin := h.window
  have hle := h.le
  rw [List.length_append, List.length_singleton] at hwin
  refine ⟨h.owned, by show d.start + l.length = k; omega, by show k ≤ d.raw.cap; omega,
    fun i hi => ?_⟩
  have := h.cell i (by rw [List.length_append]; omega)
  rwa [List.getElem?_append_left hi] at this

/-- **`pop_back`** takes the last element out of the window, and returns what is in the slot
behind it. -/
theorem Queue.popBack (h : Queue s d (l ++ [v])) (hsz : 0 < Elem.size α) :
    ∃ d', Queue s d' l ∧ d.popBack s = (load (d.raw.slot d.stop) s).map fun x => (some x, d') := by
  have hwin := h.window
  have hstop := h.stop_lt hsz
  rw [List.length_append, List.length_singleton] at hwin
  have hk : usizeSub d.stop 1 = d.stop - 1 :=
    usizeSub_of_le (by omega) (Nat.lt_trans hstop (by decide))
  have hne : d.isEmpty = false := by
    rw [h.isEmpty_eq]
    cases l <;> rfl
  have hlast : Queue s { d with stop := d.stop - 1 } l := h.dropLast (by omega)
  obtain ⟨d', hd', -, hq⟩ := hlast.recentre hsz
  refine ⟨d', hq, ?_⟩
  rw [ArrayDeque.popBack, hne, hk, hd', getEndPtr]
  simp only [Bool.false_eq_true, if_false, ok_bind]
  cases (load (d.raw.slot d.stop) s : Except Fault α) <;> rfl

theorem popBack_nil (h : Queue s d []) : d.popBack s = .ok (none, d) := by
  rw [ArrayDeque.popBack, h.isEmpty_eq, if_pos List.isEmpty_nil]

/-- A collection with elements loses the last of them. -/
theorem queue_fromArray (h : a.Holds s (l ++ [v])) (hsz : 0 < Elem.size α) :
    Queue s (fromArray a) l := by
  have hbytes := h.owned.cap_bytes
  have hcap := Nat.le_mul_of_pos_right a.array.cap hsz
  have hle := h.le
  have hsize := h.size
  rw [List.length_append, List.length_singleton] at hle hsize
  have hlt : a.size < usizeSize := Nat.lt_trans (by omega : a.size < addrSpace) (by decide)
  have hstop : usizeSub a.size 1 = l.length := by
    rw [usizeSub_of_le (by omega) hlt]
    omega
  rw [fromArray, hstop]
  refine ⟨h.owned, Nat.zero_add _, by show l.length ≤ a.array.cap; omega, fun i hi => ?_⟩
  have := h.cell i (by rw [List.length_append]; omega)
  rw [List.getElem?_append_left hi] at this
  show a.array.cell s (0 + i) = _
  rw [Nat.zero_add, this]

/-- **A reachable deque** has its window in the buffer. By induction on how it was made. -/
theorem Reach.queue (h : Reach d s) (hsz : 0 < Elem.size α) : ∃ l, Queue s d l := by
  induction h with
  | start hd => exact ⟨[], hd.queue⟩
  | @fromArray a l s ha hl =>
    obtain ⟨l', v, rfl⟩ := (List.eq_nil_or_concat l).resolve_left hl
    rw [List.concat_eq_append] at ha
    exact ⟨l', queue_fromArray ha hsz⟩
  | op _ hop ih =>
    obtain ⟨l, hq⟩ := ih
    exact ⟨_, ((DequeOp.exec_served hsz hq _).of_ok hop).2⟩
  | popBack _ hpop ih =>
    obtain ⟨l, hq⟩ := ih
    rcases List.eq_nil_or_concat l with rfl | ⟨l', v, rfl⟩
    · rw [popBack_nil hq] at hpop
      cases hpop
      exact ⟨[], hq⟩
    · rw [List.concat_eq_append] at hq
      obtain ⟨d', hq', heq⟩ := hq.popBack hsz
      rw [heq] at hpop
      obtain ⟨_, -, hpop⟩ := map_eq_ok.mp hpop
      cases hpop
      exact ⟨l', hq'⟩
  | @set d s s' i v _ hi hst ih =>
    obtain ⟨l, hq⟩ := ih
    rw [hq.len_eq hsz] at hi
    have hwin := hq.window
    have hle := hq.le
    obtain ⟨s₁, hw, howned, hv, hother, -⟩ := hq.owned.write (by omega : d.start + i < d.raw.cap) v
    rw [show d.raw.write (d.start + i) v s = .ok s' from hst] at hw
    cases hw
    refine ⟨l.set i v, howned, ?_, hle, fun j hj => ?_⟩
    · rw [List.length_set]
      exact hwin
    · rw [List.length_set] at hj
      by_cases he : j = i
      · rw [he, hv, List.getElem?_set_self hi]
      · rw [hother _ (by omega) (by omega), hq.cell j hj, List.getElem?_set_ne (Ne.symm he)]

end

/-! ## `pop_back` -/

/-- What the slot behind the end holds once an element is pushed: with room for it, what
the next slot holds already, and in a buffer that has to grow nothing but zeros. -/
def behind (d : ArrayDeque α) (s : State) : Except Fault α :=
  if d.stop < d.raw.cap then load (d.raw.slot (d.stop + 1)) s
  else match Elem.dec (List.replicate (Elem.size α) 0) with
    | some v => .ok v
    | none => .error .undefined

/-- There is room, or the pages that a grown buffer takes reach over the slot behind. -/
def Backed (d : ArrayDeque α) : Prop :=
  d.stop < d.raw.cap ∨ (d.stop + 2) * Elem.size α ≤
    regionLen ((if d.raw.cap = 0 then 1 else d.raw.cap * 2) * Elem.size α)

section
variable {os : Os} {d d' : ArrayDeque α} {s s' : State} {l : List α} {v : α}

/-- A write does not reach the slot behind its own. -/
theorem Queue.write_behind (h : Queue s d l) (hlt : d.stop < d.raw.cap)
    (hw : d.raw.write d.stop v s = .ok s') :
    (load (d.raw.slot (d.stop + 1)) s' : Except Fault α) = load (d.raw.slot (d.stop + 1)) s := by
  rw [RawArray.write, store, if_pos (h.owned.covers hlt)] at hw
  cases hw
  unfold Apfmalloc.load
  rw [Elem.read_write_ne (Or.inr (Nat.le_of_eq (h.owned.slot_succ hlt).symm))]
  rfl

/-- The pages of a grown buffer are zero behind what was copied. -/
theorem load_zero {r r' : RawArray α} {n i : Nat} (hres : r.Reserved n s (r', s'))
    (hsz : 0 < Elem.size α) (hi : r.cap < i)
    (hreg : (i + 1) * Elem.size α ≤ regionLen (n * Elem.size α)) :
    (load (r'.slot i) s' : Except Fault α) =
      match (Elem.dec (List.replicate (Elem.size α) 0) : Option α) with
      | some v => .ok v
      | none => .error .undefined := by
  obtain ⟨seg, hseg⟩ := Option.isSome_iff_exists.mp hres.segment
  simp only at hseg
  have hmem := RawArray.mem_segs hseg
  obtain ⟨hin, hv⟩ := hres.owned seg hmem
  have hlen : seg.length = n * Elem.size α := by
    have hcap := hres.cap
    rw [RawArray.cap, hseg] at hcap
    rw [← Nat.div_mul_cancel (hres.exact seg hmem)]
    exact congrArg (· * Elem.size α) hcap
  rw [← hlen, Nat.succ_mul] at hreg
  have hb := hv.bound
  have hslot : r'.slot i = seg.ptr + i * Elem.size α := by
    rw [RawArray.slot, RawArray.getPtr, hseg]
    refine Nat.mod_eq_of_lt (Nat.lt_of_le_of_lt (?_ : _ ≤ addrSpace) (by decide))
    show seg.ptr + i * Elem.size α ≤ addrSpace
    omega
  have hzero : loadBytes s'.mem (r'.slot i) (Elem.size α) = List.replicate (Elem.size α) 0 := by
    rw [List.eq_replicate_iff]
    refine ⟨length_loadBytes _ _ _, fun b hb => ?_⟩
    obtain ⟨k, hk, rfl⟩ := List.mem_map.mp hb
    rw [List.mem_range] at hk
    rw [hslot, Nat.add_assoc]
    refine hres.zero seg hmem _ (by omega) fun old hold => ?_
    have := RawArray.bytes_of_lt hsz hi old hold
    omega
  have hread : (Elem.read s'.mem (r'.slot i) : Option α) =
      Elem.dec (List.replicate (Elem.size α) 0) := by
    rw [Elem.read, hzero]
  have hcov : s'.covers (r'.slot i) (Elem.size α) = true :=
    State.covers_segment hin (by omega) (by omega)
  unfold Apfmalloc.load
  cases hdec : (Elem.dec (List.replicate (Elem.size α) 0) : Option α) with
  | none => simp only [hcov, hread, hdec, if_true]
  | some v => simp only [hcov, hread, hdec, if_true]

/-- What `pop_back` will read. -/
theorem Queue.pushBack_behind (h : Queue s d l) (hsz : 0 < Elem.size α) (hback : d.Backed)
    (hp : d.pushBack os v s = .ok (d', s')) :
    (load (d'.raw.slot d'.stop) s' : Except Fault α) = d.behind s := by
  have hle := h.le
  rw [ArrayDeque.pushBack, RawArray.capacity_eq hsz] at hp
  simp only [ok_bind] at hp
  unfold behind
  by_cases hfull : d.stop = d.raw.cap
  · rw [if_pos hfull] at hp
    obtain ⟨⟨d₁, s₁⟩, hgrow, hp⟩ := ok_of_bind hp
    obtain ⟨s₂, hw, hp⟩ := ok_of_bind hp
    cases hp
    obtain ⟨hq₁, -, hst₁, hres⟩ := (h.growBack hsz).of_ok hgrow
    simp only at hq₁ hst₁ hres
    have hcap₁ : d₁.raw.cap = _ := hres.cap
    have hlt : d₁.stop < d₁.raw.cap := by
      split at hcap₁ <;> omega
    rw [if_neg (by omega)]
    show (load (d₁.raw.slot ((d₁.stop + 1) % usizeSize)) s' : Except Fault α) = _
    rw [hq₁.succ_mod hsz (Nat.le_refl _), hq₁.write_behind hlt hw]
    refine load_zero hres hsz (by omega) ?_
    rw [hst₁]
    exact hback.resolve_left (by omega)
  · rw [if_neg hfull] at hp
    obtain ⟨s₂, hw, hp⟩ := ok_of_bind hp
    cases hp
    have hlt : d.stop < d.raw.cap := by omega
    rw [if_pos hlt]
    show (load (d.raw.slot ((d.stop + 1) % usizeSize)) s' : Except Fault α) = _
    rw [h.succ_mod hsz (Nat.le_refl _)]
    exact h.write_behind hlt hw

/-- Every slot of the window ends before the address that `pop_back` reads. -/
theorem Queue.getEndPtr_out (h : Queue s d l) {k : Nat} (hk : k < d.stop) :
    d.raw.slot k + Elem.size α ≤ d.getEndPtr := by
  have hle := h.le
  obtain ⟨seg, hseg, -, hslot, -, -⟩ := h.owned.slot (by omega : k < d.raw.cap)
  obtain ⟨seg', hseg', -, hslot', -, -⟩ := h.owned.slot (by omega : d.stop - 1 < d.raw.cap)
  rw [hseg] at hseg'
  cases hseg'
  have hend := h.owned.slot_succ (by omega : d.stop - 1 < d.raw.cap)
  rw [Nat.sub_add_cancel (by omega)] at hend
  have hmul := Nat.mul_le_mul_right (Elem.size α) (by omega : k ≤ d.stop - 1)
  rw [getEndPtr, hend, hslot, hslot']
  omega

omit [Elem α] in
theorem len_new : (new : ArrayDeque α).len = 0 := 
  usizeSub_of_le (Nat.le_refl 0) (by decide : 0 < usizeSize)

/-- **Elements without bytes** never get into a deque. -/
theorem Reach.empty (h : Reach d s) (hsz : Elem.size α = 0) : d = new := by
  induction h with
  | start hd =>
    cases hd with
    | new => rfl
    | withCapacity hc hd =>
      obtain ⟨⟨raw, s₁⟩, hres, -⟩ := ok_of_bind hd
      rw [RawArray.withCapacity, RawArray.reserve_none _ _ rfl, hsz, Nat.mul_zero, Nat.zero_mod,
        Array.allocateUnwrap_zero] at hres
      cases hres
  | @fromArray a l s ha hl =>
    have hle := ha.le
    have hcap : a.array.cap = 0 := by
      unfold RawArray.cap
      cases a.array.segment with
      | none => rfl
      | some seg =>
        simp only
        rw [hsz, Nat.div_zero]
    rw [hcap] at hle
    exact absurd (List.length_eq_zero_iff.mp (Nat.le_zero.mp hle)) hl
  | @op d d' s s' os op x _ hop ih =>
    subst ih
    cases op with
    | pushFront val =>
      rw [DequeOp.exec, ArrayDeque.pushFront, len_new, if_pos rfl, pushBack_zero hsz] at hop
      cases hop
    | pushBack val =>
      rw [DequeOp.exec, pushBack_zero hsz] at hop
      cases hop
    | popFront =>
      rw [DequeOp.exec, (queue_new s).popFront_nil] at hop
      cases hop
      rfl
  | @popBack d d' s x _ hpop ih =>
    subst ih
    rw [popBack_nil (queue_new s)] at hpop
    cases hpop
    rfl
  | set _ hi _ ih =>
    rw [ih, len_new] at hi
    exact absurd hi (Nat.not_lt_zero _)

/-- `pop_back` after a push. -/
theorem Queue.popBack_push (h : Queue s d l) (hsz : 0 < Elem.size α)
    (hp : d.pushBack os v s = .ok (d', s')) :
    (∃ d'', d'.popBack s' = .ok (some v, d'') ∧ d''.deref s' = d.deref s) ↔
      load (d'.raw.slot d'.stop) s' = .ok v := by
  obtain ⟨hq, -⟩ := (h.pushBack hsz v).of_ok hp
  obtain ⟨d'', hq', hpop⟩ := hq.popBack hsz
  simp only at hq' hpop
  rw [hpop, h.deref hsz]
  constructor
  · intro ⟨_, he, _⟩
    obtain ⟨x, hx, heq⟩ := map_eq_ok.mp he
    cases heq
    exact hx
  · intro hload
    exact ⟨d'', map_eq_ok.mpr ⟨v, hload, rfl⟩, hq'.deref hsz⟩

/-- A deque from a collection without elements: the push goes to the slot before the buffer,
if anything is there, and leaves the window empty. -/
theorem popBack_fromArray_nil {a : Array α} (h : a.Holds s [])
    (hp : (fromArray a).pushBack os v s = .ok (d', s')) : d'.popBack s' = .ok (none, d') := by
  obtain ⟨capacity, hcap, hp⟩ := ok_of_bind hp
  have hlt : capacity < addrSpace := h.owned.capacity_lt hcap
  have hmax : usizeSub a.size 1 = usizeSize - 1 := by
    rw [show a.size = 0 from h.size]
    decide
  have hne : (fromArray a).stop ≠ capacity := by
    have hspace : addrSpace = 281474976710656 := rfl
    have hu := usizeSize_eq
    show usizeSub a.size 1 ≠ capacity
    omega
  rw [if_neg hne] at hp
  simp only [ok_bind] at hp
  obtain ⟨s₁, -, hp⟩ := ok_of_bind hp
  cases hp
  have hempty : (usizeSub a.size 1 + 1) % usizeSize = 0 := by
    rw [hmax]
    decide
  have he : ({ fromArray a with stop := ((fromArray a).stop + 1) % usizeSize } :
      ArrayDeque α).isEmpty = true := beq_iff_eq.mpr hempty.symm
  rw [ArrayDeque.popBack, if_pos he]

end

/-- **`pop_back` reads behind the window.** No slot of a window reaches the address, so a
non-empty deque gives its last element back only if the slot behind holds it too. After a
push that slot is `behind`: what the buffer held two slots on before the push, or zeros
if it had to grow. A deque from a collection without elements takes the push and then has
nothing to pop. -/
theorem pop_back_iff {α : Type} [Elem α] {d : ArrayDeque α} {s : State} (h : Reach d s) :
    (∀ (os : Os) (v : α) (d' : ArrayDeque α) (s' : State), d.pushBack os v s = .ok (d', s') →
      ((∃ d'', d'.popBack s' = .ok (some v, d'') ∧ d''.deref s' = d.deref s) ↔
        load (d'.raw.slot d'.stop) s' = .ok v) ∧
      (d.Backed → (load (d'.raw.slot d'.stop) s' : Except Fault α) = d.behind s)) ∧
    (d.isEmpty = false → (∀ k < d.stop, d.raw.slot k + Elem.size α ≤ d.getEndPtr) ∧
      ∃ l x, d.deref s = .ok (l ++ [x]) ∧
        ((∃ d', d.popBack s = .ok (some x, d')) ↔ load d.getEndPtr s = .ok x)) ∧
    (∀ (a : Array α) (os : Os) (v : α) (d' : ArrayDeque α) (s' : State), a.Holds s [] →
      (fromArray a).pushBack os v s = .ok (d', s') → d'.popBack s' = .ok (none, d')) := by
  refine ⟨fun os v d' s' hp => ?_, fun hne => ?_, fun a os v d' s' ha hp => popBack_fromArray_nil ha hp⟩
  · have hsz : 0 < Elem.size α := by
      apply Nat.pos_of_ne_zero
      intro h0
      rw [h.empty h0, pushBack_zero h0] at hp
      cases hp
    obtain ⟨l, hq⟩ := h.queue hsz
    exact ⟨hq.popBack_push hsz hp, fun hback => hq.pushBack_behind hsz hback hp⟩
  · have hsz : 0 < Elem.size α := by
      apply Nat.pos_of_ne_zero
      intro h0
      rw [h.empty h0] at hne
      cases hne
    obtain ⟨l, hq⟩ := h.queue hsz
    refine ⟨fun k hk => hq.getEndPtr_out hk, ?_⟩
    rcases List.eq_nil_or_concat l with rfl | ⟨l', x, rfl⟩
    · rw [hq.isEmpty_eq] at hne
      cases hne
    · rw [List.concat_eq_append] at hq
      obtain ⟨d', -, hpop⟩ := hq.popBack hsz
      refine ⟨l', x, hq.deref hsz, ?_⟩
      rw [hpop, getEndPtr]
      constructor
      · intro ⟨_, he⟩
        obtain ⟨y, hy, heq⟩ := map_eq_ok.mp he
        cases heq
        exact hy
      · intro hload
        exact ⟨d', map_eq_ok.mpr ⟨x, hload, rfl⟩⟩

/-- A zero comes back from a fresh buffer: -/
theorem pop_back_zero :
    ∃ (d d' : ArrayDeque UInt64) (s : State),
      (new : ArrayDeque UInt64).pushBack Os.bump 0 startState = .ok (d, s) ∧
      d.popBack s = .ok (some 0, d') := by
  have h : ((new : ArrayDeque UInt64).pushBack Os.bump 0 startState).toOption.isSome = true := by
    decide +kernel
  obtain ⟨⟨d, s⟩, hp⟩ := ok_of_isSome h
  obtain ⟨hiff, hbehind⟩ := (pop_back_iff (Reach.start (.new startState))).1 Os.bump 0 d s hp
  have hback : (new : ArrayDeque UInt64).Backed := Or.inr (by decide)
  obtain ⟨d', hpop, -⟩ := hiff.mpr (by rw [hbehind hback]; rfl)
  exact ⟨d, d', s, hp, hpop⟩

/-- and so does a zero for a seven. -/
theorem pop_back_stale :
    ∃ (d d' : ArrayDeque UInt64) (s : State), Reach (new : ArrayDeque UInt64) startState ∧
      (new : ArrayDeque UInt64).pushBack Os.bump 7 startState = .ok (d, s) ∧
      d.deref s = .ok [7] ∧ d.popBack s = .ok (some 0, d') := by
  have h : ((new : ArrayDeque UInt64).pushBack Os.bump 7 startState).toOption.isSome = true := by
    decide +kernel
  obtain ⟨⟨d, s⟩, hp⟩ := ok_of_isSome h
  have hnew := queue_new (α := UInt64) startState
  have hback : (new : ArrayDeque UInt64).Backed := Or.inr (by decide)
  have hload : load (d.raw.slot d.stop) s = .ok (0 : UInt64) :=
    (hnew.pushBack_behind (by decide) hback hp).trans rfl
  have hq : d.Queue s ([] ++ [7]) := ((hnew.pushBack (by decide) 7).of_ok hp).1
  obtain ⟨d', -, hpop⟩ := hq.popBack (by decide)
  rw [hload] at hpop
  exact ⟨d, d', s, .start (.new _), hp, hq.deref (by decide), hpop⟩

/-! ## Copies -/

/-- What a caller sees of a deque. -/
def Contents (s : State) (d : ArrayDeque α) (l : List α) : Prop :=
  d.deref s = .ok l ∧ d.len = l.length

section
variable {os : Os} {cl : α → α} {d : ArrayDeque α} {s s' : State}

theorem cloneInto_size : ∀ (n i : Nat) {out out' : Array α} {s s' : State},
    d.cloneInto os cl i n out s = .ok (out', s') → out'.size = out.size + n := by
  intro n
  induction n with
  | zero =>
    intro i out out' s s' h
    cases h
    rfl
  | succ n ih =>
    intro i out out' s s' h
    obtain ⟨x, -, h⟩ := ok_of_bind h
    obtain ⟨⟨out₁, s₁⟩, hpush, h⟩ := ok_of_bind h
    rw [ih (i + 1) h, Array.push_size hpush]
    omega

omit [Elem α] in
/-- A deque from an array is never as long as the array was. -/
theorem len_fromArray (a : Array α) : (fromArray a).len ≠ a.size := by
  show usizeSub (usizeSub a.size 1) 0 ≠ a.size
  unfold usizeSub
  rw [usizeSize_eq]
  omega

omit [Elem α] in
theorem len_fromArray_new : (fromArray (Array.new : Array α)).len = usizeSize - 1 := by
  show usizeSub (usizeSub 0 1) 0 = _
  decide

/-- The copy of a deque with a buffer has another length. -/
theorem clone_len {c : ArrayDeque α} (hptr : d.raw.getPtr ≠ 0)
    (h : d.clone os cl s = .ok (c, s')) : c.len ≠ d.len := by
  rw [clone, if_neg hptr] at h
  obtain ⟨⟨a, s₁⟩, hcl, h⟩ := ok_of_bind h
  cases h
  have hsize := cloneInto_size d.len d.start hcl
  rw [show (Array.new : Array α).size = 0 from rfl, Nat.zero_add] at hsize
  rw [← hsize]
  exact len_fromArray a

/-- Without a buffer there is nothing to copy. -/
theorem clone_null (hptr : d.raw.getPtr = 0) :
    d.clone os cl s = .ok (fromArray Array.new, s) := by
  rw [clone, if_pos hptr]
  rfl

theorem eq_false [BEq α] {c : ArrayDeque α} (h : c.len ≠ d.len) : c.eq d s = .ok false := by
  rw [ArrayDeque.eq, if_pos h]

theorem eq_null [BEq α] {c : ArrayDeque α} (h : c.len = d.len) (hc : c.raw.getPtr = 0)
    (hd : d.raw.getPtr = 0) : c.eq d s = .ok true := by
  rw [ArrayDeque.eq, if_neg (fun hne => hne h), ArrayDeque.deref, if_pos hc, ArrayDeque.deref, if_pos hd]
  rfl

/-- A collection with elements loses the last. -/
theorem fromIter_contents {xs : List α} {x : α}
    (h : fromIter os (xs ++ [x]) s = .ok (d, s')) : d.Contents s' xs := by
  obtain ⟨⟨a, s₁⟩, hiter, h⟩ := ok_of_bind h
  cases h
  have hsz : 0 < Elem.size α := by
    apply Nat.pos_of_ne_zero
    intro h0
    rw [Array.fromIter] at hiter
    cases xs with
    | nil =>
      rw [List.nil_append, Array.extend, Array.push_new_zero h0] at hiter
      cases hiter
    | cons y ys =>
      rw [List.cons_append, Array.extend, Array.push_new_zero h0] at hiter
      cases hiter
  have hq := queue_fromArray ((Array.fromIter_served hsz _ _).of_ok hiter).1 hsz
  exact ⟨hq.deref hsz, hq.len_eq hsz⟩

end

/-- **`From<Array<T>>` is one short.** Neither collecting nor converting gives what was
collected, for any elements: with some the last is lost, and with none `len` is
`usize::MAX`. So `clone` is equal to what it copies for no deque that has a buffer, and
without one exactly if that was converted from nothing too. -/
theorem collect_clone_iff {α : Type} [Elem α] [BEq α] :
    (∀ (os : Os) (xs : List α) (s : State), ¬∃ d s', fromIter os xs s = .ok (d, s') ∧
      d.Contents s' xs) ∧
    (∀ (os : Os) (xs : List α) (x : α) (s : State) (d : ArrayDeque α) (s' : State),
      fromIter os (xs ++ [x]) s = .ok (d, s') → d.Contents s' xs) ∧
    (∀ (a : Array α) (l : List α) (s : State), a.Holds s l → ¬(fromArray a).Contents s l) ∧
    ∀ (os : Os) (cl : α → α) (d : ArrayDeque α) (s : State),
      (∃ c s', d.clone os cl s = .ok (c, s') ∧ c.eq d s' = .ok true) ↔
        d.raw.getPtr = 0 ∧ d.len = usizeSize - 1 := by
  refine ⟨?_, fun os xs x s d s' h => fromIter_contents h, ?_, fun os cl d s => ⟨?_, ?_⟩⟩
  · intro os xs s ⟨d, s', h, hc⟩
    obtain ⟨⟨a, s₁⟩, hiter, h⟩ := ok_of_bind h
    cases h
    have hsize := Array.extend_size xs hiter
    rw [show (Array.new : Array α).size = 0 from rfl, Nat.zero_add] at hsize
    exact len_fromArray a (hc.2.trans hsize.symm)
  · intro a l s ha hc
    exact len_fromArray a (hc.2.trans ha.size.symm)
  · intro ⟨c, s', hclone, heq⟩
    by_cases hptr : d.raw.getPtr = 0
    · rw [clone_null hptr] at hclone
      cases hclone
      refine ⟨hptr, ?_⟩
      -- the lengths agree, or the loop is not entered
      by_cases hlen : (fromArray (Array.new : Array α)).len = d.len
      · rw [← hlen, len_fromArray_new]
      · rw [eq_false hlen] at heq
        cases heq
    · rw [eq_false (clone_len hptr hclone)] at heq
      cases heq
  · intro ⟨hptr, hlen⟩
    exact ⟨_, _, clone_null hptr, eq_null (len_fromArray_new.trans hlen.symm) rfl hptr⟩

/-- Collecting one element gives none. -/
theorem collect_loses :
    ∃ (d : ArrayDeque UInt64) (s : State), fromIter Os.bump [7] startState = .ok (d, s) ∧
      d.deref s = .ok [] ∧ d.len = 0 := by
  have h : (fromIter (α := UInt64) Os.bump [7] startState).toOption.isSome = true := by
    decide +kernel
  obtain ⟨⟨d, s⟩, hr⟩ := ok_of_isSome h
  have hc := @fromIter_contents _ _ _ _ _ _ [] 7 hr
  exact ⟨d, s, hr, hc.1, hc.2⟩

end ArrayDeque

end Apfmalloc
