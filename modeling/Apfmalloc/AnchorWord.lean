import Apfmalloc.Base.BitField
import Apfmalloc.CacheOps

/-!
# `allocation_data.rs`: the anchor as a word

An anchor is a `u64`: two bits of state, thirty of `avail`, thirty-two of `count`. That it
is one word is what makes it an anchor, since a compare-exchange takes words. The rest of
this development has a record with three fields instead, and compares records.

`AnchorApi` is what code can do with an anchor, `wordApi` does it on words as the `bitfield`
macro does, `recordApi` on records. A program is any list of steps on anchors: copies in
registers, of any number of threads, and the shared anchors of the descriptors.
`anchor_words_refine` says that no program can tell the two apart: every exchange succeeds
on words exactly if it does on records, every field reads the same, and the two bits of
state are never the fourth pattern, on which `SuperBlockState::from` panics.
-/

namespace Apfmalloc

open Base

/-! ## The two representations -/

/-- `From<u64>`; there is no fourth state. -/
def SuperBlockState.ofU64 (u : Nat) : Option SuperBlockState :=
  match u with
  | 0 => some .full
  | 1 => some .partly
  | 2 => some .empty
  | _ => none

/-- `Into<u64>` -/
def SuperBlockState.toU64 : SuperBlockState → Nat
  | .full => 0
  | .partly => 1
  | .empty => 2

/-- What code does with an anchor. `same` is the comparison of a compare-exchange. -/
structure AnchorApi (α : Type) where
  default : α
  state : α → Option SuperBlockState
  avail : α → Nat
  count : α → Nat
  setState : SuperBlockState → α → α
  setAvail : Nat → α → α
  setCount : Nat → α → α
  same : α → α → Bool

def stateField : Field 64 := ⟨1, 0, by decide, by decide⟩
def availField : Field 64 := ⟨31, 2, by decide, by decide⟩
def countField : Field 64 := ⟨63, 32, by decide, by decide⟩

def wordApi : AnchorApi (BitVec 64) where
  default := 0
  state w := SuperBlockState.ofU64 (stateField.get w).toNat
  avail w := (availField.get w).toNat
  count w := (countField.get w).toNat
  setState st w := stateField.set (.ofNat 64 st.toU64) w
  setAvail v w := availField.set (.ofNat 64 v) w
  setCount v w := countField.set (.ofNat 64 v) w
  same w w' := w == w'

def recordApi : AnchorApi Anchor where
  default := Anchor.default
  state a := some a.state
  avail a := a.avail
  count a := a.count
  setState st a := a.setState st
  setAvail v a := a.setAvail v
  setCount v a := a.setCount v
  same a a' := a == a'

/-- `PartialEq`, field by field. -/
def AnchorApi.eq {α : Type} (A : AnchorApi α) (x y : α) : Bool :=
  A.state x == A.state y && (A.avail x == A.avail y && A.count x == A.count y)

/-! ## Programs -/

/-- Copies of anchors in registers, and the anchors of the descriptors. -/
structure Anchors (α : Type) where
  regs : Nat → α
  shared : Nat → α

inductive WordOp
  | fresh (r : Nat)
  | copy (r r' : Nat)
  | setState (r : Nat) (st : SuperBlockState)
  | setAvail (r v : Nat)
  | setCount (r v : Nat)
  | state (r : Nat)
  | avail (r : Nat)
  | count (r : Nat)
  | load (r d : Nat)
  | store (r d : Nat)
  /-- a weak exchange may fail though the anchors are the same -/
  | exchange (old new d : Nat) (fails : Bool)

/-- What the program sees of a step. -/
inductive WordOut
  | nothing
  | state (st : Option SuperBlockState)
  | number (n : Nat)
  | exchanged (b : Bool)

def setAt {α : Type} (f : Nat → α) (i : Nat) (x : α) : Nat → α := fun j => if j = i then x else f j

namespace AnchorApi

variable {α : Type}

def start (A : AnchorApi α) : Anchors α := ⟨fun _ => A.default, fun _ => A.default⟩

def onReg (f : α → α) (r : Nat) (s : Anchors α) : WordOut × Anchors α :=
  (.nothing, { s with regs := setAt s.regs r (f (s.regs r)) })

def step (A : AnchorApi α) (s : Anchors α) : WordOp → WordOut × Anchors α
  | .fresh r => onReg (fun _ => A.default) r s
  | .copy r r' => onReg (fun _ => s.regs r') r s
  | .setState r st => onReg (A.setState st) r s
  | .setAvail r v => onReg (A.setAvail v) r s
  | .setCount r v => onReg (A.setCount v) r s
  | .state r => (.state (A.state (s.regs r)), s)
  | .avail r => (.number (A.avail (s.regs r)), s)
  | .count r => (.number (A.count (s.regs r)), s)
  | .load r d => onReg (fun _ => s.shared d) r s
  | .store r d => (.nothing, { s with shared := setAt s.shared d (s.regs r) })
  | .exchange old new d fails =>
    if A.same (s.shared d) (s.regs old) && !fails then
      (.exchanged true, { s with shared := setAt s.shared d (s.regs new) })
    else (.exchanged false, s)

def run (A : AnchorApi α) : List WordOp → Anchors α → List WordOut × Anchors α
  | [], s => ([], s)
  | op :: ops, s =>
    let r := A.run ops (A.step s op).2
    ((A.step s op).1 :: r.1, r.2)

end AnchorApi

/-! ## A word holds a record -/

/-- The word `w` reads as the record `a`. -/
structure Reads (w : BitVec 64) (a : Anchor) : Prop where
  state : wordApi.state w = some a.state
  avail : wordApi.avail w = a.avail
  count : wordApi.count w = a.count

theorem SuperBlockState.ofU64_toU64 (st : SuperBlockState) :
    ofU64 (st.toU64 % 2 ^ 2) = some st := by
  cases st <;> rfl

theorem SuperBlockState.toU64_of_ofU64 {u : Nat} {st : SuperBlockState} (h : ofU64 u = some st) :
    u = st.toU64 := by
  unfold ofU64 at h
  split at h
  next => cases h; rfl
  next => cases h; rfl
  next => cases h; rfl
  next => cases h

section Reads

variable {w w' : BitVec 64} {a a' : Anchor}

theorem reads_default : Reads wordApi.default Anchor.default := ⟨by decide, by decide, by decide⟩

theorem toNat_get_ofNat {f : Field 64} (hw : f.width ≤ 64) (v : Nat) (w : BitVec 64) :
    (f.get (f.set (.ofNat 64 v) w)).toNat = v % 2 ^ f.width := by
  rw [f.toNat_get_set, BitVec.toNat_ofNat, Nat.mod_mod_of_dvd _ (Nat.pow_dvd_pow 2 hw)]

theorem Reads.setState (h : Reads w a) (st : SuperBlockState) :
    Reads (wordApi.setState st w) (a.setState st) := by
  have hap : availField.Apart stateField := Or.inr (by decide)
  have hap' : countField.Apart stateField := Or.inr (by decide)
  refine ⟨?_, ?_, ?_⟩
  · show SuperBlockState.ofU64 (stateField.get (stateField.set _ w)).toNat = some st
    rw [toNat_get_ofNat (by decide)]
    exact st.ofU64_toU64
  · show (availField.get (stateField.set _ w)).toNat = a.avail
    rw [Field.get_set_apart hap]
    exact h.avail
  · show (countField.get (stateField.set _ w)).toNat = a.count
    rw [Field.get_set_apart hap']
    exact h.count

theorem Reads.setAvail (h : Reads w a) (v : Nat) : Reads (wordApi.setAvail v w) (a.setAvail v) := by
  have hap : stateField.Apart availField := Or.inl (by decide)
  have hap' : countField.Apart availField := Or.inr (by decide)
  refine ⟨?_, toNat_get_ofNat (by decide) v w, ?_⟩
  · show SuperBlockState.ofU64 (stateField.get (availField.set _ w)).toNat = some a.state
    rw [Field.get_set_apart hap]
    exact h.state
  · show (countField.get (availField.set _ w)).toNat = a.count
    rw [Field.get_set_apart hap']
    exact h.count

theorem Reads.setCount (h : Reads w a) (v : Nat) : Reads (wordApi.setCount v w) (a.setCount v) := by
  have hap : stateField.Apart countField := Or.inl (by decide)
  have hap' : availField.Apart countField := Or.inl (by decide)
  refine ⟨?_, ?_, toNat_get_ofNat (by decide) v w⟩
  · show SuperBlockState.ofU64 (stateField.get (countField.set _ w)).toNat = some a.state
    rw [Field.get_set_apart hap]
    exact h.state
  · show (availField.get (countField.set _ w)).toNat = a.avail
    rw [Field.get_set_apart hap']
    exact h.avail

theorem fields_cover : ∀ i < 64, ∃ f ∈ [stateField, availField, countField], f.Has i := by
  decide

/-- **One record, one word**: the comparison of words is that of records. -/
theorem Reads.same (h : Reads w a) (h' : Reads w' a') :
    wordApi.same w w' = recordApi.same a a' := by
  show (w == w') = (a == a')
  rw [Bool.eq_iff_iff, beq_iff_eq, beq_iff_eq]
  constructor
  · rintro rfl
    obtain ⟨st, av, ct⟩ := a
    obtain ⟨st', av', ct'⟩ := a'
    cases Option.some.inj (h.state.symm.trans h'.state)
    cases h.avail.symm.trans h'.avail
    cases h.count.symm.trans h'.count
    rfl
  · rintro rfl
    refine Field.ext_of_cover fields_cover fun f hf => BitVec.eq_of_toNat_eq ?_
    simp only [List.mem_cons, List.not_mem_nil, or_false] at hf
    rcases hf with rfl | rfl | rfl
    · exact (SuperBlockState.toU64_of_ofU64 h.state).trans
        (SuperBlockState.toU64_of_ofU64 h'.state).symm
    · exact h.avail.trans h'.avail.symm
    · exact h.count.trans h'.count.symm

/-- `PartialEq` is that comparison too. -/
theorem Reads.eq (h : Reads w a) (h' : Reads w' a') : wordApi.eq w w' = wordApi.same w w' := by
  rw [h.same h', AnchorApi.eq, h.state, h'.state, h.avail, h'.avail, h.count, h'.count]
  obtain ⟨st, av, ct⟩ := a
  obtain ⟨st', av', ct'⟩ := a'
  show (some st == some st' && (av == av' && ct == ct')) =
    ((⟨st, av, ct⟩ : Anchor) == ⟨st', av', ct'⟩)
  rw [Bool.eq_iff_iff]
  simp

end Reads

/-! ## No program can tell -/

/-- Registers and shared anchors hold the same. -/
structure ReadsAll (s : Anchors (BitVec 64)) (q : Anchors Anchor) : Prop where
  regs : ∀ r, Reads (s.regs r) (q.regs r)
  shared : ∀ d, Reads (s.shared d) (q.shared d)

section Programs

variable {s : Anchors (BitVec 64)} {q : Anchors Anchor}

theorem reads_setAt {f : Nat → BitVec 64} {g : Nat → Anchor} (h : ∀ i, Reads (f i) (g i)) (i : Nat)
    {w : BitVec 64} {a : Anchor} (hw : Reads w a) : ∀ j, Reads (setAt f i w j) (setAt g i a j) := by
  intro j
  by_cases hj : j = i
  · rw [setAt, setAt, if_pos hj, if_pos hj]
    exact hw
  · rw [setAt, setAt, if_neg hj, if_neg hj]
    exact h j

theorem ReadsAll.onReg (h : ReadsAll s q) (r : Nat) {f : BitVec 64 → BitVec 64}
    {g : Anchor → Anchor} (hf : Reads (f (s.regs r)) (g (q.regs r))) :
    (AnchorApi.onReg f r s).1 = (AnchorApi.onReg g r q).1 ∧
      ReadsAll (AnchorApi.onReg f r s).2 (AnchorApi.onReg g r q).2 :=
  ⟨rfl, reads_setAt h.regs r hf, h.shared⟩

/-- **A step shows the same** on words and on records. -/
theorem ReadsAll.step (h : ReadsAll s q) (op : WordOp) :
    (wordApi.step s op).1 = (recordApi.step q op).1 ∧
      ReadsAll (wordApi.step s op).2 (recordApi.step q op).2 := by
  cases op with
  | fresh r => exact h.onReg r reads_default
  | copy r r' => exact h.onReg r (h.regs r')
  | setState r st => exact h.onReg r ((h.regs r).setState st)
  | setAvail r v => exact h.onReg r ((h.regs r).setAvail v)
  | setCount r v => exact h.onReg r ((h.regs r).setCount v)
  | load r d => exact h.onReg r (h.shared d)
  | state r => exact ⟨congrArg WordOut.state (h.regs r).state, h⟩
  | avail r => exact ⟨congrArg WordOut.number (h.regs r).avail, h⟩
  | count r => exact ⟨congrArg WordOut.number (h.regs r).count, h⟩
  | store r d => exact ⟨rfl, h.regs, reads_setAt h.shared d (h.regs r)⟩
  | exchange old new d fails =>
    have hsame := (h.shared d).same (h.regs old)
    simp only [AnchorApi.step, hsame]
    split
    next => exact ⟨rfl, h.regs, reads_setAt h.shared d (h.regs new)⟩
    next => exact ⟨rfl, h⟩

/-- A record has a state. -/
theorem record_state (q : Anchors Anchor) (op : WordOp) :
    (recordApi.step q op).1 ≠ .state none := by
  intro h
  cases op with
  | state r => cases WordOut.state.inj h
  | exchange old new d fails =>
    simp only [AnchorApi.step] at h
    split at h <;> cases h
  | _ => cases h

theorem ReadsAll.run (ops : List WordOp) : ∀ {s q}, ReadsAll s q →
    (wordApi.run ops s).1 = (recordApi.run ops q).1 ∧
      WordOut.state none ∉ (recordApi.run ops q).1 ∧
      ReadsAll (wordApi.run ops s).2 (recordApi.run ops q).2 := by
  induction ops with
  | nil =>
    intro s q h
    exact ⟨rfl, List.not_mem_nil, h⟩
  | cons op ops ih =>
    intro s q h
    obtain ⟨hout, hstep⟩ := h.step op
    obtain ⟨houts, hnone, hrun⟩ := ih hstep
    refine ⟨?_, ?_, hrun⟩
    · rw [AnchorApi.run, AnchorApi.run, hout, houts]
    · rw [AnchorApi.run, List.mem_cons, not_or]
      exact ⟨fun heq => record_state q op heq.symm, hnone⟩

end Programs

/-- The new anchor of `flush_cache`, on anchors of either kind. -/
def AnchorApi.flush {α : Type} (A : AnchorApi α) (old : α) (maxCount index blockCount : Nat) :
    Option α := do
  let st ← A.state old
  let new := A.setAvail index old
  let new := if st = .full then A.setState .partly new else new
  if A.count old + blockCount = maxCount then
    some (A.setState .empty (A.setCount (maxCount - 1) new))
  else some (A.setCount blockCount new)

/-- The new anchor of `malloc_from_partial`. -/
def AnchorApi.take {α : Type} (A : AnchorApi α) (old : α) (maxCount : Nat) : α :=
  A.setState .full (A.setAvail maxCount (A.setCount 0 old))

/-- What the words of `flush_cache` read as is the anchor of the model. -/
theorem Reads.flush {w : BitVec 64} {a : Anchor} (h : Reads w a) (maxCount index blockCount : Nat) :
    ∃ w', wordApi.flush w maxCount index blockCount = some w' ∧
      Reads w' (flushAnchor a maxCount index blockCount) := by
  have hnew : Reads (if a.state = .full then wordApi.setState .partly (wordApi.setAvail index w)
      else wordApi.setAvail index w)
      (if a.state = .full then (a.setAvail index).setState .partly else a.setAvail index) := by
    split
    · exact (h.setAvail index).setState .partly
    · exact h.setAvail index
  rw [AnchorApi.flush, h.state, flushAnchor]
  simp only [Option.bind_eq_bind, Option.bind_some, h.count]
  split
  · exact ⟨_, rfl, (hnew.setCount (maxCount - 1)).setState .empty⟩
  · exact ⟨_, rfl, hnew.setCount blockCount⟩

theorem Reads.take {w : BitVec 64} {a : Anchor} (h : Reads w a) (maxCount : Nat) :
    Reads (wordApi.take w maxCount) (listAnchor maxCount a) :=
  ((h.setCount 0).setAvail maxCount).setState .full

end Apfmalloc
