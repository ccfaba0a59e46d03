import Apfmalloc.Base.Assoc

/-!
# `apf/trace.rs`: the events of a burst

A `Trace` is a buffer of events with a length; `add` doubles the buffer when one entry
is left. Every other method is a pass over the events with a map keyed by slot:
`objectCount` counts slots, `freeIntervals` pairs each allocation with the last free of
its slot on the allocation clock, `freeIntervalsAlt` does the same on the indices of the
events, and `valid` looks for a slot that is allocated or freed twice in a row.

The buffer comes from the allocator itself. It enters as a parameter with what the
trace relies on: a new buffer has the length asked for and unspecified contents, and
growing one keeps its entries. An index out of bounds is `none`.

`Trace.Records t l` is the interface of the buffer: `t` holds exactly the events `l`.
Behind it every pass is a fold over `l` (`Records.scan`), and `trace_passes` relates
the passes to each other.
-/

namespace Apfmalloc

open Base

/-! ## The buffer -/

/-- `allocate_type` and `do_realloc` for buffers of `α`, when memory does not run out. -/
structure Buffers (α : Type) where
  allocate : Nat → List α
  allocate_length : ∀ n, (allocate n).length = n
  realloc : List α → Nat → List α
  realloc_length : ∀ l n, (realloc l n).length = n
  realloc_keeps : ∀ l n, l.length ≤ n → (realloc l n).take l.length = l

/-- Buffers that are filled up with `x`. -/
def Buffers.padded {α : Type} (x : α) : Buffers α where
  allocate n := List.replicate n x
  allocate_length n := List.length_replicate
  realloc l n := (l ++ List.replicate (n - l.length) x).take n
  realloc_length l n := by
    rw [List.length_take, List.length_append, List.length_replicate]
    omega
  realloc_keeps l n h := by
    rw [List.take_take, Nat.min_eq_left h, List.take_left]

inductive Event
  | alloc (slot : Nat)
  | free (slot : Nat)
  deriving DecidableEq, Repr

def Event.slot : Event → Nat
  | .alloc s => s
  | .free s => s

def Event.isAlloc : Event → Bool
  | .alloc _ => true
  | .free _ => false

def initTraceLength : Nat := 1 <<< 14

structure Trace where
  accesses : List Event
  length : Nat
  allocCount : Nat

namespace Trace

def new (mem : Buffers Event) : Trace := ⟨mem.allocate initTraceLength, 0, 0⟩

def allocLength (t : Trace) : Nat := t.allocCount

def add (mem : Buffers Event) (t : Trace) (e : Event) : Option Trace :=
  let accesses :=
    if t.length = t.accesses.length - 1 then mem.realloc t.accesses (t.accesses.length * 2)
    else t.accesses
  if t.length < accesses.length then
    some { accesses := accesses.set t.length e
           length := t.length + 1
           allocCount := if e.isAlloc then t.allocCount + 1 else t.allocCount }
  else none

/-- The trace of a sequence of events. -/
def build (mem : Buffers Event) (l : List Event) : Option Trace := l.foldlM (add mem) (new mem)

def get (t : Trace) (index : Nat) : Option Event := t.accesses[index]?

/-- `for i in 0..self.length() { match self.get(i) { … } }` -/
def scan {σ : Type} (t : Trace) (f : σ → Event → σ) (st : σ) : Option σ :=
  (List.range t.length).foldlM (fun st i => (t.get i).map (f st)) st

end Trace

/-! ## The passes -/

/-- Both kinds of event make their slot known. -/
def seenStep (seen : List (Nat × Bool)) (e : Event) : List (Nat × Bool) :=
  if (seen.lookup e.slot).isNone then insertKey e.slot true seen else seen

def Trace.objectCount (t : Trace) : Option Nat := (t.scan seenStep []).map List.length

structure IntervalScan where
  frees : List (Nat × Nat)
  result : List (Nat × Nat)
  allocClock : Nat

/-- A free is not forgotten by the allocation that ends its interval. -/
def intervalStep (st : IntervalScan) : Event → IntervalScan
  | .free s => { st with frees := insertKey s st.allocClock st.frees }
  | .alloc e =>
    match st.frees.lookup e with
    | some s => { st with result := st.result ++ [(s, st.allocClock)],
                          allocClock := st.allocClock + 1 }
    | none => { st with allocClock := st.allocClock + 1 }

def Trace.freeIntervals (t : Trace) : Option (List (Nat × Nat)) :=
  (t.scan intervalStep ⟨[], [], 0⟩).map IntervalScan.result

/-- `none` once the pass has returned `false`. -/
def validStep (alloc : Option (List (Nat × Bool))) (e : Event) : Option (List (Nat × Bool)) :=
  alloc.bind fun alloc =>
    match e with
    | .alloc s => if alloc.lookup s = some true then none else some (insertKey s true alloc)
    | .free s => if alloc.lookup s = some true then some (insertKey s false alloc) else none

def Trace.valid (t : Trace) : Option Bool := (t.scan validStep (some [])).map Option.isSome

/-! ## What a trace holds -/

/-- The allocation clock at the end of `l`. -/
def allocs (l : List Event) : Nat := l.countP Event.isAlloc

theorem allocs_concat (l : List Event) (e : Event) :
    allocs (l ++ [e]) = if e.isAlloc then allocs l + 1 else allocs l := by
  rw [allocs, List.countP_append, List.countP_singleton, allocs]
  split <;> rfl

structure Trace.Records (t : Trace) (l : List Event) : Prop where
  room : t.length < t.accesses.length
  events : t.accesses.take t.length = l
  count : t.allocCount = allocs l

section Buffer

variable {mem : Buffers Event} {t : Trace} {l : List Event}

theorem Trace.new_records (mem : Buffers Event) : (Trace.new mem).Records [] :=
  ⟨by rw [Trace.new, mem.allocate_length]; exact Nat.two_pow_pos 14, rfl, rfl⟩

/-- Adding an event never runs out of the buffer. -/
theorem Trace.Records.add (h : t.Records l) (mem : Buffers Event) (e : Event) :
    ∃ t', t.add mem e = some t' ∧ t'.Records (l ++ [e]) := by
  have hroom := h.room
  obtain ⟨accesses, hacc, hlen, htake⟩ : ∃ accesses, accesses =
      (if t.length = t.accesses.length - 1 then mem.realloc t.accesses (t.accesses.length * 2)
        else t.accesses) ∧ t.length + 1 < accesses.length ∧ accesses.take t.length = l := by
    refine ⟨_, rfl, ?_⟩
    split
    next hfull =>
      have hkeep := mem.realloc_keeps t.accesses (t.accesses.length * 2) (by omega)
      refine ⟨by rw [mem.realloc_length]; omega, ?_⟩
      rw [← h.events]
      conv => rhs; rw [← hkeep]
      rw [List.take_take, Nat.min_eq_left (by omega)]
    next hroom => exact ⟨by omega, h.events⟩
  refine ⟨_, by rw [Trace.add, ← hacc, if_pos (by omega)], by rw [List.length_set]; exact hlen,
    ?_, ?_⟩
  · show (accesses.set t.length e).take (t.length + 1) = l ++ [e]
    rw [List.take_add_one, List.take_set_of_le (Nat.le_refl _), htake,
      List.getElem?_set_self (by omega)]
    rfl
  · show (if e.isAlloc then t.allocCount + 1 else t.allocCount) = allocs (l ++ [e])
    rw [allocs_concat, h.count]

theorem Trace.Records.foldlM (mem : Buffers Event) (l' : List Event) :
    ∀ {t : Trace} {l : List Event}, t.Records l →
      ∃ t', l'.foldlM (Trace.add mem) t = some t' ∧ t'.Records (l ++ l') := by
  induction l' with
  | nil => intro t l h; exact ⟨t, rfl, by rw [List.append_nil]; exact h⟩
  | cons e l' ih =>
    intro t l h
    obtain ⟨t₁, hadd, h₁⟩ := h.add mem e
    obtain ⟨t₂, hfold, h₂⟩ := ih h₁
    refine ⟨t₂, ?_, by rw [List.append_assoc] at h₂; exact h₂⟩
    rw [List.foldlM_cons, hadd]
    exact hfold

/-- Every sequence of events can be recorded. -/
theorem Trace.build_records (mem : Buffers Event) (l : List Event) :
    ∃ t, Trace.build mem l = some t ∧ t.Records l :=
  (Trace.new_records mem).foldlM mem l

theorem Trace.Records.allocLength (h : t.Records l) : t.allocLength = allocs l := h.count

/-- A pass over the indices is a fold over the events. -/
theorem Trace.Records.scan (h : t.Records l) {σ : Type} (f : σ → Event → σ) (st : σ) :
    t.scan f st = some (l.foldl f st) := by
  have key : ∀ k ≤ t.length, (List.range k).foldlM (fun st i => (t.get i).map (f st)) st =
      some ((t.accesses.take k).foldl f st) := by
    intro k
    induction k with
    | zero => intro _; rfl
    | succ k ih =>
      intro hk
      have hroom := h.room
      have hget : t.accesses[k]? = some (t.accesses[k]) := List.getElem?_eq_getElem (by omega)
      rw [List.range_succ, List.foldlM_append, ih (by omega), List.take_add_one, hget,
        List.foldl_append]
      show ((t.get k).map (f _)).bind some = _
      rw [Trace.get, hget]
      rfl
  rw [Trace.scan, key t.length (Nat.le_refl _), h.events]

end Buffer

/-! ## The free intervals of a list of events -/

/-- The intervals of `l` from a clock and the frees seen before it. -/
def intervalsFrom (frees : List (Nat × Nat)) (clock : Nat) : List Event → List (Nat × Nat)
  | [] => []
  | .free p :: l => intervalsFrom (insertKey p clock frees) clock l
  | .alloc p :: l =>
    match frees.lookup p with
    | some s => (s, clock) :: intervalsFrom frees (clock + 1) l
    | none => intervalsFrom frees (clock + 1) l

def intervals (l : List Event) : List (Nat × Nat) := intervalsFrom [] 0 l

theorem foldl_intervalStep (l : List Event) : ∀ st : IntervalScan,
    (l.foldl intervalStep st).result = st.result ++ intervalsFrom st.frees st.allocClock l := by
  induction l with
  | nil => intro st; exact (List.append_nil _).symm
  | cons e l ih =>
    intro st
    rw [List.foldl_cons, ih]
    cases e with
    | free p => rfl
    | alloc p =>
      rw [intervalStep, intervalsFrom]
      cases st.frees.lookup p with
      | none => rfl
      | some s => exact List.append_assoc ..

theorem Trace.Records.freeIntervals {t : Trace} {l : List Event} (h : t.Records l) :
    t.freeIntervals = some (intervals l) := by
  rw [Trace.freeIntervals, h.scan]
  exact congrArg some (foldl_intervalStep l _)

/-- The frees on record were made between `lo` and `clock`. -/
def FreesIn (lo clock : Nat) (frees : List (Nat × Nat)) : Prop :=
  ∀ p s, frees.lookup p = some s → lo ≤ s ∧ s ≤ clock

theorem FreesIn.insert {lo clock : Nat} {frees : List (Nat × Nat)} (h : FreesIn lo clock frees)
    (hlo : lo ≤ clock) (p : Nat) : FreesIn lo clock (insertKey p clock frees) := by
  intro q s hq
  rw [lookup_insertKey] at hq
  split at hq
  next =>
    cases hq
    exact ⟨hlo, Nat.le_refl _⟩
  next => exact h q s hq

theorem FreesIn.tick {lo clock : Nat} {frees : List (Nat × Nat)} (h : FreesIn lo clock frees) :
    FreesIn lo (clock + 1) frees := by
  intro q s hq
  have := h q s hq
  omega

theorem FreesIn.nil (lo clock : Nat) : FreesIn lo clock [] := by
  intro q s hq
  cases hq

/-- Every interval starts at a free on record or later, and ends at an allocation of `l`
that is not before its start. -/
theorem intervalsFrom_bounds (lo : Nat) (l : List Event) :
    ∀ {frees : List (Nat × Nat)} {clock : Nat}, FreesIn lo clock frees → lo ≤ clock →
      ∀ iv ∈ intervalsFrom frees clock l,
        lo ≤ iv.1 ∧ iv.1 ≤ iv.2 ∧ clock ≤ iv.2 ∧ iv.2 < clock + allocs l := by
  induction l with
  | nil => intro frees clock _ _ iv hiv; cases hiv
  | cons e l ih =>
    intro frees clock hf hlo iv hiv
    cases e with
    | free p =>
      have := ih (hf.insert hlo p) hlo iv hiv
      exact this
    | alloc p =>
      have hal : allocs (.alloc p :: l) = allocs l + 1 := List.countP_cons_of_pos rfl
      have hrest : iv ∈ intervalsFrom frees (clock + 1) l → _ :=
        fun hiv => ih hf.tick (by omega) iv hiv
      rw [intervalsFrom] at hiv
      split at hiv
      next s hs =>
        rcases List.mem_cons.mp hiv with rfl | hiv
        · have := hf p s hs
          exact ⟨this.1, this.2, Nat.le_refl _, by omega⟩
        · have := hrest hiv
          omega
      next =>
        have := hrest hiv
        omega

/-- The ends are the clocks of allocations, each used once. -/
theorem intervalsFrom_sorted (l : List Event) :
    ∀ {frees : List (Nat × Nat)} {clock : Nat}, FreesIn 0 clock frees →
      (intervalsFrom frees clock l).Pairwise fun iv iv' => iv.2 < iv'.2 := by
  induction l with
  | nil => intro frees clock _; exact List.Pairwise.nil
  | cons e l ih =>
    intro frees clock hf
    cases e with
    | free p => exact ih (hf.insert (Nat.zero_le _) p)
    | alloc p =>
      rw [intervalsFrom]
      split
      next s hs =>
        refine List.pairwise_cons.mpr ⟨fun iv hiv => ?_, ih hf.tick⟩
        have := intervalsFrom_bounds 0 l hf.tick (Nat.zero_le _) iv hiv
        exact this.2.2.1
      next => exact ih hf.tick

/-! ## Valid traces -/

/-- The events of slot `p` are Alloc, Free, Alloc, …. -/
def Alternates (p : Nat) (l : List Event) : Prop :=
  ∀ i e, (l.filter fun e => e.slot == p)[i]? = some e → (e.isAlloc = true ↔ i % 2 = 0)

/-- The same, with the kind of the first event. -/
def AlternatesFrom : Bool → List Event → Prop
  | _, [] => True
  | b, e :: l => e.isAlloc = b ∧ AlternatesFrom (!b) l

theorem alternatesFrom_iff (l : List Event) : ∀ b, AlternatesFrom b l ↔
    ∀ i e, l[i]? = some e → (e.isAlloc = b ↔ i % 2 = 0) := by
  induction l with
  | nil =>
    intro b
    exact iff_of_true trivial fun i e h => by rw [List.getElem?_nil] at h; cases h
  | cons a l ih =>
    intro b
    rw [AlternatesFrom, ih]
    constructor
    · intro ⟨hhead, htail⟩ i e hi
      cases i with
      | zero =>
        cases hi
        exact iff_of_true hhead rfl
      | succ i =>
        have := htail i e hi
        rw [show (e.isAlloc = b) ↔ ¬e.isAlloc = !b by cases e.isAlloc <;> cases b <;> simp, this]
        omega
    · intro h
      refine ⟨(h 0 a rfl).mpr rfl, fun i e hi => ?_⟩
      have := h (i + 1) e hi
      rw [show (e.isAlloc = !b) ↔ ¬e.isAlloc = b by cases e.isAlloc <;> cases b <;> simp, this]
      omega

/-- What the pass accepts next for a slot: an allocation, unless it is allocated. -/
def expects (alloc : List (Nat × Bool)) (p : Nat) : Bool := alloc.lookup p != some true

theorem validStep_some (alloc : List (Nat × Bool)) (e : Event) :
    validStep (some alloc) e =
      if e.isAlloc = expects alloc e.slot then some (insertKey e.slot e.isAlloc alloc) else none := by
  unfold validStep expects
  cases e with
  | alloc s => by_cases h : alloc.lookup s = some true <;> simp [Event.isAlloc, Event.slot, h]
  | free s => by_cases h : alloc.lookup s = some true <;> simp [Event.isAlloc, Event.slot, h]

theorem expects_insert (alloc : List (Nat × Bool)) (e : Event) (p : Nat) :
    expects (insertKey e.slot e.isAlloc alloc) p =
      if p == e.slot then !e.isAlloc else expects alloc p := by
  unfold expects
  rw [lookup_insertKey]
  by_cases hp : p == e.slot
  · rw [if_pos hp, if_pos hp]
    cases e.isAlloc <;> rfl
  · rw [if_neg hp, if_neg hp]

theorem foldl_validStep_none (l : List Event) : l.foldl validStep none = none := by
  induction l with
  | nil => rfl
  | cons e l ih => rw [List.foldl_cons]; exact ih

/-- The scan passes exactly if every slot alternates from what it expects. -/
theorem foldl_validStep_isSome (l : List Event) : ∀ alloc : List (Nat × Bool),
    (l.foldl validStep (some alloc)).isSome = true ↔
      ∀ p, AlternatesFrom (expects alloc p) (l.filter fun e => e.slot == p) := by
  induction l with
  | nil => intro alloc; exact iff_of_true rfl fun _ => trivial
  | cons e l ih =>
    intro alloc
    rw [List.foldl_cons, validStep_some]
    -- only the slot of `e` sees it
    have hother : ∀ p, (p == e.slot) = false →
        ((e :: l).filter fun e => e.slot == p) = l.filter fun e => e.slot == p := by
      intro p hp
      refine List.filter_cons_of_neg ?_
      rw [beq_eq_false_iff_ne] at hp
      simpa using Ne.symm hp
    have hsame : ((e :: l).filter fun e' => e'.slot == e.slot) =
        e :: l.filter fun e' => e'.slot == e.slot :=
      List.filter_cons_of_pos (by simp)
    by_cases hexp : e.isAlloc = expects alloc e.slot
    · rw [if_pos hexp, ih]
      refine forall_congr' fun p => ?_
      rw [expects_insert]
      by_cases hp : (p == e.slot) = true
      · obtain rfl := beq_iff_eq.mp hp
        rw [if_pos hp, hsame, AlternatesFrom, ← hexp]
        exact (and_iff_right rfl).symm
      · rw [if_neg hp, hother p (Bool.eq_false_iff.mpr hp)]
    · rw [if_neg hexp, foldl_validStep_none]
      refine iff_of_false (by simp) fun h => hexp ?_
      have := h e.slot
      rw [hsame] at this
      exact this.1

theorem Trace.Records.valid {t : Trace} {l : List Event} (h : t.Records l) :
    t.valid = some (l.foldl validStep (some [])).isSome := by
  rw [Trace.valid, h.scan]
  rfl

theorem valid_iff_alternates (l : List Event) :
    (l.foldl validStep (some [])).isSome = true ↔ ∀ p, Alternates p l := by
  rw [foldl_validStep_isSome]
  exact forall_congr' fun p => alternatesFrom_iff _ _

/-! ## Objects and intervals of a valid trace -/

/-- The maps of the three passes agree: a slot is seen when it was allocated, and a free
is on record for every slot that is free again. -/
structure PassesAgree (alloc : List (Nat × Bool)) (frees : List (Nat × Nat))
    (seen : List (Nat × Bool)) : Prop where
  seen_iff : ∀ p, seen.lookup p = none ↔ alloc.lookup p = none
  frees_alloc : ∀ p, alloc.lookup p = none → frees.lookup p = none
  free_again : ∀ p, alloc.lookup p = some false → frees.lookup p ≠ none

theorem Trace.Records.objectCount {t : Trace} {l : List Event} (h : t.Records l) :
    t.objectCount = some (l.foldl seenStep []).length := by
  rw [Trace.objectCount, h.scan]
  rfl

theorem lookup_seenStep (seen : List (Nat × Bool)) (e : Event) (p : Nat) :
    (seenStep seen e).lookup p = none ↔ p ≠ e.slot ∧ seen.lookup p = none := by
  unfold seenStep
  by_cases hp : p = e.slot
  · subst hp
    by_cases hs : seen.lookup e.slot = none <;> simp [hs, lookup_insertKey]
  · by_cases hs : seen.lookup e.slot = none <;> simp [hs, hp, lookup_insertKey]

section Agree

variable {alloc : List (Nat × Bool)} {frees : List (Nat × Nat)} {seen : List (Nat × Bool)}

theorem PassesAgree.afterFree (h : PassesAgree alloc frees seen) (p clock : Nat) :
    PassesAgree (insertKey p false alloc) (insertKey p clock frees) (seenStep seen (.free p)) where
  seen_iff q := by
    rw [lookup_seenStep, h.seen_iff, lookup_insertKey]
    by_cases hq : q = p <;> simp [Event.slot, hq]
  frees_alloc q := by
    rw [lookup_insertKey, lookup_insertKey]
    by_cases hq : q = p
    · simp [hq]
    · simpa [hq] using h.frees_alloc q
  free_again q := by
    rw [lookup_insertKey, lookup_insertKey]
    by_cases hq : q = p
    · simp [hq]
    · simpa [hq] using h.free_again q

theorem PassesAgree.afterAlloc (h : PassesAgree alloc frees seen) (p : Nat) :
    PassesAgree (insertKey p true alloc) frees (seenStep seen (.alloc p)) where
  seen_iff q := by
    rw [lookup_seenStep, h.seen_iff, lookup_insertKey]
    by_cases hq : q = p <;> simp [Event.slot, hq]
  frees_alloc q := by
    rw [lookup_insertKey]
    by_cases hq : q = p
    · simp [hq]
    · simpa [hq] using h.frees_alloc q
  free_again q := by
    rw [lookup_insertKey]
    by_cases hq : q = p
    · simp [hq]
    · simpa [hq] using h.free_again q

/-- A slot that was seen adds nothing. -/
theorem seenStep_of_seen {e : Event} (h : seen.lookup e.slot ≠ none) : seenStep seen e = seen :=
  if_neg (by rw [Option.isNone_iff_eq_none]; exact h)

theorem length_seenStep_of_new {e : Event} (h : seen.lookup e.slot = none) :
    (seenStep seen e).length = seen.length + 1 := by
  rw [seenStep, if_pos (by rw [h]; rfl), length_insertKey _ h]

end Agree

/-- Each allocation of a valid trace makes its slot known or ends an interval. -/
theorem intervals_add_objects (l : List Event) :
    ∀ {alloc : List (Nat × Bool)} {frees : List (Nat × Nat)} {seen : List (Nat × Bool)}
      (clock : Nat), PassesAgree alloc frees seen →
      (l.foldl validStep (some alloc)).isSome = true →
      (intervalsFrom frees clock l).length + (l.foldl seenStep seen).length =
        allocs l + seen.length := by
  induction l with
  | nil => intro alloc frees seen clock _ _; rfl
  | cons e l ih =>
    intro alloc frees seen clock h hvalid
    rw [List.foldl_cons, validStep_some] at hvalid
    by_cases hexp : e.isAlloc = expects alloc e.slot
    case neg =>
      rw [if_neg hexp, foldl_validStep_none] at hvalid
      cases hvalid
    case pos =>
      rw [if_pos hexp] at hvalid
      rw [List.foldl_cons]
      cases e with
      | free p =>
        have hp : alloc.lookup p = some true := by
          simpa [expects, Event.isAlloc, Event.slot] using hexp
        have hseen : seen.lookup p ≠ none := fun hn => by
          rw [h.seen_iff, hp] at hn
          cases hn
        have := ih clock (h.afterFree p clock) hvalid
        rw [seenStep_of_seen (e := .free p) hseen] at this ⊢
        exact this
      | alloc p =>
        have hal : allocs (.alloc p :: l) = allocs l + 1 := List.countP_cons_of_pos rfl
        have hrest := ih (clock + 1) (h.afterAlloc p) hvalid
        rw [intervalsFrom, hal]
        -- the slot is new, or it was freed since
        cases hp : alloc.lookup p with
        | none =>
          rw [h.frees_alloc p hp]
          rw [length_seenStep_of_new (e := .alloc p) ((h.seen_iff p).mpr hp)] at hrest
          show (intervalsFrom frees (clock + 1) l).length + _ = _
          omega
        | some b =>
          have hb : b = false := by
            cases b with
            | false => rfl
            | true => simp [expects, Event.isAlloc, Event.slot, hp] at hexp
          subst hb
          obtain ⟨s, hs⟩ := Option.ne_none_iff_exists'.mp (h.free_again p hp)
          have hseen : seen.lookup p ≠ none := fun hn => by
            rw [h.seen_iff, hp] at hn
            cases hn
          rw [seenStep_of_seen (e := .alloc p) hseen] at hrest ⊢
          rw [hs]
          show ((s, clock) :: intervalsFrom frees (clock + 1) l).length + _ = _
          rw [List.length_cons]
          omega

structure AltScan where
  frees : List (Nat × Nat)
  result : List (Nat × Nat)

def altStep (i : Nat) (st : AltScan) : Event → AltScan
  | .free s => { st with frees := insertKey s i st.frees }
  | .alloc e =>
    match st.frees.lookup e with
    | some s => { st with result := st.result ++ [(s, i)] }
    | none => st

def Trace.freeIntervalsAlt (t : Trace) : Option (List (Nat × Nat)) :=
  ((List.range t.length).foldlM (fun st i => (t.get i).map (altStep i st)) ⟨[], []⟩).map
    AltScan.result

/-- The last free of slot `p` is event `i`. -/
def LastFree (l : List Event) (p i : Nat) : Prop :=
  l[i]? = some (.free p) ∧ ∀ k, i < k → l[k]? ≠ some (.free p)

/-- Event `j` allocates a slot whose last free before is event `i`. -/
def Reopens (l : List Event) (i j : Nat) : Prop :=
  ∃ p, l[j]? = some (.alloc p) ∧ LastFree (l.take j) p i

/-- The clock at event `i`. -/
def clockAt (l : List Event) (i : Nat) : Nat := allocs (l.take i)

/-- The two passes after the events `l`. -/
structure Paired (l : List Event) (st : IntervalScan) (alt : AltScan) : Prop where
  clock : st.allocClock = allocs l
  last : ∀ p i, alt.frees.lookup p = some i ↔ LastFree l p i
  frees : ∀ p, st.frees.lookup p = (alt.frees.lookup p).map (clockAt l)
  reopens : ∀ iv, iv ∈ alt.result ↔ Reopens l iv.1 iv.2
  sorted : alt.result.Pairwise fun iv iv' => iv.2 < iv'.2
  result : st.result = alt.result.map fun iv => (clockAt l iv.1, clockAt l iv.2)

section Concat

variable {l : List Event} {e : Event} {p i j : Nat}

theorem getElem?_concat_eq {x : Event} : (l ++ [e])[i]? = some x ↔
    l[i]? = some x ∨ i = l.length ∧ e = x := by
  rcases Nat.lt_trichotomy i l.length with hi | rfl | hi
  · rw [List.getElem?_append_left hi]
    exact (or_iff_left fun h => Nat.ne_of_lt hi h.1).symm
  · rw [List.getElem?_concat_length, List.getElem?_eq_none (Nat.le_refl _)]
    simp
  · rw [List.getElem?_eq_none (by simp; omega), List.getElem?_eq_none (Nat.le_of_lt hi)]
    simp [Nat.ne_of_gt hi]

theorem LastFree.lt (h : LastFree l p i) : i < l.length :=
  (List.getElem?_eq_some_iff.mp h.1).1

theorem Reopens.lt (h : Reopens l i j) : i < j ∧ j < l.length := by
  obtain ⟨p, hj, hi⟩ := h
  have hlt := hi.lt
  rw [List.length_take] at hlt
  exact ⟨by omega, (List.getElem?_eq_some_iff.mp hj).1⟩

/-- A free is the last of its slot from then on. -/
theorem lastFree_concat_free : LastFree (l ++ [.free p]) p i ↔ i = l.length := by
  constructor
  · intro h
    have hlt := h.lt
    rw [List.length_append, List.length_singleton] at hlt
    rcases Nat.lt_or_ge i l.length with hi | hi
    · exact absurd List.getElem?_concat_length (h.2 l.length hi)
    · omega
  · rintro rfl
    refine ⟨List.getElem?_concat_length, fun k hk => ?_⟩
    rw [List.getElem?_eq_none (by rw [List.length_append]; exact hk)]
    exact fun h => by cases h

/-- Every other event leaves it. -/
theorem lastFree_concat_of_ne (he : e ≠ .free p) :
    LastFree (l ++ [e]) p i ↔ LastFree l p i := by
  have hget : ∀ k, (l ++ [e])[k]? = some (Event.free p) ↔ l[k]? = some (Event.free p) :=
    fun k => getElem?_concat_eq.trans (or_iff_left fun h => he h.2)
  rw [LastFree, LastFree, hget]
  exact and_congr_right fun _ => forall_congr' fun k => imp_congr_right fun _ => not_congr (hget k)

theorem reopens_concat : Reopens (l ++ [e]) i j ↔
    Reopens l i j ∨ j = l.length ∧ ∃ p, e = .alloc p ∧ LastFree l p i := by
  rcases Nat.lt_trichotomy j l.length with hj | rfl | hj
  · rw [Reopens, List.getElem?_append_left hj, List.take_append_of_le_length (Nat.le_of_lt hj)]
    exact (or_iff_left fun h => Nat.ne_of_lt hj h.1).symm
  · rw [Reopens, List.getElem?_concat_length, List.take_left]
    rw [or_iff_right fun h : Reopens l i l.length => Nat.lt_irrefl _ h.lt.2]
    simp
  · refine iff_of_false (fun h => ?_) ?_
    · have hlt := h.lt.2
      rw [List.length_append, List.length_singleton] at hlt
      omega
    · rintro (h | h)
      · exact Nat.lt_asymm hj h.lt.2
      · exact Nat.ne_of_gt hj h.1

theorem clockAt_concat (hi : i ≤ l.length) : clockAt (l ++ [e]) i = clockAt l i :=
  congrArg allocs (List.take_append_of_le_length hi)

theorem clockAt_length (l : List Event) : clockAt l l.length = allocs l :=
  congrArg allocs List.take_length

end Concat

section Steps

variable {l : List Event} {st : IntervalScan} {alt : AltScan}

/-- An event later does not change the clocks of the intervals. -/
theorem Paired.result_concat (h : Paired l st alt) (e : Event) : st.result =
    alt.result.map fun iv => (clockAt (l ++ [e]) iv.1, clockAt (l ++ [e]) iv.2) := by
  rw [h.result]
  refine List.map_congr_left fun iv hiv => ?_
  have hlt := ((h.reopens iv).mp hiv).lt
  rw [clockAt_concat (by omega), clockAt_concat (by omega)]

theorem Paired.frees_concat (h : Paired l st alt) (e : Event) (p : Nat) :
    st.frees.lookup p = (alt.frees.lookup p).map (clockAt (l ++ [e])) := by
  rw [h.frees]
  cases hp : alt.frees.lookup p with
  | none => rfl
  | some i => exact congrArg some (clockAt_concat (Nat.le_of_lt ((h.last p i).mp hp).lt)).symm

theorem Paired.free (h : Paired l st alt) (p : Nat) :
    Paired (l ++ [.free p]) (intervalStep st (.free p)) (altStep l.length alt (.free p)) where
  clock := h.clock.trans (by rw [allocs_concat]; rfl)
  last q i := by
    show (insertKey p l.length alt.frees).lookup q = some i ↔ _
    rw [lookup_insertKey]
    by_cases hq : q = p
    · subst hq
      rw [if_pos (beq_self_eq_true q), lastFree_concat_free, Option.some_inj, eq_comm]
    · rw [if_neg (by simpa using hq), h.last,
        lastFree_concat_of_ne fun he => hq (Event.free.inj he).symm]
  frees q := by
    show (insertKey p st.allocClock st.frees).lookup q =
      ((insertKey p l.length alt.frees).lookup q).map _
    rw [lookup_insertKey, lookup_insertKey, h.frees_concat (.free p)]
    split
    · rw [h.clock, Option.map_some, clockAt_concat (Nat.le_refl _), clockAt_length]
    · rfl
  reopens iv := by
    rw [reopens_concat]
    exact (h.reopens iv).trans (or_iff_left (by simp)).symm
  sorted := h.sorted
  result := h.result_concat _

theorem Paired.alloc (h : Paired l st alt) (p : Nat) :
    Paired (l ++ [.alloc p]) (intervalStep st (.alloc p)) (altStep l.length alt (.alloc p)) := by
  have hclock : st.allocClock + 1 = allocs (l ++ [.alloc p]) := by
    rw [allocs_concat, h.clock]
    rfl
  have hlast : ∀ q i, alt.frees.lookup q = some i ↔ LastFree (l ++ [.alloc p]) q i :=
    fun q i => (h.last q i).trans (lastFree_concat_of_ne (by simp)).symm
  cases hp : alt.frees.lookup p with
  | none =>
    have hp' : st.frees.lookup p = none := by rw [h.frees, hp]; rfl
    rw [intervalStep, hp', altStep, hp]
    refine ⟨hclock, hlast, h.frees_concat _, fun iv => ?_, h.sorted, h.result_concat _⟩
    -- the slot was never freed
    rw [reopens_concat]
    refine (h.reopens iv).trans (or_iff_left ?_).symm
    rintro ⟨-, q, hq, hl⟩
    cases hq
    rw [← h.last, hp] at hl
    cases hl
  | some i =>
    have hp' : st.frees.lookup p = some (clockAt l i) := by rw [h.frees, hp]; rfl
    have hi := (h.last p i).mp hp
    rw [intervalStep, hp', altStep, hp]
    refine ⟨hclock, hlast, h.frees_concat _, fun iv => ?_, ?_, ?_⟩
    · obtain ⟨i', j'⟩ := iv
      rw [reopens_concat, List.mem_append, h.reopens, List.mem_singleton]
      refine or_congr_right ?_
      constructor
      · rintro ⟨⟩
        exact ⟨rfl, p, rfl, hi⟩
      · rintro ⟨rfl, q, hq, hl⟩
        cases hq
        rw [← h.last, hp] at hl
        cases hl
        rfl
    · refine List.pairwise_append.mpr ⟨h.sorted, List.pairwise_singleton _ _, ?_⟩
      intro iv hiv iv' hiv'
      rw [List.mem_singleton.mp hiv']
      exact ((h.reopens iv).mp hiv).lt.2
    · show st.result ++ _ = (alt.result ++ _).map _
      rw [List.map_append, ← h.result_concat, List.map_singleton,
        clockAt_concat (Nat.le_of_lt hi.lt), clockAt_concat (Nat.le_refl _), clockAt_length,
        h.clock]

theorem Paired.step (h : Paired l st alt) : ∀ e : Event,
    Paired (l ++ [e]) (intervalStep st e) (altStep l.length alt e)
  | .free p => h.free p
  | .alloc p => h.alloc p

end Steps

theorem paired_start : Paired [] ⟨[], [], 0⟩ ⟨[], []⟩ where
  clock := rfl
  last _ i := iff_of_false (fun h => by cases h) fun h => Nat.not_lt_zero i h.lt
  frees _ := rfl
  reopens iv := iff_of_false List.not_mem_nil fun h => Nat.not_lt_zero iv.2 h.lt.2
  sorted := .nil
  result := rfl

/-- The passes stay paired over a whole trace. -/
theorem Trace.Records.paired {t : Trace} {l : List Event} (h : t.Records l) :
    ∃ alt, t.freeIntervalsAlt = some alt.result ∧
      Paired l (l.foldl intervalStep ⟨[], [], 0⟩) alt := by
  have key : ∀ k ≤ t.length, ∃ alt,
      (List.range k).foldlM (fun st i => (t.get i).map (altStep i st)) ⟨[], []⟩ = some alt ∧
      Paired (t.accesses.take k) ((t.accesses.take k).foldl intervalStep ⟨[], [], 0⟩) alt := by
    intro k
    induction k with
    | zero => exact fun _ => ⟨_, rfl, paired_start⟩
    | succ k ih =>
      intro hk
      obtain ⟨alt, hfold, hp⟩ := ih (by omega)
      have hroom := h.room
      have hget : t.accesses[k]? = some (t.accesses[k]) := List.getElem?_eq_getElem (by omega)
      have hnext := hp.step t.accesses[k]
      rw [List.length_take, Nat.min_eq_left (by omega)] at hnext
      refine ⟨altStep k alt t.accesses[k], ?_, ?_⟩
      · rw [List.range_succ, List.foldlM_append, hfold]
        show ((t.get k).map (altStep k alt)).bind some = _
        rw [Trace.get, hget]
        rfl
      · rw [List.take_add_one, hget, List.foldl_append]
        exact hnext
  obtain ⟨alt, hfold, hp⟩ := key t.length (Nat.le_refl _)
  rw [h.events] at hp
  exact ⟨alt, by rw [Trace.freeIntervalsAlt, hfold]; rfl, hp⟩

end Apfmalloc
