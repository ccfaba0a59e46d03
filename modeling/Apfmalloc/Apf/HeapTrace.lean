import Apfmalloc.Apf.Trace
import Apfmalloc.AutoPtr
import Apfmalloc.LargeAlloc
import Apfmalloc.Records

/-!
# `apf/trace.rs`: the trace in the allocator's own memory

The tuners watch the allocator from inside, and their traces are blocks of the allocator they
watch: `Trace::new` asks `do_aligned_alloc` for the first 16384 events, `add` has `do_realloc`
double the buffer when one entry is left, and dropping the trace is a `do_free`. `Trace` of
`Apf/Trace.lean` has the buffer as a parameter, with the promise that growing keeps the entries.
Here the buffer is memory, beside everything else that the threads allocate, move and free.

`traces_refine` discharges the promise. Any number of traces are kept at once, one for each
tuner that samples, among whatever else the program does: each of them is the list of the
events it was given, and every pass over it computes what it computes on the trace of
`Apf/Trace.lean`. The doubling copies as many bytes as the page map says the old buffer has,
so what the traces rest on is that nobody else changes that record while they are kept.

An event is two words, its kind and its slot. The records are 32 bits wide, and a buffer from
`2^32` bytes on would be copied short: a trace takes events up to `traceLimit`.
-/

namespace Apfmalloc

open Base

/-! ## Events in memory -/

/-- `#[derive(Copy, Clone)] enum Event`: the kind, and the slot behind it. -/
def Event.words : Event → UInt64 × UInt64
  | .alloc slot => (0, UInt64.ofNat slot)
  | .free slot => (1, UInt64.ofNat slot)

def Event.ofWords (w : UInt64 × UInt64) : Option Event :=
  if w.1 = 0 then some (.alloc w.2.toNat)
  else if w.1 = 1 then some (.free w.2.toNat)
  else none

/-- A slot is a `usize`. -/
def Event.Fits (e : Event) : Prop := e.slot < usizeSize

theorem Event.ofWords_words {e : Event} (h : e.Fits) : Event.ofWords e.words = some e := by
  have hslot : (UInt64.ofNat e.slot).toNat = e.slot := by
    rw [UInt64.toNat_ofNat']
    exact Nat.mod_eq_of_lt h
  cases e with
  | alloc slot => exact congrArg (fun n => some (Event.alloc n)) hslot
  | free slot => exact congrArg (fun n => some (Event.free n)) hslot

/-- `size_of::<Event>()` -/
def eventSize : Nat := Elem.size (UInt64 × UInt64)

theorem eventSize_eq : eventSize = 16 := rfl

/-- The event at `a`, if the bytes there are one. -/
def readEvent (m : Mem) (a : Nat) : Option Event :=
  (Elem.read m a : Option (UInt64 × UInt64)).bind Event.ofWords

/-! ## The functions -/

/-- `accesses` is a pointer and a length. -/
structure HeapTrace where
  ptr : Nat
  cap : Nat
  length : Nat
  allocCount : Nat
  deriving DecidableEq, Repr

namespace HeapTrace

def new (cfg : Cfg) (os : Os) (t : Nat) (s : State) : Except Fault (HeapTrace × State) := do
  let (page, s) ← orPanic (doAlignedAlloc cfg os none t 8 (initTraceLength * eventSize) s)
  if page ≠ 0 then .ok (⟨page, initTraceLength, 0, 0⟩, s) else .error .panic

/-- The buffer is twice as long afterwards. -/
def grow (cfg : Cfg) (os : Os) (t : Nat) (h : HeapTrace) (s : State) :
    Except Fault (HeapTrace × State) := do
  let newMax := h.cap * 2
  let (page, s) ← orPanic (doRealloc cfg os none none t h.ptr (newMax * eventSize) s)
  if page ≠ 0 then .ok ({ h with ptr := page, cap := newMax }, s) else .error .panic

/-- `self.accesses[self.length]` is checked against the length of the buffer. -/
def push (h : HeapTrace) (e : Event) (s : State) : Except Fault (HeapTrace × State) :=
  if h.length < h.cap then do
    let s ← store (h.ptr + eventSize * h.length) e.words s
    .ok ({ h with length := h.length + 1,
                  allocCount := if e.isAlloc then h.allocCount + 1 else h.allocCount }, s)
  else .error .panic

def add (cfg : Cfg) (os : Os) (t : Nat) (h : HeapTrace) (e : Event) (s : State) :
    Except Fault (HeapTrace × State) :=
  if h.length = h.cap - 1 then do
    let (h, s) ← h.grow cfg os t s
    h.push e s
  else h.push e s

def get (h : HeapTrace) (index : Nat) (s : State) : Except Fault Event :=
  if index < h.cap then do
    let w ← (load (h.ptr + eventSize * index) s : Except Fault (UInt64 × UInt64))
    match Event.ofWords w with
    | some e => .ok e
    | none => .error .undefined
  else .error .panic

/-- `for i in 0..self.length() { match self.get(i) { … } }` -/
def scan {σ : Type} (h : HeapTrace) (f : σ → Event → σ) (st : σ) (s : State) : Except Fault σ :=
  (List.range h.length).foldlM (fun st i => (h.get i s).map (f st)) st

def drop (cfg : Cfg) (t : Nat) (h : HeapTrace) (s : State) : Except Fault State :=
  orPanic (doFree cfg none t h.ptr s)

end HeapTrace

/-! ## Runs -/

/-- The allocator and the traces that are kept, each under the number of its tuner. -/
structure Traced where
  world : World
  traces : Store HeapTrace

/-- What happens to traces. `client` is anything the rest of the program does. -/
inductive TraceOp
  | client
  | new (k : Nat)
  | add (k : Nat) (e : Event)
  | get (k i : Nat) (e : Event)
  | drop (k : Nat)

/-- A buffer of this many events cannot be doubled. -/
def traceLimit : Nat := u32Size / (2 * eventSize)

/-- The world after `add` made `h'` of `h`, whose buffer is the block `b`. -/
def World.added (w : World) (t : Nat) (b : Live) (h h' : HeapTrace) (s' : State) : World :=
  if h.length = h.cap - 1 then w.realloc t b (h'.cap * eventSize) s' h'.ptr
  else { w with state := s' }

/-- One operation of some thread. The rest of the program frees, moves and writes its own
blocks only. -/
inductive TraceStep (cfg : Cfg) : Traced → TraceOp → Traced → Prop
  | client {w : Traced} {w' : World} {op : ClientOp} : ClientStep cfg w.world op w' →
      (∀ k h, w.traces k = some h → op.target ≠ some h.ptr) →
      (op = .write → ∀ k h, w.traces k = some h → ∀ b ∈ w.world.live, b.ptr = h.ptr →
        ∀ a, b.ptr ≤ a → a < b.ptr + b.len → w'.state.mem a = w.world.state.mem a) →
      TraceStep cfg w .client { w with world := w' }
  | new {w : Traced} {s' : State} {os : Os} {t k : Nat} {h : HeapTrace} : w.traces k = none →
      HeapTrace.new cfg os t w.world.state = .ok (h, s') →
      TraceStep cfg w (.new k)
        ⟨w.world.grant (alignedOnReserve w.world.state t 8 (initTraceLength * eventSize)) s' h.ptr
            (initTraceLength * eventSize) (alignSize (initTraceLength * eventSize) 8),
          w.traces.set k (some h)⟩
  | add {w : Traced} {s' : State} {os : Os} {t k : Nat} {h h' : HeapTrace} {e : Event}
      {b : Live} : w.traces k = some h → b ∈ w.world.live → b.ptr = h.ptr → e.Fits →
      h.length + 1 < traceLimit → h.add cfg os t e w.world.state = .ok (h', s') →
      TraceStep cfg w (.add k e) ⟨w.world.added t b h h' s', w.traces.set k (some h')⟩
  | get {w : Traced} {k i : Nat} {h : HeapTrace} {e : Event} : w.traces k = some h →
      i < h.length → h.get i w.world.state = .ok e → TraceStep cfg w (.get k i e) w
  | drop {w : Traced} {s' : State} {t k : Nat} {h : HeapTrace} {b : Live} :
      w.traces k = some h → b ∈ w.world.live → b.ptr = h.ptr →
      h.drop cfg t w.world.state = .ok s' →
      TraceStep cfg w (.drop k)
        ⟨⟨s', w.world.live.erase b, w.world.boot⟩, w.traces.set k none⟩

/-- What traces are for: lists of events. -/
inductive TraceSpec : Store (List Event) → TraceOp → Store (List Event) → Prop
  | client {m : Store (List Event)} : TraceSpec m .client m
  | new {m : Store (List Event)} {k : Nat} : m k = none → TraceSpec m (.new k) (m.set k (some []))
  | add {m : Store (List Event)} {k : Nat} {e : Event} {l : List Event} : m k = some l →
      TraceSpec m (.add k e) (m.set k (some (l ++ [e])))
  | get {m : Store (List Event)} {k i : Nat} {e : Event} {l : List Event} : m k = some l →
      l[i]? = some e → TraceSpec m (.get k i e) m
  | drop {m : Store (List Event)} {k : Nat} {l : List Event} : m k = some l →
      TraceSpec m (.drop k) (m.set k none)

/-! ## What a buffer holds -/

/-- The block `b` is the buffer of `h`, as long as its record says, and has the events `l`. -/
structure HeapTrace.Holds (s : State) (b : Live) (h : HeapTrace) (l : List Event) : Prop where
  ptr : b.ptr = h.ptr
  fits : h.cap * eventSize ≤ b.len
  recorded : getAllocationSize s b.ptr = some (h.cap * eventSize)
  pages : h.cap * eventSize % page = 0
  large : initTraceLength ≤ h.cap
  room : h.length < h.cap
  length : h.length = l.length
  count : h.allocCount = allocs l
  events : ∀ {i e}, l[i]? = some e → readEvent s.mem (h.ptr + eventSize * i) = some e

theorem readEvent_congr {m m' : Mem} {a b : Nat} (h : ∀ i < eventSize, m (a + i) = m' (b + i)) :
    readEvent m a = readEvent m' b := by
  rw [readEvent, readEvent, Elem.read_congr h]

theorem readEvent_write (m : Mem) (a : Nat) {e : Event} (he : e.Fits) :
    readEvent (Elem.write m a e.words) a = some e := by
  rw [readEvent, Elem.read_write, Option.bind_some, Event.ofWords_words he]

section Buffer

variable {s s' : State} {b b' : Live} {h : HeapTrace} {l : List Event}

/-- A trace depends on the record and the bytes of its block. -/
theorem HeapTrace.Holds.frame (ho : h.Holds s b l) (hrec : RecordKept s s' b.ptr)
    (hb : ∀ a, b.ptr ≤ a → a < b.ptr + b.len → s'.mem a = s.mem a) : h.Holds s' b l := by
  refine ⟨ho.ptr, ho.fits, hrec.size.trans ho.recorded, ho.pages, ho.large, ho.room, ho.length,
    ho.count, fun {i e} hi => ?_⟩
  have hlt := (List.getElem?_eq_some_iff.mp hi).1
  have hroom := ho.room
  have hlen := ho.length
  have hfits := ho.fits
  have hptr := ho.ptr
  rw [eventSize_eq] at *
  rw [← ho.events hi]
  refine readEvent_congr fun j hj => hb _ (by omega) ?_
  rw [eventSize_eq] at hj
  omega

/-- The events are where `l` says in a buffer of twice the length that they were copied to. -/
theorem HeapTrace.Holds.moved (ho : h.Holds s b l) {q : Nat} (hq : b'.ptr = q)
    (hfits : h.cap * 2 * eventSize ≤ b'.len)
    (hrec : getAllocationSize s' q = some (h.cap * 2 * eventSize))
    (hdata : ∀ i < h.cap * eventSize, s'.mem (q + i) = s.mem (b.ptr + i)) :
    ({ h with ptr := q, cap := h.cap * 2 } : HeapTrace).Holds s' b' l := by
  have hlarge := ho.large
  have hroom := ho.room
  have hpages := ho.pages
  have hlen := ho.length
  refine ⟨hq, hfits, hq ▸ hrec, ?_, ?_, ?_, hlen, ho.count, fun {i e} hi => ?_⟩
  · rw [page_eq, eventSize_eq] at *
    show h.cap * 2 * 16 % 4096 = 0
    omega
  · show _ ≤ h.cap * 2
    omega
  · show h.length < h.cap * 2
    omega
  · have hlt := (List.getElem?_eq_some_iff.mp hi).1
    rw [← ho.events hi, ← ho.ptr]
    refine readEvent_congr fun j hj => ?_
    rw [Nat.add_assoc, Nat.add_assoc]
    rw [eventSize_eq] at *
    exact hdata _ (by omega)

/-- **The next event** goes behind the others. -/
theorem HeapTrace.Holds.push (ho : h.Holds s b l) {e : Event} (he : e.Fits)
    (hroom : h.length + 1 < h.cap) :
    ({ h with length := h.length + 1,
              allocCount := if e.isAlloc then h.allocCount + 1 else h.allocCount } :
        HeapTrace).Holds
      { s with mem := Elem.write s.mem (h.ptr + eventSize * h.length) e.words } b (l ++ [e]) := by
  have hlen := ho.length
  refine ⟨ho.ptr, ho.fits, ho.recorded, ho.pages, ho.large, hroom, ?_, ?_, fun {i e'} hi => ?_⟩
  · rw [List.length_append, ← hlen, List.length_singleton]
  · rw [allocs_concat, ← ho.count]
  · show readEvent (Elem.write s.mem (h.ptr + eventSize * h.length) e.words)
      (h.ptr + eventSize * i) = some e'
    rcases Nat.lt_trichotomy i l.length with hlt | rfl | hgt
    · rw [List.getElem?_append_left hlt] at hi
      rw [← ho.events hi]
      refine readEvent_congr fun j hj => Elem.write_out ?_
      show _ < _ ∨ _ + eventSize ≤ _
      rw [eventSize_eq] at *
      omega
    · rw [List.getElem?_concat_length, Option.some.injEq] at hi
      rw [← hi, ← hlen]
      exact readEvent_write _ _ he
    · rw [List.getElem?_eq_none (by rw [List.length_append, List.length_singleton]; omega)] at hi
      cases hi

end Buffer

/-! ## What the functions do -/

section Calls

variable {cfg : Cfg} {os : Os} {t : Nat} {s s' : State} {h h' : HeapTrace} {e : Event}

theorem HeapTrace.new_ok (hres : HeapTrace.new cfg os t s = .ok (h, s')) : h.ptr ≠ 0 ∧
    doAlignedAlloc cfg os none t 8 (initTraceLength * eventSize) s = some (h.ptr, s') ∧
    h = ⟨h.ptr, initTraceLength, 0, 0⟩ := by
  obtain ⟨r, halloc, hres⟩ := bind_eq_ok.mp hres
  obtain ⟨page, s₁⟩ := r
  simp only at hres
  split at hres
  next hp =>
    obtain ⟨rfl, rfl⟩ := Prod.mk.inj (Except.ok.inj hres)
    exact ⟨hp, orPanic_ok halloc, rfl⟩
  next => cases hres

theorem HeapTrace.grow_ok (hres : h.grow cfg os t s = .ok (h', s')) : h'.ptr ≠ 0 ∧
    doRealloc cfg os none none t h.ptr (h.cap * 2 * eventSize) s = some (h'.ptr, s') ∧
    h' = { h with ptr := h'.ptr, cap := h.cap * 2 } := by
  obtain ⟨r, halloc, hres⟩ := bind_eq_ok.mp hres
  obtain ⟨page, s₁⟩ := r
  simp only at hres
  split at hres
  next hp =>
    obtain ⟨rfl, rfl⟩ := Prod.mk.inj (Except.ok.inj hres)
    exact ⟨hp, orPanic_ok halloc, rfl⟩
  next => cases hres

theorem HeapTrace.push_ok (hres : h.push e s = .ok (h', s')) :
    s' = { s with mem := Elem.write s.mem (h.ptr + eventSize * h.length) e.words } ∧
    h' = { h with length := h.length + 1,
                  allocCount := if e.isAlloc then h.allocCount + 1 else h.allocCount } := by
  unfold HeapTrace.push at hres
  split at hres
  next =>
    obtain ⟨s₁, hstore, hres⟩ := bind_eq_ok.mp hres
    obtain ⟨rfl, rfl⟩ := Prod.mk.inj (Except.ok.inj hres)
    exact ⟨store_ok hstore, rfl⟩
  next => cases hres

theorem HeapTrace.get_ok {i : Nat} (hres : h.get i s = .ok e) :
    readEvent s.mem (h.ptr + eventSize * i) = some e := by
  unfold HeapTrace.get at hres
  split at hres
  next =>
    obtain ⟨w, hload, hres⟩ := bind_eq_ok.mp hres
    rw [readEvent, load_ok hload, Option.bind_some]
    split at hres
    next hw => rw [hw, Except.ok.inj hres]
    next => cases hres
  next => cases hres

/-- The record of a new large block. -/
theorem LargeReq.Large.recorded_size {req : LargeReq} {alloced free : List Nat} {p : Nat}
    (hl : req.Large) (h : DescInv s alloced free) (hrun : req.run cfg os none t s = some (p, s'))
    (hp : p ≠ 0) : getAllocationSize s' p = some (req.pages % u32Size) := by
  obtain ⟨d, seg, s₂, -, hm⟩ := LargeReq.made h hl hrun hp
  refine hm.getAllocationSize_eq ⟨rfl, rfl, ?_⟩
  rw [hm.eq]
  exact hm.mapped

end Calls

/-! ## The refinement -/

theorem Store.set_cases {α : Type} {m : Store α} {p q : Nat} {x y : Option α}
    (h : m.set p x q = y) : (q = p ∧ x = y) ∨ (q ≠ p ∧ m q = y) := by
  by_cases hq : q = p
  · subst hq
    exact Or.inl ⟨rfl, (Store.set_same m q x).symm.trans h⟩
  · exact Or.inr ⟨hq, (Store.set_other m x hq).symm.trans h⟩

/-- `m` is what the traces of `w` hold, each in a block of its own. -/
structure TracesOf (cfg : Cfg) (w : Traced) (m : Store (List Event)) : Prop where
  inv : ∃ H, WorldInv cfg w.world H
  absent : ∀ {k}, w.traces k = none → m k = none
  holds : ∀ {k h}, w.traces k = some h →
    ∃ l b, m k = some l ∧ b ∈ w.world.live ∧ h.Holds w.world.state b l
  apart : ∀ {j k h h'}, w.traces j = some h → w.traces k = some h' → j ≠ k → h.ptr ≠ h'.ptr

/-- A block stays in its client's hands, with its record and its bytes. -/
structure BlockKept (w w' : World) (b : Live) : Prop where
  live : b ∈ w'.live
  record : RecordKept w.state w'.state b.ptr
  bytes : ∀ a, b.ptr ≤ a → a < b.ptr + b.len → w'.state.mem a = w.state.mem a

theorem BlockKept.holds {w w' : World} {b : Live} {h : HeapTrace} {l : List Event}
    (hk : BlockKept w w' b) (ho : h.Holds w.state b l) : h.Holds w'.state b l :=
  ho.frame hk.record hk.bytes

section Refine

variable {cfg : Cfg} {os : Os} {w : Traced} {w' : World} {m : Store (List Event)}
  {t k : Nat} {s' : State} {h h' : HeapTrace} {e : Event} {b : Live}

/-- A block with the address of the buffer is the buffer. -/
theorem TracesOf.buffer (hw : TracesOf cfg w m) (hk : w.traces k = some h) (hb : b ∈ w.world.live)
    (hp : b.ptr = h.ptr) : ∃ l, m k = some l ∧ h.Holds w.world.state b l := by
  obtain ⟨l, b', hm, hb', ho⟩ := hw.holds hk
  obtain ⟨H, hinv⟩ := hw.inv
  have heq : b = b' :=
    hinv.heap.block.live_inj hinv.heap.region hb hb' (hp.trans ho.ptr.symm)
  exact ⟨l, hm, heq ▸ ho⟩

/-- What happens to one trace, while the blocks of the others are kept. -/
theorem TracesOf.update (hw : TracesOf cfg w m) {x : Option HeapTrace} {y : Option (List Event)}
    (hinv : ∃ H, WorldInv cfg w' H)
    (hothers : ∀ j tr b, j ≠ k → w.traces j = some tr → b ∈ w.world.live → b.ptr = tr.ptr →
      BlockKept w.world w' b)
    (hnone : x = none → y = none)
    (hsome : ∀ tr, x = some tr → ∃ l b, y = some l ∧ b ∈ w'.live ∧ tr.Holds w'.state b l)
    (hapart : ∀ tr, x = some tr → ∀ j tr', j ≠ k → w.traces j = some tr' → tr.ptr ≠ tr'.ptr) :
    TracesOf cfg ⟨w', w.traces.set k x⟩ (m.set k y) := by
  refine ⟨hinv, fun {j} hj => ?_, fun {j tr} hj => ?_, fun {i j tr tr'} hi hj hne => ?_⟩
  · rcases Store.set_cases hj with ⟨rfl, hx⟩ | ⟨hjk, hj⟩
    · rw [Store.set_same, hnone hx]
    · rw [Store.set_other _ _ hjk, hw.absent hj]
  · rcases Store.set_cases hj with ⟨rfl, hx⟩ | ⟨hjk, hj⟩
    · rw [Store.set_same]
      exact hsome tr hx
    · rw [Store.set_other _ _ hjk]
      obtain ⟨l, b, hm, hb, ho⟩ := hw.holds hj
      have hkept := hothers j tr b hjk hj hb ho.ptr
      exact ⟨l, b, hm, hkept.live, hkept.holds ho⟩
  · rcases Store.set_cases hi with ⟨rfl, hx⟩ | ⟨hik, hi'⟩
    · rcases Store.set_cases hj with ⟨rfl, -⟩ | ⟨hji, hj'⟩
      · exact absurd rfl hne
      · exact hapart tr hx j tr' hji hj'
    · rcases Store.set_cases hj with ⟨rfl, hx⟩ | ⟨-, hj'⟩
      · exact (hapart tr' hx i tr hik hi').symm
      · exact hw.apart hi' hj' hne

theorem WorldInv.blockKept {w : World} {H : Heap} {op : ClientOp} (h : WorldInv cfg w H)
    (hapf : cfg.useApf = true) (hs : ClientStep cfg w op w') (hb : b ∈ w.live)
    (hop : op.target ≠ some b.ptr) (hwrite : op ≠ .write) : BlockKept w w' b := by
  obtain ⟨hlive, hrec, hbytes⟩ := h.step_kept hapf hs hb hop
  exact ⟨hlive, hrec, hbytes hwrite⟩

/-- **The rest of the program** does what it likes to the rest of the heap. -/
theorem TracesOf.client (hw : TracesOf cfg w m) (hapf : cfg.useApf = true) {op : ClientOp}
    (hs : ClientStep cfg w.world op w')
    (htarget : ∀ k h, w.traces k = some h → op.target ≠ some h.ptr)
    (hwrite : op = .write → ∀ k h, w.traces k = some h → ∀ b ∈ w.world.live, b.ptr = h.ptr →
      ∀ a, b.ptr ≤ a → a < b.ptr + b.len → w'.state.mem a = w.world.state.mem a) :
    TracesOf cfg { w with world := w' } m := by
  obtain ⟨H, hinv⟩ := hw.inv
  refine ⟨clientStep_inv hapf ⟨H, hinv⟩ hs, hw.absent, fun {k h} hk => ?_, hw.apart⟩
  obtain ⟨l, b, hm, hb, ho⟩ := hw.holds hk
  have hop : op.target ≠ some b.ptr := ho.ptr ▸ htarget k h hk
  obtain ⟨hlive, hrec, hbytes⟩ := hinv.step_kept hapf hs hb hop
  refine ⟨l, b, hm, hlive, ho.frame hrec ?_⟩
  by_cases hop' : op = .write
  · exact hwrite hop' k h hk b hb ho.ptr
  · exact hbytes hop'

/-- A block apart from the buffers starts somewhere else. -/
theorem TracesOf.ne_ptr (hw : TracesOf cfg w m) {q len : Nat} (hlen : 0 < len)
    (hap : ∀ b ∈ w.world.live, b.ptr = h.ptr → q + len ≤ b.ptr ∨ b.ptr + b.len ≤ q)
    (hk : w.traces k = some h) : q ≠ h.ptr := by
  obtain ⟨l, b, -, hb, ho⟩ := hw.holds hk
  have hor := hap b hb ho.ptr
  have hptr := ho.ptr
  obtain ⟨H, hinv⟩ := hw.inv
  have hpos := hinv.heap.region.live_pos (hinv.heap.block.liveOk b hb)
  omega

theorem traceFits : AlignFits 8 (initTraceLength * eventSize) :=
  ⟨⟨3, by decide, rfl⟩, by decide, by decide⟩

/-- A buffer of a trace is too large for the reserve. -/
theorem trace_off_reserve (s : State) (t : Nat) :
    alignedOnReserve s t 8 (initTraceLength * eventSize) = false := by
  rw [alignedOnReserve, decide_eq_false (by decide), Bool.false_and]

/-- **A new trace** has a block of its own and no events. -/
theorem TracesOf.new (hw : TracesOf cfg w m) (hapf : cfg.useApf = true) (hk : w.traces k = none)
    (hres : HeapTrace.new cfg os t w.world.state = .ok (h, s')) :
    m k = none ∧ TracesOf cfg
      ⟨w.world.grant (alignedOnReserve w.world.state t 8 (initTraceLength * eventSize)) s' h.ptr
          (initTraceLength * eventSize) (alignSize (initTraceLength * eventSize) 8),
        w.traces.set k (some h)⟩ (m.set k (some [])) := by
  obtain ⟨hp, halloc, heq⟩ := HeapTrace.new_ok hres
  obtain ⟨H, hinv⟩ := hw.inv
  have hs := ClientStep.alignedAlloc traceFits halloc
  have hoff := trace_off_reserve w.world.state t
  rcases hinv.alignedGrants traceFits halloc with hnull | ⟨H', room, hg, hroom⟩
  · exact absurd hnull.1 hp
  have hfits := hg.fits
  have hown := hg.inv.add_own.2
  have hl : (LargeReq.aligned 8 (initTraceLength * eventSize)).Large :=
    ⟨by decide, ⟨3, by decide, rfl⟩, by decide⟩
  have hsize := hl.recorded_size hinv.heap.desc halloc hp
  have hpages : (LargeReq.aligned 8 (initTraceLength * eventSize)).pages % u32Size =
      initTraceLength * eventSize := by decide
  have hwhole : initTraceLength * eventSize % page = 0 := by decide
  have hpos : 0 < initTraceLength := by decide
  rw [hpages] at hsize
  have hgrant := hg.inv.add_eq hg.ne_zero hroom
  refine ⟨hw.absent hk, hw.update (clientStep_inv hapf hw.inv hs) (fun j tr b hj htr hb hptr => ?_)
    (fun hx => ?_) (fun tr hx => ?_) (fun tr hx j tr' hj htr => ?_)⟩
  · refine hinv.blockKept hapf hs hb (fun hx => ?_) fun hx => ?_
    · cases hx
    · cases hx
  · cases hx
  · obtain rfl := Option.some.inj hx
    refine ⟨[], ⟨h.ptr, initTraceLength * eventSize, room⟩, rfl, ?_, ?_⟩
    · rw [hgrant, hoff]
      exact List.mem_cons_self ..
    · rw [World.grant_state, heq]
      exact ⟨rfl, hfits, hsize, hwhole, Nat.le_refl _, hpos, rfl, rfl, fun hi => by cases hi⟩
  · obtain rfl := Option.some.inj hx
    have hlen : 0 < room :=
      Nat.lt_of_lt_of_le (Nat.mul_pos hpos (Nat.zero_lt_succ 15)) hfits
    exact hw.ne_ptr hlen (fun b hb _ => hown b (List.mem_append_left _ hb)) htr

/-- **The next event** is written into a buffer with room for it. -/
theorem TracesOf.push (hw : TracesOf cfg w m) {l : List Event} (hk : w.traces k = some h)
    (hm : m k = some l) (he : e.Fits) (hroom : h.length + 1 < h.cap)
    (hres : h.push e w.world.state = .ok (h', s')) :
    TracesOf cfg ⟨{ w.world with state := s' }, w.traces.set k (some h')⟩
      (m.set k (some (l ++ [e]))) := by
  obtain ⟨rfl, rfl⟩ := HeapTrace.push_ok hres
  obtain ⟨l', b, hm', hb, ho⟩ := hw.holds hk
  obtain rfl : l' = l := Option.some.inj (hm'.symm.trans hm)
  obtain ⟨H, hinv⟩ := hw.inv
  have hptr := ho.ptr
  have hfits := ho.fits
  -- the event lies in the block of the trace
  have hout : ∀ a, ¬(b.ptr ≤ a ∧ a < b.ptr + b.len) →
      Elem.write w.world.state.mem (h.ptr + eventSize * h.length) e.words a =
        w.world.state.mem a := by
    intro a ha
    refine Elem.write_out ?_
    show _ < _ ∨ _ + eventSize ≤ _
    rw [eventSize_eq] at *
    omega
  refine hw.update ⟨H, hinv.write fun a ha => hout a (ha b (List.mem_append_left _ hb))⟩
    (fun j tr b' hj htr hb' hptr' => ⟨hb', ⟨rfl, rfl⟩, fun a hlo hhi => hout a fun hin => ?_⟩)
    (fun hx => ?_) (fun tr hx => ?_) (fun tr hx j tr' hj htr => ?_)
  · have hne : b' ≠ b := by
      intro heq
      subst heq
      exact hw.apart htr hk hj (hptr'.symm.trans hptr)
    have hap := (hinv.heap.block.live_cases hb' hb).resolve_left hne
    unfold Live.Apart at hap
    omega
  · cases hx
  · obtain rfl := Option.some.inj hx
    exact ⟨_, b, rfl, hb, ho.push he hroom⟩
  · obtain rfl := Option.some.inj hx
    have hne : h.ptr ≠ tr'.ptr := hw.apart hk htr (Ne.symm hj)
    exact hne

/-- What doubling a buffer asks for, and what `do_realloc` needs to know of it. -/
theorem HeapTrace.Holds.doubled {s : State} {l : List Event} (ho : h.Holds s b l)
    (hfull : h.length = h.cap - 1) (hlim : h.length + 1 < traceLimit) :
    maxSz < h.cap * 2 * eventSize ∧ h.cap * 2 * eventSize % page = 0 ∧
      regionLen (h.cap * 2 * eventSize) = h.cap * 2 * eventSize ∧
      h.cap * 2 * eventSize < u32Size ∧ h.cap * eventSize ≤ h.cap * 2 * eventSize ∧
      reallocInPlace (h.cap * eventSize) (h.cap * 2 * eventSize) = false := by
  have hlarge := ho.large
  have hpages := ho.pages
  have hmax := maxSz_eq
  have hu32 := u32Size_eq
  have hinit : initTraceLength = 16384 := rfl
  have hlimit : traceLimit = 134217728 := by rw [traceLimit, u32Size_eq, eventSize_eq]
  rw [eventSize_eq] at *
  have hmod : h.cap * 2 * 16 % page = 0 := by
    rw [page_eq] at *
    omega
  refine ⟨by omega, hmod, regionLen_of_mod hmod, by omega, by omega, ?_⟩
  have hold : getSizeClass (h.cap * 16) = 0 := if_pos (by omega)
  have hlt : ¬h.cap * 2 * 16 < h.cap * 16 := by omega
  simp only [reallocInPlace, hold, hlt, ne_eq, not_true_eq_false, decide_false, Bool.false_and,
    Bool.and_false, Bool.or_false]

theorem pageCeiling_of_large {n : Nat} (hfit : regionLen n < u32Size) (hn : regionLen n = n) :
    pageCeiling n % u32Size = n := by
  rw [regionLen_pageCeiling (fits_usize hfit), hn]
  exact Nat.mod_eq_of_lt (hn ▸ hfit)

/-- **Doubling** moves the events to a larger block, whose record says how long it is. -/
theorem TracesOf.grow (hw : TracesOf cfg w m) (hapf : cfg.useApf = true) {l : List Event}
    (hk : w.traces k = some h) (hm : m k = some l) (hb : b ∈ w.world.live) (hp : b.ptr = h.ptr)
    (hfull : h.length = h.cap - 1) (hlim : h.length + 1 < traceLimit)
    (hres : h.grow cfg os t w.world.state = .ok (h', s')) :
    TracesOf cfg
      ⟨w.world.realloc t b (h.cap * 2 * eventSize) s' h'.ptr, w.traces.set k (some h')⟩
      (m.set k (some l)) := by
  obtain ⟨hq, hrealloc, heq⟩ := HeapTrace.grow_ok hres
  obtain ⟨l', hm', ho⟩ := hw.buffer hk hb hp
  obtain rfl : l' = l := Option.some.inj (hm'.symm.trans hm)
  obtain ⟨H, hinv⟩ := hw.inv
  obtain ⟨hbig, hmod, hregion, hu32, hle, hmoves⟩ := ho.doubled hfull hlim
  rw [← hp] at hrealloc
  generalize hn : h.cap * 2 * eventSize = n at *
  have hfit : regionLen n < u32Size := by
    rw [hregion]
    exact hu32
  have hoff : mallocOnReserve w.world.state t n = false := by
    rw [mallocOnReserve, decide_eq_false (Nat.not_le.mpr hbig), Bool.false_and]
  have hroom : h.cap * eventSize ≤ mallocRoom cfg w.world.state t n := by
    rw [mallocRoom, hoff, if_neg Bool.false_ne_true, mallocLen, if_pos hbig,
      regionLen_pageCeiling (fits_usize hfit), hregion]
    exact hle
  have hcond : ReallocCond cfg w.world t b n := .moves hb ho.recorded hmoves hfit hroom
  have hs := ClientStep.realloc hcond hrealloc
  obtain ⟨-, hsound⟩ := hinv.doRealloc hapf hcond hrealloc
  obtain ⟨s₁, hmalloc, hne, hrec⟩ :=
    hinv.moves_records hapf hb ho.recorded hmoves hfit hroom hrealloc
  rw [hoff] at hrec
  -- the record of the new block is that of its allocation
  have hsize : getAllocationSize s' h'.ptr = some n := by
    have hl : (LargeReq.malloc n).Large := ⟨fits_lt hfit, hbig⟩
    have hnew := hl.recorded_size hinv.heap.desc hmalloc hq
    have hkept := hrec _ (List.mem_cons_self ..) fun hx => hne (congrArg Live.ptr hx)
    rw [hkept.size, hnew, LargeReq.pages, pageCeiling_of_large hfit hregion]
  have hon : reallocOnReserve w.world.state t b.ptr n = false := by
    rw [reallocOnReserve, hoff, Bool.and_false]
  have hlen : reallocRoom w.world.state t b.ptr n s' h'.ptr = usableSize s' h'.ptr := by
    rw [reallocRoom, hon, if_neg Bool.false_ne_true]
  have hfits := hsound.fits
  have hown := hsound.own
  rw [hlen] at hfits hown
  have hother : ∀ {j : Nat} {tr : HeapTrace} {b' : Live}, j ≠ k → w.traces j = some tr →
      b'.ptr = tr.ptr → b'.ptr ≠ b.ptr := fun hj htr hptr hx =>
    hw.apart htr hk hj ((hptr.symm.trans hx).trans hp)
  have hworld : (w.world.realloc t b n s' h'.ptr).live =
      ⟨h'.ptr, n, usableSize s' h'.ptr⟩ :: w.world.live.erase b := by
    rw [World.realloc, hon, World.grant, if_neg hq, if_neg Bool.false_ne_true]
    rfl
  refine hw.update (clientStep_inv hapf hw.inv hs) (fun j tr b' hj htr hb' hptr => ?_)
    (fun hx => ?_) (fun tr hx => ?_) (fun tr hx j tr' hj htr => ?_)
  · refine hinv.blockKept hapf hs hb' (fun hx => ?_) fun hx => ?_
    · exact hother hj htr hptr (Option.some.inj hx).symm
    · cases hx
  · cases hx
  · obtain rfl := Option.some.inj hx
    refine ⟨l', ⟨h'.ptr, n, usableSize s' h'.ptr⟩, rfl, ?_, ?_⟩
    · rw [hworld]
      exact List.mem_cons_self ..
    · rw [World.realloc, World.grant_state, heq]
      refine ho.moved rfl (hn ▸ hfits) (hn ▸ hsize) fun i hi => hsound.data i ?_
      have hbfits := ho.fits
      omega
  · obtain rfl := Option.some.inj hx
    obtain ⟨l₂, b₂, -, hb₂, ho₂⟩ := hw.holds htr
    have hne₂ := hother hj htr ho₂.ptr
    have hin : b₂ ∈ (w.world.without b).live :=
      (List.mem_erase_of_ne fun hx => hne₂ (congrArg Live.ptr hx)).mpr hb₂
    have hap := hown b₂ (List.mem_append_left _ hin)
    have hpos₂ :=
      hinv.heap.region.live_pos (hinv.heap.block.liveOk b₂ hb₂)
    have hptr₂ := ho₂.ptr
    omega

theorem Store.set_set {α : Type} (m : Store α) (p : Nat) (x y : Option α) :
    (m.set p x).set p y = m.set p y := by
  funext q
  by_cases hq : q = p
  · rw [hq, Store.set_same, Store.set_same]
  · rw [Store.set_other _ _ hq, Store.set_other _ _ hq, Store.set_other _ _ hq]

/-- A write after a realloc. -/
theorem World.realloc_setMem (w : World) (t : Nat) (b : Live) (n : Nat) (s : State) (q : Nat)
    (mem : Mem) :
    { w.realloc t b n s q with state := { s with mem := mem } } =
      w.realloc t b n { s with mem := mem } q := by
  rw [World.realloc, World.realloc, World.grant, World.grant]
  split
  · rfl
  · cases reallocOnReserve w.state t b.ptr n <;> rfl

/-- **`add`** puts the event behind the others, and doubles the buffer before that when one
entry is left. -/
theorem TracesOf.add (hw : TracesOf cfg w m) (hapf : cfg.useApf = true) (hk : w.traces k = some h)
    (hb : b ∈ w.world.live) (hp : b.ptr = h.ptr) (he : e.Fits) (hlim : h.length + 1 < traceLimit)
    (hres : h.add cfg os t e w.world.state = .ok (h', s')) :
    ∃ l, m k = some l ∧ TracesOf cfg ⟨w.world.added t b h h' s', w.traces.set k (some h')⟩
      (m.set k (some (l ++ [e]))) := by
  obtain ⟨l, hm, ho⟩ := hw.buffer hk hb hp
  have hroom := ho.room
  have hlarge := ho.large
  have hinit : initTraceLength = 16384 := rfl
  refine ⟨l, hm, ?_⟩
  unfold HeapTrace.add at hres
  unfold World.added
  by_cases hfull : h.length = h.cap - 1
  · rw [if_pos hfull] at hres ⊢
    obtain ⟨r, hgrow, hpush⟩ := bind_eq_ok.mp hres
    obtain ⟨h₁, s₁⟩ := r
    have hw₁ := hw.grow hapf hk hm hb hp hfull hlim hgrow
    obtain ⟨-, -, heq⟩ := HeapTrace.grow_ok hgrow
    have hcap : h₁.cap = h.cap * 2 := by rw [heq]
    have hlen : h₁.length = h.length := by rw [heq]
    have hstate : (w.world.realloc t b (h.cap * 2 * eventSize) s₁ h₁.ptr).state = s₁ := by
      rw [World.realloc, World.grant_state]
    have hpush' : h₁.push e (w.world.realloc t b (h.cap * 2 * eventSize) s₁ h₁.ptr).state =
        .ok (h', s') := by
      rw [hstate]
      exact hpush
    have hw₂ := hw₁.push (Store.set_same ..) (Store.set_same ..) he (by omega) hpush'
    obtain ⟨rfl, rfl⟩ := HeapTrace.push_ok hpush
    rw [Store.set_set, Store.set_set, World.realloc_setMem, ← hcap] at hw₂
    exact hw₂
  · rw [if_neg hfull] at hres ⊢
    exact hw.push hk hm he (by omega) hres

/-- **Dropping a trace** gives its block back. -/
theorem TracesOf.drop (hw : TracesOf cfg w m) (hapf : cfg.useApf = true)
    (hk : w.traces k = some h) (hb : b ∈ w.world.live) (hp : b.ptr = h.ptr)
    (hres : h.drop cfg t w.world.state = .ok s') :
    TracesOf cfg ⟨⟨s', w.world.live.erase b, w.world.boot⟩, w.traces.set k none⟩
      (m.set k none) := by
  have hfree := orPanic_ok hres
  rw [← hp] at hfree
  have hs := ClientStep.free hb hfree
  obtain ⟨H, hinv⟩ := hw.inv
  refine hw.update (clientStep_inv hapf hw.inv hs) (fun j tr b' hj htr hb' hptr => ?_)
    (fun _ => rfl) (fun tr hx => ?_) (fun tr hx j tr' hj htr => ?_)
  · refine hinv.blockKept hapf hs hb' (fun hx => ?_) fun hx => ?_
    · exact hw.apart hk htr (Ne.symm hj) (hp.symm.trans ((Option.some.inj hx).trans hptr))
    · cases hx
  · cases hx
  · cases hx

/-- What is read from a trace is its event. -/
theorem TracesOf.get (hw : TracesOf cfg w m) {i : Nat} (hk : w.traces k = some h)
    (hi : i < h.length) (hres : h.get i w.world.state = .ok e) :
    ∃ l, m k = some l ∧ l[i]? = some e := by
  obtain ⟨l, b, hm, hb, ho⟩ := hw.holds hk
  have hlt : i < l.length := ho.length ▸ hi
  have hread := ho.events (List.getElem?_eq_getElem hlt)
  rw [HeapTrace.get_ok hres] at hread
  exact ⟨l, hm, (List.getElem?_eq_getElem hlt).trans hread.symm⟩

/-- **Every step is one of the lists.** -/
theorem traceStep_refines (hapf : cfg.useApf = true) {w' : Traced} {op : TraceOp}
    (hw : TracesOf cfg w m) (hs : TraceStep cfg w op w') :
    ∃ m', TraceSpec m op m' ∧ TracesOf cfg w' m' := by
  cases hs with
  | client hc htarget hwrite => exact ⟨m, .client, hw.client hapf hc htarget hwrite⟩
  | new hk hres =>
    obtain ⟨hnone, hw'⟩ := hw.new hapf hk hres
    exact ⟨_, .new hnone, hw'⟩
  | add hk hb hp he hlim hres =>
    obtain ⟨l, hm, hw'⟩ := hw.add hapf hk hb hp he hlim hres
    exact ⟨_, .add hm, hw'⟩
  | get hk hi hres =>
    obtain ⟨l, hm, hl⟩ := hw.get hk hi hres
    exact ⟨m, .get hm hl, hw⟩
  | drop hk hb hp hres =>
    obtain ⟨l, hm, -⟩ := hw.buffer hk hb hp
    exact ⟨_, .drop hm, hw.drop hapf hk hb hp hres⟩

end Refine

/-! ## Passes over a trace -/

section Passes

variable {cfg : Cfg} {w : Traced} {m : Store (List Event)} {k : Nat} {h : HeapTrace}
  {l : List Event}

/-- Every entry of a buffer is mapped. -/
theorem TracesOf.covers (hw : TracesOf cfg w m) (hk : w.traces k = some h) {i : Nat}
    (hi : i < h.cap) :
    w.world.state.covers (h.ptr + eventSize * i) (Elem.size (UInt64 × UInt64)) = true := by
  obtain ⟨l, b, -, hb, ho⟩ := hw.holds hk
  obtain ⟨H, hinv⟩ := hw.inv
  obtain ⟨d, seg, hown, -, hlo, -, hhi, -⟩ :=
    hinv.heap.region.live_seg (hinv.heap.block.liveOk b hb)
  have hreg := (regionLen_bounds seg.length).1
  have hptr := ho.ptr
  have hfits := ho.fits
  change w.world.state.covers (h.ptr + eventSize * i) eventSize = true
  rw [eventSize_eq] at *
  exact State.covers_segment (hinv.heap.region.mapped hown) (by omega) (by omega)

/-- The bytes of a trace are its events. -/
theorem TracesOf.get_eq (hw : TracesOf cfg w m) (hk : w.traces k = some h) (hm : m k = some l)
    {i : Nat} {e : Event} (hi : l[i]? = some e) : h.get i w.world.state = .ok e := by
  obtain ⟨l', b, hm', -, ho⟩ := hw.holds hk
  obtain rfl : l' = l := Option.some.inj (hm'.symm.trans hm)
  have hlt := (List.getElem?_eq_some_iff.mp hi).1
  have hroom := ho.room
  have hlen := ho.length
  obtain ⟨v, hread, hword⟩ := Option.bind_eq_some_iff.mp (ho.events hi)
  have hload : load (h.ptr + eventSize * i) w.world.state = .ok v :=
    RawArray.load_of_covers (hw.covers hk (by omega)) hread
  rw [HeapTrace.get, if_pos (by omega)]
  refine bind_eq_ok.mpr ⟨v, hload, ?_⟩
  rw [hword]

/-- **A pass** over a trace in memory is a fold over its events. -/
theorem TracesOf.scan (hw : TracesOf cfg w m) (hk : w.traces k = some h) (hm : m k = some l)
    {σ : Type} (f : σ → Event → σ) (st : σ) :
    h.scan f st w.world.state = .ok (l.foldl f st) := by
  obtain ⟨l', b, hm', -, ho⟩ := hw.holds hk
  obtain rfl : l' = l := Option.some.inj (hm'.symm.trans hm)
  have key : ∀ n ≤ l'.length,
      (List.range n).foldlM (fun st i => (h.get i w.world.state).map (f st)) st =
        .ok ((l'.take n).foldl f st) := by
    intro n
    induction n with
    | zero => intro _; rfl
    | succ n ih =>
      intro hn
      have hi : l'[n]? = some l'[n] := List.getElem?_eq_getElem hn
      rw [List.range_succ, List.foldlM_append, ih (Nat.le_of_succ_le hn), List.take_add_one, hi,
        List.foldl_append]
      refine bind_eq_ok.mpr ⟨_, rfl, ?_⟩
      rw [List.foldlM_cons, hw.get_eq hk hm hi]
      rfl
  rw [HeapTrace.scan, ho.length, key _ (Nat.le_refl _), List.take_length]

/-- With room for two events nothing has to be asked of the allocator. -/
theorem TracesOf.add_total (hw : TracesOf cfg w m) (hk : w.traces k = some h) (os : Os) (t : Nat)
    (e : Event) (hroom : h.length + 1 < h.cap) :
    ∃ r, h.add cfg os t e w.world.state = .ok r := by
  have hcov := hw.covers hk (Nat.lt_of_succ_lt hroom)
  rw [HeapTrace.add, if_neg (by omega), HeapTrace.push, if_pos (by omega)]
  exact ⟨_, bind_eq_ok.mpr ⟨_, if_pos hcov, rfl⟩⟩

end Passes

theorem tracesOf_init {cfg : Cfg} {os : Os} {s : State} (h : initMalloc os = some s) :
    TracesOf cfg ⟨⟨s, [], []⟩, fun _ => none⟩ (fun _ => none) :=
  ⟨⟨Heap.start, worldInv_init h⟩, fun _ => rfl, fun hk => (by cases hk), fun hk => (by cases hk)⟩

end Apfmalloc
