import Apfmalloc.AllocRun
import Apfmalloc.RawArray

/-!
# `ptr/auto_ptr.rs`: values on the heap

`AutoPtr` is a box over the allocator: `new` asks `do_aligned_alloc` for the layout of the
type and writes the value there, `take` and `drop` give the block back with `do_free`.
`into_ptr` and `from_ptr` only change the type of the pointer, so a raw pointer from
`allocate_val` and a box are the same thing to the heap: a cell.

`CellSpec` is a store of values under addresses, and knows nothing of blocks and bytes. Every
run of the boxes and raw cells of one type, of any threads, among whatever else the program
allocates, frees and writes, is a run of that store (`cells_refine`): what is read is what was
written last, and no cell is handed out while it is in use.

A value is plain data here: there is no destructor for `drop_in_place` to run. `new` writes to
the address it gets without looking at it, and `allocate_val` looks; so the cells of `new` are
those of an allocation that succeeded.
-/

namespace Apfmalloc

open Base

/-! ## The functions -/

/-- A panic of the allocator ends the call. -/
def orPanic {β : Type} : Option β → Except Fault β
  | some b => .ok b
  | none => .error .panic

/-- `allocate_type::<T>()` -/
def allocateType (α : Type) [Elem α] (cfg : Cfg) (os : Os) (t : Nat) (s : State) :
    Except Fault (Nat × State) :=
  orPanic (doAlignedAlloc cfg os none t (2 ^ Elem.alignLog α) (Elem.size α) s)

section
variable {α : Type} [Elem α]

def allocateVal (cfg : Cfg) (os : Os) (t : Nat) (val : α) (s : State) :
    Except Fault (Nat × State) := do
  let (ret, s) ← allocateType α cfg os t s
  if ret ≠ 0 then do
    let s ← store ret val s
    .ok (ret, s)
  else .ok (ret, s)

end

structure AutoPtr (α : Type) where
  data : Nat
  deriving DecidableEq, Repr

namespace AutoPtr

variable {α : Type} [Elem α]

def new (cfg : Cfg) (os : Os) (t : Nat) (data : α) (s : State) :
    Except Fault (AutoPtr α × State) := do
  let (ptr, s) ← orPanic (doAlignedAlloc cfg os none t (2 ^ Elem.alignLog α) (Elem.size α) s)
  let s ← store ptr data s
  .ok (⟨ptr⟩, s)

def take (cfg : Cfg) (t : Nat) (p : AutoPtr α) (s : State) : Except Fault (α × State) := do
  let output ← load p.data s
  let s ← orPanic (doFree cfg none t p.data s)
  .ok (output, s)

def intoPtr (p : AutoPtr α) : Nat := p.data

def fromPtr (ptr : Nat) : AutoPtr α := ⟨ptr⟩

/-- `ptr.replace(new)` -/
def replace (new : α) (p : AutoPtr α) (s : State) : Except Fault (α × State) := do
  let old ← load p.data s
  let s ← store p.data new s
  .ok (old, s)

def write (new : α) (p : AutoPtr α) (s : State) : Except Fault State := do
  let (_, s) ← p.replace new s
  .ok s

def deref (p : AutoPtr α) (s : State) : Except Fault α := load p.data s

/-- There is nothing to drop in place. -/
def drop (cfg : Cfg) (t : Nat) (p : AutoPtr α) (s : State) : Except Fault State :=
  orPanic (doFree cfg none t p.data s)

/-- `f` is the `clone` of the type. -/
def clone (f : α → α) (cfg : Cfg) (os : Os) (t : Nat) (p : AutoPtr α) (s : State) :
    Except Fault (AutoPtr α × State) := do
  let data ← p.deref s
  AutoPtr.new cfg os t (f data) s

end AutoPtr

/-! ## Runs -/

/-- The allocator, its live blocks, and which of them are cells. -/
structure Cells where
  state : State
  live : List Live
  held : List Nat

/-- What happens to cells, with the values that go in and come out. `client` is anything the
rest of the program does. -/
inductive CellOp (α : Type)
  | client
  | new (p : Nat) (v : α)
  | deref (p : Nat) (v : α)
  | replace (p : Nat) (new old : α)
  | write (p : Nat) (new : α)
  | take (p : Nat) (v : α)
  | drop (p : Nat)
  | clone (p q : Nat)

/-- An allocation gave a cell. -/
def Cells.add (w : Cells) (s' : State) (p size : Nat) : Cells :=
  ⟨s', addLive s' p size w.live, p :: w.held⟩

/-- A cell is given back. -/
def Cells.remove (w : Cells) (s' : State) (e : Live) : Cells :=
  ⟨s', w.live.erase e, w.held.filter (· ≠ e.ptr)⟩

/-- One operation of some thread. The rest of the program frees and writes its own blocks only. -/
inductive CellStep {α : Type} [Elem α] (f : α → α) (cfg : Cfg) : Cells → CellOp α → Cells → Prop
  | client {w : Cells} {s' : State} {live' : List Live} {op : AllocOp} :
      AllocStep cfg (w.state, w.live) op (s', live') →
      (∀ t p, op = .free t p → p ∉ w.held) →
      (op = .write → ∀ e ∈ w.live, e.ptr ∈ w.held →
        ∀ a, e.ptr ≤ a → a < e.ptr + e.len → s'.mem a = w.state.mem a) →
      CellStep f cfg w .client ⟨s', live', w.held⟩
  | new {w : Cells} {s' : State} {os : Os} {t : Nat} {v : α} {p : AutoPtr α} :
      AutoPtr.new cfg os t v w.state = .ok (p, s') → p.data ≠ 0 →
      CellStep f cfg w (.new p.data v) (w.add s' p.data (Elem.size α))
  | allocateVal {w : Cells} {s' : State} {os : Os} {t p : Nat} {v : α} :
      allocateVal cfg os t v w.state = .ok (p, s') → p ≠ 0 →
      CellStep f cfg w (.new p v) (w.add s' p (Elem.size α))
  | deref {w : Cells} {v : α} {p : AutoPtr α} : p.data ∈ w.held → p.deref w.state = .ok v →
      CellStep f cfg w (.deref p.data v) w
  | replace {w : Cells} {s' : State} {new old : α} {p : AutoPtr α} : p.data ∈ w.held →
      p.replace new w.state = .ok (old, s') →
      CellStep f cfg w (.replace p.data new old) { w with state := s' }
  | write {w : Cells} {s' : State} {new : α} {p : AutoPtr α} : p.data ∈ w.held →
      p.write new w.state = .ok s' → CellStep f cfg w (.write p.data new) { w with state := s' }
  | take {w : Cells} {s' : State} {t : Nat} {v : α} {e : Live} : e ∈ w.live → e.ptr ∈ w.held →
      (AutoPtr.fromPtr e.ptr).take cfg t w.state = .ok (v, s') →
      CellStep f cfg w (.take e.ptr v) (w.remove s' e)
  | drop {w : Cells} {s' : State} {t : Nat} {e : Live} : e ∈ w.live → e.ptr ∈ w.held →
      (AutoPtr.fromPtr e.ptr : AutoPtr α).drop cfg t w.state = .ok s' →
      CellStep f cfg w (.drop e.ptr) (w.remove s' e)
  | clone {w : Cells} {s' : State} {os : Os} {t : Nat} {p q : AutoPtr α} : p.data ∈ w.held →
      p.clone f cfg os t w.state = .ok (q, s') → q.data ≠ 0 →
      CellStep f cfg w (.clone p.data q.data) (w.add s' q.data (Elem.size α))

/-! ## The store -/

/-- What the cells are for: values under addresses. -/
abbrev Store (α : Type) := Nat → Option α

def Store.set {α : Type} (m : Store α) (p : Nat) (x : Option α) : Store α :=
  fun q => if q = p then x else m q

/-- A new cell is at an address that is not in use. -/
inductive CellSpec {α : Type} (f : α → α) : Store α → CellOp α → Store α → Prop
  | client {m : Store α} : CellSpec f m .client m
  | new {m : Store α} {p : Nat} {v : α} : p ≠ 0 → m p = none →
      CellSpec f m (.new p v) (m.set p (some v))
  | deref {m : Store α} {p : Nat} {v : α} : m p = some v → CellSpec f m (.deref p v) m
  | replace {m : Store α} {p : Nat} {new old : α} : m p = some old →
      CellSpec f m (.replace p new old) (m.set p (some new))
  | write {m : Store α} {p : Nat} {new old : α} : m p = some old →
      CellSpec f m (.write p new) (m.set p (some new))
  | take {m : Store α} {p : Nat} {v : α} : m p = some v →
      CellSpec f m (.take p v) (m.set p none)
  | drop {m : Store α} {p : Nat} {v : α} : m p = some v →
      CellSpec f m (.drop p) (m.set p none)
  | clone {m : Store α} {p q : Nat} {v : α} : m p = some v → q ≠ 0 → m q = none →
      CellSpec f m (.clone p q) (m.set q (some (f v)))

/-- The store of the cells: each is a live block with the bytes of its value. -/
structure CellsOf {α : Type} [Elem α] (cfg : Cfg) (w : Cells) (m : Store α) : Prop where
  inv : ∃ H, RunInv cfg w.state H w.live
  held : ∀ p, p ∈ w.held ↔ ∃ v, m p = some v
  cell : ∀ {p v}, m p = some v → ∃ e ∈ w.live, e.ptr = p ∧ Elem.size α ≤ e.len ∧
    Elem.read w.state.mem p = some v

/-! ## What the functions do -/

section Calls

variable {α : Type} [Elem α] {cfg : Cfg} {os : Os} {t : Nat} {s s' : State}

theorem orPanic_ok {β : Type} {x : Option β} {b : β} (h : orPanic x = .ok b) : x = some b := by
  cases x with
  | none => cases h
  | some b' => rw [Except.ok.inj h]

theorem store_ok {a : Nat} {v : α} (h : store a v s = .ok s') :
    s' = { s with mem := Elem.write s.mem a v } := by
  unfold store at h
  split at h
  · exact (Except.ok.inj h).symm
  · cases h

theorem load_ok {a : Nat} {v : α} (h : load a s = .ok v) : Elem.read s.mem a = some v := by
  unfold load at h
  split at h
  · cases hr : (Elem.read s.mem a : Option α) with
    | none => rw [hr] at h; cases h
    | some w => rw [hr] at h; rw [Except.ok.inj h]
  · cases h

/-- An aligned allocation, and the value written where it says. -/
def Placed (cfg : Cfg) (v : α) (s s' : State) (p : Nat) : Prop :=
  ∃ os t s₁, doAlignedAlloc cfg os none t (2 ^ Elem.alignLog α) (Elem.size α) s = some (p, s₁) ∧
    s' = { s₁ with mem := Elem.write s₁.mem p v }

theorem new_placed {v : α} {p : AutoPtr α} (h : AutoPtr.new cfg os t v s = .ok (p, s')) :
    Placed cfg v s s' p.data := by
  obtain ⟨r, halloc, h⟩ := bind_eq_ok.mp h
  obtain ⟨ptr, s₁⟩ := r
  obtain ⟨s₂, hstore, h⟩ := bind_eq_ok.mp h
  obtain ⟨rfl, rfl⟩ := Prod.mk.inj (Except.ok.inj h)
  exact ⟨os, t, s₁, orPanic_ok halloc, store_ok hstore⟩

theorem allocateVal_placed {v : α} {p : Nat} (h : allocateVal cfg os t v s = .ok (p, s'))
    (hp : p ≠ 0) : Placed cfg v s s' p := by
  obtain ⟨r, halloc, h⟩ := bind_eq_ok.mp h
  obtain ⟨ret, s₁⟩ := r
  simp only at h
  split at h
  · obtain ⟨s₂, hstore, h⟩ := bind_eq_ok.mp h
    obtain ⟨rfl, rfl⟩ := Prod.mk.inj (Except.ok.inj h)
    exact ⟨os, t, s₁, orPanic_ok halloc, store_ok hstore⟩
  next hret =>
    obtain ⟨rfl, rfl⟩ := Prod.mk.inj (Except.ok.inj h)
    exact absurd hp hret

theorem clone_placed {f : α → α} {p q : AutoPtr α} (h : p.clone f cfg os t s = .ok (q, s')) :
    ∃ v, Elem.read s.mem p.data = some v ∧ Placed cfg (f v) s s' q.data := by
  obtain ⟨v, hload, h⟩ := bind_eq_ok.mp h
  exact ⟨v, load_ok hload, new_placed h⟩

theorem replace_ok {new old : α} {p : AutoPtr α} (h : p.replace new s = .ok (old, s')) :
    Elem.read s.mem p.data = some old ∧ s' = { s with mem := Elem.write s.mem p.data new } := by
  obtain ⟨v, hload, h⟩ := bind_eq_ok.mp h
  obtain ⟨s₁, hstore, h⟩ := bind_eq_ok.mp h
  obtain ⟨rfl, rfl⟩ := Prod.mk.inj (Except.ok.inj h)
  exact ⟨load_ok hload, store_ok hstore⟩

theorem write_ok {new : α} {p : AutoPtr α} (h : p.write new s = .ok s') :
    ∃ old, p.replace new s = .ok (old, s') := by
  obtain ⟨r, hrep, h⟩ := bind_eq_ok.mp h
  obtain ⟨old, s₁⟩ := r
  exact ⟨old, Except.ok.inj h ▸ hrep⟩

theorem take_ok {v : α} {p : AutoPtr α} (h : p.take cfg t s = .ok (v, s')) :
    Elem.read s.mem p.data = some v ∧ doFree cfg none t p.data s = some s' := by
  obtain ⟨w, hload, h⟩ := bind_eq_ok.mp h
  obtain ⟨s₁, hfree, h⟩ := bind_eq_ok.mp h
  obtain ⟨rfl, rfl⟩ := Prod.mk.inj (Except.ok.inj h)
  exact ⟨load_ok hload, orPanic_ok hfree⟩

end Calls

/-! ## Bytes of live blocks -/

section Frames

variable {cfg : Cfg} {os : Os} {s s' : State} {H H' : Heap} {live : List Live} {t : Nat} {e : Live}

/-- An allocation leaves the bytes of live blocks alone. -/
theorem HeapInv.live_bytes (h : HeapInv cfg s H live) (he : e ∈ live) (hm : SameMapped s s')
    {a : Nat} (hlo : e.ptr ≤ a) (hhi : a < e.ptr + e.len) : s'.mem a = s.mem a := by
  obtain ⟨d, seg, ho, -, hptr, -, hend, -⟩ := h.region.live_seg (h.block.liveOk e he)
  have hlen := (regionLen_bounds seg.length).1
  exact hm seg (h.region.mapped ho) a (by omega) (by omega)

/-- A free writes into the block it takes back, if anywhere. -/
theorem HeapInv.doFree_bytes (h : HeapInv cfg s H live) (hapf : cfg.useApf = true) (he : e ∈ live)
    (hres : Apfmalloc.doFree cfg none t e.ptr s = some s') {a : Nat}
    (hout : ¬(e.ptr ≤ a ∧ a < e.ptr + e.len)) : s'.mem a = s.mem a := by
  cases h.block.liveOk e he with
  | @small d c hb hplace hlen hsize =>
    obtain ⟨seg, f⟩ := h.region.blockFacts hb
    have hbs := f.spec.blockSize_ge
    rw [h.doFree_small hapf hb, Option.map_eq_some_iff] at hres
    obtain ⟨⟨bin, m⟩, hpush, rfl⟩ := hres
    unfold ThreadCacheBin.pushBlock at hpush
    split at hpush
    next =>
      cases hpush
      exact writeWord_out (by omega)
    next => cases hpush
  | @large d seg ho hheap hlo hpos hend hsize hpage =>
    have hv := h.region.valid ho
    have hp := hv.pos
    rw [h.doFree_large ho hheap (by omega) hpage, Option.some.injEq] at hres
    subst hres
    rw [(removes_dropLarge ho hv).mem]

end Frames

/-! ## The refinement -/

theorem Store.set_same {α : Type} (m : Store α) (p : Nat) (x : Option α) : m.set p x p = x :=
  if_pos rfl

theorem Store.set_other {α : Type} (m : Store α) {p q : Nat} (x : Option α) (h : q ≠ p) :
    m.set p x q = m q := if_neg h

section Refine

variable {α : Type} [Elem α] {cfg : Cfg} {w : Cells} {s' : State} {live' : List Live} {m : Store α}

/-- What a cell reads depends on the bytes of its block. -/
theorem read_block {e : Live} {p : Nat} {mem mem' : Mem} (hp : e.ptr = p)
    (hle : Elem.size α ≤ e.len) (hb : ∀ a, e.ptr ≤ a → a < e.ptr + e.len → mem' a = mem a) :
    (Elem.read mem' p : Option α) = Elem.read mem p := by
  subst hp
  exact Elem.read_congr fun i hi => hb _ (by omega) (by omega)

/-- The rest of the program changes nothing about the cells: their blocks stay live, with
their bytes. -/
theorem CellsOf.frame (h : CellsOf cfg w m) (hinv : ∃ H, RunInv cfg s' H live')
    (hlive : ∀ e ∈ w.live, e.ptr ∈ w.held → e ∈ live')
    (hb : ∀ e ∈ w.live, e.ptr ∈ w.held → ∀ a, e.ptr ≤ a → a < e.ptr + e.len →
      s'.mem a = w.state.mem a) : CellsOf cfg ⟨s', live', w.held⟩ m := by
  refine ⟨hinv, h.held, fun {p v} hv => ?_⟩
  obtain ⟨e, he, hp, hle, hread⟩ := h.cell hv
  have hin : e.ptr ∈ w.held := hp ▸ (h.held p).mpr ⟨v, hv⟩
  exact ⟨e, hlive e he hin, hp, hle, (read_block hp hle (hb e he hin)).trans hread⟩

/-- Whatever the rest of the program does. -/
theorem CellsOf.client (h : CellsOf cfg w m) (hapf : cfg.useApf = true) {op : AllocOp}
    (hstep : AllocStep cfg (w.state, w.live) op (s', live'))
    (hfree : ∀ t p, op = .free t p → p ∉ w.held)
    (hwrite : op = .write → ∀ e ∈ w.live, e.ptr ∈ w.held →
      ∀ a, e.ptr ≤ a → a < e.ptr + e.len → s'.mem a = w.state.mem a) :
    CellsOf cfg ⟨s', live', w.held⟩ m := by
  obtain ⟨H, hr⟩ := h.inv
  have hinv : ∃ H', RunInv cfg s' H' live' := allocStep_inv hapf ⟨H, hr⟩ hstep
  have hadd : ∀ (p size : Nat), ∀ e ∈ w.live, e ∈ addLive s' p size w.live := by
    intro p size e he
    unfold addLive
    split
    · exact he
    · exact List.mem_cons_of_mem _ he
  cases hstep with
  | malloc hfit hres =>
    obtain ⟨H', -, hext⟩ := hr.doMalloc hfit hres
    exact h.frame hinv (fun e he _ => hadd _ _ e he) fun e he _ a =>
      hr.heap.live_bytes he hext.mem
  | alignedAlloc hfit hres =>
    rcases hr.doAlignedAlloc hfit hres with ⟨rfl, rfl⟩ | ⟨H', len, -, hext⟩
    · exact h.frame hinv (fun e he _ => hadd _ _ e he) fun _ _ _ _ _ _ => rfl
    · exact h.frame hinv (fun e he _ => hadd _ _ e he) fun e he _ a =>
        hr.heap.live_bytes he hext.mem
  | @free _ _ _ t e he hres =>
    have hne : ∀ e' ∈ w.live, e'.ptr ∈ w.held → e' ≠ e := fun e' _ hin heq =>
      hfree t e.ptr rfl (heq ▸ hin)
    refine h.frame hinv (fun e' he' hin => (List.mem_erase_of_ne (hne e' he' hin)).mpr he')
      fun e' he' hin a hlo hhi => hr.heap.doFree_bytes hapf he hres fun hin' => ?_
    have hap := (hr.heap.block.live_cases he' he).resolve_left (hne e' he' hin)
    unfold Live.Apart at hap
    omega
  | write hm => exact h.frame hinv (fun e he _ => he) fun e he hin => hwrite rfl e he hin

/-- A cell's block is not another cell's. -/
theorem CellsOf.apart (h : CellsOf cfg w m) {e e' : Live} (he : e ∈ w.live) (he' : e' ∈ w.live)
    (hne : e'.ptr ≠ e.ptr) : e'.ptr + e'.len ≤ e.ptr ∨ e.ptr + e.len ≤ e'.ptr := by
  obtain ⟨H, hr⟩ := h.inv
  exact (hr.heap.block.live_cases he' he).resolve_left fun heq => hne (heq ▸ rfl)

/-- **A new value** is at an address that no cell has. -/
theorem CellsOf.add (h : CellsOf cfg w m)
    (hfit : AlignFits (2 ^ Elem.alignLog α) (Elem.size α)) {v : α} {p : Nat}
    (hp : p ≠ 0) (hplaced : Placed cfg v w.state s' p) :
    m p = none ∧ CellsOf cfg (w.add s' p (Elem.size α)) (m.set p (some v)) := by
  obtain ⟨H, hr⟩ := h.inv
  obtain ⟨os, t, s₁, hres, rfl⟩ := hplaced
  rcases hr.doAlignedAlloc hfit hres with ⟨rfl, -⟩ | ⟨H', len, h', hext⟩
  · exact absurd rfl hp
  have hmem : (⟨p, Elem.size α, len⟩ : Live) ∈ (⟨p, Elem.size α, len⟩ :: w.live : List Live) :=
    List.mem_cons_self ..
  obtain ⟨d, seg, ho, -, hlo, hpos, hhi, hle⟩ := h'.region.live_seg (h'.block.liveOk _ hmem)
  simp only at hlo hpos hhi hle
  -- no live block is where the new one is
  have hap : ∀ e ∈ w.live, p + len ≤ e.ptr ∨ e.ptr + e.len ≤ p := fun e he =>
    (List.pairwise_cons.mp h'.block.liveApart).1 e he
  have hnone : m p = none := by
    cases hm : m p with
    | none => rfl
    | some x =>
      obtain ⟨e, he, hpe, -⟩ := h.cell hm
      have hpos' := hr.heap.region.live_pos (hr.heap.block.liveOk e he)
      have := hap e he
      omega
  have hwrite : HeapInv cfg { s₁ with mem := Elem.write s₁.mem p v } H'
      (⟨p, Elem.size α, len⟩ :: w.live) :=
    h'.write fun a ha => Elem.write_out (by have := ha _ hmem; simp only at this; omega)
  have hlive : addLive { s₁ with mem := Elem.write s₁.mem p v } p (Elem.size α) w.live =
      ⟨p, Elem.size α, len⟩ :: w.live := hwrite.addLive_eq
  have hrun : RunInv cfg { s₁ with mem := Elem.write s₁.mem p v } H'
      (⟨p, Elem.size α, len⟩ :: w.live) := by
    have hr₁ := hr.extends h' hext
    exact ⟨hwrite, ⟨hr₁.quiet.partialList, hr₁.quiet.useBootstrap, hr₁.quiet.panicking⟩, hr₁.noFree⟩
  unfold Cells.add
  rw [hlive]
  refine ⟨hnone, ⟨H', hrun⟩, fun q => ?_, fun {q x} hx => ?_⟩
  · by_cases hq : q = p
    · subst hq
      rw [Store.set_same]
      exact ⟨fun _ => ⟨v, rfl⟩, fun _ => List.mem_cons_self ..⟩
    · rw [Store.set_other _ _ hq, ← h.held q, List.mem_cons]
      exact ⟨fun hm => hm.resolve_left hq, Or.inr⟩
  · by_cases hq : q = p
    · subst hq
      rw [Store.set_same] at hx
      exact ⟨_, hmem, rfl, hle, by rw [← hx]; exact Elem.read_write ..⟩
    · rw [Store.set_other _ _ hq] at hx
      obtain ⟨e, he, hpe, hlen, hread⟩ := h.cell hx
      refine ⟨e, List.mem_cons_of_mem _ he, hpe, hlen, ?_⟩
      have hout := hap e he
      rw [Elem.read_write_ne (by omega),
        read_block hpe hlen fun a => hr.heap.live_bytes he hext.mem]
      exact hread

/-- A cell gets another value. -/
theorem CellsOf.set (h : CellsOf cfg w m) {p : Nat} {old new : α} (hold : m p = some old) :
    CellsOf cfg { w with state := { w.state with mem := Elem.write w.state.mem p new } }
      (m.set p (some new)) := by
  obtain ⟨e, he, rfl, hle, -⟩ := h.cell hold
  obtain ⟨H, hr⟩ := h.inv
  refine ⟨⟨H, hr.heap.write fun a ha => ?_,
    ⟨hr.quiet.partialList, hr.quiet.useBootstrap, hr.quiet.panicking⟩, hr.noFree⟩, fun q => ?_,
    fun {q x} hx => ?_⟩
  · exact Elem.write_out (by have := ha e he; omega)
  · rw [h.held q]
    by_cases hq : q = e.ptr
    · subst hq
      rw [Store.set_same]
      exact ⟨fun _ => ⟨new, rfl⟩, fun _ => ⟨old, hold⟩⟩
    · rw [Store.set_other _ _ hq]
  · by_cases hq : q = e.ptr
    · subst hq
      rw [Store.set_same] at hx
      exact ⟨e, he, rfl, hle, by rw [← hx]; exact Elem.read_write ..⟩
    · rw [Store.set_other _ _ hq] at hx
      obtain ⟨e', he', rfl, hle', hread⟩ := h.cell hx
      have hap := h.apart he he' hq
      exact ⟨e', he', rfl, hle', by rw [Elem.read_write_ne (by omega)]; exact hread⟩

/-- A cell goes, the others stay. -/
theorem CellsOf.remove (h : CellsOf cfg w m) (hapf : cfg.useApf = true) {t : Nat} {e : Live}
    (he : e ∈ w.live) (hres : doFree cfg none t e.ptr w.state = some s') :
    CellsOf cfg (w.remove s' e) (m.set e.ptr none) := by
  obtain ⟨H, hr⟩ := h.inv
  refine ⟨allocStep_inv hapf ⟨H, hr⟩ (.free he hres), fun q => ?_, fun {q x} hx => ?_⟩
  · show q ∈ w.held.filter _ ↔ _
    rw [List.mem_filter, decide_eq_true_iff]
    by_cases hq : q = e.ptr
    · subst hq
      rw [Store.set_same]
      refine ⟨fun hm => absurd rfl hm.2, fun hm => ?_⟩
      obtain ⟨v, hv⟩ := hm
      cases hv
    · rw [Store.set_other _ _ hq, ← h.held q]
      exact ⟨fun hm => hm.1, fun hm => ⟨hm, hq⟩⟩
  · by_cases hq : q = e.ptr
    · subst hq
      rw [Store.set_same] at hx
      cases hx
    · rw [Store.set_other _ _ hq] at hx
      obtain ⟨e', he', rfl, hle', hread⟩ := h.cell hx
      have hap := h.apart he he' hq
      have hne : e' ≠ e := fun heq => hq (congrArg Live.ptr heq)
      have hbytes : ∀ a, e'.ptr ≤ a → a < e'.ptr + e'.len → s'.mem a = w.state.mem a :=
        fun a hlo hhi => hr.heap.doFree_bytes hapf he hres (by omega)
      exact ⟨e', (List.mem_erase_of_ne hne).mpr he', rfl, hle',
        (read_block rfl hle' hbytes).trans hread⟩

/-- What is read from a cell is its value. -/
theorem CellsOf.read (h : CellsOf cfg w m) {p : Nat} {v : α} (hp : p ∈ w.held)
    (hread : Elem.read w.state.mem p = some v) : m p = some v := by
  obtain ⟨x, hx⟩ := (h.held p).mp hp
  obtain ⟨e, he, -, -, hread'⟩ := h.cell hx
  rw [hx, ← hread', hread]

end Refine

/-- **Every step is a step of the store.** -/
theorem cellStep_refines {α : Type} [Elem α] {f : α → α} {cfg : Cfg} (hapf : cfg.useApf = true)
    (hfit : AlignFits (2 ^ Elem.alignLog α) (Elem.size α)) {w w' : Cells} {m : Store α}
    {op : CellOp α} (h : CellsOf cfg w m) (hstep : CellStep f cfg w op w') :
    ∃ m', CellSpec f m op m' ∧ CellsOf cfg w' m' := by
  cases hstep with
  | client hs hfree hwrite => exact ⟨m, .client, h.client hapf hs hfree hwrite⟩
  | new hnew hp =>
    obtain ⟨hnone, h'⟩ := h.add hfit hp (new_placed hnew)
    exact ⟨_, .new hp hnone, h'⟩
  | allocateVal hnew hp =>
    obtain ⟨hnone, h'⟩ := h.add hfit hp (allocateVal_placed hnew hp)
    exact ⟨_, .new hp hnone, h'⟩
  | deref hin hread => exact ⟨m, .deref (h.read hin (load_ok hread)), h⟩
  | replace hin hrep =>
    obtain ⟨hread, rfl⟩ := replace_ok hrep
    have hold := h.read hin hread
    exact ⟨_, .replace hold, h.set hold⟩
  | write hin hwrite =>
    obtain ⟨old, hrep⟩ := write_ok hwrite
    obtain ⟨hread, rfl⟩ := replace_ok hrep
    have hold := h.read hin hread
    exact ⟨_, .write hold, h.set hold⟩
  | take he hin htake =>
    obtain ⟨hread, hfree⟩ := take_ok htake
    exact ⟨_, .take (h.read hin hread), h.remove hapf he hfree⟩
  | @drop s' t e he hin hdrop =>
    obtain ⟨v, hv⟩ := (h.held e.ptr).mp hin
    exact ⟨_, .drop hv, h.remove hapf he (orPanic_ok hdrop)⟩
  | clone hin hclone hq =>
    obtain ⟨v, hread, hplaced⟩ := clone_placed hclone
    obtain ⟨hnone, h'⟩ := h.add hfit hq hplaced
    exact ⟨_, .clone (h.read hin hread) hq hnone, h'⟩

theorem cellsOf_init {α : Type} [Elem α] {cfg : Cfg} {os : Os} {s : State}
    (h : initMalloc os = some s) : CellsOf cfg ⟨s, [], []⟩ (fun _ => none : Store α) := by
  refine ⟨⟨Heap.start, runInv_init h⟩,
    fun p => ⟨fun hp => absurd hp List.not_mem_nil, fun hp => ?_⟩, fun hv => (by cases hv)⟩
  obtain ⟨v, hv⟩ := hp
  cases hv

/-- A cell that is in use can be read and replaced. -/
theorem CellsOf.accessible {α : Type} [Elem α] {cfg : Cfg} {w : Cells} {m : Store α}
    (h : CellsOf cfg w m) {p : AutoPtr α} {v : α} (hv : m p.data = some v) (new : α) :
    p.deref w.state = .ok v ∧
      p.replace new w.state =
        .ok (v, { w.state with mem := Elem.write w.state.mem p.data new }) := by
  obtain ⟨e, he, hp, hle, hread⟩ := h.cell hv
  obtain ⟨H, hr⟩ := h.inv
  obtain ⟨d, seg, ho, -, hlo, -, hend, -⟩ := hr.heap.region.live_seg (hr.heap.block.liveOk e he)
  have hlen := (regionLen_bounds seg.length).1
  have hcov : w.state.covers p.data (Elem.size α) = true :=
    State.covers_segment (hr.heap.region.mapped ho) (by omega) (by omega)
  have hload : load p.data w.state = .ok v := RawArray.load_of_covers hcov hread
  refine ⟨hload, ?_⟩
  exact bind_eq_ok.mpr ⟨v, hload, bind_eq_ok.mpr ⟨_, if_pos hcov, rfl⟩⟩

end Apfmalloc
