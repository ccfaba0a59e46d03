import Apfmalloc.Alloc
import Apfmalloc.ArrayIter

/-!
# `range_mapping.rs`: a tree of address ranges

`PageRangeMapping` keeps a node for every range that was inserted, in an `Array`. A node is
a leaf with the page info of its range, or has two children; `insert_node` walks down from
the head to a node, makes a parent of that node and the new one, and writes the parent where
the node was. The parent keeps the address of what it overwrites as the address of its child.
So a node that gets a parent is its own child from then on, and the leaf that stood there is
gone: whoever looks up an address of the first range walks from the head to the head.

The nodes are also addressed by where they are in the array. When the array is full and
moves, the head is left in the segment that was unmapped, and the insertion that moved it
faults.

A loop that goes on after the rounds it was given ends in `Fault.fuel`; what returns for
some number of rounds terminates.
-/

namespace Apfmalloc

open Base

/-! ## Nodes -/

/-- `RangeInclusive<usize>`, which is never iterated over here. -/
structure RangeInclusive where
  start : UInt64
  stop : UInt64
  deriving DecidableEq, Repr

def RangeInclusive.contains (r : RangeInclusive) (address : UInt64) : Bool :=
  decide (r.start ≤ address) && decide (address ≤ r.stop)

inductive NodeInner
  /-- the word of a `PageInfo` -/
  | info (desc : UInt64)
  | children (less more : UInt64)
  deriving DecidableEq, Repr

structure Node where
  range : RangeInclusive
  inner : NodeInner
  deriving DecidableEq, Repr

namespace Node

/-- A node in memory: the range and its flag, the tag of `inner`, and its two words. -/
def words (node : Node) : List UInt64 :=
  match node.inner with
  | .info desc => [node.range.start, node.range.stop, 0, 0, desc, 0]
  | .children less more => [node.range.start, node.range.stop, 0, 1, less, more]

def ofWords (w : Nat → UInt64) : Option Node :=
  if w 3 = 0 then some ⟨⟨w 0, w 1⟩, .info (w 4)⟩
  else if w 3 = 1 then some ⟨⟨w 0, w 1⟩, .children (w 4) (w 5)⟩
  else none

theorem length_words (node : Node) : node.words.length = 6 := by
  unfold words
  cases node.inner <;> rfl

theorem ofWords_words {node : Node} {w : Nat → UInt64}
    (h : ∀ i < 6, some (w i) = node.words[i]?) : ofWords w = some node := by
  obtain ⟨⟨start, stop⟩, inner⟩ := node
  have hw : ∀ i v, i < 6 → (words ⟨⟨start, stop⟩, inner⟩)[i]? = some v → w i = v :=
    fun i v hi hv => Option.some.inj ((h i hi).trans hv)
  cases inner with
  | info desc =>
    rw [ofWords, hw 3 0 (by decide) rfl, if_pos rfl, hw 0 start (by decide) rfl,
      hw 1 stop (by decide) rfl, hw 4 desc (by decide) rfl]
  | children less more =>
    rw [ofWords, hw 3 1 (by decide) rfl, if_neg (by decide), if_pos rfl,
      hw 0 start (by decide) rfl, hw 1 stop (by decide) rfl, hw 4 less (by decide) rfl,
      hw 5 more (by decide) rfl]

instance : Elem Node where
  size := 48
  alignLog := 3
  enc node := node.words.flatMap wordBytes
  dec bs := ofWords (wordAt bs)
  size_lt := by decide
  align_lt := (inferInstance : Elem UInt64).align_lt
  align_dvd := by decide
  length_enc node := by rw [length_flatMap_wordBytes, length_words]
  dec_enc node := by
    refine ofWords_words fun i hi => wordAt_flatMap _ _ ?_
    rw [length_words]
    exact hi

def leaf (range : RangeInclusive) (info : PageInfo) : Node :=
  ⟨range, .info (UInt64.ofNat info.desc)⟩

@[simp] theorem leaf_range (range : RangeInclusive) (info : PageInfo) :
    (leaf range info).range = range := rfl

/-- `self` and `other` are at `ptr` and `otherPtr`. -/
def createParentNode (ptr otherPtr : Nat) (self other : Node) : Node :=
  let newRange : RangeInclusive :=
    ⟨min self.range.start other.range.start, max self.range.stop other.range.stop⟩
  let (less, more) :=
    if self.range.stop < other.range.start then (ptr, otherPtr) else (otherPtr, ptr)
  ⟨newRange, .children (UInt64.ofNat less) (UInt64.ofNat more)⟩

/-- The children of a parent are the two nodes, the lower one first. -/
theorem createParentNode_inner (ptr otherPtr : Nat) (self other : Node) :
    (self.createParentNode ptr otherPtr other).inner =
      if self.range.stop < other.range.start then
        .children (UInt64.ofNat ptr) (UInt64.ofNat otherPtr)
      else .children (UInt64.ofNat otherPtr) (UInt64.ofNat ptr) := by
  unfold createParentNode
  by_cases h : self.range.stop < other.range.start
  · simp only [h, if_true]
  · simp only [h, if_false]

theorem createParentNode_ne_info {ptr otherPtr : Nat} {self other : Node} {desc : UInt64} :
    (self.createParentNode ptr otherPtr other).inner ≠ .info desc := by
  rw [createParentNode_inner]
  split <;> exact NodeInner.noConfusion

/-- Of the node at `ptr`. -/
def findInfo (address : UInt64) : Nat → Nat → State → Except Fault (Option PageInfo)
  | 0, _, _ => .error .fuel
  | n + 1, ptr, s => do
    let self ← (load ptr s : Except Fault Node)
    if self.range.contains address then
      match self.inner with
      | .info desc => .ok (some ⟨desc.toNat⟩)
      | .children less more => do
        let lessNode ← (load less.toNat s : Except Fault Node)
        if lessNode.range.contains address then findInfo address n less.toNat s
        else do
          let moreNode ← (load more.toNat s : Except Fault Node)
          if moreNode.range.contains address then findInfo address n more.toNat s
          else .ok none
    else .ok none

end Node

/-! ## The mapping -/

structure PageRangeMapping where
  head : Nat
  memoryArray : Array Node
  deriving DecidableEq, Repr

/-- The arguments of `update_page_map`; `heap` is the index of the heap. -/
structure Insertion where
  heap : Option Nat
  ptr : UInt64
  desc : Option UInt64
  sizeClassIndex : Nat
  deriving DecidableEq, Repr

namespace PageRangeMapping

def new : PageRangeMapping := ⟨0, Array.new⟩

def initWithCapacity (os : Os) (capacity : Nat) (m : PageRangeMapping) (s : State) :
    Except Fault (PageRangeMapping × State) := do
  let (array, s) ← Array.withCapacity os capacity s
  .ok ({ m with memoryArray := array }, s)

/-- Also the address of the node, the last one of the slice. -/
def createRangeNode (os : Os) (range : RangeInclusive) (info : PageInfo) (m : PageRangeMapping)
    (s : State) : Except Fault (Nat × PageRangeMapping × State) := do
  let (array, s) ← m.memoryArray.push os (.leaf range info) s
  .ok (array.array.slot (array.size - 1), { m with memoryArray := array }, s)

def getPageInfo (address : UInt64) (fuel : Nat) (m : PageRangeMapping) (s : State) :
    Except Fault (Option PageInfo) :=
  if m.head = 0 then .ok none else Node.findInfo address fuel m.head s

/-- The loop of `insert_node`: where it leaves `ptr`. -/
def descend (mainRange : RangeInclusive) : Nat → Nat → State → Except Fault Nat
  | 0, _, _ => .error .fuel
  | n + 1, ptr, s => do
    let node ← (load ptr s : Except Fault Node)
    match node.inner with
    | .info _ => .ok ptr
    | .children less more => do
      let lessNode ← (load less.toNat s : Except Fault Node)
      if mainRange.stop < lessNode.range.start then .ok less.toNat
      else if lessNode.range.start < mainRange.start ∧ lessNode.range.stop > mainRange.stop then
        descend mainRange n less.toNat s
      else do
        let moreNode ← (load more.toNat s : Except Fault Node)
        if mainRange.start > moreNode.range.stop then .ok more.toNat
        -- the end is compared with itself
        else if moreNode.range.start < mainRange.start ∧ mainRange.stop > mainRange.stop then
          descend mainRange n more.toNat s
        else .ok ptr

def insertNode (fuel node : Nat) (m : PageRangeMapping) (s : State) :
    Except Fault (PageRangeMapping × State) :=
  if m.head = 0 then .ok ({ m with head := node }, s)
  else do
    let self ← (load node s : Except Fault Node)
    let ptr ← descend self.range fuel m.head s
    let other ← (load ptr s : Except Fault Node)
    let s ← store ptr (self.createParentNode node ptr other) s
    .ok (m, s)

/-- A node for the range, and its place in the tree. -/
def insertRange (fuel : Nat) (os : Os) (range : RangeInclusive) (info : PageInfo)
    (m : PageRangeMapping) (s : State) : Except Fault (PageRangeMapping × State) := do
  let (node, m, s) ← m.createRangeNode os range info s
  m.insertNode fuel node s

def setPageInfoForPtr (fuel : Nat) (os : Os) (ptr : UInt64) (info : PageInfo)
    (m : PageRangeMapping) (s : State) : Except Fault (PageRangeMapping × State) :=
  m.insertRange fuel os ⟨ptr, ptr⟩ info s

def updatePageMap (cfg : Cfg) (fuel : Nat) (os : Os) (i : Insertion) (m : PageRangeMapping)
    (s : State) : Except Fault (PageRangeMapping × State) :=
  let info := PageInfo.setPtr (i.desc.getD 0).toNat i.sizeClassIndex
  match i.heap with
  | none => m.setPageInfoForPtr fuel os i.ptr info s
  | some c =>
    let sbSize := (cfg.sizeClass c).sbSize
    if sbSize &&& pageMask ≠ 0 then .error .panic
    else m.insertRange fuel os ⟨i.ptr, i.ptr + UInt64.ofNat sbSize - 1⟩ info s

/-- Insertions one after the other, each with a kernel of its own. -/
def updates (cfg : Cfg) (fuel : Nat) : List (Os × Insertion) → PageRangeMapping → State →
    Except Fault (PageRangeMapping × State)
  | [], m, s => .ok (m, s)
  | (os, i) :: ops, m, s => do
    let (m, s) ← m.updatePageMap cfg fuel os i s
    updates cfg fuel ops m s

/-! ## The nodes in memory -/

/-- The address of one of the first `n` nodes. -/
def IsNode (a : Array Node) (n ptr : Nat) : Prop := ∃ i < n, ptr = a.array.slot i

/-- All children are among the first `n` nodes. -/
def Linked (a : Array Node) (n : Nat) (l : List Node) : Prop :=
  ∀ node ∈ l, ∀ less more, node.inner = .children less more →
    IsNode a n less.toNat ∧ IsNode a n more.toNat

/-- The nodes `l` of the mapping: the head is one of them and so are all children. -/
structure Nodes (s : State) (m : PageRangeMapping) (l : List Node) : Prop where
  stored : m.memoryArray.Stored s l
  alone : m.memoryArray.array.Alone s
  head : IsNode m.memoryArray l.length m.head
  linked : Linked m.memoryArray l.length l

section
variable {cfg : Cfg} {fuel : Nat} {os : Os} {m m' : PageRangeMapping} {a b : Array Node}
  {s s' : State} {l : List Node} {address : UInt64} {range : RangeInclusive} {info : PageInfo}
  {n n' ptr : Nat}

theorem IsNode.mono (h : IsNode a n ptr) (hn : n ≤ n') (hb : b.array = a.array) :
    IsNode b n' ptr := by
  obtain ⟨i, hi, rfl⟩ := h
  exact ⟨i, Nat.lt_of_lt_of_le hi hn, by rw [hb]⟩

theorem IsNode.read (h : IsNode a n ptr) (hst : a.Stored s l) (hn : n ≤ l.length) :
    ∃ node ∈ l, load ptr s = .ok node := by
  obtain ⟨i, hi, rfl⟩ := h
  exact ⟨l[i], List.getElem_mem _, hst.load (Nat.lt_of_lt_of_le hi hn)⟩

/-- It is not null and fits a word. -/
theorem IsNode.bounds (h : IsNode a n ptr) (hst : a.Stored s l) (hn : n ≤ l.length) :
    ptr ≠ 0 ∧ (UInt64.ofNat ptr).toNat = ptr := by
  obtain ⟨i, hi, rfl⟩ := h
  obtain ⟨seg, hseg, -, hslot, hend, hspace⟩ :=
    hst.owned.slot (Nat.lt_of_lt_of_le hi (Nat.le_trans hn hst.le))
  have hpos := (hst.owned seg (RawArray.mem_segs hseg)).2.pos
  have haddr : addrSpace = 281474976710656 := rfl
  rw [hslot]
  refine ⟨by omega, ?_⟩
  rw [UInt64.toNat_ofNat']
  exact Nat.mod_eq_of_lt (by omega)

/-- In a buffer that was unmapped it is not there. -/
theorem IsNode.read_segv (h : IsNode a n ptr) (hst : a.Stored s l) (hn : n ≤ l.length)
    (hgone : a.array.Gone s') : (load ptr s' : Except Fault Node) = .error .segv := by
  obtain ⟨i, hi, rfl⟩ := h
  obtain ⟨seg, hseg, -, hslot, hend, -⟩ :=
    hst.owned.slot (Nat.lt_of_lt_of_le hi (Nat.le_trans hn hst.le))
  have hreg := (regionLen_bounds seg.length).1
  have hsize : Elem.size Node = 48 := rfl
  rw [load, if_neg]
  intro hcov
  obtain ⟨sg, hsg, hhas⟩ := State.covers_iff.mp hcov 0 (by decide)
  rw [hslot, Nat.add_zero] at hhas
  have hout := (hgone seg (RawArray.mem_segs hseg) sg hsg).not_has hhas
  omega

theorem Linked.mono (h : Linked a n l) (hn : n ≤ n') (hb : b.array = a.array) :
    Linked b n' l := by
  intro node hnode less more hin
  obtain ⟨hless, hmore⟩ := h node hnode less more hin
  exact ⟨hless.mono hn hb, hmore.mono hn hb⟩

theorem Linked.append_leaf (h : Linked a n l) (range : RangeInclusive) (info : PageInfo) :
    Linked a n (l ++ [.leaf range info]) := by
  intro node hnode less more hin
  rcases List.mem_append.mp hnode with hnode | hnode
  · exact h node hnode less more hin
  · obtain rfl := List.mem_singleton.mp hnode
    cases hin

/-- A parent in the place of a node points to two nodes. -/
theorem Linked.set_parent {j otherPtr : Nat} (h : Linked a n l) (hptr : IsNode a n ptr)
    (hother : IsNode a n otherPtr) (hst : a.Stored s l) (hn : n ≤ l.length) (self other : Node) :
    Linked a n (l.set j (self.createParentNode ptr otherPtr other)) := by
  intro node hnode less more hin
  rcases List.mem_or_eq_of_mem_set hnode with hnode | rfl
  · exact h node hnode less more hin
  · have hword := (hptr.bounds hst hn).2
    have hword' := (hother.bounds hst hn).2
    rw [Node.createParentNode_inner] at hin
    split at hin
    · cases hin
      rw [hword, hword']
      exact ⟨hptr, hother⟩
    · cases hin
      rw [hword, hword']
      exact ⟨hother, hptr⟩

/-- A push leaves the buffer where it is, or nothing is mapped there any more. -/
theorem alone_pushed {q : Array Node × State} (h : a.array.Alone s) (hst : a.Stored s l)
    (hp : Array.Pushed os a s q) :
    q.1.array.Alone q.2 ∧ (q.1.array = a.array ∨ a.array.Gone q.2) := by
  cases hp with
  | room harray hmapped =>
    unfold RawArray.Alone
    rw [harray, hmapped]
    exact ⟨h, Or.inl rfl⟩
  | moved hn hres hr hmapped =>
    unfold RawArray.Alone RawArray.Gone
    rw [hmapped]
    obtain ⟨halone, hgone⟩ := h.reserve hst.owned (by decide) hn hres
    exact ⟨halone, Or.inr hgone⟩

/-! ## One insertion -/

/-- **`create_range_node`** pushes a leaf and returns its address. -/
theorem createRangeNode_served (hst : m.memoryArray.Stored s l) (halone : m.memoryArray.array.Alone s) :
    Served (fun q => q.2.1.memoryArray.Stored q.2.2 (l ++ [.leaf range info]) ∧
        q.2.1.memoryArray.array.Alone q.2.2 ∧ q.1 = q.2.1.memoryArray.array.slot l.length ∧
        q.2.1.head = m.head ∧ (q.2.1.memoryArray.array = m.memoryArray.array ∨
          m.memoryArray.array.Gone q.2.2))
      (m.createRangeNode os range info s) := by
  rw [createRangeNode]
  refine Post.bind (hst.push (by decide) (.leaf range info)) fun q hq => ?_
  obtain ⟨hst', -, hpushed, -⟩ := hq
  obtain ⟨halone', hmoved⟩ := alone_pushed halone hst hpushed
  have hsize := hst'.size
  rw [List.length_append, List.length_singleton] at hsize
  refine ⟨hst', halone', ?_, rfl, hmoved⟩
  show q.1.array.slot (q.1.size - 1) = _
  rw [hsize, Nat.add_sub_cancel]

/-- The loop ends at a node, by induction on its rounds. -/
theorem descend_isNode (hread : ∀ ptr, IsNode a n ptr → ∃ node ∈ l, load ptr s = .ok node)
    (hlinked : Linked a n l) : ∀ fuel ptr ptr', IsNode a n ptr →
      descend range fuel ptr s = .ok ptr' → IsNode a n ptr' := by
  intro fuel
  induction fuel with
  | zero =>
    intro ptr ptr' _ h
    cases h
  | succ fuel ih =>
    intro ptr ptr' hptr h
    obtain ⟨node, hnode, hload⟩ := hread ptr hptr
    rw [descend, hload] at h
    simp only [ok_bind] at h
    cases hinner : node.inner with
    | info desc =>
      rw [hinner] at h
      cases h
      exact hptr
    | children less more =>
      obtain ⟨hless, hmore⟩ := hlinked node hnode less more hinner
      rw [hinner] at h
      obtain ⟨lessNode, -, h⟩ := ok_of_bind h
      split at h
      · cases h
        exact hless
      · split at h
        · exact ih _ _ hless h
        · obtain ⟨moreNode, -, h⟩ := ok_of_bind h
          split at h
          · cases h
            exact hmore
          · split at h
            · exact ih _ _ hmore h
            · cases h
              exact hptr

/-- **`insert_node`** puts a parent of the last node and of a node `j` in the place of `j`. -/
theorem insertNode_cases (hst : m.memoryArray.Stored s (l ++ [.leaf range info]))
    (halone : m.memoryArray.array.Alone s) (hhead : IsNode m.memoryArray l.length m.head)
    (hlinked : Linked m.memoryArray l.length l)
    (hok : m.insertNode fuel (m.memoryArray.array.slot l.length) s = .ok (m', s')) :
    ∃ j, ∃ hj : j < l.length, m' = m ∧
      Nodes s' m ((l ++ [Node.leaf range info]).set j
        ((Node.leaf range info).createParentNode (m.memoryArray.array.slot l.length)
          (m.memoryArray.array.slot j) l[j])) := by
  have hlen : (l ++ [Node.leaf range info]).length = l.length + 1 := by
    rw [List.length_append]
    rfl
  have hread : ∀ i (hi : i < l.length), load (m.memoryArray.array.slot i) s = .ok l[i] := by
    intro i hi
    rw [hst.load (i := i) (by omega), List.getElem_append_left hi]
  have hlast : load (m.memoryArray.array.slot l.length) s = .ok (Node.leaf range info) := by
    rw [hst.load (i := l.length) (by omega)]
    exact congrArg Except.ok (List.getElem_concat_length rfl _)
  rw [insertNode, if_neg (hhead.bounds hst (by omega)).1, hlast] at hok
  simp only [ok_bind] at hok
  obtain ⟨ptr, hdesc, hok⟩ := ok_of_bind hok
  obtain ⟨j, hj, rfl⟩ := descend_isNode
    (fun ptr ⟨i, hi, hptr⟩ => ⟨l[i], List.getElem_mem _, hptr ▸ hread i hi⟩) hlinked fuel _ _
    hhead hdesc
  rw [hread j hj] at hok
  simp only [ok_bind] at hok
  obtain ⟨s₁, hstore, hst', hmapped, -⟩ := hst.store (i := j) (by omega)
    ((Node.leaf range info).createParentNode (m.memoryArray.array.slot l.length)
      (m.memoryArray.array.slot j) l[j])
  rw [hstore] at hok
  cases hok
  have hnew : IsNode m.memoryArray (l.length + 1) (m.memoryArray.array.slot l.length) :=
    ⟨l.length, Nat.lt_succ_self _, rfl⟩
  have hlinked' := (hlinked.mono (Nat.le_succ _) rfl).append_leaf range info
  refine ⟨j, hj, rfl, hst', fun seg hseg sg hsg => ?_, ?_, ?_⟩
  · rw [hmapped] at hsg
    exact halone seg hseg sg hsg
  · rw [List.length_set, hlen]
    exact hhead.mono (Nat.le_succ _) rfl
  · rw [List.length_set, hlen]
    exact hlinked'.set_parent hnew ⟨j, Nat.lt_succ_of_lt hj, rfl⟩ hst (Nat.le_of_eq hlen.symm) _ _

/-- **An insertion that returns** did not move the nodes. -/
theorem Nodes.insertRange (h : Nodes s m l)
    (hok : m.insertRange fuel os range info s = .ok (m', s')) :
    ∃ j, ∃ hj : j < l.length, m'.head = m.head ∧
      m'.memoryArray.array = m.memoryArray.array ∧
      Nodes s' m' ((l ++ [Node.leaf range info]).set j
        ((Node.leaf range info).createParentNode (m.memoryArray.array.slot l.length)
          (m.memoryArray.array.slot j) l[j])) := by
  obtain ⟨⟨node, m₁, s₁⟩, hcreate, hok⟩ := ok_of_bind hok
  obtain ⟨hst, halone, hnode, hhead, hmoved⟩ :=
    (createRangeNode_served h.stored h.alone).of_ok hcreate
  simp only at hst halone hnode hhead hmoved hok
  rcases hmoved with harray | hgone
  · rw [hnode] at hok
    obtain ⟨j, hj, rfl, h'⟩ := insertNode_cases hst halone
      (hhead ▸ h.head.mono (Nat.le_refl _) harray) (h.linked.mono (Nat.le_refl _) harray) hok
    rw [harray] at h'
    exact ⟨j, hj, hhead, harray, h'⟩
  · -- the head is in the segment that is gone
    exfalso
    rw [insertNode, hhead, if_neg (h.head.bounds h.stored (Nat.le_refl _)).1] at hok
    obtain ⟨self, -, hok⟩ := ok_of_bind hok
    obtain ⟨ptr, hdesc, -⟩ := ok_of_bind hok
    cases fuel with
    | zero => cases hdesc
    | succ fuel =>
      rw [descend, h.head.read_segv h.stored (Nat.le_refl _) hgone] at hdesc
      cases hdesc

/-! ## Looking up -/

/-- No leaf has the address. -/
def Lacks (address : UInt64) (l : List Node) : Prop :=
  ∀ node ∈ l, ∀ desc, node.inner = .info desc → node.range.contains address = false

/-- A lookup comes from a leaf that has the address, by induction on the rounds. -/
theorem Nodes.findInfo_none (h : Nodes s m l) (hleaf : Lacks address l) :
    ∀ fuel ptr r, IsNode m.memoryArray l.length ptr →
      Node.findInfo address fuel ptr s = .ok r → r = none := by
  intro fuel
  induction fuel with
  | zero =>
    intro ptr r _ hr
    cases hr
  | succ fuel ih =>
    intro ptr r hptr hr
    obtain ⟨node, hnode, hload⟩ := hptr.read h.stored (Nat.le_refl _)
    rw [Node.findInfo, hload] at hr
    simp only [ok_bind] at hr
    split at hr
    next hin =>
      cases hinner : node.inner with
      | info desc =>
        rw [hleaf node hnode desc hinner] at hin
        cases hin
      | children less more =>
        obtain ⟨hless, hmore⟩ := h.linked node hnode less more hinner
        rw [hinner] at hr
        obtain ⟨lessNode, -, hr⟩ := ok_of_bind hr
        split at hr
        · exact ih _ _ hless hr
        · obtain ⟨moreNode, -, hr⟩ := ok_of_bind hr
          split at hr
          · exact ih _ _ hmore hr
          · cases hr
            rfl
    next =>
      cases hr
      rfl

/-- One leaf is looked up at once. -/
theorem getPageInfo_single (h : Nodes s m [Node.leaf range info]) (hinfo : info.desc < usizeSize) :
    m.getPageInfo address 1 s = .ok (if range.contains address then some info else none) := by
  obtain ⟨i, hi, hhead⟩ := h.head
  obtain rfl : i = 0 := Nat.lt_one_iff.mp hi
  have hload := h.stored.load hi
  rw [← hhead] at hload
  have hdesc : (UInt64.ofNat info.desc).toNat = info.desc := by
    rw [UInt64.toNat_ofNat']
    exact Nat.mod_eq_of_lt hinfo
  rw [getPageInfo, if_neg (h.head.bounds h.stored (Nat.le_refl _)).1, Node.findInfo, hload]
  simp only [ok_bind, List.getElem_cons_zero, Node.leaf, hdesc]
  split <;> rfl

end

end PageRangeMapping

/-! ## Sequences of insertions -/

/-- What is inserted. -/
def Insertion.range (cfg : Cfg) (i : Insertion) : RangeInclusive :=
  match i.heap with
  | none => ⟨i.ptr, i.ptr⟩
  | some c => ⟨i.ptr, i.ptr + UInt64.ofNat (cfg.sizeClass c).sbSize - 1⟩

def Insertion.info (i : Insertion) : PageInfo :=
  PageInfo.setPtr (i.desc.getD 0).toNat i.sizeClassIndex

/-- Ranges with addresses in them, none of which is in two. -/
structure DisjointRanges (rs : List RangeInclusive) : Prop where
  inhabited : ∀ r ∈ rs, r.start ≤ r.stop
  disjoint : rs.Pairwise fun r r' => ∀ address, ¬(r.contains address ∧ r'.contains address)

theorem RangeInclusive.not_both {r r' : RangeInclusive} (h : r.stop < r'.start) (address : UInt64) :
    ¬(r.contains address ∧ r'.contains address) := by
  unfold RangeInclusive.contains
  simp only [Bool.and_eq_true, decide_eq_true_eq]
  intro hboth
  exact UInt64.not_le.mpr h (UInt64.le_trans hboth.2.1 hboth.1.2)

/-- The info of the range that has the address. -/
def lookupInfo (cfg : Cfg) (ins : List Insertion) (address : UInt64) : Option PageInfo :=
  (ins.find? fun i => (i.range cfg).contains address).map Insertion.info

namespace PageRangeMapping

/-- A mapping nothing was inserted into. -/
inductive Start : PageRangeMapping → State → Prop
  | new (s : State) : Start new s
  | initWithCapacity {os : Os} {capacity : Nat} {m : PageRangeMapping} {s s' : State} :
      new.initWithCapacity os capacity s = .ok (m, s') → Start m s'

/-- Every lookup ends, with the info that was inserted for the address. -/
def Answers (cfg : Cfg) (ins : List Insertion) (m : PageRangeMapping) (s : State) : Prop :=
  ∀ address, ∃ fuel, m.getPageInfo address fuel s = .ok (lookupInfo cfg ins address)

section
variable {cfg : Cfg} {fuel : Nat} {os : Os} {m m' : PageRangeMapping} {s s' : State}
  {l : List Node} {address : UInt64} {i : Insertion} {ops : List (Os × Insertion)}

/-- The assertion holds of every heap. -/
theorem updatePageMap_eq :
    m.updatePageMap cfg fuel os i s = m.insertRange fuel os (i.range cfg) i.info s := by
  unfold updatePageMap Insertion.range
  cases i.heap with
  | none => rfl
  | some c =>
    have hmask : (cfg.sizeClass c).sbSize &&& pageMask = 0 := by
      by_cases hc : 1 ≤ c ∧ c < maxSzIdx
      · exact (cfg.classSpec hc.1 hc.2).sbSize_mask
      · have hres : cfg.sizeClass c = reservedClass := sizeClass_reserved hc
        rw [hres]
        rfl
    simp only [hmask, ne_eq, not_true_eq_false, if_false]
    rfl

theorem info_lt (i : Insertion) : i.info.desc < usizeSize := by
  unfold Insertion.info PageInfo.setPtr
  have hsc : maxSzIdx ≤ 2 ^ 64 := by decide
  split
  next => exact (by decide : 0 < usizeSize)
  next h =>
    rw [usizeSize_eq]
    exact Nat.or_lt_two_pow (i.desc.getD 0).toNat_lt (by omega)

theorem Start.empty (h : Start m s) :
    m.head = 0 ∧ m.memoryArray.Stored s [] ∧ m.memoryArray.array.Alone s := by
  cases h with
  | new => exact ⟨rfl, (Array.holds_new s).stored, RawArray.alone_new s⟩
  | @initWithCapacity os capacity m s₀ s hinit =>
    obtain ⟨⟨array, s₁⟩, hcap, heq⟩ := ok_of_bind hinit
    cases heq
    obtain ⟨⟨raw, s₂⟩, hres, heq⟩ := ok_of_bind hcap
    cases heq
    refine ⟨rfl, ⟨RawArray.withCapacity_owned hres, rfl, Nat.zero_le _,
      fun i hi => absurd hi (Nat.not_lt_zero i)⟩, ?_⟩
    exact ((RawArray.alone_new s₀).reserve (RawArray.owned_new s₀) (by decide) (Nat.zero_le _)
      hres).1

/-- **The first insertion** makes a leaf. -/
theorem Start.update (h : Start m s) :
    Served (fun q => Nodes q.2 q.1 [Node.leaf (i.range cfg) i.info])
      (m.updatePageMap cfg fuel os i s) := by
  obtain ⟨hhead, hst, halone⟩ := h.empty
  rw [updatePageMap_eq, insertRange]
  refine Post.bind (createRangeNode_served hst halone) fun q hq => ?_
  obtain ⟨node, m₁, s₁⟩ := q
  obtain ⟨hst', halone', hnode, hhead', -⟩ := hq
  simp only at hst' halone' hnode hhead'
  simp only
  rw [insertNode, if_pos (hhead'.trans hhead)]
  refine ⟨hst', halone', ⟨0, Nat.zero_lt_one, hnode⟩, fun x hx less more hin => ?_⟩
  obtain rfl := List.mem_singleton.mp hx
  cases hin

/-- There is no tree to descend yet. -/
theorem Start.update_fuel (h : Start m s) (fuel : Nat) :
    m.updatePageMap cfg fuel os i s = m.updatePageMap cfg 0 os i s := by
  rw [updatePageMap_eq, updatePageMap_eq, insertRange, insertRange]
  cases hcreate : m.createRangeNode os (i.range cfg) i.info s with
  | error e => rfl
  | ok q =>
    obtain ⟨node, m₁, s₁⟩ := q
    obtain ⟨hhead, hst, halone⟩ := h.empty
    obtain ⟨-, -, -, hhead', -⟩ := (createRangeNode_served hst halone).of_ok hcreate
    simp only [ok_bind]
    rw [insertNode, insertNode, if_pos (hhead'.trans hhead), if_pos (hhead'.trans hhead)]

/-- A parent in the place of a node takes at most a leaf away. -/
theorem Lacks.set {j : Nat} (h : Lacks address l) (ptr otherPtr : Nat) (self other : Node) :
    Lacks address (l.set j (self.createParentNode ptr otherPtr other)) := by
  intro node hnode desc hin
  rcases List.mem_or_eq_of_mem_set hnode with hnode | rfl
  · exact h node hnode desc hin
  · exact absurd hin Node.createParentNode_ne_info

/-- An insertion somewhere else does not bring the address back, -/
theorem Nodes.lacks_update (h : Nodes s m l) (hl : Lacks address l)
    (hi : (i.range cfg).contains address = false)
    (hok : m.updatePageMap cfg fuel os i s = .ok (m', s')) :
    ∃ l', Nodes s' m' l' ∧ Lacks address l' := by
  rw [updatePageMap_eq] at hok
  obtain ⟨j, hj, -, -, h'⟩ := h.insertRange hok
  refine ⟨_, h', Lacks.set (fun node hnode desc hin => ?_) _ _ _ _⟩
  rcases List.mem_append.mp hnode with hnode | hnode
  · exact hl node hnode desc hin
  · obtain rfl := List.mem_singleton.mp hnode
    exact hi

/-- and neither do any number of them. -/
theorem Nodes.lacks_updates : ∀ (ops : List (Os × Insertion)) {m : PageRangeMapping} {s : State}
    {l : List Node}, Nodes s m l → Lacks address l →
      (∀ o ∈ ops, (o.2.range cfg).contains address = false) →
      m.updates cfg fuel ops s = .ok (m', s') → ∃ l', Nodes s' m' l' ∧ Lacks address l' := by
  intro ops
  induction ops with
  | nil =>
    intro m s l h hl _ hok
    cases hok
    exact ⟨l, h, hl⟩
  | cons o ops ih =>
    intro m s l h hl hops hok
    obtain ⟨⟨m₁, s₁⟩, hstep, hok⟩ := ok_of_bind hok
    obtain ⟨l₁, h₁, hl₁⟩ := h.lacks_update hl (hops o (List.mem_cons_self ..)) hstep
    exact ih h₁ hl₁ (fun o' ho' => hops o' (List.mem_cons_of_mem _ ho')) hok

/-- **The second insertion** puts the parent in the place of the only leaf. -/
theorem Nodes.second {range : RangeInclusive} {info : PageInfo}
    (h : Nodes s m [Node.leaf range info])
    (hok : m.updatePageMap cfg fuel os i s = .ok (m', s')) :
    m'.head = m'.memoryArray.array.slot 0 ∧
      Nodes s' m' [(Node.leaf (i.range cfg) i.info).createParentNode
          (m'.memoryArray.array.slot 1) (m'.memoryArray.array.slot 0) (Node.leaf range info),
        Node.leaf (i.range cfg) i.info] := by
  rw [updatePageMap_eq] at hok
  obtain ⟨j, hj, hhead, harray, h'⟩ := h.insertRange hok
  obtain rfl : j = 0 := Nat.lt_one_iff.mp hj
  obtain ⟨k, hk, hslot⟩ := h.head
  obtain rfl : k = 0 := Nat.lt_one_iff.mp hk
  rw [hhead, hslot, harray]
  exact ⟨rfl, h'⟩

/-- The leaf that was there is gone. -/
theorem Nodes.second_lacks {range : RangeInclusive} {info : PageInfo}
    (h : Nodes s m [Node.leaf range info])
    (hi : (i.range cfg).contains address = false)
    (hok : m.updatePageMap cfg fuel os i s = .ok (m', s')) :
    ∃ l, Nodes s' m' l ∧ Lacks address l := by
  obtain ⟨-, h'⟩ := h.second hok
  refine ⟨_, h', fun node hnode desc hinner => ?_⟩
  rcases List.mem_cons.mp hnode with rfl | hnode
  · exact absurd hinner Node.createParentNode_ne_info
  · obtain rfl := List.mem_singleton.mp hnode
    exact hi

/-- An address of one of the two is in the range of the parent. -/
theorem contains_parent {ptr otherPtr : Nat} {self other : Node}
    (h : other.range.contains address = true) :
    (self.createParentNode ptr otherPtr other).range.contains address = true := by
  unfold RangeInclusive.contains at *
  rw [Bool.and_eq_true, decide_eq_true_eq, decide_eq_true_eq] at *
  have hmax : ∀ a b : UInt64, b ≤ max a b := by
    intro a b
    rw [show max a b = if a ≤ b then b else a from rfl]
    split
    next => exact UInt64.le_refl b
    next hlt => exact UInt64.le_of_lt (UInt64.not_le.mp hlt)
  exact ⟨UInt64.le_trans Std.min_le_right h.1, UInt64.le_trans h.2 (hmax _ _)⟩

/-- **After two insertions** the lookup of an address in the first range goes from the head
to the head, however many rounds it is given. -/
theorem Nodes.second_loops {range : RangeInclusive} {info : PageInfo}
    (h : Nodes s m [Node.leaf range info])
    (hok : m.updatePageMap cfg fuel os i s = .ok (m', s'))
    (hin : range.contains address = true) (hout : (i.range cfg).contains address = false)
    (rounds : Nat) : m'.getPageInfo address rounds s' = .error .fuel := by
  obtain ⟨hhead, h'⟩ := h.second hok
  have hload₀ := h'.stored.load (i := 0) Nat.zero_lt_two
  have hload₁ := h'.stored.load (i := 1) Nat.one_lt_two
  have hnode₀ : IsNode m'.memoryArray 2 (m'.memoryArray.array.slot 0) := ⟨0, Nat.zero_lt_two, rfl⟩
  have hnode₁ : IsNode m'.memoryArray 2 (m'.memoryArray.array.slot 1) := ⟨1, Nat.one_lt_two, rfl⟩
  obtain ⟨hne, hword₀⟩ := hnode₀.bounds h'.stored (Nat.le_refl _)
  have hword₁ := (hnode₁.bounds h'.stored (Nat.le_refl _)).2
  rw [List.getElem_cons_zero] at hload₀
  rw [List.getElem_cons_succ, List.getElem_cons_zero] at hload₁
  rw [getPageInfo, if_neg (hhead ▸ hne), hhead]
  induction rounds with
  | zero => rfl
  | succ rounds ih =>
    rw [Node.findInfo, hload₀]
    simp only [ok_bind]
    rw [if_pos (contains_parent hin), Node.createParentNode_inner]
    rw [Node.leaf_range, Node.leaf_range]
    by_cases hlt : (i.range cfg).stop < range.start
    · -- the new range is the lower one and does not have the address
      rw [if_pos hlt]
      simp only
      rw [hword₁, hload₁]
      simp only [ok_bind, Node.leaf_range, hout, Bool.false_eq_true, if_false]
      rw [hword₀, hload₀]
      simp only [ok_bind]
      rw [if_pos (contains_parent hin)]
      exact ih
    · rw [if_neg hlt]
      simp only
      rw [hword₀, hload₀]
      simp only [ok_bind]
      rw [if_pos (contains_parent hin)]
      exact ih

/-- Without insertions every lookup ends at once. -/
theorem Start.answers (h : Start m s) : m.Answers cfg [] s := by
  intro address
  refine ⟨0, ?_⟩
  rw [getPageInfo, if_pos h.empty.1]
  rfl

/-- And after one. -/
theorem Nodes.answers (h : Nodes s m [Node.leaf (i.range cfg) i.info]) : m.Answers cfg [i] s := by
  intro address
  refine ⟨1, ?_⟩
  rw [getPageInfo_single h (info_lt i), lookupInfo, List.find?_singleton]
  split <;> rfl

/-- **After two or more** the first range is lost. -/
theorem Start.not_answers {o o' : Os × Insertion} (h : Start m s)
    (hr : DisjointRanges ((o :: o' :: ops).map fun o => o.2.range cfg))
    (hok : m.updates cfg fuel (o :: o' :: ops) s = .ok (m', s')) :
    ¬m'.Answers cfg ((o :: o' :: ops).map Prod.snd) s' := by
  intro hans
  have hin : (o.2.range cfg).contains (o.2.range cfg).start = true := by
    rw [RangeInclusive.contains, Bool.and_eq_true, decide_eq_true_eq, decide_eq_true_eq]
    exact ⟨UInt64.le_refl _, hr.inhabited _ (List.mem_cons_self ..)⟩
  -- the other ranges do not have the address
  have hout : ∀ o₁ ∈ o' :: ops, (o₁.2.range cfg).contains (o.2.range cfg).start = false := by
    intro o₁ ho₁
    rw [← Bool.not_eq_true]
    intro hin₁
    exact (List.pairwise_cons.mp hr.disjoint).1 _ (List.mem_map_of_mem ho₁) _ ⟨hin, hin₁⟩
  obtain ⟨⟨m₁, s₁⟩, hfirst, hok⟩ := ok_of_bind hok
  obtain ⟨⟨m₂, s₂⟩, hsecond, hok⟩ := ok_of_bind hok
  have h₁ : Nodes s₁ m₁ [Node.leaf (o.2.range cfg) o.2.info] := h.update.of_ok hfirst
  obtain ⟨l₂, h₂, hl₂⟩ := h₁.second_lacks (hout o' (List.mem_cons_self ..)) hsecond
  obtain ⟨l, h', hl⟩ := h₂.lacks_updates ops hl₂
    (fun o₁ ho₁ => hout o₁ (List.mem_cons_of_mem _ ho₁)) hok
  obtain ⟨rounds, hlookup⟩ := hans (o.2.range cfg).start
  rw [getPageInfo, if_neg (h'.head.bounds h'.stored (Nat.le_refl _)).1] at hlookup
  have hnone := h'.findInfo_none hl rounds _ _ h'.head hlookup
  rw [lookupInfo, List.map_cons, List.find?_cons] at hnone
  simp only [hin] at hnone
  cases hnone

end

end PageRangeMapping

/-- **The mapping answers** exactly if at most one range was inserted. This is for every new
mapping, with a capacity or without, every sequence of disjoint ranges in any order and
every kernel that refuses nothing: with two ranges or more, an insertion faults or does
not return, or the addresses of the first range are not found any more. -/
theorem page_range_mapping_iff {cfg : Cfg} {m : PageRangeMapping} {s : State}
    {ops : List (Os × Insertion)} (h : m.Start s)
    (hr : DisjointRanges (ops.map fun o => o.2.range cfg))
    (hgrant : ∀ fuel len, m.updates cfg fuel ops s ≠ .error (.refused len)) :
    (∃ fuel m' s', m.updates cfg fuel ops s = .ok (m', s') ∧
      m'.Answers cfg (ops.map Prod.snd) s') ↔ ops.length ≤ 1 := by
  constructor
  · rintro ⟨fuel, m', s', hok, hans⟩
    match ops, hr, hok, hans with
    | [], _, _, _ => exact Nat.zero_le 1
    | [_], _, _, _ => exact Nat.le_refl 1
    | o :: o' :: ops, hr, hok, hans => exact absurd hans (h.not_answers hr hok)
  · intro hlen
    match ops, hlen, hgrant with
    | [], _, _ => exact ⟨0, m, s, rfl, h.answers⟩
    | [(os, i)], _, hgrant =>
      have hserved : Served (fun q => PageRangeMapping.Nodes q.2 q.1
          [Node.leaf (i.range cfg) i.info]) (m.updatePageMap cfg 0 os i s) :=
        h.update
      have hrun : m.updates cfg 0 [(os, i)] s = m.updatePageMap cfg 0 os i s := by
        rw [PageRangeMapping.updates]
        cases m.updatePageMap cfg 0 os i s <;> rfl
      cases hup : m.updatePageMap cfg 0 os i s with
      | error e =>
        rw [hup] at hserved
        cases e with
        | refused len => exact absurd (hrun.trans hup) (hgrant 0 len)
        | _ => exact absurd hserved id
      | ok q => exact ⟨0, q.1, q.2, hrun.trans hup, (hserved.of_ok hup).answers⟩

/-- One range. -/
theorem page_range_mapping_one :
    ∃ fuel m s, PageRangeMapping.new.updates Cfg.default fuel
        [(Os.bump, ⟨some 1, 4096, some 16384, 0⟩)] startState = .ok (m, s) ∧
      m.Answers Cfg.default [⟨some 1, 4096, some 16384, 0⟩] s := by
  have hstart : PageRangeMapping.new.Start startState := .new _
  have hrun : (PageRangeMapping.new.updates Cfg.default 0
      [(Os.bump, ⟨some 1, 4096, some 16384, 0⟩)] startState).toOption.isSome = true := by
    decide +kernel
  obtain ⟨q, hq⟩ := ok_of_isSome hrun
  refine (page_range_mapping_iff hstart ⟨by decide +kernel, List.pairwise_singleton _ _⟩
    fun fuel len hres => ?_).mpr (Nat.le_refl 1)
  have hfuel : PageRangeMapping.new.updates Cfg.default fuel
      [(Os.bump, ⟨some 1, 4096, some 16384, 0⟩)] startState = .ok q := by
    rw [← hq, PageRangeMapping.updates, PageRangeMapping.updates, hstart.update_fuel fuel]
    rfl
  rw [hfuel] at hres
  cases hres

/-- The pages 1 and 2, one after the other. -/
theorem page_range_mapping_loops :
    ∃ (m m' : PageRangeMapping) (s s' : State), m.Start s ∧
      DisjointRanges ([⟨none, 4096, some 16384, 0⟩, ⟨none, 8192, some 32768, 0⟩].map
        (Insertion.range Cfg.default)) ∧
      m.updates Cfg.default 1 [(Os.bump, ⟨none, 4096, some 16384, 0⟩),
        (Os.bump, ⟨none, 8192, some 32768, 0⟩)] s = .ok (m', s') ∧
      (∀ fuel, m'.getPageInfo 4096 fuel s' = .error .fuel) ∧
      ¬m'.Answers Cfg.default [⟨none, 4096, some 16384, 0⟩, ⟨none, 8192, some 32768, 0⟩] s' := by
  have hrun : (do
      let (m, s) ← PageRangeMapping.new.initWithCapacity Os.bump 4 startState
      m.updates Cfg.default 1 [(Os.bump, ⟨none, 4096, some 16384, 0⟩),
        (Os.bump, ⟨none, 8192, some 32768, 0⟩)] s).toOption.isSome = true := by
    decide +kernel
  obtain ⟨⟨m', s'⟩, hrun⟩ := ok_of_isSome hrun
  obtain ⟨⟨m, s⟩, hinit, hrun⟩ := ok_of_bind hrun
  have hstart : m.Start s := .initWithCapacity hinit
  obtain ⟨⟨m₁, s₁⟩, hfirst, hsecond⟩ := ok_of_bind hrun
  obtain ⟨⟨m₂, s₂⟩, hsecond, heq⟩ := ok_of_bind hsecond
  cases heq
  have hnodes := hstart.update.of_ok hfirst
  have hloops : ∀ fuel, m'.getPageInfo 4096 fuel s' = .error .fuel :=
    hnodes.second_loops hsecond (by decide) (by decide)
  refine ⟨m, m', s, s', hstart, ⟨by decide, ?_⟩, hrun, hloops, fun hans => ?_⟩
  · exact List.pairwise_pair.mpr (RangeInclusive.not_both (by decide))
  · obtain ⟨fuel, hfuel⟩ := hans 4096
    rw [hloops fuel] at hfuel
    cases hfuel

end Apfmalloc
