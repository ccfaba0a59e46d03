import Apfmalloc.Base.Assoc
import Apfmalloc.MemInfo

/-!
# `hash_map.rs`: the allocator's own hash map

A table of chains, each an `Array` of buckets, with `get_hash` of a key modulo the
number of chains as its index. An `Array` is a list here: what it holds, without
the segment it keeps it in. `K` has an equality and a hash that need not be the
structural ones, only consistent with each other.

When a map grows is decided by the ratio of two counters as a float. The decision
enters each insert as a parameter, so that what is proved holds for every one. A
panic is `none`. A reference into the map is a `Slot`, the place it points to.
-/

namespace Apfmalloc

open Base

/-! ## `Array::remove` -/

/-- `for _ in 0..n { saved.push(self.pop().unwrap()) }` -/
def popInto {α : Type} : Nat → List α × List α → Option (List α × List α)
  | 0, st => some st
  | n + 1, (a, saved) => do
    let x ← a.getLast?
    popInto n (a.dropLast, saved ++ [x])

/-- `Array::remove`: the elements above `index` are popped, and pushed again in
the order they had. -/
def arrayRemove {α : Type} (a : List α) (index : Nat) : Option (Option α × List α) :=
  if index ≥ a.length then some (none, a)
  else do
    let (a, saved) ← popInto (a.length - index - 1) (a, [])
    some (a.getLast?, a.dropLast ++ saved.reverse)

/-! ## The map -/

structure Bucket (K V : Type) where
  hash : Nat
  key : K
  value : V
  deriving Repr

structure HashMap (K V : Type) where
  buckets : List (List (Bucket K V))
  containersUsed : Nat
  len : Nat

/-- Where a `&mut V` into the map points. -/
structure Slot where
  bucket : Nat
  index : Nat
  deriving DecidableEq, Repr

namespace HashMap

def withCapacity {K V : Type} (capacity : Nat) : HashMap K V :=
  ⟨List.replicate capacity [], 0, 0⟩

def new {K V : Type} : HashMap K V := withCapacity 1001

def isEmpty {K V : Type} (m : HashMap K V) : Bool := m.len == 0

variable {K V : Type} [BEq K] [Hashable K]

def getRehash (key : K) (newCapacity : Nat) : Nat := (hash key).toNat % newCapacity

/-- A table without chains panics at the division in the source, and at the
index into the table here. -/
def getHash (m : HashMap K V) (key : K) : Nat := getRehash key m.buckets.length

/-- One bucket of the old table goes to its chain in the new one. -/
def rehome (newCapacity : Nat) (st : List (List (Bucket K V)) × Nat) (bucket : Bucket K V) :
    Option (List (List (Bucket K V)) × Nat) := do
  let newHash := getRehash bucket.key newCapacity
  let array ← st.1[newHash]?
  let used := if array.isEmpty then st.2 + 1 else st.2
  some (st.1.set newHash (array ++ [{ bucket with hash := newHash }]), used)

def grow (m : HashMap K V) : Option (HashMap K V) := do
  let newCapacity := m.buckets.length * 2 + 1
  let (buckets, used) ←
    m.buckets.flatten.foldlM (rehome newCapacity) (List.replicate newCapacity [], 0)
  some { m with buckets := buckets, containersUsed := used }

/-- `for (index, bucket) in … { if bucket.key.eq(&key) { old_index = Some(index) } }` -/
def oldIndex (key : K) : List (Bucket K V) → Nat → Option Nat → Option Nat
  | [], _, old => old
  | b :: bs, index, old => oldIndex key bs (index + 1) (if b.key == key then some index else old)

/-- The previous value, and the key as the map has it. -/
def insertKeepKey (grows : Bool) (key : K) (value : V) (m : HashMap K V) :
    Option ((Option V × K) × HashMap K V) := do
  let m ← if grows then m.grow else some m
  let hash := m.getHash key
  let buckets ← m.buckets[hash]?
  let used := if buckets.length = 0 then m.containersUsed + 1 else m.containersUsed
  -- also when the key is there already, and its value is only overwritten
  let len := (m.len + 1) % usizeSize
  match oldIndex key buckets 0 none with
  | none =>
    some ((none, key), ⟨m.buckets.set hash (buckets ++ [⟨hash, key, value⟩]), used, len⟩)
  | some index => do
    let bucket ← buckets[index]?
    some ((some bucket.value, bucket.key),
      ⟨m.buckets.set hash (buckets.set index { bucket with value := value }), used, len⟩)

def insert (grows : Bool) (key : K) (value : V) (m : HashMap K V) :
    Option (Option V × HashMap K V) := do
  let ((ret, _), m) ← m.insertKeepKey grows key value
  some (ret, m)

def replace (key : K) (value : V) (m : HashMap K V) :
    Option (Except Unit V × HashMap K V) := do
  let hash := m.getHash key
  let buckets ← m.buckets[hash]?
  match oldIndex key buckets 0 none with
  | none => some (.error (), m)
  | some index => do
    let bucket ← buckets[index]?
    some (.ok bucket.value,
      { m with buckets := m.buckets.set hash (buckets.set index { bucket with value := value }) })

def get (m : HashMap K V) (key : K) : Option (Option V) := do
  let buckets ← m.buckets[m.getHash key]?
  some ((buckets.find? fun bucket => bucket.key == key).map Bucket.value)

def contains (m : HashMap K V) (key : K) : Option Bool := do
  let buckets ← m.buckets[m.getHash key]?
  some (buckets.any fun bucket => bucket.key == key)

/-- The first bucket with the key in the chain of the key. -/
def findSlot (m : HashMap K V) (key : K) : Option (Option Slot) := do
  let hash := m.getHash key
  let buckets ← m.buckets[hash]?
  some ((buckets.findIdx? fun bucket => bucket.key == key).map fun index => ⟨hash, index⟩)

def getMut (m : HashMap K V) (key : K) : Option (Option Slot) := m.findSlot key

/-- `HashMapEntry::get_from_map`; `none` inside is `NotPresent`. -/
def getFromMap (m : HashMap K V) (key : K) : Option (Option Slot) := m.findSlot key

def remove (key : K) (m : HashMap K V) : Option (Option V × HashMap K V) := do
  let hash := m.getHash key
  let buckets ← m.buckets[hash]?
  -- also when there is nothing to remove
  let len := (m.len + usizeSize - 1) % usizeSize
  match oldIndex key buckets 0 none with
  | none => some (none, { m with len := len })
  | some index => do
    let (bucket, buckets) ← arrayRemove buckets index
    let bucket ← bucket
    some (some bucket.value, { m with buckets := m.buckets.set hash buckets, len := len })

/-- Reading through a `&mut V`. -/
def read (m : HashMap K V) (slot : Slot) : Option V := do
  let buckets ← m.buckets[slot.bucket]?
  let bucket ← buckets[slot.index]?
  some bucket.value

/-- Writing through a `&mut V`. -/
def write (slot : Slot) (value : V) (m : HashMap K V) : Option (HashMap K V) := do
  let buckets ← m.buckets[slot.bucket]?
  let bucket ← buckets[slot.index]?
  some { m with buckets := m.buckets.set slot.bucket
                  (buckets.set slot.index { bucket with value := value }) }

/-- `entry(key).or_insert(value)`. -/
def orInsert (grows : Bool) (key : K) (value : V) (m : HashMap K V) :
    Option (Slot × HashMap K V) := do
  match ← m.getFromMap key with
  | some slot => some (slot, m)
  | none => do
    let ((_, key), m) ← m.insertKeepKey grows key value
    let slot ← m.getMut key
    let slot ← slot
    some (slot, m)

end HashMap

/-! ## What the loops compute -/

theorem popInto_append {α : Type} (a : List α) : ∀ (n : Nat) (post saved : List α),
    post.length = n → popInto n (a ++ post, saved) = some (a, saved ++ post.reverse) := by
  intro n
  induction n with
  | zero =>
    intro post saved hlen
    rw [List.length_eq_zero_iff.mp hlen, popInto, List.append_nil, List.reverse_nil,
      List.append_nil]
  | succ n ih =>
    intro post saved hlen
    -- the array is popped from its end
    rcases List.eq_nil_or_concat post with rfl | ⟨post', y, rfl⟩
    · cases hlen
    · rw [List.concat_eq_append] at hlen ⊢
      rw [List.length_append, List.length_singleton] at hlen
      rw [popInto, ← List.append_assoc, List.getLast?_concat, List.dropLast_concat]
      change popInto n (a ++ post', saved ++ [y]) = _
      rw [ih post' (saved ++ [y]) (by omega), List.reverse_append, List.append_assoc]
      rfl

/-- **`Array::remove`** takes out the element and keeps the order of the others. -/
theorem arrayRemove_eq {α : Type} (pre post : List α) (x : α) :
    arrayRemove (pre ++ x :: post) pre.length = some (some x, pre ++ post) := by
  have hlen : (pre ++ x :: post).length = pre.length + post.length + 1 := by
    rw [List.length_append, List.length_cons]
    omega
  rw [arrayRemove, if_neg (by omega), hlen]
  have hpop := popInto_append (pre ++ [x]) (pre.length + post.length + 1 - pre.length - 1) post []
    (by omega)
  rw [List.append_assoc, List.singleton_append] at hpop
  rw [hpop]
  simp only [Option.bind_eq_bind, Option.bind_some, List.getLast?_concat, List.dropLast_concat,
    List.nil_append, List.reverse_reverse]

namespace HashMap

variable {K V : Type} [BEq K]

theorem oldIndex_noKey {k : K} : ∀ {c : List (Bucket K V)} (i : Nat) (old : Option Nat),
    NoKey Bucket.key k c → oldIndex k c i old = old := by
  intro c
  induction c with
  | nil => intro _ _ _; rfl
  | cons b c ih =>
    intro i old h
    rw [oldIndex, h b (List.mem_cons_self ..), ih _ _ fun a ha => h a (List.mem_cons_of_mem _ ha)]
    rfl

theorem oldIndex_append {k : K} (post : List (Bucket K V)) :
    ∀ {pre : List (Bucket K V)} (i : Nat) (old : Option Nat), NoKey Bucket.key k pre →
      oldIndex k (pre ++ post) i old = oldIndex k post (i + pre.length) old := by
  intro pre
  induction pre with
  | nil => intro i old _; rfl
  | cons b pre ih =>
    intro i old h
    rw [List.cons_append, oldIndex, h b (List.mem_cons_self ..),
      ih _ _ fun a ha => h a (List.mem_cons_of_mem _ ha), List.length_cons, Nat.add_assoc,
      Nat.add_comm 1]
    rfl

/-- With one bucket of the key, its last index is its first. -/
theorem oldIndex_found {k : K} {c pre post : List (Bucket K V)} {b : Bucket K V}
    (h : Found Bucket.key k c pre b post) : oldIndex k c 0 none = some pre.length := by
  rw [h.eq, oldIndex_append _ _ _ h.pre, oldIndex, h.hit, oldIndex_noKey _ _ h.post,
    Nat.zero_add]
  rfl

theorem findIdx?_found {k : K} {c pre post : List (Bucket K V)} {b : Bucket K V}
    (h : Found Bucket.key k c pre b post) :
    (c.findIdx? fun b => b.key == k) = some pre.length := by
  have hpre : (pre.findIdx? fun b => b.key == k) = none :=
    List.findIdx?_eq_none_iff.mpr h.pre
  rw [h.eq, List.findIdx?_append, hpre, List.findIdx?_cons, h.hit]
  simp

/-! ## Well-formed maps -/

/-- All buckets of the map. -/
def entries (m : HashMap K V) : List (Bucket K V) := m.buckets.flatten

/-- The value under a key. -/
def lookup (m : HashMap K V) (k : K) : Option V := (findKey Bucket.key k m.entries).map Bucket.value

/-- The number of chains that are not empty. -/
def chainsUsed (m : HashMap K V) : Nat := m.buckets.countP fun c => !c.isEmpty

/-- Equal keys have the same value. -/
theorem lookup_congr [EquivBEq K] (m : HashMap K V) {k k' : K} (hk : (k == k') = true) :
    m.lookup k = m.lookup k' := by
  rw [lookup, findKey]
  simp only [BEq.congr_right hk]
  rfl

variable [Hashable K]

/-- The chain of a key. -/
def chain (m : HashMap K V) (k : K) : List (Bucket K V) := m.buckets.getD (m.getHash k) []

structure Wf (m : HashMap K V) : Prop where
  pos : 0 < m.buckets.length
  table : TableOk Bucket.key (fun k => getRehash k m.buckets.length) m.buckets

section Specs

variable {m : HashMap K V}

theorem Wf.chain_eq (h : m.Wf) (k : K) : m.buckets[m.getHash k]? = some (m.chain k) := by
  have hlt : m.getHash k < m.buckets.length := Nat.mod_lt _ h.pos
  rw [chain, List.getD_eq_getElem?_getD, List.getElem?_eq_getElem hlt, Option.getD_some]

theorem Wf.chain_distinct (h : m.Wf) (k : K) : Distinct Bucket.key (m.chain k) :=
  h.table.distinct _ (List.mem_of_getElem? (h.chain_eq k))

theorem Wf.chain_home (h : m.Wf) {k : K} {b : Bucket K V} (hb : b ∈ m.chain k) :
    getRehash b.key m.buckets.length = m.getHash k :=
  h.table.home _ _ (h.chain_eq k) b hb

/-- What a map is after the chain of `k` became `c`. -/
structure Rechained (m m' : HashMap K V) (k : K) (c : List (Bucket K V)) (x : Option V) :
    Prop where
  wf : m'.Wf
  lookup : ∀ k', m'.lookup k' = if k == k' then x else m.lookup k'
  size : m'.entries.length + (m.chain k).length = m.entries.length + c.length
  used : m'.chainsUsed + (if (m.chain k).isEmpty then 0 else 1) =
    m.chainsUsed + if c.isEmpty then 0 else 1

/-- What a map is after `v` went under `k`. -/
structure Stored (m m' : HashMap K V) (k : K) (v : V) : Prop where
  wf : m'.Wf
  lookup : ∀ k', m'.lookup k' = if k == k' then some v else m.lookup k'
  size : m'.entries.length = m.entries.length + if (m.lookup k).isSome then 0 else 1
  used : m.containersUsed = m.chainsUsed → m'.containersUsed = m'.chainsUsed

theorem Rechained.stored_new {m' : HashMap K V} {k : K} {v : V} {b : Bucket K V}
    (h : Rechained m m' k (m.chain k ++ [b]) (some v)) (hno : m.lookup k = none)
    (hused : m'.containersUsed =
      if (m.chain k).length = 0 then m.containersUsed + 1 else m.containersUsed) :
    Stored m m' k v := by
  refine ⟨h.wf, h.lookup, ?_, fun he => ?_⟩
  · have := h.size
    rw [List.length_append, List.length_singleton] at this
    rw [hno]
    simp only [Option.isSome_none, Bool.false_eq_true, if_false]
    omega
  · have := h.used
    rw [hused, he]
    cases hc : m.chain k with
    | nil => simp [hc] at this ⊢; omega
    | cons b c => simp [hc] at this ⊢; omega

theorem Rechained.stored_old {m' : HashMap K V} {k : K} {v : V} {i : Nat} {b : Bucket K V}
    (h : Rechained m m' k ((m.chain k).set i b) (some v)) (hsome : (m.lookup k).isSome = true)
    (hpos : 0 < (m.chain k).length) (hused : m'.containersUsed = m.containersUsed) :
    Stored m m' k v := by
  refine ⟨h.wf, h.lookup, ?_, fun he => ?_⟩
  · have := h.size
    rw [List.length_set] at this
    rw [hsome]
    simp only [if_true]
    omega
  · have := h.used
    have h1 : (m.chain k).isEmpty = false := List.isEmpty_eq_false_iff.mpr (by
      intro hnil; rw [hnil] at hpos; exact absurd hpos (Nat.lt_irrefl 0))
    have h2 : ((m.chain k).set i b).isEmpty = false := by
      rw [← Bool.not_eq_true, List.isEmpty_iff_length_eq_zero, List.length_set]
      omega
    rw [h1, h2] at this
    rw [hused, he]
    omega

/-- What a map is after it grew. -/
structure Grown (m m' : HashMap K V) : Prop where
  wf : m'.Wf
  lookup : ∀ k, m'.lookup k = m.lookup k
  len : m'.len = m.len
  size : m'.entries.length = m.entries.length
  used : m'.containersUsed = m'.chainsUsed

theorem Grown.stored {m₁ m' : HashMap K V} {k : K} {v : V} (hg : Grown m m₁)
    (hs : Stored m₁ m' k v) : Stored m m' k v := by
  refine ⟨hs.wf, fun k' => ?_, ?_, fun _ => hs.used hg.used⟩
  · rw [hs.lookup, hg.lookup]
  · rw [hs.size, hg.size, hg.lookup]

variable [EquivBEq K] [LawfulHashable K]

omit [EquivBEq K] in
theorem getRehash_congr (n : Nat) {k k' : K} (h : (k == k') = true) :
    getRehash k n = getRehash k' n := by
  rw [getRehash, getRehash, hash_eq h]

/-- The value under a key is the one in its chain. -/
theorem Wf.lookup_eq (h : m.Wf) (k : K) :
    m.lookup k = (findKey Bucket.key k (m.chain k)).map Bucket.value := by
  rw [lookup, entries, h.table.findKey_flatten (fun _ _ => getRehash_congr _) (h.chain_eq k)]

theorem Wf.get (h : m.Wf) (k : K) : m.get k = some (m.lookup k) := by
  rw [HashMap.get, h.chain_eq, h.lookup_eq]
  rfl

theorem Wf.contains (h : m.Wf) (k : K) : m.contains k = some (m.lookup k).isSome := by
  rw [HashMap.contains, h.chain_eq, h.lookup_eq, Option.isSome_map, findKey,
    List.isSome_find?]
  rfl

/-- The chain of a key holds one bucket of the key, or none. -/
theorem Wf.cases (h : m.Wf) (k : K) :
    (NoKey Bucket.key k (m.chain k) ∧ m.lookup k = none) ∨
      ∃ pre b post, Found Bucket.key k (m.chain k) pre b post ∧ m.lookup k = some b.value := by
  rw [h.lookup_eq]
  rcases (h.chain_distinct k).cases k with hno | ⟨pre, b, post, hf⟩
  · exact Or.inl ⟨hno, by rw [hno.findKey]; rfl⟩
  · exact Or.inr ⟨pre, b, post, hf, by rw [hf.findKey]; rfl⟩

/-- A change of the chain of `k` that only touches what is under `k`. -/
theorem Wf.rechain (h : m.Wf) {k : K} {c : List (Bucket K V)} {x : Option (Bucket K V)}
    (hhome : ∀ b ∈ c, (b.key == k) = true ∨ b ∈ m.chain k) (hd : Distinct Bucket.key c)
    (hfind : ∀ k', findKey Bucket.key k' c =
      if k == k' then x else findKey Bucket.key k' (m.chain k)) (used len : Nat) :
    Rechained m ⟨m.buckets.set (m.getHash k) c, used, len⟩ k c (x.map Bucket.value) := by
  have hlt : m.getHash k < m.buckets.length := Nat.mod_lt _ h.pos
  have hlen : (m.buckets.set (m.getHash k) c).length = m.buckets.length := List.length_set ..
  have hwf : Wf (⟨m.buckets.set (m.getHash k) c, used, len⟩ : HashMap K V) := by
    refine ⟨by rw [hlen]; exact h.pos, ?_⟩
    simp only [hlen]
    refine h.table.set (fun b hb => ?_) hd
    rcases hhome b hb with hk | hb
    · exact getRehash_congr _ hk
    · exact h.chain_home hb
  refine ⟨hwf, fun k' => ?_, length_flatten_set (h.chain_eq k) c, ?_⟩
  · have hchain : chain (⟨m.buckets.set (m.getHash k) c, used, len⟩ : HashMap K V) k' =
        if m.getHash k = m.getHash k' then c else m.chain k' := by
      have hh : getHash (⟨m.buckets.set (m.getHash k) c, used, len⟩ : HashMap K V) k' =
          m.getHash k' := by rw [getHash, hlen]; rfl
      rw [chain, hh, List.getD_eq_getElem?_getD, chain_set hlt]
      split
      · rfl
      · rw [← List.getD_eq_getElem?_getD]
        rfl
    rw [hwf.lookup_eq, hchain, h.lookup_eq]
    -- keys of the same chain see the new chain, and equal keys are in the same chain
    by_cases hidx : m.getHash k = m.getHash k'
    · have hsame : m.chain k = m.chain k' := by rw [chain, hidx]; rfl
      rw [if_pos hidx, hfind, hsame]
      split <;> rfl
    · have hne : ¬(k == k') = true := fun hk => hidx (getRehash_congr _ hk)
      rw [if_neg hidx, if_neg hne]
  · have := countP_set_chain (fun c => !c.isEmpty) (h.chain_eq k) c
    simp only [chainsUsed]
    cases hc : (m.chain k).isEmpty <;> cases hc' : c.isEmpty <;>
      simp only [hc, hc', Bool.not_true, Bool.not_false, if_true, if_false,
        Bool.false_eq_true] at this ⊢ <;> omega

/-! ## The operations -/

/-- The bucket as the table of `n` chains has it. -/
def rehashed (n : Nat) (b : Bucket K V) : Bucket K V := { b with hash := getRehash b.key n }

omit [BEq K] [EquivBEq K] [LawfulHashable K] in
theorem rehome_eq {n i : Nat} {t : List (List (Bucket K V))} {c : List (Bucket K V)}
    {b : Bucket K V} (hi : getRehash b.key n = i) (hc : t[i]? = some c) :
    rehome n (t, t.countP fun c => !c.isEmpty) b =
      some (t.set i (c ++ [rehashed n b]),
        (t.set i (c ++ [rehashed n b])).countP fun c => !c.isEmpty) := by
  have hcount := countP_set_chain (fun c => !c.isEmpty) hc (c ++ [rehashed n b])
  simp only [rehome, hi, hc, Option.bind_eq_bind, Option.bind_some, rehashed]
  rw [rehashed, hi] at hcount
  congr 2
  cases hemp : c.isEmpty <;> simp [hemp] at hcount ⊢ <;> omega

omit [BEq K] [EquivBEq K] [LawfulHashable K] in
/-- The loop of `grow` appends to each chain the buckets whose home it is. -/
theorem rehome_loop {n : Nat} (hn : 0 < n) :
    ∀ (l : List (Bucket K V)) (t : List (List (Bucket K V))), t.length = n →
      ∃ t', l.foldlM (rehome n) (t, t.countP fun c => !c.isEmpty) =
          some (t', t'.countP fun c => !c.isEmpty) ∧ t'.length = n ∧
        t'.flatten.length = t.flatten.length + l.length ∧
        ∀ i c, t[i]? = some c → t'[i]? =
          some (c ++ (l.filter fun b => getRehash b.key n == i).map (rehashed n)) := by
  intro l
  induction l with
  | nil => intro t ht; exact ⟨t, rfl, ht, rfl, fun i c hc => by simpa using hc⟩
  | cons b l ih =>
    intro t ht
    have hlt : getRehash b.key n < t.length := by rw [ht]; exact Nat.mod_lt _ hn
    have hc := List.getElem?_eq_getElem hlt
    have hset := length_flatten_set hc (t[getRehash b.key n] ++ [rehashed n b])
    obtain ⟨t', hfold, hlen, hsize, hget⟩ :=
      ih (t.set (getRehash b.key n) (t[getRehash b.key n] ++ [rehashed n b]))
        (by rw [List.length_set]; exact ht)
    refine ⟨t', ?_, hlen, ?_, fun i c hi => ?_⟩
    · rw [List.foldlM_cons, rehome_eq rfl hc]
      exact hfold
    · rw [List.length_append, List.length_singleton] at hset
      rw [hsize, List.length_cons]
      omega
    · -- only the home of the bucket gets it
      by_cases hib : getRehash b.key n = i
      · subst hib
        rw [hc, Option.some.injEq] at hi
        rw [hget _ _ (by rw [chain_set hlt, if_pos rfl]), hi,
          List.filter_cons_of_pos (by simp), List.map_cons, List.append_assoc]
        rfl
      · rw [hget i c (by rw [chain_set hlt, if_neg hib]; exact hi),
          List.filter_cons_of_neg (by simpa using hib)]

omit [EquivBEq K] in
/-- A bucket of the key has the key's home. -/
theorem findKey_filter_home (n : Nat) (k : K) (l : List (Bucket K V)) :
    findKey Bucket.key k (l.filter fun b => getRehash b.key n == getRehash k n) =
      findKey Bucket.key k l := by
  rw [findKey, List.find?_filter, findKey]
  congr 1
  funext b
  by_cases hb : (b.key == k) = true
  · rw [hb, getRehash_congr n hb, beq_self_eq_true]
    rfl
  · rw [Bool.not_eq_true] at hb
    rw [hb]
    exact decide_eq_false fun h => by cases h.2

theorem Wf.grow (h : m.Wf) : ∃ m', m.grow = some m' ∧ Grown m m' := by
  have hn : 0 < m.buckets.length * 2 + 1 := Nat.succ_pos _
  obtain ⟨t', hfold, hlen, hsize, hget⟩ := rehome_loop hn m.buckets.flatten
    (List.replicate (m.buckets.length * 2 + 1) []) List.length_replicate
  have hzero : (List.replicate (m.buckets.length * 2 + 1) ([] : List (Bucket K V))).countP
      (fun c => !c.isEmpty) = 0 := by simp
  rw [hzero] at hfold
  -- no key is in the old table twice, so no chain of the new one has it twice
  have hall := h.table.distinct_flatten fun _ _ => getRehash_congr _
  have hchain : ∀ i < m.buckets.length * 2 + 1, t'[i]? =
      some ((m.buckets.flatten.filter fun b =>
        getRehash b.key (m.buckets.length * 2 + 1) == i).map
          (rehashed (m.buckets.length * 2 + 1))) := by
    intro i hi
    rw [hget i [] (by rw [List.getElem?_replicate, if_pos hi]), List.nil_append]
  have hwf : Wf (⟨t', t'.countP fun c => !c.isEmpty, m.len⟩ : HashMap K V) := by
    refine ⟨by rw [hlen]; exact hn, fun i c hc b hb => ?_, fun c hc => ?_⟩
    · obtain ⟨hi, -⟩ := List.getElem?_eq_some_iff.mp hc
      rw [hchain i (hlen ▸ hi), Option.some.injEq] at hc
      subst hc
      obtain ⟨b', hb', rfl⟩ := List.mem_map.mp hb
      simp only [hlen]
      exact eq_of_beq (List.mem_filter.mp hb').2
    · obtain ⟨i, hc⟩ := List.mem_iff_getElem?.mp hc
      obtain ⟨hi, -⟩ := List.getElem?_eq_some_iff.mp hc
      rw [hchain i (hlen ▸ hi), Option.some.injEq] at hc
      subst hc
      exact List.pairwise_map.mpr (hall.sublist List.filter_sublist)
  refine ⟨_, by rw [HashMap.grow, hfold]; rfl, hwf, fun k => ?_, rfl, ?_, rfl⟩
  · have hk : getHash (⟨t', t'.countP fun c => !c.isEmpty, m.len⟩ : HashMap K V) k =
        getRehash k (m.buckets.length * 2 + 1) := by rw [getHash, hlen]
    have hlt : getRehash k (m.buckets.length * 2 + 1) < m.buckets.length * 2 + 1 :=
      Nat.mod_lt _ hn
    rw [hwf.lookup_eq, chain, hk, List.getD_eq_getElem?_getD, hchain _ hlt, Option.getD_some,
      findKey_map (f := rehashed _) (fun _ => rfl), findKey_filter_home, lookup, Option.map_map]
    rfl
  · change t'.flatten.length = _
    rw [hsize]
    simp [entries]

/-- A new bucket at the end of the chain of an absent key. -/
theorem Wf.concat (h : m.Wf) {k : K} (hno : NoKey Bucket.key k (m.chain k)) (i : Nat) (v : V)
    (used len : Nat) :
    Rechained m ⟨m.buckets.set (m.getHash k) (m.chain k ++ [⟨i, k, v⟩]), used, len⟩ k
      (m.chain k ++ [⟨i, k, v⟩]) (some v) := by
  have hk : (Bucket.key (⟨i, k, v⟩ : Bucket K V) == k) = true := beq_self_eq_true k
  refine h.rechain (x := some ⟨i, k, v⟩) (fun b hb => ?_)
    (hno.distinct_concat hk (h.chain_distinct k)) (hno.findKey_concat hk) used len
  rcases List.mem_append.mp hb with hb | hb
  · exact Or.inr hb
  · rw [List.mem_singleton.mp hb]
    exact Or.inl hk

/-- Another value in the bucket of a present key. -/
theorem Wf.overwrite (h : m.Wf) {k : K} {pre post : List (Bucket K V)} {b : Bucket K V}
    (hf : Found Bucket.key k (m.chain k) pre b post) (v : V) (used len : Nat) :
    Rechained m
      ⟨m.buckets.set (m.getHash k) ((m.chain k).set pre.length { b with value := v }), used, len⟩ k
      ((m.chain k).set pre.length { b with value := v }) (some v) := by
  have hset : (m.chain k).set pre.length { b with value := v } =
      pre ++ { b with value := v } :: post := by
    rw [hf.eq, List.set_append_right _ _ (Nat.le_refl _), Nat.sub_self]
    rfl
  rw [hset]
  have hkey : ({ b with value := v } : Bucket K V).key = b.key := rfl
  refine h.rechain (x := some { b with value := v }) (fun a ha => ?_)
    (hf.distinct_replace hkey (h.chain_distinct k)) (hf.findKey_replace hkey) used len
  rcases List.mem_append.mp ha with ha | ha
  · exact Or.inr (by rw [hf.eq]; exact List.mem_append_left _ ha)
  · rcases List.mem_cons.mp ha with rfl | ha
    · exact Or.inl hf.hit
    · exact Or.inr (by rw [hf.eq]; exact List.mem_append_right _ (List.mem_cons_of_mem _ ha))

/-- The part of an insert after it may have grown the table. -/
theorem Wf.insertKeepKey_false (h : m.Wf) (k : K) (v : V) :
    ∃ m' k', m.insertKeepKey false k v = some ((m.lookup k, k'), m') ∧ (k' == k) = true ∧
      Stored m m' k v ∧ m'.len = (m.len + 1) % usizeSize := by
  rcases h.cases k with ⟨hno, hnone⟩ | ⟨pre, b, post, hf, hsome⟩
  · have hr := h.concat hno (m.getHash k) v
      (if (m.chain k).length = 0 then m.containersUsed + 1 else m.containersUsed)
      ((m.len + 1) % usizeSize)
    refine ⟨_, k, ?_, beq_self_eq_true k, hr.stored_new hnone rfl, rfl⟩
    simp only [HashMap.insertKeepKey, Bool.false_eq_true, if_false, Option.bind_eq_bind,
      Option.bind_some, h.chain_eq, oldIndex_noKey _ _ hno, hnone]
  · have hr := h.overwrite hf v
      (if (m.chain k).length = 0 then m.containersUsed + 1 else m.containersUsed)
      ((m.len + 1) % usizeSize)
    refine ⟨_, b.key, ?_, hf.hit, hr.stored_old (by rw [hsome]; rfl) hf.length_pos
      (if_neg (Nat.ne_of_gt hf.length_pos)), rfl⟩
    simp only [HashMap.insertKeepKey, Bool.false_eq_true, if_false, Option.bind_eq_bind,
      Option.bind_some, h.chain_eq, oldIndex_found hf, hf.getElem?, hsome]

/-- **`insert_keep_key`** stores the value, whether the table grew or not. -/
theorem Wf.insertKeepKey (h : m.Wf) (grows : Bool) (k : K) (v : V) :
    ∃ m' k', m.insertKeepKey grows k v = some ((m.lookup k, k'), m') ∧ (k' == k) = true ∧
      Stored m m' k v ∧ m'.len = (m.len + 1) % usizeSize := by
  cases grows with
  | false => exact h.insertKeepKey_false k v
  | true =>
    obtain ⟨m₁, hgrow, hg⟩ := h.grow
    obtain ⟨m', k', hins, hk, hs, hlen⟩ := hg.wf.insertKeepKey_false k v
    refine ⟨m', k', ?_, hk, hg.stored hs, by rw [hlen, hg.len]⟩
    rw [hg.lookup] at hins
    rw [← hins]
    simp only [HashMap.insertKeepKey, if_true, hgrow, Bool.false_eq_true, if_false]

theorem Wf.replace (h : m.Wf) (k : K) (v : V) :
    (m.lookup k = none ∧ m.replace k v = some (.error (), m)) ∨
      ∃ x m', m.lookup k = some x ∧ m.replace k v = some (.ok x, m') ∧ Stored m m' k v ∧
        m'.len = m.len := by
  rcases h.cases k with ⟨hno, hnone⟩ | ⟨pre, b, post, hf, hsome⟩
  · refine Or.inl ⟨hnone, ?_⟩
    simp only [HashMap.replace, Option.bind_eq_bind, Option.bind_some, h.chain_eq,
      oldIndex_noKey _ _ hno]
  · refine Or.inr ⟨b.value, _, hsome, ?_,
      (h.overwrite hf v _ _).stored_old (by rw [hsome]; rfl) hf.length_pos rfl, rfl⟩
    simp only [HashMap.replace, Option.bind_eq_bind, Option.bind_some, h.chain_eq,
      oldIndex_found hf, hf.getElem?]

/-- A slot of `k`: what is read there, and what a write does. -/
structure SlotOf (m : HashMap K V) (k : K) (slot : Slot) (x : V) : Prop where
  read : m.read slot = some x
  write : ∀ v, ∃ m', m.write slot v = some m' ∧ Stored m m' k v ∧ m'.len = m.len

theorem Wf.findSlot (h : m.Wf) (k : K) :
    (m.lookup k = none ∧ m.findSlot k = some none) ∨
      ∃ x slot, m.lookup k = some x ∧ m.findSlot k = some (some slot) ∧ SlotOf m k slot x := by
  rcases h.cases k with ⟨hno, hnone⟩ | ⟨pre, b, post, hf, hsome⟩
  · refine Or.inl ⟨hnone, ?_⟩
    have hidx : ((m.chain k).findIdx? fun b => b.key == k) = none :=
      List.findIdx?_eq_none_iff.mpr hno
    simp only [HashMap.findSlot, Option.bind_eq_bind, Option.bind_some, h.chain_eq, hidx,
      Option.map_none]
  · refine Or.inr ⟨b.value, ⟨m.getHash k, pre.length⟩, hsome, ?_, ?_, fun v => ⟨_, ?_,
      (h.overwrite hf v _ _).stored_old (by rw [hsome]; rfl) hf.length_pos rfl, rfl⟩⟩
    · simp only [HashMap.findSlot, Option.bind_eq_bind, Option.bind_some, h.chain_eq,
        findIdx?_found hf, Option.map_some]
    · simp only [HashMap.read, Option.bind_eq_bind, Option.bind_some, h.chain_eq, hf.getElem?]
    · simp only [HashMap.write, Option.bind_eq_bind, Option.bind_some, h.chain_eq, hf.getElem?]

/-- What a map is after `k` was taken out. -/
structure Removed (m m' : HashMap K V) (k : K) : Prop where
  wf : m'.Wf
  lookup : ∀ k', m'.lookup k' = if k == k' then none else m.lookup k'
  size : m'.entries.length + 1 = m.entries.length
  containersUsed : m'.containersUsed = m.containersUsed
  used : m'.chainsUsed + (if (m.chain k).length = 1 then 1 else 0) = m.chainsUsed

/-- **`remove`** takes the bucket of the key out of its chain; the length goes down
in any case. -/
theorem Wf.remove (h : m.Wf) (k : K) :
    (m.lookup k = none ∧
        m.remove k = some (none, { m with len := (m.len + usizeSize - 1) % usizeSize })) ∨
      ∃ x m', m.lookup k = some x ∧ m.remove k = some (some x, m') ∧ Removed m m' k ∧
        m'.len = (m.len + usizeSize - 1) % usizeSize := by
  rcases h.cases k with ⟨hno, hnone⟩ | ⟨pre, b, post, hf, hsome⟩
  · refine Or.inl ⟨hnone, ?_⟩
    simp only [HashMap.remove, Option.bind_eq_bind, Option.bind_some, h.chain_eq,
      oldIndex_noKey _ _ hno]
  · have hr : Rechained m ⟨m.buckets.set (m.getHash k) (pre ++ post), m.containersUsed,
        (m.len + usizeSize - 1) % usizeSize⟩ k (pre ++ post) none := by
      refine h.rechain (x := none) (fun a ha => Or.inr ?_) (hf.distinct_remove (h.chain_distinct k))
        hf.findKey_remove _ _
      rw [hf.eq]
      exact (List.sublist_cons_self b post).append_left pre |>.mem ha
    have hlen : (m.chain k).length = (pre ++ post).length + 1 := by
      rw [hf.eq, List.length_append, List.length_append, List.length_cons]
      omega
    refine Or.inr ⟨b.value, _, hsome, ?_, ⟨hr.wf, hr.lookup, ?_, rfl, ?_⟩, rfl⟩
    · have hrem := arrayRemove_eq pre post b
      rw [← hf.eq] at hrem
      simp only [HashMap.remove, Option.bind_eq_bind, Option.bind_some, h.chain_eq,
        oldIndex_found hf, hrem]
    · have := hr.size
      omega
    · have := hr.used
      have hc : (m.chain k).isEmpty = false := by
        rw [← Bool.not_eq_true, List.isEmpty_iff_length_eq_zero]
        omega
      rw [hc] at this
      -- the chain is gone from the count only if the bucket was its last
      cases hp : pre ++ post with
      | nil =>
        rw [hp] at this hlen
        rw [hlen]
        exact this
      | cons a l =>
        rw [hp] at this hlen
        rw [if_neg (by rw [hlen, List.length_cons]; omega)]
        simp only [List.isEmpty_cons, Bool.false_eq_true, if_false] at this
        omega

omit [LawfulHashable K] in
theorem Stored.congr {m' : HashMap K V} {k k' : K} {v : V} (hs : Stored m m' k v)
    (hk : (k == k') = true) : Stored m m' k' v := by
  refine ⟨hs.wf, fun x => ?_, by rw [hs.size, lookup_congr m hk], hs.used⟩
  rw [hs.lookup, BEq.congr_left hk]

/-- **`entry(k).or_insert(v)`** gives a slot of `k`, with the value that was there
or else `v`. -/
theorem Wf.orInsert (h : m.Wf) (grows : Bool) (k : K) (v : V) :
    ∃ slot m', m.orInsert grows k v = some (slot, m') ∧ m'.Wf ∧
      SlotOf m' k slot ((m.lookup k).getD v) ∧
      (((m.lookup k).isSome = true ∧ m' = m) ∨
        (m.lookup k = none ∧ Stored m m' k v ∧ m'.len = (m.len + 1) % usizeSize)) := by
  rcases h.findSlot k with ⟨hnone, hslot⟩ | ⟨x, slot, hsome, hslot, hof⟩
  · obtain ⟨m', k', hins, hk, hs, hlen⟩ := h.insertKeepKey grows k v
    -- `get_mut` with the key as the map has it finds the bucket just stored
    have hlook : m'.lookup k' = some v := by rw [hs.lookup, if_pos (BEq.symm hk)]
    rcases hs.wf.findSlot k' with ⟨hnone', -⟩ | ⟨x, slot, hsome', hslot', hof⟩
    · rw [hnone'] at hlook
      cases hlook
    · rw [hsome', Option.some.injEq] at hlook
      subst hlook
      refine ⟨slot, m', ?_, hs.wf, ⟨by rw [hof.read, hnone]; rfl, fun w => ?_⟩,
        Or.inr ⟨hnone, hs, hlen⟩⟩
      · simp only [HashMap.orInsert, getFromMap, getMut, hslot, hins, hslot', Option.bind_eq_bind,
          Option.bind_some]
      · obtain ⟨m'', hw, hs', hl⟩ := hof.write w
        exact ⟨m'', hw, hs'.congr hk, hl⟩
  · refine ⟨slot, m, ?_, h, ?_, Or.inl ⟨by rw [hsome]; rfl, rfl⟩⟩
    · simp only [HashMap.orInsert, getFromMap, hslot, Option.bind_eq_bind, Option.bind_some]
    · rw [hsome]
      exact hof

end Specs

end HashMap

end Apfmalloc
