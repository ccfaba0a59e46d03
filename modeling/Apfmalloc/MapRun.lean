import Apfmalloc.HashMap

/-!
# Runs of the hash map

Any sequence of inserts, replaces, removes, `entry(k).or_insert(v)` and writes
through the references the map hands out, with any decision of when the table
grows. `Effect` says once what an operation does to a well-formed map; the two
results of the file are read off it.

As a finite map the hash map is right: every operation returns what the
specification `MapOp.spec` returns, and `get` and `contains` agree with it
(`map_refines`). Its counters are not: `insert` counts a key again that was there,
`remove` uncounts a key that was not, and a chain that `remove` empties stays
counted as used. `bookkeeping_iff` says that the counters are right in all states of
a run exactly when the run has no such step.
-/

namespace Apfmalloc

open Base HashMap

inductive MapOp (K V : Type)
  | insert (grows : Bool) (k : K) (v : V)
  | replace (k : K) (v : V)
  | remove (k : K)
  /-- the client may write through the reference -/
  | orInsert (grows : Bool) (k : K) (v : V) (write : Option V)
  | getMut (k : K) (write : V)

inductive MapOut (V : Type)
  | previous (x : Option V)
  | replaced (r : Except Unit V)
  | value (x : V)
  | found (x : Option V)

variable {K V : Type} [BEq K]

section Run

variable [Hashable K]

def MapOp.run : MapOp K V → HashMap K V → Option (MapOut V × HashMap K V)
  | .insert grows k v, m => do
    let (x, m) ← m.insert grows k v
    some (.previous x, m)
  | .replace k v, m => do
    let (r, m) ← m.replace k v
    some (.replaced r, m)
  | .remove k, m => do
    let (x, m) ← m.remove k
    some (.previous x, m)
  | .orInsert grows k v w, m => do
    let (slot, m) ← m.orInsert grows k v
    let x ← m.read slot
    match w with
    | none => some (.value x, m)
    | some w => do
      let m ← m.write slot w
      some (.value x, m)
  | .getMut k w, m => do
    match ← m.getMut k with
    | none => some (.found none, m)
    | some slot => do
      let x ← m.read slot
      let m ← m.write slot w
      some (.found (some x), m)

def runOps : List (MapOp K V) → HashMap K V → Option (List (MapOut V) × HashMap K V)
  | [], m => some ([], m)
  | op :: ops, m => do
    let (out, m) ← op.run m
    let (outs, m) ← runOps ops m
    some (out :: outs, m)

/-! ## What an operation does -/

inductive Effect (m : HashMap K V) : MapOp K V → MapOut V → HashMap K V → Prop
  | insert {m' : HashMap K V} {grows : Bool} {k : K} {v : V} : Stored m m' k v →
      m'.len = (m.len + 1) % usizeSize →
      Effect m (.insert grows k v) (.previous (m.lookup k)) m'
  | replaceAbsent {k : K} {v : V} : m.lookup k = none →
      Effect m (.replace k v) (.replaced (.error ())) m
  | replace {m' : HashMap K V} {k : K} {v x : V} : m.lookup k = some x → Stored m m' k v →
      m'.len = m.len → Effect m (.replace k v) (.replaced (.ok x)) m'
  | removeAbsent {k : K} : m.lookup k = none →
      Effect m (.remove k) (.previous none) { m with len := (m.len + usizeSize - 1) % usizeSize }
  | remove {m' : HashMap K V} {k : K} {x : V} : m.lookup k = some x → Removed m m' k →
      m'.len = (m.len + usizeSize - 1) % usizeSize →
      Effect m (.remove k) (.previous (some x)) m'
  | orFound {grows : Bool} {k : K} {v x : V} : m.lookup k = some x →
      Effect m (.orInsert grows k v none) (.value x) m
  | orFoundWrite {m' : HashMap K V} {grows : Bool} {k : K} {v w x : V} : m.lookup k = some x →
      Stored m m' k w → m'.len = m.len → Effect m (.orInsert grows k v (some w)) (.value x) m'
  | orNew {m' : HashMap K V} {grows : Bool} {k : K} {v : V} : m.lookup k = none →
      Stored m m' k v → m'.len = (m.len + 1) % usizeSize →
      Effect m (.orInsert grows k v none) (.value v) m'
  | orNewWrite {m₁ m' : HashMap K V} {grows : Bool} {k : K} {v w : V} : m.lookup k = none →
      Stored m m₁ k v → m₁.len = (m.len + 1) % usizeSize → Stored m₁ m' k w → m'.len = m₁.len →
      Effect m (.orInsert grows k v (some w)) (.value v) m'
  | getAbsent {k : K} {w : V} : m.lookup k = none → Effect m (.getMut k w) (.found none) m
  | getWrite {m' : HashMap K V} {k : K} {w x : V} : m.lookup k = some x → Stored m m' k w →
      m'.len = m.len → Effect m (.getMut k w) (.found (some x)) m'

variable [EquivBEq K] [LawfulHashable K]

/-- **No operation on a well-formed map panics**, and it has its effect. -/
theorem MapOp.run_effect {m : HashMap K V} (h : m.Wf) (op : MapOp K V) :
    ∃ out m', op.run m = some (out, m') ∧ Effect m op out m' := by
  cases op with
  | insert grows k v =>
    obtain ⟨m', k', hins, -, hs, hlen⟩ := h.insertKeepKey grows k v
    refine ⟨_, m', ?_, .insert hs hlen⟩
    simp only [MapOp.run, HashMap.insert, hins, Option.bind_eq_bind, Option.bind_some]
  | replace k v =>
    rcases h.replace k v with ⟨hnone, hrep⟩ | ⟨x, m', hsome, hrep, hs, hlen⟩
    · exact ⟨_, m, by simp only [MapOp.run, hrep, Option.bind_eq_bind, Option.bind_some],
        .replaceAbsent hnone⟩
    · exact ⟨_, m', by simp only [MapOp.run, hrep, Option.bind_eq_bind, Option.bind_some],
        .replace hsome hs hlen⟩
  | remove k =>
    rcases h.remove k with ⟨hnone, hrem⟩ | ⟨x, m', hsome, hrem, hr, hlen⟩
    · exact ⟨_, _, by simp only [MapOp.run, hrem, Option.bind_eq_bind, Option.bind_some],
        .removeAbsent hnone⟩
    · exact ⟨_, m', by simp only [MapOp.run, hrem, Option.bind_eq_bind, Option.bind_some],
        .remove hsome hr hlen⟩
  | orInsert grows k v w =>
    -- the slot is read, and written if the caller does
    obtain ⟨slot, m₁, hor, -, hslot, hcase⟩ := h.orInsert grows k v
    cases w with
    | none =>
      refine ⟨.value ((m.lookup k).getD v), m₁, ?_, ?_⟩
      · simp only [MapOp.run, hor, hslot.read, Option.bind_eq_bind, Option.bind_some]
      · rcases hcase with ⟨hsome, rfl⟩ | ⟨hnone, hs, hlen⟩
        · obtain ⟨x, hx⟩ := Option.isSome_iff_exists.mp hsome
          rw [hx]
          exact .orFound hx
        · rw [hnone]
          exact .orNew hnone hs hlen
    | some w =>
      obtain ⟨m', hw, hs', hlen'⟩ := hslot.write w
      refine ⟨.value ((m.lookup k).getD v), m', ?_, ?_⟩
      · simp only [MapOp.run, hor, hslot.read, hw, Option.bind_eq_bind, Option.bind_some]
      · rcases hcase with ⟨hsome, rfl⟩ | ⟨hnone, hs, hlen⟩
        · obtain ⟨x, hx⟩ := Option.isSome_iff_exists.mp hsome
          rw [hx]
          exact .orFoundWrite hx hs' hlen'
        · rw [hnone]
          exact .orNewWrite hnone hs hlen hs' hlen'
  | getMut k w =>
    rcases h.findSlot k with ⟨hnone, hslot⟩ | ⟨x, slot, hsome, hslot, hof⟩
    · exact ⟨_, m, by simp only [MapOp.run, HashMap.getMut, hslot, Option.bind_eq_bind,
        Option.bind_some], .getAbsent hnone⟩
    · obtain ⟨m', hw, hs, hlen⟩ := hof.write w
      exact ⟨_, m', by simp only [MapOp.run, HashMap.getMut, hslot, hof.read, hw,
        Option.bind_eq_bind, Option.bind_some], .getWrite hsome hs hlen⟩

omit [EquivBEq K] [LawfulHashable K] in
theorem Effect.wf {m m' : HashMap K V} {op : MapOp K V} {out : MapOut V} (h : m.Wf)
    (he : Effect m op out m') : m'.Wf := by
  cases he with
  | insert hs _ => exact hs.wf
  | replaceAbsent _ => exact h
  | replace _ hs _ => exact hs.wf
  | removeAbsent _ => exact ⟨h.pos, h.table⟩
  | remove _ hr _ => exact hr.wf
  | orFound _ => exact h
  | orFoundWrite _ hs _ => exact hs.wf
  | orNew _ hs _ => exact hs.wf
  | orNewWrite _ _ _ hs' _ => exact hs'.wf
  | getAbsent _ => exact h
  | getWrite _ hs _ => exact hs.wf

omit [BEq K] [Hashable K] [EquivBEq K] [LawfulHashable K] in
theorem wf_withCapacity [BEq K] [Hashable K] {c : Nat} (hc : 1 ≤ c) :
    (HashMap.withCapacity c : HashMap K V).Wf := by
  have hmem : ∀ l ∈ List.replicate c ([] : List (Bucket K V)), l = [] :=
    fun l hl => List.eq_of_mem_replicate hl
  refine ⟨by rw [HashMap.withCapacity, List.length_replicate]; exact hc, fun i l hi b hb => ?_,
    fun l hl => ?_⟩
  · rw [hmem l (List.mem_of_getElem? hi)] at hb
    exact (List.not_mem_nil hb).elim
  · rw [hmem l hl]
    exact List.Pairwise.nil

theorem runOps_cons {m : HashMap K V} (h : m.Wf) (op : MapOp K V) (ops : List (MapOp K V)) :
    ∃ out m', op.run m = some (out, m') ∧ Effect m op out m' ∧ m'.Wf ∧
      runOps (op :: ops) m = (runOps ops m').map fun r => (out :: r.1, r.2) := by
  obtain ⟨out, m', hrun, he⟩ := op.run_effect h
  refine ⟨out, m', hrun, he, he.wf h, ?_⟩
  simp only [runOps, hrun, Option.bind_eq_bind, Option.bind_some]
  cases runOps ops m' <;> rfl

/-! ## The finite map -/

end Run

/-- `f` with `x` under `k`. -/
def update (f : K → Option V) (k : K) (x : Option V) : K → Option V :=
  fun k' => if k == k' then x else f k'

/-- What the operations are for: a function from keys to the value stored last. -/
def MapOp.spec : MapOp K V → (K → Option V) → MapOut V × (K → Option V)
  | .insert _ k v, f => (.previous (f k), update f k (some v))
  | .replace k v, f =>
    match f k with
    | none => (.replaced (.error ()), f)
    | some x => (.replaced (.ok x), update f k (some v))
  | .remove k, f => (.previous (f k), update f k none)
  | .orInsert _ k v w, f =>
    let x := (f k).getD v
    (.value x, update f k (some (w.getD x)))
  | .getMut k w, f =>
    match f k with
    | none => (.found none, f)
    | some x => (.found (some x), update f k (some w))

def specOps : List (MapOp K V) → (K → Option V) → List (MapOut V) × (K → Option V)
  | [], f => ([], f)
  | op :: ops, f =>
    let (out, f) := op.spec f
    let (outs, f) := specOps ops f
    (out :: outs, f)

section Refine

variable [EquivBEq K]

/-- Storing what is there already. -/
theorem update_lookup {m : HashMap K V} {k : K} {x : Option V} (h : m.lookup k = x) :
    update m.lookup k x = m.lookup := by
  funext k'
  rw [update]
  split
  next hk => rw [← h, lookup_congr m hk]
  next => rfl

variable [Hashable K]

/-- **One operation** does to the values what its specification says. -/
theorem Effect.spec {m m' : HashMap K V} {op : MapOp K V} {out : MapOut V}
    (he : Effect m op out m') : op.spec m.lookup = (out, m'.lookup) := by
  have hstored : ∀ {m m' : HashMap K V} {k : K} {v : V}, Stored m m' k v →
      update m.lookup k (some v) = m'.lookup := fun hs => funext fun k' => (hs.lookup k').symm
  cases he with
  | insert hs _ => rw [MapOp.spec, hstored hs]
  | replaceAbsent hnone => simp only [MapOp.spec, hnone]
  | replace hsome hs _ => simp only [MapOp.spec, hsome, hstored hs]
  | removeAbsent hnone =>
    -- an absent key: only the length changes
    have hlen : ∀ n, HashMap.lookup { m with len := n } = m.lookup := fun _ => rfl
    rw [MapOp.spec, hnone, update_lookup hnone]
    exact congrArg _ (hlen _).symm
  | remove hsome hr _ =>
    rw [MapOp.spec, hsome]
    exact congrArg _ (funext fun k' => (hr.lookup k').symm)
  | orFound hsome =>
    simp only [MapOp.spec, hsome, Option.getD_some, Option.getD_none, update_lookup hsome]
  | orFoundWrite hsome hs _ => simp only [MapOp.spec, hsome, Option.getD_some, hstored hs]
  | orNew hnone hs _ => simp only [MapOp.spec, hnone, Option.getD_none, hstored hs]
  | orNewWrite hnone hs _ hs' _ =>
    simp only [MapOp.spec, hnone, Option.getD_none, Option.getD_some, ← hstored hs', ← hstored hs]
    congr 1
    funext k'
    simp only [update]
    split <;> rfl
  | getAbsent hnone => simp only [MapOp.spec, hnone]
  | getWrite hsome hs _ => simp only [MapOp.spec, hsome, hstored hs]

variable [LawfulHashable K]

theorem runOps_spec : ∀ (ops : List (MapOp K V)) {m : HashMap K V}, m.Wf →
    ∃ outs m', runOps ops m = some (outs, m') ∧ m'.Wf ∧
      specOps ops m.lookup = (outs, m'.lookup) := by
  intro ops
  induction ops with
  | nil => intro m h; exact ⟨[], m, rfl, h, rfl⟩
  | cons op ops ih =>
    intro m h
    obtain ⟨out, m₁, -, he, h₁, hrun⟩ := runOps_cons h op ops
    obtain ⟨outs, m', hrun', h', hspec⟩ := ih h₁
    refine ⟨out :: outs, m', by rw [hrun, hrun']; rfl, h', ?_⟩
    simp only [specOps, he.spec, hspec]

/-- **The hash map is a finite map.** From an empty map of any capacity, every
sequence of operations, with every decision of when to grow, returns what the
specification returns, and afterwards `get` and `contains` give the value stored
last under the key and not removed since. -/
theorem map_refines {c : Nat} (hc : 1 ≤ c) (ops : List (MapOp K V)) :
    ∃ outs m f, runOps ops (HashMap.withCapacity c) = some (outs, m) ∧
      specOps ops (fun _ => none) = (outs, f) ∧
      ∀ k, m.get k = some (f k) ∧ m.contains k = some (f k).isSome := by
  obtain ⟨outs, m, hrun, h, hspec⟩ := runOps_spec ops (wf_withCapacity (V := V) (K := K) hc)
  have hempty : (HashMap.withCapacity c : HashMap K V).lookup = fun _ => none := by
    funext k
    rw [HashMap.lookup, HashMap.entries, HashMap.withCapacity, List.flatten_replicate_nil]
    rfl
  rw [hempty] at hspec
  exact ⟨outs, m, m.lookup, hrun, hspec, fun k => ⟨h.get k, h.contains k⟩⟩

/-- One chain that grows to three, a key stored twice and removed. -/
theorem map_refines_collision : ∃ (outs : List (MapOut Nat)) (m : HashMap Nat Nat)
    (f : Nat → Option Nat),
    runOps [.insert false 5 10, .insert true 8 11, .insert false 5 12, .orInsert true 6 1 (some 2),
      .remove 8] (HashMap.withCapacity 1) = some (outs, m) ∧
    outs = [.previous none, .previous none, .previous (some 10), .value 1, .previous (some 11)] ∧
    f 5 = some 12 ∧ f 8 = none ∧ ∀ k, m.get k = some (f k) ∧ m.contains k = some (f k).isSome := by
  obtain ⟨outs, m, f, hrun, hspec, hget⟩ := map_refines (K := Nat) (V := Nat) (c := 1)
    (Nat.le_refl 1) [.insert false 5 10, .insert true 8 11, .insert false 5 12,
      .orInsert true 6 1 (some 2), .remove 8]
  obtain ⟨houts, hf⟩ := Prod.mk.inj hspec
  exact ⟨outs, m, f, hrun, houts.symm, by rw [← hf]; rfl, by rw [← hf]; rfl, hget⟩

end Refine

/-! ## The counters -/

section Count

variable [Hashable K]

/-- The map contains `n` keys. -/
def NumKeys (m : HashMap K V) (n : Nat) : Prop :=
  ∃ ks : List K, Distinct id ks ∧ ks.length = n ∧
    ∀ k, m.contains k = some true ↔ ∃ k' ∈ ks, (k' == k) = true

/-- The counters of the map say what they are for. -/
structure Bookkept (m : HashMap K V) : Prop where
  len : NumKeys m m.len
  isEmpty : m.isEmpty = true ↔ ∀ k, m.contains k = some false
  containersUsed : m.containersUsed = m.chainsUsed

/-- A remove of an absent key leaves the map as it was. -/
def RemoveOk (m m' : HashMap K V) : MapOp K V → Prop
  | .remove k => m.contains k = some false → m' = m
  | _ => True

/-- The counters are right in every state of the run, and so is every remove. -/
def Bookkeeps : List (MapOp K V) → HashMap K V → Prop
  | [], m => Bookkept m
  | op :: ops, m => Bookkept m ∧
    ∃ out m', op.run m = some (out, m') ∧ RemoveOk m m' op ∧ Bookkeeps ops m'

/-- The steps that keep the counters right: an insert stores a new key while the
length has room, a remove takes a key that is there from a chain of two or more. -/
def CountedOp (m : HashMap K V) : MapOp K V → Prop
  | .insert _ k _ => m.contains k = some false ∧ m.len + 1 < usizeSize
  | .remove k => m.contains k = some true ∧ 2 ≤ (m.chain k).length
  | .orInsert _ k _ _ => m.contains k = some false → m.len + 1 < usizeSize
  | .replace _ _ | .getMut _ _ => True

def AllCounted : List (MapOp K V) → HashMap K V → Prop
  | [], _ => True
  | op :: ops, m => CountedOp m op ∧
    ∃ out m', op.run m = some (out, m') ∧ AllCounted ops m'

theorem lt_of_mod_self {n : Nat} (h : n % usizeSize = n) : n < usizeSize := by
  rw [← h]
  exact Nat.mod_lt _ (by decide)

theorem wrap_succ_ne (n : Nat) : (n + 1) % usizeSize ≠ n := by
  rw [usizeSize_eq]
  omega

theorem wrap_pred_ne (n : Nat) : (n + usizeSize - 1) % usizeSize ≠ n := by
  rw [usizeSize_eq]
  omega

theorem wrap_pred {n : Nat} (h : n < usizeSize) : (n + 1 + usizeSize - 1) % usizeSize = n := by
  rw [Nat.add_right_comm, Nat.add_sub_cancel, Nat.add_mod_right]
  exact Nat.mod_eq_of_lt h

/-- The counters against the buckets. -/
def Exact (m : HashMap K V) : Prop :=
  m.len = m.entries.length ∧ m.containersUsed = m.chainsUsed

/-- The counters after a value went under a present key. -/
theorem exact_old {m m' : HashMap K V} {k : K} {v x : V} (hs : Stored m m' k v)
    (hsome : m.lookup k = some x) (hlen : m'.len = m.len) (hb : Exact m) : Exact m' := by
  have hsize := hs.size
  rw [hsome] at hsize
  exact ⟨by rw [hlen, hb.1, hsize]; rfl, hs.used hb.2⟩

/-- The counters after a value went under a new key. -/
theorem exact_new {m m' : HashMap K V} {k : K} {v : V} (hs : Stored m m' k v)
    (hnone : m.lookup k = none) (hlen : m'.len = (m.len + 1) % usizeSize) (hb : Exact m) :
    Exact m' ↔ m.len + 1 < usizeSize := by
  have hsize := hs.size
  rw [hnone] at hsize
  simp only [Option.isSome_none, Bool.false_eq_true, if_false] at hsize
  rw [Exact, hlen, hsize, ← hb.1]
  exact ⟨fun h => lt_of_mod_self h.1, fun h => ⟨Nat.mod_eq_of_lt h, hs.used hb.2⟩⟩

theorem Effect.len_lt {m m' : HashMap K V} {op : MapOp K V} {out : MapOut V}
    (he : Effect m op out m') (h : m.len < usizeSize) : m'.len < usizeSize := by
  have hpos : 0 < usizeSize := Nat.lt_of_le_of_lt (Nat.zero_le _) h
  cases he with
  | insert _ hl => rw [hl]; exact Nat.mod_lt _ hpos
  | replaceAbsent _ => exact h
  | replace _ _ hl => rw [hl]; exact h
  | removeAbsent _ => exact Nat.mod_lt _ hpos
  | remove _ _ hl => rw [hl]; exact Nat.mod_lt _ hpos
  | orFound _ => exact h
  | orFoundWrite _ _ hl => rw [hl]; exact h
  | orNew _ _ hl => rw [hl]; exact Nat.mod_lt _ hpos
  | orNewWrite _ _ hl _ hl' => rw [hl', hl]; exact Nat.mod_lt _ hpos
  | getAbsent _ => exact h
  | getWrite _ _ hl => rw [hl]; exact h

variable [EquivBEq K] [LawfulHashable K]

theorem contains_true {m : HashMap K V} (h : m.Wf) (k : K) :
    m.contains k = some true ↔ ∃ b ∈ m.entries, (b.key == k) = true := by
  rw [h.contains, Option.some.injEq, HashMap.lookup, Option.isSome_map, findKey,
    List.isSome_find?, List.any_eq_true]

/-- There are as many keys as buckets, however they are counted. -/
theorem numKeys_iff {m : HashMap K V} (h : m.Wf) (n : Nat) :
    NumKeys m n ↔ n = m.entries.length := by
  have hd : Distinct Bucket.key m.entries :=
    h.table.distinct_flatten fun _ _ => getRehash_congr _
  have hd' : Distinct id (m.entries.map Bucket.key) := List.pairwise_map.mpr hd
  have hlen : (m.entries.map Bucket.key).length = m.entries.length := List.length_map ..
  have hmem : ∀ k, m.contains k = some true ↔
      ∃ k' ∈ m.entries.map Bucket.key, (k' == k) = true := by
    intro k
    rw [contains_true h]
    refine ⟨fun hex => ?_, fun hex => ?_⟩
    · obtain ⟨b, hb, hk⟩ := hex
      exact ⟨b.key, List.mem_map_of_mem hb, hk⟩
    · obtain ⟨k', hk', hk⟩ := hex
      obtain ⟨b, hb, rfl⟩ := List.mem_map.mp hk'
      exact ⟨b, hb, hk⟩
  refine ⟨fun hn => ?_, fun hn => ⟨_, hd', hlen.trans hn.symm, hmem⟩⟩
  obtain ⟨ks, hks, rfl, hin⟩ := hn
  rw [← hlen]
  refine Nat.le_antisymm (hks.length_le fun k hk => ?_) (hd'.length_le fun k hk => ?_)
  · obtain ⟨k', hk', he⟩ := (hmem k).mp ((hin k).mpr ⟨k, hk, beq_self_eq_true k⟩)
    exact ⟨k', hk', BEq.symm he⟩
  · obtain ⟨k', hk', he⟩ := (hin k).mp ((hmem k).mpr ⟨k, hk, beq_self_eq_true k⟩)
    exact ⟨k', hk', BEq.symm he⟩

theorem bookkept_iff {m : HashMap K V} (h : m.Wf) :
    Bookkept m ↔ Exact m := by
  refine ⟨fun hb => ⟨(numKeys_iff h _).mp hb.len, hb.containersUsed⟩, fun hb => ?_⟩
  refine ⟨(numKeys_iff h _).mpr hb.1, ?_, hb.2⟩
  rw [HashMap.isEmpty, beq_iff_eq, hb.1, List.length_eq_zero_iff]
  refine ⟨fun hnil k => ?_, fun hall => ?_⟩
  · rw [h.contains, HashMap.lookup, hnil]
    rfl
  · cases he : m.entries with
    | nil => rfl
    | cons b l =>
      have := (contains_true h b.key).mpr ⟨b, by rw [he]; exact List.mem_cons_self ..,
        beq_self_eq_true b.key⟩
      rw [hall] at this
      cases this

theorem contains_false {m : HashMap K V} (h : m.Wf) (k : K) :
    m.contains k = some false ↔ m.lookup k = none := by
  rw [h.contains, Option.some.injEq, Option.isSome_eq_false_iff, Option.isNone_iff_eq_none]

/-- **One step** keeps the counters right exactly when it is counted. -/
theorem Effect.exact_iff {m m' : HashMap K V} {op : MapOp K V} {out : MapOut V} (h : m.Wf)
    (hlt : m.len < usizeSize) (hb : Exact m) (he : Effect m op out m') :
    (RemoveOk m m' op ∧ Exact m') ↔ CountedOp m op := by
  cases he with
  | @insert _ _ k _ hs hlen =>
    rw [CountedOp, contains_false h]
    cases hk : m.lookup k with
    | none =>
      refine ⟨fun hx => ⟨rfl, (exact_new hs hk hlen hb).mp hx.2⟩, fun hx => ⟨trivial, ?_⟩⟩
      exact (exact_new hs hk hlen hb).mpr hx.2
    | some x =>
      -- the key is counted twice
      refine ⟨fun hx => ?_, fun hx => by cases hx.1⟩
      have hsize := hs.size
      rw [hk] at hsize
      have hx := hx.2.1
      rw [hlen, hsize, ← hb.1] at hx
      exact absurd hx (wrap_succ_ne _)
  | replaceAbsent _ => exact ⟨fun _ => trivial, fun _ => ⟨trivial, hb⟩⟩
  | replace hsome hs hlen => exact ⟨fun _ => trivial, fun _ => ⟨trivial, exact_old hs hsome hlen hb⟩⟩
  | removeAbsent hnone =>
    -- the length goes down though nothing is removed
    have hc := (contains_false h _).mpr hnone
    refine ⟨fun hx => ?_, fun hx => ?_⟩
    · exact absurd (congrArg HashMap.len (hx.1 hc)) (wrap_pred_ne _)
    · rw [CountedOp, hc] at hx
      cases hx.1
  | @remove _ k x hsome hr hlen =>
    have hc : m.contains k = some true := by rw [h.contains, hsome]; rfl
    have hne : ¬m.contains k = some false := by rw [hc]; decide
    have hsize := hr.size
    have hused := hr.used
    have hlen' : m'.len = m'.entries.length := by
      rw [hb.1] at hlt
      rw [hlen, hb.1, ← hsize]
      exact wrap_pred (by omega)
    have hpos : 0 < (m.chain k).length := by
      rcases h.cases k with ⟨-, hno⟩ | ⟨pre, b, post, hf, -⟩
      · rw [hno] at hsome
        cases hsome
      · exact hf.length_pos
    rw [CountedOp, Exact, hr.containersUsed, hb.2]
    refine ⟨fun hx => ⟨hc, ?_⟩, fun hx => ⟨fun he => absurd he hne, hlen', ?_⟩⟩
    · have hx := hx.2.2
      split at hused <;> omega
    · rw [if_neg (by omega)] at hused
      omega
  | @orFound _ k _ x hsome =>
    refine ⟨fun _ hc => ?_, fun _ => ⟨trivial, hb⟩⟩
    rw [contains_false h, hsome] at hc
    cases hc
  | orFoundWrite hsome hs hlen =>
    refine ⟨fun _ hc => ?_, fun _ => ⟨trivial, exact_old hs hsome hlen hb⟩⟩
    rw [contains_false h, hsome] at hc
    cases hc
  | orNew hnone hs hlen =>
    exact ⟨fun hx _ => (exact_new hs hnone hlen hb).mp hx.2,
      fun hx => ⟨trivial, (exact_new hs hnone hlen hb).mpr (hx ((contains_false h _).mpr hnone))⟩⟩
  | @orNewWrite m₁ _ _ k v w hnone hs hlen hs' hlen' =>
    have hsome : m₁.lookup k = some v := by rw [hs.lookup, if_pos (beq_self_eq_true k)]
    refine ⟨fun hx _ => ?_, fun hx => ⟨trivial, exact_old hs' hsome hlen'
      ((exact_new hs hnone hlen hb).mpr (hx ((contains_false h _).mpr hnone)))⟩⟩
    have hx := hx.2.1
    rw [hlen', hlen, hs'.size, hs.size, hsome, hnone, ← hb.1] at hx
    exact lt_of_mod_self hx
  | getAbsent _ => exact ⟨fun _ => trivial, fun _ => ⟨trivial, hb⟩⟩
  | getWrite hsome hs hlen =>
    exact ⟨fun _ => trivial, fun _ => ⟨trivial, exact_old hs hsome hlen hb⟩⟩

theorem bookkeeps_iff : ∀ (ops : List (MapOp K V)) {m : HashMap K V}, m.Wf →
    m.len < usizeSize → Bookkept m → (Bookkeeps ops m ↔ AllCounted ops m) := by
  intro ops
  induction ops with
  | nil => intro m _ _ hb; exact ⟨fun _ => trivial, fun _ => hb⟩
  | cons op ops ih =>
    intro m h hlt hb
    obtain ⟨out, m', hrun, he⟩ := op.run_effect h
    have hiff := he.exact_iff h hlt ((bookkept_iff h).mp hb)
    have hih := @ih m' (he.wf h) (he.len_lt hlt)
    refine ⟨fun hall => ?_, fun hall => ?_⟩
    · obtain ⟨-, out₁, m₁, hrun₁, hrem, hrest⟩ := hall
      rw [hrun, Option.some.injEq, Prod.mk.injEq] at hrun₁
      obtain ⟨rfl, rfl⟩ := hrun₁
      have hb' : Bookkept m' := by
        cases ops with
        | nil => exact hrest
        | cons op' ops' => exact hrest.1
      exact ⟨hiff.mp ⟨hrem, (bookkept_iff (he.wf h)).mp hb'⟩, out, m', hrun, (hih hb').mp hrest⟩
    · obtain ⟨hop, out₁, m₁, hrun₁, hrest⟩ := hall
      rw [hrun, Option.some.injEq, Prod.mk.injEq] at hrun₁
      obtain ⟨rfl, rfl⟩ := hrun₁
      obtain ⟨hrem, hexact⟩ := hiff.mpr hop
      have hb' := (bookkept_iff (he.wf h)).mpr hexact
      exact ⟨hb, out, m', hrun, hrem, (hih hb').mpr hrest⟩

omit [EquivBEq K] [LawfulHashable K] in
theorem wf_new : (HashMap.new : HashMap K V).Wf := wf_withCapacity (by decide)

theorem bookkept_new : Bookkept (HashMap.new : HashMap K V) := by
  refine (bookkept_iff wf_new).mpr ⟨?_, ?_⟩
  · rw [HashMap.entries, HashMap.new, HashMap.withCapacity, List.flatten_replicate_nil]
    rfl
  · rw [HashMap.chainsUsed, HashMap.new, HashMap.withCapacity, List.countP_replicate]
    rfl

/-- **The counters** are right in every state of a run from `new()`, and every
remove of an absent key leaves the map alone, exactly when each step of the run is
counted. -/
theorem bookkeeping_iff (ops : List (MapOp K V)) :
    Bookkeeps ops (HashMap.new : HashMap K V) ↔ AllCounted ops (HashMap.new : HashMap K V) :=
  bookkeeps_iff ops wf_new (show 0 < usizeSize by decide) bookkept_new

end Count

/-- One new key, and a value written under it. -/
theorem bookkeeping_iff_one :
    Bookkeeps [.insert false 5 10, .getMut 5 11] (HashMap.new : HashMap Nat Nat) := by
  refine (bookkeeping_iff _).mpr ?_
  have hwf : (HashMap.new : HashMap Nat Nat).Wf := wf_new
  have hnone : (HashMap.new : HashMap Nat Nat).lookup 5 = none := by
    rw [HashMap.lookup, HashMap.entries, HashMap.new, HashMap.withCapacity,
      List.flatten_replicate_nil]
    rfl
  obtain ⟨out, m, hrun, he⟩ := MapOp.run_effect hwf (.insert false 5 10)
  obtain ⟨out', m', hrun', -⟩ := MapOp.run_effect (he.wf hwf) (.getMut 5 11)
  exact ⟨⟨(contains_false hwf 5).mpr hnone, by decide⟩, out, m, hrun, trivial, out', m', hrun',
    trivial⟩

/-- The same key twice: a length of two with one key. -/
theorem bookkeeping_double_insert :
    ¬Bookkeeps [.insert false 5 10, .insert false 5 11] (HashMap.new : HashMap Nat Nat) := by
  have hwf : (HashMap.new : HashMap Nat Nat).Wf := wf_new
  rw [bookkeeps_iff _ hwf (show 0 < usizeSize by decide) bookkept_new]
  intro hall
  obtain ⟨-, out, m, hrun, hop, -⟩ := hall
  obtain ⟨out', m', hrun', he⟩ := MapOp.run_effect hwf (.insert false 5 10)
  rw [hrun, Option.some.injEq, Prod.mk.injEq] at hrun'
  obtain ⟨rfl, rfl⟩ := hrun'
  have hc := (contains_false (he.wf hwf) 5).mp hop.1
  cases he with
  | insert hs _ =>
    rw [hs.lookup] at hc
    cases hc

end Apfmalloc
