/-!
# Lists with keys and tables of chains

Entries of any type `α` with a key of any type `K` under a Boolean equality. A
list of entries is a map when no key is in it twice (`Distinct`); `findKey` is its
lookup. A table is a list of chains, and `Homed` says that an entry is in the chain
that the index of its key names.

What carries a hash table is `TableOk.findKey_flatten`: looking a key up in its
chain is looking it up among all entries. A small map that is not a table is a list of
pairs under `List.lookup`, and `insertKey` is its insertion.
-/

namespace Apfmalloc.Base

variable {α K : Type} [BEq K] (key : α → K)

/-- No key is in the list twice. -/
def Distinct (l : List α) : Prop := l.Pairwise fun a b => (key a == key b) = false

/-- The first entry with the key. -/
def findKey (k : K) (l : List α) : Option α := l.find? fun a => key a == k

/-- No entry has the key. -/
def NoKey (k : K) (l : List α) : Prop := ∀ a ∈ l, (key a == k) = false

/-- `l` is `pre ++ a :: post` and `a` is its one entry with the key. -/
structure Found (k : K) (l pre : List α) (a : α) (post : List α) : Prop where
  eq : l = pre ++ a :: post
  hit : (key a == k) = true
  pre : NoKey key k pre
  post : NoKey key k post

section Keys

variable {key} {k : K} {l pre post : List α} {a : α}

theorem NoKey.findKey (h : NoKey key k l) : findKey key k l = none :=
  List.find?_eq_none.mpr fun a ha => by rw [h a ha]; exact Bool.false_ne_true

theorem findKey_append (l l' : List α) :
    findKey key k (l ++ l') = (findKey key k l).or (findKey key k l') :=
  List.find?_append

theorem findKey_cons_of_pos (l : List α) (h : (key a == k) = true) :
    findKey key k (a :: l) = some a :=
  List.find?_cons_of_pos h

theorem findKey_cons_of_neg (l : List α) (h : (key a == k) = false) :
    findKey key k (a :: l) = findKey key k l :=
  List.find?_cons_of_neg (by rw [h]; exact Bool.false_ne_true)

theorem Found.findKey (h : Found key k l pre a post) : findKey key k l = some a := by
  rw [h.eq, findKey_append, h.pre.findKey, findKey_cons_of_pos _ h.hit]
  rfl

/-- Rewriting entries without changing their keys commutes with the lookup. -/
theorem findKey_map {f : α → α} (hf : ∀ a, key (f a) = key a) (l : List α) :
    findKey key k (l.map f) = (findKey key k l).map f := by
  rw [findKey, List.find?_map, findKey]
  congr 2
  funext a
  exact congrArg (· == k) (hf a)

theorem Found.getElem? (h : Found key k l pre a post) : l[pre.length]? = some a := by
  rw [h.eq, List.getElem?_append_right (Nat.le_refl _), Nat.sub_self]
  rfl

theorem Found.length_pos (h : Found key k l pre a post) : 0 < l.length := by
  rw [h.eq, List.length_append, List.length_cons]
  omega

theorem Found.distinct_replace (h : Found key k l pre a post) {a' : α} (hk : key a' = key a)
    (hd : Distinct key l) : Distinct key (pre ++ a' :: post) := by
  rw [h.eq] at hd
  unfold Distinct at *
  rw [List.pairwise_append, List.pairwise_cons] at *
  obtain ⟨h1, ⟨h2, h3⟩, h4⟩ := hd
  refine ⟨h1, ⟨fun b hb => by rw [hk]; exact h2 b hb, h3⟩, fun b hb c hc => ?_⟩
  rcases List.mem_cons.mp hc with rfl | hc
  · rw [hk]
    exact h4 b hb a (List.mem_cons_self ..)
  · exact h4 b hb c (List.mem_cons_of_mem _ hc)

theorem Found.distinct_remove (h : Found key k l pre a post) (hd : Distinct key l) :
    Distinct key (pre ++ post) := by
  rw [h.eq] at hd
  exact hd.sublist ((List.sublist_cons_self a post).append_left pre)

variable [EquivBEq K]

/-- With distinct keys there is no entry or one. -/
theorem Distinct.cases (h : Distinct key l) (k : K) :
    NoKey key k l ∨ ∃ pre a post, Found key k l pre a post := by
  induction l with
  | nil => exact Or.inl fun _ ha => (List.not_mem_nil ha).elim
  | cons x l ih =>
    obtain ⟨hx, hl⟩ := List.pairwise_cons.mp h
    by_cases hk : (key x == k) = true
    · refine Or.inr ⟨[], x, l, rfl, hk, fun _ ha => (List.not_mem_nil ha).elim, fun a ha => ?_⟩
      have := BEq.neq_of_beq_of_neq (BEq.symm hk) (hx a ha)
      exact BEq.symm_false this
    · rw [Bool.not_eq_true] at hk
      rcases ih hl with hno | ⟨pre, a, post, hf⟩
      · refine Or.inl fun a ha => ?_
        rcases List.mem_cons.mp ha with rfl | ha
        · exact hk
        · exact hno a ha
      · refine Or.inr ⟨x :: pre, a, post, by rw [hf.eq]; rfl, hf.hit, fun b hb => ?_, hf.post⟩
        rcases List.mem_cons.mp hb with rfl | hb
        · exact hk
        · exact hf.pre b hb

theorem Distinct.findKey_of_mem (h : Distinct key l) (ha : a ∈ l) (hk : (key a == k) = true) :
    findKey key k l = some a := by
  rcases h.cases k with hno | ⟨pre, b, post, hf⟩
  · rw [hno a ha] at hk
    cases hk
  · rw [hf.findKey]
    rw [hf.eq] at ha
    rcases List.mem_append.mp ha with ha | ha
    · rw [hf.pre a ha] at hk
      cases hk
    · rcases List.mem_cons.mp ha with rfl | ha
      · rfl
      · rw [hf.post a ha] at hk
        cases hk

/-- An entry for a key that was not there. -/
theorem NoKey.findKey_concat (h : NoKey key k l) (hk : (key a == k) = true) (k' : K) :
    Base.findKey key k' (l ++ [a]) = if k == k' then some a else Base.findKey key k' l := by
  rw [findKey_append]
  by_cases hkk : (k == k') = true
  · have hno : NoKey key k' l := fun b hb => BEq.neq_of_neq_of_beq (h b hb) hkk
    rw [if_pos hkk, hno.findKey, findKey_cons_of_pos _ (BEq.trans hk hkk)]
    rfl
  · rw [if_neg hkk]
    rw [Bool.not_eq_true] at hkk
    rw [findKey_cons_of_neg _ (BEq.neq_of_beq_of_neq hk hkk)]
    exact Option.or_none

theorem NoKey.distinct_concat (h : NoKey key k l) (hk : (key a == k) = true)
    (hd : Distinct key l) : Distinct key (l ++ [a]) := by
  refine List.pairwise_append.mpr ⟨hd, List.pairwise_singleton .., fun b hb c hc => ?_⟩
  rw [List.mem_singleton.mp hc]
  exact BEq.neq_of_neq_of_beq (h b hb) (BEq.symm hk)

/-- Another entry for the same key in the place of the old one. -/
theorem Found.findKey_replace (h : Found key k l pre a post) {a' : α}
    (hk : key a' = key a) (k' : K) : Base.findKey key k' (pre ++ a' :: post) =
      if k == k' then some a' else Base.findKey key k' l := by
  rw [h.eq, findKey_append, findKey_append]
  by_cases hkk : (k == k') = true
  · have hno : NoKey key k' pre := fun b hb => BEq.neq_of_neq_of_beq (h.pre b hb) hkk
    rw [if_pos hkk, hno.findKey, findKey_cons_of_pos _ (by rw [hk]; exact BEq.trans h.hit hkk)]
    rfl
  · rw [if_neg hkk]
    rw [Bool.not_eq_true] at hkk
    have ha := BEq.neq_of_beq_of_neq h.hit hkk
    rw [findKey_cons_of_neg _ ha, findKey_cons_of_neg _ (by rw [hk]; exact ha)]

/-- The list without its entry for the key. -/
theorem Found.findKey_remove (h : Found key k l pre a post) (k' : K) :
    Base.findKey key k' (pre ++ post) = if k == k' then none else Base.findKey key k' l := by
  rw [h.eq, findKey_append, findKey_append]
  by_cases hkk : (k == k') = true
  · have hpre : NoKey key k' pre := fun b hb => BEq.neq_of_neq_of_beq (h.pre b hb) hkk
    have hpost : NoKey key k' post := fun b hb => BEq.neq_of_neq_of_beq (h.post b hb) hkk
    rw [if_pos hkk, hpre.findKey, hpost.findKey]
    rfl
  · rw [if_neg hkk]
    rw [Bool.not_eq_true] at hkk
    rw [findKey_cons_of_neg _ (BEq.neq_of_beq_of_neq h.hit hkk)]

/-- Distinct keys that all occur in another list are no more than it has. -/
theorem Distinct.length_le {l l' : List α} (h : Distinct key l)
    (hcover : ∀ a ∈ l, ∃ b ∈ l', (key a == key b) = true) : l.length ≤ l'.length := by
  induction l generalizing l' with
  | nil => exact Nat.zero_le _
  | cons x l ih =>
    obtain ⟨hx, hl⟩ := List.pairwise_cons.mp h
    obtain ⟨b, hb, hxb⟩ := hcover x (List.mem_cons_self ..)
    obtain ⟨pre, post, rfl⟩ := List.append_of_mem hb
    -- the partner of `x` is the partner of no other key
    have hle : l.length ≤ (pre ++ post).length := by
      refine ih hl fun a ha => ?_
      obtain ⟨c, hc, hac⟩ := hcover a (List.mem_cons_of_mem _ ha)
      refine ⟨c, ?_, hac⟩
      rcases List.mem_append.mp hc with hc | hc
      · exact List.mem_append_left _ hc
      · rcases List.mem_cons.mp hc with rfl | hc
        · have := BEq.trans hxb (BEq.symm hac)
          rw [hx a ha] at this
          cases this
        · exact List.mem_append_right _ hc
    simp only [List.length_append, List.length_cons] at hle ⊢
    omega

end Keys

/-! ## Tables of chains -/

/-- Every entry is in the chain its index names. -/
def Homed (index : K → Nat) (t : List (List α)) : Prop :=
  ∀ i c, t[i]? = some c → ∀ a ∈ c, index (key a) = i

/-- A table whose chains have distinct keys. -/
structure TableOk (index : K → Nat) (t : List (List α)) : Prop where
  home : Homed key index t
  distinct : ∀ c ∈ t, Distinct key c

section Tables

variable {key} {index : K → Nat} {t : List (List α)} {i : Nat} {c c' : List α}

theorem TableOk.set (h : TableOk key index t) (hhome : ∀ a ∈ c', index (key a) = i)
    (hd : Distinct key c') : TableOk key index (t.set i c') := by
  refine ⟨fun j d hj a ha => ?_, fun d hd' => ?_⟩
  · rw [List.getElem?_set] at hj
    split at hj
    next hij =>
      split at hj
      next => cases hj; rw [← hij]; exact hhome a ha
      next => cases hj
    next => exact h.home j d hj a ha
  · rcases List.mem_or_eq_of_mem_set hd' with hd' | rfl
    · exact h.distinct d hd'
    · exact hd

theorem chain_set (hi : i < t.length) (j : Nat) :
    (t.set i c')[j]? = if i = j then some c' else t[j]? := by
  rw [List.getElem?_set]
  by_cases hij : i = j
  · rw [if_pos hij, if_pos hij, if_pos hi]
  · rw [if_neg hij, if_neg hij]

/-- The entries of a table after one chain changed. -/
theorem flatten_set (hc : t[i]? = some c) (d : List α) :
    ∃ t₁ t₂ : List (List α), t = t₁ ++ c :: t₂ ∧ t.set i d = t₁ ++ d :: t₂ := by
  obtain ⟨hi, rfl⟩ := List.getElem?_eq_some_iff.mp hc
  refine ⟨t.take i, t.drop (i + 1), ?_, List.set_eq_take_append_cons_drop.trans (if_pos hi)⟩
  rw [List.getElem_cons_drop, List.take_append_drop]

theorem length_flatten_set (hc : t[i]? = some c) (d : List α) :
    (t.set i d).flatten.length + c.length = t.flatten.length + d.length := by
  obtain ⟨t₁, t₂, ht, ht'⟩ := flatten_set hc d
  rw [ht', ht]
  simp only [List.flatten_append, List.flatten_cons, List.length_append]
  omega

theorem countP_set_chain (p : List α → Bool) (hc : t[i]? = some c) (d : List α) :
    (t.set i d).countP p + (if p c then 1 else 0) = t.countP p + if p d then 1 else 0 := by
  obtain ⟨t₁, t₂, ht, ht'⟩ := flatten_set hc d
  rw [ht', ht]
  simp only [List.countP_append, List.countP_cons]
  omega

/-- The keys of all entries are distinct. -/
theorem TableOk.distinct_flatten (h : TableOk key index t)
    (hindex : ∀ k k', (k == k') = true → index k = index k') : Distinct key t.flatten := by
  refine List.pairwise_flatten.mpr ⟨h.distinct, List.pairwise_iff_getElem.mpr ?_⟩
  intro i j hi hj hij a ha b hb
  rw [Bool.eq_false_iff]
  intro hab
  have h1 := h.home i _ (List.getElem?_eq_getElem hi) a ha
  have h2 := h.home j _ (List.getElem?_eq_getElem hj) b hb
  have := hindex _ _ hab
  omega

variable [EquivBEq K]

/-- **A key is in its chain or nowhere.** -/
theorem TableOk.findKey_flatten (h : TableOk key index t)
    (hindex : ∀ k k', (k == k') = true → index k = index k') {k : K} (hc : t[index k]? = some c) :
    findKey key k t.flatten = findKey key k c := by
  have hmem := List.mem_of_getElem? hc
  rcases (h.distinct c hmem).cases k with hno | ⟨pre, a, post, hf⟩
  · rw [hno.findKey]
    refine NoKey.findKey fun a ha => ?_
    rw [Bool.eq_false_iff]
    intro hk
    obtain ⟨d, hd, ha⟩ := List.mem_flatten.mp ha
    obtain ⟨j, hj⟩ := List.mem_iff_getElem?.mp hd
    have hidx := h.home j d hj a ha
    rw [hindex _ _ hk] at hidx
    rw [← hidx, hc] at hj
    cases hj
    rw [hno a ha] at hk
    cases hk
  · rw [hf.findKey]
    refine (h.distinct_flatten hindex).findKey_of_mem (List.mem_flatten.mpr ⟨c, hmem, ?_⟩) hf.hit
    rw [hf.eq]
    exact List.mem_append_right _ (List.mem_cons_self ..)

end Tables

/-! ## Maps as lists of pairs -/

section Maps

variable {V : Type}

def insertKey (k : K) (v : V) (m : List (K × V)) : List (K × V) :=
  (k, v) :: m.filter fun e => !(e.1 == k)

variable [LawfulBEq K] {k k' : K} {m : List (K × V)}

theorem lookup_filter_ne (h : k' ≠ k) :
    (m.filter fun e => !(e.1 == k)).lookup k' = m.lookup k' := by
  induction m with
  | nil => rfl
  | cons e m ih =>
    by_cases he : e.1 = k
    · have hk : (k' == e.1) = false := beq_eq_false_iff_ne.mpr fun hc => h (hc.trans he)
      rw [List.filter_cons_of_neg (by simp [he]), ih, List.lookup_cons, hk]
    · rw [List.filter_cons_of_pos (by simpa using he), List.lookup_cons, List.lookup_cons, ih]

theorem lookup_insertKey (v : V) :
    (insertKey k v m).lookup k' = if k' == k then some v else m.lookup k' := by
  rw [insertKey, List.lookup_cons]
  by_cases h : k' = k
  · rw [beq_iff_eq.mpr h]
    rfl
  · rw [beq_eq_false_iff_ne.mpr h]
    exact lookup_filter_ne h

/-- A new key is one entry more. -/
theorem length_insertKey (v : V) (h : m.lookup k = none) :
    (insertKey k v m).length = m.length + 1 := by
  rw [insertKey, List.length_cons, List.filter_eq_self.mpr]
  intro e he
  have hne := List.lookup_eq_none_iff.mp h e he
  rw [bne_iff_ne] at hne
  simpa using Ne.symm hne

/-- A list of keys with the value of each is the map of that function. -/
theorem lookup_map_pair {ks : List K} (g : K → V) (h : k ∈ ks) :
    (ks.map fun k => (k, g k)).lookup k = some (g k) := by
  induction ks with
  | nil => cases h
  | cons k' ks ih =>
    rw [List.map_cons, List.lookup_cons]
    by_cases hk : k = k'
    · rw [beq_iff_eq.mpr hk, hk]
    · rw [beq_eq_false_iff_ne.mpr hk]
      exact ih ((List.mem_cons.mp h).resolve_left hk)

end Maps

end Apfmalloc.Base
