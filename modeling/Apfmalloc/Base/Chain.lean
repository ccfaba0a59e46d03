/-!
# Chains: lists threaded through a successor function

Every list of an allocator is threaded through its own nodes: each node holds,
in some encoding, the address of the next. `ChainTo f a l z` says that decoding
with `f` walks from `a` through exactly the nodes `l` and stops at `z`. What
`z` is (null, one past the last block, stale garbage) is up to the client, and
so is the encoding; the lemmas here only use that a step of the walk is a
function of the node.
-/

namespace Apfmalloc.Base

variable {α : Type}

def ChainTo (f : α → α) (a : α) : List α → α → Prop
  | [], z => a = z
  | x :: l, z => a = x ∧ ChainTo f (f x) l z

@[simp] theorem chainTo_nil {f : α → α} {a z : α} : ChainTo f a [] z ↔ a = z := Iff.rfl

@[simp] theorem chainTo_cons {f : α → α} {a x z : α} {l : List α} :
    ChainTo f a (x :: l) z ↔ a = x ∧ ChainTo f (f x) l z := Iff.rfl

instance decidableChainTo [DecidableEq α] (f : α → α) :
    ∀ (a : α) (l : List α) (z : α), Decidable (ChainTo f a l z)
  | a, [], z => inferInstanceAs (Decidable (a = z))
  | a, x :: l, z =>
    have := decidableChainTo f (f x) l z
    inferInstanceAs (Decidable (a = x ∧ ChainTo f (f x) l z))

/-- A chain only looks at its own nodes. -/
theorem ChainTo.congr {f g : α → α} {a z : α} :
    ∀ {l : List α}, (∀ x ∈ l, f x = g x) → ChainTo f a l z → ChainTo g a l z := by
  intro l
  induction l generalizing a with
  | nil => intro _ h; exact h
  | cons x l ih =>
    intro hfg h
    obtain ⟨rfl, h⟩ := h
    refine ⟨rfl, ?_⟩
    rw [← hfg a (List.mem_cons_self ..)]
    exact ih (fun y hy => hfg y (List.mem_cons_of_mem _ hy)) h

/-- Two chains meet end to end. -/
theorem chainTo_append {f : α → α} {a z : α} :
    ∀ {l₁ l₂ : List α}, ChainTo f a (l₁ ++ l₂) z ↔
      ∃ y, ChainTo f a l₁ y ∧ ChainTo f y l₂ z := by
  intro l₁ l₂
  induction l₁ generalizing a with
  | nil => simp
  | cons x l₁ ih =>
    rw [List.cons_append, chainTo_cons, ih]
    constructor
    · rintro ⟨rfl, y, h₁, h₂⟩
      exact ⟨y, ⟨rfl, h₁⟩, h₂⟩
    · rintro ⟨y, ⟨rfl, h₁⟩, h₂⟩
      exact ⟨rfl, y, h₁, h₂⟩

/-- The walk is determined by where it starts and how long it is. -/
theorem ChainTo.unique {f : α → α} {a z z' : α} :
    ∀ {l l' : List α}, ChainTo f a l z → ChainTo f a l' z' → l.length = l'.length →
      l = l' ∧ z = z' := by
  intro l
  induction l generalizing a with
  | nil =>
    intro l' h h' hlen
    cases l' with
    | nil => exact ⟨rfl, h.symm.trans h'⟩
    | cons _ _ => cases hlen
  | cons x l ih =>
    intro l' h h' hlen
    cases l' with
    | nil => cases hlen
    | cons x' l' =>
      obtain ⟨rfl, h⟩ := h
      obtain ⟨rfl, h'⟩ := h'
      obtain ⟨rfl, rfl⟩ := ih h h' (by simpa using hlen)
      exact ⟨rfl, rfl⟩

/-- A walk that stops the first time it is at `z` is determined by where it starts. -/
theorem ChainTo.unique_end {f : α → α} {a z : α} :
    ∀ {l l' : List α}, ChainTo f a l z → ChainTo f a l' z → z ∉ l → z ∉ l' → l = l' := by
  intro l
  induction l generalizing a with
  | nil =>
    intro l' h h' _ hz'
    cases l' with
    | nil => rfl
    | cons x' l' => exact absurd (h.symm.trans h'.1 ▸ List.mem_cons_self ..) hz'
  | cons x l ih =>
    intro l' h h' hz hz'
    cases l' with
    | nil => exact absurd (h'.symm.trans h.1 ▸ List.mem_cons_self ..) hz
    | cons x' l' =>
      obtain ⟨rfl, h⟩ := h
      obtain ⟨rfl, h'⟩ := h'
      rw [ih h h' (fun hm => hz (List.mem_cons_of_mem _ hm))
        fun hm => hz' (List.mem_cons_of_mem _ hm)]

/-- Inside a chain every successor is a node. -/
theorem ChainTo.next_mem {f : α → α} {y z : α} :
    ∀ {l : List α} {a : α}, ChainTo f a (l ++ [y]) z → ∀ x ∈ l, f x ∈ l ++ [y] := by
  intro l
  induction l with
  | nil => intro a _ x hx; exact (List.not_mem_nil hx).elim
  | cons x l ih =>
    intro a h w hw
    obtain ⟨-, h⟩ := h
    rcases List.mem_cons.mp hw with rfl | hw
    · refine List.mem_cons_of_mem _ ?_
      cases l with
      | nil =>
        obtain ⟨he, -⟩ := h
        rw [he]
        exact List.mem_cons_self ..
      | cons v l =>
        obtain ⟨he, -⟩ := h
        rw [he]
        exact List.mem_cons_self ..
    · exact List.mem_cons_of_mem _ (ih h w hw)

/-! ## Null-terminated lists -/

/-- From the head `h`, following `next`, the nodes are exactly `l` and then
null. -/
def Linked (next : α → Option α) : Option α → List α → Prop
  | h, [] => h = none
  | h, x :: l => h = some x ∧ Linked next (next x) l

@[simp] theorem linked_nil {next : α → Option α} {h : Option α} :
    Linked next h [] ↔ h = none := Iff.rfl

@[simp] theorem linked_cons {next : α → Option α} {h : Option α} {x : α} {l : List α} :
    Linked next h (x :: l) ↔ h = some x ∧ Linked next (next x) l := Iff.rfl

theorem Linked.congr {next next' : α → Option α} {h : Option α} :
    ∀ {l : List α}, (∀ x ∈ l, next x = next' x) → Linked next h l → Linked next' h l := by
  intro l
  induction l generalizing h with
  | nil => intro _ hl; exact hl
  | cons x l ih =>
    intro heq hl
    obtain ⟨hx, hl⟩ := hl
    refine ⟨hx, ?_⟩
    rw [← heq x (List.mem_cons_self ..)]
    exact ih (fun y hy => heq y (List.mem_cons_of_mem _ hy)) hl

/-- A null-terminated walk visits one list only. -/
theorem Linked.unique {next : α → Option α} {h : Option α} :
    ∀ {l l' : List α}, Linked next h l → Linked next h l' → l = l' := by
  intro l
  induction l generalizing h with
  | nil =>
    intro l' hl hl'
    cases l' with
    | nil => rfl
    | cons x l' => cases hl.symm.trans hl'.1
  | cons x l ih =>
    intro l' hl hl'
    cases l' with
    | nil => cases hl'.symm.trans hl.1
    | cons x' l' =>
      have hx : x = x' := Option.some.inj (hl.1.symm.trans hl'.1)
      subst hx
      rw [ih hl.2 hl'.2]

/-! ## Evenly spaced nodes -/

/-- Nodes `a, a + b, …, a + (n-1)·b`. -/
def strideList (a b : Nat) : Nat → List Nat
  | 0 => []
  | n + 1 => a :: strideList (a + b) b n

@[simp] theorem strideList_length (a b n : Nat) : (strideList a b n).length = n := by
  induction n generalizing a with
  | zero => rfl
  | succ n ih => rw [strideList, List.length_cons, ih]

theorem mem_strideList {a b x : Nat} :
    ∀ {n : Nat}, x ∈ strideList a b n ↔ ∃ i < n, x = a + i * b := by
  intro n
  induction n generalizing a with
  | zero => simp [strideList]
  | succ n ih =>
    rw [strideList, List.mem_cons, ih]
    constructor
    · rintro (rfl | ⟨i, hi, rfl⟩)
      · exact ⟨0, by omega, by rw [Nat.zero_mul, Nat.add_zero]⟩
      · exact ⟨i + 1, by omega, by rw [Nat.succ_mul]; omega⟩
    · rintro ⟨i, hi, rfl⟩
      cases i with
      | zero => left; rw [Nat.zero_mul, Nat.add_zero]
      | succ i => right; exact ⟨i, by omega, by rw [Nat.succ_mul]; omega⟩

/-- A node and its stride are inside the range the nodes are cut from. -/
theorem strideList_inside {a b n x : Nat} (hx : x ∈ strideList a b n) :
    a ≤ x ∧ x + b ≤ a + b * n := by
  obtain ⟨i, hi, rfl⟩ := mem_strideList.mp hx
  have hmul : i * b + b ≤ b * n := by
    rw [← Nat.succ_mul, Nat.mul_comm]
    exact Nat.mul_le_mul_left _ hi
  omega

/-- A positive stride never repeats a node. -/
theorem strideList_nodup {a b : Nat} (hb : 0 < b) (n : Nat) : (strideList a b n).Nodup := by
  induction n generalizing a with
  | zero => exact List.nodup_nil
  | succ n ih =>
    rw [strideList, List.nodup_cons]
    refine ⟨fun hmem => ?_, ih⟩
    obtain ⟨i, _, hi⟩ := mem_strideList.mp hmem
    omega

/-- A successor function that adds the stride to every node but the last walks
the whole stride list. -/
theorem chainTo_strideList {f : Nat → Nat} {b : Nat} :
    ∀ {n a : Nat}, (∀ i, i + 1 < n → f (a + i * b) = a + (i + 1) * b) → 0 < n →
      ChainTo f a (strideList a b n) (f (a + (n - 1) * b)) := by
  intro n
  induction n with
  | zero => intro a _ h; exact absurd h (Nat.lt_irrefl 0)
  | succ n ih =>
    intro a hf _
    refine ⟨rfl, ?_⟩
    cases n with
    | zero => rw [strideList, chainTo_nil, Nat.zero_add, Nat.sub_self, Nat.zero_mul, Nat.add_zero]
    | succ n =>
      have h0 := hf 0 (by omega)
      rw [Nat.zero_mul, Nat.add_zero, Nat.zero_add, Nat.one_mul] at h0
      rw [h0]
      have hrest : ∀ i, i + 1 < n + 1 → f (a + b + i * b) = a + b + (i + 1) * b := by
        intro i hi
        have := hf (i + 1) (by omega)
        rw [show a + b + i * b = a + (i + 1) * b by rw [Nat.succ_mul]; omega, this]
        rw [Nat.succ_mul (i + 1)]
        omega
      have := ih hrest (Nat.succ_pos n)
      rwa [show a + b + (n + 1 - 1) * b = a + (n + 1 + 1 - 1) * b by
        rw [Nat.add_sub_cancel, Nat.add_sub_cancel, Nat.succ_mul]; omega] at this

end Apfmalloc.Base
