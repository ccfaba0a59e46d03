/-!
# Memory handed out from chunks

An arena cuts the next bytes off its last chunk. For a request that does not fit it
opens another chunk, and what is left of the old one is lost. Nothing is ever taken
back, so the ranges it has handed out are apart from each other and from what is left.
-/

namespace Apfmalloc.Base

/-- A range of addresses. -/
structure Span where
  start : Nat
  len : Nat
  deriving DecidableEq, Repr

def Span.Apart (r r' : Span) : Prop :=
  r.start + r.len ≤ r'.start ∨ r'.start + r'.len ≤ r.start

def Span.Within (r r' : Span) : Prop :=
  r'.start ≤ r.start ∧ r.start + r.len ≤ r'.start + r'.len

def Span.Has (r : Span) (x : Nat) : Prop := r.start ≤ x ∧ x < r.start + r.len

/-- Parts of ranges that are apart are apart. -/
theorem Span.Apart.parts {r r' q q' : Span} (h : r.Apart r') (hq : q.Within r)
    (hq' : q'.Within r') : q.Apart q' := by
  obtain ⟨hlo, hhi⟩ := hq
  obtain ⟨hlo', hhi'⟩ := hq'
  rcases h with h | h
  · exact Or.inl (by omega)
  · exact Or.inr (by omega)

theorem Span.Apart.symm {r r' : Span} (h : r.Apart r') : r'.Apart r := Or.symm h

theorem Span.Within.refl (r : Span) : r.Within r := ⟨Nat.le_refl _, Nat.le_refl _⟩

/-- A range of at least one address has its first one. -/
theorem Span.Within.has_start {r r' : Span} (h : r.Within r') (hlen : 0 < r.len) :
    r'.Has r.start :=
  ⟨h.1, by have := h.2; omega⟩

structure Arena where
  chunks : List Span
  /-- where the bytes that are left start, and how many they are -/
  next : Nat
  avail : Nat
  deriving DecidableEq, Repr

namespace Arena

/-- A request is served from what is left or from a new chunk. -/
inductive Serve (a : Arena) (size : Nat) : Nat → Arena → Prop
  | cut : size ≤ a.avail →
      Serve a size a.next { a with next := a.next + size, avail := a.avail - size }
  | fresh {c : Span} : a.avail < size → size ≤ c.len → (∀ r ∈ a.chunks, c.Apart r) →
      Serve a size c.start ⟨a.chunks ++ [c], c.start + size, c.len - size⟩

/-- After handing out `given`. -/
structure Sound (a : Arena) (given : List Span) : Prop where
  last : ∃ cs c, a.chunks = cs ++ [c] ∧ c.start ≤ a.next ∧ a.next + a.avail = c.start + c.len
  within : ∀ r ∈ given, ∃ c ∈ a.chunks, r.Within c
  apart : given.Pairwise Span.Apart
  left : ∀ r ∈ given, r.Apart ⟨a.next, a.avail⟩

theorem sound_open (c : Span) : Sound ⟨[c], c.start, c.len⟩ [] where
  last := ⟨[], c, rfl, Nat.le_refl _, rfl⟩
  within _ hr := (List.not_mem_nil hr).elim
  apart := .nil
  left _ hr := (List.not_mem_nil hr).elim

/-- **One request** keeps what was handed out apart. -/
theorem Sound.serve {a a' : Arena} {given : List Span} {size p : Nat} (h : a.Sound given)
    (hs : a.Serve size p a') : a'.Sound (⟨p, size⟩ :: given) := by
  obtain ⟨cs, c, hchunks, hlo, hend⟩ := h.last
  cases hs with
  | cut hle =>
    have hc : c ∈ a.chunks := hchunks ▸ List.mem_append_right _ (List.mem_singleton_self c)
    -- both parts of what was left are apart from everything else
    have hcut : Span.Within ⟨a.next, size⟩ ⟨a.next, a.avail⟩ :=
      ⟨Nat.le_refl _, Nat.add_le_add_left hle _⟩
    have hrest : Span.Within ⟨a.next + size, a.avail - size⟩ ⟨a.next, a.avail⟩ :=
      ⟨Nat.le_add_right _ _, by show a.next + size + (a.avail - size) ≤ a.next + a.avail; omega⟩
    refine ⟨⟨cs, c, hchunks, Nat.le_add_right_of_le hlo, ?_⟩, fun r hr => ?_,
      List.pairwise_cons.mpr ⟨fun r hr => ((h.left r hr).parts (.refl r) hcut).symm, h.apart⟩,
      fun r hr => ?_⟩
    · show a.next + size + (a.avail - size) = _
      omega
    · rcases List.mem_cons.mp hr with rfl | hr
      · exact ⟨c, hc, hlo, by show a.next + size ≤ _; omega⟩
      · exact h.within r hr
    · rcases List.mem_cons.mp hr with rfl | hr
      · exact Or.inl (Nat.le_refl _)
      · exact (h.left r hr).parts (.refl r) hrest
  | @fresh c' hlt hle hap =>
    have hcut : Span.Within ⟨c'.start, size⟩ c' := ⟨Nat.le_refl _, Nat.add_le_add_left hle _⟩
    have hrest : Span.Within ⟨c'.start + size, c'.len - size⟩ c' :=
      ⟨Nat.le_add_right _ _, by show c'.start + size + (c'.len - size) ≤ _; omega⟩
    -- what was handed out is in chunks that the new one is apart from
    have hnew : ∀ r ∈ given, ∀ q, q.Within c' → r.Apart q := by
      intro r hr q hq
      obtain ⟨c₀, hc₀, hw⟩ := h.within r hr
      exact (hap c₀ hc₀).symm.parts hw hq
    refine ⟨⟨a.chunks, c', rfl, Nat.le_add_right _ _, ?_⟩, fun r hr => ?_,
      List.pairwise_cons.mpr ⟨fun r hr => (hnew r hr _ hcut).symm, h.apart⟩, fun r hr => ?_⟩
    · show c'.start + size + (c'.len - size) = _
      omega
    · rcases List.mem_cons.mp hr with rfl | hr
      · exact ⟨c', List.mem_append_right _ (List.mem_singleton_self c'), hcut⟩
      · obtain ⟨c₀, hc₀, hw⟩ := h.within r hr
        exact ⟨c₀, List.mem_append_left _ hc₀, hw⟩
    · rcases List.mem_cons.mp hr with rfl | hr
      · exact Or.inl (Nat.le_refl _)
      · exact hnew r hr _ hrest

end Arena

end Apfmalloc.Base
