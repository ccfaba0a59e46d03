/-!
# Runs of equal keys

A list whose elements have keys falls into maximal runs of elements with one key.
`splitRuns` gives the key and the length of each run, in order; `splitRuns_append`
is how a program that works run by run peels the first one off.
-/

namespace Apfmalloc.Base

variable {α β : Type} [DecidableEq β]

/-- The key and the length of each maximal run. -/
def splitRuns (key : α → β) : List α → List (β × Nat)
  | [] => []
  | x :: l =>
    match splitRuns key l with
    | [] => [(key x, 1)]
    | (b, n) :: r => if b = key x then (b, n + 1) :: r else (key x, 1) :: (b, n) :: r

theorem splitRuns_head {key : α → β} {x : α} {b : β} {n : Nat} {l : List α} {r : List (β × Nat)}
    (h : splitRuns key (x :: l) = (b, n) :: r) : b = key x := by
  rw [splitRuns] at h
  split at h
  next => exact (Prod.mk.inj (List.cons.inj h).1).1.symm
  next =>
    split at h
    next he => exact (Prod.mk.inj (List.cons.inj h).1).1.symm.trans he
    next => exact (Prod.mk.inj (List.cons.inj h).1).1.symm

/-- Elements of one key, and then one of another key, are the first run. -/
theorem splitRuns_append {key : α → β} {b : β} {rest : List α}
    (hrest : ∀ x l, rest = x :: l → key x ≠ b) :
    ∀ {run : List α}, run ≠ [] → (∀ x ∈ run, key x = b) →
      splitRuns key (run ++ rest) = (b, run.length) :: splitRuns key rest := by
  intro run
  induction run with
  | nil => intro h _; exact absurd rfl h
  | cons x run ih =>
    intro _ hrun
    have hx := hrun x (List.mem_cons_self ..)
    cases run with
    | nil =>
      rw [List.singleton_append, splitRuns, hx, List.length_singleton]
      cases hs : splitRuns key rest with
      | nil => rfl
      | cons p r =>
        obtain ⟨b', n⟩ := p
        cases rest with
        | nil => cases hs
        | cons y l =>
          have hb' := splitRuns_head hs
          exact if_neg fun he => hrest y l rfl (hb'.symm.trans he)
    | cons y run =>
      have := ih (List.cons_ne_nil _ _) fun w hw => hrun w (List.mem_cons_of_mem _ hw)
      rw [List.cons_append, splitRuns, this, hx]
      exact if_pos rfl

theorem splitRuns_congr {key key' : α → β} :
    ∀ {l : List α}, (∀ x ∈ l, key x = key' x) → splitRuns key l = splitRuns key' l := by
  intro l
  induction l with
  | nil => intro _; rfl
  | cons x l ih =>
    intro h
    rw [splitRuns, splitRuns, ih fun w hw => h w (List.mem_cons_of_mem _ hw),
      h x (List.mem_cons_self ..)]

/-- Every run has the key of one of the elements. -/
theorem splitRuns_key {key : α → β} {p : β × Nat} :
    ∀ {l : List α}, p ∈ splitRuns key l → ∃ x ∈ l, key x = p.1 := by
  intro l
  induction l with
  | nil => intro h; exact (List.not_mem_nil h).elim
  | cons x l ih =>
    intro h
    rw [splitRuns] at h
    split at h
    next =>
      rw [List.mem_singleton] at h
      exact ⟨x, List.mem_cons_self .., by rw [h]⟩
    next b n r hr =>
      rw [hr] at ih
      have htail : p ∈ (b, n) :: r → ∃ y ∈ x :: l, key y = p.1 := fun hp => by
        obtain ⟨y, hy, hk⟩ := ih hp
        exact ⟨y, List.mem_cons_of_mem _ hy, hk⟩
      split at h
      next he =>
        rcases List.mem_cons.mp h with h | h
        · exact ⟨x, List.mem_cons_self .., by rw [h, he]⟩
        · exact htail (List.mem_cons_of_mem _ h)
      next =>
        rcases List.mem_cons.mp h with h | h
        · exact ⟨x, List.mem_cons_self .., by rw [h]⟩
        · exact htail h

end Apfmalloc.Base
