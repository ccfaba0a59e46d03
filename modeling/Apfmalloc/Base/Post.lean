/-!
# Postconditions of a computation that may fail

`Post allowed P x` says that `x` returns a value with `P`, or fails with an error
that is `allowed`. The bind rule is the one for sequencing: what the first part
returns is what the second one starts from, and an allowed failure of either is one
of the whole.
-/

namespace Apfmalloc.Base

variable {ε α β : Type} {allowed : ε → Prop}

def Post (allowed : ε → Prop) (P : α → Prop) : Except ε α → Prop
  | .ok a => P a
  | .error e => allowed e

@[simp] theorem ok_bind (a : α) (f : α → Except ε β) : (Except.ok a >>= f) = f a := rfl

@[simp] theorem error_bind (e : ε) (f : α → Except ε β) :
    ((Except.error e : Except ε α) >>= f) = .error e := rfl

/-- A sequence that returns, in its two parts. -/
theorem ok_of_bind {x : Except ε α} {f : α → Except ε β} {b : β} (h : x >>= f = .ok b) :
    ∃ a, x = .ok a ∧ f a = .ok b := by
  cases x with
  | ok a => exact ⟨a, rfl, h⟩
  | error e => cases h

theorem map_eq_ok {x : Except ε α} {f : α → β} {b : β} :
    x.map f = .ok b ↔ ∃ a, x = .ok a ∧ f a = b := by
  cases x with
  | ok a =>
    constructor
    · intro h
      exact ⟨a, rfl, Except.ok.inj h⟩
    · intro ⟨a', ha, hb⟩
      cases ha
      exact congrArg Except.ok hb
  | error e =>
    constructor
    · intro h
      cases h
    · intro ⟨_, ha, _⟩
      cases ha

/-- For computations that are run. -/
theorem ok_of_isSome {x : Except ε α} (h : x.toOption.isSome = true) : ∃ a, x = .ok a := by
  cases x with
  | ok a => exact ⟨a, rfl⟩
  | error e => cases h

theorem Post.mono {P Q : α → Prop} {x : Except ε α} (hx : Post allowed P x) (h : ∀ a, P a → Q a) :
    Post allowed Q x := by
  cases x with
  | ok a => exact h a hx
  | error e => exact hx

/-- More failures may be allowed. -/
theorem Post.weaken {allowed' : ε → Prop} {P : α → Prop} {x : Except ε α} (hx : Post allowed P x)
    (h : ∀ e, allowed e → allowed' e) : Post allowed' P x := by
  cases x with
  | ok a => exact hx
  | error e => exact h e hx

theorem Post.bind {P : α → Prop} {Q : β → Prop} {x : Except ε α} {f : α → Except ε β}
    (hx : Post allowed P x) (hf : ∀ a, P a → Post allowed Q (f a)) : Post allowed Q (x >>= f) := by
  cases x with
  | ok a => exact hf a hx
  | error e => exact hx

/-- A computation that returned has its postcondition. -/
theorem Post.of_ok {P : α → Prop} {x : Except ε α} {a : α} (hx : Post allowed P x)
    (h : x = .ok a) : P a := by
  subst h
  exact hx

/-- What ran before the last step of a computation that returned. -/
theorem bind_eq_ok {x : Except ε α} {f : α → Except ε β} {r : β} :
    (x >>= f) = .ok r ↔ ∃ a, x = .ok a ∧ f a = .ok r := by
  cases x with
  | ok a =>
    refine ⟨fun h => ⟨a, rfl, h⟩, fun h => ?_⟩
    obtain ⟨b, hb, h⟩ := h
    exact Except.ok.inj hb ▸ h
  | error e =>
    refine ⟨fun h => (by cases h), fun h => ?_⟩
    obtain ⟨b, hb, -⟩ := h
    cases hb

end Apfmalloc.Base
