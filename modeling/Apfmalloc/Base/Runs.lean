/-!
# Runs of a labelled step relation

A system is a step relation `step s a s'` on states, one label per operation.
`Run step s as s'` is a finite run with its labels in order, which is what a
statement about every interleaving or every order of operations quantifies
over. `Run.invariant` is the induction all of them share.
-/

namespace Apfmalloc.Base

variable {σ κ : Type}

inductive Run (step : σ → κ → σ → Prop) : σ → List κ → σ → Prop
  | nil (s : σ) : Run step s [] s
  | cons {s s' s'' : σ} {a : κ} {as : List κ} :
      step s a s' → Run step s' as s'' → Run step s (a :: as) s''

/-- What every step keeps, every run keeps. -/
theorem Run.invariant {step : σ → κ → σ → Prop} {P : σ → Prop}
    (hstep : ∀ {s a s'}, P s → step s a s' → P s') :
    ∀ {s as s'}, Run step s as s' → P s → P s' := by
  intro s as s' hrun
  induction hrun with
  | nil s => intro h; exact h
  | cons hs _ ih => intro h; exact ih (hstep h hs)

theorem Run.append {step : σ → κ → σ → Prop} {s s' s'' : σ} {as bs : List κ}
    (h₁ : Run step s as s') (h₂ : Run step s' bs s'') : Run step s (as ++ bs) s'' := by
  induction h₁ with
  | nil _ => exact h₂
  | cons hs _ ih => exact .cons hs (ih h₂)

/-- A weaker step relation has more runs. -/
theorem Run.mono {step step' : σ → κ → σ → Prop} (h : ∀ {s a s'}, step s a s' → step' s a s') :
    ∀ {s as s'}, Run step s as s' → Run step' s as s' := by
  intro s as s' hrun
  induction hrun with
  | nil s => exact .nil s
  | cons hs _ ih => exact .cons (h hs) ih

/-- A simulation that matches every step with one step of the same label lifts to
runs. -/
theorem Run.simulation {τ : Type} {step : σ → κ → σ → Prop} {step' : τ → κ → τ → Prop}
    {R : σ → τ → Prop}
    (hsim : ∀ {s a s' q}, R s q → step s a s' → ∃ q', step' q a q' ∧ R s' q') :
    ∀ {s as s'}, Run step s as s' → ∀ {q}, R s q → ∃ q', Run step' q as q' ∧ R s' q' := by
  intro s as s' hrun
  induction hrun with
  | nil s => intro q h; exact ⟨q, .nil q, h⟩
  | cons hs _ ih =>
    intro q h
    obtain ⟨q₁, hq₁, h₁⟩ := hsim h hs
    obtain ⟨q₂, hq₂, h₂⟩ := ih h₁
    exact ⟨q₂, .cons hq₁ hq₂, h₂⟩

end Apfmalloc.Base
