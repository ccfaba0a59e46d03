/-!
# At most one thread

`Sole p h`: the threads for which `p` holds are those of `h`, so there is at most one.
A critical section, a token that is handed on and a duty that one thread has taken over
are all of this shape, and a step changes it in one of three ways: the thread that moves
stays on its side, comes in where nobody was, or goes.
-/

namespace Apfmalloc.Base

def Sole (p : Nat → Prop) (h : Option Nat) : Prop := ∀ t, p t ↔ h = some t

variable {p p' : Nat → Prop} {h : Option Nat} {t : Nat}

theorem Sole.unique (hs : Sole p h) {t t' : Nat} (ht : p t) (ht' : p t') : t = t' :=
  Option.some.inj (((hs t).mp ht).symm.trans ((hs t').mp ht'))

theorem Sole.nobody (hs : Sole p none) (t : Nat) : ¬p t := fun ht => by cases (hs t).mp ht

theorem Sole.holds (hs : Sole p (some t)) : p t := (hs t).mpr rfl

theorem sole_nobody (hp : ∀ t, ¬p t) : Sole p none :=
  fun t => ⟨fun ht => absurd ht (hp t), fun he => by cases he⟩

theorem Sole.keep (hs : Sole p h) (hother : ∀ t', t' ≠ t → (p' t' ↔ p t')) (hsame : p' t ↔ p t) :
    Sole p' h := by
  intro t'
  by_cases ht : t' = t
  · rw [ht, hsame]
    exact hs t
  · rw [hother t' ht]
    exact hs t'

theorem Sole.enter (hs : Sole p none) (hother : ∀ t', t' ≠ t → (p' t' ↔ p t'))
    (hin : p' t) : Sole p' (some t) := by
  intro t'
  by_cases ht : t' = t
  · rw [ht]
    exact ⟨fun _ => rfl, fun _ => hin⟩
  · rw [hother t' ht]
    exact ⟨fun h => absurd h (hs.nobody t'), fun he => absurd (Option.some.inj he).symm ht⟩

theorem Sole.leave (hs : Sole p h) (hother : ∀ t', t' ≠ t → (p' t' ↔ p t')) (hwas : p t)
    (hout : ¬p' t) : Sole p' none := by
  intro t'
  by_cases ht : t' = t
  · rw [ht]
    exact ⟨fun h => absurd h hout, fun he => by cases he⟩
  · rw [hother t' ht]
    exact ⟨fun h => absurd (hs.unique h hwas) ht, fun he => by cases he⟩

end Apfmalloc.Base
