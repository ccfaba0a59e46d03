import Mathlib.Algebra.Ring.Nat

/-!
# Fields of a machine word

A packed record is a word of `w` bits cut into fields, each the bits from `lsb` up to `msb`.
A field is read by shifting out what is above it and then what is below it, and written
through a mask with the same shifts. Bit by bit that is what one expects: a write changes
the bits of its field and no other, and keeps the low bits of the value. A word is known by
its fields if they cover it (`Field.ext_of_cover`).
-/

namespace Apfmalloc.Base

/-- The bits `lsb, ..., msb` of a word of `w` bits. -/
structure Field (w : Nat) where
  msb : Nat
  lsb : Nat
  le : lsb ≤ msb
  lt : msb < w

namespace Field

variable {w : Nat}

def width (f : Field w) : Nat := f.msb - f.lsb + 1

def get (f : Field w) (x : BitVec w) : BitVec w :=
  (x <<< (w - f.msb - 1)) >>> (w - f.msb - 1 + f.lsb)

def mask (f : Field w) : BitVec w := f.get (BitVec.allOnes w) <<< f.lsb

def set (f : Field w) (v x : BitVec w) : BitVec w :=
  (x &&& ~~~f.mask) ||| ((v <<< f.lsb) &&& f.mask)

/-- Bit `i` of the word is in the field. -/
def Has (f : Field w) (i : Nat) : Prop := f.lsb ≤ i ∧ i ≤ f.msb

instance (f : Field w) (i : Nat) : Decidable (f.Has i) :=
  inferInstanceAs (Decidable (f.lsb ≤ i ∧ i ≤ f.msb))

/-- The fields share no bit. -/
def Apart (f g : Field w) : Prop := f.msb < g.lsb ∨ g.msb < f.lsb

variable {f g : Field w}

theorem getLsbD_get (f : Field w) (x : BitVec w) (i : Nat) :
    (f.get x).getLsbD i = (decide (i < f.width) && x.getLsbD (f.lsb + i)) := by
  have hle := f.le
  have hlt := f.lt
  rw [get, BitVec.getLsbD_ushiftRight, BitVec.getLsbD_shiftLeft, width]
  by_cases hi : i < f.msb - f.lsb + 1
  · rw [decide_eq_true hi, decide_eq_true (by omega), decide_eq_false (by omega),
      show w - f.msb - 1 + f.lsb + i - (w - f.msb - 1) = f.lsb + i by omega]
    rfl
  · rw [decide_eq_false hi, decide_eq_false (by omega)]
    rfl

theorem getLsbD_mask (f : Field w) (i : Nat) : f.mask.getLsbD i = decide (f.Has i) := by
  have hle := f.le
  have hlt := f.lt
  rw [mask, BitVec.getLsbD_shiftLeft, getLsbD_get, BitVec.getLsbD_allOnes, width]
  by_cases hi : f.Has i
  · rw [decide_eq_true hi]
    obtain ⟨hlo, hhi⟩ := hi
    rw [decide_eq_true (show i < w by omega), decide_eq_false (show ¬i < f.lsb by omega),
      decide_eq_true (show i - f.lsb < f.msb - f.lsb + 1 by omega),
      decide_eq_true (show f.lsb + (i - f.lsb) < w by omega)]
    rfl
  · rw [decide_eq_false hi]
    unfold Has at hi
    by_cases hlo : i < f.lsb
    · rw [decide_eq_true hlo, Bool.not_true, Bool.and_false, Bool.false_and]
    · rw [decide_eq_false (show ¬i - f.lsb < f.msb - f.lsb + 1 by omega), Bool.false_and,
        Bool.and_false]

/-- **A write changes the bits of its field and no other.** -/
theorem getLsbD_set (f : Field w) (v x : BitVec w) (i : Nat) :
    (f.set v x).getLsbD i = if f.Has i then v.getLsbD (i - f.lsb) else x.getLsbD i := by
  have hlt := f.lt
  rw [set, BitVec.getLsbD_or, BitVec.getLsbD_and, BitVec.getLsbD_and, BitVec.getLsbD_not,
    BitVec.getLsbD_shiftLeft, getLsbD_mask]
  by_cases hi : f.Has i
  · obtain ⟨hlo, hhi⟩ := hi
    rw [if_pos ⟨hlo, hhi⟩, decide_eq_true (show f.Has i from ⟨hlo, hhi⟩),
      decide_eq_true (show i < w by omega), decide_eq_false (show ¬i < f.lsb by omega)]
    simp
  · rw [if_neg hi, decide_eq_false hi]
    by_cases hiw : i < w
    · simp [hiw]
    · simp [BitVec.getLsbD_of_ge x i (Nat.not_lt.mp hiw)]

theorem get_set_same (f : Field w) (v x : BitVec w) (i : Nat) :
    (f.get (f.set v x)).getLsbD i = (decide (i < f.width) && v.getLsbD i) := by
  have hle := f.le
  rw [getLsbD_get, getLsbD_set]
  by_cases hi : i < f.width
  · rw [if_pos, Nat.add_sub_cancel_left]
    rw [width] at hi
    exact ⟨Nat.le_add_right _ _, by omega⟩
  · rw [decide_eq_false hi, Bool.false_and, Bool.false_and]

/-- What is read back is the value, up to the width of the field. -/
theorem toNat_get_set (f : Field w) (v x : BitVec w) :
    (f.get (f.set v x)).toNat = v.toNat % 2 ^ f.width := by
  apply Nat.eq_of_testBit_eq
  intro i
  rw [Nat.testBit_mod_two_pow, BitVec.testBit_toNat, BitVec.testBit_toNat, get_set_same]

/-- The other fields stay. -/
theorem get_set_apart (h : f.Apart g) (v x : BitVec w) : f.get (g.set v x) = f.get x := by
  have hle := f.le
  apply BitVec.eq_of_getLsbD_eq
  intro i _
  rw [getLsbD_get, getLsbD_get, getLsbD_set]
  by_cases hi : i < f.width
  · rw [if_neg]
    rw [width] at hi
    rintro ⟨hlo, hhi⟩
    rcases h with h | h <;> omega
  · rw [decide_eq_false hi, Bool.false_and, Bool.false_and]

/-- **Words with the same fields are the same**, if the fields cover the word. -/
theorem ext_of_cover {fs : List (Field w)} (hcover : ∀ i < w, ∃ f ∈ fs, f.Has i) {x y : BitVec w}
    (h : ∀ f ∈ fs, f.get x = f.get y) : x = y := by
  apply BitVec.eq_of_getLsbD_eq
  intro i hi
  obtain ⟨f, hf, hlo, hhi⟩ := hcover i hi
  have hbit := congrArg (fun z => BitVec.getLsbD z (i - f.lsb)) (h f hf)
  simp only [getLsbD_get, Nat.add_sub_cancel' hlo] at hbit
  rwa [decide_eq_true (show i - f.lsb < f.width by rw [width]; omega), Bool.true_and,
    Bool.true_and] at hbit

end Field

end Apfmalloc.Base
