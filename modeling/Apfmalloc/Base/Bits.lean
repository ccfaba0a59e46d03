import Mathlib.Algebra.Ring.Nat

/-!
# Rounding and tagging by bit masks

Allocators round addresses with `& !(2^k - 1)` and hide small counters in the
low bits of aligned pointers. Both are arithmetic once the masks are read as
division and remainder; this file is that reading, for `w`-bit words held in
`Nat`.
-/

namespace Apfmalloc.Base

/-- Masking with the ones above bit `k` rounds down to a multiple of `2^k`. -/
theorem and_high_mask {w k x : Nat} (hk : k ≤ w) (hx : x < 2 ^ w) :
    x &&& (2 ^ w - 2 ^ k) = x / 2 ^ k * 2 ^ k := by
  apply Nat.eq_of_testBit_eq
  intro i
  have hpos : 2 ^ k - 1 < 2 ^ w :=
    Nat.lt_of_lt_of_le (Nat.sub_lt (Nat.two_pow_pos k) Nat.one_pos)
      (Nat.pow_le_pow_right (by omega) hk)
  have hmask : 2 ^ w - 2 ^ k = 2 ^ w - (2 ^ k - 1 + 1) := by
    have := Nat.two_pow_pos k
    omega
  rw [Nat.testBit_and, hmask, Nat.testBit_two_pow_sub_succ hpos, Nat.testBit_two_pow_sub_one,
    Nat.testBit_mul_two_pow, Nat.testBit_div_two_pow]
  by_cases hik : k ≤ i
  · rw [Nat.sub_add_cancel hik]
    by_cases hiw : i < w
    · simp [hik, hiw, Nat.not_lt.mpr hik]
    · have : x.testBit i = false :=
        Nat.testBit_lt_two_pow (Nat.lt_of_lt_of_le hx (Nat.pow_le_pow_right (by omega) (by omega)))
      simp [this]
  · simp [hik, Nat.lt_of_not_le hik]

/-- Masking with the ones below bit `k` is the remainder. -/
theorem and_low_mask (k x : Nat) : x &&& (2 ^ k - 1) = x % 2 ^ k :=
  Nat.and_two_pow_sub_one_eq_mod x k

/-- A tag below `2^k` packed into a multiple of `2^k` is a sum. -/
theorem or_tag {k d c : Nat} (hd : d % 2 ^ k = 0) (hc : c < 2 ^ k) : d ||| c = d + c := by
  have h := Nat.two_pow_add_eq_or_of_lt hc (d / 2 ^ k)
  rw [Nat.mul_div_cancel' (Nat.dvd_of_mod_eq_zero hd)] at h
  exact h.symm

/-- The round-down of a tagged multiple of `m` is the multiple. -/
theorem div_mul_tag {m d c : Nat} (hd : d % m = 0) (hc : c < m) :
    (d + c) / m * m = d := by
  obtain ⟨q, rfl⟩ := Nat.dvd_of_mod_eq_zero hd
  have hm : 0 < m := by omega
  rw [Nat.mul_add_div hm, Nat.div_eq_of_lt hc, Nat.add_zero, Nat.mul_comm]

/-- The tag of a tagged multiple of `m`. -/
theorem mod_tag {m d c : Nat} (hd : d % m = 0) (hc : c < m) : (d + c) % m = c := by
  rw [Nat.add_mod, hd, Nat.zero_add, Nat.mod_mod, Nat.mod_eq_of_lt hc]

/-- Rounding up to a multiple of `m` reaches the value and overshoots by less
than `m`. -/
theorem roundUp_bounds {m x : Nat} (hm : 0 < m) :
    x ≤ (x + m - 1) / m * m ∧ (x + m - 1) / m * m < x + m := by
  have h := Nat.div_add_mod (x + m - 1) m
  have hlt := Nat.mod_lt (x + m - 1) hm
  rw [Nat.mul_comm] at h
  omega

/-- Rounding up stops at the first multiple. -/
theorem roundUp_le {b x m : Nat} (hb : 0 < b) (hx : x ≤ m) (hm : b ∣ m) :
    (x + b - 1) / b * b ≤ m := by
  obtain ⟨q, rfl⟩ := hm
  rw [Nat.mul_comm b q]
  apply Nat.mul_le_mul_right
  apply Nat.le_of_lt_succ
  rw [Nat.div_lt_iff_lt_mul hb, Nat.succ_mul, Nat.mul_comm q b]
  omega

/-! ## Single bits of a byte -/

/-- The mask of one bit. The machine takes the shift modulo 8. -/
theorem toNat_mask (k : UInt8) : (1 <<< k : UInt8).toNat = 2 ^ (k.toNat % 8) := by
  have hk : k.toNat % 8 < 8 := Nat.mod_lt _ (by decide)
  rw [UInt8.toNat_shiftLeft, UInt8.toNat_one, Nat.shiftLeft_eq, Nat.one_mul]
  exact Nat.mod_eq_of_lt (Nat.pow_lt_pow_right (by decide) hk)

theorem and_mask_ne_zero (x k : UInt8) :
    (x &&& (1 <<< k) != 0) = x.toNat.testBit (k.toNat % 8) := by
  have hbit : ∀ i, (x &&& (1 <<< k)).toNat.testBit i =
      (x.toNat.testBit i && decide (k.toNat % 8 = i)) := by
    intro i
    rw [UInt8.toNat_and, toNat_mask, Nat.testBit_and, Nat.testBit_two_pow]
  cases hx : x.toNat.testBit (k.toNat % 8) with
  | false =>
    rw [bne_eq_false_iff_eq, ← UInt8.toNat_inj]
    apply Nat.eq_of_testBit_eq
    intro i
    rw [hbit, UInt8.toNat_zero, Nat.zero_testBit]
    by_cases hi : k.toNat % 8 = i
    · rw [← hi, hx, Bool.false_and]
    · rw [decide_eq_false hi, Bool.and_false]
  | true =>
    rw [bne_iff_ne]
    intro h0
    have := hbit (k.toNat % 8)
    rw [h0, hx, decide_eq_true rfl, UInt8.toNat_zero, Nat.zero_testBit] at this
    cases this

/-- One bit cleared by its mask and then set to `b`. -/
theorem testBit_put (x k : UInt8) (b : Bool) {m : Nat} (hm : m < 8) :
    ((x &&& ~~~(1 <<< k)) ||| ((if b then 1 else 0) <<< k)).toNat.testBit m =
      if m = k.toNat % 8 then b else x.toNat.testBit m := by
  have hput : ((if b then 1 else 0 : UInt8) <<< k).toNat.testBit m =
      (b && decide (k.toNat % 8 = m)) := by
    cases b with
    | false => simp
    | true =>
      simp only [if_true]
      rw [toNat_mask, Nat.testBit_two_pow, Bool.true_and]
  have hclear : (~~~(1 <<< k) : UInt8).toNat.testBit m = !decide (k.toNat % 8 = m) := by
    have hlt : (1 <<< k : UInt8).toNat < 2 ^ 8 := UInt8.toNat_lt _
    have hnot : (~~~(1 <<< k) : UInt8).toNat = 2 ^ 8 - ((1 <<< k : UInt8).toNat + 1) := by
      rw [UInt8.toNat_not]
      show 256 - 1 - _ = _
      omega
    rw [hnot, Nat.testBit_two_pow_sub_succ hlt, toNat_mask, Nat.testBit_two_pow,
      decide_eq_true hm, Bool.true_and]
  rw [UInt8.toNat_or, Nat.testBit_or, UInt8.toNat_and, Nat.testBit_and, hput, hclear]
  by_cases he : m = k.toNat % 8
  · simp [he]
  · simp [he, Ne.symm he]

end Apfmalloc.Base
