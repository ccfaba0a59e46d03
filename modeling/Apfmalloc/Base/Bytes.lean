import Mathlib.Algebra.Ring.Nat

/-!
# Byte memory and little-endian words

A memory is a function from addresses to bytes. `readWord` and `writeWord` are
the eight-byte loads and stores a 64-bit pointer write compiles to, `zeroFill`
is what a fresh anonymous mapping reads as, and `copyBytes` is `memcpy`. The
lemmas are the two every heap proof turns on: a load sees the last store to its
word, and a store leaves every disjoint byte alone.
-/

namespace Apfmalloc.Base

abbrev Mem := Nat → UInt8

/-- The little-endian value of `n` bytes from `a`. -/
def readBytes (m : Mem) (a : Nat) : Nat → Nat
  | 0 => 0
  | n + 1 => (m a).toNat + 256 * readBytes m (a + 1) n

def readWord (m : Mem) (a : Nat) : Nat := readBytes m a 8

def writeWord (m : Mem) (a v : Nat) : Mem :=
  fun x => if a ≤ x ∧ x < a + 8 then UInt8.ofNat (v / 256 ^ (x - a)) else m x

/-- Zeroes on `[a, a + n)`, `m` elsewhere. -/
def zeroFill (m : Mem) (a n : Nat) : Mem :=
  fun x => if a ≤ x ∧ x < a + n then 0 else m x

/-- `memcpy(dst, src, n)`. -/
def copyBytes (m : Mem) (dst src n : Nat) : Mem :=
  fun x => if dst ≤ x ∧ x < dst + n then m (src + (x - dst)) else m x

def writeByte (m : Mem) (a : Nat) (v : UInt8) : Mem :=
  fun x => if x = a then v else m x

/-! ## Frame: bytes outside the footprint -/

theorem writeWord_out {m : Mem} {a v x : Nat} (h : x < a ∨ a + 8 ≤ x) :
    writeWord m a v x = m x := by
  rw [writeWord, if_neg (by omega)]

theorem zeroFill_out {m : Mem} {a n x : Nat} (h : x < a ∨ a + n ≤ x) :
    zeroFill m a n x = m x := by
  rw [zeroFill, if_neg (by omega)]

theorem copyBytes_out {m : Mem} {dst src n x : Nat} (h : x < dst ∨ dst + n ≤ x) :
    copyBytes m dst src n x = m x := by
  rw [copyBytes, if_neg (by omega)]

theorem copyBytes_in {m : Mem} {dst src n i : Nat} (h : i < n) :
    copyBytes m dst src n (dst + i) = m (src + i) := by
  rw [copyBytes, if_pos (by omega), Nat.add_sub_cancel_left]

/-! ## Words -/

/-- A load depends on its own bytes only. -/
theorem readBytes_congr {m m' : Mem} {a : Nat} :
    ∀ {n : Nat}, (∀ i < n, m (a + i) = m' (a + i)) → readBytes m a n = readBytes m' a n := by
  intro n
  induction n generalizing a with
  | zero => intro _; rfl
  | succ n ih =>
    intro h
    have h0 := h 0 (Nat.succ_pos n)
    rw [Nat.add_zero] at h0
    have htail : ∀ i < n, m (a + 1 + i) = m' (a + 1 + i) := by
      intro i hi
      have := h (i + 1) (by omega)
      rwa [show a + 1 + i = a + (i + 1) by omega]
    rw [readBytes, readBytes, h0, ih htail]

theorem readWord_congr {m m' : Mem} {a : Nat} (h : ∀ i < 8, m (a + i) = m' (a + i)) :
    readWord m a = readWord m' a :=
  readBytes_congr h

/-- Bytes that are the base-256 digits of `v` read back as `v`. -/
theorem readBytes_digits {m : Mem} {a v : Nat} :
    ∀ {n : Nat}, (∀ i < n, m (a + i) = UInt8.ofNat (v / 256 ^ i)) →
      readBytes m a n = v % 256 ^ n := by
  intro n
  induction n generalizing a v with
  | zero => intro _; rw [Nat.pow_zero, Nat.mod_one]; rfl
  | succ n ih =>
    intro h
    have h0 := h 0 (Nat.succ_pos n)
    rw [Nat.add_zero, Nat.pow_zero, Nat.div_one] at h0
    have htail : ∀ i < n, m (a + 1 + i) = UInt8.ofNat (v / 256 / 256 ^ i) := by
      intro i hi
      have := h (i + 1) (by omega)
      rw [show a + 1 + i = a + (i + 1) by omega, this, Nat.pow_succ', Nat.div_div_eq_div_mul]
    rw [readBytes, h0, ih htail, UInt8.toNat_ofNat', Nat.pow_succ' (m := 256), Nat.mod_mul]

@[simp] theorem readWord_writeWord {m : Mem} {a v : Nat} (hv : v < 2 ^ 64) :
    readWord (writeWord m a v) a = v := by
  have h : readBytes (writeWord m a v) a 8 = v % 256 ^ 8 := by
    apply readBytes_digits
    intro i hi
    rw [writeWord, if_pos (by omega), Nat.add_sub_cancel_left]
  rw [readWord, h]
  exact Nat.mod_eq_of_lt hv

/-- A store leaves every disjoint word alone. -/
theorem readWord_writeWord_ne {m : Mem} {a b v : Nat} (h : b + 8 ≤ a ∨ a + 8 ≤ b) :
    readWord (writeWord m a v) b = readWord m b :=
  readWord_congr fun i hi => writeWord_out (by omega)

theorem readBytes_zero {m : Mem} {a : Nat} :
    ∀ {n : Nat}, (∀ i < n, m (a + i) = 0) → readBytes m a n = 0 := by
  intro n
  induction n generalizing a with
  | zero => intro _; rfl
  | succ n ih =>
    intro h
    have h0 := h 0 (Nat.succ_pos n)
    rw [Nat.add_zero] at h0
    have htail : ∀ i < n, m (a + 1 + i) = 0 := by
      intro i hi
      have := h (i + 1) (by omega)
      rwa [show a + 1 + i = a + (i + 1) by omega]
    rw [readBytes, h0, ih htail]
    rfl

/-- Words of a zero-filled region are zero. -/
theorem readWord_zeroFill {m : Mem} {a n b : Nat} (h1 : a ≤ b) (h2 : b + 8 ≤ a + n) :
    readWord (zeroFill m a n) b = 0 :=
  readBytes_zero fun i hi => by rw [zeroFill, if_pos (by omega)]

theorem readWord_zeroFill_ne {m : Mem} {a n b : Nat} (h : b + 8 ≤ a ∨ a + n ≤ b) :
    readWord (zeroFill m a n) b = readWord m b :=
  readWord_congr fun i hi => zeroFill_out (by omega)

end Apfmalloc.Base
