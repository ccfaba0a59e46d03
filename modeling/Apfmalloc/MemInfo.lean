import Apfmalloc.Base.Bits

/-!
# `mem_info.rs`: sizes, masks and rounding

The constants of the allocator and its three rounding functions. `usize` is
64-bit and its arithmetic wraps, as in a release build: `alignVal`, `alignAddr`
and `pageCeiling` carry the `% 2^64` explicitly, because requests near
`usize::MAX` do reach them. The lemmas say what they compute when nothing wraps,
which is every use but the overflowing requests.
-/

namespace Apfmalloc

open Base

/-- One past `usize::MAX`. -/
def usizeSize : Nat := 2 ^ 64
/-- One past `u32::MAX`. -/
def u32Size : Nat := 2 ^ 32
def usizeMax : Nat := usizeSize - 1

def maxSzIdx : Nat := 40
/-- The block size of the largest size class. -/
def maxSz : Nat := (1 <<< 13) + (1 <<< 11) * 3
def lgCacheLine : Nat := 6
def lgPage : Nat := 12
def cacheLine : Nat := 1 <<< lgCacheLine
def page : Nat := 1 <<< lgPage
def cacheLineMask : Nat := cacheLine - 1
def pageMask : Nat := page - 1
def descriptorBlockSz : Nat := 16 * page

/-- `!x` on `usize`. -/
def usizeNot (x : Nat) : Nat := usizeSize - 1 - x

/-- `(val + align - 1) & (!align + 1)` -/
def alignVal (val align : Nat) : Nat :=
  (val + align + usizeSize - 1) % usizeSize &&& (usizeNot align + 1) % usizeSize

def alignSize (size align : Nat) : Nat :=
  if align < size then alignVal size align else align

def alignAddr (addr align : Nat) : Nat :=
  (addr + align + usizeSize - 1) % usizeSize &&& (usizeNot align + 1) % usizeSize

/-- The `page_ceiling!` macro: `(s + page - 1) & !(page - 1)`. -/
def pageCeiling (s : Nat) : Nat :=
  (s + page + usizeSize - 1) % usizeSize &&& usizeNot (page - 1)

/-- `is_power_of_two` of `lib.rs`. The inner `!` is the bitwise complement of a
`usize`, so the second conjunct only fails for `x & (x - 1) = usize::MAX`. -/
def isPowerOfTwo (x : Nat) : Bool :=
  x != 0 && usizeNot (x &&& (x - 1)) != 0

/-! ## What they compute -/

theorem page_eq : page = 4096 := rfl
theorem maxSz_eq : maxSz = 14336 := rfl
theorem cacheLine_eq : cacheLine = 64 := rfl
theorem usizeSize_eq : usizeSize = 18446744073709551616 := rfl
theorem u32Size_eq : u32Size = 4294967296 := rfl

/-- All that is asked of a power of two is that it is not zero. -/
theorem isPowerOfTwo_iff {x : Nat} (hx : x < usizeSize) : isPowerOfTwo x = true ↔ x ≠ 0 := by
  have hle : x &&& (x - 1) ≤ x - 1 := Nat.and_le_right
  rw [usizeSize_eq] at hx
  simp only [isPowerOfTwo, usizeNot, usizeSize, Bool.and_eq_true, bne_iff_ne]
  omega

/-- Powers of two up to a page divide it. -/
theorem pow_dvd_page {k : Nat} (h : 2 ^ k ≤ page) : 2 ^ k ∣ page :=
  Nat.pow_dvd_pow 2 ((Nat.pow_le_pow_iff_right (by omega : 1 < 2)).mp h : k ≤ 12)

/-- The mask `!align + 1` of a power of two. -/
theorem alignMask_eq {k : Nat} (hk : k < 64) :
    (usizeNot (2 ^ k) + 1) % usizeSize = 2 ^ 64 - 2 ^ k := by
  have hpos := Nat.two_pow_pos k
  have hlt : 2 ^ k < 2 ^ 64 := Nat.pow_lt_pow_right (by omega) hk
  unfold usizeNot usizeSize
  rw [show 2 ^ 64 - 1 - 2 ^ k + 1 = 2 ^ 64 - 2 ^ k by omega]
  exact Nat.mod_eq_of_lt (by omega)

/-- Without a wrap, `align_val` rounds up to a multiple of a power of two. -/
theorem alignVal_eq {val k : Nat} (hk : k < 64) (h : val + 2 ^ k ≤ usizeSize) :
    alignVal val (2 ^ k) = (val + 2 ^ k - 1) / 2 ^ k * 2 ^ k := by
  have hpos := Nat.two_pow_pos k
  have hsum : (val + 2 ^ k + usizeSize - 1) % usizeSize = val + 2 ^ k - 1 := by
    rw [show val + 2 ^ k + usizeSize - 1 = val + 2 ^ k - 1 + usizeSize by omega,
      Nat.add_mod_right]
    exact Nat.mod_eq_of_lt (by omega)
  rw [alignVal, alignMask_eq hk, hsum]
  refine and_high_mask (by omega) ?_
  change val + 2 ^ k - 1 < usizeSize
  omega

theorem alignAddr_eq_alignVal (addr align : Nat) : alignAddr addr align = alignVal addr align :=
  rfl

theorem pageCeiling_eq_alignVal (s : Nat) : pageCeiling s = alignVal s (2 ^ 12) := rfl

/-- Without a wrap, `page_ceiling!` rounds up to a page. -/
theorem pageCeiling_eq {s : Nat} (h : s + page ≤ usizeSize) :
    pageCeiling s = (s + page - 1) / page * page := by
  rw [pageCeiling_eq_alignVal, alignVal_eq (by omega) h]
  rfl

theorem pageCeiling_bounds {s : Nat} (h : s + page ≤ usizeSize) :
    s ≤ pageCeiling s ∧ pageCeiling s < s + page := by
  rw [pageCeiling_eq h]
  exact roundUp_bounds (by rw [page_eq]; omega)

/-- A value within `align` of `usize::MAX` wraps to zero. -/
theorem alignVal_wrap {val k : Nat} (hk : k < 64) (hv : val < usizeSize)
    (h : usizeSize < val + 2 ^ k) : alignVal val (2 ^ k) = 0 := by
  have hpow : 2 ^ k < 2 ^ 64 := Nat.pow_lt_pow_right (by omega) hk
  have hpos := Nat.two_pow_pos k
  have hsum : (val + 2 ^ k + usizeSize - 1) % usizeSize = val + 2 ^ k - 1 - usizeSize := by
    rw [show val + 2 ^ k + usizeSize - 1 = val + 2 ^ k - 1 - usizeSize + usizeSize + usizeSize by
      omega, Nat.add_mod_right, Nat.add_mod_right]
    exact Nat.mod_eq_of_lt (by unfold usizeSize at *; omega)
  have hlt : val + 2 ^ k - 1 - usizeSize < 2 ^ k := by omega
  rw [alignVal, alignMask_eq hk, hsum, and_high_mask (by omega) (by omega), Nat.div_eq_of_lt hlt,
    Nat.zero_mul]

/-- A request within a page of `usize::MAX` wraps to zero pages. -/
theorem pageCeiling_wrap {s : Nat} (hs : s < usizeSize) (h : usizeSize < s + page) :
    pageCeiling s = 0 :=
  alignVal_wrap (k := 12) (by omega) hs h

theorem alignVal_bounds {val k : Nat} (hk : k < 64) (h : val + 2 ^ k ≤ usizeSize) :
    val ≤ alignVal val (2 ^ k) ∧ alignVal val (2 ^ k) < val + 2 ^ k := by
  rw [alignVal_eq hk h]
  exact roundUp_bounds (Nat.two_pow_pos k)

theorem alignVal_mod {val k : Nat} (hk : k < 64) (h : val + 2 ^ k ≤ usizeSize) :
    alignVal val (2 ^ k) % 2 ^ k = 0 := by
  rw [alignVal_eq hk h]
  exact Nat.mul_mod_left _ _

/-- A multiple of the alignment stays. -/
theorem alignVal_of_dvd {val k : Nat} (hk : k < 64) (h : val + 2 ^ k ≤ usizeSize)
    (hdvd : 2 ^ k ∣ val) : alignVal val (2 ^ k) = val := by
  obtain ⟨q, rfl⟩ := hdvd
  have hpos := Nat.two_pow_pos k
  rw [alignVal_eq hk h, show 2 ^ k * q + 2 ^ k - 1 = 2 ^ k * q + (2 ^ k - 1) by omega,
    Nat.mul_add_div hpos, Nat.div_eq_of_lt (by omega), Nat.add_zero, Nat.mul_comm]

/-- Without a wrap, `align_size` gives at least the size and the alignment, and no
multiple of the alignment in between. -/
theorem alignSize_bounds {size k : Nat} (hk : k < 64) (h : size + 2 ^ k ≤ usizeSize) :
    size ≤ alignSize size (2 ^ k) ∧ 2 ^ k ≤ alignSize size (2 ^ k) ∧
      ∀ m, size ≤ m → 0 < m → 2 ^ k ∣ m → alignSize size (2 ^ k) ≤ m := by
  unfold alignSize
  by_cases hlt : 2 ^ k < size
  · have hb := alignVal_bounds hk h
    rw [if_pos hlt]
    refine ⟨hb.1, by omega, fun m hm _ hd => ?_⟩
    rw [alignVal_eq hk h]
    exact roundUp_le (Nat.two_pow_pos k) hm hd
  · rw [if_neg hlt]
    exact ⟨by omega, Nat.le_refl _, fun m _ hpos hd => Nat.le_of_dvd hpos hd⟩

end Apfmalloc
