import Apfmalloc.Base.Bits
import Apfmalloc.ArrayIter

/-!
# `array.rs`: bits of an `Array<u8>`

`byte_index` returns the two parts of a bit index the wrong way round: the byte is the
index modulo 8, and the bit is the quotient, of the index cut to a byte. No byte behind the
eighth is ever used. The bit can be up to 31, and a shift by that panics in a build with
overflow checks; without them the machine takes it modulo 8. Then an index stands for the
same bit as every index that differs from it by a multiple of 64.
-/

namespace Apfmalloc

open Base

/-- `x << k`. -/
def shl (checks : Bool) (x k : UInt8) : Except Fault UInt8 :=
  if checks ∧ 8 ≤ k then .error .panic else .ok (x <<< k)

namespace Array

/-- `bit_index as u8` is cut to a byte before the division. -/
def byteIndex (bitIndex : Nat) : Nat × UInt8 := (bitIndex % 8, UInt8.ofNat bitIndex / 8)

def getByte (a : Array UInt8) (index : Nat) : Option Nat := a.get index

def getByteMut (a : Array UInt8) (index : Nat) : Option Nat := a.getMut index

def bitMask (checks : Bool) (index : UInt8) : Except Fault UInt8 := shl checks 1 index

def getBit (checks : Bool) (a : Array UInt8) (bitIndex : Nat) (s : State) :
    Except Fault (Option Bool) :=
  let (byteIndex, bitIndex) := byteIndex bitIndex
  match a.getByte byteIndex with
  | none => .ok none
  | some ptr => do
    let mask ← bitMask checks bitIndex
    let byte ← load ptr s
    .ok (some (byte &&& mask != (0 : UInt8)))

def setBit (checks : Bool) (bitIndex : Nat) (bit : Bool) (a : Array UInt8) (s : State) :
    Except Fault State :=
  let (byteIndex, bitIndex) := byteIndex bitIndex
  match a.getByteMut byteIndex with
  | none => .error .panic
  | some ptr => do
    let mask ← bitMask checks bitIndex
    let shifted ← shl checks (if bit then 1 else 0) bitIndex
    let byte ← load ptr s
    store ptr (byte &&& ~~~mask ||| shifted) s

section
variable {checks : Bool} {a : Array UInt8} {o : List Segment} {s s' : State} {l : List UInt8}
  {i j : Nat} {b : Bool}

/-! ## Which bit an index stands for -/

/-- Only the low byte of the index counts. -/
theorem byteIndex_congr (h : i % 256 = j % 256) : byteIndex i = byteIndex j := by
  have hofNat : UInt8.ofNat i = UInt8.ofNat j := by
    apply UInt8.toNat_inj.mp
    rw [UInt8.toNat_ofNat', UInt8.toNat_ofNat']
    exact h
  rw [byteIndex, byteIndex, hofNat, show i % 8 = j % 8 by omega]

theorem getBit_congr (h : i % 256 = j % 256) : a.getBit checks i s = a.getBit checks j s := by
  rw [getBit, getBit, byteIndex_congr h]

/-- A byte that the array has. -/
theorem getBit_some (h : i % 8 < a.size) :
    a.getBit checks i s = (do
      let mask ← shl checks 1 (byteIndex i).2
      let byte ← load (a.array.slot (i % 8)) s
      .ok (some (byte &&& mask != (0 : UInt8)))) := by
  show (match a.get (i % 8) with | none => _ | some ptr => _) = _
  rw [get, if_neg (Nat.not_le.mpr h)]
  rfl

theorem setBit_some (h : i % 8 < a.size) :
    a.setBit checks i b s = (do
      let mask ← shl checks 1 (byteIndex i).2
      let shifted ← shl checks (if b then 1 else 0) (byteIndex i).2
      let byte ← load (a.array.slot (i % 8)) s
      store (a.array.slot (i % 8)) (byte &&& ~~~mask ||| shifted) s) := by
  show (match a.getMut (i % 8) with | none => _ | some ptr => _) = _
  rw [getMut, if_neg (Nat.not_le.mpr h)]
  rfl

/-- And one that it has not. -/
theorem getBit_none (h : a.size ≤ i % 8) : a.getBit checks i s = .ok none := by
  show (match a.get (i % 8) with | none => _ | some ptr => _) = _
  rw [get, if_pos h]

theorem setBit_none (h : a.size ≤ i % 8) : a.setBit checks i b s = .error .panic := by
  show (match a.getMut (i % 8) with | none => _ | some ptr => _) = _
  rw [getMut, if_pos h]

/-- A shift in range, or one that is not checked. -/
theorem shl_ok {x k : UInt8} (h : checks = false ∨ k < 8) : shl checks x k = .ok (x <<< k) := by
  rw [shl, if_neg]
  intro ⟨hc, hle⟩
  rcases h with h | h
  · rw [hc] at h
    cases h
  · exact absurd h (UInt8.not_lt.mpr hle)

theorem toNat_bit_mod (i : Nat) : (byteIndex i).2.toNat % 8 = i / 8 % 8 := by
  rw [byteIndex, UInt8.toNat_div, UInt8.toNat_ofNat']
  show i % 2 ^ 8 / 8 % 8 = _
  omega

/-- **`get_bit`** reads bit `i / 8` of byte `i % 8`. -/
theorem Views.getBit (h : a.Views o s l) (hi : i % 8 < l.length)
    (hshift : checks = false ∨ (byteIndex i).2 < 8) :
    a.getBit checks i s = .ok (some (l[i % 8].toNat.testBit (i / 8 % 8))) := by
  rw [getBit_some (by rw [h.size]; exact hi), shl_ok hshift, ok_bind, h.load hi, ok_bind,
    and_mask_ne_zero, toNat_bit_mod]

/-- A store to one byte. -/
theorem Views.store {k : Nat} (h : a.Views o s l) (hk : k < l.length) (v : UInt8) :
    ∃ s', store (a.array.slot k) v s = .ok s' ∧ a.Views o s' (l.set k v) := by
  obtain ⟨seg, hseg, -, -, hlo, hhi⟩ := h.inside k hk
  have hle := h.length_le (by decide)
  refine ⟨{ s with mem := Elem.write s.mem (a.array.slot k) v }, ?_, ?_, ?_, fun m hm => ?_⟩
  · rw [Apfmalloc.store, if_pos (State.covers_segment hseg hlo hhi)]
  · rw [List.length_set, h.size]
  · rw [List.length_set]
    exact h.inside
  · rw [List.length_set] at hm
    show (Elem.read (Elem.write s.mem (a.array.slot k) v) (a.array.slot m) : Option UInt8) = _
    by_cases he : m = k
    · rw [he, Elem.read_write, List.getElem?_set_self hk]
    · -- the slots of a byte array are as far apart as their indices
      have hne : a.array.slot m ≠ a.array.slot k := by
        have hspace : addrSpace = 281474976710656 := rfl
        show (a.array.getPtr + m * 1) % usizeSize ≠ (a.array.getPtr + k * 1) % usizeSize
        rw [usizeSize_eq]
        omega
      rw [Elem.read_write_ne (by show _ + 1 ≤ _ ∨ _ + 1 ≤ _; omega),
        List.getElem?_set_ne (Ne.symm he)]
      exact h.cell m hm

/-- **`set_bit`** writes bit `i / 8` of byte `i % 8`, and no other. -/
theorem Views.setBit (h : a.Views o s l) (hi : i % 8 < l.length)
    (hshift : checks = false ∨ (byteIndex i).2 < 8) (b : Bool) :
    ∃ s' v, a.setBit checks i b s = .ok s' ∧ a.Views o s' (l.set (i % 8) v) ∧
      ∀ m < 8, v.toNat.testBit m =
        if m = i / 8 % 8 then b else l[i % 8].toNat.testBit m := by
  obtain ⟨s', hstore, hviews⟩ := h.store hi
    (l[i % 8] &&& ~~~(1 <<< (byteIndex i).2) ||| ((if b then 1 else 0) <<< (byteIndex i).2))
  refine ⟨s', _, ?_, hviews, fun m hm => ?_⟩
  · rw [setBit_some (by rw [h.size]; exact hi), shl_ok hshift, ok_bind, shl_ok hshift, ok_bind,
      h.load hi, ok_bind, hstore]
  · rw [testBit_put _ _ _ hm, toNat_bit_mod]

/-- Without checks, the indices that get the bit are those that differ by a multiple of 64. -/
theorem Views.getBit_setBit (h : a.Views o s l) (hset : a.setBit false i b s = .ok s') (j : Nat) :
    a.getBit false j s' =
      if j % 64 = i % 64 then .ok (some b) else a.getBit false j s := by
  have hi : i % 8 < l.length := by
    apply Nat.lt_of_not_le
    intro hle
    rw [setBit_none (by rw [h.size]; exact hle)] at hset
    cases hset
  obtain ⟨s₁, v, hset₁, h₁, hv⟩ := h.setBit hi (Or.inl rfl) b
  rw [hset] at hset₁
  cases hset₁
  by_cases hj : j % 8 < l.length
  · have hj₁ : j % 8 < (l.set (i % 8) v).length := by rwa [List.length_set]
    rw [h₁.getBit hj₁ (Or.inl rfl), h.getBit hj (Or.inl rfl), List.getElem_set]
    by_cases hbyte : i % 8 = j % 8
    · rw [if_pos hbyte, hv _ (Nat.mod_lt _ (by decide))]
      by_cases hbit : j / 8 % 8 = i / 8 % 8
      · rw [if_pos hbit, if_pos (by omega)]
      · simp only [hbyte]
        rw [if_neg hbit, if_neg (by omega)]
    · rw [if_neg hbyte, if_neg (by omega)]
  · have hsize : a.size ≤ j % 8 := by
      rw [h.size]
      omega
    rw [if_neg (by omega), getBit_none hsize, getBit_none hsize]

end

/-! ## As a bit vector -/

/-- The array is a vector of `8 * len` bits at the index `i`: there is such a bit exactly if
the index is in range, and then it can be set alone; the shift stays in the byte. -/
structure BitAt (checks : Bool) (s : State) (a : Array UInt8) (i : Nat) : Prop where
  some_iff : (∃ b, a.getBit checks i s = .ok (some b)) ↔ i < 8 * a.size
  set : i < 8 * a.size → ∀ b, ∃ s', a.setBit checks i b s = .ok s' ∧
    a.getBit checks i s' = .ok (some b) ∧
    ∀ j < usizeSize, j ≠ i → a.getBit checks j s' = a.getBit checks j s
  shift : i % 8 < a.size → (byteIndex i).2 < 8

section
variable {checks : Bool} {a : Array UInt8} {o : List Segment} {s : State} {l : List UInt8} {i : Nat}

/-- Every index shares its bit with another. -/
theorem exists_alias (hi : i < usizeSize) : ∃ j < usizeSize, j ≠ i ∧ j % 256 = i % 256 := by
  rw [usizeSize_eq] at *
  by_cases hlt : i < 256
  · exact ⟨i + 256, by omega, by omega, by omega⟩
  · exact ⟨i - 256, by omega, by omega, by omega⟩

/-- No index in range works, in no array. -/
theorem BitAt.out_of_range (h : BitAt checks s a i) (hi : i < usizeSize) : 8 * a.size ≤ i := by
  apply Nat.le_of_not_lt
  intro hlt
  obtain ⟨j, hj, hne, hmod⟩ := exists_alias hi
  -- the alias reads the same before and after, and so does `i`, whatever was set
  have hread : ∀ b, a.getBit checks i s = .ok (some b) := by
    intro b
    obtain ⟨s', -, hget, hother⟩ := h.set hlt b
    rw [← getBit_congr hmod, ← hother j hj hne, getBit_congr hmod, hget]
  have := (hread true).symm.trans (hread false)
  cases this

theorem Views.bitAt_iff (h : a.Views o s l) (hi : i < usizeSize) :
    BitAt checks s a i ↔ 8 * l.length ≤ i ∧ l.length ≤ i % 8 := by
  rw [← h.size]
  constructor
  · intro hbit
    have hout := hbit.out_of_range hi
    refine ⟨hout, ?_⟩
    apply Nat.le_of_not_lt
    intro hlt
    have hl : i % 8 < l.length := by rwa [← h.size]
    have hget := @Views.getBit checks a o s l i h hl (Or.inr (hbit.shift hlt))
    exact absurd (hbit.some_iff.mp ⟨_, hget⟩) (Nat.not_lt.mpr hout)
  · intro ⟨hout, hnone⟩
    refine ⟨⟨fun ⟨b, hb⟩ => ?_, fun hlt => absurd hlt (Nat.not_lt.mpr hout)⟩,
      fun hlt => absurd hlt (Nat.not_lt.mpr hout), fun hlt => absurd hlt (Nat.not_lt.mpr hnone)⟩
    rw [getBit_none hnone] at hb
    cases hb

end

/-- **An `Array<u8>` is no bit vector**, with or without overflow checks: at no index in
range, and out of range only where there is no byte `i % 8`. So only the empty array is
one. What it is instead, without checks, is a vector whose index counts modulo 64. -/
theorem bit_vector_iff {checks : Bool} {a : Array UInt8} {s : State} {l : List UInt8}
    (h : a.Views [] s l) :
    (∀ i < usizeSize, BitAt checks s a i ↔ 8 * l.length ≤ i ∧ l.length ≤ i % 8) ∧
    ((∀ i < usizeSize, BitAt checks s a i) ↔ l = []) ∧
    ∀ (i : Nat) (b : Bool) (s' : State), a.setBit false i b s = .ok s' →
      ∀ j, a.getBit false j s' = if j % 64 = i % 64 then .ok (some b) else a.getBit false j s := by
  refine ⟨fun i hi => h.bitAt_iff hi, ⟨fun hall => ?_, fun hl i hi => ?_⟩,
    fun i b s' hset j => h.getBit_setBit hset j⟩
  · have h0 := ((h.bitAt_iff (by decide : 0 < usizeSize)).mp (hall 0 (by decide))).1
    exact List.length_eq_zero_iff.mp (by omega)
  · rw [h.bitAt_iff hi, hl]
    exact ⟨Nat.zero_le _, Nat.zero_le _⟩

/-- One byte has no bit 9, and `get_bit(9)` knows. -/
theorem bit_vector_nine :
    ∃ (a : Array UInt8) (s : State), fromIter Os.bump [0] startState = .ok (a, s) ∧
      BitAt false s a 9 := by
  have h : (fromIter (α := UInt8) Os.bump [0] startState).toOption.isSome = true := by
    decide +kernel
  obtain ⟨⟨a, s⟩, hr⟩ := ok_of_isSome h
  have hh : a.Holds s [0] := ((fromIter_served (by decide) _ _).of_ok hr).1
  have hviews : Views [] s a [0] := hh.views_self
  exact ⟨a, s, hr, ((@bit_vector_iff false a s _ hviews).1 9 (by decide)).mpr ⟨by decide, by decide⟩⟩

/-- It has no bit 1 either, but a bit 8. -/
theorem bit_vector_swapped :
    ∃ (a : Array UInt8) (s : State), fromIter Os.bump [0] startState = .ok (a, s) ∧ a.size = 1 ∧
      a.getBit false 1 s = .ok none ∧ a.getBit false 8 s = .ok (some false) := by
  have h : (fromIter (α := UInt8) Os.bump [0] startState).toOption.isSome = true := by
    decide +kernel
  obtain ⟨⟨a, s⟩, hr⟩ := ok_of_isSome h
  have hh : a.Holds s [0] := ((fromIter_served (by decide) _ _).of_ok hr).1
  have hviews : Views [] s a [0] := hh.views_self
  have hsize : a.size = 1 := hh.size
  refine ⟨a, s, hr, hsize, getBit_none (Nat.le_of_eq hsize), ?_⟩
  rw [hviews.getBit (by decide) (Or.inl rfl)]
  rfl

end Array

end Apfmalloc
