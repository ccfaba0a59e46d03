import Apfmalloc.Base.Bytes

/-!
# Values in memory

`Elem α` is what a compiler fixes for the element type of a buffer: how many bytes a
value takes, its alignment, and which bytes stand for which value. Not all bytes need
to stand for one. A value is read back after it was written, depends on its own bytes
only and so can be moved by copying them.
-/

namespace Apfmalloc.Base

def loadBytes (m : Mem) (a n : Nat) : List UInt8 := (List.range n).map fun i => m (a + i)

def storeBytes (m : Mem) (a : Nat) (bs : List UInt8) : Mem :=
  fun x => if a ≤ x ∧ x < a + bs.length then bs.getD (x - a) 0 else m x

theorem length_loadBytes (m : Mem) (a n : Nat) : (loadBytes m a n).length = n := by
  rw [loadBytes, List.length_map, List.length_range]

theorem loadBytes_congr {m m' : Mem} {a b n : Nat} (h : ∀ i < n, m (a + i) = m' (b + i)) :
    loadBytes m a n = loadBytes m' b n :=
  List.map_congr_left fun i hi => h i (List.mem_range.mp hi)

theorem storeBytes_out {m : Mem} {a x : Nat} {bs : List UInt8} (h : x < a ∨ a + bs.length ≤ x) :
    storeBytes m a bs x = m x := by
  rw [storeBytes, if_neg (by omega)]

theorem loadBytes_storeBytes (m : Mem) (a : Nat) (bs : List UInt8) :
    loadBytes (storeBytes m a bs) a bs.length = bs := by
  apply List.ext_getElem
  · exact length_loadBytes _ _ _
  · intro i h₁ h₂
    simp only [loadBytes, List.getElem_map, List.getElem_range]
    rw [storeBytes, if_pos (by omega), Nat.add_sub_cancel_left, List.getD_eq_getElem?_getD,
      List.getElem?_eq_getElem h₂, Option.getD_some]

/-! ## Element types -/

class Elem (α : Type) where
  size : Nat
  alignLog : Nat
  enc : α → List UInt8
  dec : List UInt8 → Option α
  size_lt : size < 2 ^ 63
  align_lt : alignLog < 63
  align_dvd : 2 ^ alignLog ∣ size
  length_enc : ∀ v, (enc v).length = size
  dec_enc : ∀ v, dec (enc v) = some v

variable {α : Type} [Elem α]

/-- The value at `a`, if the bytes there are one. -/
def Elem.read (m : Mem) (a : Nat) : Option α := Elem.dec (loadBytes m a (Elem.size α))

def Elem.write (m : Mem) (a : Nat) (v : α) : Mem := storeBytes m a (Elem.enc v)

theorem Elem.read_congr {m m' : Mem} {a b : Nat}
    (h : ∀ i < Elem.size α, m (a + i) = m' (b + i)) : (Elem.read m a : Option α) = Elem.read m' b := by
  rw [Elem.read, Elem.read, loadBytes_congr h]

theorem Elem.write_out {m : Mem} {a x : Nat} {v : α} (h : x < a ∨ a + Elem.size α ≤ x) :
    Elem.write m a v x = m x :=
  storeBytes_out (by rw [Elem.length_enc]; exact h)

@[simp] theorem Elem.read_write (m : Mem) (a : Nat) (v : α) :
    Elem.read (Elem.write m a v) a = some v := by
  rw [Elem.read, Elem.write, ← Elem.length_enc v, loadBytes_storeBytes, Elem.dec_enc]

theorem Elem.read_write_ne {m : Mem} {a b : Nat} {v : α}
    (h : b + Elem.size α ≤ a ∨ a + Elem.size α ≤ b) :
    (Elem.read (Elem.write m a v) b : Option α) = Elem.read m b :=
  Elem.read_congr fun i hi => Elem.write_out (by omega)

/-! ## Bytes, words and pairs of words -/

instance : Elem Unit where
  size := 0
  alignLog := 0
  enc _ := []
  dec _ := some ()
  size_lt := by decide
  align_lt := by decide
  align_dvd := Nat.dvd_zero _
  length_enc _ := rfl
  dec_enc _ := rfl

instance : Elem UInt8 where
  size := 1
  alignLog := 0
  enc v := [v]
  dec bs := bs.head?
  size_lt := by decide
  align_lt := by decide
  align_dvd := Nat.dvd_refl _
  length_enc _ := rfl
  dec_enc _ := rfl

/-- The little-endian bytes of a word, and the word of eight bytes. -/
def wordBytes (v : UInt64) : List UInt8 :=
  (List.range 8).map fun i => UInt8.ofNat (v.toNat / 256 ^ i)

def bytesWord (bs : List UInt8) : UInt64 := UInt64.ofNat (readBytes (fun i => bs.getD i 0) 0 8)

theorem length_wordBytes (v : UInt64) : (wordBytes v).length = 8 := by
  rw [wordBytes, List.length_map, List.length_range]

theorem bytesWord_append (v : UInt64) (bs : List UInt8) : bytesWord (wordBytes v ++ bs) = v := by
  have h : readBytes (fun i => (wordBytes v ++ bs).getD i 0) 0 8 = v.toNat % 256 ^ 8 := by
    apply readBytes_digits
    intro i hi
    rw [Nat.zero_add, List.getD_eq_getElem?_getD,
      List.getElem?_append_left (by rw [length_wordBytes]; exact hi), wordBytes,
      List.getElem?_map, List.getElem?_range hi]
    rfl
  have hlt : v.toNat % 256 ^ 8 = v.toNat := Nat.mod_eq_of_lt v.toNat_lt
  rw [bytesWord, h, hlt]
  exact UInt64.ofNat_toNat

/-- Word `i` of a record of words. -/
def wordAt (bs : List UInt8) (i : Nat) : UInt64 := bytesWord (bs.drop (8 * i))

theorem wordAt_flatMap : ∀ (ws : List UInt64) (i : Nat), i < ws.length →
    some (wordAt (ws.flatMap wordBytes) i) = ws[i]? := by
  intro ws
  induction ws with
  | nil =>
    intro i hi
    exact absurd hi (Nat.not_lt_zero i)
  | cons w ws ih =>
    intro i hi
    rw [List.flatMap_cons, wordAt]
    cases i with
    | zero => rw [Nat.mul_zero, List.drop_zero, bytesWord_append, List.getElem?_cons_zero]
    | succ i =>
      have hlen := length_wordBytes w
      rw [Nat.mul_succ, Nat.add_comm, ← List.drop_drop, List.drop_left' hlen,
        List.getElem?_cons_succ, ← ih i (Nat.lt_of_succ_lt_succ hi), wordAt]

theorem length_flatMap_wordBytes (ws : List UInt64) :
    (ws.flatMap wordBytes).length = 8 * ws.length := by
  induction ws with
  | nil => rfl
  | cons w ws ih =>
    rw [List.flatMap_cons, List.length_append, length_wordBytes, ih, List.length_cons]
    omega

instance : Elem UInt64 where
  size := 8
  alignLog := 3
  enc v := wordBytes v
  dec bs := some (bytesWord bs)
  size_lt := by decide
  align_lt := by decide
  align_dvd := Nat.dvd_refl _
  length_enc := length_wordBytes
  dec_enc v := by
    have h := bytesWord_append v []
    rw [List.append_nil] at h
    rw [h]

instance : Elem (UInt64 × UInt64) where
  size := 16
  alignLog := 3
  enc v := wordBytes v.1 ++ wordBytes v.2
  dec bs := some (bytesWord bs, bytesWord (bs.drop 8))
  size_lt := by decide
  align_lt := by decide
  align_dvd := by decide
  length_enc v := by rw [List.length_append, length_wordBytes, length_wordBytes]
  dec_enc v := by
    have h := bytesWord_append v.2 []
    rw [List.append_nil] at h
    rw [bytesWord_append, List.drop_left' (length_wordBytes v.1), h]

end Apfmalloc.Base
