import Mathlib.Algebra.GroupWithZero.Nat
import Mathlib.Data.Fintype.Basic
import Mathlib.Logic.Function.Basic
import Pintos.Lib.Options

/-!
# Fixed-length arrays and their byte layout

A C array of `n` elements is a function on `Fin n`, read and written at a
natural-number index. Reads outside the bounds are total (the index wraps),
writes outside the bounds do nothing; every lemma about a read carries the
bound.

`packWords` lays an array of 32-bit words out as bytes, least significant
byte first, and `unpackWords` reads it back.
-/

namespace Pintos.Lib

/-- An array of `n` elements of type `α`. -/
def Arr (n : Nat) (α : Type) : Type := Fin n → α

namespace Arr

variable {n : Nat} {α : Type}

def const (v : α) : Arr n α := fun _ => v

def get [NeZero n] (a : Arr n α) (k : Nat) : α := a (Fin.ofNat n k)

def set (a : Arr n α) (k : Nat) (v : α) : Arr n α :=
  fun i => if i.val = k then v else a i

/-- Copy `cnt` elements of `src`, from index `base` on, to the elements of `a`
from index `ofs` on. -/
def patch (a : Arr n α) (ofs cnt : Nat) (src : Nat → α) (base : Nat) : Arr n α :=
  fun i => if ofs ≤ i.val ∧ i.val < ofs + cnt then src (base + (i.val - ofs)) else a i

theorem ext_get [NeZero n] {a b : Arr n α} (h : ∀ k, k < n → a.get k = b.get k) : a = b := by
  funext i
  have hi := h i.val i.isLt
  unfold get at hi
  rwa [show Fin.ofNat n i.val = i from Fin.ext (Nat.mod_eq_of_lt i.isLt)] at hi

@[simp] theorem get_const [NeZero n] (v : α) (k : Nat) : (const v : Arr n α).get k = v := rfl

theorem get_set [NeZero n] (a : Arr n α) (j : Nat) (v : α) {k : Nat} (hk : k < n) :
    (a.set j v).get k = if k = j then v else a.get k := by
  unfold get set
  rw [show (Fin.ofNat n k).val = k from Nat.mod_eq_of_lt hk]

@[simp] theorem get_set_self [NeZero n] (a : Arr n α) {k : Nat} (v : α) (hk : k < n) :
    (a.set k v).get k = v := by
  rw [get_set a k v hk, if_pos rfl]

theorem get_set_ne [NeZero n] (a : Arr n α) {j k : Nat} (v : α) (hk : k < n) (h : k ≠ j) :
    (a.set j v).get k = a.get k := by
  rw [get_set a j v hk, if_neg h]

theorem get_patch [NeZero n] (a : Arr n α) (ofs cnt : Nat) (src : Nat → α) (base : Nat)
    {k : Nat} (hk : k < n) :
    (a.patch ofs cnt src base).get k =
      if ofs ≤ k ∧ k < ofs + cnt then src (base + (k - ofs)) else a.get k := by
  unfold get patch
  rw [show (Fin.ofNat n k).val = k from Nat.mod_eq_of_lt hk]

end Arr

/-! ## Words and bytes -/

/-- Byte `j` of a word, least significant first. -/
def byteOfWord (w : UInt32) (j : Nat) : UInt8 := UInt8.ofNat (w.toNat / 256 ^ j)

/-- The word whose bytes are `b0 b1 b2 b3`, least significant first. -/
def wordOfBytes (b0 b1 b2 b3 : UInt8) : UInt32 :=
  UInt32.ofNat (b0.toNat + 256 * b1.toNat + 65536 * b2.toNat + 16777216 * b3.toNat)

theorem wordOfBytes_byteOfWord (w : UInt32) :
    wordOfBytes (byteOfWord w 0) (byteOfWord w 1) (byteOfWord w 2) (byteOfWord w 3) = w := by
  apply UInt32.toNat.inj
  have hw : w.toNat < 4294967296 := w.toNat_lt
  have hb : ∀ j, (byteOfWord w j).toNat = w.toNat / 256 ^ j % 256 := by
    intro j
    simp [byteOfWord]
  simp only [wordOfBytes, UInt32.toNat_ofNat', hb]
  omega

def packWords {n : Nat} (w : Arr n UInt32) : Arr (4 * n) UInt8 :=
  fun i => byteOfWord (w ⟨i.val / 4, by omega⟩) (i.val % 4)

def unpackWords {n : Nat} (b : Arr (4 * n) UInt8) : Arr n UInt32 :=
  fun k => wordOfBytes (b ⟨4 * k.val, by omega⟩) (b ⟨4 * k.val + 1, by omega⟩)
    (b ⟨4 * k.val + 2, by omega⟩) (b ⟨4 * k.val + 3, by omega⟩)

@[simp] theorem unpackWords_packWords {n : Nat} (w : Arr n UInt32) :
    unpackWords (packWords w) = w := by
  funext k
  have hdiv : ∀ j, j < 4 → (4 * k.val + j) / 4 = k.val ∧ (4 * k.val + j) % 4 = j := by
    intro j hj
    omega
  have h0 := hdiv 0 (by omega)
  have h1 := hdiv 1 (by omega)
  have h2 := hdiv 2 (by omega)
  have h3 := hdiv 3 (by omega)
  simp only [Nat.add_zero] at h0
  simp only [unpackWords, packWords, h0, h1, h2, h3]
  exact wordOfBytes_byteOfWord (w k)

end Pintos.Lib
