import Mathlib.Data.List.Basic
import Mathlib.Tactic.Common

/-!
# Bits in an array of 32-bit words

Bit `i` of an array of words is bit `i % 32` of word `i / 32`.

In memory a word is four bytes, the least significant first, so bit `i` of the
array is bit `i % 8` of byte `i / 8` (`bit_byte`), and reading an array of bytes
as words keeps every bit where it is (`bit_ofBytes`).
-/

namespace Pintos.Lib.Words

open List BitVec

def bit (words : List (BitVec 32)) (i : Nat) : Bool :=
  (words.getD (i / 32) 0#32).getLsbD (i % 32)

def byte (words : List (BitVec 32)) (k : Nat) : UInt8 :=
  UInt8.ofBitVec ((words.getD (k / 4) 0#32).extractLsb' (8 * (k % 4)) 8)

/-- The word of four bytes, the least significant first. -/
def wordOf (b0 b1 b2 b3 : UInt8) : BitVec 32 :=
  b3.toBitVec ++ b2.toBitVec ++ b1.toBitVec ++ b0.toBitVec

def ofBytes (n : Nat) (bytes : Nat → UInt8) : List (BitVec 32) :=
  (List.range n).map fun w =>
    wordOf (bytes (4 * w)) (bytes (4 * w + 1)) (bytes (4 * w + 2)) (bytes (4 * w + 3))

/-! ## Masks -/

theorem and_twoPow_ne_zero (w : BitVec 32) (k : Nat) :
    decide (w &&& BitVec.twoPow 32 k ≠ 0#32) = w.getLsbD k := by
  rw [and_twoPow]
  cases hk : w.getLsbD k with
  | false => simp
  | true =>
    have hlt := lt_of_getLsbD hk
    simp only [if_true, ne_eq, decide_eq_true_eq]
    intro h
    have hbit := congrArg (fun v => v.getLsbD k) h
    simp [hlt] at hbit

theorem getLsbD_lowMask {k : Nat} (hk : k < 32) (j : Nat) :
    (1#32 <<< k - 1#32).getLsbD j = decide (j < k) := by
  have hpow : 2 ^ k < 2 ^ 32 := Nat.pow_lt_pow_right (by decide) hk
  have hpos : 0 < 2 ^ k := Nat.two_pow_pos k
  have hval : (1#32 <<< k - 1#32).toNat = 2 ^ k - 1 := by
    rw [← twoPow_eq, toNat_sub, toNat_twoPow, Nat.mod_eq_of_lt hpow]
    simp only [toNat_ofNat]
    omega
  rw [← testBit_toNat, hval, Nat.testBit_two_pow_sub_one]

section
variable (words : List (BitVec 32)) (i : Nat)

/-- Changing one word changes its bits only. -/
theorem bit_set {w : Nat} (v : BitVec 32) (hw : w < words.length) :
    bit (words.set w v) i = if i / 32 = w then v.getLsbD (i % 32) else bit words i := by
  unfold bit
  by_cases h : i / 32 = w
  · subst h
    rw [if_pos rfl, getD_eq_getElem?_getD, getElem?_set_self hw, Option.getD_some]
  · rw [if_neg h, getD_eq_getElem?_getD, getElem?_set_ne (fun e => h e.symm),
      ← getD_eq_getElem?_getD]

/-- Changing one bit of a word changes one bit of the array. -/
theorem bit_modify {j : Nat} (hj : j / 32 < words.length) {v : BitVec 32} {g : Bool → Bool}
    (hv : ∀ k < 32, v.getLsbD k = if k = j % 32 then g ((words.getD (j / 32) 0#32).getLsbD k)
      else (words.getD (j / 32) 0#32).getLsbD k) :
    bit (words.set (j / 32) v) i = if i = j then g (bit words i) else bit words i := by
  rw [bit_set words i _ hj]
  by_cases h : i / 32 = j / 32
  · have hsame : i % 32 = j % 32 ↔ i = j := by omega
    rw [if_pos h, hv _ (Nat.mod_lt _ (by decide)), ← h]
    simp only [hsame]
    rfl
  · rw [if_neg h, if_neg fun e => h (by rw [e])]

/-- Cutting the last word off after its `n % 32` low bits keeps the first `n`
bits of the array. -/
theorem bit_and_lowMask {n : Nat} (hw : n / 32 < words.length) (hi : i < n) :
    bit (words.set (n / 32) (words.getD (n / 32) 0#32 &&& (1#32 <<< (n % 32) - 1#32))) i =
      bit words i := by
  rw [bit_set words i _ hw]
  by_cases h : i / 32 = n / 32
  · rw [if_pos h, getLsbD_and, getLsbD_lowMask (Nat.mod_lt _ (by decide)),
      decide_eq_true (by omega), Bool.and_true, ← h]
    rfl
  · rw [if_neg h]

/-! ## Bytes -/

theorem bit_byte : (byte words (i / 8)).toBitVec.getLsbD (i % 8) = bit words i := by
  have hword : i / 8 / 4 = i / 32 := by omega
  have hpos : 8 * (i / 8 % 4) + i % 8 = i % 32 := by omega
  have hlt : i % 8 < 8 := Nat.mod_lt _ (by decide)
  unfold byte bit
  rw [UInt8.toBitVec_ofBitVec, getLsbD_extractLsb', hword, hpos, decide_eq_true hlt,
    Bool.true_and]

theorem getLsbD_wordOf (b0 b1 b2 b3 : UInt8) (k : Nat) :
    (wordOf b0 b1 b2 b3).getLsbD k =
      if k < 8 then b0.toBitVec.getLsbD k
      else if k < 16 then b1.toBitVec.getLsbD (k - 8)
      else if k < 24 then b2.toBitVec.getLsbD (k - 16)
      else b3.toBitVec.getLsbD (k - 24) := by
  unfold wordOf
  rw [getLsbD_append, getLsbD_append, getLsbD_append]
  by_cases h8 : k < 8
  · simp [h8]
  · by_cases h16 : k < 16
    · simp [h8, h16, show k - 8 < 8 by omega]
    · by_cases h24 : k < 24
      · simp [h8, h16, h24, show ¬ k - 8 < 8 by omega, show k - 16 < 8 by omega, Nat.sub_sub]
      · simp [h8, h16, h24, show ¬ k - 8 < 8 by omega, show ¬ k - 16 < 8 by omega, Nat.sub_sub]

theorem bit_ofBytes {n : Nat} (bytes : Nat → UInt8) (hi : i / 32 < n) :
    bit (ofBytes n bytes) i = (bytes (i / 8)).toBitVec.getLsbD (i % 8) := by
  unfold bit ofBytes
  rw [getD_eq_getElem?_getD, getElem?_map, getElem?_range hi, Option.map_some,
    Option.getD_some, getLsbD_wordOf]
  split
  · rw [show 4 * (i / 32) = i / 8 by omega, show i % 32 = i % 8 by omega]
  · split
    · rw [show 4 * (i / 32) + 1 = i / 8 by omega, show i % 32 - 8 = i % 8 by omega]
    · split
      · rw [show 4 * (i / 32) + 2 = i / 8 by omega, show i % 32 - 16 = i % 8 by omega]
      · rw [show 4 * (i / 32) + 3 = i / 8 by omega, show i % 32 - 24 = i % 8 by omega]

end

end Pintos.Lib.Words
