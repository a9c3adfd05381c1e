import Mathlib.Data.List.Nodup
import Pintos.Lib.Options

/-!
# Bitmaps (`lib/kernel/bitmap.c`)

A `struct bitmap` is the list of its bits. `bits` as bytes in a file is
`bitmapBytes`: bit `i` is bit `i % 8` of byte `i / 8`, and the bits of the last
word that are not in use are zero.
-/

namespace Pintos.FileSys

open List

def bitmapContains (b : List Bool) (start cnt : Nat) (value : Bool) : Bool :=
  ((b.drop start).take cnt).contains value

/-- `bitmap_all`, whose callee asserts the bounds. -/
def bitmapAll (b : List Bool) (start cnt : Nat) : Option Bool :=
  if start + cnt ≤ b.length then some (!bitmapContains b start cnt false) else none

def bitmapSetMultiple (b : List Bool) (start cnt : Nat) (value : Bool) : Option (List Bool) :=
  if start + cnt ≤ b.length then
    some (b.take start ++ List.replicate cnt value ++ b.drop (start + cnt))
  else none

/-- `bitmap_scan`; `BITMAP_ERROR` is `none`. -/
def bitmapScan (b : List Bool) (start cnt : Nat) (value : Bool) : Option Nat :=
  if cnt ≤ b.length then
    (List.range' start (b.length - cnt + 1 - start)).find?
      fun i => !bitmapContains b i cnt (!value)
  else none

/-- The number of bytes of `bit_cnt` bits, in words of four. -/
def byteCnt (bitCnt : Nat) : Nat := 4 * ((bitCnt + 31) / 32)

def bitmapBytes (b : List Bool) (k : Nat) : UInt8 :=
  UInt8.ofBitVec ((BitVec.ofBoolListLE ((b.drop (8 * k)).take 8)).setWidth 8)

def bitmapOfBytes (bitCnt : Nat) (bytes : Nat → UInt8) : List Bool :=
  (List.range bitCnt).map fun i => (bytes (i / 8)).toBitVec.getLsbD (i % 8)

/-! ## Bytes -/

theorem bitmapBytes_bit (b : List Bool) (i : Nat) :
    (bitmapBytes b (i / 8)).toBitVec.getLsbD (i % 8) = b.getD i false := by
  have hd := Nat.div_add_mod i 8
  have hm : i % 8 < 8 := Nat.mod_lt i (by decide)
  unfold bitmapBytes
  rw [UInt8.toBitVec_ofBitVec, BitVec.getLsbD_setWidth, BitVec.getLsbD_ofBoolListLE,
    getD_eq_getElem?_getD, getElem?_take_of_lt hm, getElem?_drop, hd]
  simp [hm]

theorem bitmapOfBytes_bitmapBytes (b : List Bool) {bytes : Nat → UInt8}
    (h : ∀ k, k < byteCnt b.length → bytes k = bitmapBytes b k) :
    bitmapOfBytes b.length bytes = b := by
  apply ext_getElem
  · simp [bitmapOfBytes]
  · intro i h1 h2
    simp only [bitmapOfBytes, getElem_map, getElem_range]
    rw [h (i / 8) (by unfold byteCnt; omega), bitmapBytes_bit,
      getD_eq_getElem?_getD, getElem?_eq_getElem h2, Option.getD_some]

/-! ## Clear bits -/

def freeBits (b : List Bool) : List Nat :=
  (List.range b.length).filter fun i => b[i]? = some false

variable {b : List Bool} {i start cnt : Nat}

theorem mem_freeBits : i ∈ freeBits b ↔ b[i]? = some false := by
  unfold freeBits
  rw [List.mem_filter, List.mem_range, decide_eq_true_eq]
  constructor
  · exact fun h => h.2
  · intro h
    exact ⟨(List.getElem?_eq_some_iff.mp h).1, h⟩

theorem freeBits_nodup (b : List Bool) : (freeBits b).Nodup :=
  List.Nodup.filter _ nodup_range

theorem bitmapContains_one (value : Bool) (h : i < b.length) :
    bitmapContains b i 1 value = decide (b[i]? = some value) := by
  unfold bitmapContains
  rw [drop_eq_getElem_cons h, take_succ_cons, take_zero,
    getElem?_eq_getElem h]
  cases value <;> cases b[i] <;> rfl

theorem bitmapScan_one (b : List Bool) : bitmapScan b 0 1 false = (freeBits b).head? := by
  unfold bitmapScan freeBits
  by_cases h : 1 ≤ b.length
  · rw [if_pos h, show b.length - 1 + 1 - 0 = b.length by omega, ← range_eq_range',
      ← head?_filter]
    congr 1
    apply filter_congr
    intro i hi
    have hlt : i < b.length := mem_range.mp hi
    rw [Bool.not_false, bitmapContains_one true hlt, getElem?_eq_getElem hlt]
    cases b[i] <;> rfl
  · rw [if_neg h, show b.length = 0 by omega]
    rfl

theorem bitmapSetMultiple_one (value : Bool) (h : i < b.length) :
    bitmapSetMultiple b i 1 value = some (b.set i value) := by
  unfold bitmapSetMultiple
  rw [if_pos (by omega), set_eq_take_append_cons_drop, if_pos h]
  simp

theorem getElem?_set_bit (value : Bool) (h : i < b.length) (j : Nat) :
    (b.set i value)[j]? = if j = i then some value else b[j]? := by
  rw [getElem?_set]
  by_cases hij : i = j
  · subst hij
    simp [h]
  · rw [if_neg hij, if_neg (fun e => hij e.symm)]

theorem freeBits_mark_head {rest : List Nat} (h : freeBits b = i :: rest) :
    freeBits (b.set i true) = rest := by
  have hi : b[i]? = some false := mem_freeBits.mp (h ▸ List.mem_cons_self ..)
  have hlt := (List.getElem?_eq_some_iff.mp hi).1
  have hnd := freeBits_nodup b
  have hfilter : freeBits (b.set i true) = (freeBits b).filter (· ≠ i) := by
    unfold freeBits
    rw [List.length_set, List.filter_filter]
    apply List.filter_congr
    intro j _
    rw [getElem?_set_bit true hlt]
    by_cases hj : j = i <;> simp [hj]
  rw [h] at hnd hfilter
  rw [hfilter, List.filter_cons_of_neg (by simp)]
  apply List.filter_eq_self.mpr
  intro j hj
  have : j ≠ i := by
    rintro rfl
    exact (List.nodup_cons.mp hnd).1 hj
  simpa using this

/-! ## Groups of bits -/

/-- `cnt` consecutive bits from `start` on, all equal to `value`. -/
def Group (b : List Bool) (start cnt : Nat) (value : Bool) : Prop :=
  start + cnt ≤ b.length ∧ ∀ i, start ≤ i → i < start + cnt → b[i]? = some value

theorem bitmapContains_not (value : Bool) (h : start + cnt ≤ b.length) :
    bitmapContains b start cnt (!value) = false ↔ Group b start cnt value := by
  unfold bitmapContains
  rw [← Bool.not_eq_true, contains_iff_mem, mem_iff_getElem?]
  constructor
  · intro hnot
    refine ⟨h, fun i hlo hhi => ?_⟩
    have hi : i < b.length := by omega
    rw [getElem?_eq_getElem hi]
    by_contra hne
    refine hnot ⟨i - start, ?_⟩
    rw [getElem?_take_of_lt (by omega), getElem?_drop,
      show start + (i - start) = i by omega, getElem?_eq_getElem hi]
    cases hb : b[i] <;> cases value <;> simp_all
  · rintro ⟨-, hall⟩ ⟨i, hi⟩
    by_cases hlt : i < cnt
    · rw [getElem?_take_of_lt hlt, getElem?_drop, hall _ (by omega) (by omega)] at hi
      cases value <;> cases hi
    · rw [getElem?_eq_none (by rw [length_take]; omega)] at hi
      cases hi

theorem bitmapScan_some {idx : Nat} {value : Bool} (h : bitmapScan b start cnt value = some idx) :
    start ≤ idx ∧ Group b idx cnt value ∧ ∀ t, start ≤ t → t < idx → ¬ Group b t cnt value := by
  unfold bitmapScan at h
  split at h
  · rename_i hcnt
    obtain ⟨hidx, hlt, hbefore⟩ := find?_range'_eq_some.mp h
    have hbound := mem_range'_1.mp hlt
    refine ⟨hbound.1, (bitmapContains_not value (by omega)).mp (by simpa using hidx),
      fun t hlo ht hgroup => ?_⟩
    have := hbefore t hlo ht
    rw [(bitmapContains_not value hgroup.1).mpr hgroup] at this
    cases this
  · cases h

/-- The scan finds nothing only if there is no group. -/
theorem bitmapScan_none {value : Bool} (h : bitmapScan b start cnt value = none) (t : Nat)
    (ht : start ≤ t) : ¬ Group b t cnt value := by
  rintro ⟨hle, hall⟩
  unfold bitmapScan at h
  rw [if_pos (by omega), find?_eq_none] at h
  refine h t (mem_range'_1.mpr (by omega)) ?_
  rw [(bitmapContains_not value hle).mpr ⟨hle, hall⟩]
  rfl

theorem bitmapSetMultiple_spec (value : Bool) (h : start + cnt ≤ b.length) :
    ∃ b', bitmapSetMultiple b start cnt value = some b' ∧ b'.length = b.length ∧
      ∀ i, b'[i]? = if start ≤ i ∧ i < start + cnt then some value else b[i]? := by
  have hstart : (b.take start).length = start := by
    rw [length_take]
    omega
  refine ⟨_, if_pos h, ?_, fun i => ?_⟩
  · rw [length_append, length_append, hstart, length_replicate, length_drop]
    omega
  · rw [append_assoc]
    by_cases hlo : start ≤ i
    · rw [getElem?_append_right (by omega), hstart]
      by_cases hhi : i < start + cnt
      · rw [getElem?_append_left (by rw [length_replicate]; omega),
          getElem?_replicate_of_lt (by omega), if_pos ⟨hlo, hhi⟩]
      · rw [getElem?_append_right (by rw [length_replicate]; omega),
          length_replicate, getElem?_drop, if_neg fun hin => hhi hin.2,
          show start + cnt + (i - start - cnt) = i by omega]
    · rw [getElem?_append_left (by omega), getElem?_take_of_lt (by omega),
        if_neg fun hin => hlo hin.1]

theorem bitmapAll_of_group (h : Group b start cnt true) :
    bitmapAll b start cnt = some true := by
  have hnone : bitmapContains b start cnt false = false := (bitmapContains_not true h.1).mpr h
  rw [bitmapAll, if_pos h.1, hnone]
  rfl

end Pintos.FileSys
