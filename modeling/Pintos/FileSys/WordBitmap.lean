import Pintos.FileSys.Bitmap
import Pintos.Lib.Words

/-!
# Bitmaps as arrays of words (`lib/kernel/bitmap.c`)

From the outside a bitmap is an array of bits, which is what `Bitmap` models;
here it is what it is inside, an array of 32-bit words whose last one may be in
use only in part. The memory of a new bitmap is not cleared beyond its last
bit, so nothing is said of the bits of the last word that are not in use.

`none` is a failed assertion or an access outside the array. `size_t` has 32
bits, and sums of it wrap.

`toBits` is the outside view.
-/

namespace Pintos.FileSys

open Lib List

/-- `elem_cnt`: the sum wraps before it is divided. -/
def elemCnt (bitCnt : Nat) : Nat := (bitCnt + 31) % 4294967296 / 32

/-- `struct bitmap`. There is no bitmap so large that `elem_cnt` wraps: its
array would have no words, and `bitmap_create` would have failed. -/
structure Bitmap where
  bitCnt : Nat
  bits : List (BitVec 32)
  fits : bitCnt + 31 < 4294967296
  length_bits : bits.length = elemCnt bitCnt

namespace Bitmap

def elemIdx (bitIdx : Nat) : Nat := bitIdx / 32

def bitMask (bitIdx : Nat) : BitVec 32 := 1#32 <<< (bitIdx % 32)

def byteSize (bitCnt : Nat) : Nat := 4 * elemCnt bitCnt

def lastMask (bitCnt : Nat) : BitVec 32 :=
  if bitCnt % 32 ≠ 0 then 1#32 <<< (bitCnt % 32) - 1#32 else BitVec.allOnes 32

def update (b : Bitmap) (idx : Nat) (f : BitVec 32 → BitVec 32) : Option Bitmap :=
  if idx < b.bits.length then
    some { b with
      bits := b.bits.set idx (f (b.bits.getD idx 0#32))
      length_bits := length_set.trans b.length_bits }
  else none

def mark (b : Bitmap) (bitIdx : Nat) : Option Bitmap :=
  b.update (elemIdx bitIdx) fun word => word ||| bitMask bitIdx

def reset (b : Bitmap) (bitIdx : Nat) : Option Bitmap :=
  b.update (elemIdx bitIdx) fun word => word &&& ~~~bitMask bitIdx

def flip (b : Bitmap) (bitIdx : Nat) : Option Bitmap :=
  b.update (elemIdx bitIdx) fun word => word ^^^ bitMask bitIdx

def set (b : Bitmap) (idx : Nat) (value : Bool) : Option Bitmap :=
  if idx < b.bitCnt then
    if value then b.mark idx else b.reset idx
  else none

def test (b : Bitmap) (idx : Nat) : Option Bool :=
  if idx < b.bitCnt then
    some (decide (b.bits.getD (elemIdx idx) 0#32 &&& bitMask idx ≠ 0#32))
  else none

/-- The assertions of the functions on `cnt` bits from `start` on. -/
def inRange (b : Bitmap) (start cnt : Nat) : Bool :=
  start ≤ b.bitCnt && (start + cnt) % 4294967296 ≤ b.bitCnt

def setMultiple (b : Bitmap) (start cnt : Nat) (value : Bool) : Option Bitmap :=
  if b.inRange start cnt then
    (List.range cnt).foldlM (fun b i => b.set ((start + i) % 4294967296) value) b
  else none

def count (b : Bitmap) (start cnt : Nat) (value : Bool) : Option Nat :=
  if b.inRange start cnt then
    (List.range cnt).foldlM (fun valueCnt i => do
      let bit ← b.test ((start + i) % 4294967296)
      some (if bit = value then valueCnt + 1 else valueCnt)) 0
  else none

/-- `bitmap_contains`, which returns at the first bit found. -/
def contains (b : Bitmap) (start cnt : Nat) (value : Bool) : Option Bool :=
  if b.inRange start cnt then
    (List.range cnt).anyM fun i => do
      some ((← b.test ((start + i) % 4294967296)) == value)
  else none

def any (b : Bitmap) (start cnt : Nat) : Option Bool := b.contains start cnt true

def all (b : Bitmap) (start cnt : Nat) : Option Bool := do
  some (!(← b.contains start cnt false))

/-- `bitmap_scan`; `BITMAP_ERROR` is the inner `none`. -/
def scan (b : Bitmap) (start cnt : Nat) (value : Bool) : Option (Option Nat) :=
  if start ≤ b.bitCnt then
    if cnt ≤ b.bitCnt then
      -- `i` from `start` to `last`, which is `bit_cnt - cnt`
      (List.range' start (b.bitCnt - cnt + 1 - start)).findM? fun i => do
        some (!(← b.contains i cnt (!value)))
    else some none
  else none

def scanAndFlip (b : Bitmap) (start cnt : Nat) (value : Bool) :
    Option (Option Nat × Bitmap) := do
  match ← b.scan start cnt value with
  | none => some (none, b)
  | some idx => do
    let b ← b.setMultiple idx cnt (!value)
    some (some idx, b)

/-- `bitmap_create`; `memory` is what `malloc` returns for the words. `malloc (0)`
returns no memory, which is a failure unless the bitmap has no bits. -/
def create (bitCnt : UInt32) (memory : Nat → BitVec 32) : Option Bitmap :=
  if h : byteSize bitCnt.toNat ≠ 0 ∨ bitCnt.toNat = 0 then
    let b : Bitmap :=
      { bitCnt := bitCnt.toNat
        bits := (List.range (elemCnt bitCnt.toNat)).map memory
        fits := by
          have hlt := bitCnt.toNat_lt
          unfold byteSize elemCnt at h
          omega
        length_bits := by rw [length_map, length_range] }
    b.setMultiple 0 b.bitCnt false
  else none

/-! ## One bit -/

def bit (b : Bitmap) (i : Nat) : Bool := Words.bit b.bits i

section
variable (b : Bitmap)

theorem elemCnt_eq : elemCnt b.bitCnt = (b.bitCnt + 31) / 32 := by
  unfold elemCnt
  rw [Nat.mod_eq_of_lt b.fits]

variable {i start cnt : Nat}

theorem elemIdx_lt (hi : i < b.bitCnt) : elemIdx i < b.bits.length := by
  rw [b.length_bits, b.elemCnt_eq]
  unfold elemIdx
  omega

theorem test_eq (hi : i < b.bitCnt) : b.test i = some (b.bit i) := by
  unfold test bitMask bit Words.bit
  rw [if_pos hi, ← BitVec.twoPow_eq, Words.and_twoPow_ne_zero]
  rfl

theorem getLsbD_bitMask (i k : Nat) :
    (bitMask i).getLsbD k = decide (k = i % 32) := by
  rw [bitMask, ← BitVec.twoPow_eq, BitVec.getLsbD_twoPow]
  simp [Nat.mod_lt, eq_comm]

theorem update_spec (hi : i < b.bitCnt) {f : BitVec 32 → BitVec 32} {g : Bool → Bool}
    (hf : ∀ w k, k < 32 → (f w).getLsbD k = if k = i % 32 then g (w.getLsbD k) else w.getLsbD k) :
    ∃ b', b.update (elemIdx i) f = some b' ∧ b'.bitCnt = b.bitCnt ∧
      ∀ j, b'.bit j = if j = i then g (b.bit j) else b.bit j := by
  have hw := b.elemIdx_lt hi
  refine ⟨_, if_pos hw, rfl, fun j => ?_⟩
  exact Words.bit_modify b.bits j hw fun k hk => hf _ k hk

theorem set_spec (value : Bool) (hi : i < b.bitCnt) :
    ∃ b', b.set i value = some b' ∧ b'.bitCnt = b.bitCnt ∧
      ∀ j, b'.bit j = if j = i then value else b.bit j := by
  unfold set
  rw [if_pos hi]
  cases value with
  | true =>
    rw [if_pos rfl]
    refine b.update_spec hi (g := fun _ => true) fun w k hk => ?_
    rw [BitVec.getLsbD_or, getLsbD_bitMask]
    split <;> simp [*]
  | false =>
    rw [if_neg Bool.false_ne_true]
    refine b.update_spec hi (g := fun _ => false) fun w k hk => ?_
    rw [BitVec.getLsbD_and, BitVec.getLsbD_not, getLsbD_bitMask]
    split <;> simp [*]

theorem flip_spec (hi : i < b.bitCnt) :
    ∃ b', b.flip i = some b' ∧ b'.bitCnt = b.bitCnt ∧
      ∀ j, b'.bit j = if j = i then !b.bit j else b.bit j := by
  refine b.update_spec hi (g := not) fun w k hk => ?_
  rw [BitVec.getLsbD_xor, getLsbD_bitMask]
  split <;> simp [*]

/-! ## The loops -/

theorem setLoop_spec (value : Bool) (start : Nat) :
    ∀ cnt, start + cnt ≤ b.bitCnt →
      ∃ b', (List.range cnt).foldlM (fun b i => b.set ((start + i) % 4294967296) value) b =
          some b' ∧ b'.bitCnt = b.bitCnt ∧
        ∀ j, b'.bit j = if start ≤ j ∧ j < start + cnt then value else b.bit j := by
  intro cnt
  induction cnt with
  | zero =>
    intro _
    refine ⟨b, rfl, rfl, fun j => ?_⟩
    rw [if_neg (by omega)]
  | succ cnt ih =>
    intro hle
    obtain ⟨b1, hloop, hcnt1, hbit1⟩ := ih (by omega)
    have hfits := b.fits
    obtain ⟨b', hset, hcnt', hbit'⟩ := b1.set_spec (i := start + cnt) value (by omega)
    refine ⟨b', ?_, hcnt'.trans hcnt1, fun j => ?_⟩
    · rw [range_succ, foldlM_append, hloop, some_bind,
        foldlM_cons, Nat.mod_eq_of_lt (by omega), hset]
      rfl
    · rw [hbit', hbit1]
      by_cases hj : j = start + cnt
      · rw [if_pos hj, if_pos (by omega)]
      · rw [if_neg hj]
        by_cases hin : start ≤ j ∧ j < start + cnt
        · rw [if_pos hin, if_pos (by omega)]
        · rw [if_neg hin, if_neg (by omega)]

theorem inRange_of_le (h : start + cnt ≤ b.bitCnt) :
    b.inRange start cnt = true := by
  have hfits := b.fits
  unfold inRange
  rw [Nat.mod_eq_of_lt (by omega), Bool.and_eq_true, decide_eq_true_eq, decide_eq_true_eq]
  omega

theorem setMultiple_spec (value : Bool) (h : start + cnt ≤ b.bitCnt) :
    ∃ b', b.setMultiple start cnt value = some b' ∧ b'.bitCnt = b.bitCnt ∧
      ∀ j, b'.bit j = if start ≤ j ∧ j < start + cnt then value else b.bit j := by
  unfold setMultiple
  rw [if_pos (b.inRange_of_le h)]
  exact b.setLoop_spec value start cnt h

/-- A loop that tests bits one after the other, each inside the bounds, finds
what the tests find. -/
theorem anyM_eq {p : Nat → Option Bool} {q : Nat → Bool} :
    ∀ {is : List Nat}, (∀ i ∈ is, p i = some (q i)) → is.anyM p = some (is.any q)
  | [], _ => rfl
  | i :: is, h => by
    have ih := anyM_eq (fun j hj => h j (mem_cons_of_mem _ hj))
    rw [List.anyM, h i (mem_cons_self ..), any_cons]
    cases hq : q i with
    | true => rfl
    | false => exact ih

theorem countM_eq {p : Nat → Option Bool} {q : Nat → Bool} (value : Bool) (n : Nat) :
    ∀ {is : List Nat}, (∀ i ∈ is, p i = some (q i)) →
      is.foldlM (fun n i => do let bit ← p i; some (if bit = value then n + 1 else n)) n =
        some (n + (is.map q).count value)
  | [], _ => rfl
  | i :: is, h => by
    rw [foldlM_cons, h i (mem_cons_self ..), some_bind, some_bind, map_cons, count_cons,
      countM_eq value _ fun j hj => h j (mem_cons_of_mem _ hj)]
    by_cases hq : q i = value
    · rw [if_pos hq, if_pos (beq_iff_eq.mpr hq), Nat.add_assoc, Nat.add_comm 1]
    · rw [if_neg hq, if_neg (mt beq_iff_eq.mp hq), Nat.add_zero]

theorem findM?_eq {p : Nat → Option Bool} {q : Nat → Bool} :
    ∀ {is : List Nat}, (∀ i ∈ is, p i = some (q i)) → is.findM? p = some (is.find? q)
  | [], _ => rfl
  | i :: is, h => by
    have ih := findM?_eq (fun j hj => h j (mem_cons_of_mem _ hj))
    rw [List.findM?, h i (mem_cons_self ..), find?_cons]
    cases hq : q i with
    | true => rfl
    | false => exact ih

/-! ## The view from outside -/

def toBits : List Bool := (List.range b.bitCnt).map b.bit

@[simp] theorem length_toBits : b.toBits.length = b.bitCnt := by
  rw [toBits, length_map, length_range]

theorem getElem?_toBits (hi : i < b.bitCnt) : b.toBits[i]? = some (b.bit i) := by
  rw [toBits, getElem?_map, getElem?_range hi, Option.map_some]

theorem toBits_eq {b b' : Bitmap} (hcnt : b'.bitCnt = b.bitCnt)
    (h : ∀ i, i < b.bitCnt → b'.bit i = b.bit i) : b'.toBits = b.toBits := by
  unfold toBits
  rw [hcnt]
  exact map_congr_left fun i hi => h i (mem_range.mp hi)

/-- The `cnt` bits from `start` on. -/
def slice (start cnt : Nat) : List Bool := (List.range cnt).map fun i => b.bit (start + i)

theorem take_drop_toBits (h : start + cnt ≤ b.bitCnt) :
    (b.toBits.drop start).take cnt = b.slice start cnt := by
  unfold slice
  apply ext_getElem?
  intro i
  by_cases hi : i < cnt
  · rw [getElem?_take_of_lt hi, getElem?_drop, b.getElem?_toBits (by omega),
      getElem?_map, getElem?_range hi, Option.map_some]
  · rw [getElem?_eq_none, getElem?_eq_none]
    · rw [length_map, length_range]
      omega
    · rw [length_take]
      omega

theorem test_slice (h : start + cnt ≤ b.bitCnt) :
    ∀ i ∈ List.range cnt, b.test ((start + i) % 4294967296) = some (b.bit (start + i)) := by
  intro i hi
  have hfits := b.fits
  have hlt := mem_range.mp hi
  rw [Nat.mod_eq_of_lt (by omega), b.test_eq (by omega)]

theorem contains_eq (value : Bool) (h : start + cnt ≤ b.bitCnt) :
    b.contains start cnt value = some ((b.slice start cnt).contains value) := by
  have htest : ∀ i ∈ List.range cnt,
      (do some ((← b.test ((start + i) % 4294967296)) == value)) =
        some (b.bit (start + i) == value) := by
    intro i hi
    rw [b.test_slice h i hi]
    rfl
  unfold contains slice
  rw [if_pos (b.inRange_of_le h), anyM_eq htest, contains_eq_any_beq, any_map]
  congr 2
  funext i
  exact Bool.beq_comm

theorem contains_refines (value : Bool) (h : start + cnt ≤ b.bitCnt) :
    b.contains start cnt value = some (bitmapContains b.toBits start cnt value) := by
  rw [b.contains_eq value h, bitmapContains, b.take_drop_toBits h]

theorem count_eq (value : Bool) (h : start + cnt ≤ b.bitCnt) :
    b.count start cnt value = some ((b.slice start cnt).count value) := by
  unfold count
  rw [if_pos (b.inRange_of_le h), countM_eq value 0 (b.test_slice h), Nat.zero_add]
  rfl

theorem setMultiple_refines (value : Bool) (h : start + cnt ≤ b.bitCnt) :
    ∃ b', b.setMultiple start cnt value = some b' ∧ b'.bitCnt = b.bitCnt ∧
      bitmapSetMultiple b.toBits start cnt value = some b'.toBits := by
  obtain ⟨b', hset, hcnt, hbit⟩ := b.setMultiple_spec value h
  refine ⟨b', hset, hcnt, ?_⟩
  unfold bitmapSetMultiple
  rw [b.length_toBits, if_pos h]
  congr 1
  apply ext_getElem?
  intro i
  -- before the group, inside it, behind it
  by_cases hlo : i < start
  · rw [append_assoc, getElem?_append_left (by simp; omega),
      getElem?_take_of_lt hlo, b.getElem?_toBits (by omega), b'.getElem?_toBits (by omega),
      hbit, if_neg (by omega)]
  · by_cases hhi : i < start + cnt
    · rw [getElem?_append_left (by simp; omega), getElem?_append_right (by simp; omega),
        b'.getElem?_toBits (by omega), hbit, if_pos (by omega), getElem?_replicate,
        if_pos (by simp; omega)]
    · rw [getElem?_append_right (by simp; omega), getElem?_drop]
      have hpos : start + cnt + (i - (b.toBits.take start ++ List.replicate cnt value).length) = i := by
        simp
        omega
      rw [hpos]
      by_cases hi : i < b.bitCnt
      · rw [b.getElem?_toBits hi, b'.getElem?_toBits (by omega), hbit, if_neg (by omega)]
      · rw [getElem?_eq_none (by simp; omega), getElem?_eq_none (by simp; omega)]

theorem scan_refines (cnt : Nat) (value : Bool) (h : start ≤ b.bitCnt) :
    b.scan start cnt value = some (bitmapScan b.toBits start cnt value) := by
  unfold scan bitmapScan
  rw [if_pos h, b.length_toBits]
  by_cases hcnt : cnt ≤ b.bitCnt
  · rw [if_pos hcnt, if_pos hcnt]
    apply findM?_eq
    intro i hi
    have hmem := mem_range'_1.mp hi
    rw [b.contains_refines (!value) (by omega)]
    rfl
  · rw [if_neg hcnt, if_neg hcnt]

end

/-- `bitmap_create` fails only for the 31 sizes at which `elem_cnt` wraps to no
words at all; otherwise the bits in use are clear, whatever the memory held. -/
theorem create_spec (bitCnt : UInt32) (memory : Nat → BitVec 32) :
    (4294967296 ≤ bitCnt.toNat + 31 ∧ create bitCnt memory = none) ∨
      ∃ b, create bitCnt memory = some b ∧ b.bitCnt = bitCnt.toNat ∧
        b.toBits = List.replicate bitCnt.toNat false := by
  have hlt := bitCnt.toNat_lt
  unfold create
  split
  · refine .inr ?_
    obtain ⟨b', hset, hcnt, hbit⟩ := setMultiple_spec ⟨bitCnt.toNat, _, _, _⟩ false
      (Nat.le_of_eq (Nat.zero_add _))
    refine ⟨b', hset, hcnt, ?_⟩
    unfold toBits
    rw [hcnt, eq_replicate_iff, length_map, length_range]
    refine ⟨rfl, fun v hv => ?_⟩
    obtain ⟨i, hi, rfl⟩ := mem_map.mp hv
    rw [hbit, if_pos ⟨Nat.zero_le i, by simpa using hi⟩]
  · rename_i hnone
    refine .inl ⟨?_, rfl⟩
    unfold byteSize elemCnt at hnone
    omega

/-- The answer of a scan is the lowest group, or there is none. -/
def FirstGroup (b : Bitmap) (start cnt : Nat) (value : Bool) : Option Nat → Prop
  | none => ∀ i, start ≤ i → ¬ Group b.toBits i cnt value
  | some i => start ≤ i ∧ Group b.toBits i cnt value ∧
      ∀ t, start ≤ t → t < i → ¬ Group b.toBits t cnt value

theorem scan_spec (b : Bitmap) {start : Nat} (cnt : Nat) (value : Bool) (h : start ≤ b.bitCnt) :
    ∃ r, b.scan start cnt value = some r ∧ b.FirstGroup start cnt value r := by
  refine ⟨_, b.scan_refines cnt value h, ?_⟩
  cases hscan : bitmapScan b.toBits start cnt value with
  | none => exact fun i hi => bitmapScan_none hscan i hi
  | some i => exact bitmapScan_some hscan

theorem scanAndFlip_spec (b : Bitmap) {start : Nat} (cnt : Nat) (value : Bool)
    (h : start ≤ b.bitCnt) :
    ∃ r b', b.scanAndFlip start cnt value = some (r, b') ∧ b.FirstGroup start cnt value r ∧
      b'.bitCnt = b.bitCnt ∧
      ∀ j, b'.bit j = if ∃ i ∈ r, i ≤ j ∧ j < i + cnt then !value else b.bit j := by
  obtain ⟨r, hscan, hfirst⟩ := b.scan_spec cnt value h
  unfold scanAndFlip
  rw [hscan, some_bind]
  cases r with
  | none => exact ⟨none, b, rfl, hfirst, rfl, fun j => by simp⟩
  | some i =>
    have hle := hfirst.2.1.1
    rw [b.length_toBits] at hle
    obtain ⟨b', hset, hcnt, hbit⟩ := b.setMultiple_spec (!value) hle
    refine ⟨some i, b', ?_, hfirst, hcnt, fun j => ?_⟩
    · dsimp only
      rw [hset]
      rfl
    · rw [hbit]
      simp

end Bitmap

def Bitmap.none (b : Bitmap) (start cnt : Nat) : Option Bool := do
  some (!(← b.contains start cnt true))

/-- The operations on the words of `b` are those on its bits. -/
structure Bitmap.OnBits (b : Bitmap) : Prop where
  set : ∀ i value, i < b.bitCnt → ∃ b', b.set i value = some b' ∧ b'.bitCnt = b.bitCnt ∧
    ∀ j, b'.bit j = if j = i then value else b.bit j
  flip : ∀ i, i < b.bitCnt → ∃ b', b.flip i = some b' ∧ b'.bitCnt = b.bitCnt ∧
    ∀ j, b'.bit j = if j = i then !b.bit j else b.bit j
  setMultiple : ∀ start cnt value, start + cnt ≤ b.bitCnt →
    ∃ b', b.setMultiple start cnt value = some b' ∧ b'.bitCnt = b.bitCnt ∧
      ∀ j, b'.bit j = if start ≤ j ∧ j < start + cnt then value else b.bit j
  test : ∀ i, i < b.bitCnt → b.test i = some (b.bit i)
  count : ∀ start cnt value, start + cnt ≤ b.bitCnt →
    b.count start cnt value = some ((b.slice start cnt).count value)
  contains : ∀ start cnt value, start + cnt ≤ b.bitCnt →
    b.contains start cnt value = some ((b.slice start cnt).contains value)
  any : ∀ start cnt, start + cnt ≤ b.bitCnt → b.any start cnt = some ((b.slice start cnt).any id)
  none : ∀ start cnt, start + cnt ≤ b.bitCnt → b.none start cnt = some (!(b.slice start cnt).any id)
  all : ∀ start cnt, start + cnt ≤ b.bitCnt → b.all start cnt = some ((b.slice start cnt).all id)
  scan : ∀ start cnt value, start ≤ b.bitCnt →
    ∃ r, b.scan start cnt value = some r ∧ b.FirstGroup start cnt value r
  scanAndFlip : ∀ start cnt value, start ≤ b.bitCnt →
    ∃ r b', b.scanAndFlip start cnt value = some (r, b') ∧ b.FirstGroup start cnt value r ∧
      b'.bitCnt = b.bitCnt ∧
      ∀ j, b'.bit j = if ∃ i ∈ r, i ≤ j ∧ j < i + cnt then !value else b.bit j

/-- **Words refine bits**, in every bitmap. There are bitmaps of all sizes at which `elem_cnt` does
not wrap to no words. -/
theorem bitmap_words_refine_bits :
    (∀ b : Bitmap, b.OnBits) ∧ ∀ (bitCnt : UInt32) (memory : Nat → BitVec 32),
      4294967296 ≤ bitCnt.toNat + 31 ∧ Bitmap.create bitCnt memory = none ∨
        ∃ b, Bitmap.create bitCnt memory = some b ∧ b.bitCnt = bitCnt.toNat := by
  have htrue : ∀ l : List Bool, l.contains true = l.any id := fun l => by
    rw [contains_eq_any_beq]
    exact congrArg l.any (funext Bool.true_beq)
  have hfalse : ∀ l : List Bool, (!l.contains false) = l.all id := fun l => by
    rw [contains_eq_any_beq, not_any_eq_all_not]
    exact congrArg l.all (funext fun bit => by cases bit <;> rfl)
  refine ⟨fun b => ⟨fun _ value hi => b.set_spec value hi, fun _ hi => b.flip_spec hi,
    fun _ _ value h => b.setMultiple_spec value h, fun _ hi => b.test_eq hi,
    fun _ _ value h => b.count_eq value h, fun _ _ value h => b.contains_eq value h,
    fun _ _ h => ?_, fun _ _ h => ?_, fun _ _ h => ?_, fun _ cnt value h => b.scan_spec cnt value h,
    fun _ cnt value h => b.scanAndFlip_spec cnt value h⟩, fun bitCnt memory => ?_⟩
  · rw [Bitmap.any, b.contains_eq true h, htrue]
  · rw [Bitmap.none, b.contains_eq true h, some_bind, htrue]
  · rw [Bitmap.all, b.contains_eq false h, some_bind, hfalse]
  · refine (Bitmap.create_spec bitCnt memory).imp_right ?_
    rintro ⟨b, hb, hcnt, -⟩
    exact ⟨b, hb, hcnt⟩

end Pintos.FileSys
