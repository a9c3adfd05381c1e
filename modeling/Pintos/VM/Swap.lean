import Pintos.FileSys.Bitmap
import Pintos.FileSys.Cache
import Pintos.Lib.Run

/-!
# The swap device (`vm/swap.c`)

The device is divided into slots of eight sectors, one page each, and `swap_table`
has one bit for each slot. Callers know a slot by the number of its first sector;
`swap_in` computes the slot back from it. All of this is done in 32-bit unsigned
arithmetic, and so is the number of slots, which for a device of 2^23 sectors or
more is computed modulo 2^20.
-/

namespace Pintos.VM

open Lib FileSys List Option Function

def PGSIZE : UInt32 := 4096
def SECTOR_SIZE : UInt32 := 512

abbrev Page := Arr 4096 UInt8

instance neZero_page : NeZero 4096 := ⟨by decide⟩

def pageSector (p : Page) (i : Nat) : Block := fun j => p.get (i * 512 + j.val)

/-- `swap_device` and `swap_table`. A slot is within the device, and the slots can be
counted in 20 bits. -/
structure Swap where
  capacity : UInt32
  device : Disk
  table : List Bool
  fits : 8 * table.length ≤ capacity.toNat
  small : table.length < 1048576

namespace Swap

/-! ## swap_init -/

def slotCount (capacity : UInt32) : Nat := (capacity * SECTOR_SIZE / PGSIZE).toNat

theorem slotCount_eq (capacity : UInt32) :
    slotCount capacity = capacity.toNat * 512 % 4294967296 / 4096 := by
  unfold slotCount SECTOR_SIZE PGSIZE
  rw [UInt32.toNat_div, UInt32.toNat_mul]
  rfl

def swapInit (capacity : UInt32) (device : Disk) : Swap where
  capacity := capacity
  device := device
  table := List.replicate (slotCount capacity) false
  fits := by
    rw [length_replicate, slotCount_eq]
    omega
  small := by
    rw [length_replicate, slotCount_eq]
    omega

/-! ## Sectors -/

def selectable (s : Swap) (sector : Sector) : Bool :=
  sector < s.capacity && sector < 268435456

def diskRead (s : Swap) (sector : Sector) : Option Block :=
  if s.selectable sector then some (s.device sector) else none

def diskWrite (s : Swap) (sector : Sector) (b : Block) : Option Swap :=
  if s.selectable sector then some { s with device := FileSys.diskWrite s.device sector b } else none

def readSectors (s : Swap) (sectorNum : Sector) (frame : Page) : Nat → Option Page
  | 0 => some frame
  | i + 1 => do
    let frame ← readSectors s sectorNum frame i
    let b ← s.diskRead (UInt32.ofNat i + sectorNum)
    some (frame.patch (i * 512) 512 b.get 0)

def writeSectors (s : Swap) (frame : Page) (sectorNum : Sector) : Nat → Option Swap
  | 0 => some s
  | i + 1 => do
    let s ← writeSectors s frame sectorNum i
    s.diskWrite (UInt32.ofNat i + sectorNum) (pageSector frame i)

def readFromDisk (s : Swap) (frame : Page) (sectorNum : Sector) : Option Page :=
  s.readSectors sectorNum frame 8

def writeToDisk (s : Swap) (frame : Page) (sectorNum : Sector) : Option Swap :=
  s.writeSectors frame sectorNum 8

/-! ## swap_in and swap_out -/

def setBit (s : Swap) (idx : Nat) (value : Bool) : Swap where
  capacity := s.capacity
  device := s.device
  table := s.table.set idx value
  fits := by
    rw [length_set]
    exact s.fits
  small := by
    rw [length_set]
    exact s.small

/-- The sector number of a slot, as `get_empty_sector_num` computes it. -/
def sectorOf (idx : Nat) : Sector := UInt32.ofNat idx * PGSIZE / SECTOR_SIZE

/-- `get_empty_sector_num`. There is no value in the place of `PANIC ("bitmap full")`. -/
def getEmptySectorNum (s : Swap) : Option (Sector × Swap) := do
  let idx ← bitmapScan s.table 0 1 false
  some (sectorOf idx, s.setBit idx true)

def swapOut (s : Swap) (frame : Page) : Option (Sector × Swap) := do
  let (sectorNum, s) ← s.getEmptySectorNum
  let s ← s.writeToDisk frame sectorNum
  some (sectorNum, s)

def slotOf (sectorNum : Sector) : Nat := (sectorNum * SECTOR_SIZE / PGSIZE).toNat

/-- `swap_in`. There is no value where `bitmap_test` asserts the bounds and in the place
of `PANIC ("invalid swap space!")`. -/
def swapIn (s : Swap) (frame : Page) (sectorNum : Sector) : Option (Page × Swap) :=
  match s.table[slotOf sectorNum]? with
  | none => none
  | some false => none
  | some true => do
    let s := s.setBit (slotOf sectorNum) false
    let frame ← s.readFromDisk frame sectorNum
    some (frame, s)

def page (s : Swap) (idx : Nat) : Page := fun k =>
  (s.device (UInt32.ofNat (8 * idx + k.val / 512))).get (k.val % 512)

/-! ## Slots and sectors -/

section
variable {idx : Nat}

section
variable (h : idx < 1048576)
include h

/-- The product of a slot number and `PGSIZE` does not wrap. -/
theorem sectorOf_toNat : (sectorOf idx).toNat = 8 * idx := by
  unfold sectorOf SECTOR_SIZE PGSIZE
  rw [UInt32.toNat_div, UInt32.toNat_mul, UInt32.toNat_ofNat']
  show idx % 4294967296 * 4096 % 4294967296 / 512 = 8 * idx
  omega

theorem slotOf_sectorOf : slotOf (sectorOf idx) = idx := by
  unfold slotOf SECTOR_SIZE PGSIZE
  rw [UInt32.toNat_div, UInt32.toNat_mul, sectorOf_toNat h]
  show 8 * idx * 512 % 4294967296 / 4096 = idx
  omega

theorem sectorOf_inj {idx' : Nat} (h' : idx' < 1048576) (heq : sectorOf idx = sectorOf idx') :
    idx = idx' := by
  rw [← slotOf_sectorOf h, heq, slotOf_sectorOf h']

theorem add_sectorOf (i : Nat) :
    UInt32.ofNat i + sectorOf idx = UInt32.ofNat (8 * idx + i) := by
  apply UInt32.toNat.inj
  rw [UInt32.toNat_add, sectorOf_toNat h, UInt32.toNat_ofNat', UInt32.toNat_ofNat']
  omega

theorem toNat_slotSector {i : Nat} (hi : i < 8) :
    (UInt32.ofNat (8 * idx + i)).toNat = 8 * idx + i := by
  rw [UInt32.toNat_ofNat']
  omega

end

variable {s : Swap}

theorem selectable_slot (h : idx < s.table.length) {i : Nat} (hi : i < 8) :
    s.selectable (UInt32.ofNat (8 * idx + i)) = true := by
  have hsmall := s.small
  have hfits := s.fits
  have hsec := toNat_slotSector (lt_trans h hsmall) hi
  unfold selectable
  rw [Bool.and_eq_true, decide_eq_true_eq, decide_eq_true_eq, UInt32.lt_iff_toNat_lt,
    UInt32.lt_iff_toNat_lt, hsec]
  refine ⟨by omega, ?_⟩
  show 8 * idx + i < 268435456
  omega

theorem get_page (s : Swap) (idx : Nat) {k : Nat} (hk : k < 4096) :
    (s.page idx).get k = (s.device (UInt32.ofNat (8 * idx + k / 512))).get (k % 512) := by
  show (s.device (UInt32.ofNat (8 * idx + (Fin.ofNat 4096 k).val / 512))).get
    ((Fin.ofNat 4096 k).val % 512) = _
  rw [show (Fin.ofNat 4096 k).val = k from Nat.mod_eq_of_lt hk]

theorem get_pageSector (p : Page) (i : Nat) {j : Nat} (hj : j < 512) :
    (pageSector p i).get j = p.get (i * 512 + j) := by
  unfold pageSector
  show p.get (i * 512 + (Fin.ofNat 512 j).val) = _
  rw [show (Fin.ofNat 512 j).val = j from Nat.mod_eq_of_lt hj]

section
variable (h : idx < s.table.length)
include h

theorem readSectors_spec (frame : Page) {n : Nat} (hn : n ≤ 8) :
    ∃ p, s.readSectors (sectorOf idx) frame n = some p ∧
      ∀ k, k < 4096 → p.get k = if k < 512 * n then (s.page idx).get k else frame.get k := by
  have hsmall := s.small
  induction n with
  | zero => exact ⟨frame, rfl, fun k _ => by simp⟩
  | succ i ih =>
    obtain ⟨p, hp, hbytes⟩ := ih (by omega)
    have hsec := add_sectorOf (lt_trans h hsmall) i
    have hread : s.diskRead (UInt32.ofNat i + sectorOf idx) =
        some (s.device (UInt32.ofNat (8 * idx + i))) := by
      rw [hsec, diskRead, if_pos (selectable_slot h (by omega))]
    refine ⟨_, by simp only [readSectors, hp, hread, some_bind]; rfl, ?_⟩
    intro k hk
    rw [Arr.get_patch _ _ _ _ _ hk, hbytes k hk]
    -- the bytes of this turn are those of sector `i`
    by_cases hin : i * 512 ≤ k ∧ k < i * 512 + 512
    · rw [if_pos hin, if_pos (by omega), get_page s idx hk, show k / 512 = i by omega,
        show 0 + (k - i * 512) = k % 512 by omega]
    · rw [if_neg hin]
      by_cases hlt : k < 512 * i
      · rw [if_pos hlt, if_pos (by omega)]
      · rw [if_neg hlt, if_neg (by omega)]

theorem readFromDisk_eq (frame : Page) :
    s.readFromDisk frame (sectorOf idx) = some (s.page idx) := by
  obtain ⟨p, hp, hbytes⟩ := readSectors_spec h frame (le_refl 8)
  rw [readFromDisk, hp]
  congr 1
  exact Arr.ext_get fun k hk => by rw [hbytes k hk, if_pos (by omega)]

theorem writeSectors_spec (frame : Page) {n : Nat} (hn : n ≤ 8) :
    ∃ s', s.writeSectors frame (sectorOf idx) n = some s' ∧ s'.capacity = s.capacity ∧
      s'.table = s.table ∧ (∀ u, u.toNat < 8 * idx ∨ 8 * idx + n ≤ u.toNat → s'.device u = s.device u) ∧
      ∀ i, i < n → s'.device (UInt32.ofNat (8 * idx + i)) = pageSector frame i := by
  have hsmall := s.small
  induction n with
  | zero => exact ⟨s, rfl, rfl, rfl, fun _ _ => rfl, fun i hi => by omega⟩
  | succ j ih =>
    obtain ⟨s', hs', hcap, htab, hother, hslot⟩ := ih (by omega)
    have hsec := add_sectorOf (lt_trans h hsmall) j
    have hnat := toNat_slotSector (lt_trans h hsmall) (show j < 8 by omega)
    have hsel : s'.selectable (UInt32.ofNat j + sectorOf idx) = true := by
      rw [hsec]
      exact selectable_slot (htab ▸ h) (by omega)
    refine ⟨{ s' with
        device := FileSys.diskWrite s'.device (UInt32.ofNat j + sectorOf idx) (pageSector frame j) },
      ?_, hcap, htab, fun u hu => ?_, fun i hi => ?_⟩
    · simp only [writeSectors, hs', some_bind]
      rw [diskWrite, if_pos hsel]
    · rw [← hother u (by omega), hsec]
      refine update_of_ne (fun he => ?_) _ _
      rw [he, hnat] at hu
      omega
    · rw [hsec]
      by_cases hij : i = j
      · rw [hij]
        exact update_self _ _ _
      · rw [← hslot i (by omega)]
        refine update_of_ne (fun he => hij ?_) _ _
        have hnat' := toNat_slotSector (lt_trans h hsmall) (show i < 8 by omega)
        rw [he, hnat] at hnat'
        omega

theorem writeToDisk_spec (frame : Page) :
    ∃ s', s.writeToDisk frame (sectorOf idx) = some s' ∧ s'.capacity = s.capacity ∧
      s'.table = s.table ∧ s'.page idx = frame ∧
      ∀ k, k < s.table.length → k ≠ idx → s'.page k = s.page k := by
  have hsmall := s.small
  obtain ⟨s', hs', hcap, htab, hother, hslot⟩ := writeSectors_spec h frame (le_refl 8)
  refine ⟨s', hs', hcap, htab, Arr.ext_get fun k hk => ?_, fun j hj hne => Arr.ext_get fun k hk => ?_⟩
  · rw [get_page s' idx hk, hslot _ (by omega), get_pageSector _ _ (by omega)]
    congr 1
    omega
  · rw [get_page s' j hk, get_page s j hk, hother]
    rw [toNat_slotSector (by omega) (by omega)]
    omega

end

/-! ## The two calls -/

theorem scan_free (h : bitmapScan s.table 0 1 false = some idx) : s.table[idx]? = some false := by
  rw [bitmapScan_one] at h
  exact mem_freeBits.mp (mem_of_head? h)

theorem page_setBit (s : Swap) (idx : Nat) (value : Bool) : (s.setBit idx value).page = s.page := rfl

/-- **`swap_out`** puts the page into the first free slot and leaves the other slots alone. -/
theorem swapOut_spec (frame : Page) (h : bitmapScan s.table 0 1 false = some idx) :
    ∃ s', s.swapOut frame = some (sectorOf idx, s') ∧ s'.capacity = s.capacity ∧
      s'.table = s.table.set idx true ∧ s'.page idx = frame ∧
      ∀ k, k < s.table.length → k ≠ idx → s'.page k = s.page k := by
  have hlt : idx < (s.setBit idx true).table.length := by
    rw [setBit, List.length_set]
    exact (List.getElem?_eq_some_iff.mp (scan_free h)).1
  obtain ⟨s', hs', hcap, htab, hpage, hother⟩ := writeToDisk_spec hlt frame
  refine ⟨s', ?_, hcap, htab, hpage, fun k hk hne => ?_⟩
  · simp only [swapOut, getEmptySectorNum, h, hs', some_bind]
  · rw [hother k (by rw [setBit, List.length_set]; exact hk) hne, page_setBit]

/-- It panics only if every slot is in use. -/
theorem swapOut_none (frame : Page) (h : bitmapScan s.table 0 1 false = none) :
    s.swapOut frame = none := by
  simp only [swapOut, getEmptySectorNum, h, Option.bind_eq_bind, Option.bind_none]

/-- **`swap_in`** takes the page out of its slot. -/
theorem swapIn_spec (frame : Page) (h : s.table[idx]? = some true) :
    s.swapIn frame (sectorOf idx) = some (s.page idx, s.setBit idx false) := by
  have hlt := (List.getElem?_eq_some_iff.mp h).1
  have hslot := slotOf_sectorOf (lt_trans hlt s.small)
  have hlt' : idx < (s.setBit idx false).table.length := by
    rw [setBit, List.length_set]
    exact hlt
  have hread := readFromDisk_eq hlt' frame
  unfold swapIn
  rw [hslot, h]
  simp only [hread, page_setBit, some_bind]

end

end Swap

/-! ## Sequences of calls -/

/-- A page that has been swapped out and not in again: the bit that was set for it, the
number that `swap_out` returned, and its bytes. -/
structure Kept where
  slot : Nat
  sectorNum : Sector
  page : Page

/-- The device and the pages that are kept on it. -/
structure PageStore where
  swap : Swap
  kept : List Kept

inductive SwapCall where
  | out (frame : Page)
  | in (sectorNum : Sector) (frame : Page)

namespace PageStore

def step (st : PageStore) : SwapCall → Option PageStore
  | .out frame => do
    let slot ← bitmapScan st.swap.table 0 1 false
    let (sectorNum, swap) ← st.swap.swapOut frame
    some ⟨swap, ⟨slot, sectorNum, frame⟩ :: st.kept⟩
  | .in sectorNum frame => do
    let (_, swap) ← st.swap.swapIn frame sectorNum
    some ⟨swap, st.kept.filter (·.sectorNum ≠ sectorNum)⟩

/-- A page is swapped in by the number that `swap_out` returned for it. -/
def admitted (st : PageStore) : SwapCall → Prop
  | .out _ => True
  | .in sectorNum _ => sectorNum ∈ st.kept.map Kept.sectorNum

instance (st : PageStore) : (call : SwapCall) → Decidable (admitted st call)
  | .out _ => .isTrue trivial
  | .in sectorNum _ => inferInstanceAs (Decidable (sectorNum ∈ st.kept.map Kept.sectorNum))

/-- The kept pages are on the device, each in a slot of its own, and only they are. -/
structure Inv (st : PageStore) : Prop where
  sector : ∀ e ∈ st.kept, e.sectorNum = Swap.sectorOf e.slot
  page : ∀ e ∈ st.kept, st.swap.page e.slot = e.page
  nodup : (st.kept.map Kept.slot).Nodup
  used : ∀ k, st.swap.table[k]? = some true ↔ k ∈ st.kept.map Kept.slot

section
variable {st st' : PageStore}

variable {e : Kept}

variable (h : Inv st)
include h

theorem Inv.lt (he : e ∈ st.kept) : e.slot < st.swap.table.length :=
  (List.getElem?_eq_some_iff.mp ((h.used e.slot).mpr (List.mem_map_of_mem he))).1

theorem Inv.small (he : e ∈ st.kept) : e.slot < 1048576 :=
  lt_trans (h.lt he) st.swap.small

theorem Inv.swapIn (he : e ∈ st.kept) (frame : Page) :
    st.swap.swapIn frame e.sectorNum = some (e.page, st.swap.setBit e.slot false) := by
  rw [h.sector e he, Swap.swapIn_spec frame ((h.used _).mpr (mem_map_of_mem he)), h.page e he]

theorem Inv.filter_eq (he : e ∈ st.kept) :
    st.kept.filter (·.sectorNum ≠ e.sectorNum) = st.kept.filter (·.slot ≠ e.slot) := by
  apply filter_congr
  intro x hx
  rw [decide_eq_decide, not_iff_not, h.sector x hx, h.sector e he]
  exact ⟨fun heq => Swap.sectorOf_inj (h.small hx) (h.small he) heq, fun heq => by rw [heq]⟩

theorem Inv.out {frame : Page} (hstep : step st (.out frame) = some st') : Inv st' := by
  obtain ⟨slot, hscan, hrest⟩ := Option.bind_eq_some_iff.mp hstep
  have hfree := Swap.scan_free hscan
  have hlt := (List.getElem?_eq_some_iff.mp hfree).1
  obtain ⟨s', hout, hcap, htab, hpage, hother⟩ := Swap.swapOut_spec frame hscan
  rw [hout] at hrest
  cases hrest
  have hnew : slot ∉ st.kept.map Kept.slot := fun hmem => by
    rw [← h.used, hfree] at hmem
    cases hmem
  refine ⟨?_, ?_, List.nodup_cons.mpr ⟨hnew, h.nodup⟩, fun k => ?_⟩
  · intro e he
    rcases List.mem_cons.mp he with rfl | he
    · rfl
    · exact h.sector e he
  · intro e he
    rcases List.mem_cons.mp he with rfl | he
    · exact hpage
    · have hne : e.slot ≠ slot := fun heq => hnew (heq ▸ List.mem_map_of_mem he)
      show s'.page e.slot = e.page
      rw [hother _ (h.lt he) hne, h.page e he]
  · show s'.table[k]? = some true ↔ k ∈ slot :: st.kept.map Kept.slot
    rw [htab, getElem?_set_bit true hlt, List.mem_cons, ← h.used]
    by_cases hk : k = slot
    · simp [hk]
    · simp [hk]

theorem Inv.in {sectorNum : Sector} {frame : Page} (hmem : sectorNum ∈ st.kept.map Kept.sectorNum)
    (hstep : step st (.in sectorNum frame) = some st') : Inv st' := by
  obtain ⟨e, he, rfl⟩ := List.mem_map.mp hmem
  have hlt := h.lt he
  simp only [step, h.swapIn he frame, some_bind, h.filter_eq he] at hstep
  cases hstep
  refine ⟨fun x hx => h.sector x (List.mem_of_mem_filter hx),
    fun x hx => h.page x (List.mem_of_mem_filter hx),
    h.nodup.sublist (List.filter_sublist.map _), fun k => ?_⟩
  show (st.swap.table.set e.slot false)[k]? = some true ↔ _
  rw [getElem?_set_bit false hlt]
  by_cases hk : k = e.slot
  · subst hk
    simp
  · rw [if_neg hk, h.used]
    simp only [List.mem_map, List.mem_filter, decide_eq_true_eq]
    constructor
    · rintro ⟨x, hx, rfl⟩
      exact ⟨x, ⟨hx, hk⟩, rfl⟩
    · rintro ⟨x, ⟨hx, -⟩, rfl⟩
      exact ⟨x, hx, rfl⟩

theorem step_inv {c : SwapCall} (hok : admitted st c) (hstep : step st c = some st') :
    Inv st' := by
  cases c with
  | out frame => exact h.out hstep
  | «in» sectorNum frame => exact h.in hok hstep

end

theorem init_inv (capacity : UInt32) (device : Disk) : Inv ⟨Swap.swapInit capacity device, []⟩ := by
  refine ⟨nofun, nofun, nodup_nil, fun k => ?_⟩
  show (List.replicate _ false)[k]? = some true ↔ k ∈ []
  rw [getElem?_replicate]
  split <;> simp

/-- What a store of pages does, whatever has been done with it before. -/
structure Faithful (st : PageStore) : Prop where
  /-- `swap_in` does not panic and returns the bytes that were given to `swap_out`. -/
  returns : ∀ e ∈ st.kept, ∀ frame, ∃ swap,
    st.swap.swapIn frame e.sectorNum = some (e.page, swap) ∧ swap.table[e.slot]? = some false
  /-- The slot that `swap_in` computes is the one that `swap_out` reserved. -/
  index : ∀ e ∈ st.kept, Swap.slotOf e.sectorNum = e.slot ∧ st.swap.table[e.slot]? = some true
  inside : ∀ e ∈ st.kept, e.sectorNum.toNat + 8 ≤ st.swap.capacity.toNat
  disjoint : st.kept.Pairwise fun e e' =>
    e.sectorNum.toNat + 8 ≤ e'.sectorNum.toNat ∨ e'.sectorNum.toNat + 8 ≤ e.sectorNum.toNat
  /-- Every other slot is free. -/
  free : ∀ k, k < st.swap.table.length → k ∉ st.kept.map Kept.slot → st.swap.table[k]? = some false
  /-- `swap_out` panics only if no slot is free. -/
  room : ∀ (k : Nat) frame, st.swap.table[k]? = some false → ∃ r, st.swap.swapOut frame = some r

theorem Inv.faithful {st : PageStore} (h : Inv st) : Faithful st where
  returns := by
    intro e he frame
    refine ⟨_, h.swapIn he frame, ?_⟩
    show (st.swap.table.set e.slot false)[e.slot]? = _
    rw [getElem?_set_bit false (h.lt he), if_pos rfl]
  index := by
    intro e he
    rw [h.sector e he]
    exact ⟨Swap.slotOf_sectorOf (h.small he), (h.used _).mpr (mem_map_of_mem he)⟩
  inside := by
    intro e he
    have hfits := st.swap.fits
    have hlt := h.lt he
    rw [h.sector e he, Swap.sectorOf_toNat (h.small he)]
    omega
  disjoint := by
    -- different slots start at multiples of eight sectors that differ
    refine (pairwise_map.mp h.nodup).imp_of_mem ?_
    intro e e' he he' hne
    rw [h.sector e he, h.sector e' he', Swap.sectorOf_toNat (h.small he),
      Swap.sectorOf_toNat (h.small he')]
    omega
  free := by
    intro k hk hnot
    rw [getElem?_eq_getElem hk]
    cases hbit : st.swap.table[k] with
    | false => rfl
    | true => exact absurd ((h.used k).mp (by rw [getElem?_eq_getElem hk, hbit])) hnot
  room := by
    intro k frame hk
    have hmem : k ∈ freeBits st.swap.table := mem_freeBits.mpr hk
    cases hscan : bitmapScan st.swap.table 0 1 false with
    | none =>
      rw [bitmapScan_one, head?_eq_none_iff] at hscan
      rw [hscan] at hmem
      cases hmem
    | some idx =>
      obtain ⟨s', hout, -⟩ := Swap.swapOut_spec frame hscan
      exact ⟨_, hout⟩

/-- **The swap device is a faithful store of pages**, for every device and after every
sequence of calls that swaps in only what has been swapped out. -/
theorem swap_is_page_store {capacity : UInt32} {device : Disk} {calls : List SwapCall}
    {st : PageStore} (hrun : Run step admitted ⟨Swap.swapInit capacity device, []⟩ calls st) :
    Faithful st :=
  (hrun.invariant (I := Inv) (fun _ _ _ hs hok hstep => step_inv hs hok hstep)
    (init_inv capacity device)).faithful

/-- Two pages go out to a device of 17 sectors and the first one comes back. -/
theorem swap_is_page_store_two_pages :
    ∃ st, Run step admitted ⟨Swap.swapInit 17 (fun _ => Arr.const 0), []⟩
        ([] ++ [.out (Arr.const 1)] ++ [.out (Arr.const 2)] ++ [.in 0 (Arr.const 3)]) st ∧
      Faithful st := by
  exact Run.exists_guarded (fun _ => True) (by decide +kernel) fun _ hrun _ => swap_is_page_store hrun

end PageStore

end Pintos.VM
