import Pintos.FileSys.Files
import Pintos.FileSys.FreeMap

/-!
# The free map and its file

While the file of the free map is open, every allocation and release writes the
whole map to it, through the cache. The file has its final length, so this
never grows it and never calls the free map again.
-/

namespace Pintos.FileSys

open Lib Function

/-! ## Locks -/

theorem lockUnlessDir_eq {fs : FS} {isDir : Bool} {i : Sector}
    (h : isDir = false → fs.locked i = false) :
    lockUnlessDir fs isDir i = some { fs with
      locked := if isDir then fs.locked else update fs.locked i true } := by
  unfold lockUnlessDir FS.lockAcquire
  cases isDir with
  | true => rfl
  | false => simp [h rfl]

theorem unlockUnlessDir_eq {fs : FS} {l : Sector → Bool} {isDir : Bool} {i : Sector}
    (hl : isDir = false → l i = false)
    (h : fs.locked = if isDir then l else update l i true) :
    unlockUnlessDir fs isDir i = some { fs with locked := l } := by
  unfold unlockUnlessDir FS.lockRelease
  cases isDir with
  | true =>
    simp only [if_true] at h ⊢
    rw [← h]
  | false =>
    simp only [Bool.false_eq_true, if_false] at h ⊢
    rw [h, update_self, if_pos rfl, update_idem, ← hl rfl,
      update_eq_self]

/-- A write within the file does not grow it. -/
theorem growForWrite_within (fm : FreeMapOps) (fs : FS) (ino : Inode) (isDir : Bool)
    (size offset : Int) (hd : inodeIsDir ino = some isDir)
    (hlock : isDir = false → fs.locked ino.sector = false)
    (h : i32 (size + offset) ≤ ino.length) :
    growForWrite fm fs ino size offset = some (true, fs) := by
  unfold growForWrite
  simp only [hd, some_bind, lockUnlessDir_eq hlock]
  rw [if_neg (by omega), unlockUnlessDir_eq (l := fs.locked) hlock rfl]
  rfl

/-! ## The file of the free map -/

/-- `free_map_file` is open and as long as the map; `ino` is its inode. -/
structure MapFile (fs : FS) (ino : Inode) : Prop where
  file : fs.freeMapFile = some FREE_MAP_SECTOR
  opened : fs.inode? FREE_MAP_SECTOR = some ino
  ok : FileOk fs.store ino.toInodeCore
  deny : ino.denyWriteCnt = 0
  regular : ino.isDir = 0
  length : ino.length = byteCnt fs.freeMap.length
  shown : ino.lengthShown = ino.length

def MapSynced (fs : FS) (ino : Inode) : Prop :=
  ∀ k, k < byteCnt fs.freeMap.length →
    fileByte fs.store.view ino.toInodeCore k = bitmapBytes fs.freeMap k

section
variable {d0 : Disk} {fs : FS} {ino : Inode}

theorem bitmapWrite_spec (fm : FreeMapOps) (hst : StoreOk d0 fs) (hnd : OpenNodup fs)
    (hm : MapFile fs ino) (hlock : fs.locked FREE_MAP_SECTOR = false) :
    ∃ fs', bitmapWrite fm fs FREE_MAP_SECTOR = some (true, fs') ∧ SameRest fs fs' ∧
      StoreEff d0 fs fs' (dataSectors fs.store.view ino)
        (dataSectors fs.store.view ino) ∧
      MapFile fs' ino ∧ MapSynced fs' ino := by
  have hsec := inode?_sector hm.opened
  have hbound := hm.ok.bound
  have hlen := hm.length
  have hshown := hm.shown
  have hi32 : i32 ((byteCnt fs.freeMap.length : Int) + 0) ≤ ino.length := by
    rw [hm.length]
    unfold i32
    rw [Int.bmod_def]
    split <;> omega
  have hgrow := growForWrite_within fm fs ino false (byteCnt fs.freeMap.length) 0
    (by rw [inodeIsDir, hm.regular]; rfl) (fun _ => by rw [hsec]; exact hlock) hi32
  obtain ⟨fs', hloop, hrest, heff, hbyte⟩ := @writeLoop_spec _ _ _ (bitmapBytes fs.freeMap)
    (byteCnt fs.freeMap.length) _ (byteCnt fs.freeMap.length) 0 0 (byteCnt fs.freeMap.length)
    hst hnd hm.opened hm.ok (by omega) (by omega) (by omega) (by omega)
  have hself : fs.setInode { ino with
      lengthShown := min ino.length (ino.lengthShown + (byteCnt fs.freeMap.length : Nat)) } = fs := by
    rw [show min ino.length (ino.lengthShown + (byteCnt fs.freeMap.length : Nat)) =
      ino.lengthShown by omega]
    exact setInode_self hnd hm.opened
  rw [hself] at hrest
  have hf' := hm.ok.frame fs'.store heff.view heff.cached
  refine ⟨fs', ?_, hrest, heff, ?_, ?_⟩
  · unfold bitmapWrite inodeWriteAt
    simp only [hm.opened, some_bind, hm.deny, ne_eq,
      not_true_eq_false, if_false, hgrow, if_true, Int.toNat_natCast, hloop]
    simp
  · exact ⟨hrest.freeMapFile.trans hm.file, (hrest.inode? _).trans hm.opened, hf'.1, hm.deny,
      hm.regular, by rw [hrest.freeMap]; exact hm.length, hm.shown⟩
  · intro k hk
    rw [hrest.freeMap] at hk ⊢
    rw [hbyte k (hm.ok.div_lt (by omega)), if_pos (by omega)]
    congr 1
    omega

/-! ## Allocation and release -/

/-- The free map can be changed: there is no file yet, or the file is open and
holds the map. `D` are the data sectors of the file, `N` its index blocks. -/
def MapReady (fs : FS) (D N : Set Sector) : Prop :=
  (fs.freeMapFile = none ∧ D = ∅ ∧ N = ∅) ∨
    ∃ ino, MapFile fs ino ∧ MapSynced fs ino ∧
      D = dataSectors fs.store.view ino.toInodeCore ∧
      N = indexSectors fs.store.view ino.toInodeCore

variable {D N : Set Sector}

theorem MapReady.frame {fs' : FS} (h : MapReady fs D N) (hfile : fs'.freeMapFile = fs.freeMapFile)
    (hmap : fs'.freeMap = fs.freeMap)
    (hstruct : fs'.inode? FREE_MAP_SECTOR = fs.inode? FREE_MAP_SECTOR)
    (hview : ∀ s, s ∈ D ∨ s ∈ N → fs'.store.view s = fs.store.view s)
    (hcached : ∀ s ∈ N, fs'.store.cached s → fs.store.cached s) : MapReady fs' D N := by
  rcases h with ⟨hnone, hD, hN⟩ | ⟨ino, hm, hsync, rfl, rfl⟩
  · exact .inl ⟨hfile.trans hnone, hD, hN⟩
  · obtain ⟨hok, hsame⟩ := hm.ok.keep_index fs'.store (fun s hs => hview s (.inr hs)) (by
      rintro s ⟨a, hi, hu, rfl⟩ hc
      exact hm.ok.direct a hi hu (hcached _ ⟨a, hi, hu, rfl⟩ hc))
    refine .inr ⟨ino, ⟨hfile.trans hm.file, hstruct.trans hm.opened, hok,
      hm.deny, hm.regular, by rw [hmap]; exact hm.length, hm.shown⟩, ?_,
      (dataSectors_congr hsame).symm, (indexSectors_congr hsame).symm⟩
    intro k hk
    rw [hmap] at hk ⊢
    have hlen := hm.length
    rw [fileByte_congr hsame (fun s hs => hview s (.inl hs)) (hm.ok.div_lt (by omega))]
    exact hsync k hk

theorem MapFile.set_bit (hm : MapFile fs ino) (k : Nat) (value : Bool) (log : List Access) :
    MapFile { fs with freeMap := fs.freeMap.set k value, log := log } ino :=
  ⟨hm.file, hm.opened, hm.ok, hm.deny, hm.regular,
    by rw [show ({ fs with freeMap := fs.freeMap.set k value, log := log } : FS).freeMap =
      fs.freeMap.set k value from rfl, List.length_set]; exact hm.length, hm.shown⟩

theorem StoreOk.allocated (hst : StoreOk d0 fs) (s : Sector) : StoreOk d0 (fs.markUsed s) :=
  { hst with }

theorem StoreOk.released (hst : StoreOk d0 fs) (s : Sector) : StoreOk d0 (fs.markFree s) :=
  { hst with }

theorem bitmapWrite_ready (fm : FreeMapOps) {fs1 : FS} (hst : StoreOk d0 fs1)
    (hnd : OpenNodup fs1) (hm : MapFile fs1 ino) (hlock : fs1.locked FREE_MAP_SECTOR = false) :
    ∃ fs', bitmapWrite fm fs1 FREE_MAP_SECTOR = some (true, fs') ∧ SameRest fs1 fs' ∧
      StoreEff d0 fs1 fs' (dataSectors fs1.store.view ino)
        (dataSectors fs1.store.view ino) ∧
      MapReady fs' (dataSectors fs1.store.view ino)
        (indexSectors fs1.store.view ino) := by
  obtain ⟨fs', hw, hrest, heff, hm', hsync⟩ := bitmapWrite_spec fm hst hnd hm hlock
  have hsame := (hm.ok.frame fs'.store heff.view heff.cached).2
  exact ⟨fs', hw, hrest, heff, .inr ⟨ino, hm', hsync, (dataSectors_congr hsame).symm,
    (indexSectors_congr hsame).symm⟩⟩

/-- First fit: the lowest free sector is handed out. -/
theorem freeMapAllocate_spec (fm : FreeMapOps) (hst : StoreOk d0 fs) (hnd : OpenNodup fs)
    (hm : MapReady fs D N) (hlock : fs.locked FREE_MAP_SECTOR = false) {k : Nat} {rest : List Nat}
    (hfree : freeBits fs.freeMap = k :: rest) (hsize : fs.freeMap.length ≤ 4294967296) :
    ∃ fs', freeMapAllocate fm fs 1 = some (some (UInt32.ofNat k), fs') ∧
      SameRest (fs.markUsed (UInt32.ofNat k)) fs' ∧ StoreEff d0 fs fs' D D ∧
      MapReady fs' D N := by
  have hbit : fs.freeMap[k]? = some false := mem_freeBits.mp (hfree ▸ List.mem_cons_self ..)
  have hlt := (List.getElem?_eq_some_iff.mp hbit).1
  have hk : (UInt32.ofNat k).toNat = k := by
    rw [UInt32.toNat_ofNat']
    exact Nat.mod_eq_of_lt (by omega)
  have hscan : bitmapScan fs.freeMap 0 1 false = some k := by
    rw [bitmapScan_one, hfree]
    rfl
  have hmark : ({ fs with freeMap := fs.freeMap.set k true, log := allocations k 1 ++ fs.log } : FS) =
      fs.markUsed (UInt32.ofNat k) := by
    unfold FS.markUsed
    rw [hk]
    rfl
  unfold freeMapAllocate
  simp only [hscan, bitmapSetMultiple_one true hlt, some_bind, hmark]
  rcases hm with ⟨hnone, rfl, rfl⟩ | ⟨ino, hm, hsync, rfl, rfl⟩
  · -- no file yet
    rw [hnone]
    refine ⟨_, rfl, SameRest.refl _, ⟨hst.allocated _, ?_, ?_⟩, Or.inl ⟨hnone, rfl, rfl⟩⟩
    · exact fun s hs => Or.inl hs
    · exact fun s _ => rfl
  · obtain ⟨fs', hw, hrest, heff, hready⟩ := bitmapWrite_ready fm (hst.allocated (UInt32.ofNat k))
      hnd (hm.set_bit _ true _) hlock
    rw [hm.file]
    simp only [hw]
    exact ⟨fs', rfl, hrest, { heff with }, hready⟩

/-- A full disk: nothing changes. -/
theorem freeMapAllocate_full (fm : FreeMapOps) (hfree : freeBits fs.freeMap = []) :
    freeMapAllocate fm fs 1 = some (none, fs) := by
  unfold freeMapAllocate
  rw [bitmapScan_one, hfree]
  rfl

theorem freeMapRelease_spec (fm : FreeMapOps) {s : Sector} (hst : StoreOk d0 fs)
    (hnd : OpenNodup fs) (hm : MapReady fs D N) (hfile : fs.freeMapFile ≠ none)
    (hlock : fs.locked FREE_MAP_SECTOR = false) (hs : fs.isUsed s) :
    ∃ fs', freeMapRelease fm fs s 1 = some fs' ∧ SameRest (fs.markFree s) fs' ∧
      StoreEff d0 fs fs' D D ∧ MapReady fs' D N := by
  have hlt := hs.lt
  have hall : bitmapAll fs.freeMap s.toNat 1 = some true := by
    unfold bitmapAll
    rw [if_pos (by omega), bitmapContains_one false hlt, show fs.freeMap[s.toNat]? = some true from hs]
    rfl
  have hmark : ({ fs with
      freeMap := fs.freeMap.set s.toNat false
      log := releases s.toNat 1 ++ fs.log } : FS) = fs.markFree s := by
    unfold FS.markFree releases
    simp
  rcases hm with ⟨hnone, -, -⟩ | ⟨ino, hm, -, rfl, rfl⟩
  · exact absurd hnone hfile
  · obtain ⟨fs', hw, hrest, heff, hready⟩ := bitmapWrite_ready fm (hst.released s) hnd
      (hm.set_bit s.toNat false (.release s :: fs.log)) hlock
    refine ⟨fs', ?_, hrest, { heff with }, hready⟩
    unfold freeMapRelease
    simp only [hall, bitmapSetMultiple_one false hlt, some_bind,
      if_true, hmark]
    rw [hm.file]
    simp only [some_bind, hw]

end

end Pintos.FileSys
