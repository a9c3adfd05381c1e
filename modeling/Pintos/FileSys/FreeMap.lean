import Pintos.FileSys.Bitmap
import Pintos.FileSys.Inode

/-!
# The free map (`filesys/free-map.c`)

`free_map_file` is the sector of its inode. Writing the free map file goes
through `inode_write_at`, which may have to allocate in turn; `freeMapOps d`
are the two functions when at most `d` such calls are nested. The free map
file has its final size before anything else is allocated, so `freeMapOps 1`
is enough for everything after its creation.
-/

namespace Pintos.FileSys

open Lib

/-- `free_map_init`; `diskSize` is `disk_size (filesys_disk)`. -/
def freeMapInit (diskSize : Nat) : List Bool :=
  ((List.replicate diskSize false).set FREE_MAP_SECTOR.toNat true).set ROOT_DIR_SECTOR.toNat true

def bitmapWrite (fm : FreeMapOps) (fs : FS) (file : Sector) : Option (Bool × FS) := do
  let size : Int := byteCnt fs.freeMap.length
  let (written, fs) ← inodeWriteAt fm fs file (bitmapBytes fs.freeMap) size 0
  some (written = size, fs)

def bitmapRead (fs : FS) (file : Sector) : Option (Bool × FS) :=
  if 0 < fs.freeMap.length then do
    let size : Int := byteCnt fs.freeMap.length
    let (read, bytes, fs) ← inodeReadAt fs file (bitmapBytes fs.freeMap) size 0
    some (read = size, { fs with freeMap := bitmapOfBytes fs.freeMap.length bytes })
  else some (true, fs)

/-- The log of `cnt` sectors handed out from `sector` on. -/
def allocations (sector cnt : Nat) : List Access :=
  (List.range cnt).map fun k => .allocate (UInt32.ofNat (sector + k))

/-- The log of `cnt` sectors taken back from `sector` on. -/
def releases (sector cnt : Nat) : List Access :=
  (List.range cnt).map fun k => .release (UInt32.ofNat (sector + k))

def freeMapAllocate (fm : FreeMapOps) (fs : FS) (cnt : Nat) : Option (Option Sector × FS) :=
  match bitmapScan fs.freeMap 0 cnt false with
  | none => some (none, fs)
  | some sector => do
    let freeMap ← bitmapSetMultiple fs.freeMap sector cnt true
    let fs := { fs with freeMap := freeMap, log := allocations sector cnt ++ fs.log }
    match fs.freeMapFile with
    | none => some (some (UInt32.ofNat sector), fs)
    | some file => do
      let (written, fs) ← bitmapWrite fm fs file
      if written then some (some (UInt32.ofNat sector), fs)
      else do
        let freeMap ← bitmapSetMultiple fs.freeMap sector cnt false
        some (none, { fs with freeMap := freeMap, log := releases sector cnt ++ fs.log })

def freeMapRelease (fm : FreeMapOps) (fs : FS) (sector : Sector) (cnt : Nat) : Option FS := do
  let all ← bitmapAll fs.freeMap sector.toNat cnt
  if all then do
    let freeMap ← bitmapSetMultiple fs.freeMap sector.toNat cnt false
    let fs := { fs with freeMap := freeMap, log := releases sector.toNat cnt ++ fs.log }
    let file ← fs.freeMapFile
    let (_, fs) ← bitmapWrite fm fs file
    some fs
  else none

def freeMapOps : Nat → FreeMapOps
  | 0 => { allocate := fun _ => none, release := fun _ _ => none }
  | d + 1 =>
    { allocate := fun fs => freeMapAllocate (freeMapOps d) fs 1
      release := fun fs sector => freeMapRelease (freeMapOps d) fs sector 1 }

def freeMapCreate (fs : FS) : Option FS := do
  let (created, fs) ←
    inodeCreate (freeMapOps 1) fs FREE_MAP_SECTOR (byteCnt fs.freeMap.length) false
  if created then do
    let fs := { inodeOpen fs FREE_MAP_SECTOR with freeMapFile := some FREE_MAP_SECTOR }
    let (written, fs) ← bitmapWrite (freeMapOps 1) fs FREE_MAP_SECTOR
    if written then some fs else none
  else none

/-- `free_map_close`. The pointer to the file is left as it is. -/
def freeMapClose (fs : FS) : Option FS := do
  let file ← fs.freeMapFile
  inodeClose (freeMapOps 1) fs file

def freeMapOpen (fs : FS) : Option FS := do
  let fs := { inodeOpen fs FREE_MAP_SECTOR with freeMapFile := some FREE_MAP_SECTOR }
  let (read, fs) ← bitmapRead fs FREE_MAP_SECTOR
  if read then some fs else none

/-! ## Free and used sectors -/

def FS.isFree (fs : FS) (s : Sector) : Prop := fs.freeMap[s.toNat]? = some false

def FS.isUsed (fs : FS) (s : Sector) : Prop := fs.freeMap[s.toNat]? = some true

/-- The free map after `s` has been handed out. -/
def FS.markUsed (fs : FS) (s : Sector) : FS :=
  { fs with freeMap := fs.freeMap.set s.toNat true, log := .allocate s :: fs.log }

/-- The free map after `s` has been taken back. -/
def FS.markFree (fs : FS) (s : Sector) : FS :=
  { fs with freeMap := fs.freeMap.set s.toNat false, log := .release s :: fs.log }

variable {fs : FS} {s : Sector}

theorem bit_eq_iff (value : Bool) (hlt : s.toNat < fs.freeMap.length) (u : Sector) (w : Bool) :
    (fs.freeMap.set s.toNat value)[u.toNat]? = some w ↔
      (u = s ∧ value = w) ∨ (u ≠ s ∧ fs.freeMap[u.toNat]? = some w) := by
  rw [getElem?_set_bit value hlt]
  by_cases hu : u = s
  · subst hu
    simp
  · have hne : u.toNat ≠ s.toNat := fun h => hu (UInt32.toNat_inj.mp h)
    simp [hu, hne]

theorem FS.isFree.lt (h : fs.isFree s) : s.toNat < fs.freeMap.length :=
  (List.getElem?_eq_some_iff.mp h).1

theorem FS.isUsed.lt (h : fs.isUsed s) : s.toNat < fs.freeMap.length :=
  (List.getElem?_eq_some_iff.mp h).1

theorem FS.isUsed.not_free (h : fs.isUsed s) : ¬ fs.isFree s := by
  intro hf
  rw [FS.isFree, h] at hf
  cases hf

theorem isUsed_congr {fs' : FS} (h : fs'.freeMap = fs.freeMap) : fs'.isUsed s ↔ fs.isUsed s := by
  unfold FS.isUsed
  rw [h]

theorem isFree_markUsed (h : fs.isFree s) (u : Sector) :
    (fs.markUsed s).isFree u ↔ fs.isFree u ∧ u ≠ s := by
  unfold FS.isFree FS.markUsed
  rw [bit_eq_iff true h.lt]
  simp [and_comm]

theorem isUsed_markUsed (h : fs.isFree s) (u : Sector) :
    (fs.markUsed s).isUsed u ↔ u = s ∨ fs.isUsed u := by
  unfold FS.isUsed FS.markUsed
  rw [bit_eq_iff true h.lt]
  by_cases hu : u = s <;> simp [hu]

theorem isUsed_markFree (h : fs.isUsed s) (u : Sector) :
    (fs.markFree s).isUsed u ↔ fs.isUsed u ∧ u ≠ s := by
  unfold FS.isUsed FS.markFree
  rw [bit_eq_iff false h.lt]
  simp [and_comm]

end Pintos.FileSys
