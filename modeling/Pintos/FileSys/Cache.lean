import Pintos.Lib.Arr

/-!
# The buffer cache (`filesys/cache.c`)

File data reaches the disk through a list of at most `MAX_CACHE_SIZE` cached
sectors, replaced by a second-chance scan. The list never loses or reorders an
element, so a `struct buffer_cache *` is a position in it.

A function that ends in a failed `ASSERT` returns `none`.
-/

namespace Pintos.FileSys

open Lib

abbrev Sector := UInt32

/-- The `DISK_SECTOR_SIZE` bytes of a sector. -/
abbrev Block := Arr 512 UInt8

instance neZero_block : NeZero 512 := ⟨by decide⟩

abbrev Disk := Sector → Block

abbrev Buffer := Nat → UInt8

def diskWrite (d : Disk) (sector : Sector) (b : Block) : Disk := Function.update d sector b

def MAX_CACHE_SIZE : Nat := 64

structure BufferCache where
  sector : Sector
  data : Block
  isUsed : Bool
  isDirty : Bool
  isUsing : Bool

/-- The file-system disk and the globals of `cache.c`. -/
structure Store where
  disk : Disk
  bufferCacheList : List BufferCache
  cacheCurrentSize : Nat

def cacheInit (d : Disk) : Store := ⟨d, [], 0⟩

/-- Assign through a `struct buffer_cache *`. -/
def Store.modifyEntry (st : Store) (k : Nat) (f : BufferCache → BufferCache) : Store :=
  { st with bufferCacheList := st.bufferCacheList.modify k f }

def findCache (st : Store) (sector : Sector) : Option Nat :=
  st.bufferCacheList.findIdx? fun cacheE => cacheE.sector = sector

/-- One of the two identical loops of `evict_cache`: pinned entries are skipped,
recently used ones lose their mark, the first other entry is selected. -/
def secondChance : List BufferCache → List BufferCache × Option Nat
  | [] => ([], none)
  | cacheE :: rest =>
    if cacheE.isUsing then
      (cacheE :: (secondChance rest).1, (secondChance rest).2.map (· + 1))
    else if cacheE.isUsed then
      ({ cacheE with isUsed := false } :: (secondChance rest).1,
        (secondChance rest).2.map (· + 1))
    else (cacheE :: rest, some 0)

/-- The body of `evict_cache` for the selected entry `k`: write it back if it is
dirty and load `sectorIdx` in its place. -/
def takeOver (st : Store) (k : Nat) (sectorIdx : Sector) : Option (Nat × Store) := do
  let cacheE ← st.bufferCacheList[k]?
  let disk := if cacheE.isDirty then diskWrite st.disk cacheE.sector cacheE.data else st.disk
  some (k, { st with disk := disk }.modifyEntry k fun cacheE =>
    { cacheE with isUsing := true, sector := sectorIdx, data := disk sectorIdx, isDirty := false })

def evictCache (st : Store) (sectorIdx : Sector) : Option (Nat × Store) :=
  match secondChance st.bufferCacheList with
  | (list, some k) => takeOver { st with bufferCacheList := list } k sectorIdx
  | (list, none) =>
    match secondChance list with
    | (list, some k) => takeOver { st with bufferCacheList := list } k sectorIdx
    | (_, none) => none

def allocateNewCache (st : Store) (sectorIdx : Sector) : Nat × Store :=
  let newCacheE : BufferCache :=
    ⟨sectorIdx, st.disk sectorIdx, true, false, false⟩
  (st.bufferCacheList.length,
    { st with
      bufferCacheList := st.bufferCacheList ++ [newCacheE]
      cacheCurrentSize := st.cacheCurrentSize + 1 })

/-- What `cache_read` and `cache_write` do under `buffer_cache_lock`: find the
entry of the sector, or make one, and pin it. -/
def pinEntry (st : Store) (sectorIdx : Sector) : Option (Nat × Store) :=
  match findCache st sectorIdx with
  | some k =>
    some (k, st.modifyEntry k fun cacheE => { cacheE with isUsed := true, isUsing := true })
  | none => do
    let (k, st) ←
      if st.cacheCurrentSize < MAX_CACHE_SIZE then some (allocateNewCache st sectorIdx)
      else evictCache st sectorIdx
    some (k, st.modifyEntry k fun cacheE => { cacheE with isUsing := true })

/-- `memcpy (buffer + bytesRead, data + sectorOfs, chunkSize)`. -/
def copyOut (data : Block) (sectorOfs chunkSize : Nat) (buffer : Buffer) (bytesRead : Nat) :
    Buffer :=
  fun k =>
    if bytesRead ≤ k ∧ k < bytesRead + chunkSize then data.get (sectorOfs + (k - bytesRead))
    else buffer k

def cacheRead (st : Store) (sectorIdx : Sector) (buffer : Buffer)
    (bytesRead sectorOfs chunkSize : Nat) : Option (Buffer × Store) := do
  let (k, st) ← pinEntry st sectorIdx
  let cacheE ← st.bufferCacheList[k]?
  some (copyOut cacheE.data sectorOfs chunkSize buffer bytesRead,
    st.modifyEntry k fun cacheE => { cacheE with isUsing := false })

def cacheWrite (st : Store) (sectorIdx : Sector) (buffer : Buffer)
    (bytesRead sectorOfs chunkSize : Nat) : Option Store := do
  let (k, st) ← pinEntry st sectorIdx
  some (st.modifyEntry k fun cacheE =>
    { cacheE with
      data := cacheE.data.patch sectorOfs chunkSize buffer bytesRead
      isUsing := false
      isDirty := true })

def writeBehind : Disk → List BufferCache → Disk × List BufferCache
  | disk, [] => (disk, [])
  | disk, cacheE :: rest =>
    if cacheE.isDirty then
      let (disk', rest') := writeBehind (diskWrite disk cacheE.sector cacheE.data) rest
      (disk', { cacheE with isUsing := false, isDirty := false } :: rest')
    else
      let (disk', rest') := writeBehind disk rest
      (disk', cacheE :: rest')

def cacheWriteBehindLoop (st : Store) : Store :=
  { st with
    disk := (writeBehind st.disk st.bufferCacheList).1
    bufferCacheList := (writeBehind st.disk st.bufferCacheList).2 }

end Pintos.FileSys
