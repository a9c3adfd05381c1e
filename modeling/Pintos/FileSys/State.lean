import Pintos.FileSys.Cache

/-!
# The state of the file system

One record holds everything the functions of `inode.c`, `free-map.c`,
`directory.c` and `filesys.c` share: the disk and its cache, the free map, the
list of open inodes with their locks. A `struct inode *` into the list of open
inodes is the number of the inode's sector, since `inode_open` never puts two
structs of one sector into the list.

Two fields are not variables of the source:

* `garbage` — what the next buffers hold that the source leaves uninitialised
  (local arrays, `malloc`ed structs). Theorems quantify over it.
* `log` — every access to a disk sector, every sector the free map hands out or
  takes back and every inode that is created, newest first. No function reads
  it.

A function that ends in a failed `ASSERT`, or in a use of a struct that is not
there, returns `none`. `malloc` is taken to succeed.
-/

namespace Pintos.FileSys

open Lib Function

/-! ## Constants of inode.c, filesys.h and directory.h -/

def DISK_SECTOR_SIZE : Nat := 512
def NUM_PTRS : Nat := 15
def NUM_PTRS_DIR : Nat := 4
def NUM_PTRS_INDIR : Nat := 10
def NUM_PTRS_DOUBLE : Nat := 1
def PTR_PER_BLOCK : Nat := 128
def FILE_SIZE_MAX : Int := 8388608
def INODE_MAGIC : UInt32 := 0x494e4f44
def FREE_MAP_SECTOR : Sector := 0
def ROOT_DIR_SECTOR : Sector := 1
def NAME_MAX : Nat := 14

/-- An index block: `disk_sector_t inner_ptr[PTR_PER_BLOCK]`. -/
abbrev Words := Arr 128 Sector

instance neZero_words : NeZero 128 := ⟨by decide⟩

instance neZero_ptrs : NeZero 15 := ⟨by decide⟩

/-- `int32_t` arithmetic wraps around. -/
def i32 (x : Int) : Int := x.bmod 4294967296

/-! ## Inodes -/

/-- The fields of an inode that its sector holds (`struct inode_disk`, less the
magic number and the unused words). -/
structure InodeCore where
  length : Int
  isAllocated : Nat
  ptrs : Arr 15 Sector
  ptrIdx : Nat
  indirIdx : Nat
  doubleIndirIdx : Nat
  isDir : Nat
  parent : Sector

/-- `struct inode`, less its lock. -/
structure Inode extends InodeCore where
  sector : Sector
  openCnt : Int
  removed : Bool
  denyWriteCnt : Int
  lengthShown : Int

instance : Coe Inode InodeCore := ⟨Inode.toInodeCore⟩

/-- `DIV_ROUND_UP (size, DISK_SECTOR_SIZE)` as an `int`, returned as a `size_t`. -/
def bytesToSectors (size : Int) : Nat :=
  ((i32 (size + 511)).tdiv 512 % 4294967296).toNat

def inodeDiskWords (core : InodeCore) (unused : Nat → UInt32) : Words := fun k =>
  if k.val = 0 then UInt32.ofNat (core.length % 4294967296).toNat
  else if k.val = 1 then INODE_MAGIC
  else if k.val = 2 then UInt32.ofNat core.isAllocated
  else if k.val < 18 then core.ptrs.get (k.val - 3)
  else if k.val = 18 then UInt32.ofNat core.ptrIdx
  else if k.val = 19 then UInt32.ofNat core.indirIdx
  else if k.val = 20 then UInt32.ofNat core.doubleIndirIdx
  else if k.val = 21 then UInt32.ofNat core.isDir
  else if k.val = 22 then core.parent
  else unused (k.val - 23)

def encodeInode (core : InodeCore) (unused : Nat → UInt32) : Block :=
  packWords (inodeDiskWords core unused)

def decodeInode (b : Block) : InodeCore :=
  let w : Words := unpackWords b
  { length := i32 (w.get 0).toNat
    isAllocated := (w.get 2).toNat
    ptrs := fun k => w.get (k.val + 3)
    ptrIdx := (w.get 18).toNat
    indirIdx := (w.get 19).toNat
    doubleIndirIdx := (w.get 20).toNat
    isDir := (w.get 21).toNat
    parent := w.get 22 }

/-! ## The state -/

inductive Access where
  | diskRead (sector : Sector) (b : Block)
  | diskWrite (sector : Sector) (b : Block)
  | cacheRead (sector : Sector) (sectorOfs chunkSize : Nat) (bytes : Buffer)
  | cacheWrite (sector : Sector) (sectorOfs chunkSize : Nat) (bytes : Buffer)
  | allocate (sector : Sector)
  | release (sector : Sector)
  | create (sector : Sector)

structure FS where
  store : Store
  freeMap : List Bool
  freeMapFile : Option Sector
  openInodes : List Inode
  locked : Sector → Bool
  garbage : Nat → Nat → UInt32
  garbagePos : Nat
  log : List Access

namespace FS

def uninit (fs : FS) : (Nat → UInt32) × FS :=
  (fs.garbage fs.garbagePos, { fs with garbagePos := fs.garbagePos + 1 })

def diskRead (fs : FS) (sector : Sector) : Block × FS :=
  (fs.store.disk sector,
    { fs with log := .diskRead sector (fs.store.disk sector) :: fs.log })

def diskWrite (fs : FS) (sector : Sector) (b : Block) : FS :=
  { fs with
    store := { fs.store with disk := FileSys.diskWrite fs.store.disk sector b }
    log := .diskWrite sector b :: fs.log }

def cacheRead (fs : FS) (sector : Sector) (buffer : Buffer)
    (bytesRead sectorOfs chunkSize : Nat) : Option (Buffer × FS) := do
  let (buffer, store) ← FileSys.cacheRead fs.store sector buffer bytesRead sectorOfs chunkSize
  some (buffer,
    { fs with
      store := store
      log := .cacheRead sector sectorOfs chunkSize (fun k => buffer (bytesRead + k)) :: fs.log })

def cacheWrite (fs : FS) (sector : Sector) (buffer : Buffer)
    (bytesRead sectorOfs chunkSize : Nat) : Option FS := do
  let store ← FileSys.cacheWrite fs.store sector buffer bytesRead sectorOfs chunkSize
  some { fs with
    store := store
    log := .cacheWrite sector sectorOfs chunkSize (fun k => buffer (bytesRead + k)) :: fs.log }

def cacheWriteBehindLoop (fs : FS) : FS :=
  { fs with store := FileSys.cacheWriteBehindLoop fs.store }

def inode? (fs : FS) (inode : Sector) : Option Inode :=
  fs.openInodes.find? fun e => e.sector = inode

def setInode (fs : FS) (ino : Inode) : FS :=
  { fs with openInodes := fs.openInodes.map fun e => if e.sector = ino.sector then ino else e }

def removeInode (fs : FS) (inode : Sector) : FS :=
  { fs with openInodes := fs.openInodes.eraseP fun e => e.sector = inode }

/-- `inode_lock_acquire`: `lock_acquire` asserts that the caller does not hold
the lock, and between two completed operations nobody else does. -/
def lockAcquire (fs : FS) (inode : Sector) : Option FS :=
  if fs.locked inode then none
  else some { fs with locked := update fs.locked inode true }

def lockRelease (fs : FS) (inode : Sector) : Option FS :=
  if fs.locked inode then some { fs with locked := update fs.locked inode false }
  else none

-- What the primitives leave alone.

@[simp] theorem uninit_store (fs : FS) : fs.uninit.2.store = fs.store := rfl
@[simp] theorem diskRead_fst (fs : FS) (s : Sector) : (fs.diskRead s).1 = fs.store.disk s := rfl
@[simp] theorem diskRead_store (fs : FS) (s : Sector) : (fs.diskRead s).2.store = fs.store := rfl
@[simp] theorem diskWrite_disk (fs : FS) (s : Sector) (b : Block) :
    (fs.diskWrite s b).store.disk = update fs.store.disk s b := rfl

end FS

end Pintos.FileSys
