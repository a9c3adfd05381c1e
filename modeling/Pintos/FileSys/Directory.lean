import Pintos.FileSys.FreeMap

/-!
# Directories (`filesys/directory.c`)

A `struct dir *` is the number of its inode's sector. A `struct dir_entry` is a
buffer of 20 bytes: the sector of the inode, least significant byte first, the
name with its terminator, and the byte `in_use`. The buffers of the source start
uninitialised and keep what a short read leaves in them, so the bytes after the
terminator of a name are arbitrary.

`directory.c` knows inodes only through the functions of `inode.c` that it
calls. `InodeOps σ` are these functions, over whatever state `σ` they keep; the
inodes of the file system are `inodeOps`. Every call on the free map there is
`freeMapOps 1`: the file of the free map has its final size.
-/

namespace Pintos.FileSys

open Lib

abbrev CString := List UInt8

def DIR_ENTRY_SIZE : Nat := 20

/-! ## struct dir_entry -/

namespace DirEntry

def inodeSector (e : Buffer) : Sector := wordOfBytes (e 0) (e 1) (e 2) (e 3)

def name (e : Buffer) : CString := ((List.range 15).map fun k => e (4 + k)).takeWhile (· ≠ 0)

def inUse (e : Buffer) : Bool := e 19 ≠ 0

def setInUse (e : Buffer) (b : Bool) : Buffer := Function.update e 19 (if b then 1 else 0)

def setName (e : Buffer) (name : CString) : Buffer := fun k =>
  if 4 ≤ k ∧ k < 4 + min name.length 14 then name.getD (k - 4) 0
  else if k = 4 + min name.length 14 then 0
  else e k

def setInodeSector (e : Buffer) (sector : Sector) : Buffer := fun k =>
  if k < 4 then byteOfWord sector k else e k

end DirEntry

def FS.uninitBytes (fs : FS) : Buffer × FS :=
  (fun k => UInt8.ofNat (fs.uninit.1 k).toNat, fs.uninit.2)

/-! ## The inode layer -/

/-- The functions that `directory.c` calls. A `struct inode *` is the number of
its sector. -/
structure InodeOps (σ : Type) where
  inodeCreate : σ → Sector → Int → Bool → Option (Bool × σ)
  inodeOpen : σ → Sector → σ
  inodeReopen : σ → Sector → Option σ
  inodeClose : σ → Sector → Option σ
  inodeReadAt : σ → Sector → Buffer → Int → Int → Option (Int × Buffer × σ)
  inodeWriteAt : σ → Sector → Buffer → Int → Int → Option (Int × σ)
  inodeParent : σ → Sector → Option Sector
  inodeSetParent : σ → Sector → Sector → Option σ
  inodeRemove : σ → Sector → Option σ
  inodeIsDir : σ → Sector → Option Bool
  inodeIsOpened : σ → Sector → Option Bool
  inodeLockAcquire : σ → Sector → Option σ
  inodeLockRelease : σ → Sector → Option σ
  /-- The bytes of a fresh, uninitialised struct. -/
  uninitBytes : σ → Buffer × σ
  /-- How many bytes `inode_read_at` can read. No function of the source: it
  bounds the loops over the entries. -/
  readable : σ → Sector → Option Nat

/-- The inodes of the file system. -/
def inodeOps : InodeOps FS where
  inodeCreate := inodeCreate (freeMapOps 1)
  inodeOpen := inodeOpen
  inodeReopen := inodeReopen
  inodeClose := inodeClose (freeMapOps 1)
  inodeReadAt := inodeReadAt
  inodeWriteAt := inodeWriteAt (freeMapOps 1)
  inodeParent := fun fs inode => (fs.inode? inode).map (·.parent)
  inodeSetParent := inodeSetParent
  inodeRemove := inodeRemove
  inodeIsDir := fun fs inode => (fs.inode? inode).bind inodeIsDir
  inodeIsOpened := fun fs inode => (fs.inode? inode).map inodeIsOpened
  inodeLockAcquire := FS.lockAcquire
  inodeLockRelease := FS.lockRelease
  uninitBytes := FS.uninitBytes
  readable := fun fs inode => (fs.inode? inode).map (·.lengthShown.toNat)

variable {σ : Type} (L : InodeOps σ)

/-! ## Opening and closing directories -/

/-- `dir_create`; the product is an `off_t` in the end. -/
def dirCreate (s : σ) (sector : Sector) (entryCnt : Nat) : Option (Bool × σ) :=
  L.inodeCreate s sector (i32 (entryCnt * DIR_ENTRY_SIZE : Nat)) true

def dirOpenRoot (s : σ) : σ := L.inodeOpen s ROOT_DIR_SECTOR

def dirReopen (s : σ) (dir : Sector) : Option σ := L.inodeReopen s dir

def dirClose (s : σ) (dir : Sector) : Option σ := L.inodeClose s dir

/-- `dir_get_parent_inode`: the inode it returns is open. -/
def dirGetParentInode (s : σ) (dir : Sector) : Option (Sector × σ) := do
  let sectorParent ← L.inodeParent s dir
  some (sectorParent, L.inodeOpen s sectorParent)

/-! ## lookup -/

/-- The loop over the entries of a directory: read the next entry into `e` until
one is found that `stop` selects or a read is short. The result is whether one
was found, and `e` and `ofs` as the loop leaves them. -/
def entryLoop (inode : Sector) (stop : Buffer → Bool) :
    Nat → σ → Buffer → Nat → Option (Bool × Buffer × Nat × σ)
  | 0, s, e, ofs => some (false, e, ofs, s)
  | fuel + 1, s, e, ofs => do
    let (read, e, s) ← L.inodeReadAt s inode e DIR_ENTRY_SIZE ofs
    if read = DIR_ENTRY_SIZE then
      if stop e then some (true, e, ofs, s)
      else entryLoop inode stop fuel s e (ofs + DIR_ENTRY_SIZE)
    else some (false, e, ofs, s)

/-- The loop from the first entry on. It ends at the end of the file. -/
def scanEntries (s : σ) (inode : Sector) (stop : Buffer → Bool) (e : Buffer) :
    Option (Bool × Buffer × Nat × σ) := do
  let readable ← L.readable s inode
  entryLoop L inode stop (readable / DIR_ENTRY_SIZE + 1) s e 0

def isEntryOf (name : CString) (e : Buffer) : Bool := DirEntry.inUse e && DirEntry.name e = name

def lookup (s : σ) (dir : Sector) (name : CString) : Option (Option (Buffer × Nat) × σ) := do
  let (e, s) := L.uninitBytes s
  let (found, e, ofs, s) ← scanEntries L s dir (isEntryOf name) e
  some (if found then some (e, ofs) else none, s)

/-- `dir_lookup`; `inode_open` returns no null pointer. -/
def dirLookup (s : σ) (dir : Sector) (name : CString) : Option (Option Sector × σ) := do
  let s ← L.inodeLockAcquire s dir
  let (found, s) ← lookup L s dir name
  match found with
  | some (e, _) => do
    let s ← L.inodeLockRelease (L.inodeOpen s (DirEntry.inodeSector e)) dir
    some (some (DirEntry.inodeSector e), s)
  | none => do
    let s ← L.inodeLockRelease s dir
    some (none, s)

/-! ## dir_add -/

/-- `inode_open`, `inode_set_parent` and `inode_close` of the new inode in `dir_add`. -/
def adopt (s : σ) (dir inodeSector : Sector) : Option σ := do
  let s ← L.inodeSetParent (L.inodeOpen s inodeSector) inodeSector dir
  L.inodeClose s inodeSector

/-- The last part of `dir_add`: write the entry at the first offset that is free
or at the end of the file. -/
def writeSlot (s : σ) (dir : Sector) (name : CString) (inodeSector : Sector) (e : Buffer) :
    Option (Bool × σ) := do
  let (_, e, ofs, s) ← scanEntries L s dir (fun e => !DirEntry.inUse e) e
  let e := DirEntry.setInodeSector (DirEntry.setName (DirEntry.setInUse e true) name) inodeSector
  let (written, s) ← L.inodeWriteAt s dir e DIR_ENTRY_SIZE ofs
  some (written = DIR_ENTRY_SIZE, s)

/-- `dir_add`, between taking the lock of the directory and giving it back. -/
def dirAddLocked (s : σ) (dir : Sector) (name : CString) (inodeSector : Sector) :
    Option (Bool × σ) :=
  if name = [] ∨ NAME_MAX < name.length then some (false, s)
  else do
    let (e, s) := L.uninitBytes s
    let (found, s) ← lookup L s dir name
    match found with
    | some _ => some (false, s)
    | none => do
      let s ← adopt L s dir inodeSector
      writeSlot L s dir name inodeSector e

def dirAdd (s : σ) (dir : Sector) (name : CString) (inodeSector : Sector) :
    Option (Bool × σ) := do
  let s ← L.inodeLockAcquire s dir
  let (success, s) ← dirAddLocked L s dir name inodeSector
  let s ← L.inodeLockRelease s dir
  some (success, s)

/-! ## dir_remove -/

/-- The two checks of `dir_remove`: a directory must be empty and nobody else may
have it open. -/
def mayRemove (s : σ) (inode : Sector) : Option (Bool × σ) := do
  if ← L.inodeIsDir s inode then
    let (e, s) := L.uninitBytes s
    let (found, _, _, s) ← scanEntries L s inode DirEntry.inUse e
    let opened ← L.inodeIsOpened s inode
    some (!found && !opened, s)
  else some (true, s)

def eraseEntry (s : σ) (dir : Sector) (e : Buffer) (ofs : Nat) (inode : Sector) :
    Option (Bool × σ) := do
  let (written, s) ← L.inodeWriteAt s dir (DirEntry.setInUse e false) DIR_ENTRY_SIZE ofs
  if written = DIR_ENTRY_SIZE then do
    let s ← L.inodeRemove s inode
    some (true, s)
  else some (false, s)

/-- `dir_remove` from its checks to the label `done`. -/
def eraseIfAllowed (s : σ) (dir : Sector) (e : Buffer) (ofs : Nat) (inode : Sector) :
    Option (Bool × σ) := do
  let (may, s) ← mayRemove L s inode
  if may then eraseEntry L s dir e ofs inode else some (false, s)

/-- `dir_remove` from `inode_open` to `inode_close`. -/
def removeEntry (s : σ) (dir : Sector) (e : Buffer) (ofs : Nat) : Option (Bool × σ) := do
  let inode := DirEntry.inodeSector e
  let (success, s) ← eraseIfAllowed L (L.inodeOpen s inode) dir e ofs inode
  let s ← L.inodeClose s inode
  some (success, s)

/-- `dir_remove`, between taking the lock of the directory and giving it back. -/
def dirRemoveLocked (s : σ) (dir : Sector) (name : CString) : Option (Bool × σ) := do
  let (found, s) ← lookup L s dir name
  match found with
  | some (e, ofs) => removeEntry L s dir e ofs
  | none => some (false, s)

def dirRemove (s : σ) (dir : Sector) (name : CString) : Option (Bool × σ) := do
  let s ← L.inodeLockAcquire s dir
  let (success, s) ← dirRemoveLocked L s dir name
  let s ← L.inodeLockRelease s dir
  some (success, s)

end Pintos.FileSys
