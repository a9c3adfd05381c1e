import Pintos.FileSys.Directory

/-!
# The file system (`filesys/filesys.c`)

`thread_current ()->current_dir` is the parameter `cwd`: `none` for a null
pointer, else the sector of a directory that is open. A `struct file *` or
`struct dir *` that `filesys_open` returns is the sector of its inode, whose
reference it owns.
-/

namespace Pintos.FileSys

open Lib

/-! ## strtok_r (lib/string.c) -/

def SLASH : UInt8 := 47

def DOT : CString := [46]

def DOTDOT : CString := [46, 46]

/-- `strtok_r (_, "/", &saveptr)` from position `s` on: the token, if there is
one, and the new `saveptr`. -/
def strtokR (s : CString) : Option CString × CString :=
  match s.dropWhile (· = SLASH) with
  | [] => (none, [])
  | c :: s => (some ((c :: s).takeWhile (· ≠ SLASH)), ((c :: s).dropWhile (· ≠ SLASH)).drop 1)

/-! ## parse_dir, parse_file -/

/-- The first lines of `parse_dir`: open the base directory. -/
def openBase (fs : FS) (cwd : Option Sector) (name : CString) : Option (Sector × FS) :=
  if name.head? = some SLASH then some (ROOT_DIR_SECTOR, dirOpenRoot inodeOps fs)
  else
    match cwd with
    | none => some (ROOT_DIR_SECTOR, dirOpenRoot inodeOps fs)
    | some dir => do
      let fs ← dirReopen inodeOps fs dir
      some (dir, fs)

/-- What `parse_dir` does with an inode that `dir_lookup` has found. -/
def enterInode (fs : FS) (dir inode : Sector) : Option (Sector × FS) := do
  let ino ← fs.inode? inode
  let isDir ← inodeIsDir ino
  if isDir then do
    let fs ← dirClose inodeOps fs dir
    some (inode, fs)
  else do
    let fs ← inodeClose (freeMapOps 1) fs inode
    some (dir, fs)

/-- The loop of `parse_dir`. Each turn takes a token off `saveptr`. -/
def parseDirLoop : Nat → FS → Sector → CString → Option CString → CString →
    Option (Option Sector × FS)
  | fuel + 1, fs, dir, dirName, some nextDir, saveptr =>
    let (token, saveptr) := strtokR saveptr
    if dirName = DOT then parseDirLoop fuel fs dir nextDir token saveptr
    else if dirName = DOTDOT then do
      let (_, fs) ← dirGetParentInode inodeOps fs dir
      parseDirLoop fuel fs dir nextDir token saveptr
    else do
      let (found, fs) ← dirLookup inodeOps fs dir dirName
      match found with
      | none => some (none, fs)
      | some inode => do
        let (dir, fs) ← enterInode fs dir inode
        parseDirLoop fuel fs dir nextDir token saveptr
  | _, fs, dir, _, _, _ => some (some dir, fs)

/-- `parse_dir`; a null pointer is `none`. -/
def parseDir (fs : FS) (cwd : Option Sector) (name : CString) : Option (Option Sector × FS) := do
  let (dir, fs) ← openBase fs cwd name
  match strtokR name with
  | (none, _) => some (some dir, fs)
  | (some dirName, saveptr) =>
    let (nextDir, saveptr) := strtokR saveptr
    parseDirLoop name.length fs dir dirName nextDir saveptr

def parseFileLoop : Nat → CString → Option CString → CString → CString
  | fuel + 1, _, some nextToken, saveptr =>
    let (token, saveptr) := strtokR saveptr
    parseFileLoop fuel nextToken token saveptr
  | _, token, _, _ => token

def parseFile (name : CString) : CString :=
  let (nextToken, saveptr) := strtokR name
  parseFileLoop (name.length + 1) [] nextToken saveptr

/-! ## filesys_create, filesys_open, filesys_remove -/

/-- The conjunction in `filesys_create` for a directory that is not null, with
`inode_sector` as it leaves it. -/
def createIn (fs : FS) (dir : Sector) (filename : CString) (initialSize : Int) (isDir : Bool) :
    Option (Bool × Sector × FS) := do
  let (allocated, fs) ← (freeMapOps 1).allocate fs
  match allocated with
  | none => some (false, 0, fs)
  | some inodeSector => do
    let (created, fs) ← inodeCreate (freeMapOps 1) fs inodeSector initialSize isDir
    if created then do
      let (added, fs) ← dirAdd inodeOps fs dir filename inodeSector
      some (added, inodeSector, fs)
    else some (false, inodeSector, fs)

/-- `if (!success && inode_sector != 0) free_map_release (inode_sector, 1);` -/
def releaseOnFailure (fs : FS) (success : Bool) (inodeSector : Sector) : Option FS :=
  if !success ∧ inodeSector ≠ 0 then (freeMapOps 1).release fs inodeSector else some fs

/-- `filesys_create` without the directory: the sector of the new inode, if there is
one. -/
def createFile (fs : FS) (initialSize : Int) (isDir : Bool) : Option (Option Sector × FS) := do
  let (allocated, fs) ← (freeMapOps 1).allocate fs
  match allocated with
  | none => some (none, fs)
  | some inodeSector => do
    let (created, fs) ← inodeCreate (freeMapOps 1) fs inodeSector initialSize isDir
    let fs ← releaseOnFailure fs created inodeSector
    some (if created then some inodeSector else none, fs)

def filesysCreate (fs : FS) (cwd : Option Sector) (name : CString) (initialSize : Int)
    (isDir : Bool) : Option (Bool × FS) := do
  let (dir, fs) ← parseDir fs cwd name
  match dir with
  | none => some (false, fs)
  | some dir => do
    let (success, inodeSector, fs) ← createIn fs dir (parseFile name) initialSize isDir
    let fs ← releaseOnFailure fs success inodeSector
    let fs ← dirClose inodeOps fs dir
    some (success, fs)

/-- `filesys_open` once `parse_dir` has returned a directory. -/
def openIn (fs : FS) (dir : Sector) (filename : CString) : Option (Option Sector × FS) :=
  if filename = DOT then some (some dir, fs)
  else if dir = ROOT_DIR_SECTOR ∧ filename.length = 0 then some (some dir, fs)
  else if filename = DOTDOT then do
    let (_, fs) ← dirGetParentInode inodeOps fs dir
    let fs ← dirClose inodeOps fs dir
    some (none, fs)
  else do
    let (found, fs) ← dirLookup inodeOps fs dir filename
    let fs ← dirClose inodeOps fs dir
    some (found, fs)

def filesysOpen (fs : FS) (cwd : Option Sector) (name : CString) :
    Option (Option Sector × FS) :=
  if name.length = 0 then some (none, fs)
  else do
    let (dir, fs) ← parseDir fs cwd name
    match dir with
    | none => some (none, fs)
    | some dir => openIn fs dir (parseFile name)

def filesysRemove (fs : FS) (cwd : Option Sector) (name : CString) : Option (Bool × FS) := do
  let (dir, fs) ← parseDir fs cwd name
  match dir with
  | none => some (false, fs)
  | some dir => do
    let (success, fs) ← dirRemove inodeOps fs dir (parseFile name)
    let fs ← dirClose inodeOps fs dir
    some (success, fs)

/-! ## filesys_init -/

def doFormat (fs : FS) : Option FS := do
  let fs ← freeMapCreate fs
  let (created, fs) ← dirCreate inodeOps fs ROOT_DIR_SECTOR 16
  if created then freeMapClose fs else none

/-- `filesys_init (true)`: what `inode_init`, `free_map_init` and `cache_init`
leave behind is formatted and the free map is opened. -/
def filesysInit (disk : Disk) (diskSize : Nat) (garbage : Nat → Nat → UInt32) : Option FS := do
  let fs ← doFormat
    { store := cacheInit disk
      freeMap := freeMapInit diskSize
      freeMapFile := none
      openInodes := []
      locked := fun _ => false
      garbage := garbage
      garbagePos := 0
      log := [] }
  freeMapOpen fs

/-! ## filesys_done -/

end Pintos.FileSys
