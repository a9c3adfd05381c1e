import Pintos.FileSys.State

/-!
# Inodes (`filesys/inode.c`)

`inode_grow` calls `free_map_allocate`, which writes the free map file through
`inode_write_at`, which may call `inode_grow`. The recursion is cut by passing
the two functions of the free map as a parameter: `FreeMapOps`.

Every loop of the source that is not over a list takes a bound on the number
of its turns as its first argument. Each bound is large enough (the loop has
ended by itself before it is used up), and what is proved about a function
says what it returns.
-/

namespace Pintos.FileSys

open Lib

/-- `free_map_allocate (1, _)`, which may return false, and `free_map_release (_, 1)`. -/
structure FreeMapOps where
  allocate : FS → Option (Option Sector × FS)
  release : FS → Sector → Option FS

/-! ## byte_to_sector -/

/-- `byte_to_sector`. Offsets within a file are never negative. -/
def byteToSector (fs : FS) (ino : Inode) (pos : Int) : Option (Sector × FS) :=
  if pos < ino.length then
    let pos := pos.toNat
    if pos < DISK_SECTOR_SIZE * NUM_PTRS_DIR then
      some (ino.ptrs.get (pos / DISK_SECTOR_SIZE), fs)
    else
      let newPos := pos - DISK_SECTOR_SIZE * NUM_PTRS_DIR
      if newPos < DISK_SECTOR_SIZE * (NUM_PTRS_INDIR * PTR_PER_BLOCK) then
        let idxPtr := NUM_PTRS_DIR + newPos / DISK_SECTOR_SIZE / PTR_PER_BLOCK
        let newPos := newPos % (DISK_SECTOR_SIZE * PTR_PER_BLOCK)
        let (innerPtr, fs) := fs.diskRead (ino.ptrs.get idxPtr)
        some ((unpackWords innerPtr : Words).get (newPos / DISK_SECTOR_SIZE), fs)
      else
        -- big files: double indirect blocks
        let newPos := newPos - DISK_SECTOR_SIZE * NUM_PTRS_INDIR * PTR_PER_BLOCK
        let idxPtr := NUM_PTRS_DIR + NUM_PTRS_INDIR +
          newPos / (DISK_SECTOR_SIZE * PTR_PER_BLOCK * PTR_PER_BLOCK)
        if idxPtr = 14 then
          let (innerPtr, fs) := fs.diskRead (ino.ptrs.get idxPtr)
          let newPos := newPos - (idxPtr - NUM_PTRS_DIR - NUM_PTRS_INDIR) *
            DISK_SECTOR_SIZE * PTR_PER_BLOCK * PTR_PER_BLOCK
          let doubleIdxPtr := newPos / DISK_SECTOR_SIZE / PTR_PER_BLOCK
          let newPos := newPos % (DISK_SECTOR_SIZE * PTR_PER_BLOCK)
          let (doubleInnerPtr, fs) :=
            fs.diskRead ((unpackWords innerPtr : Words).get doubleIdxPtr)
          some ((unpackWords doubleInnerPtr : Words).get (newPos / DISK_SECTOR_SIZE), fs)
        else none
  else some (UInt32.ofNat 4294967295, fs)

/-! ## inode_grow -/

/-- How a part of `inode_grow` ends: in a failed assertion, in one of the five
`return -1`, or in the next statement. The inode is passed by address, so an
early return leaves it as it is at that point. -/
inductive Grow (α : Type) where
  | panic
  | full (ino : Inode) (fs : FS)
  | ok (a : α)

namespace Grow

def bind {α β : Type} (x : Grow α) (f : α → Grow β) : Grow β :=
  match x with
  | .panic => .panic
  | .full ino fs => .full ino fs
  | .ok a => f a

instance : Monad Grow where
  pure := .ok
  bind := Grow.bind

@[simp] theorem ok_bind {α β : Type} (a : α) (f : α → Grow β) : (Grow.ok a >>= f) = f a := rfl

@[simp] theorem full_bind {α β : Type} (ino : Inode) (fs : FS) (f : α → Grow β) :
    (Grow.full ino fs >>= f) = .full ino fs := rfl

@[simp] theorem panic_bind {α β : Type} (f : α → Grow β) : (Grow.panic >>= f) = .panic := rfl

end Grow

/-- `if (!free_map_allocate (1, &p)) return -1;` The result is the new `p`. -/
def allocateOrReturn (fm : FreeMapOps) (fs : FS) (ino : Inode) : Grow (Sector × FS) :=
  match fm.allocate fs with
  | none => .panic
  | some (none, fs) => .full ino fs
  | some (some sector, fs) => .ok (sector, fs)

def dataDefault : Block := Arr.const 0

/-- The innermost loop, which both indirect levels have: fill the index block
`ptr` from slot `idx` on with fresh zeroed sectors. -/
def fillBlock (fm : FreeMapOps) (ino : Inode) :
    Nat → FS → Words → Nat → Nat → Grow (FS × Words × Nat × Nat)
  | 0, fs, ptr, idx, sectors => .ok (fs, ptr, idx, sectors)
  | fuel + 1, fs, ptr, idx, sectors =>
    if idx < PTR_PER_BLOCK then
      if 0 < sectors then do
        let (sector, fs) ← allocateOrReturn fm fs ino
        fillBlock fm ino fuel (fs.diskWrite sector dataDefault) (ptr.set idx sector)
          (idx + 1) (sectors - 1)
      else .ok (fs, ptr, idx, sectors)
    else .ok (fs, ptr, idx, sectors)

structure GrowState where
  fs : FS
  ino : Inode
  innerPtr : Words
  doubleInnerPtr : Words
  idx : Nat
  sectors : Nat

def growDirect (fm : FreeMapOps) (g : GrowState) : Grow GrowState := do
  let (sector, fs) ← allocateOrReturn fm g.fs g.ino
  .ok { g with
    fs := fs.diskWrite sector dataDefault
    ino := { g.ino with ptrs := g.ino.ptrs.set g.idx sector }
    sectors := g.sectors - 1
    idx := g.idx + 1 }

/-- The first lines of both indirect branches: a first visit allocates the index
block and finds what the array happens to hold, a later one reads it. -/
def loadIndex (fm : FreeMapOps) (g : GrowState) (first : Bool) : Grow GrowState :=
  if first then do
    let (sector, fs) ← allocateOrReturn fm g.fs g.ino
    .ok { g with fs := fs, ino := { g.ino with ptrs := g.ino.ptrs.set g.idx sector } }
  else
    let (innerPtr, fs) := g.fs.diskRead (g.ino.ptrs.get g.idx)
    .ok { g with fs := fs, innerPtr := unpackWords innerPtr }

/-- The last lines of both indirect branches: store the index block and step to
the next pointer of the inode when it is full. -/
def storeIndex (g : GrowState) (indirIdx : Nat) : GrowState :=
  let fs := g.fs.diskWrite (g.ino.ptrs.get g.idx) (packWords g.innerPtr)
  if indirIdx = PTR_PER_BLOCK then
    { g with fs := fs, ino := { g.ino with indirIdx := 0 }, idx := g.idx + 1 }
  else { g with fs := fs, ino := { g.ino with indirIdx := indirIdx } }

def growIndirect (fm : FreeMapOps) (g : GrowState) : Grow GrowState := do
  let g ← loadIndex fm g (g.ino.indirIdx = 0)
  let (fs, innerPtr, indirIdx, sectors) ←
    fillBlock fm g.ino PTR_PER_BLOCK g.fs g.innerPtr g.ino.indirIdx g.sectors
  .ok (storeIndex { g with fs := fs, innerPtr := innerPtr, sectors := sectors } indirIdx)

/-- The first lines of the middle loop of the second indirect branch: the
second-level block is allocated or read at `inode->indir_idx`. -/
def loadSecond (fm : FreeMapOps) (g : GrowState) : Grow GrowState :=
  if g.ino.doubleIndirIdx = 0 then do
    let (sector, fs) ← allocateOrReturn fm g.fs g.ino
    .ok { g with fs := fs, innerPtr := g.innerPtr.set g.ino.indirIdx sector }
  else
    let (doubleInnerPtr, fs) := g.fs.diskRead (g.innerPtr.get g.ino.indirIdx)
    .ok { g with fs := fs, doubleInnerPtr := unpackWords doubleInnerPtr }

/-- One turn of that loop. The second-level block is written at the local
`indir_idx`. -/
def growSecond (fm : FreeMapOps) (g : GrowState) (indirIdx : Nat) :
    Grow (GrowState × Nat) := do
  let g ← loadSecond fm g
  let (fs, doubleInnerPtr, doubleIndirIdx, sectors) ←
    fillBlock fm g.ino PTR_PER_BLOCK g.fs g.doubleInnerPtr g.ino.doubleIndirIdx g.sectors
  let fs := fs.diskWrite (g.innerPtr.get indirIdx) (packWords doubleInnerPtr)
  let g := { g with fs := fs, doubleInnerPtr := doubleInnerPtr, sectors := sectors }
  if doubleIndirIdx = PTR_PER_BLOCK then
    .ok ({ g with ino := { g.ino with doubleIndirIdx := 0 } }, indirIdx + 1)
  else .ok ({ g with ino := { g.ino with doubleIndirIdx := doubleIndirIdx } }, indirIdx)

def growSeconds (fm : FreeMapOps) : Nat → GrowState → Nat → Grow (GrowState × Nat)
  | 0, g, indirIdx => .ok (g, indirIdx)
  | fuel + 1, g, indirIdx =>
    if indirIdx < PTR_PER_BLOCK then
      if 0 < g.sectors then do
        let (g, indirIdx) ← growSecond fm g indirIdx
        growSeconds fm fuel g indirIdx
      else .ok (g, indirIdx)
    else .ok (g, indirIdx)

/-- The second indirect branch of the main loop. -/
def growDouble (fm : FreeMapOps) (g : GrowState) : Grow GrowState := do
  let g ← loadIndex fm g (g.ino.indirIdx = 0 ∧ g.ino.doubleIndirIdx = 0)
  let (g, indirIdx) ← growSeconds fm (PTR_PER_BLOCK + 1) g g.ino.indirIdx
  .ok (storeIndex g indirIdx)

def growTurn (fm : FreeMapOps) (g : GrowState) : Grow GrowState :=
  if g.idx < NUM_PTRS_DIR then growDirect fm g
  else if g.idx < NUM_PTRS_DIR + NUM_PTRS_INDIR then growIndirect fm g
  else growDouble fm g

def growLoop (fm : FreeMapOps) : Nat → GrowState → Grow GrowState
  | 0, g => .ok g
  | fuel + 1, g =>
    if g.idx < NUM_PTRS then
      if 0 < g.sectors then do
        let g ← growTurn fm g
        growLoop fm fuel g
      else .ok g
    else .ok g

/-- The body of `inode_grow`, with the number of sectors still owed when its
loop ends. -/
def growBody (fm : FreeMapOps) (fs : FS) (ino : Inode) (length : Int) :
    Grow (Inode × FS × Nat) := do
  let (innerPtr, fs) := fs.uninit
  let (doubleInnerPtr, fs) := fs.uninit
  -- a size_t difference
  let sectors :=
    (bytesToSectors length + 4294967296 - bytesToSectors ino.length) % 4294967296
  let g ← growLoop fm (NUM_PTRS + 1)
    { fs := fs, ino := ino, innerPtr := fun k => innerPtr k, doubleInnerPtr := fun k => doubleInnerPtr k,
      idx := ino.ptrIdx, sectors := sectors }
  .ok ({ g.ino with ptrIdx := g.idx, isAllocated := 1 }, g.fs, g.sectors)

/-- A C `bool` holds 0 or 1. -/
def boolOfInt (x : Int) : Bool := x ≠ 0

def intOfBool (b : Bool) : Int := if b then 1 else 0

/-- `inode_grow`: a `bool`, whose failure exits return `-1`. -/
def inodeGrow (fm : FreeMapOps) (fs : FS) (ino : Inode) (length : Int) :
    Option (Bool × Inode × FS) :=
  match growBody fm fs ino length with
  | .panic => none
  | .full ino fs => some (boolOfInt (-1), ino, fs)
  | .ok (ino, fs, _) => some (boolOfInt 1, ino, fs)

/-! ## inode_create, inode_open -/

/-- The `malloc`ed inode that `inode_create` grows; `junk` is what the fields hold
that it does not assign. -/
def newInode (junk : Nat → UInt32) (isDir : Bool) : Inode :=
  { length := 0, isAllocated := 0, ptrs := fun k => junk k, ptrIdx := 0, indirIdx := 0
    doubleIndirIdx := 0, isDir := if isDir then 1 else 0, parent := junk 15
    sector := junk 16, openCnt := (junk 17).toNat, removed := junk 18 ≠ 0
    denyWriteCnt := (junk 19).toNat, lengthShown := (junk 20).toNat }

def cappedLength (length : Int) : Int :=
  if length > FILE_SIZE_MAX then FILE_SIZE_MAX else length

def inodeCreate (fm : FreeMapOps) (fs : FS) (sector : Sector) (length : Int) (isDir : Bool) :
    Option (Bool × FS) :=
  if 0 ≤ length then do
    let length := cappedLength length
    let (junk, fs) := fs.uninit
    let (grown, inode, fs) ← inodeGrow fm fs (newInode junk isDir) length
    if intOfBool grown = -1 then some (false, fs)
    else
      let diskInode : InodeCore :=
        { length := length, isAllocated := 1, ptrs := inode.ptrs, ptrIdx := inode.ptrIdx,
          indirIdx := inode.indirIdx, doubleIndirIdx := inode.doubleIndirIdx,
          isDir := if isDir then 1 else 0, parent := 0 }
      let fs := fs.diskWrite sector (encodeInode diskInode fun _ => 0)
      some (true, { fs with log := .create sector :: fs.log })
  else none

def inodeReopen (fs : FS) (inode : Sector) : Option FS := do
  let ino ← fs.inode? inode
  some (fs.setInode { ino with openCnt := ino.openCnt + 1 })

/-- `inode_open`; the result is the pointer to the inode, its sector. -/
def inodeOpen (fs : FS) (sector : Sector) : FS :=
  match fs.inode? sector with
  | some ino => fs.setInode { ino with openCnt := ino.openCnt + 1 }
  | none =>
    let (inodeDisk, fs) := fs.diskRead sector
    let core := decodeInode inodeDisk
    let inode : Inode :=
      { core with sector := sector, openCnt := 1, denyWriteCnt := 0, removed := false,
                  lengthShown := core.length }
    { fs with
      openInodes := inode :: fs.openInodes
      locked := Function.update fs.locked sector false }

def inodeIsDir (ino : Inode) : Option Bool :=
  if ino.isDir = 1 then some true else if ino.isDir = 0 then some false else none

def inodeIsOpened (ino : Inode) : Bool := ino.openCnt > 1

def inodeRemove (fs : FS) (inode : Sector) : Option FS := do
  let ino ← fs.inode? inode
  some (fs.setInode { ino with removed := true })

def inodeSetParent (fs : FS) (inode sector : Sector) : Option FS := do
  let ino ← fs.inode? inode
  some (fs.setInode { ino with parent := sector })

/-! ## inode_close -/

/-- The loop over an index block of `inode_close`. It is entered with sectors
left to release and leaves when the last one is released. -/
def releaseEntries (fm : FreeMapOps) (ptr : Words) :
    Nat → FS → Nat → Nat → Option (FS × Nat)
  | 0, fs, _, sectors => some (fs, sectors)
  | fuel + 1, fs, i, sectors => do
    let fs ← fm.release fs (ptr.get i)
    if sectors - 1 = 0 then some (fs, 0) else releaseEntries fm ptr fuel fs (i + 1) (sectors - 1)

/-- The loop over the second-level blocks of `inode_close`. -/
def releaseSeconds (fm : FreeMapOps) (innerPtr : Words) :
    Nat → FS → Nat → Nat → Option (FS × Nat)
  | 0, fs, _, sectors => some (fs, sectors)
  | fuel + 1, fs, i, sectors => do
    let (doubleInnerPtr, fs) := fs.diskRead (innerPtr.get i)
    let (fs, sectors) ←
      releaseEntries fm (unpackWords doubleInnerPtr) PTR_PER_BLOCK fs 0 sectors
    let fs ← fm.release fs (innerPtr.get i)
    if sectors = 0 then some (fs, sectors)
    else releaseSeconds fm innerPtr fuel fs (i + 1) sectors

/-- One turn of the loop over the pointers of the inode in `inode_close`. -/
def releaseTurn (fm : FreeMapOps) (ino : Inode) (fs : FS) (index sectors : Nat) :
    Option (FS × Nat) :=
  if index < NUM_PTRS_DIR then do
    let fs ← fm.release fs (ino.ptrs.get index)
    some (fs, sectors - 1)
  else if index < NUM_PTRS_DIR + NUM_PTRS_INDIR then do
    let (innerPtr, fs) := fs.diskRead (ino.ptrs.get index)
    let (fs, sectors) ← releaseEntries fm (unpackWords innerPtr) PTR_PER_BLOCK fs 0 sectors
    let fs ← fm.release fs (ino.ptrs.get index)
    some (fs, sectors)
  else do
    let (innerPtr, fs) := fs.diskRead (ino.ptrs.get index)
    let (fs, sectors) ← releaseSeconds fm (unpackWords innerPtr) PTR_PER_BLOCK fs 0 sectors
    let fs ← fm.release fs (ino.ptrs.get index)
    some (fs, sectors)

def releaseLoop (fm : FreeMapOps) (ino : Inode) : Nat → FS → Nat → Nat → Option FS
  | 0, fs, _, _ => some fs
  | fuel + 1, fs, index, sectors =>
    if index < NUM_PTRS then
      if sectors = 0 then some fs
      else if index > ino.ptrIdx then some fs
      else do
        let (fs, sectors) ← releaseTurn fm ino fs index sectors
        releaseLoop fm ino fuel fs (index + 1) sectors
    else some fs

/-- `inode_close` of a pointer that is not null. -/
def inodeClose (fm : FreeMapOps) (fs : FS) (inode : Sector) : Option FS := do
  let ino ← fs.inode? inode
  let ino := { ino with openCnt := ino.openCnt - 1 }
  if ino.openCnt = 0 then
    let fs := fs.removeInode inode
    if ino.removed then do
      let fs ← fm.release fs ino.sector
      let sectors := bytesToSectors ino.length
      if sectors ≠ 0 then releaseLoop fm ino (NUM_PTRS + 1) fs 0 sectors else some fs
    else
      -- the unused words of the malloc'ed inode_disk are not assigned
      let (unused, fs) := fs.uninit
      some (fs.diskWrite ino.sector (encodeInode ino.toInodeCore unused))
  else some (fs.setInode ino)

/-! ## inode_read_at, inode_write_at -/

/-- The bytes a turn of the read or write loop copies, `left` being the number
of bytes left in the inode. -/
def chunkSize (size offset left : Int) : Int :=
  let sectorLeft := (DISK_SECTOR_SIZE : Int) - offset % DISK_SECTOR_SIZE
  let minLeft := if left < sectorLeft then left else sectorLeft
  if size < minLeft then size else minLeft

def readLoop (inode : Sector) :
    Nat → FS → Buffer → Int → Int → Nat → Option (Int × Buffer × FS)
  | 0, fs, buffer, _, _, bytesRead => some (bytesRead, buffer, fs)
  | fuel + 1, fs, buffer, size, offset, bytesRead =>
    if 0 < size then do
      let ino ← fs.inode? inode
      let (sectorIdx, fs) ← byteToSector fs ino offset
      let chunk := chunkSize size offset (ino.lengthShown - offset)
      if chunk ≤ 0 then some ((bytesRead : Int), buffer, fs)
      else do
        let (buffer, fs) ← fs.cacheRead sectorIdx buffer bytesRead
          (offset % DISK_SECTOR_SIZE).toNat chunk.toNat
        readLoop inode fuel fs buffer (size - chunk) (offset + chunk) (bytesRead + chunk.toNat)
    else some ((bytesRead : Int), buffer, fs)

/-- `inode_read_at`: the number of bytes read and what the buffer then holds.
Each turn of the loop reads at least one byte. -/
def inodeReadAt (fs : FS) (inode : Sector) (buffer : Buffer) (size offset : Int) :
    Option (Int × Buffer × FS) := do
  let ino ← fs.inode? inode
  if ino.lengthShown ≤ offset then some (0, buffer, fs)
  else readLoop inode size.toNat fs buffer size offset 0

def writeLoop (inode : Sector) (buffer : Buffer) :
    Nat → FS → Int → Int → Nat → Option (Int × FS)
  | 0, fs, _, _, bytesWritten => some (bytesWritten, fs)
  | fuel + 1, fs, size, offset, bytesWritten =>
    if 0 < size then do
      let ino ← fs.inode? inode
      let (sectorIdx, fs) ← byteToSector fs ino offset
      let chunk := chunkSize size offset (ino.length - offset)
      if chunk ≤ 0 then some ((bytesWritten : Int), fs)
      else do
        let fs ← fs.cacheWrite sectorIdx buffer bytesWritten
          (offset % DISK_SECTOR_SIZE).toNat chunk.toNat
        let lengthShown :=
          if ino.lengthShown + chunk > ino.length then ino.length else ino.lengthShown + chunk
        let fs := fs.setInode { ino with lengthShown := lengthShown }
        writeLoop inode buffer fuel fs (size - chunk) (offset + chunk)
          (bytesWritten + chunk.toNat)
    else some ((bytesWritten : Int), fs)

/-- `if (!inode_is_dir (inode)) inode_lock_acquire (inode);` -/
def lockUnlessDir (fs : FS) (isDir : Bool) (inode : Sector) : Option FS :=
  if isDir then some fs else fs.lockAcquire inode

/-- `if (!inode_is_dir (inode)) inode_lock_release (inode);` -/
def unlockUnlessDir (fs : FS) (isDir : Bool) (inode : Sector) : Option FS :=
  if isDir then some fs else fs.lockRelease inode

/-- The part of `inode_write_at` before its loop: under the lock of a regular
file, grow the inode if the write ends beyond its end. The flag is false at the
early return. -/
def growForWrite (fm : FreeMapOps) (fs : FS) (ino : Inode) (size offset : Int) :
    Option (Bool × FS) := do
  let isDir ← inodeIsDir ino
  let fs ← lockUnlessDir fs isDir ino.sector
  let length := i32 (size + offset)
  if length > ino.length then do
    let (grown, ino, fs) ← inodeGrow fm fs ino length
    if intOfBool grown = -1 then some (false, fs.setInode ino)
    else do
      let fs ← unlockUnlessDir (fs.setInode { ino with length := length }) isDir ino.sector
      some (true, fs)
  else do
    let fs ← unlockUnlessDir fs isDir ino.sector
    some (true, fs)

def inodeWriteAt (fm : FreeMapOps) (fs : FS) (inode : Sector) (buffer : Buffer)
    (size offset : Int) : Option (Int × FS) := do
  let ino ← fs.inode? inode
  if ino.denyWriteCnt ≠ 0 then some (0, fs)
  else do
    let (goOn, fs) ← growForWrite fm fs ino size offset
    if goOn then writeLoop inode buffer size.toNat fs size offset 0 else some (0, fs)

end Pintos.FileSys
