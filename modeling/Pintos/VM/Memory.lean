import Pintos.UserProg.Termination
import Pintos.VM.Swap

/-!
# Virtual memory (`vm/frame.c`, `vm/page.c`, `userprog/pagedir.c`)

One state holds what the functions share: the user pool of `palloc.c`, the frame
table, the swap device, and for each process its page directory and its supplemental
page table. The entries of the supplemental page tables are on the heap and are known
by their addresses; an address that has been given to `free` has no entry, and there is
no value where the code reads one there. `malloc` finds memory and never gives an
address out twice.

All that `page_fault`, `mmap` and `munmap` do here is done with `lock_frame` held, so
each call is one step. The memory of a process is read and written through its page
directory only, and the processor sets the accessed and dirty bits there.

A file is the bytes of its inode. There is no value in the place of a failed
assertion, of a panic, and of a page frame that `allocate_frame` does not find. The
last needs an empty user pool: a page of the pool that is in use is in the frame table,
and `evict_frame` frees one of them.
-/

namespace Pintos.VM

open Lib FileSys UserProg Function

/-! ## Addresses and pages -/

def pgOfs (va : UInt32) : Nat := (va &&& 0xfff).toNat

/-- The bytes of an inode and its counts. -/
structure File where
  length : Nat
  byte : Nat → UInt8
  openCnt : Nat
  denyWriteCnt : Nat

namespace File

/-- `file_read_at` into the start of a page: the number of bytes read, and the page. -/
def readAt (f : File) (buffer : Page) (size fileOfs : Nat) : Nat × Page :=
  let n := min size (f.length - fileOfs)
  (n, buffer.patch 0 n f.byte fileOfs)

/-- `file_write_at`, where writes are not denied. -/
def writeAt (f : File) (buffer : Page) (size fileOfs : Nat) : File :=
  { f with
    length := if size = 0 then f.length else max f.length (fileOfs + size)
    byte := fun k =>
      if fileOfs ≤ k ∧ k < fileOfs + size then buffer.get (k - fileOfs)
      else if k < f.length then f.byte k else 0 }

end File

/-! ## Entries -/

inductive FileType where
  | swap | mmap | file
deriving DecidableEq

inductive PallocType where
  | growStack | pageFault | loadSegment | createMmap
deriving DecidableEq

/-- `struct sup_page_table_entry`. A `mapId` of `none` has not been set. -/
structure Spte where
  userVaddr : UInt32
  readBytes : Nat
  zeroBytes : Nat
  isSwapped : Bool
  file : Nat
  offset : Nat
  writable : Bool
  loaded : Bool
  fileType : FileType
  mapId : Option Nat
  swapNum : Sector

/-- `struct frame_table_entry`: the frame, the thread that owns it and the address of the
entry of the page in it. -/
structure Fte where
  frame : Nat
  owner : Nat
  spte : Nat
deriving DecidableEq

/-- A page table entry. -/
structure Pte where
  frame : Nat
  present : Bool
  accessed : Bool
  dirty : Bool
  writable : Bool

/-- The entry of a page that has never been mapped. -/
def Pte.zero : Pte := ⟨0, false, false, false, false⟩

/-- The state. What is kept in `struct thread` is a function of the thread. -/
structure Mem where
  /-- `user_pool.used_map`, and the contents of the pages of the pool. -/
  usedMap : List Bool
  ram : Nat → Page
  frameTable : List Fte
  swap : Swap
  inode : Nat → File
  heap : Nat → Option Spte
  /-- The first address that `malloc` has not given out. -/
  next : Nat
  pagedir : Nat → UInt32 → Pte
  supPageTable : Nat → List Nat
  /-- The entries that the elements of `list_mmap` point to. -/
  listMmap : Nat → List Nat
  mapId : Nat → Nat
  /-- The inodes of the open files, by file descriptor. -/
  fds : Nat → Nat → Option Nat
  alive : Nat → Bool

namespace Mem

def setPte (s : Mem) (p : Nat) (a : UInt32) (pte : Pte) : Mem :=
  { s with pagedir := update s.pagedir p (update (s.pagedir p) a pte) }

@[simp] theorem setPte_self (s : Mem) (p : Nat) (a : UInt32) (pte : Pte) :
    (s.setPte p a pte).pagedir p a = pte := by
  show update s.pagedir p (update (s.pagedir p) a pte) p a = pte
  rw [update_self, update_self]

theorem setPte_ne (s : Mem) {p q : Nat} {a c : UInt32} (pte : Pte) (h : q = p → c ≠ a) :
    (s.setPte p a pte).pagedir q c = s.pagedir q c := by
  show update s.pagedir p (update (s.pagedir p) a pte) q c = _
  by_cases hq : q = p
  · subst hq
    rw [update_self, update_of_ne (h rfl)]
  · rw [update_of_ne hq]

def setSpte (s : Mem) (ptr : Nat) (e : Spte) : Mem :=
  { s with heap := update s.heap ptr (some e) }

/-- `free (spt_e)`. There is no value where it has been freed before. -/
def freeSpte (s : Mem) (ptr : Nat) : Option Mem := do
  let _ ← s.heap ptr
  some { s with heap := update s.heap ptr none }

/-! ## userprog/pagedir.c, userprog/process.c -/

def pagedirSetPage (s : Mem) (p : Nat) (upage : UInt32) (kpage : Nat) (writable : Bool) : Option Mem :=
  if (s.pagedir p upage).present then none
  else some (s.setPte p upage ⟨kpage, true, false, false, writable⟩)

def pagedirGetPage (s : Mem) (p : Nat) (upage : UInt32) : Option Nat :=
  if (s.pagedir p upage).present then some (s.pagedir p upage).frame else none

/-- `pagedir_clear_page`. The other bits stay as they are. -/
def pagedirClearPage (s : Mem) (p : Nat) (upage : UInt32) : Mem :=
  s.setPte p upage { s.pagedir p upage with present := false }

def pagedirIsDirty (s : Mem) (p : Nat) (vpage : UInt32) : Bool := (s.pagedir p vpage).dirty

def pagedirIsAccessed (s : Mem) (p : Nat) (vpage : UInt32) : Bool := (s.pagedir p vpage).accessed

def pagedirSetAccessed (s : Mem) (p : Nat) (vpage : UInt32) (accessed : Bool) : Mem :=
  s.setPte p vpage { s.pagedir p vpage with accessed := accessed }

def installPage (s : Mem) (p : Nat) (upage : UInt32) (kpage : Nat) (writable : Bool) :
    Option (Bool × Mem) :=
  match s.pagedirGetPage p upage with
  | some _ => some (false, s)
  | none => do
    let s ← s.pagedirSetPage p upage kpage writable
    some (true, s)

/-! ## threads/palloc.c, for the user pool -/

def pallocGetPage (s : Mem) (zero : Bool) : Option (Nat × Mem) := do
  let pageIdx ← bitmapScan s.usedMap 0 1 false
  some (pageIdx, { s with
    usedMap := s.usedMap.set pageIdx true
    ram := if zero then update s.ram pageIdx (Arr.const 0) else s.ram })

def pallocFreePage (s : Mem) (page : Nat) : Option Mem :=
  if s.usedMap[page]? = some true then
    some { s with
      usedMap := s.usedMap.set page false
      ram := update s.ram page (Arr.const 0xcc) }
  else none

/-! ## vm/frame.c -/

/-- The entry of the victim's page, and the swap device, after the page has been swapped
out if it has to be. -/
def saveVictim (s : Mem) (fte : Fte) (e : Spte) : Option (Spte × Swap) :=
  if s.pagedirIsDirty fte.owner e.userVaddr ∨ e.fileType = .swap then do
    let (swapNum, swap) ← s.swap.swapOut (s.ram fte.frame)
    some ({ e with fileType := .swap, swapNum := swapNum, isSwapped := true }, swap)
  else some (e, s.swap)

/-- What `evict_frame` does to the frame it has chosen. `e` is the entry of its page. -/
def evict (s : Mem) (fte : Fte) (e : Spte) : Option Mem := do
  let (e, swap) ← s.saveVictim fte e
  let s := { s with swap := swap, frameTable := s.frameTable.erase fte }
  let s ← (s.pagedirClearPage fte.owner e.userVaddr).pallocFreePage fte.frame
  some (s.setSpte fte.spte { e with loaded := false })

/-- A pass of `evict_frame` over the rest of the frame table. Only the `first` asserts
that the victim is no mapped page. -/
def evictPass (first : Bool) (s : Mem) : List Fte → Option (Bool × Mem)
  | [] => some (false, s)
  | fte :: rest => do
    let e ← s.heap fte.spte
    if s.pagedirIsAccessed fte.owner e.userVaddr then
      evictPass first (s.pagedirSetAccessed fte.owner e.userVaddr false) rest
    else if first ∧ e.fileType = .mmap then none
    else do
      let s ← s.evict fte e
      some (true, s)

def evictFrame (s : Mem) : Option (Bool × Mem) := do
  let (evicted, s) ← s.evictPass true s.frameTable
  if evicted then some (true, s) else s.evictPass false s.frameTable

/-- The page `allocate_frame` gets from the pool, after an eviction if there was none;
`zero` is `PAL_ZERO`. -/
def getFrame (s : Mem) (zero : Bool) : Option (Nat × Mem) :=
  match s.pallocGetPage zero with
  | some r => some r
  | none => do
    let (evicted, s) ← s.evictFrame
    if evicted then s.pallocGetPage zero else none

def allocateFrame (s : Mem) (p ptr : Nat) (zero : Bool) : Option (Nat × Mem) := do
  let (frame, s) ← s.getFrame zero
  some (frame, { s with frameTable := s.frameTable ++ [⟨frame, p, ptr⟩] })

/-- `free_frame`, for the result of `pagedir_get_page`. -/
def freeFrame (s : Mem) (frame : Option Nat) : Option Mem :=
  match s.frameTable.find? fun fte => some fte.frame = frame with
  | none => some s
  | some fte => { s with frameTable := s.frameTable.erase fte }.pallocFreePage fte.frame

/-! ## vm/page.c -/

/-- The first entry of a list for the page `va`. There is no value where the search
reads an entry that has been freed. -/
def search (heap : Nat → Option Spte) (va : UInt32) : List Nat → Option (Option Nat)
  | [] => some none
  | ptr :: rest => do
    let e ← heap ptr
    if e.userVaddr = va then some (some ptr) else search heap va rest

def pageInsert (s : Mem) (p ptr : Nat) : Option (Bool × Mem) := do
  let e ← s.heap ptr
  match ← search s.heap e.userVaddr (s.supPageTable p) with
  | some _ => some (false, s)
  | none =>
    some (true, { s with supPageTable := update s.supPageTable p (s.supPageTable p ++ [ptr]) })

/-- The entry `allocate_page` makes for thread `p`. What it leaves as `malloc` returned
it is zero here and is not read before it is written. -/
def newSpte (s : Mem) (p : Nat) (addr : UInt32) (loaded : Bool) (pType : PallocType)
    (readBytes zeroBytes : Nat) (file offset : Nat) (writable : Bool) : Spte :=
  match pType with
  | .growStack | .pageFault =>
    ⟨addr, 0, 0, false, 0, 0, writable, loaded, .swap, none, 0⟩
  | .loadSegment =>
    ⟨addr, readBytes, zeroBytes, false, file, offset, writable, loaded, .file, none, 0⟩
  | .createMmap =>
    -- `file_type` is first set to `TYPE_MMAP`, and then to `TYPE_FILE` as for a segment
    ⟨addr, readBytes, zeroBytes, false, file, offset, writable, loaded, .file, some (s.mapId p), 0⟩

def allocatePage (s : Mem) (p : Nat) (addr : UInt32) (loaded : Bool) (pType : PallocType)
    (readBytes zeroBytes : Nat) (file offset : Nat) (writable : Bool) : Option (Nat × Mem) :=
  if isKernelVaddr addr then none
  else
    let e := s.newSpte p addr loaded pType readBytes zeroBytes file offset writable
    some (s.next, { s.setSpte s.next e with next := s.next + 1 })

def findPage (s : Mem) (p : Nat) (addr : UInt32) : Option (Option Nat) :=
  search s.heap (pgRoundDown addr) (s.supPageTable p)

def unload (s : Mem) (p : Nat) (e : Spte) : Option Mem :=
  if e.loaded then do
    let s ← s.freeFrame (s.pagedirGetPage p e.userVaddr)
    some (s.pagedirClearPage p e.userVaddr)
  else some s

def freePage (s : Mem) (p ptr : Nat) : Option Mem := do
  let e ← s.heap ptr
  let s ← s.unload p e
  s.freeSpte ptr

def readPage (s : Mem) (e : Spte) (frame : Nat) : Option Mem :=
  if 0 < e.readBytes then
    let (n, page) := (s.inode e.file).readAt (s.ram frame) e.readBytes e.offset
    if n = e.readBytes then
      some { s with ram := update s.ram frame (page.patch e.readBytes e.zeroBytes (fun _ => 0) 0) }
    else none
  else some s

def fileHandling (s : Mem) (p ptr : Nat) : Option (Bool × Mem) := do
  let e ← s.heap ptr
  let (frame, s) ← s.allocateFrame p ptr (e.readBytes == 0)
  let e ← s.heap ptr
  let s ← s.readPage e frame
  let (success, s) ← s.installPage p e.userVaddr frame e.writable
  if success then some (true, s.setSpte ptr { e with loaded := true })
  else do
    let s ← s.freeFrame (some frame)
    some (false, s)

def readSlot (s : Mem) (e : Spte) (frame : Nat) : Option Mem :=
  if e.isSwapped then do
    let (page, swap) ← s.swap.swapIn (s.ram frame) e.swapNum
    some { s with swap := swap, ram := update s.ram frame page }
  else some s

def swapHandling (s : Mem) (p ptr : Nat) : Option (Bool × Mem) := do
  let (frame, s) ← s.allocateFrame p ptr false
  let e ← s.heap ptr
  let (success, s) ← s.installPage p e.userVaddr frame e.writable
  if success then do
    let s ← s.readSlot e frame
    some (true, s.setSpte ptr { e with isSwapped := false, loaded := true })
  else do
    let s ← s.freeFrame (some frame)
    some (false, s)

def pageHandling (s : Mem) (p ptr : Nat) : Option (Bool × Mem) := do
  let e ← s.heap ptr
  match e.fileType with
  | .file => if e.loaded then s.swapHandling p ptr else s.fileHandling p ptr
  | .mmap => s.fileHandling p ptr
  | .swap => s.swapHandling p ptr

def growStack (s : Mem) (p : Nat) (addr : UInt32) (pType : PallocType) : Option (Bool × Mem) := do
  let pageAddr := pgRoundDown addr
  let (ptr, s) ← s.allocatePage p pageAddr true pType 0 0 0 0 true
  let (frame, s) ← s.allocateFrame p ptr (pType == .growStack)
  let (success, s) ← s.installPage p pageAddr frame true
  if success then s.pageInsert p ptr
  else do
    let s ← s.freeFrame (some frame)
    let s ← s.freeSpte ptr
    some (false, s)

/-! ## What a process does -/

/-- Thread `p` reads the byte at `a`. There is no value where the processor faults. -/
def load (s : Mem) (p : Nat) (a : UInt32) : Option (UInt8 × Mem) :=
  let pte := s.pagedir p (pgRoundDown a)
  if isUserVaddr a ∧ pte.present then
    some ((s.ram pte.frame).get (pgOfs a), s.setPte p (pgRoundDown a) { pte with accessed := true })
  else none

def store (s : Mem) (p : Nat) (a : UInt32) (b : UInt8) : Option Mem :=
  let pte := s.pagedir p (pgRoundDown a)
  if isUserVaddr a ∧ pte.present ∧ pte.writable then
    some { s.setPte p (pgRoundDown a) { pte with accessed := true, dirty := true } with
      ram := update s.ram pte.frame ((s.ram pte.frame).set (pgOfs a) b) }
  else none

/-- `page_fault`, where the page of `a` is not present. There is no value where it ends
the process. -/
def pageFault (s : Mem) (p : Nat) (a esp : UInt32) : Option Mem :=
  if isUserVaddr a ∧ (s.pagedir p (pgRoundDown a)).present = false then do
    match ← s.findPage p a with
    | some ptr =>
      let (success, s) ← s.pageHandling p ptr
      if success then some s else none
    | none =>
      if PHYS_BASE - pgRoundDown a > LIMIT then none
      else if a ≥ esp - SIZE then do
        let (success, s) ← s.growStack p a .pageFault
        if success then some s else none
      else none
  else none

/-- A turn of the loop of `load_segment`, with `readBytes` bytes left to read. There is no
value where the program is not loaded. -/
def loadSegment (s : Mem) (p : Nat) (file ofs : Nat) (upage : UInt32) (readBytes : Nat)
    (writable : Bool) : Option Mem :=
  if pgOfs upage = 0 then do
    let pageReadBytes := min readBytes 4096
    let (ptr, s) ← s.allocatePage p upage false .loadSegment pageReadBytes (4096 - pageReadBytes)
      file ofs writable
    let (success, s) ← s.pageInsert p ptr
    if success then some s else none
  else none

/-- `setup_stack`, up to the arguments of the program. There is no value where the program
is not loaded. -/
def setupStack (s : Mem) (p : Nat) : Option Mem := do
  let (success, s) ← s.growStack p (PHYS_BASE - PGSIZE) .growStack
  if success then some s else none

end Mem

/-- What happens to the memory of processes that map no files. -/
inductive Act where
  | segment (p file ofs : Nat) (upage : UInt32) (readBytes : Nat) (writable : Bool)
  | stack (p : Nat)
  | load (p : Nat) (a : UInt32)
  | store (p : Nat) (a : UInt32) (b : UInt8)
  | fault (p : Nat) (a esp : UInt32)
  | evict

def Act.thread : Act → Option Nat
  | .segment p .. | .stack p | .load p _ | .store p .. | .fault p .. => some p
  | .evict => none

namespace Mem

def act (s : Mem) : Act → Option Mem
  | .segment p file ofs upage readBytes writable => s.loadSegment p file ofs upage readBytes writable
  | .stack p => s.setupStack p
  | .load p a => (s.load p a).map (·.2)
  | .store p a b => s.store p a b
  | .fault p a esp => s.pageFault p a esp
  | .evict => s.evictFrame.map (·.2)

def step (s : Mem) (a : Act) : Option Mem :=
  if a.thread.all s.alive then s.act a else none

/-- The state before the first process is started: the pool of `pages` pages and the swap
device of `capacity` sectors hold anything. -/
def start (pages : Nat) (ram : Nat → Page) (capacity : UInt32) (device : Disk) (inode : Nat → File)
    (fds : Nat → Nat → Option Nat) : Mem where
  usedMap := List.replicate pages false
  ram := ram
  frameTable := []
  swap := Swap.swapInit capacity device
  inode := inode
  heap := fun _ => none
  next := 0
  pagedir := fun _ _ => Pte.zero
  supPageTable := fun _ => []
  listMmap := fun _ => []
  mapId := fun _ => 0
  fds := fds
  alive := fun _ => true

end Mem

end Pintos.VM
