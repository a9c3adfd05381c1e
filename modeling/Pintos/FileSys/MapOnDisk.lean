import Pintos.FileSys.MapFile
import Pintos.FileSys.WordBitmap
import Pintos.Lib.Run

/-!
# The free map on disk (`filesys/free-map.c` over `lib/kernel/bitmap.c`)

The free map as an array of words, and its file as anything that behaves as an
array of bytes inside its length. `Synced` says that the bits in use, read from
the bytes of the file, are the bits in memory; `bitmapWrite_spec` brings it
about, whatever the bits of the last word that are not in use, and every
allocation and release keeps it.

The inodes of the file system are such files (`inodeFile`): an open inode whose
sectors are its own behaves as an array of bytes inside its length.
-/

namespace Pintos.FileSys.MapOnDisk

open Lib List

/-! ## Files -/

/-- Files whose reads and writes inside the length behave as on an array of
bytes. `φ` is whatever the file is kept in. -/
structure ByteFile (φ : Type) where
  /-- `file_read_at`: what it returns, the buffer and the file afterwards. -/
  readAt : φ → (Nat → UInt8) → Int → Int → Option (Int × (Nat → UInt8) × φ)
  /-- `file_write_at`. -/
  writeAt : φ → (Nat → UInt8) → Int → Int → Option (Int × φ)
  /-- The file is open and has this length. -/
  opened : φ → Nat → Prop
  /-- The bytes of the file. -/
  content : φ → Nat → UInt8
  readAt_within : ∀ {f : φ} {len : Nat} (buffer : Nat → UInt8) {size offset : Nat},
    opened f len → offset + size ≤ len →
    ∃ bytes f', readAt f buffer size offset = some ((size : Int), bytes, f') ∧ opened f' len ∧
      (∀ k, k < size → bytes k = content f (offset + k)) ∧
      ∀ k, k < len → content f' k = content f k
  writeAt_within : ∀ {f : φ} {len : Nat} (buffer : Nat → UInt8) {size offset : Nat},
    opened f len → offset + size ≤ len →
    ∃ f', writeAt f buffer size offset = some ((size : Int), f') ∧ opened f' len ∧
      ∀ k, k < len → content f' k =
        if offset ≤ k ∧ k < offset + size then buffer (k - offset) else content f k

variable {φ : Type} (F : ByteFile φ)

/-- `bitmap_file_size`. -/
def bitmapFileSize (b : Bitmap) : Nat := Bitmap.byteSize b.bitCnt

/-- `b->bits[elem_cnt (b->bit_cnt) - 1] &= last_mask (b)`, for words just read. -/
def maskLast (b : Bitmap) (words : List (BitVec 32)) : List (BitVec 32) :=
  let last := elemCnt b.bitCnt - 1
  words.set last (words.getD last 0#32 &&& Bitmap.lastMask b.bitCnt)

def bitmapRead (b : Bitmap) (file : φ) : Option (Bool × Bitmap × φ) :=
  if 0 < b.bitCnt then do
    let size : Int := bitmapFileSize b
    let (read, bytes, file) ← F.readAt file (Words.byte b.bits) size 0
    let words := Words.ofBytes (elemCnt b.bitCnt) bytes
    some (read = size, { b with
      bits := maskLast b words
      length_bits := by simp [maskLast, words, Words.ofBytes] }, file)
  else some (true, b, file)

def bitmapWrite (b : Bitmap) (file : φ) : Option (Bool × φ) := do
  let size : Int := bitmapFileSize b
  let (written, file) ← F.writeAt file (Words.byte b.bits) size 0
  some (written = size, file)

/-! ## The free map -/

/-- `free_map` and `free_map_file`. -/
structure State (φ : Type) where
  freeMap : Bitmap
  freeMapFile : Option φ

def freeMapAllocate (s : State φ) (cnt : Nat) : Option (Option Sector × State φ) := do
  let (sector, freeMap) ← s.freeMap.scanAndFlip 0 cnt false
  match sector with
  | none => some (none, { s with freeMap := freeMap })
  | some sector =>
    match s.freeMapFile with
    | none => some (some (UInt32.ofNat sector), { s with freeMap := freeMap })
    | some file => do
      let (written, file) ← bitmapWrite F freeMap file
      if written then
        some (some (UInt32.ofNat sector), { freeMap := freeMap, freeMapFile := some file })
      else do
        let freeMap ← freeMap.setMultiple sector cnt false
        some (none, { freeMap := freeMap, freeMapFile := some file })

def freeMapRelease (s : State φ) (sector : Sector) (cnt : Nat) : Option (State φ) := do
  if ← s.freeMap.all sector.toNat cnt then
    let freeMap ← s.freeMap.setMultiple sector.toNat cnt false
    let (_, file) ← bitmapWrite F freeMap (← s.freeMapFile)
    some { freeMap := freeMap, freeMapFile := some file }
  else none

def freeMapOpen (freeMap : Bitmap) (file : φ) : Option (State φ) := do
  let (read, freeMap, file) ← bitmapRead F freeMap file
  if read then some { freeMap := freeMap, freeMapFile := some file } else none

/-- `free_map_create`; `file` is what opening the file just created returns. -/
def freeMapCreate (freeMap : Bitmap) (file : φ) : Option (State φ) := do
  let (written, file) ← bitmapWrite F freeMap file
  if written then some { freeMap := freeMap, freeMapFile := some file } else none

inductive Call where
  | allocate (cnt : Nat)
  | release (sector : Sector) (cnt : Nat)

def step (s : State φ) : Call → Option (State φ)
  | .allocate cnt => (freeMapAllocate F s cnt).map Prod.snd
  | .release sector cnt => freeMapRelease F s sector cnt

def releasesAllocated (s : State φ) : Call → Prop
  | .allocate _ => True
  | .release sector cnt => Group s.freeMap.toBits sector.toNat cnt true

/-- The free map file has just been opened or created, with the length of the
map. -/
inductive Start : State φ → Prop
  | opened {b : Bitmap} {f : φ} {s : State φ} :
      F.opened f (bitmapFileSize b) → freeMapOpen F b f = some s → Start s
  | created {b : Bitmap} {f : φ} {s : State φ} :
      F.opened f (bitmapFileSize b) → freeMapCreate F b f = some s → Start s

/-! ## Reading and writing the map -/

def fileBit (f : φ) (i : Nat) : Bool := (F.content f (i / 8)).toBitVec.getLsbD (i % 8)

/-- The file is open and as long as the map, and holds its bits in use. -/
structure Synced (b : Bitmap) (f : φ) : Prop where
  opened : F.opened f (bitmapFileSize b)
  bits : ∀ i, i < b.bitCnt → fileBit F f i = b.bit i

variable {b : Bitmap} {cnt : Nat}

theorem div_lt_fileSize {i : Nat} (hi : i < b.bitCnt) :
    i / 8 < bitmapFileSize b := by
  unfold bitmapFileSize Bitmap.byteSize
  rw [b.elemCnt_eq]
  omega

theorem bit_maskLast {words : List (BitVec 32)} (hlen : words.length = elemCnt b.bitCnt) {i : Nat}
    (hi : i < b.bitCnt) : Words.bit (maskLast b words) i = Words.bit words i := by
  unfold maskLast Bitmap.lastMask
  dsimp only
  rw [b.elemCnt_eq] at hlen ⊢
  by_cases hrest : b.bitCnt % 32 = 0
  · -- the last word is in use entirely
    rw [if_neg (fun h => h hrest), BitVec.and_allOnes, Words.bit_set _ _ _ (by omega)]
    split
    · rename_i hlast
      rw [← hlast]
      rfl
    · rfl
  · rw [if_pos hrest, show (b.bitCnt + 31) / 32 - 1 = b.bitCnt / 32 by omega]
    exact Words.bit_and_lowMask words i (by omega) hi

section
variable {F}

theorem bitmapWrite_spec {b : Bitmap} {f : φ} (hf : F.opened f (bitmapFileSize b)) :
    ∃ f', bitmapWrite F b f = some (true, f') ∧ Synced F b f' := by
  obtain ⟨f', hwrite, hopen, hcontent⟩ :=
    @F.writeAt_within _ _ (Words.byte b.bits) (bitmapFileSize b) 0 hf (by omega)
  refine ⟨f', ?_, hopen, fun i hi => ?_⟩
  · unfold bitmapWrite
    rw [show ((0 : Nat) : Int) = 0 from rfl] at hwrite
    simp only [hwrite, some_bind, decide_true]
  · have hbyte := div_lt_fileSize hi
    unfold fileBit
    rw [hcontent _ hbyte, if_pos (by omega), Nat.sub_zero]
    exact Words.bit_byte b.bits i

variable {b : Bitmap} {f : φ} {s : State φ}

theorem bitmapRead_spec (hf : F.opened f (bitmapFileSize b)) :
    ∃ b' f', bitmapRead F b f = some (true, b', f') ∧ b'.bitCnt = b.bitCnt ∧
      (∀ i, i < b.bitCnt → b'.bit i = fileBit F f i) ∧ Synced F b' f' := by
  unfold bitmapRead
  by_cases hpos : 0 < b.bitCnt
  · obtain ⟨bytes, f', hread, hopen, hbytes, hcontent⟩ :=
      @F.readAt_within _ _ (Words.byte b.bits) (bitmapFileSize b) 0 hf (by omega)
    rw [show ((0 : Nat) : Int) = 0 from rfl] at hread
    have hbit : ∀ i, i < b.bitCnt →
        Words.bit (maskLast b (Words.ofBytes (elemCnt b.bitCnt) bytes)) i = fileBit F f i := by
      intro i hi
      have hbyte := div_lt_fileSize hi
      have hword := b.elemIdx_lt hi
      rw [b.length_bits] at hword
      rw [bit_maskLast (by simp [Words.ofBytes]) hi, Words.bit_ofBytes _ _ hword, hbytes _ hbyte,
        Nat.zero_add]
      rfl
    rw [if_pos hpos]
    simp only [hread, some_bind, decide_true]
    refine ⟨_, f', rfl, rfl, hbit, hopen, fun i hi => ?_⟩
    refine Eq.trans ?_ (hbit i hi).symm
    unfold fileBit
    rw [hcontent _ (div_lt_fileSize hi)]
  · rw [if_neg hpos]
    exact ⟨b, f, rfl, rfl, fun i hi => absurd hi (by omega), hf, fun i hi => absurd hi (by omega)⟩

theorem Synced.bitmapRead {fresh : Bitmap} (h : Synced F b f) (hcnt : fresh.bitCnt = b.bitCnt) :
    ∃ b' f', bitmapRead F fresh f = some (true, b', f') ∧ b'.toBits = b.toBits := by
  obtain ⟨b', f', hread, hcnt', hbit, -⟩ := bitmapRead_spec (F := F) (b := fresh) (f := f)
    (by unfold bitmapFileSize; rw [hcnt]; exact h.opened)
  refine ⟨b', f', hread, Bitmap.toBits_eq (hcnt'.trans hcnt) fun i hi => ?_⟩
  rw [hbit i (by omega), h.bits i hi]

theorem Start.synced (h : Start F s) :
    ∃ f, s.freeMapFile = some f ∧ Synced F s.freeMap f := by
  cases h with
  | opened hf heq =>
    obtain ⟨b', f', hread, -, -, hsync⟩ := bitmapRead_spec hf
    unfold freeMapOpen at heq
    simp only [hread, some_bind, if_true] at heq
    cases heq
    exact ⟨f', rfl, hsync⟩
  | created hf heq =>
    obtain ⟨f', hwrite, hsync⟩ := bitmapWrite_spec hf
    unfold freeMapCreate at heq
    simp only [hwrite, some_bind, if_true] at heq
    cases heq
    exact ⟨f', rfl, hsync⟩

/-! ## Allocation and release -/

/-- `after` is `before` with the `cnt` bits from `start` on set to `value`. -/
def SetsExactly (before after : List Bool) (start cnt : Nat) (value : Bool) : Prop :=
  after.length = before.length ∧
    ∀ i, after[i]? = if start ≤ i ∧ i < start + cnt then some value else before[i]?

/-- The sector returned starts the lowest group of `cnt` free sectors, and just
that group has been marked. -/
def FirstFit (before after : List Bool) (cnt : Nat) (sector : Sector) : Prop :=
  Group before sector.toNat cnt false ∧ (∀ t, t < sector.toNat → ¬ Group before t cnt false) ∧
    SetsExactly before after sector.toNat cnt true

theorem setMultiple_sets {start : Nat} (value : Bool) (h : start + cnt ≤ b.bitCnt) :
    ∃ b', b.setMultiple start cnt value = some b' ∧ b'.bitCnt = b.bitCnt ∧
      SetsExactly b.toBits b'.toBits start cnt value := by
  obtain ⟨b', hset, hcnt, hbit⟩ := b.setMultiple_spec value h
  refine ⟨b', hset, hcnt, by rw [b'.length_toBits, b.length_toBits, hcnt], fun i => ?_⟩
  by_cases hi : i < b.bitCnt
  · rw [b'.getElem?_toBits (by omega), b.getElem?_toBits hi, hbit]
    split <;> rfl
  · rw [if_neg (by omega), getElem?_eq_none (by simp; omega),
      getElem?_eq_none (by simp; omega)]

theorem scanAndFlip_cases (b : Bitmap) (cnt : Nat) :
    (b.scanAndFlip 0 cnt false = some (none, b) ∧ ∀ t, ¬ Group b.toBits t cnt false) ∨
      ∃ sector b', b.scanAndFlip 0 cnt false = some (some sector, b') ∧
        b'.bitCnt = b.bitCnt ∧ sector < 4294967296 ∧
        FirstFit b.toBits b'.toBits cnt (UInt32.ofNat sector) := by
  unfold Bitmap.scanAndFlip
  rw [b.scan_refines cnt false (Nat.zero_le _)]
  cases hscan : bitmapScan b.toBits 0 cnt false with
  | none => exact .inl ⟨rfl, fun t => bitmapScan_none hscan t (Nat.zero_le t)⟩
  | some sector =>
    obtain ⟨-, hgroup, hlow⟩ := bitmapScan_some hscan
    have hle := hgroup.1
    have hfits := b.fits
    rw [b.length_toBits] at hle
    obtain ⟨b', hset, hcnt, hsets⟩ := setMultiple_sets true hle
    have hsector : (UInt32.ofNat sector).toNat = sector := by
      rw [UInt32.toNat_ofNat']
      exact Nat.mod_eq_of_lt (by omega)
    refine .inr ⟨sector, b', ?_, hcnt, by omega, ?_⟩
    · simp only [some_bind, Bool.not_false, hset]
    · unfold FirstFit
      rw [hsector]
      exact ⟨hgroup, fun t => hlow t (Nat.zero_le t), hsets⟩

/-- **One allocation.** Either the lowest group is marked and the file follows,
or there is no such group and nothing changes. -/
theorem freeMapAllocate_spec (hfile : s.freeMapFile = some f) (hsync : Synced F s.freeMap f)
    (cnt : Nat) :
    (freeMapAllocate F s cnt = some (none, s) ∧ ∀ t, ¬ Group s.freeMap.toBits t cnt false) ∨
      ∃ sector b' f', freeMapAllocate F s cnt = some (some sector, ⟨b', some f'⟩) ∧
        Synced F b' f' ∧ FirstFit s.freeMap.toBits b'.toBits cnt sector := by
  unfold freeMapAllocate
  rcases scanAndFlip_cases s.freeMap cnt with ⟨hscan, hnone⟩ | ⟨sector, b', hscan, hcnt, -, hfit⟩
  · refine .inl ⟨?_, hnone⟩
    simp only [hscan, some_bind]
  · obtain ⟨f', hwrite, hsync'⟩ := bitmapWrite_spec (F := F) (b := b') (f := f)
      (by unfold bitmapFileSize; rw [hcnt]; exact hsync.opened)
    refine .inr ⟨UInt32.ofNat sector, b', f', ?_, hsync', hfit⟩
    simp only [hscan, hfile, hwrite, some_bind, if_true]

/-- **One release** of sectors that are allocated. -/
theorem freeMapRelease_spec {sector : Sector} (hfile : s.freeMapFile = some f)
    (hsync : Synced F s.freeMap f) (hused : Group s.freeMap.toBits sector.toNat cnt true) :
    ∃ b' f', freeMapRelease F s sector cnt = some ⟨b', some f'⟩ ∧ Synced F b' f' ∧
      SetsExactly s.freeMap.toBits b'.toBits sector.toNat cnt false := by
  have hle := hused.1
  have hall : s.freeMap.all sector.toNat cnt = some true := by
    unfold Bitmap.all
    rw [s.freeMap.contains_refines false (by simpa using hle), some_bind, show false = !true from rfl, (bitmapContains_not true hle).mpr hused,
      Bool.not_false]
  rw [s.freeMap.length_toBits] at hle
  obtain ⟨b', hset, hcnt, hsets⟩ := setMultiple_sets false hle
  obtain ⟨f', hwrite, hsync'⟩ := bitmapWrite_spec (F := F) (b := b') (f := f)
    (by unfold bitmapFileSize; rw [hcnt]; exact hsync.opened)
  refine ⟨b', f', ?_, hsync', hsets⟩
  unfold freeMapRelease
  simp only [hall, hset, hfile, hwrite, some_bind, if_true]

theorem step_synced {s' : State φ} {call : Call}
    (h : ∃ f, s.freeMapFile = some f ∧ Synced F s.freeMap f) (hok : releasesAllocated s call)
    (hstep : step F s call = some s') :
    ∃ f, s'.freeMapFile = some f ∧ Synced F s'.freeMap f := by
  obtain ⟨f, hfile, hsync⟩ := h
  cases call with
  | allocate cnt =>
    rcases freeMapAllocate_spec hfile hsync cnt with ⟨heq, -⟩ | ⟨sector, b', f', heq, hsync', -⟩
    · simp only [step, heq, Option.map_some] at hstep
      cases hstep
      exact ⟨f, hfile, hsync⟩
    · simp only [step, heq, Option.map_some] at hstep
      cases hstep
      exact ⟨f', rfl, hsync'⟩
  | release sector cnt =>
    obtain ⟨b', f', heq, hsync', -⟩ := freeMapRelease_spec hfile hsync hok
    simp only [step, heq] at hstep
    cases hstep
    exact ⟨f', rfl, hsync'⟩

end

/-- What the free map promises between two calls. -/
structure Tracks (s : State φ) : Prop where
  /-- Reading the file into a fresh bitmap of the same size gives the bits in
  memory. -/
  onDisk : ∃ f, s.freeMapFile = some f ∧ ∀ fresh : Bitmap, fresh.bitCnt = s.freeMap.bitCnt →
    ∃ b f', bitmapRead F fresh f = some (true, b, f') ∧ b.toBits = s.freeMap.toBits
  /-- An allocation returns, and marks the lowest group of free sectors or, if it
  fails, changes no bit; it fails only if there is no such group. -/
  allocate : ∀ cnt, ∃ r s', freeMapAllocate F s cnt = some (r, s') ∧
    match r with
    | some sector => FirstFit s.freeMap.toBits s'.freeMap.toBits cnt sector
    | none => s'.freeMap.toBits = s.freeMap.toBits ∧ ∀ t, ¬ Group s.freeMap.toBits t cnt false
  /-- A release of allocated sectors returns, and clears their bits. -/
  release : ∀ (sector : Sector) cnt, Group s.freeMap.toBits sector.toNat cnt true →
    ∃ s', freeMapRelease F s sector cnt = some s' ∧
      SetsExactly s.freeMap.toBits s'.freeMap.toBits sector.toNat cnt false

/-- **The free map on disk tracks the one in memory**, for every number of
sectors and after every sequence of calls. -/
theorem free_map_on_disk_tracks_memory {s0 s : State φ} {calls : List Call} (h₀ : Start F s0)
    (hrun : Run (step F) releasesAllocated s0 calls s) : Tracks F s := by
  obtain ⟨f, hfile, hsync⟩ := hrun.invariant
    (I := fun s => ∃ f, s.freeMapFile = some f ∧ Synced F s.freeMap f)
    (fun _ _ _ h hok heq => step_synced h hok heq) h₀.synced
  refine ⟨⟨f, hfile, fun fresh hcnt => hsync.bitmapRead hcnt⟩, fun cnt => ?_, ?_⟩
  · rcases freeMapAllocate_spec hfile hsync cnt with ⟨heq, hnone⟩ | ⟨sector, b', f', heq, -, hfit⟩
    · exact ⟨none, s, heq, rfl, hnone⟩
    · exact ⟨some sector, _, heq, hfit⟩
  · intro sector cnt hused
    obtain ⟨b', f', heq, -, hsets⟩ := freeMapRelease_spec hfile hsync hused
    exact ⟨_, heq, hsets⟩

def arrayFile : ByteFile (Nat × (Nat → UInt8)) where
  readAt f _ size offset := some (size, fun k => f.2 (offset.toNat + k), f)
  writeAt f buffer size offset := some (size, f.1, fun k =>
    if offset.toNat ≤ k ∧ k < offset.toNat + size.toNat then buffer (k - offset.toNat) else f.2 k)
  opened f len := f.1 = len
  content f := f.2
  readAt_within := by
    intro f len buffer size offset hlen _
    exact ⟨_, f, rfl, hlen, fun _ _ => rfl, fun _ _ => rfl⟩
  writeAt_within := by
    intro f len buffer size offset hlen _
    exact ⟨_, rfl, hlen, fun _ _ => rfl⟩

/-- 33 sectors, so two words of which the second has one bit in use; its other
bits are what the memory held. Sectors 0, 1 and 2 are allocated. -/
def mapOf33 : Bitmap where
  bitCnt := 33
  bits := [7#32, 0xFFFFFFFE#32]
  fits := by decide
  length_bits := rfl

theorem free_map_on_disk_tracks_memory_33_sectors :
    ∃ s0 s, freeMapCreate arrayFile mapOf33 (8, fun _ => 0) = some s0 ∧
      Run (step arrayFile) releasesAllocated s0 ([] ++ [.release 1 2]) s ∧
      Tracks arrayFile s := by
  have hused : Group mapOf33.toBits (1 : Sector).toNat 2 true := by
    refine ⟨by decide, fun i hlo hhi => ?_⟩
    change 1 ≤ i at hlo
    change i < 3 at hhi
    obtain rfl | rfl : i = 1 ∨ i = 2 := by omega
    · decide
    · decide
  have hopen : arrayFile.opened (8, fun _ => 0) (bitmapFileSize mapOf33) := rfl
  obtain ⟨f, hwrite, hsync⟩ := bitmapWrite_spec hopen
  have h0 : freeMapCreate arrayFile mapOf33 (8, fun _ => 0) = some ⟨mapOf33, some f⟩ := by
    unfold freeMapCreate
    rw [hwrite]
    rfl
  obtain ⟨b', f', hrelease, -⟩ := freeMapRelease_spec (s := ⟨mapOf33, some f⟩) rfl hsync hused
  have hrun : Run (step arrayFile) releasesAllocated ⟨mapOf33, some f⟩ ([] ++ [.release 1 2])
      ⟨b', some f'⟩ := .snoc .nil hused hrelease
  exact ⟨_, _, h0, hrun, free_map_on_disk_tracks_memory arrayFile (.created hopen h0) hrun⟩

/-! ## Inodes as files -/

/-- The inode of sector `i` is open, regular, writable and has length `len`. -/
structure OpenInode (d0 : Disk) (i : Sector) (fs : FS) (len : Nat) (ino : Inode) : Prop where
  store : StoreOk d0 fs
  nodup : OpenNodup fs
  unlocked : fs.locked i = false
  opened : fs.inode? i = some ino
  ok : FileOk fs.store ino.toInodeCore
  deny : ino.denyWriteCnt = 0
  regular : ino.isDir = 0
  length : ino.length = len
  shown : ino.lengthShown = len

def inodeContent (i : Sector) (fs : FS) (k : Nat) : UInt8 :=
  (fs.inode? i).elim 0 fun ino => fileByte fs.store.view ino.toInodeCore k

section
variable {d0 : Disk} {i : Sector} {fs fs' : FS} {len : Nat} {ino : Inode}

section
variable (h : OpenInode d0 i fs len ino)
include h

theorem OpenInode.content (k : Nat) :
    inodeContent i fs k = fileByte fs.store.view ino k := by
  rw [inodeContent, h.opened]
  rfl

theorem OpenInode.keep {W : Set Sector} (hrest : SameRest fs fs')
    (heff : StoreEff d0 fs fs' (dataSectors fs.store.view ino) W)
    (hW : W ⊆ dataSectors fs.store.view ino) : OpenInode d0 i fs' len ino where
  store := heff.ok
  nodup := h.nodup.congr hrest.openInodes
  unlocked := by rw [hrest.locked, h.unlocked]
  opened := (hrest.inode? i).trans h.opened
  ok := (h.ok.frame fs'.store (fun s hs => heff.view s (fun hw => hs (hW hw))) heff.cached).1
  __ := h

theorem OpenInode.readAt (buffer : Buffer) {size offset : Nat} (hle : offset + size ≤ len) :
    ∃ bytes fs', inodeReadAt fs i buffer size offset = some ((size : Int), bytes, fs') ∧
      OpenInode d0 i fs' len ino ∧ (∀ k, k < size → bytes k = inodeContent i fs (offset + k)) ∧
      ∀ k, inodeContent i fs' k = inodeContent i fs k := by
  have hshown := h.shown
  have hlen := h.length
  unfold inodeReadAt
  simp only [h.opened, some_bind]
  by_cases hend : ino.lengthShown ≤ (offset : Int)
  · -- only a read of no bytes starts at the end
    obtain rfl : size = 0 := by omega
    rw [if_pos hend]
    exact ⟨buffer, fs, rfl, h, fun k hk => absurd hk (by omega), fun _ => rfl⟩
  · rw [if_neg hend]
    obtain ⟨fs', hloop, hrest, heff⟩ := readLoop_spec (size : Int).toNat buffer (n := 0)
      h.store h.opened h.ok (by omega) (Int.natCast_nonneg offset) (le_refl _)
      (show size = (min (size : Int) (ino.lengthShown - offset)).toNat by omega)
    rw [Nat.zero_add] at hloop
    have hkeep := h.keep hrest heff (Set.empty_subset _)
    refine ⟨_, fs', hloop, hkeep, fun k hk => ?_, fun k => ?_⟩
    · unfold fileCopy
      rw [if_pos (by omega), h.content]
      congr 1
    · rw [h.content, hkeep.content, heff.view_eq]

theorem OpenInode.writeAt (fm : FreeMapOps) (buffer : Buffer) {size offset : Nat}
    (hle : offset + size ≤ len) :
    ∃ fs', inodeWriteAt fm fs i buffer size offset = some ((size : Int), fs') ∧
      OpenInode d0 i fs' len ino ∧ ∀ k, k < len → inodeContent i fs' k =
        if offset ≤ k ∧ k < offset + size then buffer (k - offset) else inodeContent i fs k := by
  have hshown := h.shown
  have hlen := h.length
  have hbound := h.ok.bound
  have hsec := inode?_sector h.opened
  have hi32 : i32 ((size : Int) + offset) ≤ ino.length := by
    rw [hlen]
    unfold i32
    rw [Int.bmod_def]
    split <;> omega
  have hgrow := growForWrite_within fm fs ino false size offset
    (by rw [inodeIsDir, h.regular]; rfl) (fun _ => by rw [hsec]; exact h.unlocked) hi32
  obtain ⟨fs', hloop, hrest, heff, hbyte⟩ := @writeLoop_spec _ _ _ buffer (size : Int).toNat _
    (size : Int) (offset : Int) 0 size h.store h.nodup h.opened h.ok (by omega) (by omega)
    (by omega) (by omega)
  have hself : fs.setInode { ino with
      lengthShown := min ino.length (ino.lengthShown + size) } = fs := by
    rw [show min ino.length (ino.lengthShown + size) = ino.lengthShown by omega]
    exact setInode_self h.nodup h.opened
  rw [hself] at hrest
  rw [Nat.zero_add] at hloop
  have hkeep := h.keep hrest heff (Set.Subset.refl _)
  refine ⟨fs', ?_, hkeep, fun k hk => ?_⟩
  · unfold inodeWriteAt
    simp only [h.opened, some_bind, h.deny, ne_eq, not_true_eq_false,
      if_false, hgrow, if_true, hloop]
  · rw [h.content, hkeep.content, hbyte k (h.ok.div_lt (by omega))]
    simp only [Int.toNat_natCast, Nat.zero_add]

end

def inodeFile (d0 : Disk) (fm : FreeMapOps) (i : Sector) : ByteFile FS where
  readAt fs := inodeReadAt fs i
  writeAt fs := inodeWriteAt fm fs i
  opened fs len := ∃ ino, OpenInode d0 i fs len ino
  content := inodeContent i
  readAt_within := by
    rintro fs len buffer size offset ⟨ino, h⟩ hle
    obtain ⟨bytes, fs', heq, hopen, hbytes, hsame⟩ := h.readAt buffer hle
    exact ⟨bytes, fs', heq, ⟨ino, hopen⟩, hbytes, fun k _ => hsame k⟩
  writeAt_within := by
    rintro fs len buffer size offset ⟨ino, h⟩ hle
    obtain ⟨fs', heq, hopen, hbytes⟩ := h.writeAt fm buffer hle
    exact ⟨fs', heq, ⟨ino, hopen⟩, hbytes⟩

/-! ## The free map of the file system -/

/-- An entry of the log that is neither a read nor a write. -/
def isNote : Access → Bool
  | .allocate _ | .release _ => true
  | _ => false

theorem storeOk_notes (hst : StoreOk d0 fs) (freeMap : List Bool) :
    ∀ notes : List Access, (∀ a ∈ notes, isNote a = true) →
      StoreOk d0 { fs with freeMap := freeMap, log := notes ++ fs.log }
  | [], _ => { hst with }
  | a :: notes, h => by
    have ih := storeOk_notes hst freeMap notes (fun a' ha => h a' (mem_cons_of_mem _ ha))
    cases a with
    | allocate s => exact { ih with }
    | release s => exact { ih with }
    | _ => cases h _ (mem_cons_self ..)

theorem isNote_allocations (sector cnt : Nat) : ∀ a ∈ allocations sector cnt, isNote a = true := by
  intro a ha
  obtain ⟨k, -, rfl⟩ := mem_map.mp ha
  rfl

theorem isNote_releases (sector cnt : Nat) : ∀ a ∈ releases sector cnt, isNote a = true := by
  intro a ha
  obtain ⟨k, -, rfl⟩ := mem_map.mp ha
  rfl

section
variable (fm : FreeMapOps) (hm : MapFile fs ino) (hst : StoreOk d0 fs) (hnd : OpenNodup fs)
  (hlock : fs.locked FREE_MAP_SECTOR = false)
include hm hst hnd hlock

/-- The same bits are written to the file of the file system and to that of the words. -/
theorem bitmapWrite_both {b' : Bitmap} {notes : List Access} (hlen : b'.bitCnt = fs.freeMap.length)
    (hnotes : ∀ a ∈ notes, isNote a = true) :
    ∃ fs' f', FileSys.bitmapWrite fm { fs with freeMap := b'.toBits, log := notes ++ fs.log }
        FREE_MAP_SECTOR = some (true, fs') ∧ fs'.freeMap = b'.toBits ∧
      bitmapWrite (inodeFile d0 fm FREE_MAP_SECTOR) b' fs = some (true, f') := by
  obtain ⟨fs', hwrite, hrest, -⟩ := @FileSys.bitmapWrite_spec _ _ ino fm
    (storeOk_notes hst b'.toBits notes hnotes) hnd
    { hm with length := hm.length.trans (by rw [← hlen, ← b'.length_toBits]) } hlock
  have hopen : (inodeFile d0 fm FREE_MAP_SECTOR).opened fs (byteCnt fs.freeMap.length) :=
    ⟨ino, hst, hnd, hlock, hm.opened, hm.ok, hm.deny, hm.regular, hm.length,
      hm.shown.trans hm.length⟩
  obtain ⟨f', hwrite', -⟩ := bitmapWrite_spec (b := b') (f := fs)
    (F := inodeFile d0 fm FREE_MAP_SECTOR) (by
      unfold bitmapFileSize Bitmap.byteSize
      rw [b'.elemCnt_eq, hlen]
      exact hopen)
  exact ⟨fs', f', hwrite, hrest.freeMap, hwrite'⟩

variable (hbits : b.toBits = fs.freeMap)
include hbits

/-- **The free map of the file system is the outside view of its words**: an
allocation on the words, over the inode of the free map file, returns what
`free_map_allocate` of the file system returns and leaves the same bits. -/
theorem freeMapAllocate_refines (cnt : Nat) :
    ∃ r fs' s', FileSys.freeMapAllocate fm fs cnt = some (r, fs') ∧
      freeMapAllocate (inodeFile d0 fm FREE_MAP_SECTOR) ⟨b, some fs⟩ cnt = some (r, s') ∧
      s'.freeMap.toBits = fs'.freeMap := by
  have hcnt : b.bitCnt = fs.freeMap.length := by rw [← hbits, b.length_toBits]
  unfold FileSys.freeMapAllocate freeMapAllocate Bitmap.scanAndFlip
  simp only [b.scan_refines cnt false (Nat.zero_le _), some_bind,
    ← hbits, Bool.not_false]
  cases hscan : bitmapScan b.toBits 0 cnt false with
  | none => exact ⟨none, fs, ⟨b, some fs⟩, rfl, rfl, hbits⟩
  | some sector =>
    have hle : sector + cnt ≤ b.bitCnt := by simpa using (bitmapScan_some hscan).2.1.1
    obtain ⟨b', hset, hcnt', hsets⟩ := b.setMultiple_refines true hle
    obtain ⟨fs', f', hwrite, hmap, hwrite'⟩ := bitmapWrite_both fm hm hst hnd hlock
      (hcnt'.trans hcnt) (isNote_allocations sector cnt)
    refine ⟨some (UInt32.ofNat sector), fs', ⟨b', some f'⟩, ?_, ?_, hmap.symm⟩
    · rw [hm.file] at hwrite
      simp only [hsets, some_bind, hm.file, hwrite, if_true]
    · simp only [hset, some_bind, hwrite', if_true]

theorem freeMapRelease_refines {sector : Sector} (hused : Group b.toBits sector.toNat cnt true) :
    ∃ fs' s', FileSys.freeMapRelease fm fs sector cnt = some fs' ∧
      freeMapRelease (inodeFile d0 fm FREE_MAP_SECTOR) ⟨b, some fs⟩ sector cnt = some s' ∧
      s'.freeMap.toBits = fs'.freeMap := by
  have hcnt : b.bitCnt = fs.freeMap.length := by rw [← hbits, b.length_toBits]
  have hle : sector.toNat + cnt ≤ b.bitCnt := by simpa using hused.1
  have hclear : bitmapContains b.toBits sector.toNat cnt false = false :=
    (bitmapContains_not true hused.1).mpr hused
  obtain ⟨b', hset, hcnt', hsets⟩ := b.setMultiple_refines false hle
  obtain ⟨fs', f', hwrite, hmap, hwrite'⟩ := bitmapWrite_both fm hm hst hnd hlock
    (hcnt'.trans hcnt) (isNote_releases sector.toNat cnt)
  refine ⟨fs', ⟨b', some f'⟩, ?_, ?_, hmap.symm⟩
  · rw [hm.file] at hwrite
    unfold FileSys.freeMapRelease bitmapAll
    simp only [← hbits, if_pos hused.1, hclear, hsets, hm.file, hwrite, some_bind, Bool.not_false, if_true]
  · unfold freeMapRelease Bitmap.all
    simp only [b.contains_refines false hle, hclear, hset, hwrite', some_bind, Bool.not_false, if_true]

end

end

end Pintos.FileSys.MapOnDisk
