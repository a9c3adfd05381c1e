import Pintos.VM.FailedMap

/-!
# Executables (`userprog/process.c`: the headers and `validate_segment`)

The file that `load` reads is a `File`: the bytes up to `length_shown`, which is as far as
`file_read` goes. `file_length` is the `length` of the inode, which may be larger.

`Phdr.pages` is what `load_segment` is to register for a segment: one entry a page, with the bytes
to read at the start of the segment and zeros after them.
-/

namespace Pintos.UserProg

open VM List

/-! ## Headers -/

def fileRead (f : File) (pos size : Nat) : Nat := min size (f.length - pos)

def half (f : File) (pos : Nat) : Nat := (f.byte pos).toNat + 256 * (f.byte (pos + 1)).toNat

/-- An `Elf32_Word`, `Elf32_Addr` or `Elf32_Off` of the file. -/
def word (f : File) (pos : Nat) : UInt32 := UInt32.ofNat (half f pos + 65536 * half f (pos + 2))

/-- The fields of `struct Elf32_Ehdr` that `load` reads. -/
structure Ehdr where
  ident : List UInt8
  type : Nat
  machine : Nat
  version : UInt32
  entry : UInt32
  phoff : UInt32
  phentsize : Nat
  phnum : Nat

def EHDR_SIZE : Nat := 52

def PHDR_SIZE : Nat := 32

def readEhdr (f : File) (pos : Nat) : Ehdr where
  ident := (List.range 16).map fun k => f.byte (pos + k)
  type := half f (pos + 16)
  machine := half f (pos + 18)
  version := word f (pos + 20)
  entry := word f (pos + 24)
  phoff := word f (pos + 28)
  phentsize := half f (pos + 42)
  phnum := half f (pos + 44)

def ELF_MAGIC : List UInt8 := [0x7f, 0x45, 0x4c, 0x46, 1, 1, 1]

def Ehdr.isElf (e : Ehdr) : Bool := e.ident.take 7 = ELF_MAGIC

/-- The tests `load` makes of a header it has read. -/
def Ehdr.verified (e : Ehdr) : Bool :=
  e.isElf && e.type = 2 && e.machine = 3 && e.version = 1 && e.phentsize = PHDR_SIZE && e.phnum ≤ 1024

/-- The fields of `struct Elf32_Phdr` that `load` reads. -/
structure Phdr where
  type : UInt32
  offset : UInt32
  vaddr : UInt32
  filesz : UInt32
  memsz : UInt32
  flags : UInt32

def readPhdr (f : File) (pos : Nat) : Phdr where
  type := word f pos
  offset := word f (pos + 4)
  vaddr := word f (pos + 8)
  filesz := word f (pos + 16)
  memsz := word f (pos + 20)
  flags := word f (pos + 24)

def PT_LOAD : UInt32 := 1
def PT_DYNAMIC : UInt32 := 2
def PT_INTERP : UInt32 := 3
def PT_SHLIB : UInt32 := 5
def PF_W : UInt32 := 2
def PGMASK : UInt32 := 0xfff

/-! ## Segments -/

/-- `validate_segment`; `fileLength` is `file_length (file)`. -/
def validateSegment (phdr : Phdr) (fileLength : Nat) : Bool :=
  if phdr.offset &&& PGMASK ≠ phdr.vaddr &&& PGMASK then false
  else if phdr.offset > UInt32.ofNat fileLength then false
  else if phdr.memsz < phdr.filesz then false
  else if phdr.memsz = 0 then false
  else if !isUserVaddr phdr.vaddr then false
  else if !isUserVaddr (phdr.vaddr + phdr.memsz) then false
  else if phdr.vaddr + phdr.memsz < phdr.vaddr then false
  else if phdr.vaddr < PGSIZE then false
  else true

namespace Phdr

def writable (phdr : Phdr) : Bool := phdr.flags &&& PF_W ≠ 0
def filePage (phdr : Phdr) : UInt32 := phdr.offset &&& ~~~PGMASK
def memPage (phdr : Phdr) : UInt32 := phdr.vaddr &&& ~~~PGMASK
def pageOffset (phdr : Phdr) : UInt32 := phdr.vaddr &&& PGMASK

/-- `ROUND_UP (page_offset + phdr.p_memsz, PGSIZE)` -/
def roundedSize (phdr : Phdr) : UInt32 :=
  (phdr.pageOffset + phdr.memsz + PGSIZE - 1) / PGSIZE * PGSIZE

def readBytes (phdr : Phdr) : UInt32 := if phdr.filesz > 0 then phdr.pageOffset + phdr.filesz else 0

def zeroBytes (phdr : Phdr) : UInt32 :=
  if phdr.filesz > 0 then phdr.roundedSize - phdr.readBytes else phdr.roundedSize

end Phdr

structure Valid (phdr : Phdr) (fileLength : Nat) : Prop where
  aligned : phdr.offset.toNat % 4096 = phdr.vaddr.toNat % 4096
  inFile : phdr.offset.toNat ≤ fileLength
  filesz : phdr.filesz.toNat ≤ phdr.memsz.toNat
  memsz : 0 < phdr.memsz.toNat
  user : phdr.vaddr.toNat + phdr.memsz.toNat < 3221225472

section
variable {phdr : Phdr} {fileLength : Nat}

theorem and_pgmask (a : UInt32) : (a &&& PGMASK).toNat = a.toNat % 4096 := Mem.pgOfs_eq a

theorem and_not_pgmask (a : UInt32) : (a &&& ~~~PGMASK).toNat = a.toNat / 4096 * 4096 := Mem.pgRoundDown_toNat a

theorem valid_of_validateSegment (hlen : fileLength < 2147483648)
    (h : validateSegment phdr fileLength = true) : Valid phdr fileLength := by
  unfold validateSegment at h
  simp only [Bool.if_false_left, Bool.and_eq_true, Bool.not_eq_true', decide_eq_false_iff_not, not_not,
    and_true] at h
  obtain ⟨hofs, hin, hsz, h0, -, huser, hwrap, -⟩ := h
  have hadd := UInt32.toNat_add phdr.vaddr phdr.memsz
  have hend : (phdr.vaddr + phdr.memsz).toNat < 3221225472 := by
    rw [Bool.not_eq_false, isUserVaddr, decide_eq_true_eq] at huser
    exact UInt32.lt_iff_toNat_lt.mp huser
  have hge : phdr.vaddr.toNat ≤ (phdr.vaddr + phdr.memsz).toNat :=
    UInt32.le_iff_toNat_le.mp (UInt32.not_lt.mp hwrap)
  have hv := phdr.vaddr.toNat_lt
  have hm := phdr.memsz.toNat_lt
  refine ⟨?_, ?_, UInt32.le_iff_toNat_le.mp (UInt32.not_lt.mp hsz), ?_, by omega⟩
  · rw [← and_pgmask, ← and_pgmask, hofs]
  · have hle := UInt32.le_iff_toNat_le.mp (UInt32.not_lt.mp hin)
    rwa [UInt32.toNat_ofNat_of_lt' (show fileLength < 4294967296 by omega)] at hle
  · exact Nat.pos_of_ne_zero fun hzero => h0 (UInt32.toNat.inj hzero)

def Phdr.pageCnt (phdr : Phdr) : Nat := (phdr.vaddr.toNat % 4096 + phdr.memsz.toNat + 4095) / 4096

theorem Phdr.toNat_filePage (phdr : Phdr) : phdr.filePage.toNat = phdr.offset.toNat / 4096 * 4096 :=
  and_not_pgmask _

theorem Phdr.toNat_memPage (phdr : Phdr) : phdr.memPage.toNat = phdr.vaddr.toNat / 4096 * 4096 :=
  and_not_pgmask _

theorem Phdr.filesz_pos_iff (phdr : Phdr) : phdr.filesz > 0 ↔ 0 < phdr.filesz.toNat :=
  UInt32.lt_iff_toNat_lt

theorem Valid.toNat_readBytes (h : Valid phdr fileLength) : phdr.readBytes.toNat =
    if 0 < phdr.filesz.toNat then phdr.vaddr.toNat % 4096 + phdr.filesz.toNat else 0 := by
  have huser := h.user
  have hsz := h.filesz
  unfold Phdr.readBytes
  split
  · rename_i hpos
    rw [if_pos (phdr.filesz_pos_iff.mp hpos), UInt32.toNat_add, Phdr.pageOffset, and_pgmask]
    exact Nat.mod_eq_of_lt (by omega)
  · rename_i hpos
    rw [if_neg (mt phdr.filesz_pos_iff.mpr hpos)]
    rfl

theorem Valid.toNat_roundedSize (h : Valid phdr fileLength) :
    phdr.roundedSize.toNat = 4096 * phdr.pageCnt := by
  have huser := h.user
  have hmod : phdr.vaddr.toNat % 4096 < 4096 := Nat.mod_lt _ (by decide)
  have hsum : (phdr.pageOffset + phdr.memsz + PGSIZE - 1).toNat =
      phdr.vaddr.toNat % 4096 + phdr.memsz.toNat + 4095 := by
    have hadd : (phdr.pageOffset + phdr.memsz + PGSIZE).toNat =
        phdr.vaddr.toNat % 4096 + phdr.memsz.toNat + 4096 := by
      rw [UInt32.toNat_add, UInt32.toNat_add, Phdr.pageOffset, and_pgmask, show PGSIZE.toNat = 4096 from rfl]
      omega
    rw [UInt32.toNat_sub_of_le _ _ (UInt32.le_iff_toNat_le.mpr (by rw [hadd]; show 1 ≤ _; omega)), hadd]
    show _ - 1 = _
    omega
  unfold Phdr.roundedSize Phdr.pageCnt
  rw [UInt32.toNat_mul, UInt32.toNat_div, hsum, show PGSIZE.toNat = 4096 from rfl]
  omega

/-- **The sizes of a segment** that `load` passes on: whole pages, that end below `PHYS_BASE`. -/
theorem Valid.sizes (h : Valid phdr fileLength) :
    phdr.readBytes.toNat + phdr.zeroBytes.toNat = 4096 * phdr.pageCnt ∧
      phdr.memPage.toNat + 4096 * phdr.pageCnt ≤ 3221225472 := by
  have huser := h.user
  have hsz := h.filesz
  have hround := h.toNat_roundedSize
  have hread := h.toNat_readBytes
  have hle : phdr.readBytes.toNat ≤ phdr.roundedSize.toNat := by
    rw [hround, hread, Phdr.pageCnt]
    split <;> omega
  refine ⟨?_, ?_⟩
  · rw [← hround]
    unfold Phdr.zeroBytes
    split
    · rw [UInt32.toNat_sub_of_le _ _ (UInt32.le_iff_toNat_le.mpr hle)]
      omega
    · rename_i hpos
      rw [hread, if_neg (mt phdr.filesz_pos_iff.mpr hpos)]
      omega
  · rw [phdr.toNat_memPage, Phdr.pageCnt]
    omega

/-! ## The pages of a segment -/

/-- The entry of a page of the file, as `load_segment` has it allocated. The offset wraps around
where a segment goes on for long after the end of its file. -/
def segmentPage (file : Nat) (writable : Bool) (ofs upage readBytes : Nat) : Spte :=
  ⟨UInt32.ofNat upage, readBytes, 4096 - readBytes, false, file, ofs % 4294967296, writable, false, .file,
    none, 0⟩

/-- `n` pages from `upage` on, with `readBytes` bytes from `ofs` on and then zeros. -/
def segmentPages (file : Nat) (writable : Bool) : Nat → (ofs upage readBytes : Nat) → List Spte
  | 0, _, _, _ => []
  | n + 1, ofs, upage, readBytes =>
    segmentPage file writable ofs upage (min readBytes 4096) ::
      segmentPages file writable n (ofs + min readBytes 4096) (upage + 4096) (readBytes - min readBytes 4096)

def Phdr.pages (file : Nat) (phdr : Phdr) : List Spte :=
  segmentPages file phdr.writable phdr.pageCnt phdr.filePage.toNat phdr.memPage.toNat phdr.readBytes.toNat

variable {file : Nat} {writable : Bool}

theorem segmentPages_eq (n ofs upage readBytes : Nat) :
    segmentPages file writable n ofs upage readBytes = (List.range n).map fun k =>
      segmentPage file writable (ofs + min readBytes (4096 * k)) (upage + 4096 * k)
        (min (readBytes - 4096 * k) 4096) := by
  induction n generalizing ofs upage readBytes with
  | zero => rfl
  | succ n ih =>
    rw [segmentPages, ih, range_succ_eq_map, map_cons, map_map]
    rw [Nat.mul_zero, Nat.min_zero, Nat.sub_zero]
    refine congrArg _ (map_congr_left fun k _ => ?_)
    have hofs : ofs + min readBytes 4096 + min (readBytes - min readBytes 4096) (4096 * k) =
        ofs + min readBytes (4096 * k + 4096) := by omega
    have hleft : readBytes - min readBytes 4096 - 4096 * k = readBytes - (4096 * k + 4096) := by omega
    rw [Function.comp_apply, Nat.mul_succ, hofs, hleft, Nat.add_assoc upage, Nat.add_comm 4096]

theorem Phdr.pages_eq (file : Nat) (phdr : Phdr) :
    phdr.pages file = (List.range phdr.pageCnt).map fun k => segmentPage file phdr.writable
      (phdr.filePage.toNat + min phdr.readBytes.toNat (4096 * k)) (phdr.memPage.toNat + 4096 * k)
      (min (phdr.readBytes.toNat - 4096 * k) 4096) :=
  segmentPages_eq ..

theorem segmentPages_mod (n ofs upage readBytes : Nat) :
    segmentPages file writable n (ofs % 4294967296) upage readBytes =
      segmentPages file writable n ofs upage readBytes := by
  induction n generalizing ofs upage readBytes with
  | zero => rfl
  | succ n ih =>
    rw [segmentPages, segmentPages, segmentPage, segmentPage, Nat.mod_mod,
      ← ih (ofs % 4294967296 + min readBytes 4096), Nat.mod_add_mod, ih]

/-- What is to be registered for a segment: the pages from that of `p_vaddr` up to `p_vaddr +
p_memsz`, with the bytes of the file and then zeros. -/
structure LaidOut (phdr : Phdr) (es : List Spte) : Prop where
  addresses : es.map (·.userVaddr.toNat) =
    (List.range phdr.pageCnt).map (phdr.vaddr.toNat / 4096 * 4096 + 4096 * ·)
  ends : phdr.vaddr.toNat / 4096 * 4096 + 4096 * phdr.pageCnt =
    (phdr.vaddr.toNat + phdr.memsz.toNat + 4095) / 4096 * 4096
  user : ∀ e ∈ es, e.userVaddr < PHYS_BASE
  full : ∀ e ∈ es, e.readBytes + e.zeroBytes = 4096
  read : ∀ e ∈ es, ∀ i < phdr.filesz.toNat,
    e.userVaddr.toNat = (phdr.vaddr.toNat + i) / 4096 * 4096 →
    (phdr.vaddr.toNat + i) % 4096 < e.readBytes ∧
      (e.offset + (phdr.vaddr.toNat + i) % 4096) % 4294967296 = (phdr.offset.toNat + i) % 4294967296
  zero : ∀ e ∈ es, ∀ i < phdr.memsz.toNat, phdr.filesz.toNat ≤ i →
    e.userVaddr.toNat = (phdr.vaddr.toNat + i) / 4096 * 4096 →
    e.readBytes ≤ (phdr.vaddr.toNat + i) % 4096

theorem Valid.laidOut (h : Valid phdr fileLength) (file : Nat) : LaidOut phdr (phdr.pages file) := by
  have hend := h.sizes.2
  have hread := h.toNat_readBytes
  have haligned := h.aligned
  have hva : ∀ k < phdr.pageCnt, (UInt32.ofNat (phdr.memPage.toNat + 4096 * k)).toNat =
      phdr.vaddr.toNat / 4096 * 4096 + 4096 * k := by
    intro k hk
    rw [UInt32.toNat_ofNat_of_lt' (show _ < 4294967296 by omega), phdr.toNat_memPage]
  rw [phdr.toNat_memPage] at hend
  rw [phdr.pages_eq]
  refine ⟨?_, by rw [Phdr.pageCnt]; omega, ?_, ?_, ?_, ?_⟩
  · rw [map_map]
    exact map_congr_left fun k hk => hva k (mem_range.mp hk)
  all_goals
    intro e he
    obtain ⟨k, hk, rfl⟩ := mem_map.mp he
    rw [mem_range] at hk
    replace hva := hva k hk
  · refine UInt32.lt_iff_toNat_lt.mpr (?_ : (UInt32.ofNat _).toNat < 3221225472)
    omega
  · exact Nat.add_sub_cancel' (Nat.min_le_right _ _)
  · -- the page of a byte of the file has not wrapped around, and is full up to that byte
    intro i hi hpage
    have hk' := hva.symm.trans hpage
    rw [if_pos (by omega)] at hread
    refine ⟨(?_ : _ < min _ 4096), ?_⟩
    · omega
    · show ((phdr.filePage.toNat + min _ _) % 4294967296 + _) % _ = _
      rw [phdr.toNat_filePage]
      omega
  · intro i hi hge hpage
    have hk' := hva.symm.trans hpage
    refine (?_ : min _ 4096 ≤ _)
    split at hread <;> omega

/-- The bytes of the pages are those of the segment: they lie within the first `L` bytes of the
file iff the segment does. The first page that goes beyond them has an offset that has not
wrapped around. -/
theorem Phdr.pages_within_iff {L : Nat} (h : Valid phdr fileLength) (file : Nat) (hL : L < 2147483648) :
    (∀ e ∈ phdr.pages file, 0 < e.readBytes → e.offset + e.readBytes ≤ L) ↔
      (0 < phdr.filesz.toNat → phdr.offset.toNat + phdr.filesz.toNat ≤ L) := by
  have hread := h.toNat_readBytes
  have hsizes := h.sizes.1
  have haligned := h.aligned
  have hfile := phdr.toNat_filePage
  have hlt := phdr.filePage.toNat_lt
  rw [phdr.pages_eq, forall_mem_map]
  show (∀ k ∈ _, 0 < min _ 4096 → (_ + min _ _) % 4294967296 + min _ 4096 ≤ L) ↔ _
  constructor
  · intro hall hpos
    rw [if_pos hpos] at hread
    by_contra hlong
    have hk := hall ((L - phdr.filePage.toNat) / 4096) (mem_range.mpr (by omega))
    omega
  · intro hin k _ hpos
    split at hread <;> omega

end

end Pintos.UserProg
