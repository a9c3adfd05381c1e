import Pintos.FileSys.EntryTable
import Pintos.FileSys.Reclaim

/-!
# The directories of a volume

`FS.dirTable` is what the bytes of a directory on the volume hold, and
`dirReader` connects the loops of `directory.c` to it: `lookup_spec` and
`scanEntries_spec` for the inodes of the file system.
-/

namespace Pintos.FileSys

open Lib

def FS.dirTable (fs : FS) (d : Sector) : EntryTable where
  slots := (fs.node d).length.toNat / DIR_ENTRY_SIZE
  entry := fun k j => fs.byte d (DIR_ENTRY_SIZE * k + j)

/-- The name and the sector in slot `k` of a directory, if it is in use. -/
def FS.entryAt (fs : FS) (d : Sector) (k : Nat) : Option (CString × Sector) :=
  (fs.dirTable d).at? k

structure Reads (d0 : Disk) (fs fs' : FS) : Prop where
  vol : Vol d0 fs'
  rest : SameRest fs fs'
  view : fs'.store.view = fs.store.view
  quiet : Quiet fs fs'

section
variable {d0 : Disk} {fs fs' fs'' : FS} {d : Sector} {ino : Inode}

theorem Reads.refl (h : Vol d0 fs) : Reads d0 fs fs := ⟨h, SameRest.refl fs, rfl, Quiet.refl fs⟩

theorem Reads.trans (h : Reads d0 fs fs') (h' : Reads d0 fs' fs'') : Reads d0 fs fs'' :=
  ⟨h'.vol, h.rest.trans h'.rest, h'.view.trans h.view, h.quiet.trans h'.quiet⟩

theorem Reads.dirTable (h : Reads d0 fs fs') : fs'.dirTable = fs.dirTable := by
  unfold FS.dirTable
  rw [h.rest.byte_eq h.view, h.rest.node_eq h.view]

theorem reads_uninitBytes (h : Vol d0 fs) : Reads d0 fs fs.uninitBytes.2 :=
  ⟨{ h with store := { h.store with } }, (by constructor <;> rfl), rfl,
    (show SameRest fs fs.uninitBytes.2 from (by constructor <;> rfl)).quiet rfl
      (fun _ hs => Or.inl hs)⟩

theorem readEntry_spec (h : Vol d0 fs) (hino : fs.inode? d = some ino)
    (hshown : ino.lengthShown = ino.length) (e : Buffer) (k : Nat) :
    ∃ read e' fs', inodeReadAt fs d e DIR_ENTRY_SIZE (DIR_ENTRY_SIZE * k : Nat) =
        some (read, e', fs') ∧ Reads d0 fs fs' ∧
      (k < (fs.dirTable d).slots → read = DIR_ENTRY_SIZE ∧ SameEntry e' ((fs.dirTable d).entry k)) ∧
      (k = (fs.dirTable d).slots → read ≠ DIR_ENTRY_SIZE) := by
  have hnode := FS.node_of_open hino
  have hlen := (h.coreOk_open hino).nonneg
  obtain ⟨fs', heq, hvol, hrest, hview, hq⟩ := inodeReadAt_spec h hino e
    DIR_ENTRY_SIZE (DIR_ENTRY_SIZE * k : Nat) (by omega) rfl
  have hslots : (fs.dirTable d).slots = ino.length.toNat / 20 := by
    simp only [FS.dirTable, hnode, DIR_ENTRY_SIZE]
  refine ⟨_, _, fs', heq, ⟨hvol, hrest, hview, hq⟩, ?_, ?_⟩
  · intro hlt
    have hcnt : (min (DIR_ENTRY_SIZE : Int) (ino.lengthShown - (DIR_ENTRY_SIZE * k : Nat))).toNat =
        20 := by
      unfold DIR_ENTRY_SIZE
      omega
    rw [hcnt]
    refine ⟨rfl, fun j hj => ?_⟩
    unfold DIR_ENTRY_SIZE at hj
    rw [fileCopy, if_pos (by omega)]
    simp only [FS.dirTable, FS.byte, hnode]
    congr 1
  · intro hk
    unfold DIR_ENTRY_SIZE
    omega

end

/-- The directory is open and a reader sees all of it. -/
structure DirOpen (d0 : Disk) (fs : FS) (d : Sector) : Prop where
  vol : Vol d0 fs
  opened : ∃ ino, fs.inode? d = some ino ∧ ino.lengthShown = ino.length

/-- The loops of `directory.c` on an open directory of the volume. -/
def dirReader (d0 : Disk) (d : Sector) : DirReader inodeOps d where
  Ok fs := DirOpen d0 fs d
  Reads := Reads d0
  table fs := fs.dirTable d
  refl _ h := Reads.refl h.vol
  trans := Reads.trans
  ok := by
    rintro fs fs' ⟨-, ino, hino, hshown⟩ hreads
    exact ⟨hreads.vol, ino, (hreads.rest.inode? d).trans hino, hshown⟩
  same := by
    intro fs fs' hreads
    rw [hreads.dirTable]
    exact EntryTable.Same.refl _
  readable := by
    rintro fs ⟨-, ino, hino, hshown⟩
    refine ⟨_, congrArg (Option.map _) hino, ?_⟩
    simp only [FS.dirTable, FS.node_of_open hino, hshown]
  uninit h := reads_uninitBytes h.vol
  read := by
    rintro fs ⟨hvol, ino, hino, hshown⟩ e k
    exact readEntry_spec hvol hino hshown e k

end Pintos.FileSys
