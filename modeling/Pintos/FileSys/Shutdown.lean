import Pintos.FileSys.System

/-!
# Shutting down and starting again

`filesys_done` writes the cache back and closes the free map. The disk then holds
every byte that was written, but an inode that is still open is in memory only:
its new length and its new blocks are stored by the last `inode_close`, which
does not come.
-/

namespace Pintos.FileSys

open Lib List Option Function

/-- The log after a restart: the inodes that were removed while they were open are gone. -/
def survivors (fs : FS) : List Access :=
  (fs.openInodes.filter (·.removed)).map (fun e => .release e.sector) ++ fs.log

/-! ## The state after `filesys_done` -/

section
variable {d0 : Disk} {fs fs' : FS} {i : Sector} {ino : Inode}

/-- The volume of `fs` on its disk only, with the map that the file of the free map holds. -/
def FS.onDisk (fs : FS) (garbage : Nat → Nat → UInt32) : FS :=
  { store := cacheInit fs.store.disk
    freeMap := fs.freeMap
    freeMapFile := some FREE_MAP_SECTOR
    openInodes := []
    locked := fun _ => false
    garbage := garbage
    garbagePos := 0
    log := survivors fs }

/-- What the disk shows of the files. -/
structure Kept (fs fs' : FS) : Prop where
  live : ∀ i, i ∈ fs'.live ↔ i ∈ fs.live ∧ ¬ fs.isRemoved i
  node : ∀ i ∈ fs'.live, fs'.node i = fs.node i
  view : fs'.store.view = fs.store.view
  freeMap : fs'.freeMap = fs.freeMap

theorem Kept.byte (h : Kept fs fs') (hi : i ∈ fs'.live) (k : Nat) : fs'.byte i k = fs.byte i k := by
  unfold FS.byte
  rw [h.view, h.node i hi]

theorem Kept.place (h : Kept fs fs') {l : Place} (hl : l.1 ∈ fs'.live) :
    fs'.place l = fs.place l := by
  obtain ⟨i, a⟩ := l
  cases a with
  | none => rfl
  | some a => rw [FS.place, FS.place, h.view, h.node i hl]

theorem Kept.taken (h : Kept fs fs') {l : Place} (hl : l ∈ fs'.taken) : l ∈ fs.taken :=
  ⟨((h.live _).mp hl.1).1, fun a ha => by rw [← h.node _ hl.1]; exact hl.2 a ha⟩

end

namespace Sys

end Sys

end Pintos.FileSys
