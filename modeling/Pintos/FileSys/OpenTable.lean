import Pintos.FileSys.State
import Pintos.Lib.Keyed

/-!
# The list of open inodes

`inode_open` never puts two structs of one sector into the list
(`OpenNodup`), so a lookup by sector finds the struct that an assignment
through a pointer changes.
-/

namespace Pintos.FileSys

open Lib

def OpenNodup (fs : FS) : Prop := (fs.openInodes.map Inode.sector).Nodup

variable {fs : FS} {ino ino' : Inode} {i : Sector}

theorem inode?_mem (h : fs.inode? i = some ino) : ino ∈ fs.openInodes :=
  List.mem_of_find?_eq_some h

theorem inode?_sector (h : fs.inode? i = some ino) : ino.sector = i := by
  have := List.find?_some h
  simpa using this

theorem inode?_eq_none_iff : fs.inode? i = none ↔ i ∉ fs.openInodes.map Inode.sector :=
  find?_key_eq_none

theorem OpenNodup.congr {fs' : FS} (h : OpenNodup fs) (ho : fs'.openInodes = fs.openInodes) :
    OpenNodup fs' := by
  unfold OpenNodup
  rw [ho]
  exact h

theorem OpenNodup.setInode (h : OpenNodup fs) (ino : Inode) : OpenNodup (fs.setInode ino) := by
  show ((replaceKey Inode.sector fs.openInodes ino).map Inode.sector).Nodup
  rw [map_key_replace]
  exact h

theorem inode?_setInode (h : fs.inode? i = some ino) (hi : ino'.sector = i) (j : Sector) :
    (fs.setInode ino').inode? j = if j = i then some ino' else fs.inode? j := by
  subst hi
  apply find?_key_replace
  rw [← inode?_sector h]
  exact List.mem_map_of_mem (inode?_mem h)

theorem setInode_setInode (fs : FS) (ino ino' : Inode) (h : ino.sector = ino'.sector) :
    (fs.setInode ino).setInode ino' = fs.setInode ino' := by
  show { fs with openInodes := _ } = { fs with openInodes := _ }
  congr 1
  exact replaceKey_replaceKey h

theorem setInode_self (hnd : OpenNodup fs) (h : fs.inode? i = some ino) :
    fs.setInode ino = fs := by
  show { fs with openInodes := replaceKey Inode.sector fs.openInodes ino } = fs
  rw [replaceKey_self hnd (inode?_mem h)]

theorem OpenNodup.removeInode (h : OpenNodup fs) (i : Sector) : OpenNodup (fs.removeInode i) :=
  List.Nodup.sublist (List.Sublist.map _ List.eraseP_sublist) h

theorem inode?_removeInode (hnd : OpenNodup fs) (i j : Sector) :
    (fs.removeInode i).inode? j = if j = i then none else fs.inode? j :=
  find?_key_erase hnd i j

end Pintos.FileSys
