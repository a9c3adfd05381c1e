import Pintos.FileSys.PathCalls

/-!
# A `filesys_create` that fails

When `dir_add` refuses a name, `filesys_create` gives back the sector of the new
inode and nothing else: the data and index sectors that `inode_create` has
allocated stay marked in the free map, and no inode refers to them.
-/

namespace Pintos.FileSys

open Lib

/-- The free map, the inodes and the contents of the files are as they were. -/
structure Untouched (fs fs' : FS) : Prop where
  freeMap : fs'.freeMap = fs.freeMap
  live : fs'.live = fs.live
  node : ∀ i ∈ fs.live, fs'.node i = fs.node i
  byte : ∀ i ∈ fs.live, ∀ k : Nat, (k : Int) < (fs.node i).length → fs'.byte i k = fs.byte i k

section
variable {d0 : Disk} {fs fs' fs'' : FS} {size : Int}

theorem Untouched.trans (h : Untouched fs fs') (h' : Untouched fs' fs'') : Untouched fs fs'' where
  freeMap := h'.freeMap.trans h.freeMap
  live := h'.live.trans h.live
  node := fun i hi => (h'.node i (h.live ▸ hi)).trans (h.node i hi)
  byte := by
    intro i hi k hk
    rw [h'.byte i (h.live ▸ hi) k (by rw [h.node i hi]; exact hk), h.byte i hi k hk]

variable {cwd : Option Sector} {name : CString}

end

end Pintos.FileSys
