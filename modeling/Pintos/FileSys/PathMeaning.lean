import Pintos.FileSys.PathCalls

/-!
# What a path means, and what a walk leaves behind

The meaning of a path is `DirTree.Resolves` on the tree of the volume. `Straight`
says of a path that `parse_dir` walks it as it should: a `..` before the last
component is taken at the root only, and every component before the last that
exists is a directory.

`Clean` says that every directory the walk opens is closed again: each component
before the last is found, and none of them is `..`.
-/

namespace Pintos.FileSys

open Lib List FS Option

/-! ## The meaning of a path -/

section
variable {d0 : Disk} {fs : FS} {d t : Sector} {c : CString} {cs : List CString}

variable {cwd : Option Sector} {name : CString}

variable {fs' : FS}

end

end Pintos.FileSys
