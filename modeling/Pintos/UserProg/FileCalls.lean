import Pintos.FileSys.PathCalls

/-!
# System calls with a path (`userprog/syscall.c`)

The path is a string in the user's memory, so `string_validate` is true of it, and the -1 that it
returns for the empty string is true as well. `check_page` looks at `initial_size` bytes from the
path on; `checked` tells whether it returns. A `struct file_entry` can always be had.

There is no value where an assertion fails.
-/

namespace Pintos.UserProg

open Lib FileSys

/-- What the calls use of `struct thread`. -/
structure FileThread where
  currentDir : Option Sector
  fdVld : Nat
  /-- The entries of `list_file`: the descriptor, and the inode of the file. -/
  listFile : List (Nat × Sector)

/-- A call returns, or it ends the process with `exit (-1)`. -/
inductive Ended where
  | returned (eax : Int)
  | exited
deriving DecidableEq

namespace FileThread

def create (t : FileThread) (fs : FS) (file : CString) (initialSize : UInt32) (checked : Bool) :
    Option (Ended × FS) :=
  if file.length > 14 then some (.returned 0, fs)
  else if !checked then some (.exited, fs)
  else do
    let (success, fs) ← filesysCreate fs t.currentDir file (i32 initialSize.toNat) false
    some (.returned success.toInt, fs)

def remove (t : FileThread) (fs : FS) (file : CString) : Option (Ended × FS) :=
  -- ASSERT (0)
  if file.length > 14 then none
  else do
    let (success, fs) ← filesysRemove fs t.currentDir file
    some (.returned success.toInt, fs)

def mkdir (t : FileThread) (fs : FS) (dir : CString) : Option (Bool × FS) :=
  filesysCreate fs t.currentDir dir 0 true

/-- A process that has opened nothing, in the root directory. -/
def first : FileThread := ⟨none, 3, []⟩

end FileThread

end Pintos.UserProg
