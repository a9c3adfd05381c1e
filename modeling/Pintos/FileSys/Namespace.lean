import Pintos.FileSys.Entries
import Pintos.Lib.DirTree

/-!
# The directory tree of a volume

`FS.tree` reads the live inodes and the entries of the directories as a tree of
`Pintos.Lib.DirTree`. `NamespaceOk` says that it is well-formed; the inodes that are
live without an entry are the free map, the files that have been removed while
they are open, and during a call the inode it is working on.
-/

namespace Pintos.FileSys

open Lib

def FS.isDirectory (fs : FS) (d : Sector) : Prop := d ∈ fs.live ∧ (fs.node d).isDir = 1

open Classical in
noncomputable def FS.tree (fs : FS) : DirTree Sector CString where
  live := fs.live
  dir := {d | fs.isDirectory d}
  parent := fun d => (fs.node d).parent
  slot := fun d k => if fs.isDirectory d then fs.entryAt d k else none

def FS.names (fs : FS) : Set CString := {n | ∃ d k s, fs.tree.slot d k = some (n, s)}

/-- The inodes that need no entry. -/
def FS.loose (fs : FS) : Set Sector := {i | i = FREE_MAP_SECTOR ∨ fs.isRemoved i}

/-- The file system is mounted and its directories form a tree, but for the
inodes `X`. -/
structure NamespaceOk (d0 : Disk) (fs : FS) (X : Set Sector) : Prop where
  mounted : Mounted d0 fs
  wf : fs.tree.WF ROOT_DIR_SECTOR (X ∪ fs.loose)
  regular : ∀ i, fs.isRemoved i → (fs.node i).isDir = 0
  rootParent : (fs.node ROOT_DIR_SECTOR).parent = 0
  present : ¬ fs.isRemoved FREE_MAP_SECTOR

section
variable {d0 : Disk} {fs fs' : FS} {d : Sector} {X E : Set Sector}

@[simp] theorem FS.tree_live (fs : FS) : fs.tree.live = fs.live := rfl

@[simp] theorem FS.mem_tree_dir : d ∈ fs.tree.dir ↔ fs.isDirectory d := Iff.rfl

theorem FS.tree_slot (h : fs.isDirectory d) (k : Nat) : fs.tree.slot d k = fs.entryAt d k :=
  if_pos h

theorem FS.tree_slot_none (h : ¬ fs.isDirectory d) (k : Nat) : fs.tree.slot d k = none :=
  if_neg h

theorem Vol.removed_live (h : Vol d0 fs) (hr : fs.isRemoved d) : d ∈ fs.live := by
  obtain ⟨ino, hino, -⟩ := hr
  exact (h.opened d ino hino).1

theorem Mounted.directory_ne (h : Mounted d0 fs) (hd : fs.isDirectory d) :
    d ≠ FREE_MAP_SECTOR := by
  rintro rfl
  have := hd.2
  rw [h.regular] at this
  cases this

/-! ## What a call leaves of the tree -/

section
variable (h : Frame fs fs' E)
include h

theorem Frame.isDirectory (hd : d ∉ E) :
    fs'.isDirectory d ↔ fs.isDirectory d := by
  unfold FS.isDirectory
  rw [h.live d hd]
  constructor
  · rintro ⟨hl, hk⟩
    exact ⟨hl, by rw [← h.node d hl hd]; exact hk⟩
  · rintro ⟨hl, hk⟩
    exact ⟨hl, by rw [h.node d hl hd]; exact hk⟩

theorem Frame.slots (hd : d ∉ E) (hl : d ∈ fs.live) :
    (fs'.dirTable d).slots = (fs.dirTable d).slots := by
  unfold FS.dirTable
  rw [h.node d hl hd]

omit h in
theorem Vol.entry_sector (h : Vol d0 fs) (hl : d ∈ fs.live) {k j : Nat}
    (hk : k < (fs.dirTable d).slots) (hj : j < DIR_ENTRY_SIZE) :
    (DIR_ENTRY_SIZE * k + j) / 512 < (fs.node d).sectors := by
  refine (h.fileOk hl).div_lt ?_
  have := (h.core d hl).nonneg
  simp only [FS.dirTable, DIR_ENTRY_SIZE] at hk
  unfold DIR_ENTRY_SIZE at *
  omega

theorem Frame.dirTable (hv : Vol d0 fs) (hd : d ∉ E) (hl : d ∈ fs.live) (h0 : d ≠ FREE_MAP_SECTOR) :
    (fs.dirTable d).Same (fs'.dirTable d) :=
  ⟨h.slots hd hl, fun _ hk _ hj => h.byte d hl hd h0 _ (hv.entry_sector hl hk hj)⟩

theorem Frame.entryAt (hv : Vol d0 fs) (hd : d ∉ E) (hl : d ∈ fs.live) (h0 : d ≠ FREE_MAP_SECTOR)
    (k : Nat) : fs'.entryAt d k = fs.entryAt d k :=
  congrFun (h.dirTable hv hd hl h0).at?_eq k

theorem Frame.tree_slot (hm : Mounted d0 fs) (hd : d ∉ E) (k : Nat) :
    fs'.tree.slot d k = fs.tree.slot d k := by
  by_cases hdir : fs.isDirectory d
  · rw [FS.tree_slot hdir, FS.tree_slot ((h.isDirectory hd).mpr hdir)]
    exact h.entryAt hm.vol hd hdir.1 (hm.directory_ne hdir) k
  · rw [FS.tree_slot_none hdir, FS.tree_slot_none (fun hd' => hdir ((h.isDirectory hd).mp hd'))]

theorem Frame.names (hm : Mounted d0 fs) (hE : ∀ d ∈ E, ∀ k, fs'.tree.slot d k = none) :
    fs'.names ⊆ fs.names := by
  rintro n ⟨d, k, s, hk⟩
  have hd : d ∉ E := fun hd => by cases (hE d hd k).symm.trans hk
  exact ⟨d, k, s, (h.tree_slot hm hd k).symm.trans hk⟩

end

theorem Quiet.names (h : Quiet fs fs') (hm : Mounted d0 fs) : fs'.names ⊆ fs.names :=
  (h.frame ∅).names hm fun _ hd => hd.elim

theorem NamespaceOk.of_quiet (h : NamespaceOk d0 fs X) (hm : Mounted d0 fs') (hq : Quiet fs fs') :
    NamespaceOk d0 fs' X := by
  have hf := hq.frame ∅
  have hnot : ∀ i : Sector, i ∉ (∅ : Set Sector) := fun _ hi => hi
  have hroot : ROOT_DIR_SECTOR ∈ fs.live := h.wf.dir_live h.wf.root_dir
  refine ⟨hm, h.wf.congr hq.live ?_ ?_ ?_ ?_, ?_, ?_, fun hr => h.present ((hq.removed _).mp hr)⟩
  · ext d
    exact hf.isDirectory (hnot d)
  · intro d hd
    show (fs'.node d).parent = _
    rw [hq.node d hd.1]
    rfl
  · funext d k
    exact hf.tree_slot h.mounted (hnot d) k
  · intro x _
    have := hq.removed x
    simp only [Set.mem_union, FS.loose, Set.mem_ofPred_eq, this]
  · intro i hi
    have hi' := (hq.removed i).mp hi
    rw [hq.node i (h.mounted.vol.removed_live hi')]
    exact h.regular i hi'
  · rw [hq.node _ hroot]
    exact h.rootParent

end

end Pintos.FileSys
