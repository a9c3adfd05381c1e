import Pintos.FileSys.Paths
import Pintos.FileSys.DirRemove
import Pintos.FileSys.Format

/-!
# `filesys_open`, `filesys_create` and `filesys_remove`

The calls on a file system whose directories form a tree. Each of them keeps the
tree (`Idle`), and each leaves the references open that the walk along its path
leaves (`FS.parse`).
-/

namespace Pintos.FileSys

open Lib List Set FS

/-! ## filesys_open -/

/-- What `filesys_open` returns, and the inodes that it opens besides. -/
def FS.openResult (fs : FS) (cwd : Option Sector) (name : CString) :
    Option Sector × List Sector :=
  if name = [] then (none, [])
  else
    match (fs.parse cwd name).1 with
    | none => fs.parse cwd name
    | some dir =>
      if parseFile name = DOT then fs.parse cwd name
      else if dir = ROOT_DIR_SECTOR ∧ parseFile name = [] then fs.parse cwd name
      else if parseFile name = DOTDOT then
        (none, (fs.node dir).parent :: (fs.parse cwd name).2)
      else ((fs.dirTable dir).find (parseFile name), (fs.parse cwd name).2)

section
variable {d0 : Disk} {fs fs₁ : FS} {cwd : Option Sector} {dir : Sector} {l : List Sector}

theorem Shift.walk_open (hsh : Shift d0 fs fs₁ (walkRefs (some dir, l))) (h : Idle d0 fs ∅) :
    0 < fs₁.openCount dir := by
  have := h.mounted.vol.openCount_nonneg dir
  rw [hsh.count]
  simp only [walkRefs, opened, ref, if_true]
  omega

theorem filesysOpen_spec (h : Idle d0 fs ∅) (hcwd : CwdOk fs cwd) (name : CString) :
    ∃ fs', filesysOpen fs cwd name = some ((fs.openResult cwd name).1, fs') ∧
      Shift d0 fs fs' (walkRefs (fs.openResult cwd name)) := by
  unfold filesysOpen FS.openResult
  by_cases hname : name = []
  · rw [if_pos (by rw [hname]; rfl), if_pos hname]
    exact ⟨fs, rfl, h.mounted, Quiet.refl fs, fun j => by simp [walkRefs, opened]⟩
  rw [if_neg fun hlen => hname (length_eq_zero_iff.mp hlen), if_neg hname]
  obtain ⟨fs₁, hparse, hsh1⟩ := parseDir_spec h hcwd name
  have hidle1 : Idle d0 fs₁ ∅ := h.shift hsh1
  simp only [hparse, some_bind]
  obtain ⟨r, l, hw⟩ : ∃ r l, fs.parse cwd name = (r, l) := ⟨_, _, rfl⟩
  have hdir : ∀ d, r = some d → fs.isDirectory d := by
    rintro d rfl
    exact h.walk_isDirectory _ (h.baseDir_isDirectory hcwd name) (congrArg Prod.fst hw)
  rw [hw] at hsh1 ⊢
  cases r with
  | none => exact ⟨fs₁, rfl, hsh1⟩
  | some dir =>
    have hd := hdir dir rfl
    have hd1 : fs₁.isDirectory dir := hsh1.isDirectory.mpr hd
    have hopen1 := hsh1.walk_open h
    simp only [openIn, length_eq_zero_iff]
    by_cases hdot : parseFile name = DOT
    · simp only [if_pos hdot]
      exact ⟨fs₁, rfl, hsh1⟩
    simp only [if_neg hdot]
    by_cases hroot : dir = ROOT_DIR_SECTOR ∧ parseFile name = []
    · simp only [if_pos hroot]
      exact ⟨fs₁, rfl, hsh1⟩
    simp only [if_neg hroot]
    by_cases hdotdot : parseFile name = DOTDOT
    · -- the parent is opened and the directory is closed
      simp only [if_pos hdotdot]
      obtain ⟨fs2, hparent, hsh2⟩ := dirGetParentInode_spec hidle1 hd1 hopen1
      rw [hsh1.quiet.node dir hd.1] at hparent hsh2
      have hopen2 : 0 < fs2.openCount dir := by
        rw [hsh2.count]
        unfold ref
        split <;> omega
      obtain ⟨fs3, hclose, hsh3⟩ :=
        (hidle1.shift hsh2).dirClose_shift (hsh2.isDirectory.mpr hd1) hopen2
      refine ⟨fs3, ?_, (hsh1.trans hsh2 fun _ => rfl).trans hsh3 fun j => ?_⟩
      · simp only [hparent, hclose, some_bind]
      · simp only [walkRefs, opened, ref, count_cons]
        by_cases hj : j = (fs.node dir).parent
        · rw [if_pos hj, if_pos (beq_iff_eq.mpr hj.symm)]
          omega
        · rw [if_neg hj, if_neg fun he => hj (beq_iff_eq.mp he).symm]
          omega
    · simp only [if_neg hdotdot]
      obtain ⟨fs2, hlook, hsh2⟩ := dirLookup_spec hidle1 hd1 hopen1 (parseFile name)
      rw [(hsh1.dirTable h.mounted hd).find_eq] at hlook hsh2
      have hopen2 : 0 < fs2.openCount dir := by
        rw [hsh2.count]
        cases (fs.dirTable dir).find (parseFile name) with
        | none => simpa [opened] using hopen1
        | some s =>
          simp only [opened, ref]
          split <;> omega
      obtain ⟨fs3, hclose, hsh3⟩ :=
        (hidle1.shift hsh2).dirClose_shift (hsh2.isDirectory.mpr hd1) hopen2
      refine ⟨fs3, ?_, (hsh1.trans hsh2 fun _ => rfl).trans hsh3 fun j => ?_⟩
      · simp only [hlook, hclose, some_bind]
      · simp only [walkRefs, opened]
        omega

/-! ## filesys_remove -/

variable {fs' : FS}

/-- What a call leaves behind: the references `l`, and a free map of the same size. -/
structure Leaves (fs fs' : FS) (l : List Sector) : Prop where
  count : ∀ j, fs'.openCount j = fs.openCount j + (l.count j : Int)
  size : fs'.freeMap.length = fs.freeMap.length

theorem parseDir_some (h : Idle d0 fs ∅) (hcwd : CwdOk fs cwd) {name : CString} {d : Sector}
    (hw : (fs.parse cwd name).1 = some d) :
    ∃ fs₁, parseDir fs cwd name = some (some d, fs₁) ∧
      Shift d0 fs fs₁ (walkRefs (some d, (fs.parse cwd name).2)) ∧ fs.isDirectory d ∧
      fs₁.isDirectory d ∧ 0 < fs₁.openCount d := by
  obtain ⟨fs₁, hparse, hsh⟩ := parseDir_spec h hcwd name
  have hd := h.walk_isDirectory _ (h.baseDir_isDirectory hcwd name) hw
  have hpair : fs.parse cwd name = (some d, (fs.parse cwd name).2) := by rw [← hw]
  rw [hw] at hparse
  rw [hpair] at hsh
  exact ⟨fs₁, hparse, hsh, hd, hsh.isDirectory.mpr hd, hsh.walk_open h⟩

theorem parseDir_none (h : Idle d0 fs ∅) (hcwd : CwdOk fs cwd) {name : CString}
    (hw : (fs.parse cwd name).1 = none) :
    ∃ fs₁, parseDir fs cwd name = some (none, fs₁) ∧ Idle d0 fs₁ ∅ ∧ Quiet fs fs₁ ∧
      Leaves fs fs₁ (fs.parse cwd name).2 := by
  obtain ⟨fs₁, hparse, hsh⟩ := parseDir_spec h hcwd name
  rw [hw] at hparse
  refine ⟨fs₁, hparse, h.shift hsh, hsh.quiet, fun j => ?_, by rw [hsh.quiet.freeMap]⟩
  rw [hsh.count, walkRefs, hw]
  simp [opened]

/-- The `dir_close` at the end: what is left is what the walk has left. -/
theorem Shift.finish {fs₂ : FS} {d : Sector} (hsh : Shift d0 fs fs₁ (walkRefs (some d, l)))
    (hidle : Idle d0 fs₂ ∅) (hd : fs₂.isDirectory d) (hopen : 0 < fs₁.openCount d)
    (hcount : ∀ j, fs₂.openCount j = fs₁.openCount j)
    (hsize : fs₂.freeMap.length = fs₁.freeMap.length) :
    ∃ fs₃, dirClose inodeOps fs₂ d = some fs₃ ∧ Idle d0 fs₃ ∅ ∧ Quiet fs₂ fs₃ ∧ Leaves fs fs₃ l := by
  obtain ⟨fs₃, hclose, hsh3⟩ := hidle.dirClose_shift hd (by rw [hcount]; exact hopen)
  refine ⟨fs₃, hclose, hidle.shift hsh3, hsh3.quiet, fun j => ?_,
    by rw [hsh3.quiet.freeMap, hsize, hsh.quiet.freeMap]⟩
  rw [hsh3.count, hcount, hsh.count]
  simp only [walkRefs, opened]
  omega

/-- **`filesys_remove`** keeps the tree, and changes nothing if it fails. -/
theorem filesysRemove_spec (h : Idle d0 fs ∅) (hcwd : CwdOk fs cwd) (name : CString) :
    ∃ success fs', filesysRemove fs cwd name = some (success, fs') ∧ Idle d0 fs' ∅ ∧
      Leaves fs fs' (fs.parse cwd name).2 ∧ (success = false → Quiet fs fs') ∧
      fs'.names ⊆ fs.names := by
  cases hw : (fs.parse cwd name).1 with
  | none =>
    obtain ⟨fs₁, hparse, hidle1, hq, hleaves⟩ := parseDir_none h hcwd hw
    refine ⟨false, fs₁, ?_, hidle1, hleaves, fun _ => hq, hq.names h.mounted⟩
    simp only [filesysRemove, hparse, some_bind]
  | some d =>
    obtain ⟨fs₁, hparse, hsh1, -, hd1, hopen1⟩ := parseDir_some h hcwd hw
    have hidle1 : Idle d0 fs₁ ∅ := h.shift hsh1
    by_cases hmay : ∃ s, (fs₁.dirTable d).find (parseFile name) = some s ∧ fs₁.removable s
    · obtain ⟨s, hs, hmay⟩ := hmay
      obtain ⟨fs2, hremove, hun, -⟩ := dirRemove_spec hidle1 hd1 hopen1 hs hmay
      have hne : d ≠ s := by
        obtain ⟨k, hk⟩ := find_slot hd1 hs
        exact (hidle1.ns.wf.target_ne hk).symm
      obtain ⟨hidle2, hnames⟩ := hidle1.unlinked hun hd1 hmay
      obtain ⟨fs3, hclose, hidle3, hq3, hleaves⟩ := hsh1.finish hidle2
        ((hun.isDirectory hd1.1 hne).mpr hd1) hopen1 hun.count hun.size
      refine ⟨true, fs3, ?_, hidle3, hleaves, nofun,
        (hq3.names hidle2.mounted).trans (hnames.trans (hsh1.quiet.names h.mounted))⟩
      simp only [filesysRemove, hparse, hremove, hclose, some_bind]
    · obtain ⟨fs2, hremove, hsh2⟩ := dirRemove_refused hidle1 hd1 hopen1
        fun s hs hr => hmay ⟨s, hs, hr⟩
      obtain ⟨fs3, hclose, hidle3, hq3, hleaves⟩ := hsh1.finish (hidle1.shift hsh2)
        (hsh2.isDirectory.mpr hd1) hopen1 (fun j => (hsh2.count j).trans (Int.add_zero _))
        (by rw [hsh2.quiet.freeMap])
      have hq := (hsh1.quiet.trans hsh2.quiet).trans hq3
      refine ⟨false, fs3, ?_, hidle3, hleaves, fun _ => hq, hq.names h.mounted⟩
      simp only [filesysRemove, hparse, hremove, hclose, some_bind]

/-! ## The inode of filesys_create -/

variable {X : Set Sector} {s : Sector} {len : Int} {isDir : Bool} {m : Nat}

theorem Created.entryAt_self (hc : Created fs fs' s len isDir m) (hv : Vol d0 fs') (k : Nat) :
    fs'.entryAt s k = none := by
  have hs : s ∈ fs'.live := hc.live ▸ mem_insert _ _
  show (fs'.dirTable s).at? k = none
  unfold EntryTable.at?
  by_cases hk : k < (fs'.dirTable s).slots
  · have hbyte : fs'.byte s (DIR_ENTRY_SIZE * k + 19) = 0 := by
      refine hc.zero _ ?_
      have hlt := hv.entry_sector hs hk (j := 19) (by decide)
      unfold InodeCore.sectors at hlt
      rwa [hc.length] at hlt
    have huse : DirEntry.inUse ((fs'.dirTable s).entry k) = false := by
      show decide (fs'.byte s (DIR_ENTRY_SIZE * k + 19) ≠ 0) = false
      rw [hbyte]
      rfl
    rw [if_pos hk, DirEntry.decode, if_neg (by rw [huse]; decide)]
  · rw [if_neg hk]

theorem Created.names (hc : Created fs fs' s len isDir m) (hm : Mounted d0 fs) (hv : Vol d0 fs') :
    fs'.names ⊆ fs.names := by
  refine hc.frame.names hm fun d hd k => ?_
  rw [mem_singleton_iff.mp hd]
  by_cases hdir : fs'.isDirectory s
  · rw [tree_slot hdir, hc.entryAt_self hv]
  · exact tree_slot_none hdir k

/-- **`inode_create` keeps the tree.** The new inode is loose. -/
theorem Idle.created (h : Idle d0 fs ∅) (hc : Created fs fs' s len isDir m)
    (hm : Mounted d0 fs') (hs : s ∉ fs.live) : Idle d0 fs' {s} := by
  have hwf := h.ns.wf
  rw [empty_union] at hwf
  have hne : ∀ {j : Sector}, j ∈ fs.live → j ∉ ({s} : Set Sector) := by
    intro j hj he
    rw [mem_singleton_iff.mp he] at hj
    exact hs hj
  have hremoved : ∀ j, fs'.isRemoved j ↔ fs.isRemoved j := fun j => isRemoved_congr (hc.inodes j)
  have hloose : {s} ∪ fs'.loose = insert s fs.loose := by
    rw [singleton_union]
    congr 1
    ext j
    simp only [FS.loose, mem_ofPred_eq, hremoved]
  have hroot : ROOT_DIR_SECTOR ∈ fs.live := hwf.dir_live hwf.root_dir
  refine ⟨⟨hm, ?_, fun i hi => ?_, ?_, fun hr => h.ns.present ((hremoved _).mp hr)⟩,
    fun i => by rw [hc.locked]; exact h.unlocked i⟩
  · rw [hloose]
    refine hwf.create hs hc.live (fun d hd => hd.1) (fun d hd => hc.frame.isDirectory hd) ?_ ?_
    · intro d hd
      show (fs'.node d).parent = (fs.node d).parent
      rw [hc.frame.node d hd.1 (hne hd.1)]
    · funext d k
      by_cases hds : d = s
      · rw [hds, tree_slot_none (fun hd => hs hd.1)]
        by_cases hdir : fs'.isDirectory s
        · rw [tree_slot hdir, hc.entryAt_self hm.vol]
        · exact tree_slot_none hdir k
      · exact hc.frame.tree_slot h.mounted (notMem_singleton_iff.mpr hds) k
  · have hi' := (hremoved i).mp hi
    have hlive := h.mounted.vol.removed_live hi'
    rw [hc.frame.node i hlive (hne hlive)]
    exact h.ns.regular i hi'
  · rw [hc.frame.node _ hroot (hne hroot)]
    exact h.ns.rootParent

theorem Idle.released {D : Set Sector} (h : Idle d0 fs {s}) (h0 : s ≠ FREE_MAP_SECTOR)
    (he : MapEffect d0 fs fs' D {s}) (hframe : Frame fs fs' {s}) (hm : Mounted d0 fs') : Idle d0 fs' ∅ := by
  have hwf := h.ns.wf
  rw [singleton_union] at hwf
  have hgone : s ∉ fs'.live := by
    rw [he.live]
    exact fun hs => hs.2 rfl
  have hdir : fs'.tree.dir = fs.tree.dir \ {s} := by
    ext d
    by_cases hds : d = s
    · rw [hds]
      exact iff_of_false (fun hd => hgone hd.1) fun hd => hd.2 rfl
    · exact (hframe.isDirectory (notMem_singleton_iff.mpr hds)).trans
        ⟨fun hd => ⟨hd, hds⟩, fun hd => hd.1⟩
  have hslots : fs'.tree.slot = fs.tree.slot := by
    funext d k
    by_cases hds : d = s
    · rw [hds, tree_slot_none fun hd => hgone hd.1]
      -- a loose inode has no slots
      cases hk : fs.tree.slot s k with
      | none => rfl
      | some x => exact absurd (mem_insert _ _) (hwf.slot_held hk).2
    · exact hframe.tree_slot h.mounted (notMem_singleton_iff.mpr hds) k
  have hparent : ∀ x ∈ fs'.tree.dir, fs'.tree.parent x = fs.tree.parent x := by
    intro x hx
    rw [hdir] at hx
    show (fs'.node x).parent = (fs.node x).parent
    rw [hframe.node x hx.1.1 hx.2]
  have hroot : ROOT_DIR_SECTOR ∉ ({s} : Set Sector) := fun hr =>
    hwf.root_held (mem_singleton_iff.mp hr ▸ mem_insert _ _)
  have hmap : FREE_MAP_SECTOR ∉ ({s} : Set Sector) := notMem_singleton_iff.mpr h0.symm
  refine ⟨⟨hm, ?_, fun i hi => ?_, ?_, fun hr => h.ns.present ((hframe.removed _ hmap).mp hr)⟩,
    fun i => by rw [he.locked]; exact h.unlocked i⟩
  · rw [empty_union]
    refine (hwf.destroy (mem_insert _ _) he.live hdir hparent hslots).congr rfl rfl
      (fun _ _ => rfl) rfl fun x hx => ?_
    have hxs : x ≠ s := fun hxs => hgone (hxs ▸ hx)
    simp only [FS.loose, mem_insert_iff, mem_ofPred_eq, hxs, false_or,
      hframe.removed x (notMem_singleton_iff.mpr hxs)]
  · have hlive := hm.vol.removed_live hi
    have his : i ∉ ({s} : Set Sector) := fun his => hgone (mem_singleton_iff.mp his ▸ hlive)
    have hi' := (hframe.removed i his).mp hi
    rw [hframe.node i (h.mounted.vol.removed_live hi') his]
    exact h.ns.regular i hi'
  · rw [hframe.node _ (hwf.dir_live hwf.root_dir) hroot]
    exact h.ns.rootParent

/-! ## filesys_create -/

/-- `filesys_create` of a file of `size` bytes in directory `d` has room: the file and
the directory fill at most one second-level block each, and there are sectors enough
that are not in the cache. -/
structure CreateOk (fs : FS) (d : Sector) (size : Int) : Prop where
  nonneg : 0 ≤ size
  same : SameSecond 0 (bytesToSectors (cappedLength size))
  bound : DIR_ENTRY_SIZE * (fs.dirTable d).freeSlot + DIR_ENTRY_SIZE ≤ 9046016
  sameDir : SameSecond (fs.node d).sectors (bytesToSectors (lengthAfter (fs.node d) DIR_ENTRY_SIZE
    (DIR_ENTRY_SIZE * (fs.dirTable d).freeSlot : Nat)))
  room : Budget fs (writeCost (fs.node d) DIR_ENTRY_SIZE
    (DIR_ENTRY_SIZE * (fs.dirTable d).freeSlot : Nat) +
      blocksFor (bytesToSectors (cappedLength size)) + 1)

/-- An entry has been refused and the sector of the new inode was given back. What else
was allocated for it stays allocated. -/
structure Abandoned (fs fs' : FS) (size : Int) : Prop where
  live : fs'.live = fs.live
  frame : Frame fs fs' ∅
  count : ∀ j, fs'.openCount j = fs.openCount j
  mapSize : fs'.freeMap.length = fs.freeMap.length
  used : ∀ u, fs.isUsed u → fs'.isUsed u
  empty : cappedLength size = 0 → ∀ u, fs'.isUsed u → fs.isUsed u
  leak : 0 < cappedLength size → ∃ u, fs.isFree u ∧ fs'.isUsed u

variable {d : Sector} {name : CString} {size : Int}

theorem EntryTable.Same.freeSlot_eq {t t' : EntryTable} (h : t.Same t') : t'.freeSlot = t.freeSlot := by
  unfold EntryTable.freeSlot
  rw [h.first_eq fun e e' he => by rw [DirEntry.inUse_congr he], h.1]

theorem EntryTable.Same.newName {t t' : EntryTable} (h : t.Same t') :
    NewName t' name ↔ NewName t name := by
  constructor <;> rintro ⟨h1, h2, h3⟩
  · exact ⟨h1, h2, (h.find_eq name).symm.trans h3⟩
  · exact ⟨h1, h2, (h.find_eq name).trans h3⟩

theorem CreateOk.writeOk (h : CreateOk fs d size)
    (hm : m = writeCost (fs.node d) DIR_ENTRY_SIZE (DIR_ENTRY_SIZE * (fs.dirTable d).freeSlot : Nat))
    (hnode : fs'.node d = fs.node d) (hsame : (fs.dirTable d).Same (fs'.dirTable d))
    (hb : Budget fs' m) :
    WriteOk fs' (fs'.node d) DIR_ENTRY_SIZE (DIR_ENTRY_SIZE * (fs'.dirTable d).freeSlot : Nat) m := by
  have hbound := h.bound
  rw [hsame.freeSlot_eq, hnode]
  refine ⟨by omega, by omega, ?_, h.sameDir, hb, ?_⟩
  · unfold DIR_ENTRY_SIZE at hbound ⊢
    rw [i32_of_nonneg (by omega) (by omega)]
    omega
  · rw [hm, writeCost]
    omega

theorem CreateOk.shift {δ : Sector → Int} (h : CreateOk fs d size) (hm : Mounted d0 fs)
    (hd : fs.isDirectory d) (hsh : Shift d0 fs fs' δ) : CreateOk fs' d size := by
  have hnode := hsh.quiet.node d hd.1
  have hslot := (hsh.dirTable hm hd).freeSlot_eq
  refine ⟨h.nonneg, h.same, ?_, ?_, ?_⟩
  · rw [hslot]
    exact h.bound
  · rw [hslot, hnode]
    exact h.sameDir
  · rw [hslot, hnode]
    exact hsh.quiet.budget hm.vol.size h.room

theorem createIn_start (h : Idle d0 fs ∅) (hd : fs.isDirectory d) (hok : CreateOk fs d size)
    (isDir : Bool) :
    ∃ s fs₁ fs₂ m, (freeMapOps 1).allocate fs = some (some s, fs₁) ∧
      inodeCreate (freeMapOps 1) fs₁ s size isDir = some (true, fs₂) ∧ s ∉ fs.live ∧
      fs.isFree s ∧ Created fs fs₂ s (cappedLength size) isDir m ∧ Idle d0 fs₂ {s} ∧ s ≠ FREE_MAP_SECTOR ∧
      fs₂.inode? s = none ∧ fs₂.isDirectory d ∧ (fs.dirTable d).Same (fs₂.dirTable d) ∧
      WriteOk fs₂ (fs₂.node d) DIR_ENTRY_SIZE
        (DIR_ENTRY_SIZE * (fs₂.dirTable d).freeSlot : Nat) m := by
  obtain ⟨s, fs₁, fs₂, halloc, hcreate, ha, hfree, hs, hc⟩ := createInode_spec isDir
    h.mounted.attached (h.unlocked _) hok.nonneg rfl hok.same hok.room
  have hm := hc.mounted h.mounted ha hs
  have hds : d ∉ ({s} : Set Sector) := fun he => hs (mem_singleton_iff.mp he ▸ hd.1)
  have hsame := hc.frame.dirTable h.mounted.vol hds hd.1 (h.mounted.directory_ne hd)
  refine ⟨s, fs₁, fs₂, _, halloc, hcreate, hs, hfree, hc, h.created hc hm hs, ?_, ?_,
    (hc.frame.isDirectory hds).mpr hd, hsame,
    hok.writeOk rfl (hc.frame.node d hd.1 hds) hsame hc.spent.budget⟩
  · rintro rfl
    exact hs h.mounted.zero_live
  · exact (hc.inodes s).trans (h.mounted.vol.closed_of_not_live hs)

theorem Created.openCount (hc : Created fs fs' s len isDir m) (j : Sector) :
    fs'.openCount j = fs.openCount j :=
  openCount_congr (hc.inodes j)

theorem createIn_added (h : Idle d0 fs ∅) (hd : fs.isDirectory d) (hopen : 0 < fs.openCount d)
    (hok : CreateOk fs d size) (isDir : Bool) (hname : NewName (fs.dirTable d) name)
    (hz : ∀ c ∈ name, c ≠ 0) :
    ∃ s fs', createIn fs d name size isDir = some (true, s, fs') ∧ Idle d0 fs' ∅ ∧
      fs'.isDirectory d ∧ (∀ j, fs'.openCount j = fs.openCount j) ∧
      fs'.freeMap.length = fs.freeMap.length ∧ fs'.names ⊆ insert name fs.names := by
  obtain ⟨s, fs₁, fs2, m, halloc, hcreate, hs, hfree, hc, hidle2, h0, hclosed, hd2, hsame, hw⟩ :=
    createIn_start h hd hok isDir
  have hopen2 : 0 < fs2.openCount d := by
    rw [hc.openCount]
    exact hopen
  have hs2 : s ∈ fs2.live := hc.live ▸ mem_insert _ _
  obtain ⟨fs3, m', hadd, hl⟩ := dirAdd_spec hidle2 hd2 hopen2 hs2 hclosed h0
    (hsame.newName.mpr hname) hz hw
  obtain ⟨hidle3, hnames⟩ := hidle2.linked hl hd2 hopen2 hs2 hclosed h0 (hsame.newName.mpr hname)
  refine ⟨s, fs3, ?_, hidle3, (hl.isDirectory d).mpr hd2, fun j => (hl.count j).trans (hc.openCount j),
    hl.spent.size.trans hc.spent.size,
    hnames.trans (insert_subset_insert (hc.names h.mounted hidle2.mounted.vol))⟩
  simp only [createIn, halloc, hcreate, hadd, some_bind, if_true]

theorem createIn_refused (h : Idle d0 fs ∅) (hd : fs.isDirectory d) (hopen : 0 < fs.openCount d)
    (hok : CreateOk fs d size) (isDir : Bool) (hname : ¬ NewName (fs.dirTable d) name) :
    ∃ s fs₁ fs', createIn fs d name size isDir = some (false, s, fs₁) ∧
      releaseOnFailure fs₁ false s = some fs' ∧ Idle d0 fs' ∅ ∧ fs'.isDirectory d ∧
      Abandoned fs fs' size := by
  obtain ⟨s, fs₁, fs2, m, halloc, hcreate, hs, hfree, hc, hidle2, h0, hclosed, hd2, hsame, hw⟩ :=
    createIn_start h hd hok isDir
  have hopen2 : 0 < fs2.openCount d := by
    rw [hc.openCount]
    exact hopen
  obtain ⟨fs3, hadd, hsh⟩ := dirAdd_refused (s := s) hidle2 hd2 hopen2
    fun hn => hname (hsame.newName.mp hn)
  have hidle3 : Idle d0 fs3 {s} := hidle2.shift hsh
  have hs3 : s ∈ fs3.live := by
    rw [hsh.quiet.live, hc.live]
    exact mem_insert _ _
  have hclosed3 : fs3.inode? s = none := by
    refine hidle3.mounted.vol.closed_of_count ?_
    rw [hsh.count, openCount_of_closed hclosed, Int.add_zero]
  have hfile : fs3.freeMapFile ≠ none := by
    rw [hidle3.mounted.file]
    simp
  obtain ⟨fs4, hrelease, hready, he, hused⟩ := release_spec hidle3.mounted.vol
    hidle3.mounted.mapReady hfile (hidle3.unlocked _) hs3 hclosed3
  have hfr := he.frame hidle3.mounted.vol hidle3.mounted.mapReady
  have hm4 := he.mounted hidle3.mounted hidle3.mounted.mapReady hready
  have hframe : Frame fs fs4 {s} := (hc.frame.trans (hsh.quiet.frame _)).trans hfr
  have hlive : fs4.live = fs.live := by
    rw [he.live, hsh.quiet.live, hc.live, insert_sdiff_self_of_notMem hs]
  have hne : ∀ {j : Sector}, j ∈ fs.live → j ∉ ({s} : Set Sector) := by
    intro j hj hjs
    rw [mem_singleton_iff.mp hjs] at hj
    exact hs hj
  have hused3 : ∀ u, fs3.isUsed u ↔ fs2.isUsed u := by
    intro u
    unfold FS.isUsed
    rw [hsh.quiet.freeMap]
  refine ⟨s, fs3, fs4, ?_, ?_, hidle3.released h0 he hfr hm4, ?_, hlive, ?_, fun j => ?_, ?_,
    fun u hu => ?_, fun hz u hu => ?_, fun hpos => ?_⟩
  · simp only [createIn, halloc, hcreate, hadd, some_bind, if_true]
  · unfold releaseOnFailure
    rw [if_pos ⟨rfl, h0⟩]
    exact hrelease
  · exact (hframe.isDirectory (hne hd.1)).mpr hd
  · refine ⟨fun i _ => by rw [hlive], fun i hi _ => hframe.node i hi (hne hi),
      fun i hi _ => hframe.byte i hi (hne hi), fun i _ => ?_⟩
    by_cases his : i = s
    · -- it is open in neither state
      rw [his]
      refine iff_of_false ?_ ?_
      · rintro ⟨ino, hino, -⟩
        cases (he.gone s rfl).symm.trans hino
      · rintro ⟨ino, hino, -⟩
        exact hs (h.mounted.vol.opened s ino hino).1
    · exact hframe.removed i (notMem_singleton_iff.mpr his)
  · by_cases hj : j = s
    · rw [hj, openCount_of_closed (he.gone s rfl),
        openCount_of_closed (h.mounted.vol.closed_of_not_live hs)]
    · rw [← hc.openCount j, ← Int.add_zero (fs2.openCount j), ← hsh.count j]
      exact openCount_congr (he.find j (notMem_singleton_iff.mpr hj))
  · rw [he.size, hsh.quiet.freeMap, hc.spent.size]
  · refine (hused u).mpr ⟨(hused3 u).mpr (hc.spent.used u hu), ?_⟩
    rintro rfl
    exact hu.not_free hfree
  · obtain ⟨hu, hus⟩ := (hused u).mp hu
    exact (hc.empty hz u ((hused3 u).mp hu)).resolve_right hus
  · -- the first data sector
    have hcap : bytesToSectors (cappedLength size) = ((cappedLength size).toNat + 511) / 512 :=
      bytesToSectors_eq (by omega) (by have := (cappedLength_le hok.nonneg).2; omega)
    have hslot : (Slot.data 0).used (bytesToSectors (cappedLength size)) := by
      show 0 < _
      omega
    have htaken : (s, some (Slot.data 0)) ∈ fs2.taken := by
      refine mem_taken_some.mpr ⟨hc.live ▸ mem_insert _ _, ?_⟩
      unfold InodeCore.sectors
      rw [hc.length]
      exact hslot
    refine ⟨fs2.place (s, some (.data 0)), hc.fresh _ hslot, (hused _).mpr ⟨?_, ?_⟩⟩
    · exact (hused3 _).mpr (hidle2.mounted.vol.used _ htaken)
    · exact hidle2.mounted.vol.place_ne htaken
        (mem_taken_none.mpr (hc.live ▸ mem_insert _ _)) (by simp)

theorem parseFile_no_nul (hz : ∀ c ∈ name, c ≠ 0) : ∀ c ∈ parseFile name, c ≠ 0 := by
  intro c hc
  rw [parseFile_eq] at hc
  cases hcs : components name with
  | nil =>
    rw [hcs] at hc
    cases hc
  | cons w ws =>
    rw [hcs, getLastD_eq_getLast?, getLast?_eq_getLast_of_ne_nil (cons_ne_nil _ _),
      Option.getD_some] at hc
    have hmem : (w :: ws).getLast (cons_ne_nil _ _) ∈ tokens SLASH name := by
      rw [show tokens SLASH name = w :: ws from hcs]
      exact getLast_mem _
    exact hz c (mem_of_mem_tokensBy hmem hc)

theorem filesysCreate_null (h : Idle d0 fs ∅) (hcwd : CwdOk fs cwd)
    (hw : (fs.parse cwd name).1 = none) (size : Int) (isDir : Bool) :
    ∃ fs', filesysCreate fs cwd name size isDir = some (false, fs') ∧ Idle d0 fs' ∅ ∧
      Quiet fs fs' ∧ Leaves fs fs' (fs.parse cwd name).2 := by
  obtain ⟨fs₁, hparse, hidle1, hq, hleaves⟩ := parseDir_none h hcwd hw
  refine ⟨fs₁, ?_, hidle1, hq, hleaves⟩
  simp only [filesysCreate, hparse, some_bind]

section
variable (h : Idle d0 fs ∅) (hcwd : CwdOk fs cwd) (hw : (fs.parse cwd name).1 = some d)
include h hcwd hw

theorem filesysCreate_full (hfull : freeBits fs.freeMap = []) (size : Int) (isDir : Bool) :
    ∃ fs', filesysCreate fs cwd name size isDir = some (false, fs') ∧ Idle d0 fs' ∅ ∧
      Quiet fs fs' ∧ Leaves fs fs' (fs.parse cwd name).2 := by
  obtain ⟨fs₁, hparse, hsh1, -, hd1, hopen1⟩ := parseDir_some h hcwd hw
  obtain ⟨fs2, hclose, hidle2, hq, hleaves⟩ := hsh1.finish (h.shift hsh1) hd1 hopen1
    (fun _ => rfl) rfl
  have halloc : (freeMapOps 1).allocate fs₁ = some (none, fs₁) :=
    freeMapAllocate_full (freeMapOps 0) (by rw [hsh1.quiet.freeMap]; exact hfull)
  refine ⟨fs2, ?_, hidle2, hsh1.quiet.trans hq, hleaves⟩
  simp only [filesysCreate, createIn, releaseOnFailure, hparse, halloc, hclose, some_bind, ne_eq, not_true_eq_false, and_false, if_false]

theorem filesysCreate_added (hok : CreateOk fs d size) (isDir : Bool)
    (hname : NewName (fs.dirTable d) (parseFile name)) (hz : ∀ c ∈ name, c ≠ 0) :
    ∃ fs', filesysCreate fs cwd name size isDir = some (true, fs') ∧ Idle d0 fs' ∅ ∧
      Leaves fs fs' (fs.parse cwd name).2 ∧ fs'.names ⊆ insert (parseFile name) fs.names := by
  obtain ⟨fs₁, hparse, hsh1, hd, hd1, hopen1⟩ := parseDir_some h hcwd hw
  obtain ⟨s, fs2, hcreate, hidle2, hd2, hcount, hsize, hnames⟩ := createIn_added (h.shift hsh1) hd1 hopen1
    (hok.shift h.mounted hd hsh1) isDir ((hsh1.dirTable h.mounted hd).newName.mpr hname)
    (parseFile_no_nul hz)
  obtain ⟨fs3, hclose, hidle3, hq3, hleaves⟩ := hsh1.finish hidle2 hd2 hopen1 hcount hsize
  refine ⟨fs3, ?_, hidle3, hleaves, (hq3.names hidle2.mounted).trans
    (hnames.trans (insert_subset_insert (hsh1.quiet.names h.mounted)))⟩
  simp only [filesysCreate, releaseOnFailure, hparse, hcreate, hclose, some_bind, Bool.not_true, Bool.false_eq_true, false_and, if_false]

theorem filesysCreate_refused (hok : CreateOk fs d size) (isDir : Bool)
    (hname : ¬ NewName (fs.dirTable d) (parseFile name)) :
    ∃ fs₁ fs₂ fs', filesysCreate fs cwd name size isDir = some (false, fs') ∧ Idle d0 fs' ∅ ∧
      Idle d0 fs₁ ∅ ∧ Idle d0 fs₂ ∅ ∧ Quiet fs fs₁ ∧ Abandoned fs₁ fs₂ size ∧ Quiet fs₂ fs' ∧
      Leaves fs fs' (fs.parse cwd name).2 := by
  obtain ⟨fs₁, hparse, hsh1, hd, hd1, hopen1⟩ := parseDir_some h hcwd hw
  obtain ⟨s, fs₂, fs3, hcreate, hrelease, hidle3, hd3, hab⟩ := createIn_refused (h.shift hsh1) hd1
    hopen1 (hok.shift h.mounted hd hsh1) isDir
    fun hn => hname ((hsh1.dirTable h.mounted hd).newName.mp hn)
  obtain ⟨fs4, hclose, hidle4, hq, hleaves⟩ := hsh1.finish hidle3 hd3 hopen1 hab.count
    hab.mapSize
  refine ⟨fs₁, fs3, fs4, ?_, hidle4, h.shift hsh1, hidle3, hsh1.quiet, hab, hq, hleaves⟩
  simp only [filesysCreate, hparse, hcreate, hrelease, hclose, some_bind]

end

/-- What `filesys_create` needs to work as it should. -/
def CreateStep (fs : FS) (cwd : Option Sector) (name : CString) (size : Int) : Prop :=
  (∀ c ∈ name, c ≠ 0) ∧
    ∀ d, (fs.parse cwd name).1 = some d → freeBits fs.freeMap = [] ∨ CreateOk fs d size

theorem Abandoned.names (h : Abandoned fs fs' size) (hm : Mounted d0 fs) : fs'.names ⊆ fs.names :=
  h.frame.names hm fun _ hd => hd.elim

/-- **`filesys_create`** keeps the tree and adds no other name than the last component. -/
theorem filesysCreate_spec (h : Idle d0 fs ∅) (hcwd : CwdOk fs cwd)
    (hok : CreateStep fs cwd name size) (isDir : Bool) :
    ∃ success fs', filesysCreate fs cwd name size isDir = some (success, fs') ∧ Idle d0 fs' ∅ ∧
      Leaves fs fs' (fs.parse cwd name).2 ∧ fs'.names ⊆ insert (parseFile name) fs.names := by
  have hquiet : ∀ {fs' : FS}, Quiet fs fs' → fs'.names ⊆ insert (parseFile name) fs.names :=
    fun hq => (hq.names h.mounted).trans (subset_insert _ _)
  cases hw : (fs.parse cwd name).1 with
  | none =>
    obtain ⟨fs', heq, hidle, hq, hleaves⟩ := filesysCreate_null h hcwd hw size isDir
    exact ⟨false, fs', heq, hidle, hleaves, hquiet hq⟩
  | some d =>
    rcases hok.2 d hw with hfull | hroom
    · obtain ⟨fs', heq, hidle, hq, hleaves⟩ := filesysCreate_full h hcwd hw hfull size isDir
      exact ⟨false, fs', heq, hidle, hleaves, hquiet hq⟩
    · by_cases hname : NewName (fs.dirTable d) (parseFile name)
      · obtain ⟨fs', heq, hidle, hleaves, hnames⟩ :=
          filesysCreate_added h hcwd hw hroom isDir hname hok.1
        exact ⟨true, fs', heq, hidle, hleaves, hnames⟩
      · obtain ⟨fs1, fs2, fs', heq, hidle, hidle1, hidle2, hq1, hab, hq2, hleaves⟩ :=
          filesysCreate_refused h hcwd hw hroom isDir hname
        exact ⟨false, fs', heq, hidle, hleaves, (hq2.names hidle2.mounted).trans
          ((hab.names hidle1.mounted).trans (hquiet hq1))⟩

/-! ## The formatted disk -/

theorem Formatted.idle (h : Formatted d0 fs m) : Idle d0 fs ∅ := ⟨h.namespaceOk, h.unlocked⟩

theorem Formatted.freeSlot_root (h : Formatted d0 fs m) :
    (fs.dirTable ROOT_DIR_SECTOR).freeSlot = 0 := by
  have hslots : (fs.dirTable ROOT_DIR_SECTOR).slots = 16 := by
    simp only [FS.dirTable, h.rootLength, DIR_ENTRY_SIZE]
    decide
  have hbyte : (fs.dirTable ROOT_DIR_SECTOR).entry 0 19 = 0 :=
    h.rootZero _ (by unfold DIR_ENTRY_SIZE; omega)
  have hfirst : (fs.dirTable ROOT_DIR_SECTOR).first (fun e => !DirEntry.inUse e) = some 0 := by
    unfold EntryTable.first
    rw [hslots, show (16 : Nat) = 15 + 1 from rfl, range_succ_eq_map, find?_cons_of_pos]
    simp [DirEntry.inUse, hbyte]
  rw [EntryTable.freeSlot, hfirst, Option.getD_some]

/-- The root has empty slots, so an entry costs nothing. -/
theorem Formatted.createOk (h : Formatted d0 fs m) (h0 : 0 ≤ size)
    (hsame : SameSecond 0 (bytesToSectors (cappedLength size)))
    (hroom : blocksFor (bytesToSectors (cappedLength size)) + 1 ≤ m) :
    CreateOk fs ROOT_DIR_SECTOR size := by
  have hlen : lengthAfter (fs.node ROOT_DIR_SECTOR) DIR_ENTRY_SIZE (DIR_ENTRY_SIZE * 0 : Nat) =
      320 := by
    unfold lengthAfter DIR_ENTRY_SIZE
    rw [h.rootLength]
    decide
  have hsec : (fs.node ROOT_DIR_SECTOR).sectors = 1 := by
    unfold InodeCore.sectors
    rw [h.rootLength]
    decide
  have hcost : writeCost (fs.node ROOT_DIR_SECTOR) DIR_ENTRY_SIZE (DIR_ENTRY_SIZE * 0 : Nat) = 0 := by
    unfold writeCost
    rw [hlen, hsec]
    decide
  refine ⟨h0, hsame, ?_, ?_, ?_⟩
  · rw [h.freeSlot_root]
    decide
  · rw [h.freeSlot_root, hlen, hsec]
    decide
  · rw [h.freeSlot_root, hcost, Nat.zero_add]
    exact h.budget.mono hroom

end

end Pintos.FileSys
