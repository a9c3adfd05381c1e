import Pintos.FileSys.PathCalls

/-!
# Runs of the file system

A run is a sequence of completed calls on a formatted disk: creating, opening and
removing under a path, opening, closing, reading and writing inodes, and the
write-behind of the cache. `Good` admits a call if it stays clear of three
defects: the sectors that are handed out are not in the cache, a file or
directory that grows fills at most one second-level index block, and there are
sectors enough. In every state that is reached the directories form a tree
(`Sys.run_idle`).
-/

namespace Pintos.FileSys

open Lib Set FS Option

/-! ## Calls on inodes -/

section
variable {d0 : Disk} {fs fs' : FS} {i : Sector} {ino : Inode}

variable (h : Idle d0 fs ∅)
include h

theorem Idle.destroyed {D : Set Sector} (h0 : i ≠ FREE_MAP_SECTOR) (hrem : fs.isRemoved i)
    (he : MapEffect d0 fs fs' D {i}) (hframe : Frame fs fs' {i}) (hm : Mounted d0 fs') :
    Idle d0 fs' ∅ := by
  -- it is loose already, so it may as well be named in the exception
  have hwf : fs.tree.WF ROOT_DIR_SECTOR ({i} ∪ fs.loose) := by
    refine h.ns.wf.congr rfl rfl (fun _ _ => rfl) rfl fun x _ => ?_
    rw [empty_union, singleton_union, mem_insert_iff]
    exact or_iff_right_of_imp fun hx => hx ▸ Or.inr hrem
  exact Idle.released ⟨{ h.ns with mounted := h.mounted, wf := hwf }, h.unlocked⟩ h0
    he hframe hm

/-- **`inode_close`** keeps the tree. -/
theorem inodeClose_idle (hopen : 0 < fs.openCount i) (h0 : i ≠ FREE_MAP_SECTOR) :
    ∃ fs', inodeClose (freeMapOps 1) fs i = some fs' ∧ Idle d0 fs' ∅ ∧
      fs'.freeMap.length = fs.freeMap.length ∧ fs'.names ⊆ fs.names := by
  by_cases hrem : fs.isRemoved i
  · obtain ⟨ino, hino, hr⟩ := hrem
    have hcount := (h.mounted.vol.opened i ino hino).2.count
    by_cases hlast : ino.openCnt = 1
    · obtain ⟨fs', heq, hm, he, -⟩ := inodeClose_removed h.mounted (h.unlocked _) hino h0 hlast hr
      have hframe := he.frame h.mounted.vol h.mounted.mapReady
      have hgone : ¬ fs'.isDirectory i := fun hd => by
        have hlive := hd.1
        rw [he.live] at hlive
        exact hlive.2 rfl
      exact ⟨fs', heq, h.destroyed h0 ⟨ino, hino, hr⟩ he hframe hm, he.size,
        hframe.names h.mounted fun d hd => mem_singleton_iff.mp hd ▸ tree_slot_none hgone⟩
    · obtain ⟨fs', heq, hm, hcl⟩ := h.mounted.inodeClose (freeMapOps 1) hino h0 (Or.inr (by omega))
      exact ⟨fs', heq, ⟨h.ns.of_quiet hm hcl.quiet, fun j => by
        rw [hcl.quiet.locked]; exact h.unlocked j⟩, by rw [hcl.quiet.freeMap],
        hcl.quiet.names h.mounted⟩
  · obtain ⟨fs', heq, hsh⟩ := h.mounted.close_shift hopen h0 hrem
    exact ⟨fs', heq, h.shift hsh, by rw [hsh.quiet.freeMap], hsh.quiet.names h.mounted⟩

/-- **`inode_write_at`** to a regular file keeps the tree. -/
theorem inodeWriteAt_idle (hopen : 0 < fs.openCount i) (h0 : i ≠ FREE_MAP_SECTOR)
    (hreg : (fs.node i).isDir = 0) (buffer : Buffer) {size offset : Int} {m : Nat}
    (hw : WriteOk fs (fs.node i) size offset m) :
    ∃ written fs', inodeWriteAt (freeMapOps 1) fs i buffer size offset = some (written, fs') ∧
      Idle d0 fs' ∅ ∧ fs'.freeMap.length = fs.freeMap.length ∧ fs'.names ⊆ fs.names := by
  obtain ⟨ino, hino⟩ := h.mounted.vol.open_iff.mpr hopen
  have hnode := node_of_open hino
  rw [hnode] at hw hreg
  obtain ⟨fs', ino', heq, hvol, hm, ht, hino', -, hkeep, -⟩ := inodeWriteAt_spec h.mounted.vol
    h.mounted.mapReady hino h0 (fun _ => h.unlocked i) (h.unlocked _) buffer hw rfl rfl
  have hreg' : (fs'.node i).isDir = 0 := by
    rw [node_of_open hino', hkeep.isDir]
    exact hreg
  have hnotdir : ¬ fs.isDirectory i := by
    rintro ⟨-, hk⟩
    rw [hnode, hreg] at hk
    cases hk
  have hnotdir' : ¬ fs'.isDirectory i := by
    rintro ⟨-, hk⟩
    rw [hreg'] at hk
    cases hk
  have hdir : ∀ d, fs'.isDirectory d ↔ fs.isDirectory d := by
    intro d
    by_cases hd : d = i
    · rw [hd]
      exact iff_of_false hnotdir' hnotdir
    · exact ht.frame.isDirectory (notMem_singleton_iff.mpr hd)
  have hremoved : ∀ j, fs'.isRemoved j ↔ fs.isRemoved j := by
    intro j
    by_cases hj : j = i
    · unfold FS.isRemoved
      rw [hj, hino', hino]
      simp [hkeep.removed]
    · exact ht.frame.removed j (notMem_singleton_iff.mpr hj)
  have hne : ∀ {d : Sector}, fs.isDirectory d → d ∉ ({i} : Set Sector) := fun hd hdi =>
    hnotdir (mem_singleton_iff.mp hdi ▸ hd)
  have hmounted : Mounted d0 fs' := by
    refine Mounted.of_mapReady hvol hm ?_ fun j hj hk => ?_
    · rw [ht.freeMapFile, h.mounted.file]
      simp
    · have hj' : fs.isDirectory j := (hdir j).mp ⟨hj, hk⟩
      have hji := hne hj'
      rw [shown_congr (ht.others j (notMem_singleton_iff.mp hji))
        (ht.frame.node j hj'.1 hji), ht.frame.node j hj'.1 hji]
      exact h.mounted.whole j hj'.1 (Or.inl hj'.2)
  refine ⟨_, fs', heq, ⟨⟨hmounted, ?_, fun j hj => ?_, ?_, fun hr => h.ns.present ((hremoved _).mp hr)⟩,
    fun j => by rw [ht.locked]; exact h.unlocked j⟩, ht.spent.size,
    ht.frame.names h.mounted fun d hd => mem_singleton_iff.mp hd ▸ tree_slot_none hnotdir'⟩
  · refine h.ns.wf.congr ht.live (Set.ext hdir) (fun d hd => ?_) ?_ fun x _ => ?_
    · show (fs'.node d).parent = (fs.node d).parent
      rw [ht.frame.node d hd.1 (hne hd)]
    · funext d k
      by_cases hd : d = i
      · rw [hd, tree_slot_none hnotdir, tree_slot_none hnotdir']
      · exact ht.frame.tree_slot h.mounted (notMem_singleton_iff.mpr hd) k
    · simp only [FS.loose, mem_union, mem_ofPred_eq, hremoved]
  · have hj' := (hremoved j).mp hj
    by_cases hji : j = i
    · rw [hji]
      exact hreg'
    · rw [ht.frame.node j (h.mounted.vol.removed_live hj') (notMem_singleton_iff.mpr hji)]
      exact h.ns.regular j hj'
  · rw [ht.frame.node _ h.root_isDirectory.1 (hne h.root_isDirectory)]
    exact h.ns.rootParent

/-- **`inode_read_at`** keeps the tree. -/
theorem inodeReadAt_idle (hopen : 0 < fs.openCount i) (buffer : Buffer) (size : Int) {offset : Int}
    (h0 : 0 ≤ offset) :
    ∃ read buffer' fs', inodeReadAt fs i buffer size offset = some (read, buffer', fs') ∧
      Idle d0 fs' ∅ ∧ fs'.freeMap.length = fs.freeMap.length ∧ fs'.names ⊆ fs.names := by
  obtain ⟨ino, hino⟩ := h.mounted.vol.open_iff.mpr hopen
  obtain ⟨fs', heq, hvol, hrest, -, hq⟩ := inodeReadAt_spec h.mounted.vol hino buffer size offset h0 rfl
  exact ⟨_, _, fs', heq, ⟨h.ns.of_quiet (h.mounted.of_sameRest hvol hq hrest) hq, fun j => by
    rw [hq.locked]; exact h.unlocked j⟩, by rw [hq.freeMap], hq.names h.mounted⟩

theorem writeBehind_idle :
    Idle d0 fs.cacheWriteBehindLoop ∅ ∧ fs.cacheWriteBehindLoop.names ⊆ fs.names := by
  obtain ⟨hvol, hrest, hq⟩ := writeBehind_spec h.mounted.vol
  exact ⟨⟨h.ns.of_quiet (h.mounted.of_sameRest hvol hq hrest) hq, fun j => by
    rw [hq.locked]; exact h.unlocked j⟩, hq.names h.mounted⟩

end

namespace Sys

/-! ## Runs -/

/-- A call. `cwd` is the current directory of the thread that makes it. -/
inductive Act where
  | create (cwd : Option Sector) (name : CString) (initialSize : Int) (isDir : Bool)
  | open (cwd : Option Sector) (name : CString)
  | remove (cwd : Option Sector) (name : CString)
  | inodeOpen (sector : Sector)
  | inodeClose (inode : Sector)
  | inodeReadAt (inode : Sector) (buffer : Buffer) (size offset : Int)
  | inodeWriteAt (inode : Sector) (buffer : Buffer) (size offset : Int)
  | writeBehind

def step (fs : FS) : Act → Option FS
  | .create cwd name initialSize isDir => (filesysCreate fs cwd name initialSize isDir).map (·.2)
  | .open cwd name => (filesysOpen fs cwd name).map (·.2)
  | .remove cwd name => (filesysRemove fs cwd name).map (·.2)
  | .inodeOpen sector => some (FileSys.inodeOpen fs sector)
  | .inodeClose inode => FileSys.inodeClose (freeMapOps 1) fs inode
  | .inodeReadAt inode buffer size offset =>
    (FileSys.inodeReadAt fs inode buffer size offset).map (·.2.2)
  | .inodeWriteAt inode buffer size offset =>
    (FileSys.inodeWriteAt (freeMapOps 1) fs inode buffer size offset).map (·.2)
  | .writeBehind => some fs.cacheWriteBehindLoop

/-- The calls that work as they should. -/
def Good (fs : FS) : Act → Prop
  | .create cwd name initialSize _ => CwdOk fs cwd ∧ CreateStep fs cwd name initialSize
  | .open cwd _ => CwdOk fs cwd
  | .remove cwd _ => CwdOk fs cwd
  | .inodeOpen sector => sector ∈ fs.live
  | .inodeClose inode => 0 < fs.openCount inode ∧ inode ≠ FREE_MAP_SECTOR
  | .inodeReadAt inode _ _ offset => 0 < fs.openCount inode ∧ 0 ≤ offset
  | .inodeWriteAt inode _ size offset =>
    0 < fs.openCount inode ∧ inode ≠ FREE_MAP_SECTOR ∧ (fs.node inode).isDir = 0 ∧
      ∃ m, WriteOk fs (fs.node inode) size offset m
  | .writeBehind => True

section
variable {d0 : Disk} {fs fs' : FS} {a : Act}

/-- The name that a call may add to a directory. -/
def Act.created : Act → Set CString
  | .create _ name _ _ => {parseFile name}
  | _ => ∅

theorem step_spec (h : Idle d0 fs ∅) (hgood : Good fs a) :
    ∃ fs', step fs a = some fs' ∧ Idle d0 fs' ∅ ∧ fs'.freeMap.length = fs.freeMap.length ∧
      fs'.names ⊆ a.created ∪ fs.names := by
  have hold : ∀ {fs' : FS}, fs'.names ⊆ fs.names → fs'.names ⊆ a.created ∪ fs.names := fun hn =>
    hn.trans subset_union_right
  cases a with
  | create cwd name initialSize isDir =>
    obtain ⟨success, fs', heq, hidle, hl, hn⟩ := filesysCreate_spec h hgood.1 hgood.2 isDir
    exact ⟨fs', by simp only [step, heq, map_some], hidle, hl.size, hn⟩
  | «open» cwd name =>
    obtain ⟨fs', heq, hsh⟩ := filesysOpen_spec h hgood name
    exact ⟨fs', by simp only [step, heq, map_some], h.shift hsh, by rw [hsh.quiet.freeMap],
      hold (hsh.quiet.names h.mounted)⟩
  | remove cwd name =>
    obtain ⟨success, fs', heq, hidle, hl, -, hn⟩ := filesysRemove_spec h hgood name
    exact ⟨fs', by simp only [step, heq, map_some], hidle, hl.size, hold hn⟩
  | inodeOpen sector =>
    have hsh := h.open_shift hgood
    exact ⟨_, rfl, h.shift hsh, by rw [hsh.quiet.freeMap], hold (hsh.quiet.names h.mounted)⟩
  | inodeClose inode =>
    obtain ⟨fs', heq, hidle, hsize, hn⟩ := inodeClose_idle h hgood.1 hgood.2
    exact ⟨fs', heq, hidle, hsize, hold hn⟩
  | inodeReadAt inode buffer size offset =>
    obtain ⟨read, buffer', fs', heq, hidle, hsize, hn⟩ :=
      inodeReadAt_idle h hgood.1 buffer size hgood.2
    exact ⟨fs', by simp only [step, heq, map_some], hidle, hsize, hold hn⟩
  | inodeWriteAt inode buffer size offset =>
    obtain ⟨hopen, h0, hreg, m, hw⟩ := hgood
    obtain ⟨written, fs', heq, hidle, hsize, hn⟩ := inodeWriteAt_idle h hopen h0 hreg buffer hw
    exact ⟨fs', by simp only [step, heq, map_some], hidle, hsize, hold hn⟩
  | writeBehind =>
    obtain ⟨hidle, hn⟩ := writeBehind_idle h
    exact ⟨_, rfl, hidle, rfl, hold hn⟩

theorem step_idle (h : Idle d0 fs ∅) (hgood : Good fs a) (hstep : step fs a = some fs') :
    Idle d0 fs' ∅ ∧ fs'.freeMap.length = fs.freeMap.length ∧ fs'.names ⊆ a.created ∪ fs.names := by
  obtain ⟨fs1, heq, hidle⟩ := step_spec h hgood
  cases hstep.symm.trans heq
  exact hidle

/-- **Every state of a good run** is in order, and the free map has kept its size. -/
theorem run_idle {as : List Act} (h : Idle d0 fs ∅) (hrun : Run step Good fs as fs') :
    Idle d0 fs' ∅ ∧ fs'.freeMap.length = fs.freeMap.length :=
  hrun.invariant (I := fun fs' => Idle d0 fs' ∅ ∧ fs'.freeMap.length = fs.freeMap.length)
    (fun _ _ _ hs hok hstep => (step_idle hs.1 hok hstep).imp id fun he => he.1.trans hs.2) ⟨h, rfl⟩

end

theorem run_create_one_byte :
    ∃ fs0 fs, filesysInit (fun _ => Arr.const 0) 8 (fun _ _ => 0) = some fs0 ∧
      Run step Good fs0 [.create none [97] 1 false] fs := by
  obtain ⟨fs0, hinit, hf⟩ := formatted_eight
  have hgood : Good fs0 (.create none [97] 1 false) := by
    refine ⟨nofun, by simp, fun d hd => Or.inr ?_⟩
    have hcs : components [97] = [[97]] := by decide
    rw [FS.parse, hcs] at hd
    cases hd
    exact hf.createOk (by decide) (by decide) (by decide)
  obtain ⟨fs, hstep, -⟩ := step_spec hf.idle hgood
  exact ⟨fs0, fs, hinit, .snoc .nil hgood hstep⟩

/-! ## Coherence -/

/-- **Coherence.** In every state of a good run, every read of a sector so far returned what
was last written to it by either path, and what was last written is what the sector now
holds, in the cache or on disk. -/
theorem cached_and_direct_coherent {disk : Disk} {n : Nat} {garbage : Nat → Nat → UInt32}
    {fs0 fs : FS} {as : List Act} (hn : Formattable n)
    (hinit : filesysInit disk n garbage = some fs0) (hrun : Run step Good fs0 as fs) :
    Coherent disk fs.log ∧ lastWritten disk fs.log = fs.store.view := by
  have hf := formatted_of_init hn hinit
  have hst := (run_idle hf.idle hrun).1.mounted.vol.store
  exact ⟨hst.coherent, hst.written⟩

theorem cached_and_direct_coherent_one_byte :
    ∃ fs0 fs, filesysInit (fun _ => Arr.const 0) 8 (fun _ _ => 0) = some fs0 ∧
      Run step Good fs0 [.create none [97] 1 false] fs ∧
      Coherent (fun _ => Arr.const 0) fs.log ∧
      lastWritten (fun _ => Arr.const 0) fs.log = fs.store.view := by
  obtain ⟨fs0, fs, hinit, hrun⟩ := run_create_one_byte
  exact ⟨fs0, fs, hinit, hrun,
    cached_and_direct_coherent formattable_eight hinit hrun⟩

/-- The newest entry of the log is a read of byte 0 of sector 5 that returned `stale`,
though the byte last written there is 0. -/
def lastReadStale (disk : Disk) (stale : UInt8) : List Access → Bool
  | .cacheRead s 0 1 bytes :: log =>
    s = 5 && bytes 0 = stale && (lastWritten disk log 5).get 0 = 0
  | _ => false

theorem lastReadStale_spec {disk : Disk} {stale : UInt8} (hne : stale ≠ 0) {log : List Access}
    (h : lastReadStale disk stale log = true) : ¬ Coherent disk log := by
  unfold lastReadStale at h
  split at h
  · rename_i s bytes log
    simp only [Bool.and_eq_true, decide_eq_true_eq] at h
    obtain ⟨⟨rfl, hbyte⟩, hlast⟩ := h
    rintro ⟨hread, -⟩
    have h0 := hread 0 (by decide)
    rw [hbyte, Nat.add_zero, hlast] at h0
    exact hne h0
  · cases h

/-- File `a` has one byte, in sector 5. It is written and removed, and the new file `b` gets
the sector, which is zeroed on disk. Reading `b` finds the byte of `a` in the cache. -/
theorem new_file_reads_removed_byte :
    ∃ fs0 fs, filesysInit (fun _ => Arr.const 0) 8 (fun _ _ => 0) = some fs0 ∧
      Run step (fun _ _ => True) fs0
        [.create none [97] 1 false, .inodeOpen 4, .inodeWriteAt 4 (fun _ => 120) 1 0,
          .remove none [97], .inodeClose 4, .create none [98] 1 false, .inodeOpen 4,
          .inodeReadAt 4 (fun _ => 0) 1 0] fs ∧
      ¬ Coherent (fun _ => Arr.const 0) fs.log := by
  exact Run.exists_from (fun _ fs => lastReadStale (fun _ => Arr.const 0) 120 fs.log = true)
    (by decide +kernel) fun _ _ _ _ hstale => lastReadStale_spec (by decide) hstale

/-! ## The directory tree -/

/-- What holds of the directories. A file that has been removed and is still open is named
by no entry. -/
structure TreeOk (fs : FS) : Prop where
  entry : ∀ d k n t, fs.isDirectory d → fs.entryAt d k = some (n, t) → fs.isUsed t ∧ t ∈ fs.live
  named : ∀ t ∈ fs.live, t ≠ FREE_MAP_SECTOR → t ≠ ROOT_DIR_SECTOR → ¬ fs.isRemoved t →
    ∃ d k n, fs.isDirectory d ∧ fs.entryAt d k = some (n, t)
  unique : ∀ d k n d' k' n' t, fs.isDirectory d → fs.isDirectory d' →
    fs.entryAt d k = some (n, t) → fs.entryAt d' k' = some (n', t) → d = d' ∧ k = k'
  parent : ∀ d k n t, fs.isDirectory d → fs.entryAt d k = some (n, t) → fs.isDirectory t →
    (fs.node t).parent = d
  chain : ∀ d, fs.isDirectory d → ∃ m, (fun x => (fs.node x).parent)^[m] d = ROOT_DIR_SECTOR ∧
    ∀ j ≤ m, fs.isDirectory ((fun x => (fs.node x).parent)^[j] d)

theorem treeOk_of_idle {d0 : Disk} {fs : FS} (h : Idle d0 fs ∅) : TreeOk fs := by
  have hwf := h.ns.wf
  rw [empty_union] at hwf
  have hslot : ∀ {d k n t}, fs.isDirectory d → fs.entryAt d k = some (n, t) →
      fs.tree.slot d k = some (n, t) := fun hd hk => (tree_slot hd _).trans hk
  refine ⟨?_, ?_, ?_, ?_, ?_⟩
  · intro d k n t hd hk
    have ht := (hwf.target (hslot hd hk)).1
    exact ⟨h.mounted.vol.used (t, none) (mem_taken_none.mpr ht), ht⟩
  · intro t ht h0 hroot hrem
    obtain ⟨d, k, n, hk⟩ := hwf.named t ht (fun hl => hl.elim h0 hrem) hroot
    have hd : fs.isDirectory d := (hwf.slot_held hk).1
    exact ⟨d, k, n, hd, (tree_slot hd k).symm.trans hk⟩
  · intro d k n d' k' n' t hd hd' hk hk'
    exact hwf.slot_inj (hslot hd hk) (hslot hd' hk')
  · intro d k n t hd hk ht
    exact hwf.parent_eq (hslot hd hk) ht
  · intro d hd
    have hloose : d ∉ fs.loose := fun hl =>
      hl.elim (h.mounted.directory_ne hd) (h.directory_present hd)
    exact (hwf.up d hd hloose).iterate hwf.root_dir

/-- **The directory tree.** In every state of a good run the directories form a tree, but the
parent that the root stores is the sector of the free map and not the root. -/
theorem directory_tree {disk : Disk} {n : Nat} {garbage : Nat → Nat → UInt32} {fs0 fs : FS}
    {as : List Act} (hn : Formattable n) (hinit : filesysInit disk n garbage = some fs0)
    (hrun : Run step Good fs0 as fs) :
    TreeOk fs ∧ (fs.node ROOT_DIR_SECTOR).parent = FREE_MAP_SECTOR ∧
      (fs.node ROOT_DIR_SECTOR).parent ≠ ROOT_DIR_SECTOR := by
  have hf := formatted_of_init hn hinit
  have h := (run_idle hf.idle hrun).1
  refine ⟨treeOk_of_idle h, h.ns.rootParent, ?_⟩
  rw [h.ns.rootParent]
  decide

theorem directory_tree_one_file :
    ∃ fs0 fs, filesysInit (fun _ => Arr.const 0) 8 (fun _ _ => 0) = some fs0 ∧
      Run step Good fs0 [.create none [97] 1 false] fs ∧
      TreeOk fs ∧ (fs.node ROOT_DIR_SECTOR).parent = FREE_MAP_SECTOR ∧
      (fs.node ROOT_DIR_SECTOR).parent ≠ ROOT_DIR_SECTOR := by
  obtain ⟨fs0, fs, hinit, hrun⟩ := run_create_one_byte
  exact ⟨fs0, fs, hinit, hrun, directory_tree formattable_eight hinit hrun⟩

/-- On a formatted disk the parent of the root is sector 0. -/
theorem root_is_not_its_parent :
    ∃ fs, filesysInit (fun _ => Arr.const 0) 8 (fun _ _ => 0) = some fs ∧
      fs.isDirectory ROOT_DIR_SECTOR ∧ (fs.node ROOT_DIR_SECTOR).parent = 0 ∧
      (fs.node ROOT_DIR_SECTOR).parent ≠ ROOT_DIR_SECTOR := by
  obtain ⟨fs, hinit, hf⟩ := formatted_eight
  refine ⟨fs, hinit, hf.idle.root_isDirectory, hf.rootParent, ?_⟩
  rw [hf.rootParent]
  decide

/-! ## Blocks -/

section
variable {disk : Disk} {n : Nat} {garbage : Nat → Nat → UInt32} {fs0 fs : FS} {as : List Act}
  (hn : Formattable n) (hinit : filesysInit disk n garbage = some fs0)
  (hrun : Run step Good fs0 as fs)
include hn hinit hrun

/-- **No block is shared** in any state of a good run: inodes, index blocks and data have
different sectors. All are in use, and none that is accessed past the cache is in it. -/
theorem no_block_is_shared : InjOn fs.place fs.taken ∧ ∀ l ∈ fs.taken, fs.isUsed (fs.place l) ∧
    (l.isDirect → ¬ fs.store.cached (fs.place l)) := by
  have hvol := (run_idle (formatted_of_init hn hinit).idle hrun).1.mounted.vol
  exact ⟨hvol.inj, fun l hl => ⟨hvol.used l hl, hvol.direct l hl⟩⟩

end

theorem no_block_is_shared_one_byte :
    ∃ fs0 fs, filesysInit (fun _ => Arr.const 0) 8 (fun _ _ => 0) = some fs0 ∧
      Run step Good fs0 [.create none [97] 1 false] fs ∧ InjOn fs.place fs.taken := by
  obtain ⟨fs0, fs, hinit, hrun⟩ := run_create_one_byte
  exact ⟨fs0, fs, hinit, hrun, (no_block_is_shared formattable_eight hinit hrun).1⟩

end Sys

end Pintos.FileSys
