import Pintos.FileSys.DirCalls

/-!
# Removing a directory entry

`dir_remove` erases the entry and marks the inode; the `inode_close` at its end
takes the inode off the volume unless somebody else has it open.
-/

namespace Pintos.FileSys

open Lib Function Option FS EntryTable Set

/-- What `dir_remove` checks: a directory must be empty and nobody may have it open. -/
def FS.removable (fs : FS) (s : Sector) : Prop :=
  (fs.node s).isDir = 1 → (∀ k, fs.entryAt s k = none) ∧ fs.openCount s = 0

section
variable {d0 : Disk} {fs fs' : FS} {d s : Sector} {ino : Inode}

theorem EntryTable.first_inUse_none {t : EntryTable} :
    t.first DirEntry.inUse = none ↔ ∀ k, t.at? k = none := by
  constructor
  · intro h k
    unfold EntryTable.at?
    by_cases hk : k < t.slots
    · rw [if_pos hk, DirEntry.decode, if_neg (by rw [first_none h hk]; decide)]
    · rw [if_neg hk]
  · intro h
    by_contra hne
    obtain ⟨k, hk⟩ := ne_none_iff_exists'.mp hne
    obtain ⟨hlt, hu⟩ := first_some hk
    have := h k
    rw [EntryTable.at?, if_pos hlt, DirEntry.decode, if_pos hu] at this
    cases this

theorem mayRemove_spec (h : Mounted d0 fs) (hino : fs.inode? s = some ino) :
    ∃ may fs', mayRemove inodeOps fs s = some (may, fs') ∧ Reads d0 fs fs' ∧
      (may = true ↔ ((fs.node s).isDir = 1 →
        (∀ k, fs.entryAt s k = none) ∧ fs.openCount s ≤ 1)) := by
  have hnode := node_of_open hino
  have hcount := openCount_of_open hino
  obtain ⟨isDir, hisDir, -, hdir⟩ := inodeIsDir_of_kind (h.vol.coreOk_open hino)
  have hisDir' : inodeOps.inodeIsDir fs s = some isDir := by
    show (fs.inode? s).bind inodeIsDir = _
    rw [hino]
    exact hisDir
  unfold mayRemove
  rw [hisDir', hnode]
  cases isDir with
  | false =>
    refine ⟨true, fs, rfl, Reads.refl h.vol, iff_of_true rfl fun hk => ?_⟩
    have := hdir.mpr hk
    cases this
  | true =>
    have hk : ino.isDir = 1 := hdir.mp rfl
    have hsd : fs.isDirectory s := ⟨(h.vol.opened s ino hino).1, by rw [hnode]; exact hk⟩
    have hopen : 0 < fs.openCount s := h.vol.open_iff.mp ⟨ino, hino⟩
    have hreads1 : Reads d0 fs fs.uninitBytes.2 := reads_uninitBytes h.vol
    obtain ⟨e, fs1, hscan, hreads2, -⟩ := (dirReader d0 s).scanEntries_spec
      (fun e e' he => DirEntry.inUse_congr he)
      ((dirReader d0 s).ok (h.dirOpen hsd hopen) hreads1) fs.uninitBytes.1
    have hreads : Reads d0 fs fs1 := hreads1.trans hreads2
    have htable : (dirReader d0 s).table fs.uninitBytes.2 = fs.dirTable s :=
      congrFun hreads1.dirTable s
    rw [htable] at hscan
    have hopened : inodeOps.inodeIsOpened fs1 s = some (inodeIsOpened ino) := by
      show (fs1.inode? s).map inodeIsOpened = _
      rw [hreads.rest.inode?, hino]
      rfl
    have hun : inodeOps.uninitBytes fs = fs.uninitBytes := rfl
    refine ⟨!((fs.dirTable s).first DirEntry.inUse).isSome && !inodeIsOpened ino, fs1, ?_, hreads, ?_⟩
    · simp only [hun, hscan, hopened, some_bind, if_true]
    · have hcnt : inodeIsOpened ino = false ↔ fs.openCount s ≤ 1 := by
        rw [hcount]
        simp [inodeIsOpened]
      have hfirst : ((fs.dirTable s).first DirEntry.inUse).isSome = false ↔
          ∀ k, fs.entryAt s k = none := by
        rw [Option.isSome_eq_false_iff, isNone_iff_eq_none]
        exact first_inUse_none
      rw [Bool.and_eq_true, Bool.not_eq_true', Bool.not_eq_true', hcnt, hfirst]
      exact ⟨fun hb _ => hb, fun hb => hb hk⟩

/-! ## Released sectors -/

/-- The sectors of inode `s` are given back if `last` holds, and no others. -/
structure Releases (fs fs' : FS) (s : Sector) (last : Prop) : Prop where
  freed : last → ∀ u, fs'.isUsed u ↔ fs.isUsed u ∧ u ∉ fs.releasedSectors s
  kept : ¬ last → fs'.freeMap = fs.freeMap

theorem Unmoved.releases {fs1 : FS} {last last' : Prop} (h : Unmoved fs fs1) (hv : Vol d0 fs)
    (hv1 : Vol d0 fs1) (hs : s ∈ fs.live) (hr : Releases fs1 fs' s last) (hlast : last' ↔ last) :
    Releases fs fs' s last' := by
  have hs₁ : s ∈ fs1.live := by
    rw [← mem_taken_none, h.taken]
    exact mem_taken_none.mpr hs
  refine ⟨fun hl u => ?_, fun hl => (hr.kept fun hl' => hl (hlast.mpr hl')).trans h.freeMap⟩
  have hmem : u ∈ fs1.releasedSectors s ↔ u ∈ fs.releasedSectors s := by
    rw [hv.mem_releasedSectors hs, hv1.mem_releasedSectors hs₁, h.taken]
    refine exists_congr fun l => and_congr_right fun hl => ?_
    rw [h.place l hl]
  rw [hr.freed (hlast.mp hl) u, hmem, isUsed_congr h.freeMap]

/-! ## Erasing the entry -/

/-- The entry in slot `q` of `d` is erased and inode `s` is marked as removed. -/
structure Erased (d0 : Disk) (fs fs' : FS) (d s : Sector) (q : Nat) : Prop where
  mounted : Mounted d0 fs'
  frame : Frame fs fs' {d, s}
  live : fs'.live = fs.live
  kind : (fs'.node d).isDir = (fs.node d).isDir
  parent : (fs'.node d).parent = (fs.node d).parent
  slot : fs'.entryAt d = update (fs.entryAt d) q none
  node : fs'.node s = fs.node s
  byte : ∀ k, k / 512 < (fs.node s).sectors → fs'.byte s k = fs.byte s k
  removed : fs'.isRemoved s
  others : ∀ j, j ≠ s → (fs'.isRemoved j ↔ fs.isRemoved j)
  count : ∀ j, fs'.openCount j = fs.openCount j
  locked : fs'.locked = fs.locked
  freeMapFile : fs'.freeMapFile = fs.freeMapFile
  size : fs'.freeMap.length = fs.freeMap.length

theorem writeOk_slot_end (h : Vol d0 fs) (hd : d ∈ fs.live) {q : Nat} (hq : q < (fs.dirTable d).slots) :
    i32 ((DIR_ENTRY_SIZE : Int) + ((DIR_ENTRY_SIZE * q : Nat) : Int)) ≤ (fs.node d).length := by
  have hn0 := (h.core d hd).nonneg
  have hnb := (h.core d hd).bound
  have hq' : q < (fs.node d).length.toNat / 20 := hq
  unfold DIR_ENTRY_SIZE
  rw [i32_of_nonneg (by omega) (by omega)]
  omega

theorem writeOk_slot (h : Vol d0 fs) (hd : d ∈ fs.live) {q : Nat} (hq : q < (fs.dirTable d).slots) :
    WriteOk fs (fs.node d) DIR_ENTRY_SIZE (DIR_ENTRY_SIZE * q : Nat) 0 := by
  have hend := writeOk_slot_end h hd hq
  have hlen : lengthAfter (fs.node d) DIR_ENTRY_SIZE (DIR_ENTRY_SIZE * q : Nat) =
      (fs.node d).length := max_eq_left hend
  refine ⟨by omega, by omega, hend.trans (h.core d hd).bound, ?_, ⟨Nat.zero_le _, by simp⟩, ?_⟩
  · rw [hlen]
    unfold SameSecond InodeCore.sectors
    omega
  · rw [hlen]
    exact le_refl _

theorem eraseEntry_spec (h : Mounted d0 fs) (hd : fs.isDirectory d) (hopen : 0 < fs.openCount d)
    (hlock0 : fs.locked FREE_MAP_SECTOR = false) (hino : fs.inode? s = some ino)
    (h0 : s ≠ FREE_MAP_SECTOR) (hne : s ≠ d) (e : Buffer) {q : Nat}
    (hq : q < (fs.dirTable d).slots) :
    ∃ fs', eraseEntry inodeOps fs d e (DIR_ENTRY_SIZE * q) s = some (true, fs') ∧
      Erased d0 fs fs' d s q ∧ Unmoved fs fs' := by
  obtain ⟨fs1, hwrite, hm1, hsw⟩ := writeEntry_spec h hd hopen hlock0 (DirEntry.setInUse e false)
    (Nat.le_of_lt hq) (writeOk_slot h.vol hd.1 hq)
  have hmoved : Unmoved fs fs1 := by
    obtain ⟨inod, hinod⟩ := h.vol.open_iff.mpr hopen
    have hnode := node_of_open hinod
    refine inodeWriteAt_unmoved h.vol h.mapReady hinod (h.directory_ne hd) (fun hreg => ?_) (by omega)
      ?_ hwrite
    · have := hd.2
      rw [hnode] at this
      omega
    · rw [← show (fs.node d).length = inod.length by rw [hnode]]
      exact writeOk_slot_end h.vol hd.1 hq
  have hsd : s ∉ ({d} : Set Sector) := fun he => hne (mem_singleton_iff.mp he)
  have hs := (h.vol.opened s ino hino).1
  have hino1 : fs1.inode? s = some ino := (hsw.touched.others s hne).trans hino
  obtain ⟨hremove, hm2⟩ := inodeRemove_spec hm1 hino1
  obtain ⟨ino', hino'⟩ : ∃ e : Inode, e = { ino with removed := true } := ⟨_, rfl⟩
  rw [← hino'] at hremove hm2
  have hsec : ino'.sector = s := by
    rw [hino', ← inode?_sector hino]
  have hcore : ino'.toInodeCore = ino.toInodeCore := by rw [hino']
  have hptrs : ino'.ptrs = ino.ptrs := by rw [hino']
  have hnode2 : (fs1.setInode ino').node = fs1.node := by
    funext j
    rw [node_setInode hino1 hsec]
    split
    · rename_i hj
      rw [hj, node_of_open hino1, hcore]
    · rfl
  have hbyte2 : (fs1.setInode ino').byte = fs1.byte := byte_setInode hino1 hsec hptrs
  have hothers2 : ∀ j, j ≠ s → ((fs1.setInode ino').isRemoved j ↔ fs1.isRemoved j) := by
    intro j hj
    rw [isRemoved_setInode hino1 hsec, if_neg hj]
  have hframe2 : Frame fs1 (fs1.setInode ino') {s} :=
    ⟨fun _ _ => Iff.rfl, fun j _ _ => by rw [hnode2], fun j _ _ _ k _ => by rw [hbyte2],
      fun j hj => hothers2 j (notMem_singleton_iff.mp hj)⟩
  refine ⟨fs1.setInode ino', ?_, ⟨hm2,
    (hsw.touched.frame.mono (by simp)).trans (hframe2.mono (by simp)), hsw.touched.live, ?_, ?_, ?_,
    ?_, ?_, ?_, fun j hj => (hothers2 j hj).trans (hsw.removed j), ?_, hsw.touched.locked,
    hsw.touched.freeMapFile, hsw.touched.spent.size⟩, hmoved.trans (Stays.unmoved ⟨rfl,
      fun j _ => by rw [hnode2], fun j _ => by rw [hnode2], fun _ _ _ _ => rfl⟩ rfl)⟩
  · have hwrite' : inodeOps.inodeWriteAt fs d (DirEntry.setInUse e false) DIR_ENTRY_SIZE
        (DIR_ENTRY_SIZE * q : Nat) = some ((DIR_ENTRY_SIZE : Int), fs1) := hwrite
    have hremove' : inodeOps.inodeRemove fs1 s = some (fs1.setInode ino') := hremove
    simp only [eraseEntry, hwrite', hremove', some_bind, if_true]
  · rw [hnode2, hsw.kind]
  · rw [hnode2, hsw.parent]
  · have htable : (fs1.setInode ino').dirTable d = fs1.dirTable d := by
      unfold FS.dirTable
      rw [hnode2, hbyte2]
    show ((fs1.setInode ino').dirTable d).at? = update (fs.dirTable d).at? q none
    rw [htable, hsw.writes.at?_eq, DirEntry.decode_erased]
  · rw [hnode2, hsw.touched.frame.node s hs hsd]
  · intro k hk
    rw [hbyte2, hsw.touched.frame.byte s hs hsd h0 k hk]
  · rw [isRemoved_setInode hino1 hsec, if_pos rfl, hino']
  · intro j
    rw [openCount_setInode hino1 hsec]
    by_cases hj : j = s
    · rw [if_pos hj, hj, openCount_of_open hino, hino']
    · rw [if_neg hj, hsw.count]

end

/-! ## dir_remove -/

/-- The entry of inode `s` in directory `d` is gone. So is the inode, unless it is
open; then it is marked as removed. -/
structure Unlinked (d0 : Disk) (fs fs' : FS) (d s : Sector) (name : CString) : Prop where
  mounted : Mounted d0 fs'
  frame : Frame fs fs' {d, s}
  dirLive : d ∈ fs'.live
  kind : (fs'.node d).isDir = (fs.node d).isDir
  parent : (fs'.node d).parent = (fs.node d).parent
  slot : ∃ q, fs.entryAt d q = some (name, s) ∧
    fs'.entryAt d = update (fs.entryAt d) q none
  gone : fs.openCount s = 0 → s ∉ fs'.live
  stays : 0 < fs.openCount s → s ∈ fs'.live ∧ fs'.isRemoved s ∧ fs'.node s = fs.node s
  others : ∀ j, j ≠ s → (fs'.isRemoved j ↔ fs.isRemoved j)
  count : ∀ j, fs'.openCount j = fs.openCount j
  locked : fs'.locked = fs.locked
  freeMapFile : fs'.freeMapFile = fs.freeMapFile
  size : fs'.freeMap.length = fs.freeMap.length

section
variable {d0 : Disk} {fs fs' fs1 fs2 : FS} {X : Set Sector} {d s : Sector} {name : CString}
  {q : Nat}

theorem Erased.close (he : Erased d0 fs fs1 d s q) (hlock0 : fs.locked FREE_MAP_SECTOR = false)
    (hopen : 0 < fs.openCount s) (h0 : s ≠ FREE_MAP_SECTOR) (hne : s ≠ d) (hd : d ∈ fs.live)
    (hd0 : d ≠ FREE_MAP_SECTOR) :
    ∃ fs', inodeClose (freeMapOps 1) fs1 s = some fs' ∧ Mounted d0 fs' ∧ Frame fs fs' {d, s} ∧
      d ∈ fs'.live ∧ fs'.node d = fs1.node d ∧ fs'.entryAt d = fs1.entryAt d ∧
      (fs.openCount s = 1 → s ∉ fs'.live) ∧
      (1 < fs.openCount s → s ∈ fs'.live ∧ fs'.isRemoved s ∧ fs'.node s = fs.node s) ∧
      (∀ j, j ≠ s → (fs'.isRemoved j ↔ fs.isRemoved j)) ∧
      (∀ j, fs'.openCount j = fs.openCount j - ref s j) ∧ fs'.locked = fs.locked ∧
      fs'.freeMapFile = fs.freeMapFile ∧ fs'.freeMap.length = fs.freeMap.length ∧
      Releases fs1 fs' s (fs.openCount s = 1) := by
  obtain ⟨ino, hino, hrem⟩ := he.removed
  have hcount := openCount_of_open hino
  rw [he.count] at hcount
  have hs1 := (he.mounted.vol.opened s ino hino).1
  have hd1 : d ∈ fs1.live := he.live ▸ hd
  have hds : d ∉ ({s} : Set Sector) := fun hmem => hne (mem_singleton_iff.mp hmem).symm
  by_cases hlast : fs.openCount s = 1
  · -- nobody else has it open
    obtain ⟨fs', hclose, hm, heff, hfreed⟩ := inodeClose_removed he.mounted
      (by rw [he.locked]; exact hlock0) hino h0 (by omega) hrem
    have hfr := heff.frame he.mounted.vol he.mounted.mapReady
    refine ⟨fs', hclose, hm, he.frame.trans (hfr.mono (by simp)), ?_, hfr.node d hd1 hds, ?_, ?_,
      fun h => by omega, fun j hj => ?_, ?_, heff.locked.trans he.locked,
      heff.freeMapFile.trans he.freeMapFile, heff.size.trans he.size, fun _ => hfreed,
      absurd hlast⟩
    · rw [heff.live]
      exact ⟨hd1, hds⟩
    · funext k
      exact hfr.entryAt he.mounted.vol hds hd1 hd0 k
    · intro _ hs
      rw [heff.live] at hs
      exact hs.2 rfl
    · exact (hfr.removed j (notMem_singleton_iff.mpr hj)).trans (he.others j hj)
    · intro j
      rw [← he.count j]
      by_cases hj : j = s
      · rw [hj, openCount_of_closed (heff.gone s rfl), he.count, hlast, ref, if_pos rfl]
        rfl
      · rw [openCount_congr (heff.find j hj), ref, if_neg hj, Int.sub_zero]
  · obtain ⟨fs', hclose, hm, hcl⟩ := he.mounted.inodeClose (freeMapOps 1) hino h0
      (.inr (by omega))
    have hfr := hcl.quiet.frame {d, s}
    refine ⟨fs', hclose, hm, he.frame.trans hfr, hcl.quiet.live ▸ hd1, hcl.quiet.node d hd1, ?_,
      fun h => absurd h hlast, fun _ => ⟨hcl.quiet.live ▸ hs1, ?_, ?_⟩,
      fun j hj => (hcl.quiet.removed j).trans (he.others j hj), ?_,
      hcl.quiet.locked.trans he.locked, hcl.quiet.freeMapFile.trans he.freeMapFile,
      by rw [hcl.quiet.freeMap, he.size], fun h => absurd h hlast, fun _ => hcl.quiet.freeMap⟩
    · funext k
      exact (hcl.quiet.frame ∅).entryAt he.mounted.vol (fun hmem => hmem) hd1 hd0 k
    · exact (hcl.quiet.removed s).mpr he.removed
    · rw [hcl.quiet.node s hs1, he.node]
    · intro j
      rw [hcl.count j, he.count j]
      rfl

variable {e : Buffer}

section
variable (h : NamespaceOk d0 fs X) (hlock : ∀ j, j ≠ d → fs.locked j = false)
  (hslot : fs.tree.slot d q = some (name, s))
include h hlock hslot

theorem openAndCheck_spec :
    ∃ may fs', mayRemove inodeOps (inodeOpen fs s) s = some (may, fs') ∧
      Shift d0 fs fs' (ref s) ∧ Unmoved fs fs' ∧ (may = true ↔ fs.removable s) := by
  obtain ⟨hs, hsloose, -⟩ := h.wf.target hslot
  have h0 : s ≠ FREE_MAP_SECTOR := fun he => hsloose (.inr (.inl he))
  obtain ⟨hm, hop⟩ := h.mounted.inodeOpen hs fun _ => hlock s (h.wf.target_ne hslot)
  have hsh : Shift d0 fs (inodeOpen fs s) (ref s) := ⟨hm, hop.quiet, hop.count⟩
  obtain ⟨ino, hino⟩ := hop.struct
  obtain ⟨may, fs', hmay, hreads, hiff⟩ := mayRemove_spec hm hino
  refine ⟨may, fs', hmay, hsh.trans (Reads.shift hreads hm) fun j => (Int.add_zero _).symm,
    (hop.quiet.unmoved (inodeOpen_view fs s)).trans (hreads.quiet.unmoved hreads.view), ?_⟩
  have hcount := hop.count s
  rw [if_pos rfl] at hcount
  have hnonneg := h.mounted.vol.openCount_nonneg s
  have hentry : ∀ k, (inodeOpen fs s).entryAt s k = fs.entryAt s k :=
    (hop.quiet.frame ∅).entryAt h.mounted.vol (fun hmem => hmem) hs h0
  have hle : (inodeOpen fs s).openCount s ≤ 1 ↔ fs.openCount s = 0 := by omega
  rw [hiff, hop.quiet.node s hs, hle]
  simp only [hentry, FS.removable]

/-- The inode of the entry may not be removed. -/
theorem removeEntry_refused (he : DirEntry.inodeSector e = s) (hnot : ¬ fs.removable s)
    (ofs : Nat) :
    ∃ fs', removeEntry inodeOps fs d e ofs = some (false, fs') ∧ Shift d0 fs fs' fun _ => 0 := by
  obtain ⟨hs, hsloose, -⟩ := h.wf.target hslot
  have h0 : s ≠ FREE_MAP_SECTOR := fun he => hsloose (.inr (.inl he))
  obtain ⟨may, fs1, hmay, hsh1, -, hiff⟩ := openAndCheck_spec h hlock hslot
  obtain rfl : may = false := by
    cases may with
    | false => rfl
    | true => exact absurd (hiff.mp rfl) hnot
  have hopen1 : 0 < fs1.openCount s := by
    have := h.mounted.vol.openCount_nonneg s
    rw [hsh1.count, ref, if_pos rfl]
    omega
  have hrem1 : ¬ fs1.isRemoved s := fun hr =>
    hsloose (.inr (.inr ((hsh1.quiet.removed s).mp hr)))
  obtain ⟨fs2, hclose, hsh2⟩ := hsh1.mounted.close_shift hopen1 h0 hrem1
  refine ⟨fs2, ?_, hsh1.trans hsh2 fun j => (Int.add_right_neg _).symm⟩
  have hopenEq : inodeOps.inodeOpen fs s = inodeOpen fs s := rfl
  have hcloseEq : inodeOps.inodeClose fs1 s = some fs2 := hclose
  simp only [removeEntry, eraseIfAllowed, he, hopenEq, hmay, hcloseEq, some_bind, Bool.false_eq_true, if_false]

end

theorem removeEntry_spec (h : NamespaceOk d0 fs X) (hd : fs.isDirectory d)
    (hopen : 0 < fs.openCount d) (hlock : ∀ j, j ≠ d → fs.locked j = false)
    (hslot : fs.tree.slot d q = some (name, s)) (he : DirEntry.inodeSector e = s)
    (hmay : fs.removable s) :
    ∃ fs', removeEntry inodeOps fs d e (DIR_ENTRY_SIZE * q) = some (true, fs') ∧
      Unlinked d0 fs fs' d s name ∧ Releases fs fs' s (fs.openCount s = 0) := by
  obtain ⟨hs, hsloose, -⟩ := h.wf.target hslot
  have h0 : s ≠ FREE_MAP_SECTOR := fun he => hsloose (.inr (.inl he))
  have hne := h.wf.target_ne hslot
  have hd0 := h.mounted.directory_ne hd
  have hat : fs.entryAt d q = some (name, s) := (tree_slot hd q).symm.trans hslot
  obtain ⟨may, fs1, hcheck, hsh1, hmoved1, hiff⟩ := openAndCheck_spec h hlock hslot
  obtain rfl : may = true := hiff.mpr hmay
  have hcount1 : fs1.openCount s = fs.openCount s + 1 := by
    rw [hsh1.count, ref, if_pos rfl]
  have hopen1 : 0 < fs1.openCount s := by
    have := h.mounted.vol.openCount_nonneg s
    omega
  obtain ⟨ino, hino⟩ := hsh1.mounted.vol.open_iff.mpr hopen1
  have hd1 : fs1.isDirectory d := hsh1.isDirectory.mpr hd
  have hsame1 := hsh1.dirTable h.mounted hd
  have hq1 : q < (fs1.dirTable d).slots := by
    rw [hsame1.1]
    exact at?_lt hat
  have hlock0 : fs1.locked FREE_MAP_SECTOR = false := by
    rw [hsh1.quiet.locked]
    exact hlock _ hd0.symm
  have hopend1 : 0 < fs1.openCount d := by
    rw [hsh1.count, ref, if_neg hne.symm]
    omega
  obtain ⟨fs2, herase, her, hmoved2⟩ := eraseEntry_spec hsh1.mounted hd1 hopend1 hlock0 hino h0 hne e hq1
  obtain ⟨fs3, hclose, hm3, hfr, hlive, hnode, hentry, hgone, hstays, hothers, hcount,
    hlocked, hfile, hsize, hrel⟩ :=
    her.close hlock0 hopen1 h0 hne hd1.1 hd0
  refine ⟨fs3, ?_, ⟨hm3, (hsh1.quiet.frame _).trans hfr, hlive, ?_, ?_, ⟨q, hat, ?_⟩,
    fun hz => hgone (by omega), fun hpos => ?_,
    fun j hj => (hothers j hj).trans (hsh1.quiet.removed j), fun j => ?_, hlocked.trans hsh1.quiet.locked,
    hfile.trans hsh1.quiet.freeMapFile, by rw [hsize, hsh1.quiet.freeMap]⟩,
    (hmoved1.trans hmoved2).releases h.mounted.vol her.mounted.vol hs hrel (by omega)⟩
  · have hopenEq : inodeOps.inodeOpen fs s = inodeOpen fs s := rfl
    have hcloseEq : inodeOps.inodeClose fs2 s = some fs3 := hclose
    simp only [removeEntry, eraseIfAllowed, he, hopenEq, hcheck, herase, hcloseEq,
      some_bind, if_true]
  · rw [hnode, her.kind, hsh1.quiet.node d hd.1]
  · rw [hnode, her.parent, hsh1.quiet.node d hd.1]
  · rw [hentry, her.slot]
    show update (fs1.dirTable d).at? q none = _
    rw [hsame1.at?_eq]
    rfl
  · obtain ⟨h1, h2, h3⟩ := hstays (by omega)
    exact ⟨h1, h2, h3.trans (hsh1.quiet.node s hs)⟩
  · rw [hcount, hsh1.count, Int.add_sub_cancel]

theorem Shift.removable (hsh : Shift d0 fs fs' fun _ => 0) (h : Vol d0 fs) (hs : s ∈ fs.live)
    (h0 : s ≠ FREE_MAP_SECTOR) : fs'.removable s ↔ fs.removable s := by
  have hentry := (hsh.quiet.frame ∅).entryAt h (fun hmem => hmem) hs h0
  simp only [FS.removable, hsh.quiet.node s hs, hentry, hsh.count, Int.add_zero]

section
variable (h : Idle d0 fs X) (hd : fs.isDirectory d) (hopen : 0 < fs.openCount d)
include h hd hopen

/-- The first part of `dir_remove`: the directory is locked and the name is looked up. -/
theorem lockAndLookup (name : CString) :
    ∃ l e fs', inodeOps.inodeLockAcquire fs d = some { fs with locked := l } ∧
      l = update fs.locked d true ∧
      lookup inodeOps { fs with locked := l } d name =
        some (((fs.dirTable d).slotOf name).map fun q => (e, DIR_ENTRY_SIZE * q), fs') ∧
      Shift d0 { fs with locked := l } fs' (fun _ => 0) ∧ Unmoved { fs with locked := l } fs' ∧
      (∀ j, j ≠ d → fs'.locked j = false) ∧
      ∀ q, (fs.dirTable d).slotOf name = some q → ∃ s, (fs.dirTable d).find name = some s ∧
        DirEntry.inodeSector e = s ∧ fs'.tree.slot d q = some (name, s) ∧
        (fs'.removable s ↔ fs.removable s) := by
  obtain ⟨l, e, fs1, hl, hacq, hlook, hreads, hentry⟩ := h.lock_lookup hd hopen name
  have hml := h.mounted.lock l
  have hsh := hreads.shift hml
  refine ⟨l, e, fs1, hacq, hl, hlook, hsh, hreads.quiet.unmoved hreads.view, fun j hj => ?_,
    fun q hq => ?_⟩
  · rw [hsh.quiet.locked]
    show l j = false
    rw [hl, update_of_ne hj]
    exact h.unlocked j
  · have hfind : (fs.dirTable d).find name =
        some (DirEntry.inodeSector ((fs.dirTable d).entry q)) := by
      rw [EntryTable.find, hq]
      rfl
    obtain ⟨hs, hsloose, -⟩ := h.find_live hd hfind
    refine ⟨_, hfind, DirEntry.inodeSector_congr (hentry q hq), ?_,
      hsh.removable hml.vol hs fun he => hsloose (.inr (.inl he))⟩
    rw [(hsh.quiet.frame ∅).tree_slot hml (fun hmem => hmem) q]
    exact (tree_slot hd q).trans (slotOf_some hq)

/-- There is no such name, or its inode may not be removed. -/
theorem dirRemove_refused (hnot : ∀ s, (fs.dirTable d).find name = some s → ¬ fs.removable s) :
    ∃ fs', dirRemove inodeOps fs d name = some (false, fs') ∧ Shift d0 fs fs' fun _ => 0 := by
  obtain ⟨l, e, fs1, hacq, hl, hlook, hsh1, -, hlock, hentry⟩ := lockAndLookup h hd hopen name
  -- what is left to do when nothing is removed
  obtain ⟨fs2, hrest, hsh2⟩ : ∃ fs2, dirRemoveLocked inodeOps { fs with locked := l } d name =
      some (false, fs2) ∧ Shift d0 { fs with locked := l } fs2 fun _ => 0 := by
    unfold dirRemoveLocked
    cases hslot : (fs.dirTable d).slotOf name with
    | none =>
      rw [hslot] at hlook
      exact ⟨fs1, by rw [hlook]; rfl, hsh1⟩
    | some q =>
      obtain ⟨s, hs, hsec, htree, hrem⟩ := hentry q hslot
      have hns1 : NamespaceOk d0 fs1 X := (h.ns.lock l).of_quiet hsh1.mounted hsh1.quiet
      obtain ⟨fs2, hremove, hsh2⟩ := removeEntry_refused hns1 hlock htree hsec
        (fun hr => hnot s hs (hrem.mp hr)) (DIR_ENTRY_SIZE * q)
      rw [hslot] at hlook
      exact ⟨fs2, by rw [hlook]; exact hremove, hsh1.trans hsh2 fun _ => rfl⟩
  have hrel : inodeOps.inodeLockRelease fs2 d = some { fs2 with locked := fs.locked } :=
    lockRelease_eq (hsh2.quiet.locked.trans hl) (h.unlocked d)
  refine ⟨{ fs2 with locked := fs.locked }, ?_, hsh2.mounted.lock _, hsh2.quiet.relock, hsh2.count⟩
  simp only [dirRemove, hacq, hrest, hrel, some_bind]

/-- **`dir_remove`** of an inode that may be removed. -/
theorem dirRemove_spec (hs : (fs.dirTable d).find name = some s) (hmay : fs.removable s) :
    ∃ fs', dirRemove inodeOps fs d name = some (true, fs') ∧ Unlinked d0 fs fs' d s name ∧
      Releases fs fs' s (fs.openCount s = 0) := by
  obtain ⟨l, e, fs1, hacq, hl, hlook, hsh1, hmoved, hlock, hentry⟩ := lockAndLookup h hd hopen name
  obtain ⟨q, hslot, -⟩ := map_eq_some_iff.mp hs
  obtain ⟨s', hs', hsec, htree, hrem⟩ := hentry q hslot
  obtain rfl : s' = s := Option.some.inj (hs'.symm.trans hs)
  have hns1 : NamespaceOk d0 fs1 X := (h.ns.lock l).of_quiet hsh1.mounted hsh1.quiet
  have hopen1 : 0 < fs1.openCount d := by
    rw [hsh1.count, Int.add_zero]
    exact hopen
  obtain ⟨fs2, hremove, hun, hreleases⟩ := removeEntry_spec hns1 (hsh1.isDirectory.mpr hd) hopen1 hlock htree
    hsec (hrem.mpr hmay)
  rw [hslot] at hlook
  have hrel : inodeOps.inodeLockRelease fs2 d = some { fs2 with locked := fs.locked } :=
    lockRelease_eq ((hun.locked.trans hsh1.quiet.locked).trans hl) (h.unlocked d)
  refine ⟨{ fs2 with locked := fs.locked }, ?_, ?_⟩
  · simp only [dirRemove, dirRemoveLocked, hacq, hlook, hremove, hrel, some_bind, Option.map_some]
  · have hnode : ∀ j ∈ fs.live, fs1.node j = fs.node j := hsh1.quiet.node
    have hcount : ∀ j, fs1.openCount j = fs.openCount j := fun j =>
      (hsh1.count j).trans (Int.add_zero _)
    have hframe : Frame { fs with locked := l } fs2 {d, s'} := (hsh1.quiet.frame _).trans hun.frame
    have hat : fs1.entryAt d = fs.entryAt d := (hsh1.dirTable (h.mounted.lock l) hd).at?_eq
    refine ⟨⟨hun.mounted.lock _, { hframe with }, hun.dirLive,
      hun.kind.trans (by rw [hnode d hd.1]), hun.parent.trans (by rw [hnode d hd.1]), ?_, ?_, ?_, ?_, ?_,
      rfl, hun.freeMapFile.trans hsh1.quiet.freeMapFile,
      hun.size.trans (by rw [hsh1.quiet.freeMap])⟩, ?_⟩
    · rw [← hat]
      exact hun.slot
    · rw [← hcount]
      exact hun.gone
    · rw [← hcount, ← hnode s' (h.find_live hd hs).1]
      exact hun.stays
    · exact fun j hj => (hun.others j hj).trans (hsh1.quiet.removed j)
    · exact fun j => (hun.count j).trans (hcount j)
    · obtain ⟨hfreed, hkept⟩ := hmoved.releases (h.mounted.lock l).vol hsh1.mounted.vol
        (h.find_live hd hs).1 hreleases (by rw [hcount])
      exact ⟨hfreed, hkept⟩

end

/-! ## The tree after dir_remove -/

variable {j : Sector}

section
variable (hun : Unlinked d0 fs fs' d s name)
include hun

theorem Unlinked.live_iff (hd : d ∈ fs.live) (hj : j ≠ s) :
    j ∈ fs'.live ↔ j ∈ fs.live := by
  by_cases hjd : j = d
  · rw [hjd]
    exact iff_of_true hun.dirLive hd
  · exact hun.frame.live j (by simp [hjd, hj])

theorem Unlinked.isDirectory (hd : d ∈ fs.live) (hj : j ≠ s) :
    fs'.isDirectory j ↔ fs.isDirectory j := by
  unfold FS.isDirectory
  rw [hun.live_iff hd hj]
  refine and_congr_right fun hlive => ?_
  by_cases hjd : j = d
  · rw [hjd, hun.kind]
  · rw [hun.frame.node j hlive (by simp [hjd, hj])]

theorem Unlinked.parent_eq (hlive : j ∈ fs.live) (hj : j ≠ s) :
    (fs'.node j).parent = (fs.node j).parent := by
  by_cases hjd : j = d
  · rw [hjd, hun.parent]
  · rw [hun.frame.node j hlive (by simp [hjd, hj])]

theorem Unlinked.not_isDirectory (h : Vol d0 fs) (hmay : fs.removable s) : ¬ fs'.isDirectory s := by
  rintro ⟨hlive, hkind⟩
  have hnonneg := h.openCount_nonneg s
  by_cases hz : fs.openCount s = 0
  · exact hun.gone hz hlive
  · obtain ⟨-, -, hnode⟩ := hun.stays (by omega)
    rw [hnode] at hkind
    exact hz (hmay hkind).2

end

open Classical in
theorem Idle.unlinked (h : Idle d0 fs ∅) (hun : Unlinked d0 fs fs' d s name)
    (hd : fs.isDirectory d) (hmay : fs.removable s) : Idle d0 fs' ∅ ∧ fs'.names ⊆ fs.names := by
  obtain ⟨q, hat, hslot⟩ := hun.slot
  have hwf := h.ns.wf
  rw [empty_union] at hwf
  have hk : fs.tree.slot d q = some (name, s) := (tree_slot hd q).trans hat
  obtain ⟨hs, hsloose, hsroot⟩ := hwf.target hk
  have hne := hwf.target_ne hk
  have hempty : ∀ k, fs.tree.slot s k = none := by
    intro k
    by_cases hdir : fs.isDirectory s
    · rw [tree_slot hdir]
      exact (hmay hdir.2).1 k
    · exact tree_slot_none hdir k
  -- the tree without the entry, in which `s` is loose
  obtain ⟨T, hT⟩ : ∃ T : DirTree Sector CString, T = { fs.tree with
    slot := fun d' k' => if d' = d ∧ k' = q then none else fs.tree.slot d' k' } := ⟨_, rfl⟩
  have hTslot : ∀ d' k', T.slot d' k' = if d' = d ∧ k' = q then none else fs.tree.slot d' k' := by
    rw [hT]
    exact fun _ _ => rfl
  have hTwf : T.WF ROOT_DIR_SECTOR (insert s fs.loose) := by
    refine hwf.unlink hk hempty (by rw [hT]) (by rw [hT]) (fun x _ => by rw [hT]) ?_ ?_
    · rw [hTslot, if_pos ⟨rfl, rfl⟩]
    · intro d' k' hnot
      rw [hTslot, if_neg hnot]
  have hslots : fs'.tree.slot = T.slot := by
    funext d' k'
    rw [hTslot]
    by_cases hds : d' = s
    · rw [hds, tree_slot_none (hun.not_isDirectory h.mounted.vol hmay), hempty,
        if_neg fun he => hne he.1]
    · by_cases hdir : fs.isDirectory d'
      · rw [tree_slot ((hun.isDirectory hd.1 hds).mpr hdir), tree_slot hdir]
        by_cases hdd : d' = d
        · rw [hdd, hslot, update_apply]
          simp only [true_and]
        · rw [if_neg fun he => hdd he.1]
          exact hun.frame.entryAt h.mounted.vol (by simp [hdd, hds]) hdir.1
            (h.mounted.directory_ne hdir) k'
      · rw [tree_slot_none fun hd' => hdir ((hun.isDirectory hd.1 hds).mp hd'),
          tree_slot_none hdir, ite_self]
  have hloose : ∀ x, x ≠ s → (x ∈ fs'.loose ↔ x ∈ insert s fs.loose) := by
    intro x hxs
    simp only [FS.loose, mem_insert_iff, mem_ofPred_eq, hxs, hun.others x hxs, false_or]
  have hparent : ∀ x, fs'.isDirectory x → fs'.tree.parent x = T.parent x := by
    intro x hx
    have hxs : x ≠ s := fun he => hun.not_isDirectory h.mounted.vol hmay (he ▸ hx)
    rw [hT]
    exact hun.parent_eq ((hun.live_iff hd.1 hxs).mp hx.1) hxs
  have h0 : FREE_MAP_SECTOR ≠ s := fun he => hsloose (he ▸ .inl rfl)
  refine ⟨⟨⟨hun.mounted, ?_, fun i hi => ?_, ?_, fun hr => h.ns.present ((hun.others _ h0).mp hr)⟩,
    fun i => by rw [hun.locked]; exact h.unlocked i⟩, ?_⟩
  · rw [empty_union]
    have hnonneg := h.mounted.vol.openCount_nonneg s
    by_cases hz : fs.openCount s = 0
    · -- the inode is gone
      have hgone := hun.gone hz
      have hlive : fs'.tree.live = T.live \ {s} := by
        rw [hT]
        ext x
        by_cases hxs : x = s
        · simp [hxs, hgone]
        · simp [hxs, hun.live_iff hd.1 hxs]
      have hdir : fs'.tree.dir = T.dir \ {s} := by
        rw [hT]
        ext x
        by_cases hxs : x = s
        · simp [hxs, hun.not_isDirectory h.mounted.vol hmay]
        · simp [hxs, hun.isDirectory hd.1 hxs]
      refine (hTwf.destroy (mem_insert _ _) hlive hdir hparent hslots).congr rfl rfl
        (fun _ _ => rfl) rfl fun x hx => hloose x ?_
      exact fun he => hgone (he ▸ hx)
    · -- somebody has it open
      obtain ⟨hslive, hsrem, hsnode⟩ := hun.stays (by omega)
      have hsdir : ¬ fs.isDirectory s := fun hdir => hz (hmay hdir.2).2
      have hdir : fs'.tree.dir = T.dir := by
        rw [hT]
        ext x
        by_cases hxs : x = s
        · rw [hxs]
          exact iff_of_false (hun.not_isDirectory h.mounted.vol hmay) hsdir
        · exact hun.isDirectory hd.1 hxs
      refine hTwf.congr ?_ hdir (fun x hx => hparent x ?_) hslots fun x _ => ?_
      · rw [hT]
        ext x
        by_cases hxs : x = s
        · rw [hxs]
          exact iff_of_true hslive hs
        · exact hun.live_iff hd.1 hxs
      · rw [← hdir] at hx
        exact hx
      · by_cases hxs : x = s
        · rw [hxs]
          exact iff_of_true (.inr hsrem) (mem_insert _ _)
        · exact hloose x hxs
  · by_cases his : i = s
    · have hlive := hun.mounted.vol.removed_live hi
      rcases (hun.mounted.vol.core i hlive).kind with hkind | hkind
      · exact hkind
      · exact absurd ⟨hlive, hkind⟩ (his ▸ hun.not_isDirectory h.mounted.vol hmay)
    · have hi' := (hun.others i his).mp hi
      have hid : i ≠ d := fun he => h.directory_present hd (he ▸ hi')
      rw [hun.frame.node i (h.mounted.vol.removed_live hi') (by simp [hid, his])]
      exact h.ns.regular i hi'
  · rw [hun.parent_eq (hwf.dir_live hwf.root_dir) hsroot.symm]
    exact h.ns.rootParent
  · rintro n ⟨d', k', t, hat'⟩
    rw [hslots, hTslot] at hat'
    split at hat'
    · cases hat'
    · exact ⟨d', k', t, hat'⟩

end

end Pintos.FileSys
