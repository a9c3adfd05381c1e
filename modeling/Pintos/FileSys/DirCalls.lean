import Pintos.FileSys.Calls

/-!
# The calls of `directory.c` on the volume

`Idle` is the file system between two calls: the directories form a tree and no
lock is held. A call that only moves references is a `Shift`; what `dir_add` changes of the
volume is said by `Linked`.
-/

namespace Pintos.FileSys

open Lib Function EntryTable FS

/-- Between two calls. -/
structure Idle (d0 : Disk) (fs : FS) (X : Set Sector) : Prop where
  ns : NamespaceOk d0 fs X
  unlocked : ∀ i, fs.locked i = false

/-- A call that moves references and changes nothing else: `δ` is what it adds to the
open counts. -/
structure Shift (d0 : Disk) (fs fs' : FS) (δ : Sector → Int) : Prop where
  mounted : Mounted d0 fs'
  quiet : Quiet fs fs'
  count : ∀ j, fs'.openCount j = fs.openCount j + δ j

def ref (i : Sector) : Sector → Int := fun j => if j = i then 1 else 0

section
variable {d0 : Disk} {fs fs' fs'' : FS} {X : Set Sector} {δ ε η : Sector → Int}
  {i d : Sector}

theorem Shift.refl (h : Mounted d0 fs) : Shift d0 fs fs fun _ => 0 :=
  ⟨h, Quiet.refl fs, fun _ => (Int.add_zero _).symm⟩

theorem Shift.trans (h : Shift d0 fs fs' δ) (h' : Shift d0 fs' fs'' ε)
    (heq : ∀ j, η j = δ j + ε j) : Shift d0 fs fs'' η :=
  ⟨h'.mounted, h.quiet.trans h'.quiet, fun j => by
    rw [h'.count j, h.count j, heq j, Int.add_assoc]⟩

theorem Idle.shift (h : Idle d0 fs X) (hs : Shift d0 fs fs' δ) : Idle d0 fs' X :=
  ⟨h.ns.of_quiet hs.mounted hs.quiet, fun i => by rw [hs.quiet.locked]; exact h.unlocked i⟩

theorem Vol.open_iff (h : Vol d0 fs) : (∃ ino, fs.inode? i = some ino) ↔ 0 < fs.openCount i := by
  constructor
  · rintro ⟨ino, hino⟩
    have := (h.opened i ino hino).2.count
    rw [openCount_of_open hino]
    omega
  · intro hpos
    cases hino : fs.inode? i with
    | none =>
      rw [openCount_of_closed hino] at hpos
      omega
    | some ino => exact ⟨ino, rfl⟩

theorem Vol.openCount_nonneg (h : Vol d0 fs) (i : Sector) : 0 ≤ fs.openCount i := by
  cases hino : fs.inode? i with
  | none => rw [openCount_of_closed hino]
  | some ino =>
    have := (h.opened i ino hino).2.count
    rw [openCount_of_open hino]
    omega

theorem Vol.closed_of_count (h : Vol d0 fs) (hc : fs.openCount i = 0) : fs.inode? i = none := by
  cases hino : fs.inode? i with
  | none => rfl
  | some ino =>
    have := h.open_iff.mp ⟨ino, hino⟩
    omega

theorem Idle.mounted (h : Idle d0 fs X) : Mounted d0 fs := h.ns.mounted

theorem Idle.open_shift (h : Idle d0 fs X) (hi : i ∈ fs.live) :
    Shift d0 fs (inodeOpen fs i) (ref i) := by
  obtain ⟨hm, hop⟩ := h.mounted.inodeOpen hi (fun _ => h.unlocked i)
  exact ⟨hm, hop.quiet, hop.count⟩

/-- `inode_close` of an inode that is not removed. -/
theorem Mounted.close_shift (h : Mounted d0 fs) (hopen : 0 < fs.openCount i)
    (h0 : i ≠ FREE_MAP_SECTOR) (hrem : ¬ fs.isRemoved i) :
    ∃ fs', FileSys.inodeClose (freeMapOps 1) fs i = some fs' ∧ Shift d0 fs fs' fun j => -ref i j := by
  obtain ⟨ino, hino⟩ := h.vol.open_iff.mpr hopen
  have hr : ino.removed = false := by
    cases hr : ino.removed with
    | false => rfl
    | true => exact absurd ⟨ino, hino, hr⟩ hrem
  obtain ⟨fs', heq, hm, hcl⟩ := h.inodeClose (freeMapOps 1) hino h0 (.inl hr)
  exact ⟨fs', heq, hm, hcl.quiet, fun j => by rw [hcl.count j]; rfl⟩

theorem Idle.directory_present (h : Idle d0 fs X) (hd : fs.isDirectory d) : ¬ fs.isRemoved d := by
  intro hr
  have := h.ns.regular d hr
  rw [hd.2] at this
  cases this

theorem Idle.dirClose_shift (h : Idle d0 fs X) (hd : fs.isDirectory d)
    (hopen : 0 < fs.openCount d) :
    ∃ fs', dirClose inodeOps fs d = some fs' ∧ Shift d0 fs fs' fun j => -ref d j :=
  h.mounted.close_shift hopen (h.mounted.directory_ne hd) (h.directory_present hd)

theorem Shift.isDirectory (h : Shift d0 fs fs' δ) : fs'.isDirectory d ↔ fs.isDirectory d :=
  (h.quiet.frame ∅).isDirectory (fun hd => hd)

theorem Shift.dirTable (h : Shift d0 fs fs' δ) (hm : Mounted d0 fs) (hd : fs.isDirectory d) :
    (fs.dirTable d).Same (fs'.dirTable d) :=
  (h.quiet.frame ∅).dirTable hm.vol (fun hd => hd) hd.1 (hm.directory_ne hd)

/-! ## Reading a directory -/

theorem Mounted.dirOpen (h : Mounted d0 fs) (hd : fs.isDirectory d) (hopen : 0 < fs.openCount d) :
    DirOpen d0 fs d := by
  obtain ⟨ino, hino⟩ := h.vol.open_iff.mpr hopen
  refine ⟨h.vol, ino, hino, ?_⟩
  have hs := h.whole d hd.1 (.inl hd.2)
  rw [shown_of_open hino, node_of_open hino] at hs
  exact hs

/-- A call that only reads moves no reference. -/
theorem Reads.shift (h : Reads d0 fs fs') (hm : Mounted d0 fs) : Shift d0 fs fs' fun _ => 0 := by
  refine ⟨hm.of_sameRest h.vol h.quiet h.rest, h.quiet, fun j => ?_⟩
  rw [openCount_congr (h.rest.inode? j), Int.add_zero]

theorem FS.find_slot (hd : fs.isDirectory d) {name : CString} {s : Sector}
    (hs : (fs.dirTable d).find name = some s) :
    ∃ k, fs.tree.slot d k = some (name, s) := by
  obtain ⟨k, hk, rfl⟩ := Option.map_eq_some_iff.mp hs
  exact ⟨k, by rw [tree_slot hd]; exact slotOf_some hk⟩

theorem Idle.find_live (h : Idle d0 fs X) (hd : fs.isDirectory d) {name : CString} {s : Sector}
    (hs : (fs.dirTable d).find name = some s) :
    s ∈ fs.live ∧ s ∉ X ∪ fs.loose ∧ s ≠ ROOT_DIR_SECTOR := by
  obtain ⟨k, hk⟩ := find_slot hd hs
  exact h.ns.wf.target hk

def opened : Option Sector → Sector → Int
  | none, _ => 0
  | some s, j => ref s j

/-- A directory is locked and the name is looked up. -/
theorem Idle.lock_lookup (h : Idle d0 fs X) (hd : fs.isDirectory d) (hopen : 0 < fs.openCount d)
    (name : CString) :
    ∃ l e fs', l = update fs.locked d true ∧
      inodeOps.inodeLockAcquire fs d = some { fs with locked := l } ∧
      lookup inodeOps { fs with locked := l } d name =
        some (((fs.dirTable d).slotOf name).map fun q => (e, DIR_ENTRY_SIZE * q), fs') ∧
      Reads d0 { fs with locked := l } fs' ∧
      ∀ q, (fs.dirTable d).slotOf name = some q → SameEntry e ((fs.dirTable d).entry q) := by
  have hml := h.mounted.lock (update fs.locked d true)
  obtain ⟨e, fs1, hlook, hreads, hentry⟩ := (dirReader d0 d).lookup_spec (hml.dirOpen hd hopen) name
  exact ⟨_, e, fs1, rfl, lockAcquire_eq (h.unlocked d), hlook, hreads, hentry⟩

/-- **`dir_lookup`** opens the inode with the name. -/
theorem dirLookup_spec (h : Idle d0 fs X) (hd : fs.isDirectory d) (hopen : 0 < fs.openCount d)
    (name : CString) :
    ∃ fs', dirLookup inodeOps fs d name = some ((fs.dirTable d).find name, fs') ∧
      Shift d0 fs fs' (opened ((fs.dirTable d).find name)) := by
  obtain ⟨l, e, fs1, hl, hacq, hlook', hreads, hentry'⟩ := h.lock_lookup hd hopen name
  have hsh1 : Shift d0 { fs with locked := l } fs1 fun _ => 0 := hreads.shift (h.mounted.lock l)
  unfold dirLookup
  cases hslot : (fs.dirTable d).slotOf name with
  | none =>
    have hfind : (fs.dirTable d).find name = none := by
      rw [EntryTable.find, hslot]
      rfl
    rw [hslot] at hlook'
    have hrel : inodeOps.inodeLockRelease fs1 d = some { fs1 with locked := fs.locked } :=
      lockRelease_eq (hsh1.quiet.locked.trans hl) (h.unlocked d)
    refine ⟨{ fs1 with locked := fs.locked }, ?_, hsh1.mounted.lock _, hsh1.quiet.relock, ?_⟩
    · simp only [hacq, hlook', hrel, hfind, some_bind, Option.map_none]
    · rw [hfind]
      exact hsh1.count
  | some q =>
    have hsec : DirEntry.inodeSector e = DirEntry.inodeSector ((fs.dirTable d).entry q) :=
      DirEntry.inodeSector_congr (hentry' q hslot)
    obtain ⟨s, hs⟩ : ∃ s, s = DirEntry.inodeSector e := ⟨_, rfl⟩
    have hfind : (fs.dirTable d).find name = some s := by
      rw [EntryTable.find, hslot, hs, hsec]
      rfl
    rw [hslot] at hlook'
    have hlive : s ∈ fs1.live := by
      rw [hsh1.quiet.live]
      exact (h.find_live hd hfind).1
    -- a struct that has to be made is not that of the directory, whose lock is held
    have hlock : fs1.inode? s = none → fs1.locked s = false := by
      intro hnone
      have hne : s ≠ d := by
        rintro rfl
        have hc := hsh1.count s
        rw [openCount_of_closed hnone, Int.add_zero] at hc
        exact absurd hc (ne_of_lt hopen)
      rw [hsh1.quiet.locked]
      show l s = false
      rw [hl, update_of_ne hne]
      exact h.unlocked s
    obtain ⟨hm2, hop⟩ := hsh1.mounted.inodeOpen hlive hlock
    have hsh2 : Shift d0 fs1 (inodeOpen fs1 s) (ref s) := ⟨hm2, hop.quiet, hop.count⟩
    have hsh : Shift d0 { fs with locked := l } (inodeOpen fs1 s) (ref s) :=
      hsh1.trans hsh2 fun j => (Int.zero_add _).symm
    have hrel : inodeOps.inodeLockRelease (inodeOpen fs1 s) d =
        some { inodeOpen fs1 s with locked := fs.locked } :=
      lockRelease_eq (hsh.quiet.locked.trans hl) (h.unlocked d)
    have hopenEq : inodeOps.inodeOpen fs1 s = inodeOpen fs1 s := rfl
    refine ⟨{ inodeOpen fs1 s with locked := fs.locked }, ?_, hsh.mounted.lock _,
      hsh.quiet.relock, ?_⟩
    · simp only [hacq, hlook', ← hs, hopenEq, hrel, hfind, some_bind,
        Option.map_some]
    · rw [hfind]
      exact hsh.count

/-! ## Setting the parent of a new inode -/

/-- The parent of inode `s` is now `d`, and nothing else has changed. -/
structure Adopted (fs fs' : FS) (d s : Sector) : Prop where
  live : fs'.live = fs.live
  node : ∀ j ∈ fs.live, fs'.node j = if j = s then { fs.node s with parent := d } else fs.node j
  byte : ∀ j ∈ fs.live, ∀ k, k / 512 < (fs.node j).sectors → fs'.byte j k = fs.byte j k
  inodes : ∀ j, fs'.inode? j = fs.inode? j
  freeMap : fs'.freeMap = fs.freeMap
  freeMapFile : fs'.freeMapFile = fs.freeMapFile
  locked : fs'.locked = fs.locked
  cached : ∀ u, fs'.store.cached u → fs.store.cached u ∨ fs.isUsed u

variable {s : Sector}

theorem adopt_spec (h : Mounted d0 fs) (hs : s ∈ fs.live) (hclosed : fs.inode? s = none)
    (hlock : fs.locked s = false) (h0 : s ≠ FREE_MAP_SECTOR) :
    ∃ fs', adopt inodeOps fs d s = some fs' ∧ Mounted d0 fs' ∧ Adopted fs fs' d s := by
  obtain ⟨hm1, hop⟩ := h.inodeOpen hs (fun _ => hlock)
  obtain ⟨ino, hino⟩ := hop.struct
  have hnode1 : ino = fs.node s := by
    rw [← node_of_open hino, hop.quiet.node s hs]
  have hok := (hm1.vol.opened s ino hino).2
  have hcore := hm1.vol.coreOk_open hino
  have hcnt : ino.openCnt = 1 := by
    have hc := hop.count s
    rw [openCount_of_open hino, openCount_of_closed hclosed, if_pos rfl] at hc
    omega
  have hrem : ino.removed = false := by
    cases hr : ino.removed with
    | false => rfl
    | true =>
      obtain ⟨e, he, -⟩ := (hop.quiet.removed s).mp ⟨ino, hino, hr⟩
      cases hclosed.symm.trans he
  -- the assignment to `inode->parent`
  obtain ⟨ino', hino'⟩ : ∃ e : Inode, e = { ino with parent := d } := ⟨_, rfl⟩
  have hsec : ino'.sector = s := by
    rw [hino', ← inode?_sector hino]
  have hset : inodeOps.inodeSetParent (inodeOpen fs s) s d =
      some ((inodeOpen fs s).setInode ino') := by
    show inodeSetParent _ _ _ = _
    unfold inodeSetParent
    rw [hino, hino']
    rfl
  have hcore' : CoreOk ino' := by
    rw [hino']
    exact { hcore with cursor := { hcore.cursor with } }
  have hok' : OpenOk ino' := by
    rw [hino']
    exact { hok with }
  have hptrs : ino'.ptrs = ino.ptrs := by rw [hino']
  have hm2 : Mounted d0 ((inodeOpen fs s).setInode ino') :=
    hm1.setInode hino hsec (by rw [hino']) hptrs (by rw [hino']) (by rw [hino']) hcore' hok'
  have hfind2 := inode?_setInode hino hsec
  have hino2 : ((inodeOpen fs s).setInode ino').inode? s = some ino' := by
    rw [hfind2, if_pos rfl]
  -- and the close that stores it
  obtain ⟨fs3, hclose, hvol3, hcl, hgone⟩ := inodeClose_last (freeMapOps 1) hm2.vol hino2
    (by rw [hino']; exact hcnt) (by rw [hino']; exact hrem)
  have hopen0 : ∃ e, ((inodeOpen fs s).setInode ino').inode? FREE_MAP_SECTOR = some e := hm2.opened
  have hm3 := hm2.of_quiet hvol3 hcl.quiet (hcl.still_open h0.symm hopen0)
  have hlive2 : ((inodeOpen fs s).setInode ino').live = fs.live := hop.quiet.live
  have hnode3 : ∀ j ∈ fs.live, fs3.node j =
      if j = s then { fs.node s with parent := d } else fs.node j := by
    intro j hj
    rw [hcl.quiet.node j (hlive2 ▸ hj), node_setInode hino hsec]
    by_cases hjs : j = s
    · rw [if_pos hjs, if_pos hjs, hino', ← hnode1]
    · rw [if_neg hjs, if_neg hjs, hop.quiet.node j hj]
  refine ⟨fs3, ?_, hm3, hcl.quiet.live.trans hlive2, hnode3, ?_, ?_, hcl.quiet.freeMap.trans
    hop.quiet.freeMap, hcl.quiet.freeMapFile.trans hop.quiet.freeMapFile,
    hcl.quiet.locked.trans hop.quiet.locked, ?_⟩
  · show (inodeOps.inodeSetParent (inodeOpen fs s) s d).bind _ = _
    rw [hset, Option.bind_some]
    exact hclose
  · intro j hj k hk
    have hsectors : (((inodeOpen fs s).setInode ino').node j).sectors = (fs.node j).sectors := by
      rw [node_setInode hino hsec]
      by_cases hjs : j = s
      · rw [if_pos hjs, hjs, hino', ← hnode1]
        rfl
      · rw [if_neg hjs, hop.quiet.node j hj]
    rw [hcl.quiet.byte j (hlive2 ▸ hj) k (by rw [hsectors]; exact hk), byte_setInode hino hsec hptrs,
      hop.quiet.byte j hj k hk]
  · intro j
    by_cases hjs : j = s
    · rw [hjs, hgone, hclosed]
    · rw [hcl.others j hjs, hfind2, if_neg hjs, hop.others j hjs]
  · intro u hu
    rcases hcl.quiet.cached u hu with hu | hu
    · exact hop.quiet.cached u hu
    · right
      unfold FS.isUsed at hu ⊢
      rw [show ((inodeOpen fs s).setInode ino').freeMap = fs.freeMap from hop.quiet.freeMap] at hu
      exact hu

/-! ## Writing a slot -/

structure SlotWritten (fs fs' : FS) (d : Sector) (k : Nat) (e : Buffer) (m : Nat) : Prop where
  touched : Touched fs fs' d m
  kind : (fs'.node d).isDir = (fs.node d).isDir
  parent : (fs'.node d).parent = (fs.node d).parent
  writes : (fs.dirTable d).Writes (fs'.dirTable d) k e
  count : ∀ j, fs'.openCount j = fs.openCount j
  removed : ∀ j, fs'.isRemoved j ↔ fs.isRemoved j

variable {k m : Nat}

theorem writeEntry_spec (h : Mounted d0 fs) (hd : fs.isDirectory d) (hopen : 0 < fs.openCount d)
    (hlock0 : fs.locked FREE_MAP_SECTOR = false) (e : Buffer) (hk : k ≤ (fs.dirTable d).slots)
    (hw : WriteOk fs (fs.node d) DIR_ENTRY_SIZE (DIR_ENTRY_SIZE * k : Nat) m) :
    ∃ fs', inodeWriteAt (freeMapOps 1) fs d e DIR_ENTRY_SIZE (DIR_ENTRY_SIZE * k : Nat) =
        some ((DIR_ENTRY_SIZE : Int), fs') ∧ Mounted d0 fs' ∧
      SlotWritten fs fs' d k e
        (m - writeCost (fs.node d) DIR_ENTRY_SIZE (DIR_ENTRY_SIZE * k : Nat)) := by
  obtain ⟨ino, hino⟩ := h.vol.open_iff.mpr hopen
  have hnode := node_of_open hino
  have hcore := h.vol.coreOk_open hino
  have hkind : ino.isDir = 1 := by
    have := hd.2
    rw [hnode] at this
    exact this
  have hshown : ino.lengthShown = ino.length := by
    have hs := h.whole d hd.1 (.inl hd.2)
    rw [shown_of_open hino, hnode] at hs
    exact hs
  have hn0 := hcore.nonneg
  have hnb := hcore.bound
  have hslots : (fs.dirTable d).slots = ino.length.toNat / 20 := by
    simp only [FS.dirTable, hnode, DIR_ENTRY_SIZE]
  have hfit : 20 * k ≤ ino.length.toNat := by omega
  obtain ⟨len, hlen⟩ : ∃ len, len = lengthAfter ino (DIR_ENTRY_SIZE : Nat)
    ((DIR_ENTRY_SIZE * k : Nat) : Int) := ⟨_, rfl⟩
  have hend : len = max ino.length (20 * k + 20) := by
    rw [hlen, lengthAfter]
    unfold DIR_ENTRY_SIZE
    rw [i32_of_nonneg (by omega) (by omega)]
    omega
  have hcnt : 20 = (min ((DIR_ENTRY_SIZE : Nat) : Int)
      (len - ((DIR_ENTRY_SIZE * k : Nat) : Int))).toNat := by
    unfold DIR_ENTRY_SIZE
    omega
  rw [hnode] at hw ⊢
  obtain ⟨fs', ino', heq, hvol, hm, ht, hino', hlen', hkeep, hbyte⟩ := inodeWriteAt_spec h.vol
    h.mapReady hino (h.directory_ne hd) (fun hreg => by omega) hlock0 e hw hlen hcnt
  have hnode' := node_of_open hino'
  have hshown' : ino'.lengthShown = len := by
    rw [hkeep.lengthShown, hshown]
    show min len (ino.length + ((20 : Nat) : Int)) = len
    omega
  have hsectors : bytesToSectors len = (len.toNat + 511) / 512 :=
    bytesToSectors_eq (by omega) (by omega)
  have hold : ino.sectors = (ino.length.toNat + 511) / 512 :=
    bytesToSectors_eq hn0 (by omega)
  have hoff : ((DIR_ENTRY_SIZE * k : Nat) : Int).toNat = 20 * k := by
    unfold DIR_ENTRY_SIZE
    omega
  rw [hoff] at hbyte
  refine ⟨fs', heq, ?_, ht, ?_, ?_, ?_, ?_, ?_⟩
  · refine (Attached.of_mapReady hvol hm ?_).mounted fun j hj hdir => ?_
    · rw [ht.freeMapFile, h.file]
      simp
    · by_cases hjd : j = d
      · rw [hjd, shown_of_open hino', hnode', hshown', hlen']
      · rw [ht.live] at hj
        have hn := ht.frame.node j hj hjd
        rw [hn] at hdir
        rw [shown_congr (ht.others j hjd) hn, hn]
        exact h.whole j hj (.inl hdir)
  · rw [hnode', hkeep.isDir, hnode]
  · rw [hnode', hkeep.parent, hnode]
  · have hslots' : (fs'.dirTable d).slots = len.toNat / 20 := by
      simp only [FS.dirTable, hnode', hlen', DIR_ENTRY_SIZE]
    refine ⟨by omega, hk, fun j hj => ?_, fun q hq hqk j hj => ?_⟩
    · show fs'.byte d (DIR_ENTRY_SIZE * k + j) = e j
      unfold DIR_ENTRY_SIZE at hj ⊢
      rw [hbyte _ (by omega), if_pos (by omega), Nat.add_sub_cancel_left]
    · show fs'.byte d (DIR_ENTRY_SIZE * q + j) = fs.byte d (DIR_ENTRY_SIZE * q + j)
      unfold DIR_ENTRY_SIZE at hj ⊢
      rw [hbyte _ (by omega), if_neg (by omega), if_pos (by omega)]
  · intro j
    by_cases hjd : j = d
    · rw [hjd, openCount_of_open hino', openCount_of_open hino, hkeep.openCnt]
    · exact openCount_congr (ht.others j hjd)
  · intro j
    by_cases hjd : j = d
    · unfold FS.isRemoved
      rw [hjd, hino', hino]
      simp [hkeep.removed]
    · exact ht.frame.removed j hjd

/-! ## Adding an entry -/

structure NewName (t : EntryTable) (name : CString) : Prop where
  nonempty : name ≠ []
  length : name.length ≤ NAME_MAX
  absent : t.find name = none

/-- Inode `s` has become the entry `name` of directory `d`, with `d` as its parent. -/
structure Linked (d0 : Disk) (fs fs' : FS) (d s : Sector) (name : CString) (m : Nat) : Prop where
  mounted : Mounted d0 fs'
  frame : Frame fs fs' {d, s}
  live : fs'.live = fs.live
  node : fs'.node s = { fs.node s with parent := d }
  byte : ∀ k, k / 512 < (fs.node s).sectors → fs'.byte s k = fs.byte s k
  kind : (fs'.node d).isDir = (fs.node d).isDir
  parent : (fs'.node d).parent = (fs.node d).parent
  slot : ∃ k, fs.entryAt d k = none ∧
    fs'.entryAt d = update (fs.entryAt d) k (some (name, s))
  removed : ∀ j, fs'.isRemoved j ↔ fs.isRemoved j
  count : ∀ j, fs'.openCount j = fs.openCount j
  locked : fs'.locked = fs.locked
  freeMapFile : fs'.freeMapFile = fs.freeMapFile
  spent : Spent fs fs' m

variable {name : CString}

theorem EntryTable.find_eq_none_iff {t : EntryTable} : t.find name = none ↔ t.slotOf name = none := by
  unfold EntryTable.find
  rw [Option.map_eq_none_iff]

theorem Adopted.dirTable (ha : Adopted fs fs' d s) (hv : Vol d0 fs) (hd : d ∈ fs.live)
    (hne : d ≠ s) : (fs.dirTable d).Same (fs'.dirTable d) := by
  refine ⟨?_, fun k hk j hj => ha.byte d hd _ (hv.entry_sector hd hk hj)⟩
  unfold FS.dirTable
  rw [ha.node d hd, if_neg hne]

theorem dirAdd_refused (h : Idle d0 fs X) (hd : fs.isDirectory d) (hopen : 0 < fs.openCount d)
    (hname : ¬ NewName (fs.dirTable d) name) :
    ∃ fs', dirAdd inodeOps fs d name s = some (false, fs') ∧ Shift d0 fs fs' fun _ => 0 := by
  obtain ⟨l, hl⟩ : ∃ l, l = update fs.locked d true := ⟨_, rfl⟩
  have hml : Mounted d0 { fs with locked := l } := h.mounted.lock l
  have hacq : inodeOps.inodeLockAcquire fs d = some { fs with locked := l } := by
    rw [hl]
    exact lockAcquire_eq (h.unlocked d)
  -- whatever is read, the lock is given back
  have hback : ∀ fs1, Shift d0 { fs with locked := l } fs1 (fun _ => 0) →
      inodeOps.inodeLockRelease fs1 d = some { fs1 with locked := fs.locked } ∧
        Shift d0 fs { fs1 with locked := fs.locked } fun _ => 0 := by
    intro fs1 hsh
    exact ⟨lockRelease_eq (hsh.quiet.locked.trans hl) (h.unlocked d), hsh.mounted.lock _,
      hsh.quiet.relock, hsh.count⟩
  unfold dirAdd dirAddLocked
  simp only [hacq, some_bind]
  by_cases hbad : name = [] ∨ NAME_MAX < name.length
  · obtain ⟨hrel, hsh⟩ := hback _ (Shift.refl hml)
    exact ⟨_, by rw [if_pos hbad, some_bind, hrel, some_bind], hsh⟩
  · rw [if_neg hbad]
    have hreads1 : Reads d0 { fs with locked := l } ({ fs with locked := l } : FS).uninitBytes.2 :=
      reads_uninitBytes hml.vol
    have hopen1 := (dirReader d0 d).ok (hml.dirOpen hd hopen) hreads1
    obtain ⟨e, fs2, hlook, hreads2, -⟩ := (dirReader d0 d).lookup_spec hopen1 name
    have hreads : Reads d0 { fs with locked := l } fs2 := hreads1.trans hreads2
    have htable : ((dirReader d0 d).table ({ fs with locked := l } : FS).uninitBytes.2) =
        fs.dirTable d := congrFun hreads1.dirTable d
    rw [htable] at hlook
    obtain ⟨q, hq⟩ : ∃ q, (fs.dirTable d).slotOf name = some q := by
      refine Option.ne_none_iff_exists'.mp fun hnone => hname ⟨?_, ?_, ?_⟩
      · exact fun he => hbad (Or.inl he)
      · exact not_lt.mp fun hlt => hbad (Or.inr hlt)
      · exact find_eq_none_iff.mpr hnone
    obtain ⟨hrel, hsh⟩ := hback _ (Reads.shift hreads hml)
    refine ⟨_, ?_, hsh⟩
    have hun : inodeOps.uninitBytes { fs with locked := l } =
      ({ fs with locked := l } : FS).uninitBytes := rfl
    simp only [hun, hlook, hq, hrel, some_bind, Option.map_some]

theorem spent_of_freeMap (hmap : fs'.freeMap = fs.freeMap)
    (hcached : ∀ u, fs'.store.cached u → fs.store.cached u ∨ fs.isUsed u)
    (hsize : fs.freeMap.length ≤ 4294967296) (hb : Budget fs m) : Spent fs fs' m := by
  have hused : ∀ u, fs.isUsed u → fs'.isUsed u := by
    intro u hu
    unfold FS.isUsed at hu ⊢
    rwa [hmap]
  exact ⟨by rw [hmap], hused, fun u hu => (hcached u hu).imp id (hused u),
    hb.frame hmap hsize hcached⟩

theorem Quiet.spent (h : Quiet fs fs') (hsize : fs.freeMap.length ≤ 4294967296)
    (hb : Budget fs m) : Spent fs fs' m :=
  spent_of_freeMap h.freeMap h.cached hsize hb

theorem Adopted.spent (ha : Adopted fs fs' d s) (hsize : fs.freeMap.length ≤ 4294967296)
    (hb : Budget fs m) : Spent fs fs' m :=
  spent_of_freeMap ha.freeMap ha.cached hsize hb

/-- The last part of `dir_add`: the entry goes to the first free slot. -/
theorem writeSlot_spec (h : Mounted d0 fs) (hd : fs.isDirectory d) (hopen : 0 < fs.openCount d)
    (hlock0 : fs.locked FREE_MAP_SECTOR = false) (name : CString) (s : Sector) (e : Buffer)
    (hw : WriteOk fs (fs.node d) DIR_ENTRY_SIZE
      (DIR_ENTRY_SIZE * (fs.dirTable d).freeSlot : Nat) m) :
    ∃ e' fs', writeSlot inodeOps fs d name s e = some (true, fs') ∧ Mounted d0 fs' ∧
      SlotWritten fs fs' d (fs.dirTable d).freeSlot (DirEntry.newEntry e' name s)
        (m - writeCost (fs.node d) DIR_ENTRY_SIZE
          (DIR_ENTRY_SIZE * (fs.dirTable d).freeSlot : Nat)) := by
  have hcongr : ∀ e e', SameEntry e e' → (!DirEntry.inUse e) = !DirEntry.inUse e' :=
    fun e e' hs => by rw [DirEntry.inUse_congr hs]
  obtain ⟨e', fs1, hscan, hreads, -⟩ :=
    (dirReader d0 d).scanEntries_spec hcongr (h.dirOpen hd hopen) e
  have hreads : Reads d0 fs fs1 := hreads
  have hsh := Reads.shift hreads h
  have hnode : fs1.node d = fs.node d := hsh.quiet.node d hd.1
  have htable : fs1.dirTable d = fs.dirTable d := congrFun hreads.dirTable d
  have hw1 : WriteOk fs1 (fs1.node d) DIR_ENTRY_SIZE
      (DIR_ENTRY_SIZE * (fs.dirTable d).freeSlot : Nat) m := by
    rw [hnode]
    exact { hw with budget := hsh.quiet.budget h.vol.size hw.budget }
  obtain ⟨fs2, hwrite, hm2, hsw⟩ := writeEntry_spec hsh.mounted (hsh.isDirectory.mpr hd)
    (by rw [hsh.count]; omega) (by rw [hsh.quiet.locked]; exact hlock0)
    (DirEntry.newEntry e' name s) (by rw [htable]; exact (at?_freeSlot _).2) hw1
  rw [hnode] at hsw
  have hbefore : Touched fs fs1 d m :=
    ⟨hsh.quiet.frame _, fun j _ => hreads.rest.inode? j, hsh.quiet.live, hsh.quiet.locked,
      hsh.quiet.freeMapFile, hsh.quiet.spent h.vol.size hw.budget⟩
  refine ⟨e', fs2, ?_, hm2, hbefore.trans hsw.touched, hsw.kind.trans (by rw [hnode]),
    hsw.parent.trans (by rw [hnode]), htable ▸ hsw.writes, fun j => ?_,
    fun j => (hsw.removed j).trans (hsh.quiet.removed j)⟩
  · have hscan' : scanEntries inodeOps fs d (fun e => !DirEntry.inUse e) e =
        some (((fs.dirTable d).first fun e => !DirEntry.inUse e).isSome, e',
          DIR_ENTRY_SIZE * (fs.dirTable d).freeSlot, fs1) := hscan
    have hwrite' : inodeOps.inodeWriteAt fs1 d (DirEntry.setInodeSector
        (DirEntry.setName (DirEntry.setInUse e' true) name) s) DIR_ENTRY_SIZE
        (DIR_ENTRY_SIZE * (fs.dirTable d).freeSlot : Nat) = some ((DIR_ENTRY_SIZE : Int), fs2) :=
      hwrite
    simp only [writeSlot, hscan', hwrite', some_bind, decide_true]
  · rw [hsw.count, hsh.count, Int.add_zero]

theorem Adopted.frame (ha : Adopted fs fs' d s) : Frame fs fs' {s} where
  live := fun i _ => by rw [ha.live]
  node := fun i hi his => by rw [ha.node i hi, if_neg (Set.notMem_singleton_iff.mp his)]
  byte := fun i hi _ _ => ha.byte i hi
  removed := fun i _ => isRemoved_congr (ha.inodes i)

theorem dirAddLocked_spec (h : Mounted d0 fs) (hd : fs.isDirectory d) (hopen : 0 < fs.openCount d)
    (hs : s ∈ fs.live) (hclosed : fs.inode? s = none) (h0 : s ≠ FREE_MAP_SECTOR)
    (hlock : fs.locked s = false) (hlock0 : fs.locked FREE_MAP_SECTOR = false)
    (hname : NewName (fs.dirTable d) name) (hz : ∀ c ∈ name, c ≠ 0)
    (hw : WriteOk fs (fs.node d) DIR_ENTRY_SIZE
      (DIR_ENTRY_SIZE * (fs.dirTable d).freeSlot : Nat) m) :
    ∃ fs' m', dirAddLocked inodeOps fs d name s = some (true, fs') ∧
      Linked d0 fs fs' d s name m' := by
  have hne : d ≠ s := by
    rintro rfl
    rw [openCount_of_closed hclosed] at hopen
    omega
  have hsd : s ∉ ({d} : Set Sector) := fun he => hne (Set.mem_singleton_iff.mp he).symm
  -- the name is not found
  have hreads1 : Reads d0 fs fs.uninitBytes.2 := reads_uninitBytes h.vol
  obtain ⟨e0, fs1, hlook, hreads2, -⟩ :=
    (dirReader d0 d).lookup_spec ((dirReader d0 d).ok (h.dirOpen hd hopen) hreads1) name
  have hreads : Reads d0 fs fs1 := hreads1.trans hreads2
  have htable : (dirReader d0 d).table fs.uninitBytes.2 = fs.dirTable d :=
    congrFun hreads1.dirTable d
  rw [htable, find_eq_none_iff.mp hname.absent] at hlook
  have hsh := Reads.shift hreads h
  have hs1 : s ∈ fs1.live := hsh.quiet.live ▸ hs
  have hd1 : fs1.isDirectory d := hsh.isDirectory.mpr hd
  -- the new inode gets its parent
  obtain ⟨fs2, hadopt, hm2, had⟩ := adopt_spec (d := d) hsh.mounted hs1
    ((hreads.rest.inode? s).trans hclosed) (by rw [hsh.quiet.locked]; exact hlock) h0
  have hnode2 : fs2.node d = fs.node d := by
    rw [had.node d hd1.1, if_neg hne, hsh.quiet.node d hd.1]
  have hnode2s : fs2.node s = { fs.node s with parent := d } := by
    rw [had.node s hs1, if_pos rfl, hsh.quiet.node s hs]
  have hsame2 : (fs.dirTable d).Same (fs2.dirTable d) :=
    (hsh.dirTable h hd).trans (had.dirTable hsh.mounted.vol hd1.1 hne)
  have hslot2 : (fs2.dirTable d).freeSlot = (fs.dirTable d).freeSlot := by
    unfold EntryTable.freeSlot
    rw [hsame2.first_eq fun e e' he => by rw [DirEntry.inUse_congr he], hsame2.1]
  have hspent1 := hsh.quiet.spent h.vol.size hw.budget
  have hspent2 := hspent1.trans (had.spent hsh.mounted.vol.size hspent1.budget)
  have hcount2 : ∀ j, fs2.openCount j = fs.openCount j := by
    exact fun j => openCount_congr ((had.inodes j).trans (hreads.rest.inode? j))
  have hd2 : fs2.isDirectory d := by
    unfold FS.isDirectory
    rw [had.live, hsh.quiet.live, hnode2]
    exact hd
  -- and the entry is written
  have hw2 : WriteOk fs2 (fs2.node d) DIR_ENTRY_SIZE
      (DIR_ENTRY_SIZE * (fs2.dirTable d).freeSlot : Nat) m := by
    rw [hnode2, hslot2]
    exact { hw with budget := hspent2.budget }
  obtain ⟨e', fs3, hwrite, hm3, hsw⟩ := writeSlot_spec hm2 hd2 (by rw [hcount2]; exact hopen)
    (by rw [had.locked, hsh.quiet.locked]; exact hlock0) name s fs.uninitBytes.1 hw2
  have hs2 : s ∈ fs2.live := had.live ▸ hs1
  refine ⟨fs3, _, ?_, hm3, ?_, hsw.touched.live.trans (had.live.trans hsh.quiet.live), ?_, ?_, ?_, ?_,
    ?_, ?_, fun j => (hsw.count j).trans (hcount2 j),
    hsw.touched.locked.trans (had.locked.trans hsh.quiet.locked),
    hsw.touched.freeMapFile.trans (had.freeMapFile.trans hsh.quiet.freeMapFile),
    hspent2.trans hsw.touched.spent⟩
  · have hun : inodeOps.uninitBytes fs = fs.uninitBytes := rfl
    have hgood : ¬ (name = [] ∨ NAME_MAX < name.length) := by
      rintro (he | hlt)
      · exact hname.nonempty he
      · exact not_lt.mpr hname.length hlt
    simp only [dirAddLocked, if_neg hgood, hun, hlook, hadopt, hwrite, some_bind, Option.map_none]
  · exact ((hsh.quiet.frame _).trans (had.frame.mono (by simp))).trans
      (hsw.touched.frame.mono (by simp))
  · rw [hsw.touched.frame.node s hs2 hsd, hnode2s]
  · intro k hk
    rw [hsw.touched.frame.byte s hs2 hsd h0 k (by rw [hnode2s]; exact hk),
      had.byte s hs1 k (by rw [hsh.quiet.node s hs]; exact hk), hsh.quiet.byte s hs k hk]
  · rw [hsw.kind, hnode2]
  · rw [hsw.parent, hnode2]
  · refine ⟨(fs.dirTable d).freeSlot, (at?_freeSlot _).1, ?_⟩
    show (fs3.dirTable d).at? = update (fs.dirTable d).at? _ _
    rw [hsw.writes.at?_eq, hsame2.at?_eq, hslot2, DirEntry.decode_newEntry s hname.length hz]
  · intro j
    exact (hsw.removed j).trans (isRemoved_congr ((had.inodes j).trans (hreads.rest.inode? j)))

theorem Linked.relock {l : Sector → Bool} (h : Linked d0 { fs with locked := l } fs' d s name m) :
    Linked d0 fs { fs' with locked := fs.locked } d s name m where
  mounted := h.mounted.lock _
  frame := { h.frame with }
  __ := h
  locked := rfl
  spent := { h.spent with }

/-- **`dir_add`** of a new inode under a name that the directory takes. -/
theorem dirAdd_spec (h : Idle d0 fs X) (hd : fs.isDirectory d) (hopen : 0 < fs.openCount d)
    (hs : s ∈ fs.live) (hclosed : fs.inode? s = none) (h0 : s ≠ FREE_MAP_SECTOR)
    (hname : NewName (fs.dirTable d) name) (hz : ∀ c ∈ name, c ≠ 0)
    (hw : WriteOk fs (fs.node d) DIR_ENTRY_SIZE
      (DIR_ENTRY_SIZE * (fs.dirTable d).freeSlot : Nat) m) :
    ∃ fs' m', dirAdd inodeOps fs d name s = some (true, fs') ∧ Linked d0 fs fs' d s name m' := by
  have hne : s ≠ d := by
    rintro rfl
    rw [openCount_of_closed hclosed] at hopen
    omega
  obtain ⟨l, hl⟩ : ∃ l, l = update fs.locked d true := ⟨_, rfl⟩
  have hlock : ∀ j, j ≠ d → l j = false := by
    intro j hj
    rw [hl, update_of_ne hj]
    exact h.unlocked j
  have hacq : inodeOps.inodeLockAcquire fs d = some { fs with locked := l } := by
    rw [hl]
    exact lockAcquire_eq (h.unlocked d)
  have hw' : WriteOk { fs with locked := l } (fs.node d) DIR_ENTRY_SIZE
      (DIR_ENTRY_SIZE * (fs.dirTable d).freeSlot : Nat) m :=
    { hw with }
  obtain ⟨fs', m', hadd, hlk⟩ := dirAddLocked_spec (h.mounted.lock l) hd hopen hs hclosed h0
    (hlock s hne) (hlock _ (h.mounted.directory_ne hd).symm) hname hz hw'
  have hrel : inodeOps.inodeLockRelease fs' d = some { fs' with locked := fs.locked } :=
    lockRelease_eq (hlk.locked.trans hl) (h.unlocked d)
  refine ⟨{ fs' with locked := fs.locked }, m', ?_, hlk.relock⟩
  simp only [dirAdd, hacq, hadd, hrel, some_bind]

theorem Linked.isDirectory (h : Linked d0 fs fs' d s name m) (j : Sector) :
    fs'.isDirectory j ↔ fs.isDirectory j := by
  unfold FS.isDirectory
  rw [h.live]
  refine and_congr_right fun hj => ?_
  by_cases hjd : j = d
  · rw [hjd, h.kind]
  · by_cases hjs : j = s
    · rw [hjs, h.node]
    · rw [h.frame.node j hj (by simp [hjd, hjs])]

theorem Linked.entryAt_new (h : Linked d0 fs fs' d s name m) (hv : Vol d0 fs) (hs : s ∈ fs.live)
    (k : Nat) : fs'.entryAt s k = fs.entryAt s k := by
  have hsame : (fs.dirTable s).Same (fs'.dirTable s) := by
    refine ⟨?_, fun q hq j hj => h.byte _ (hv.entry_sector hs hq hj)⟩
    unfold FS.dirTable
    rw [h.node]
  exact congrFun hsame.at?_eq k

/-- **`dir_add` keeps the tree.** The inode it was given is no longer loose. -/
theorem Idle.linked (h : Idle d0 fs {s}) (hl : Linked d0 fs fs' d s name m)
    (hd : fs.isDirectory d) (hopen : 0 < fs.openCount d) (hs : s ∈ fs.live)
    (hclosed : fs.inode? s = none) (h0 : s ≠ FREE_MAP_SECTOR)
    (hname : NewName (fs.dirTable d) name) : Idle d0 fs' ∅ ∧ fs'.names ⊆ insert name fs.names := by
  have hne : d ≠ s := by
    rintro rfl
    rw [openCount_of_closed hclosed] at hopen
    omega
  have hloose : fs'.loose = fs.loose := by
    ext j
    simp only [FS.loose, Set.mem_ofPred_eq, hl.removed j]
  have hwf := h.ns.wf
  rw [Set.singleton_union] at hwf
  have hdloose : d ∉ insert s fs.loose := by
    rintro (he | he | he)
    · exact hne he
    · exact h.mounted.directory_ne hd he
    · exact h.directory_present hd he
  have hroot : ROOT_DIR_SECTOR ≠ s := fun he => hwf.root_held (he ▸ Set.mem_insert _ _)
  obtain ⟨k, hfree, hslot⟩ := hl.slot
  have hkeep : ∀ d' k', ¬ (d' = d ∧ k' = k) → fs'.tree.slot d' k' = fs.tree.slot d' k' := by
    intro d' k' hnot
    by_cases hdir : fs.isDirectory d'
    · rw [tree_slot hdir, tree_slot ((hl.isDirectory d').mpr hdir)]
      by_cases hdd : d' = d
      · rw [hdd, hslot, update_of_ne fun hk => hnot ⟨hdd, hk⟩]
      · by_cases hds : d' = s
        · rw [hds]
          exact hl.entryAt_new h.mounted.vol hs k'
        · exact hl.frame.entryAt h.mounted.vol (by simp [hdd, hds]) hdir.1
            (h.mounted.directory_ne hdir) k'
    · rw [tree_slot_none hdir, tree_slot_none fun hd' => hdir ((hl.isDirectory d').mp hd')]
  have hnew : fs'.tree.slot d k = some (name, s) := by
    rw [tree_slot ((hl.isDirectory d).mpr hd), hslot, update_self]
  refine ⟨⟨⟨hl.mounted, ?_, ?_, ?_, fun hr => h.ns.present ((hl.removed _).mp hr)⟩,
    fun i => by rw [hl.locked]; exact h.unlocked i⟩, ?_⟩
  · rw [Set.empty_union, hloose]
    refine hwf.link (n := name) hs ?_ hd hdloose ((tree_slot hd k).trans hfree) ?_ hl.live ?_ ?_ ?_ ?_ hkeep
    · rintro (he | ⟨ino, hino, -⟩)
      · exact h0 he
      · cases hclosed.symm.trans hino
    · intro k' t'
      rw [tree_slot hd]
      exact slotOf_none (find_eq_none_iff.mp hname.absent) k' t'
    · ext j
      exact hl.isDirectory j
    · intro x hx hxs
      show (fs'.node x).parent = (fs.node x).parent
      by_cases hxd : x = d
      · rw [hxd, hl.parent]
      · rw [hl.frame.node x hx.1 (by simp [hxd, hxs])]
    · show (fs'.node s).parent = d
      rw [hl.node]
    · exact hnew
  · intro i hi
    have hi' := (hl.removed i).mp hi
    have hlive := h.mounted.vol.removed_live hi'
    have hid : i ≠ d := fun he => h.directory_present hd (he ▸ hi')
    have his : i ≠ s := by
      rintro rfl
      obtain ⟨ino, hino, -⟩ := hi'
      cases hclosed.symm.trans hino
    rw [hl.frame.node i hlive (by simp [hid, his])]
    exact h.ns.regular i hi'
  · by_cases hrd : ROOT_DIR_SECTOR = d
    · rw [hrd, hl.parent, ← hrd]
      exact h.ns.rootParent
    · rw [hl.frame.node _ (hwf.dir_live hwf.root_dir) (by simp [hrd, hroot])]
      exact h.ns.rootParent
  · rintro n ⟨d', k', t, hk⟩
    by_cases hat : d' = d ∧ k' = k
    · rw [hat.1, hat.2, hnew] at hk
      cases hk
      exact Set.mem_insert _ _
    · exact .inr ⟨d', k', t, (hkeep d' k' hat).symm.trans hk⟩

end

end Pintos.FileSys
