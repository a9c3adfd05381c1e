import Pintos.FileSys.Volume

/-!
# Opening and closing inodes

Opening an inode and closing it again change no more than the open count: what
`inode_close` stores in the inode's sector is what `inode_open` reads from there
(`decodeInode_encodeInode`).
-/

namespace Pintos.FileSys

open Lib Function

/-! ## The sector of an inode -/

theorem toNat_ofNat {k : Nat} (h : k < 4294967296) : (UInt32.ofNat k).toNat = k := by
  rw [UInt32.toNat_ofNat']
  exact Nat.mod_eq_of_lt h

theorem i32_of_nonneg {x : Int} (h0 : 0 ≤ x) (h : x < 2147483648) : i32 x = x := by
  unfold i32
  rw [Int.bmod_def]
  split <;> omega

theorem CursorAt.lt {c : InodeCore} {n : Nat} (h : CursorAt c n) (hn : n ≤ CAPACITY) :
    c.ptrIdx < 4294967296 ∧ c.indirIdx < 4294967296 ∧ c.doubleIndirIdx < 4294967296 := by
  rw [h.ptrIdx, h.indirIdx, h.doubleIdx]
  unfold CAPACITY at hn
  unfold ptrIdxOf indirIdxOf doubleIdxOf
  refine ⟨?_, ?_, ?_⟩ <;> split_ifs <;> omega

theorem decodeInode_encodeInode {c : InodeCore} (h : CoreOk c) (unused : Nat → UInt32) :
    decodeInode (encodeInode c unused) = c := by
  have hn := h.nonneg
  have hb := h.bound
  obtain ⟨h1, h2, h3⟩ := h.cursor.lt (sectors_of_length_le hn hb)
  have hkind : c.isDir < 4294967296 := by
    rcases h.kind with hk | hk <;> omega
  have hw : (unpackWords (encodeInode c unused) : Words) = inodeDiskWords c unused :=
    unpackWords_packWords _
  have hget : ∀ k, k < 128 → (inodeDiskWords c unused).get k =
      inodeDiskWords c unused ⟨k % 128, Nat.mod_lt _ (by decide)⟩ := fun k _ => rfl
  have hlen : i32 (UInt32.ofNat (c.length % 4294967296).toNat).toNat = c.length := by
    rw [toNat_ofNat (by omega), i32_of_nonneg (by omega) (by omega)]
    omega
  have hptrs : (fun k : Fin 15 => (inodeDiskWords c unused).get (k.val + 3)) = c.ptrs := by
    funext k
    have hk := k.isLt
    rw [hget _ (by omega)]
    unfold inodeDiskWords
    simp only [Nat.mod_eq_of_lt (show k.val + 3 < 128 by omega)]
    rw [if_neg (by omega), if_neg (by omega), if_neg (by omega), if_pos (by omega),
      Nat.add_sub_cancel]
    exact congrArg c.ptrs (Fin.ext (Nat.mod_eq_of_lt hk))
  unfold decodeInode
  simp only [hw]
  rw [hptrs]
  have e0 : (inodeDiskWords c unused).get 0 = UInt32.ofNat (c.length % 4294967296).toNat := rfl
  have e2 : (inodeDiskWords c unused).get 2 = UInt32.ofNat c.isAllocated := rfl
  have e18 : (inodeDiskWords c unused).get 18 = UInt32.ofNat c.ptrIdx := rfl
  have e19 : (inodeDiskWords c unused).get 19 = UInt32.ofNat c.indirIdx := rfl
  have e20 : (inodeDiskWords c unused).get 20 = UInt32.ofNat c.doubleIndirIdx := rfl
  have e21 : (inodeDiskWords c unused).get 21 = UInt32.ofNat c.isDir := rfl
  have e22 : (inodeDiskWords c unused).get 22 = c.parent := rfl
  rw [e0, e2, e18, e19, e20, e21, e22, hlen, toNat_ofNat (by rw [h.allocated]; decide),
    toNat_ofNat h1, toNat_ofNat h2, toNat_ofNat h3, toNat_ofNat hkind]

/-! ## Assigning to a struct -/

section
variable {d0 : Disk} {fs fs' : FS} {i : Sector} {ino ino' : Inode}

section
variable (h : fs.inode? i = some ino) (hi : ino'.sector = i)
include h hi

theorem node_setInode (j : Sector) :
    (fs.setInode ino').node j = if j = i then ino'.toInodeCore else fs.node j := by
  unfold FS.node
  rw [inode?_setInode h hi]
  by_cases hj : j = i
  · simp [hj]
  · simp only [if_neg hj]
    rfl

theorem openCount_setInode (j : Sector) :
    (fs.setInode ino').openCount j = if j = i then ino'.openCnt else fs.openCount j := by
  unfold FS.openCount
  rw [inode?_setInode h hi]
  by_cases hj : j = i
  · simp [hj]
  · simp only [if_neg hj]

theorem isRemoved_setInode (j : Sector) :
    (fs.setInode ino').isRemoved j ↔ if j = i then ino'.removed = true else fs.isRemoved j := by
  unfold FS.isRemoved
  rw [inode?_setInode h hi]
  by_cases hj : j = i
  · simp [hj]
  · simp only [if_neg hj]

end

/-- Assigning to fields that are not part of the block tree. -/
theorem Vol.setInode (h : Vol d0 fs) (hino : fs.inode? i = some ino) (hi : ino'.sector = i)
    (hlen : ino'.length = ino.length) (hptrs : ino'.ptrs = ino.ptrs)
    (hcore : CoreOk ino') (hok : OpenOk ino') : Vol d0 (fs.setInode ino') := by
  have hnode := node_setInode hino hi
  have hlive : ∀ j, j = i → fs.node j = ino := by
    rintro j rfl
    exact FS.node_of_open hino
  have hstays : Stays fs (fs.setInode ino') := by
    refine ⟨rfl, ?_, ?_, fun _ _ _ _ => rfl⟩
    · intro j _
      rw [hnode]
      split
      · rename_i hj
        rw [hlive j hj, hlen]
      · rfl
    · intro j _
      rw [hnode]
      split
      · rename_i hj
        rw [hlive j hj, hptrs]
      · rfl
  refine h.of_stays hstays { h.store with } (fun _ hs => hs) rfl
    (h.nodup.setInode ino') ?_ (fun l hl hd => h.direct l hl hd) ?_
  · intro j e he
    rw [inode?_setInode hino hi] at he
    split at he
    · rename_i hj
      cases he
      rw [hj]
      exact ⟨(h.opened i ino hino).1, hok⟩
    · exact h.opened j e he
  · intro j hj
    refine ⟨?_, fun _ k _ hk => hstays.byte hj (fun _ _ => rfl) hk⟩
    rw [hnode]
    split
    · exact hcore
    · exact h.core j hj

/-- Assigning to fields that are not stored. -/
theorem Quiet.setInode (hino : fs.inode? i = some ino) (hi : ino'.sector = i)
    (hcore : ino'.toInodeCore = ino.toInodeCore) (hrem : ino'.removed = ino.removed)
    (hshown : ino'.lengthShown = ino.lengthShown) : Quiet fs (fs.setInode ino') := by
  have hnode : (fs.setInode ino').node = fs.node := by
    funext j
    rw [node_setInode hino hi]
    split
    · rename_i hj
      rw [hj, FS.node_of_open hino, hcore]
    · rfl
  refine ⟨rfl, fun j _ => by rw [hnode], ?_, ?_, ?_, rfl, rfl, rfl, fun _ hs => Or.inl hs⟩
  · intro j _ k _
    unfold FS.byte
    rw [hnode]
    rfl
  · intro j
    rw [isRemoved_setInode hino hi]
    split
    · rename_i hj
      unfold FS.isRemoved
      rw [hj, hino, hrem]
      simp
    · rfl
  · intro j _
    left
    unfold FS.shown
    rw [inode?_setInode hino hi, hnode]
    by_cases hj : j = i
    · rw [if_pos hj, hj, hino]
      exact hshown
    · rw [if_neg hj]

/-! ## inode_open -/

/-- One more reference to inode `i`, and nothing else. -/
structure Opened (fs fs' : FS) (i : Sector) : Prop where
  quiet : Quiet fs fs'
  count : ∀ j, fs'.openCount j = fs.openCount j + if j = i then 1 else 0
  struct : ∃ ino, fs'.inode? i = some ino
  others : ∀ j, j ≠ i → fs'.inode? j = fs.inode? j

theorem inodeOpen_closed (h : Vol d0 fs) (hi : i ∈ fs.live) (hclosed : fs.inode? i = none)
    (hlock : fs.locked i = false) :
    Vol d0 (inodeOpen fs i) ∧ Opened fs (inodeOpen fs i) i := by
  have hfresh : ¬ fs.store.cached i := h.direct (i, none) (FS.mem_taken_none.mpr hi) trivial
  obtain ⟨core, hcore⟩ : ∃ core, core = decodeInode (fs.store.disk i) := ⟨_, rfl⟩
  have hdisk : core = fs.node i := by
    rw [FS.node_of_closed hclosed, view_of_not_cached hfresh, hcore]
  set ino : Inode := { core with
    sector := i, openCnt := 1, denyWriteCnt := 0, removed := false,
    lengthShown := core.length } with hino
  set fs' := inodeOpen fs i with hfs'
  have heq : fs' = { (fs.diskRead i).2 with
      openInodes := ino :: fs.openInodes
      locked := update fs.locked i false } := by
    rw [hfs', inodeOpen, hclosed, hino, hcore]
    rfl
  have hfind : ∀ j, fs'.inode? j = if j = i then some ino else fs.inode? j := by
    intro j
    rw [heq]
    unfold FS.inode?
    simp only [List.find?_cons]
    by_cases hj : j = i
    · simp [hj, hino]
    · have : ¬ i = j := fun h => hj h.symm
      simp [hj, this, hino]
  have hlocked : fs'.locked = fs.locked := by
    rw [heq]
    show update fs.locked i false = fs.locked
    rw [← hlock, update_eq_self]
  have hstore : fs'.store = fs.store := by
    rw [heq]
    rfl
  have hnode : fs'.node = fs.node := by
    funext j
    unfold FS.node
    rw [hfind, hstore]
    by_cases hj : j = i
    · subst hj
      rw [if_pos rfl, hclosed]
      show core = _
      rw [hdisk, FS.node_of_closed hclosed]
    · rw [if_neg hj]
  have hcoreOk := h.core i hi
  rw [← hdisk] at hcoreOk
  have hok : OpenOk ino :=
    ⟨le_refl _, rfl, hcoreOk.nonneg, le_refl _⟩
  have hlive : fs'.live = fs.live := by
    rw [heq]
    rfl
  have hmap : fs'.freeMap = fs.freeMap := by
    rw [heq]
    rfl
  have hst : StoreOk d0 fs' := by
    have hread := h.store.diskRead hfresh
    rw [heq]
    exact { hread with }
  have hstays : Stays fs fs' :=
    ⟨hlive, fun j _ => by rw [hnode], fun j _ => by rw [hnode], fun j _ s _ => by rw [hstore]⟩
  refine ⟨h.of_stays hstays hst ?_ (by rw [hmap]) ?_ ?_ ?_ ?_, ⟨hlive, ?_, ?_, ?_, ?_, hmap, ?_, hlocked, ?_⟩,
    ?_, ⟨ino, by rw [hfind, if_pos rfl]⟩, fun j hj => by rw [hfind, if_neg hj]⟩
  · exact fun s hs => (isUsed_congr hmap).mpr hs
  · -- the new struct is the only one of its sector
    rw [heq]
    exact List.nodup_cons.mpr ⟨inode?_eq_none_iff.mp hclosed, h.nodup⟩
  · intro j e he
    rw [hfind] at he
    split at he
    · rename_i hj
      cases he
      rw [hj]
      exact ⟨hi, hok⟩
    · exact h.opened j e he
  · rw [hstore]
    exact h.direct
  · intro j hj
    rw [hnode]
    exact ⟨h.core j hj, fun _ k _ hk => hstays.byte hj (fun s _ => by rw [hstore]) hk⟩
  · intro j _
    rw [hnode]
  · intro j hj k hk
    exact hstays.byte hj (fun s _ => by rw [hstore]) hk
  · intro j
    unfold FS.isRemoved
    rw [hfind]
    by_cases hj : j = i
    · simp [hj, hclosed, hino]
    · rw [if_neg hj]
  · intro j _
    left
    unfold FS.shown
    rw [hfind, hnode]
    by_cases hj : j = i
    · rw [if_pos hj, hj, hclosed, ← hdisk]
    · rw [if_neg hj]
  · rw [heq]
    rfl
  · intro s hs
    rw [hstore] at hs
    exact Or.inl hs
  · intro j
    unfold FS.openCount
    rw [hfind]
    by_cases hj : j = i
    · simp [hj, hclosed, hino]
    · simp [hj]

theorem inodeOpen_spec (h : Vol d0 fs) (hi : i ∈ fs.live)
    (hlock : fs.inode? i = none → fs.locked i = false) :
    Vol d0 (inodeOpen fs i) ∧ Opened fs (inodeOpen fs i) i := by
  cases hino : fs.inode? i with
  | none => exact inodeOpen_closed h hi hino (hlock hino)
  | some ino =>
    set ino' : Inode := { ino with openCnt := ino.openCnt + 1 } with hino'
    have heq : inodeOpen fs i = fs.setInode ino' := by
      rw [inodeOpen, hino]
    have hsec : ino'.sector = i := show ino.sector = i from inode?_sector hino
    have hok := (h.opened i ino hino).2
    rw [heq]
    have hcore : CoreOk ino' :=
      show CoreOk ino from h.coreOk_open hino
    refine ⟨h.setInode hino hsec rfl rfl hcore
      { hok with count := by have := hok.count; show 1 ≤ ino.openCnt + 1; omega },
      Quiet.setInode hino hsec rfl rfl rfl, ?_, ⟨ino', by rw [inode?_setInode hino hsec, if_pos rfl]⟩,
      fun j hj => by rw [inode?_setInode hino hsec, if_neg hj]⟩
    intro j
    rw [openCount_setInode hino hsec]
    by_cases hj : j = i
    · rw [if_pos hj, if_pos hj, hj, FS.openCount_of_open hino]
    · rw [if_neg hj, if_neg hj, Int.add_zero]

/-! ## inode_close -/

/-- One reference to inode `i` less, and nothing else. -/
structure Closed (fs fs' : FS) (i : Sector) : Prop where
  quiet : Quiet fs fs'
  count : ∀ j, fs'.openCount j = fs.openCount j - if j = i then 1 else 0
  others : ∀ j, j ≠ i → fs'.inode? j = fs.inode? j

theorem inodeClose_shared (fm : FreeMapOps) (h : Vol d0 fs) (hino : fs.inode? i = some ino)
    (hcnt : 1 < ino.openCnt) :
    ∃ fs', inodeClose fm fs i = some fs' ∧ Vol d0 fs' ∧ Closed fs fs' i ∧
      fs'.inode? i = some { ino with openCnt := ino.openCnt - 1 } := by
  set ino' : Inode := { ino with openCnt := ino.openCnt - 1 } with hino'
  have hsec : ino'.sector = i := show ino.sector = i from inode?_sector hino
  have hok := (h.opened i ino hino).2
  have hcore : CoreOk ino' := show CoreOk ino from h.coreOk_open hino
  refine ⟨fs.setInode ino', ?_, h.setInode hino hsec rfl rfl hcore
    { hok with count := by show 1 ≤ ino.openCnt - 1; omega },
    ⟨Quiet.setInode hino hsec rfl rfl rfl, ?_,
      fun j hj => by rw [inode?_setInode hino hsec, if_neg hj]⟩,
    by rw [inode?_setInode hino hsec, if_pos rfl]⟩
  · unfold inodeClose
    simp only [hino, some_bind]
    rw [if_neg (by omega)]
  · intro j
    rw [openCount_setInode hino hsec]
    by_cases hj : j = i
    · rw [if_pos hj, if_pos hj, hj, FS.openCount_of_open hino]
    · rw [if_neg hj, if_neg hj, Int.sub_zero]

/-- The last reference to an inode that is not removed: it is stored. -/
theorem inodeClose_last (fm : FreeMapOps) (h : Vol d0 fs) (hino : fs.inode? i = some ino)
    (hcnt : ino.openCnt = 1) (hrem : ino.removed = false) :
    ∃ fs', inodeClose fm fs i = some fs' ∧ Vol d0 fs' ∧ Closed fs fs' i ∧
      fs'.inode? i = none := by
  have hi := (h.opened i ino hino).1
  have hsec : ino.sector = i := inode?_sector hino
  have hfresh : ¬ fs.store.cached i := h.direct (i, none) (FS.mem_taken_none.mpr hi) trivial
  set fs1 := (fs.removeInode i).uninit.2 with hfs1
  obtain ⟨b, hb⟩ : ∃ b, b = encodeInode ino (fs.removeInode i).uninit.1 := ⟨_, rfl⟩
  have hst1 : StoreOk d0 fs1 := { h.store with }
  obtain ⟨hst, hview⟩ := hst1.diskWrite (s := i) hfresh b
  have hview' : (fs1.diskWrite i b).store.view = update fs.store.view i b := hview
  have hfind : ∀ j, (fs1.diskWrite i b).inode? j = if j = i then none else fs.inode? j :=
    inode?_removeInode h.nodup i
  -- the inode reads back from its sector as it was in memory
  have hnode : (fs1.diskWrite i b).node = fs.node := by
    funext j
    unfold FS.node
    rw [hfind, hview']
    by_cases hj : j = i
    · subst hj
      rw [if_pos rfl, update_self, hino, hb]
      exact decodeInode_encodeInode (h.coreOk_open hino) _
    · rw [if_neg hj, update_of_ne hj]
  -- no slot of a block tree is at this sector
  have hslot : ∀ j ∈ fs.live, ∀ a : Slot, a.used (fs.node j).sectors →
      (fs1.diskWrite i b).store.view (sectorOf fs.store.view (fs.node j) a) =
        fs.store.view (sectorOf fs.store.view (fs.node j) a) := by
    intro j hj a ha
    have hne : sectorOf fs.store.view (fs.node j) a ≠ i :=
      h.place_ne (FS.mem_taken_some.mpr ⟨hj, ha⟩) (FS.mem_taken_none.mpr hi) (by simp)
    rw [hview', update_of_ne hne]
  have hstays : Stays fs (fs1.diskWrite i b) := by
    refine ⟨rfl, fun j _ => by rw [hnode], fun j _ => by rw [hnode], ?_⟩
    rintro j hj s ⟨a, -, hu, rfl⟩
    exact hslot j hj a hu
  have hbyte : ∀ j ∈ fs.live, ∀ k, k / 512 < (fs.node j).sectors →
      (fs1.diskWrite i b).byte j k = fs.byte j k := by
    intro j hj k hk
    refine hstays.byte hj ?_ hk
    rintro s ⟨m, hm, rfl⟩
    exact hslot j hj (.data m) hm
  refine ⟨fs1.diskWrite i b, ?_, ?_, ⟨⟨rfl, fun j _ => by rw [hnode], hbyte, ?_, ?_,
    rfl, rfl, rfl, fun s hs => Or.inl hs⟩, ?_,
    fun j hj => by rw [hfind, if_neg hj]⟩, by rw [hfind, if_pos rfl]⟩
  · unfold inodeClose
    simp only [hino, some_bind]
    rw [if_pos (by omega), hrem]
    simp only [Bool.false_eq_true, if_false]
    rw [hsec, hb]
  · refine h.of_stays hstays hst (fun _ hs => hs) rfl (h.nodup.removeInode i) ?_
      (fun l hl hd => h.direct l hl hd) ?_
    · intro j e he
      rw [hfind] at he
      split at he
      · cases he
      · exact h.opened j e he
    · intro j hj
      rw [hnode]
      exact ⟨h.core j hj, fun _ k _ hk => hbyte j hj k hk⟩
  · intro j
    unfold FS.isRemoved
    rw [hfind]
    by_cases hj : j = i
    · subst hj
      simp [hino, hrem]
    · rw [if_neg hj]
  · intro j _
    unfold FS.shown
    rw [hfind, hnode]
    by_cases hj : j = i
    · rw [if_pos hj]
      exact Or.inr rfl
    · rw [if_neg hj]
      exact Or.inl rfl
  · intro j
    unfold FS.openCount
    rw [hfind]
    by_cases hj : j = i
    · subst hj
      simp [hino, hcnt]
    · simp [hj]

/-- `inode_close` of an inode whose directory entry is still there, or to which
there are other references. -/
theorem inodeClose_spec (fm : FreeMapOps) (h : Vol d0 fs) (hino : fs.inode? i = some ino)
    (hrem : ino.removed = false ∨ 1 < ino.openCnt) :
    ∃ fs', inodeClose fm fs i = some fs' ∧ Vol d0 fs' ∧ Closed fs fs' i := by
  by_cases hcnt : 1 < ino.openCnt
  · obtain ⟨fs', heq, hvol, hclosed, -⟩ := inodeClose_shared fm h hino hcnt
    exact ⟨fs', heq, hvol, hclosed⟩
  · have hone := (h.opened i ino hino).2.count
    obtain ⟨fs', heq, hvol, hclosed, -⟩ := inodeClose_last fm h hino (by omega)
      (hrem.resolve_right hcnt)
    exact ⟨fs', heq, hvol, hclosed⟩

theorem inodeOpen_view (fs : FS) (i : Sector) : (inodeOpen fs i).store.view = fs.store.view := by
  unfold inodeOpen
  split <;> rfl

end

end Pintos.FileSys
