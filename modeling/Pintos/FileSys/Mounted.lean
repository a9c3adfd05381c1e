import Pintos.FileSys.OpenClose

/-!
# The mounted file system

`Attached` is the volume with the file of the free map open, as `free_map_open`
leaves it; `Mounted` says besides that all of every directory can be read. Calls
that change nothing but open counts keep them (`Attached.of_quiet`,
`Mounted.of_quiet`).
-/

namespace Pintos.FileSys

open Lib

/-- The volume is in order, the free map file is open and holds the map, and all
of every directory can be read. -/
structure Mounted (d0 : Disk) (fs : FS) : Prop where
  vol : Vol d0 fs
  file : fs.freeMapFile = some FREE_MAP_SECTOR
  opened : ∃ ino, fs.inode? FREE_MAP_SECTOR = some ino
  regular : (fs.node FREE_MAP_SECTOR).isDir = 0
  length : (fs.node FREE_MAP_SECTOR).length = byteCnt fs.freeMap.length
  synced : ∀ k, k < byteCnt fs.freeMap.length →
    fs.byte FREE_MAP_SECTOR k = bitmapBytes fs.freeMap k
  whole : ∀ i ∈ fs.live, (fs.node i).isDir = 1 ∨ i = FREE_MAP_SECTOR →
    fs.shown i = (fs.node i).length

def FS.mapData (fs : FS) : Set Sector := dataSectors fs.store.view (fs.node FREE_MAP_SECTOR)

def FS.mapIndex (fs : FS) : Set Sector := indexSectors fs.store.view (fs.node FREE_MAP_SECTOR)

section
variable {d0 : Disk} {fs fs' : FS} {D N : Set Sector}

theorem Vol.map_place (h : Vol d0 fs) (hm : MapReady fs D N) {s : Sector} (hs : s ∈ D ∨ s ∈ N) :
    ∃ a : Slot, (FREE_MAP_SECTOR, some a) ∈ fs.taken ∧ s = fs.place (FREE_MAP_SECTOR, some a) := by
  rcases hm with ⟨-, rfl, rfl⟩ | ⟨ino, hm, -, rfl, rfl⟩
  · rcases hs with hs | hs <;> exact absurd hs (fun hs => hs)
  · have hi := (h.opened _ ino hm.opened).1
    rw [← FS.node_of_open hm.opened] at hs
    rcases hs with ⟨k, hk, rfl⟩ | ⟨a, -, hu, rfl⟩
    · exact ⟨.data k, FS.mem_taken_some.mpr ⟨hi, hk⟩, rfl⟩
    · exact ⟨a, FS.mem_taken_some.mpr ⟨hi, hu⟩, rfl⟩

theorem Vol.map_used (h : Vol d0 fs) (hm : MapReady fs D N) (s : Sector) (hs : s ∈ D ∨ s ∈ N) :
    fs.isUsed s := by
  obtain ⟨a, ha, rfl⟩ := h.map_place hm hs
  exact h.used _ ha

theorem Vol.map_apart (h : Vol d0 fs) (hm : MapReady fs D N) {l : Place} (hl : l ∈ fs.taken)
    (hne : l.1 ≠ FREE_MAP_SECTOR ∨ l.2 = none) : fs.place l ∉ D ∧ fs.place l ∉ N := by
  have hnot : ¬ (fs.place l ∈ D ∨ fs.place l ∈ N) := by
    intro hs
    obtain ⟨a, ha, heq⟩ := h.map_place hm hs
    have := h.inj hl ha heq
    subst this
    rcases hne with hne | hne
    · exact hne rfl
    · cases hne
  tauto

/-! ## The free map file -/

/-- The volume is in order, and the free map file is open and holds the map. -/
structure Attached (d0 : Disk) (fs : FS) : Prop where
  vol : Vol d0 fs
  file : fs.freeMapFile = some FREE_MAP_SECTOR
  opened : ∃ ino, fs.inode? FREE_MAP_SECTOR = some ino
  regular : (fs.node FREE_MAP_SECTOR).isDir = 0
  length : (fs.node FREE_MAP_SECTOR).length = byteCnt fs.freeMap.length
  synced : ∀ k, k < byteCnt fs.freeMap.length →
    fs.byte FREE_MAP_SECTOR k = bitmapBytes fs.freeMap k
  shown : fs.shown FREE_MAP_SECTOR = (fs.node FREE_MAP_SECTOR).length

theorem Attached.zero_live (h : Attached d0 fs) : FREE_MAP_SECTOR ∈ fs.live := by
  obtain ⟨ino, hino⟩ := h.opened
  exact (h.vol.opened _ ino hino).1

theorem Attached.mapReady (h : Attached d0 fs) : MapReady fs fs.mapData fs.mapIndex := by
  obtain ⟨ino, hino⟩ := h.opened
  have hnode := FS.node_of_open hino
  have hlen := h.length
  have hreg := h.regular
  have hshown := h.shown
  rw [FS.shown_of_open hino] at hshown
  rw [hnode] at hlen hreg hshown
  refine Or.inr ⟨ino, ⟨h.file, hino, h.vol.fileOk_open hino,
    (h.vol.opened _ ino hino).2.deny, hreg, hlen, hshown⟩, ?_, ?_, ?_⟩
  · intro k hk
    rw [← h.synced k hk, FS.byte, hnode]
  · rw [FS.mapData, hnode]
  · rw [FS.mapIndex, hnode]

theorem Attached.of_mapReady (hvol : Vol d0 fs) (hm : MapReady fs D N)
    (hfile : fs.freeMapFile ≠ none) : Attached d0 fs := by
  rcases hm with ⟨hnone, -, -⟩ | ⟨ino, hm, hsync, -, -⟩
  · exact absurd hnone hfile
  · have hnode := FS.node_of_open hm.opened
    refine ⟨hvol, hm.file, ⟨ino, hm.opened⟩, by rw [hnode]; exact hm.regular,
      by rw [hnode]; exact hm.length, ?_, ?_⟩
    · intro k hk
      rw [FS.byte, hnode]
      exact hsync k hk
    · rw [FS.shown_of_open hm.opened, hnode]
      exact hm.shown

/-- A call that changes nothing but open counts, if it leaves the free map file
open. -/
theorem Attached.of_quiet (h : Attached d0 fs) (hvol : Vol d0 fs') (hq : Quiet fs fs')
    (hopen : ∃ ino, fs'.inode? FREE_MAP_SECTOR = some ino) : Attached d0 fs' where
  vol := hvol
  file := hq.freeMapFile.trans h.file
  opened := hopen
  regular := by
    rw [hq.node _ h.zero_live]
    exact h.regular
  length := by
    rw [hq.node _ h.zero_live, hq.freeMap]
    exact h.length
  synced := by
    rw [hq.freeMap]
    intro k hk
    have hlen := h.length
    rw [hq.byte _ h.zero_live k ((h.vol.fileOk h.zero_live).div_lt (by omega))]
    exact h.synced k hk
  shown := by
    rw [hq.node _ h.zero_live]
    rcases hq.shown _ h.zero_live with hs | hs
    · rw [hs]
      exact h.shown
    · exact hs

theorem Mounted.attached (h : Mounted d0 fs) : Attached d0 fs := by
  obtain ⟨ino, hino⟩ := h.opened
  exact ⟨h.vol, h.file, ⟨ino, hino⟩, h.regular, h.length, h.synced,
    h.whole _ (h.vol.opened _ ino hino).1 (Or.inr rfl)⟩

theorem Attached.mounted (h : Attached d0 fs)
    (hwhole : ∀ i ∈ fs.live, (fs.node i).isDir = 1 → fs.shown i = (fs.node i).length) :
    Mounted d0 fs := by
  refine { h with whole := ?_ }
  rintro i hi (hd | rfl)
  · exact hwhole i hi hd
  · exact h.shown

/-! ## The mounted file system -/

theorem Mounted.zero_live (h : Mounted d0 fs) : FREE_MAP_SECTOR ∈ fs.live := h.attached.zero_live

theorem Mounted.mapReady (h : Mounted d0 fs) : MapReady fs fs.mapData fs.mapIndex :=
  h.attached.mapReady

theorem Mounted.of_mapReady (hvol : Vol d0 fs) (hm : MapReady fs D N)
    (hfile : fs.freeMapFile ≠ none)
    (hwhole : ∀ i ∈ fs.live, (fs.node i).isDir = 1 → fs.shown i = (fs.node i).length) :
    Mounted d0 fs :=
  (Attached.of_mapReady hvol hm hfile).mounted hwhole

/-- A call that changes nothing but open counts keeps the file system mounted, if
it leaves the free map file open. -/
theorem Mounted.of_quiet (h : Mounted d0 fs) (hvol : Vol d0 fs') (hq : Quiet fs fs')
    (hopen : ∃ ino, fs'.inode? FREE_MAP_SECTOR = some ino) : Mounted d0 fs' := by
  refine (h.attached.of_quiet hvol hq hopen).mounted ?_
  rw [hq.live]
  intro i hi hd
  rw [hq.node i hi] at hd ⊢
  rcases hq.shown i hi with hs | hs
  · rw [hs]
    exact h.whole i hi (Or.inl hd)
  · exact hs

theorem Mounted.of_sameRest (h : Mounted d0 fs) (hvol : Vol d0 fs') (hq : Quiet fs fs')
    (hrest : SameRest fs fs') : Mounted d0 fs' := by
  obtain ⟨ino, hino⟩ := h.opened
  exact h.of_quiet hvol hq ⟨ino, (hrest.inode? _).trans hino⟩

variable {i : Sector}

theorem Opened.still_open {j : Sector} (h : Opened fs fs' i) (hj : ∃ ino, fs.inode? j = some ino) :
    ∃ ino, fs'.inode? j = some ino := by
  by_cases hji : j = i
  · rw [hji]
    exact h.struct
  · rw [h.others j hji]
    exact hj

theorem Closed.still_open {j : Sector} (h : Closed fs fs' i) (hne : j ≠ i)
    (hj : ∃ ino, fs.inode? j = some ino) : ∃ ino, fs'.inode? j = some ino := by
  rw [h.others j hne]
  exact hj

theorem Attached.inodeOpen (h : Attached d0 fs) (hi : i ∈ fs.live)
    (hlock : fs.inode? i = none → fs.locked i = false) :
    Attached d0 (inodeOpen fs i) ∧ Opened fs (inodeOpen fs i) i := by
  obtain ⟨hvol, hop⟩ := inodeOpen_spec h.vol hi hlock
  exact ⟨h.of_quiet hvol hop.quiet (hop.still_open h.opened), hop⟩

theorem Attached.inodeClose (fm : FreeMapOps) (h : Attached d0 fs) {ino : Inode}
    (hino : fs.inode? i = some ino) (h0 : i ≠ FREE_MAP_SECTOR)
    (hrem : ino.removed = false ∨ 1 < ino.openCnt) :
    ∃ fs', inodeClose fm fs i = some fs' ∧ Attached d0 fs' ∧ Closed fs fs' i := by
  obtain ⟨fs', heq, hvol, hcl⟩ := inodeClose_spec fm h.vol hino hrem
  exact ⟨fs', heq, h.of_quiet hvol hcl.quiet (hcl.still_open h0.symm h.opened), hcl⟩

theorem Mounted.inodeOpen (h : Mounted d0 fs) (hi : i ∈ fs.live)
    (hlock : fs.inode? i = none → fs.locked i = false) :
    Mounted d0 (inodeOpen fs i) ∧ Opened fs (inodeOpen fs i) i := by
  obtain ⟨hvol, hop⟩ := inodeOpen_spec h.vol hi hlock
  exact ⟨h.of_quiet hvol hop.quiet (hop.still_open h.opened), hop⟩

theorem Mounted.inodeClose (fm : FreeMapOps) (h : Mounted d0 fs) {ino : Inode}
    (hino : fs.inode? i = some ino) (h0 : i ≠ FREE_MAP_SECTOR)
    (hrem : ino.removed = false ∨ 1 < ino.openCnt) :
    ∃ fs', inodeClose fm fs i = some fs' ∧ Mounted d0 fs' ∧ Closed fs fs' i := by
  obtain ⟨fs', heq, hvol, hcl⟩ := inodeClose_spec fm h.vol hino hrem
  exact ⟨fs', heq, h.of_quiet hvol hcl.quiet (hcl.still_open h0.symm h.opened), hcl⟩

/-! ## Assigning to a struct -/

variable {i : Sector} {ino ino' : Inode}

theorem byte_setInode (hino : fs.inode? i = some ino) (hi : ino'.sector = i)
    (hptrs : ino'.ptrs = ino.ptrs) : (fs.setInode ino').byte = fs.byte := by
  funext j k
  unfold FS.byte fileByte
  rw [node_setInode hino hi]
  by_cases hj : j = i
  · rw [if_pos hj, hj, FS.node_of_open hino, sectorOf_ptrs hptrs]
    rfl
  · rw [if_neg hj]
    rfl

theorem Mounted.setInode (h : Mounted d0 fs) (hino : fs.inode? i = some ino)
    (hi : ino'.sector = i) (hlen : ino'.length = ino.length) (hptrs : ino'.ptrs = ino.ptrs)
    (hkind : ino'.isDir = ino.isDir) (hshown : ino'.lengthShown = ino.lengthShown)
    (hcore : CoreOk ino'.toInodeCore) (hok : OpenOk ino') : Mounted d0 (fs.setInode ino') := by
  have hvol := h.vol.setInode hino hi hlen hptrs hcore hok
  -- the length and the kind of every inode are what they were
  have hnode : ∀ j, ((fs.setInode ino').node j).length = (fs.node j).length ∧
      ((fs.setInode ino').node j).isDir = (fs.node j).isDir := by
    intro j
    rw [node_setInode hino hi]
    by_cases hj : j = i
    · rw [if_pos hj, hj, FS.node_of_open hino]
      exact ⟨hlen, hkind⟩
    · rw [if_neg hj]
      exact ⟨rfl, rfl⟩
  refine ⟨hvol, h.file, ?_, (hnode _).2.trans h.regular, (hnode _).1.trans h.length, ?_, ?_⟩
  · obtain ⟨e, he⟩ := h.opened
    rw [inode?_setInode hino hi]
    split
    · exact ⟨ino', rfl⟩
    · exact ⟨e, he⟩
  · rw [byte_setInode hino hi hptrs]
    exact h.synced
  · intro j hj hor
    rw [(hnode j).1]
    rw [(hnode j).2] at hor
    rw [← h.whole j hj hor]
    unfold FS.shown
    rw [inode?_setInode hino hi]
    by_cases hji : j = i
    · rw [if_pos hji, hji, hino]
      exact hshown
    · rw [if_neg hji]
      cases fs.inode? j with
      | none => exact (hnode j).1
      | some e => rfl

theorem inodeRemove_spec (h : Mounted d0 fs) (hino : fs.inode? i = some ino) :
    inodeRemove fs i = some (fs.setInode { ino with removed := true }) ∧
      Mounted d0 (fs.setInode { ino with removed := true }) := by
  refine ⟨?_, ?_⟩
  · unfold inodeRemove
    rw [hino]
    rfl
  · have hok := (h.vol.opened i ino hino).2
    have hcore := h.vol.coreOk_open hino
    have hsec : ino.sector = i := inode?_sector hino
    exact h.setInode hino hsec rfl rfl rfl rfl hcore
      { hok with }

theorem inodeReopen_eq (hino : fs.inode? i = some ino) :
    inodeReopen fs i = some (FileSys.inodeOpen fs i) := by
  unfold inodeReopen FileSys.inodeOpen
  rw [hino]
  rfl

end

end Pintos.FileSys
