import Pintos.FileSys.GrowthRuns
import Pintos.FileSys.OpenTable

/-!
# A growth that fails

`inode_grow` returns `bool`, so its `return -1` gives `true` and the test
`inode_grow (...) == -1` of its two callers is never met. A failed allocation
is therefore treated as a growth: `inode_write_at` sets the new length and goes
on writing, `inode_create` stores the inode and returns true
(`failed_growth_is_taken_for_growth`).
-/

namespace Pintos.FileSys

open Lib Option Function

/-! ## What inode_grow keeps, however it ends -/

/-- `J` holds of the inode and the state where this part of `inode_grow` ends. -/
def Grow.Keeps {α : Type} (J : Inode → FS → Prop) (inode : α → Inode) (state : α → FS) :
    Grow α → Prop
  | .panic => True
  | .full ino fs => J ino fs
  | .ok a => J (inode a) (state a)

variable {fs fs' : FS} {ino : Inode} {i : Sector} {buffer : Buffer} {size offset : Int}
   {fm : FreeMapOps} {isDir : Bool}

section
variable {α β : Type} {J : Inode → FS → Prop}

theorem Grow.Keeps.bind {inode : α → Inode} {state : α → FS} {inode' : β → Inode}
    {state' : β → FS} {x : Grow α} {f : α → Grow β} (hx : x.Keeps J inode state)
    (hf : ∀ a, J (inode a) (state a) → (f a).Keeps J inode' state') :
    (x >>= f).Keeps J inode' state' := by
  cases x with
  | panic => trivial
  | full ino fs => exact hx
  | ok a => exact hf a hx

/-- What `inode_grow` may do to the state and to the inode keeps `J`. -/
structure KeptByGrowth (fm : FreeMapOps) (J : Inode → FS → Prop) : Prop where
  allocate : ∀ {ino fs r fs'}, J ino fs → fm.allocate fs = some (r, fs') → J ino fs'
  read : ∀ {ino fs s}, J ino fs → J ino (fs.diskRead s).2
  write : ∀ {ino fs s b}, J ino fs → J ino (fs.diskWrite s b)
  uninit : ∀ {ino fs}, J ino fs → J ino fs.uninit.2
  inode : ∀ {ino ino' fs}, J ino fs → KeepsRest ino ino' → J ino' fs

variable {fm : FreeMapOps} (h : KeptByGrowth fm J)
include h

theorem keeps_allocateOrReturn (hJ : J ino fs) :
    (allocateOrReturn fm fs ino).Keeps J (fun _ => ino) (fun a => a.2) := by
  unfold allocateOrReturn
  cases heq : fm.allocate fs with
  | none => trivial
  | some r =>
    obtain ⟨s, fs'⟩ := r
    cases s with
    | none => exact h.allocate hJ heq
    | some s => exact h.allocate hJ heq

variable {fuel indirIdx : Nat} {g : GrowState}

theorem keeps_fillBlock {ptr : Words} {idx sectors : Nat} (hJ : J ino fs) :
    (fillBlock fm ino fuel fs ptr idx sectors).Keeps J (fun _ => ino) (fun a => a.1) := by
  induction fuel generalizing fs ptr idx sectors with
  | zero => exact hJ
  | succ fuel ih =>
    rw [fillBlock]
    split
    · split
      · refine (keeps_allocateOrReturn h hJ).bind ?_
        intro a ha
        exact ih (h.write ha)
      · exact hJ
    · exact hJ

section
variable (hJ : J g.ino g.fs)
include hJ

theorem keeps_loadIndex {first : Bool} :
    (loadIndex fm g first).Keeps J GrowState.ino GrowState.fs := by
  unfold loadIndex
  split
  · refine (keeps_allocateOrReturn h hJ).bind ?_
    intro a ha
    exact h.inode ha (by constructor <;> rfl)
  · exact h.read hJ

theorem keeps_storeIndex :
    J (storeIndex g indirIdx).ino (storeIndex g indirIdx).fs := by
  obtain ⟨hfs, hino, -, -⟩ := storeIndex_fields g indirIdx
  rw [hfs, hino]
  exact h.inode (h.write hJ) (by constructor <;> rfl)

theorem keeps_growIndirect :
    (growIndirect fm g).Keeps J GrowState.ino GrowState.fs := by
  refine (keeps_loadIndex h hJ).bind ?_
  intro g1 h1
  refine (keeps_fillBlock h h1).bind ?_
  intro a ha
  exact keeps_storeIndex h ha

theorem keeps_growSecond :
    (growSecond fm g indirIdx).Keeps J (fun a => a.1.ino) (fun a => a.1.fs) := by
  have hload : (loadSecond fm g).Keeps J GrowState.ino GrowState.fs := by
    unfold loadSecond
    split
    · exact (keeps_allocateOrReturn h hJ).bind fun a ha => ha
    · exact h.read hJ
  refine hload.bind ?_
  intro g1 h1
  refine (keeps_fillBlock h h1).bind ?_
  intro a ha
  dsimp only
  split
  · exact h.inode (h.write ha) (by constructor <;> rfl)
  · exact h.inode (h.write ha) (by constructor <;> rfl)

theorem keeps_growSeconds :
    (growSeconds fm fuel g indirIdx).Keeps J (fun a => a.1.ino) (fun a => a.1.fs) := by
  induction fuel generalizing g indirIdx with
  | zero => exact hJ
  | succ fuel ih =>
    rw [growSeconds]
    split
    · split
      · exact (keeps_growSecond h hJ).bind fun a ha => ih ha
      · exact hJ
    · exact hJ

theorem keeps_growTurn :
    (growTurn fm g).Keeps J GrowState.ino GrowState.fs := by
  unfold growTurn
  split
  · refine (keeps_allocateOrReturn h hJ).bind ?_
    intro a ha
    exact h.inode (h.write ha) (by constructor <;> rfl)
  · split
    · exact keeps_growIndirect h hJ
    · refine (keeps_loadIndex h hJ).bind ?_
      intro g1 h1
      refine (keeps_growSeconds h h1).bind ?_
      intro a ha
      exact keeps_storeIndex h ha

theorem keeps_growLoop :
    (growLoop fm fuel g).Keeps J GrowState.ino GrowState.fs := by
  induction fuel generalizing g with
  | zero => exact hJ
  | succ fuel ih =>
    rw [growLoop]
    split
    · split
      · exact (keeps_growTurn h hJ).bind fun g1 h1 => ih h1
      · exact hJ
    · exact hJ

end

theorem keeps_growBody (fs : FS) (ino : Inode) (length : Int) (hJ : J ino fs) :
    (growBody fm fs ino length).Keeps J (fun a => a.1) (fun a => a.2.1) := by
  refine (keeps_growLoop h (h.uninit (h.uninit hJ))).bind ?_
  intro g hg
  exact h.inode hg (by constructor <;> rfl)

end

/-! ## Calls leave the list of open inodes as it is -/

def FS.openSectors (fs : FS) : List Sector := fs.openInodes.map Inode.sector

theorem openSectors_setInode (fs : FS) (ino : Inode) :
    (fs.setInode ino).openSectors = fs.openSectors := map_key_replace

theorem exists_inode (fs : FS) (h : i ∈ fs.openSectors) :
    ∃ ino, fs.inode? i = some ino := by
  cases heq : fs.inode? i with
  | none => exact absurd h (inode?_eq_none_iff.mp heq)
  | some ino => exact ⟨ino, rfl⟩

theorem mem_openSectors (h : fs.inode? i = some ino) :
    i ∈ fs.openSectors := by
  rw [← inode?_sector h]
  exact List.mem_map_of_mem (inode?_mem h)

theorem byteToSector_openInodes {pos : Int} {s : Sector}
    (h : byteToSector fs ino pos = some (s, fs')) : fs'.openInodes = fs.openInodes := by
  obtain ⟨l, rfl⟩ := byteToSector_reads h
  exact diskReads_openInodes fs l

theorem cacheWrite_openInodes {s : Sector} {n ofs cnt : Nat}
    (h : fs.cacheWrite s buffer n ofs cnt = some fs') : fs'.openInodes = fs.openInodes := by
  unfold FS.cacheWrite at h
  obtain ⟨st, -, h⟩ := bind_eq_some_iff.mp h
  cases h
  rfl

theorem writeLoop_keeps {fuel : Nat} {r : Int} {written : Nat} (hino : fs.inode? i = some ino)
    (h : writeLoop i buffer fuel fs size offset written = some (r, fs')) :
    fs'.openSectors = fs.openSectors ∧
      ∃ ino', fs'.inode? i = some ino' ∧ ino'.length = ino.length := by
  induction fuel generalizing fs size offset written ino with
  | zero =>
    rw [writeLoop] at h
    cases h
    exact ⟨rfl, ino, hino, rfl⟩
  | succ fuel ih =>
    rw [writeLoop] at h
    split at h
    · simp only [hino, some_bind] at h
      obtain ⟨⟨s, fs1⟩, hb, h⟩ := bind_eq_some_iff.mp h
      have h1 := byteToSector_openInodes hb
      dsimp only at h
      split at h
      · cases h
        refine ⟨congrArg (List.map Inode.sector) h1, ino, ?_, rfl⟩
        rw [FS.inode?, h1]
        exact hino
      · obtain ⟨fs2, hc, h⟩ := bind_eq_some_iff.mp h
        have h2 := (cacheWrite_openInodes hc).trans h1
        have hino2 : fs2.inode? i = some ino := by
          rw [FS.inode?, h2]
          exact hino
        have hsec : ino.sector = i := inode?_sector hino
        obtain ⟨hs, ino', hino', hlen⟩ :=
          ih ((inode?_setInode hino2 (by exact hsec) i).trans (if_pos rfl)) h
        refine ⟨?_, ino', hino', hlen⟩
        rw [hs, openSectors_setInode]
        exact congrArg (List.map Inode.sector) h2
    · cases h
      exact ⟨rfl, ino, hino, rfl⟩

def AllocateKeepsOpen (fm : FreeMapOps) : Prop :=
  ∀ fs r fs', fm.allocate fs = some (r, fs') → fs'.openSectors = fs.openSectors

theorem keptByGrowth_open (hfm : AllocateKeepsOpen fm) (i : Sector) (l : List Sector)
    (shown : Int) : KeptByGrowth fm (fun ino fs =>
      ino.sector = i ∧ fs.openSectors = l ∧ ino.lengthShown = shown) where
  allocate := fun hJ heq => ⟨hJ.1, (hfm _ _ _ heq).trans hJ.2.1, hJ.2.2⟩
  read := fun hJ => hJ
  write := fun hJ => hJ
  uninit := fun hJ => hJ
  inode := fun hJ hrest => ⟨hrest.sector.trans hJ.1, hJ.2.1, hrest.lengthShown.trans hJ.2.2⟩

theorem lockUnlessDir_openInodes (h : lockUnlessDir fs isDir i = some fs') :
    fs'.openInodes = fs.openInodes := by
  unfold lockUnlessDir FS.lockAcquire at h
  split at h
  · cases h
    rfl
  · split at h <;> cases h
    rfl

theorem unlockUnlessDir_openInodes (h : unlockUnlessDir fs isDir i = some fs') :
    fs'.openInodes = fs.openInodes := by
  unfold unlockUnlessDir FS.lockRelease at h
  split at h
  · cases h
    rfl
  · split at h <;> cases h
    rfl

theorem intOfBool_ne (b : Bool) : intOfBool b ≠ -1 := by
  cases b <;> decide

/-- Whether `inode_grow` fails or not, `inode_write_at` takes the new length and shows none
of it yet. -/
theorem growForWrite_keeps (hfm : AllocateKeepsOpen fm) {goOn : Bool}
    (hino : fs.inode? i = some ino) (h : growForWrite fm fs ino size offset = some (goOn, fs')) :
    goOn = true ∧ fs'.openSectors = fs.openSectors ∧
      ∃ ino', fs'.inode? i = some ino' ∧
        ino'.length =
          (if i32 (size + offset) > ino.length then i32 (size + offset) else ino.length) ∧
        ino'.lengthShown = ino.lengthShown := by
  unfold growForWrite at h
  obtain ⟨isDir, -, h⟩ := bind_eq_some_iff.mp h
  obtain ⟨fs1, hlock, h⟩ := bind_eq_some_iff.mp h
  have h1 := lockUnlessDir_openInodes hlock
  dsimp only at h
  split at h
  · -- the write ends beyond the end of the file
    rename_i hlonger
    rw [if_pos hlonger]
    obtain ⟨⟨grown, ino2, fs2⟩, hg, h⟩ := bind_eq_some_iff.mp h
    have hkeep : ino2.sector = i ∧ fs2.openSectors = fs1.openSectors ∧
        ino2.lengthShown = ino.lengthShown := by
      have hJ := keeps_growBody (keptByGrowth_open hfm i fs1.openSectors ino.lengthShown)
        fs1 ino (i32 (size + offset)) ⟨inode?_sector hino, rfl, rfl⟩
      unfold inodeGrow at hg
      cases hb : growBody fm fs1 ino (i32 (size + offset)) with
      | panic => simp [hb] at hg
      | full ino' fs'' =>
        simp only [hb, Option.some.injEq, Prod.mk.injEq] at hg
        obtain ⟨-, rfl, rfl⟩ := hg
        simpa only [hb, Grow.Keeps] using hJ
      | ok a =>
        obtain ⟨ino', fs'', owed⟩ := a
        simp only [hb, Option.some.injEq, Prod.mk.injEq] at hg
        obtain ⟨-, rfl, rfl⟩ := hg
        simpa only [hb, Grow.Keeps] using hJ
    simp only [if_neg (intOfBool_ne grown)] at h
    set ino3 : Inode := { ino2 with length := i32 (size + offset) } with hino3
    obtain ⟨fs3, hrel, h⟩ := bind_eq_some_iff.mp h
    cases h
    have hs1 : fs1.openSectors = fs.openSectors := congrArg (List.map Inode.sector) h1
    have hs3 : fs'.openSectors = fs2.openSectors := by
      rw [← openSectors_setInode fs2 ino3]
      exact congrArg (List.map Inode.sector) (unlockUnlessDir_openInodes hrel)
    refine ⟨rfl, by rw [hs3, hkeep.2.1, hs1], ino3, ?_, rfl, hkeep.2.2⟩
    obtain ⟨ino4, hino4⟩ := exists_inode fs2 (i := i) (by
      rw [hkeep.2.1, hs1]
      exact mem_openSectors hino)
    have hsec : ino3.sector = i := hkeep.1
    rw [FS.inode?, unlockUnlessDir_openInodes hrel]
    show (fs2.setInode ino3).inode? i = some ino3
    rw [inode?_setInode hino4 hsec, if_pos rfl]
  · rename_i hshort
    rw [if_neg hshort]
    obtain ⟨fs3, hrel, h⟩ := bind_eq_some_iff.mp h
    cases h
    have h3 := (unlockUnlessDir_openInodes hrel).trans h1
    refine ⟨rfl, congrArg (List.map Inode.sector) h3, ino, ?_, rfl, rfl⟩
    rw [FS.inode?, h3]
    exact hino

theorem inodeWriteAt_length (hfm : AllocateKeepsOpen fm) {r : Int} (hino : fs.inode? i = some ino)
    (hdeny : ino.denyWriteCnt = 0) (h : inodeWriteAt fm fs i buffer size offset = some (r, fs')) :
    fs'.openSectors = fs.openSectors ∧
      ∃ ino', fs'.inode? i = some ino' ∧
        ino'.length =
          if i32 (size + offset) > ino.length then i32 (size + offset) else ino.length := by
  unfold inodeWriteAt at h
  simp only [hino, some_bind, hdeny, ne_eq, not_true_eq_false,
    if_false] at h
  obtain ⟨⟨goOn, fs1⟩, hg, h⟩ := bind_eq_some_iff.mp h
  obtain ⟨rfl, hs1, ino1, hino1, hlen1, -⟩ := growForWrite_keeps hfm hino hg
  obtain ⟨hs2, ino2, hino2, hlen2⟩ := writeLoop_keeps hino1 h
  exact ⟨hs2.trans hs1, ino2, hino2, hlen2.trans hlen1⟩

theorem allocateKeepsOpen_freeMapOps (d : Nat) : AllocateKeepsOpen (freeMapOps d) := by
  induction d with
  | zero =>
    intro fs r fs' h
    cases h
  | succ d ih =>
    intro fs r fs' h
    change freeMapAllocate (freeMapOps d) fs 1 = some (r, fs') at h
    unfold freeMapAllocate at h
    split at h
    · cases h
      rfl
    · obtain ⟨freeMap, -, h⟩ := bind_eq_some_iff.mp h
      dsimp only at h
      split at h
      · cases h
        rfl
      · -- the free map file is written, maybe after growing
        rename_i file hfile
        obtain ⟨⟨written, fs1⟩, hw, h⟩ := bind_eq_some_iff.mp h
        obtain ⟨⟨n, fs2⟩, hw, hn⟩ := bind_eq_some_iff.mp hw
        cases hn
        have hs : fs1.openSectors = fs.openSectors := by
          have hfound := hw
          unfold inodeWriteAt at hfound
          obtain ⟨ino, hino, hfound⟩ := bind_eq_some_iff.mp hfound
          by_cases hdeny : ino.denyWriteCnt = 0
          · exact (inodeWriteAt_length ih hino hdeny hw).1
          · rw [if_pos hdeny] at hfound
            cases hfound
            rfl
        dsimp only at h
        split at h
        · cases h
          exact hs
        · obtain ⟨freeMap', -, h⟩ := bind_eq_some_iff.mp h
          cases h
          exact hs

/-! ## A failed growth is not undone -/

/-- `inode_write_at` returns 0, gives the lock back and leaves the inode and the
free map as they were. -/
def WriteUndone (fs : FS) (inode : Sector) (res : Option (Int × FS)) : Prop :=
  ∃ fs', res = some (0, fs') ∧ fs'.locked inode = false ∧ fs'.freeMap = fs.freeMap ∧
    ∃ ino ino', fs.inode? inode = some ino ∧ fs'.inode? inode = some ino' ∧
      ino'.length = ino.length ∧ ino'.lengthShown = ino.lengthShown ∧ ino'.ptrs = ino.ptrs ∧
      ino'.ptrIdx = ino.ptrIdx ∧ ino'.indirIdx = ino.indirIdx ∧
      ino'.doubleIndirIdx = ino.doubleIndirIdx

/-- `inode_create` returns false and leaves the free map as it was. -/
def CreateUndone (fs : FS) (res : Option (Bool × FS)) : Prop :=
  ∃ fs', res = some (false, fs') ∧ fs'.freeMap = fs.freeMap

theorem inodeCreate_fst {sector : Sector} {length : Int} {created : Bool}
    (h : inodeCreate fm fs sector length isDir = some (created, fs')) :
    created = true := by
  unfold inodeCreate at h
  split at h
  · obtain ⟨⟨grown, ino, fs1⟩, -, h⟩ := bind_eq_some_iff.mp h
    simp only [if_neg (intOfBool_ne grown)] at h
    cases h
    rfl
  · cases h

/-- Whenever an allocation inside `inode_grow` fails, `inode_write_at` does not
undo the growth, and `inode_create` does not report it. -/
theorem failed_growth_is_taken_for_growth (fs : FS) (inode : Sector) :
    (∀ (fs₁ fs' : FS) (ino ino' : Inode) (isDir : Bool) (buffer : Buffer) (size offset : Int),
      fs.inode? inode = some ino → ino.denyWriteCnt = 0 → inodeIsDir ino = some isDir →
      lockUnlessDir fs isDir inode = some fs₁ → i32 (size + offset) > ino.length →
      growBody (freeMapOps 1) fs₁ ino (i32 (size + offset)) = .full ino' fs' →
      ¬ WriteUndone fs inode (inodeWriteAt (freeMapOps 1) fs inode buffer size offset)) ∧
    (∀ (fs' : FS) (length : Int) (isDir : Bool) (ino' : Inode),
      growBody (freeMapOps 1) fs.uninit.2 (newInode fs.uninit.1 isDir) (cappedLength length) =
        .full ino' fs' →
      ¬ CreateUndone fs (inodeCreate (freeMapOps 1) fs inode length isDir)) := by
  constructor
  · intro fs₁ fs' ino ino' isDir buffer size offset hino hdeny _ _ hlonger _ hundone
    obtain ⟨fs2, hres, -, -, ino1, ino2, hino1, hino2, hlen, -⟩ := hundone
    obtain ⟨-, ino3, hino3, hlen3⟩ :=
      inodeWriteAt_length (allocateKeepsOpen_freeMapOps 1) hino hdeny hres
    rw [if_pos hlonger] at hlen3
    rw [hino] at hino1
    rw [hino2] at hino3
    cases hino1
    cases hino3
    omega
  · intro fs' length isDir ino' _ hundone
    obtain ⟨fs2, hres, -⟩ := hundone
    exact absurd (inodeCreate_fst hres) (by decide)

def fullFS : FS := { blankFS 0 with openInodes := [{ blankInode with sector := 2 }] }

theorem growLoop_full {g : GrowState} {d n : Nat}
    (hscan : bitmapScan g.fs.freeMap 0 1 false = none) (hidx : g.idx = 0) (hs : 0 < g.sectors) :
    growLoop (freeMapOps (d + 1)) (n + 1) g = .full g.ino g.fs := by
  have halloc : (freeMapOps (d + 1)).allocate g.fs = some (none, g.fs) := by
    show freeMapAllocate _ g.fs 1 = _
    rw [freeMapAllocate, hscan]
  have hturn : growTurn (freeMapOps (d + 1)) g = .full g.ino g.fs := by
    rw [growTurn, if_pos (by rw [hidx]; decide), growDirect, allocateOrReturn, halloc]
    rfl
  rw [growLoop, if_pos (by rw [hidx]; decide), if_pos hs, hturn]
  rfl

theorem growBody_full {length : Int} {d : Nat} (hscan : bitmapScan fs.freeMap 0 1 false = none)
    (hidx : ino.ptrIdx = 0) (hlen : bytesToSectors length = 1)
    (hlen0 : bytesToSectors ino.length = 0) :
    growBody (freeMapOps (d + 1)) fs ino length = .full ino fs.uninit.2.uninit.2 := by
  have hs : 0 < (bytesToSectors length + 4294967296 - bytesToSectors ino.length) % 4294967296 := by
    rw [hlen, hlen0]
    decide
  unfold growBody
  dsimp only
  rw [growLoop_full (by exact hscan) (by exact hidx) (by exact hs)]
  rfl

theorem failed_growth_is_taken_for_growth_full_disk :
    ¬ WriteUndone fullFS 2 (inodeWriteAt (freeMapOps 1) fullFS 2 (fun _ => 7) 1 0) ∧
      ¬ CreateUndone (blankFS 0) (inodeCreate (freeMapOps 1) (blankFS 0) 2 1 false) :=
  ⟨(failed_growth_is_taken_for_growth fullFS 2).1
      { fullFS with locked := update fullFS.locked 2 true } _
      { blankInode with sector := 2 } _ false _ 1 0 rfl rfl rfl rfl (by decide)
      (growBody_full (by decide) rfl (by decide) (by decide)),
    (failed_growth_is_taken_for_growth (blankFS 0) 2).2 _ 1 false _
      (growBody_full (by decide) rfl (by decide) (by decide))⟩

/-- On a full disk, where that growth fails, a one byte write to an empty file
returns 1 and leaves both lengths at 1, with no sector for the byte;
`inode_create` of one byte returns true. -/
theorem write_on_full_disk_succeeds :
    (∃ ino' fs', growBody (freeMapOps 1)
        { fullFS with locked := update fullFS.locked 2 true }
        { blankInode with sector := 2 } (i32 (1 + 0)) = .full ino' fs') ∧
    ((inodeWriteAt (freeMapOps 1) fullFS 2 (fun _ => 7) 1 0).map fun r =>
        (r.1, (r.2.inode? 2).map Inode.lengthShown, (r.2.inode? 2).map fun ino => ino.length)) =
      some (1, some 1, some 1) ∧
    ((inodeCreate (freeMapOps 1) (blankFS 0) 2 1 false).map Prod.fst) = some true := by
  refine ⟨⟨_, _, growBody_full (by decide) rfl (by decide) (by decide)⟩, ?_, ?_⟩
  · decide +kernel
  · decide +kernel

end Pintos.FileSys
