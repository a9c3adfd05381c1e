import Pintos.FileSys.Format

/-!
# Files that are created, opened, read, written and closed

The machine of this module starts on a formatted disk. Nothing is removed, so no
free sector is ever cached, and a call that finds enough free sectors keeps the
volume in order (`Inv.next`) as long as

* a write ends within the block map, and
* a growth fills at most one second-level block (`SameSecond`).
-/

namespace Pintos.FileSys.FileRuns

open Lib Function

/-! ## The machine -/

inductive Act where
  | create (initialSize : Int) (isDir : Bool)
  | open (s : Sector)
  | close (s : Sector)
  | read (s : Sector) (buffer : Buffer) (size offset : Int)
  | write (s : Sector) (buffer : Buffer) (size offset : Int)

def step (fs : FS) : Act → Option FS
  | .create initialSize isDir => (createFile fs initialSize isDir).map Prod.snd
  | .open s => some (inodeOpen fs s)
  | .close s => inodeClose (freeMapOps 1) fs s
  | .read s buffer size offset => (inodeReadAt fs s buffer size offset).map (·.2.2)
  | .write s buffer size offset =>
    (inodeWriteAt (freeMapOps 1) fs s buffer size offset).map Prod.snd

/-- Two values of type `off_t`, neither of them negative. -/
structure OffT (size offset : Int) : Prop where
  size_nonneg : 0 ≤ size
  size_lt : size < 2147483648
  offset_nonneg : 0 ≤ offset
  offset_lt : offset < 2147483648

/-- The write ends within the block map, fills at most one second-level block, and
every allocation it makes succeeds. -/
structure Fits (fs : FS) (c : InodeCore) (size offset : Int) : Prop where
  bound : i32 (size + offset) ≤ 9046016
  same : SameSecond c.sectors (bytesToSectors (lengthAfter c size offset))
  need : blocksFor (bytesToSectors (lengthAfter c size offset)) ≤
    blocksFor c.sectors + (freeBits fs.freeMap).length

/-- What a call has to meet. An inode that is worked on is open, and not the file of
the free map. -/
def Good (fs : FS) : Act → Prop
  | .create initialSize _ =>
    0 ≤ initialSize ∧ SameSecond 0 (bytesToSectors (cappedLength initialSize)) ∧
      blocksFor (bytesToSectors (cappedLength initialSize)) + 1 ≤ (freeBits fs.freeMap).length
  | .open s => s ∈ fs.live
  | .close s => s ≠ FREE_MAP_SECTOR ∧ ∃ ino, fs.inode? s = some ino
  | .read s _ size offset => OffT size offset ∧ ∃ ino, fs.inode? s = some ino
  | .write s _ size offset => s ≠ FREE_MAP_SECTOR ∧ OffT size offset ∧
    ∃ ino, fs.inode? s = some ino ∧ Fits fs ino.toInodeCore size offset

/-- No write starts beyond the end of its file. -/
def InOrder (fs : FS) (a : Act) : Prop :=
  Good fs a ∧ ∀ s buffer size offset, a = .write s buffer size offset →
    ∀ ino, fs.inode? s = some ino → offset ≤ ino.length

/-! ## The invariant -/

structure Inv (d0 : Disk) (fs : FS) : Prop where
  attached : Attached d0 fs
  unlocked : ∀ i, fs.locked i = false
  free : FreeUncached fs
  present : ∀ i, ¬ fs.isRemoved i

section
variable {d0 : Disk} {fs fs' : FS} {i : Sector} {ino : Inode} {m : Nat}

theorem Inv.of_formatted (h : Formatted d0 fs m) : Inv d0 fs := by
  refine ⟨h.mounted.attached, h.unlocked, h.free, ?_⟩
  rintro i ⟨e, he, hr⟩
  by_cases hi : i = FREE_MAP_SECTOR
  · obtain ⟨ino, hino, -, hrem⟩ := h.opened
    rw [hi, hino] at he
    cases he
    rw [hrem] at hr
    cases hr
  · rw [h.closed i hi] at he
    cases he

theorem Inv.of_quiet (h : Inv d0 fs) (ha : Attached d0 fs') (hq : Quiet fs fs') : Inv d0 fs' :=
  ⟨ha, fun i => by rw [hq.locked]; exact h.unlocked i, hq.calm.freeUncached h.free,
    fun i hr => h.present i ((hq.removed i).mp hr)⟩

theorem Inv.budget (h : Inv d0 fs) (hm : m ≤ (freeBits fs.freeMap).length) : Budget fs m :=
  h.free.budget h.attached.vol.size hm

/-- The inode is not removed, so its last close stores it. -/
theorem Inv.not_removed (h : Inv d0 fs) (hino : fs.inode? i = some ino) : ino.removed = false := by
  cases hr : ino.removed with
  | false => rfl
  | true => exact absurd ⟨ino, hino, hr⟩ (h.present i)

variable {a : Act}

section
variable (h : Inv d0 fs)
include h

/-- What the calls that do not write leave behind. -/
theorem Inv.quiet_step (hgood : Good fs a)
    (hread : match a with | .create .. | .write .. => False | _ => True) :
    ∃ fs', step fs a = some fs' ∧ Inv d0 fs' ∧ Quiet fs fs' := by
  cases a with
  | «open» s =>
    obtain ⟨ha, hop⟩ := h.attached.inodeOpen hgood (fun _ => h.unlocked s)
    exact ⟨_, rfl, h.of_quiet ha hop.quiet, hop.quiet⟩
  | close s =>
    obtain ⟨h0, ino, hino⟩ := hgood
    obtain ⟨fs', heq, ha, hcl⟩ :=
      h.attached.inodeClose (freeMapOps 1) hino h0 (.inl (h.not_removed hino))
    exact ⟨fs', heq, h.of_quiet ha hcl.quiet, hcl.quiet⟩
  | read s buffer size offset =>
    obtain ⟨hoff, ino, hino⟩ := hgood
    obtain ⟨fs', heq, hvol, hrest, -, hq⟩ :=
      inodeReadAt_spec h.attached.vol hino buffer size offset hoff.offset_nonneg rfl
    refine ⟨fs', by rw [step, heq]; rfl, h.of_quiet (h.attached.of_quiet hvol hq ?_) hq, hq⟩
    obtain ⟨e, he⟩ := h.attached.opened
    exact ⟨e, (hrest.inode? _).trans he⟩
  | _ => exact absurd hread id

theorem Inv.write (hino : fs.inode? i = some ino) (h0 : i ≠ FREE_MAP_SECTOR) (buffer : Buffer)
    {size offset : Int} (hoff : OffT size offset) (hfits : Fits fs ino size offset)
    {len : Int} {cnt : Nat} (hlen : len = lengthAfter ino size offset)
    (hcnt : cnt = (min size (len - offset)).toNat) :
    ∃ fs' ino', inodeWriteAt (freeMapOps 1) fs i buffer size offset = some ((cnt : Int), fs') ∧
      Inv d0 fs' ∧
      Touched fs fs' i ((freeBits fs.freeMap).length - writeCost ino size offset) ∧
      fs'.inode? i = some ino' ∧ ino'.length = len ∧
      ino'.lengthShown = min len (ino.lengthShown + cnt) ∧
      ∀ k, k / 512 < bytesToSectors len → fs'.byte i k =
        if offset.toNat ≤ k ∧ k < offset.toNat + cnt then buffer (k - offset.toNat)
        else if k / 512 < ino.sectors then fs.byte i k else 0 := by
  have hb := h.budget (le_refl _)
  obtain ⟨fs', ino', heq, hvol, hm, ht, hino', hlen', hkeep, hbyte⟩ := inodeWriteAt_spec
    h.attached.vol h.attached.mapReady hino h0 (fun _ => h.unlocked i) (h.unlocked _) buffer
    ⟨hoff.size_nonneg, hoff.offset_nonneg, hfits.bound, hfits.same, hb, hfits.need⟩ hlen hcnt
  have hlocked : ∀ j, fs'.locked j = false := fun j => by rw [ht.locked]; exact h.unlocked j
  refine ⟨fs', ino', heq, ⟨Attached.of_mapReady hvol hm ?_, hlocked, ht.spent.freeUncached h.free,
    fun j hr => ?_⟩, ht, hino', hlen', hkeep.lengthShown, hbyte⟩
  · rw [ht.freeMapFile, h.attached.file]
    simp
  · by_cases hj : j = i
    · obtain ⟨e, he, hr⟩ := hr
      rw [hj, hino'] at he
      cases he
      rw [hkeep.removed] at hr
      exact h.present i ⟨ino, hino, hr⟩
    · exact h.present j ((ht.frame.removed j hj).mp hr)

theorem Inv.create {initialSize : Int} {isDir : Bool}
    (hgood : Good fs (.create initialSize isDir)) :
    ∃ s fs', createFile fs initialSize isDir = some (some s, fs') ∧ Inv d0 fs' ∧ s ∉ fs.live ∧
      Created fs fs' s (cappedLength initialSize) isDir ((freeBits fs.freeMap).length -
        (blocksFor (bytesToSectors (cappedLength initialSize)) + 1)) := by
  obtain ⟨h0, hsame, hroom⟩ := hgood
  obtain ⟨s, fs', heq, ha, -, hnew, hc⟩ := createFile_spec isDir h.attached (h.unlocked _) h0 hsame
    (h.budget (by omega : (freeBits fs.freeMap).length -
      (blocksFor (bytesToSectors (cappedLength initialSize)) + 1) +
      blocksFor (bytesToSectors (cappedLength initialSize)) + 1 ≤ _))
  refine ⟨s, fs', heq, ⟨ha, fun i => by rw [hc.locked]; exact h.unlocked i,
    hc.spent.freeUncached h.free, ?_⟩, hnew, hc⟩
  rintro i ⟨e, he, hr⟩
  exact h.present i ⟨e, (hc.inodes i).symm.trans he, hr⟩

theorem Inv.next (hgood : Good fs a) :
    ∃ fs', step fs a = some fs' ∧ Inv d0 fs' := by
  cases a with
  | create initialSize isDir =>
    obtain ⟨s, fs', heq, hinv, -, -⟩ := h.create hgood
    exact ⟨fs', by rw [step, heq]; rfl, hinv⟩
  | write s buffer size offset =>
    obtain ⟨h0, hoff, ino, hino, hfits⟩ := hgood
    obtain ⟨fs', ino', heq, hinv, -⟩ := h.write hino h0 buffer hoff hfits rfl rfl
    exact ⟨fs', by rw [step, heq]; rfl, hinv⟩
  | _ =>
    obtain ⟨fs', heq, hinv, -⟩ := h.quiet_step hgood trivial
    exact ⟨fs', heq, hinv⟩

theorem Inv.run {as : List Act} (hrun : Run step Good fs as fs') :
    Inv d0 fs' := by
  refine hrun.invariant (fun t b t' ht hok heq => ?_) h
  obtain ⟨t'', heq', hinv⟩ := ht.next hok
  cases heq.symm.trans heq'
  exact hinv

theorem Inv.createEmpty (hroom : 1 ≤ (freeBits fs.freeMap).length) :
    ∃ i fs' ino, Run step InOrder fs [.create 0 false, .open i] fs' ∧ Inv d0 fs' ∧
      fs'.inode? i = some ino ∧ i ≠ FREE_MAP_SECTOR ∧ ino.length = 0 ∧
      (freeBits fs.freeMap).length - 1 ≤ (freeBits fs'.freeMap).length := by
  have hgood : Good fs (.create 0 false) := ⟨by decide, by decide, hroom⟩
  obtain ⟨i, fs1, hcreate, h1, hnew, hc⟩ := h.create hgood
  have hlive : i ∈ fs1.live := by
    rw [hc.live]
    exact Set.mem_insert _ _
  obtain ⟨ha, hop⟩ := h1.attached.inodeOpen hlive (fun _ => h1.unlocked i)
  obtain ⟨ino, hino⟩ := hop.struct
  have hrun : Run step InOrder fs ([] ++ [.create 0 false] ++ [.open i]) (inodeOpen fs1 i) := by
    refine .snoc (.snoc .nil ⟨hgood, ?_⟩ (by rw [step, hcreate]; rfl)) ⟨hlive, ?_⟩ rfl
    · intro s buffer size offset heq
      cases heq
    · intro s buffer size offset heq
      cases heq
  refine ⟨i, _, ino, hrun, h1.of_quiet ha hop.quiet, hino, ?_, ?_, ?_⟩
  · rintro rfl
    exact hnew h.attached.zero_live
  · have hn := hop.quiet.node i hlive
    rw [FS.node_of_open hino] at hn
    exact (congrArg InodeCore.length hn).trans hc.length
  · rw [hop.quiet.freeMap]
    exact hc.spent.budget.1

end

/-! ## Every byte has a block -/

/-- Sector `s` holds data of inode `i`: it is in use, and no other block of any inode
is there. -/
def Owned (fs : FS) (i s : Sector) : Prop :=
  fs.isUsed s ∧ ∃ k, ∀ l ∈ fs.taken, fs.place l = s ↔ l = (i, some (.data k))

/-- The calls of `inode_grow` in the given action end with no sector owed. -/
def GrowsFully (fs : FS) : Act → Prop
  | .create initialSize isDir => ∀ s fs₁, (freeMapOps 1).allocate fs = some (some s, fs₁) →
    ∃ ino' fs', growBody (freeMapOps 1) fs₁.uninit.2 (newInode fs₁.uninit.1 isDir)
      (cappedLength initialSize) = .ok (ino', fs', 0)
  | .write s _ size offset => ∀ ino isDir fs₁, fs.inode? s = some ino →
    inodeIsDir ino = some isDir → lockUnlessDir fs isDir s = some fs₁ →
    ino.length < i32 (size + offset) →
    ∃ ino' fs', growBody (freeMapOps 1) fs₁ ino (i32 (size + offset)) = .ok (ino', fs', 0)
  | _ => True

theorem Inv.sectors_le (h : Inv d0 fs) (hi : i ∈ fs.live) : (fs.node i).sectors ≤ CAPACITY := by
  have hcore := h.attached.vol.core i hi
  exact sectors_of_length_le hcore.nonneg hcore.bound

theorem Inv.lookup (h : Inv d0 fs) (hino : fs.inode? i = some ino) {pos : Int} (h0 : 0 ≤ pos)
    (hlt : pos < ino.length) : ∃ s fs', byteToSector fs ino pos = some (s, fs') ∧ Owned fs i s := by
  have hvol := h.attached.vol
  have hf := hvol.fileOk_open hino
  obtain ⟨fs', heq, -⟩ := hf.lookup hvol.store h0 hlt
  have hk : (i, some (.data (pos.toNat / 512))) ∈ fs.taken := by
    refine FS.mem_taken_some.mpr ⟨(hvol.opened i ino hino).1, ?_⟩
    rw [FS.node_of_open hino]
    exact hf.div_lt (by omega)
  have hplace : sectorOf fs.store.view ino (.data (pos.toNat / 512)) =
      fs.place (i, some (.data (pos.toNat / 512))) := by
    simp only [FS.place, FS.node_of_open hino]
  refine ⟨_, fs', heq, ?_, pos.toNat / 512, fun l hl => ?_⟩
  · rw [hplace]
    exact hvol.used _ hk
  · rw [hplace]
    exact ⟨fun he => hvol.inj hl hk he, fun he => by rw [he]⟩

theorem Inv.growsFully (h : Inv d0 fs) (hgood : Good fs a) : GrowsFully fs a := by
  have hvol := h.attached.vol
  have hready := h.attached.mapReady
  cases a with
  | create initialSize isDir =>
    obtain ⟨h0, hsame, hroom⟩ := hgood
    intro s fs1 heq
    obtain ⟨hlen0, hlenB⟩ := cappedLength_le h0
    obtain ⟨s', fs', heq', hready', he, hs, -, hspent, -⟩ :=
      allocate_spec hvol hready (h.unlocked _) (h.budget hroom)
    cases heq.symm.trans heq'
    have hv := he.vol hvol hready
    have hvu : Vol d0 fs1.uninit.2 :=
      { hv with store := { hv.store with } }
    obtain ⟨ino', fs', -, hbody, -⟩ := growBody_of_new hvu
      (hready'.frame rfl rfl rfl (fun _ _ => rfl) (fun _ _ hc => hc))
      (show fs1.locked _ = false by rw [he.locked]; exact h.unlocked _) rfl hlen0 hlenB hsame
      hspent.budget (le_refl _)
    exact ⟨ino', fs', hbody⟩
  | write s buffer size offset =>
    obtain ⟨h0, hoff, ino, hino, hfits⟩ := hgood
    intro ino1 isDir fs1 hino1 hd hlock hlt
    cases hino.symm.trans hino1
    have hafter : lengthAfter ino size offset = i32 (size + offset) :=
      max_eq_right (by omega)
    have hsame := hfits.same
    have hneed := hfits.need
    rw [hafter] at hsame hneed
    obtain ⟨l, hl⟩ : ∃ l, l = if isDir then fs.locked else update fs.locked s true :=
      ⟨_, rfl⟩
    rw [lockUnlessDir_eq (fun _ => h.unlocked s), ← hl] at hlock
    cases hlock
    have hl0 : l FREE_MAP_SECTOR = false := by
      rw [hl]
      split
      · exact h.unlocked _
      · rw [update_of_ne h0.symm]
        exact h.unlocked _
    obtain ⟨ino', fs', -, hbody, -⟩ := growBody_of_open (hvol.lock l)
      (hready.frame rfl rfl rfl (fun _ _ => rfl) (fun _ _ hc => hc)) hino h0 hl0 hlt hfits.bound
      hsame (h.budget (le_refl _)) hneed
    exact ⟨ino', fs', hbody⟩
  | _ => trivial

/-- **Every byte of a file has a block.** -/
theorem every_byte_has_a_block {disk : Disk} {n : Nat} {garbage : Nat → Nat → UInt32} {fs₀ : FS}
    {as : List Act} (hfmt : Formattable n) (hinit : filesysInit disk n garbage = some fs₀)
    (hrun : Run step Good fs₀ as fs) :
    (∀ i ∈ fs.live, (fs.node i).sectors ≤ 4 + 10 * 128 + 128 * 128) ∧
      (∀ i ino pos, fs.inode? i = some ino → 0 ≤ pos → pos < ino.length →
        ∃ s fs', byteToSector fs ino pos = some (s, fs') ∧ Owned fs i s) ∧
      ∀ a, Good fs a → GrowsFully fs a := by
  have hf := formatted_of_init hfmt hinit
  have h := (Inv.of_formatted hf).run hrun
  exact ⟨fun i hi => h.sectors_le hi, fun i ino pos hino h0 hlt => h.lookup hino h0 hlt,
    fun a ha => h.growsFully ha⟩

/-- A formatted disk on which a file of one byte is created. -/
theorem every_byte_has_a_block_one_byte :
    ∃ fs₀ fs, filesysInit (fun _ => Arr.const 0) 8 (fun _ _ => 0) = some fs₀ ∧
      Run step Good fs₀ [.create 1 false] fs ∧
      (∀ i ∈ fs.live, (fs.node i).sectors ≤ 4 + 10 * 128 + 128 * 128) ∧
      (∀ i ino pos, fs.inode? i = some ino → 0 ≤ pos → pos < ino.length →
        ∃ s fs', byteToSector fs ino pos = some (s, fs') ∧ Owned fs i s) ∧
      ∀ a, Good fs a → GrowsFully fs a := by
  obtain ⟨fs₀, hinit, hf⟩ := formatted_eight
  have hgood : Good fs₀ (.create 1 false) := ⟨by decide, by decide, le_trans (by decide) hf.budget.1⟩
  obtain ⟨fs, hstep, -⟩ := (Inv.of_formatted hf).next hgood
  have hrun : Run step Good fs₀ ([] ++ [.create 1 false]) fs := .snoc .nil hgood hstep
  exact ⟨fs₀, fs, hinit, hrun, every_byte_has_a_block formattable_eight hinit hrun⟩

/-! ## Beyond the block map -/

theorem Inv.append (h : Inv d0 fs) (hino : fs.inode? i = some ino) (h0 : i ≠ FREE_MAP_SECTOR)
    (buffer : Buffer) (size : Int) (hsize : 0 ≤ size) (hend : ino.length + size ≤ 9046016)
    (hsame : SameSecond ino.sectors (bytesToSectors (ino.length + size)))
    (hroom : blocksFor CAPACITY ≤ blocksFor ino.sectors +
      (freeBits fs.freeMap).length) :
    ∃ fs' ino', Good fs (.write i buffer size ino.length) ∧
      step fs (.write i buffer size ino.length) = some fs' ∧ Inv d0 fs' ∧
      fs'.inode? i = some ino' ∧ ino'.length = ino.length + size ∧
      blocksFor CAPACITY ≤ blocksFor ino'.sectors +
        (freeBits fs'.freeMap).length := by
  have hcore := h.attached.vol.coreOk_open hino
  have hlen := hcore.nonneg
  have hwrap : i32 (size + ino.length) = ino.length + size := by
    rw [i32_of_nonneg (by omega) (by omega)]
    omega
  have hafter : lengthAfter ino size ino.length = ino.length + size := by
    unfold lengthAfter
    rw [hwrap]
    exact max_eq_right (by omega)
  have hn' : bytesToSectors (ino.length + size) ≤ CAPACITY :=
    sectors_of_length_le (by omega) hend
  have hmono : ino.sectors ≤ bytesToSectors (ino.length + size) :=
    bytesToSectors_mono hlen (by omega) hend
  have hblocks := blocksFor_mono hn'
  have hblocks' := blocksFor_mono hmono
  have hoff : OffT size ino.length := ⟨hsize, by omega, hlen, by have := hcore.bound; omega⟩
  have hfits : Fits fs ino size ino.length :=
    ⟨by omega, by rw [hafter]; exact hsame, by rw [hafter]; omega⟩
  obtain ⟨fs', ino', heq, hinv, ht, hino', hlen', -⟩ := h.write hino h0 buffer hoff hfits hafter.symm rfl
  refine ⟨fs', ino', ⟨h0, hoff, ino, hino, hfits⟩, by rw [step, heq]; rfl, hinv, hino', hlen', ?_⟩
  have hleft := ht.spent.budget.1
  have hsec : ino'.sectors = bytesToSectors (ino.length + size) := by
    rw [InodeCore.sectors, hlen']
  rw [hsec]
  unfold writeCost at hleft
  rw [hafter] at hleft
  omega

theorem Inv.fill (h : Inv d0 fs) (hino : fs.inode? i = some ino) (h0 : i ≠ FREE_MAP_SECTOR)
    (hlen : ino.length = 0) (hroom : blocksFor CAPACITY ≤ (freeBits fs.freeMap).length)
    (buffer : Buffer) (k : Nat) (hk : k ≤ 127) :
    ∃ as fs' ino', Run step Good fs as fs' ∧ Inv d0 fs' ∧ fs'.inode? i = some ino' ∧
      ino'.length = 722944 + 65536 * k ∧
      blocksFor CAPACITY ≤ blocksFor ino'.sectors +
        (freeBits fs'.freeMap).length := by
  induction k with
  | zero =>
    have hsec : ino.sectors = 0 := by
      rw [InodeCore.sectors, hlen]
      rfl
    obtain ⟨fs', ino', hgood, hstep, hinv, hino', hlen', hroom'⟩ :=
      h.append hino h0 buffer 722944 (by decide) (by rw [hlen]; decide)
        (by rw [hsec, hlen]; decide) (by omega)
    exact ⟨_, fs', ino', .snoc .nil hgood hstep, hinv, hino', by rw [hlen', hlen]; rfl, hroom'⟩
  | succ k ih =>
    obtain ⟨as, fs1, ino1, hrun, hinv1, hino1, hlen1, hroom1⟩ := ih (by omega)
    have hsame : SameSecond ino1.sectors (bytesToSectors (ino1.length + 65536)) := by
      rw [InodeCore.sectors, bytesToSectors_eq (by omega) (by omega),
        bytesToSectors_eq (by omega) (by omega), hlen1]
      unfold SameSecond
      omega
    obtain ⟨fs', ino', hgood, hstep, hinv, hino', hlen', hroom'⟩ :=
      hinv1.append hino1 h0 buffer 65536 (by decide) (by omega) hsame hroom1
    exact ⟨_, fs', ino', .snoc hrun hgood hstep, hinv, hino', by rw [hlen', hlen1]; omega, hroom'⟩

/-- No pointer of the inode is left: the loop of `inode_grow` ends at once. -/
theorem growLoop_out_of_pointers {fm : FreeMapOps} (fuel : Nat) {g : GrowState}
    (hidx : NUM_PTRS ≤ g.idx) : growLoop fm fuel g = .ok g := by
  cases fuel with
  | zero => rfl
  | succ fuel => rw [growLoop, if_neg (by omega)]

theorem Inv.overflow (h : Inv d0 fs) (hino : fs.inode? i = some ino)
    (hlen : ino.length = 9046016) (buffer : Buffer) :
    ∃ fs' ino', step fs (.write i buffer 0 9046017) = some fs' ∧ fs'.inode? i = some ino' ∧
      ino'.length = 9046017 := by
  have hcore := h.attached.vol.coreOk_open hino
  have hsec := inode?_sector hino
  obtain ⟨isDir, hd, -, -⟩ := inodeIsDir_of_kind hcore
  obtain ⟨l, hl⟩ : ∃ l, l = if isDir then fs.locked else update fs.locked i true :=
    ⟨_, rfl⟩
  have hn : bytesToSectors ino.length = 17668 := by
    rw [hlen]
    decide
  have hidx : ino.ptrIdx = 15 := by
    rw [hcore.cursor.ptrIdx, show ino.sectors = 17668 from hn]
    decide
  have hgrow : ∃ fs1, fs1.openInodes = fs.openInodes ∧ fs1.locked = l ∧
      inodeGrow (freeMapOps 1) { fs with locked := l } ino 9046017 =
        some (true, { ino with ptrIdx := 15, isAllocated := 1 }, fs1) := by
    refine ⟨({ fs with locked := l } : FS).uninit.2.uninit.2, rfl, rfl, ?_⟩
    simp only [inodeGrow, growBody]
    rw [growLoop_out_of_pointers _ (by show NUM_PTRS ≤ ino.ptrIdx; rw [hidx]; decide), hidx]
    rfl
  obtain ⟨fs1, hopen, hlocked, hgrow⟩ := hgrow
  obtain ⟨ino', hino'⟩ : ∃ e : Inode, e = { ino with
    ptrIdx := 15, isAllocated := 1, length := 9046017 } := ⟨_, rfl⟩
  have hsec' : ino'.sector = i := by
    rw [hino', ← hsec]
  have hino1 : fs1.inode? i = some ino := by
    unfold FS.inode? at hino ⊢
    rw [hopen]
    exact hino
  have hunlock : unlockUnlessDir (fs1.setInode ino') isDir ino.sector =
      some { fs1.setInode ino' with locked := fs.locked } := by
    rw [hsec]
    exact unlockUnlessDir_eq (fun _ => h.unlocked i) (hlocked.trans hl)
  have hgo : growForWrite (freeMapOps 1) fs ino 0 9046017 =
      some (true, { fs1.setInode ino' with locked := fs.locked }) := by
    unfold growForWrite
    simp only [hd, some_bind, hsec, lockUnlessDir_eq
      (fun _ => h.unlocked i), ← hl, show i32 (0 + 9046017) = 9046017 by decide]
    rw [if_pos (by omega)]
    simp only [hgrow, some_bind]
    rw [if_neg (by decide), ← hino', hunlock]
    rfl
  refine ⟨{ fs1.setInode ino' with locked := fs.locked }, ino', ?_,
    (inode?_setInode hino1 hsec' i).trans (if_pos rfl), by rw [hino']⟩
  unfold step inodeWriteAt
  simp only [hino, some_bind, (h.attached.vol.opened i ino hino).2.deny,
    ne_eq, not_true_eq_false, if_false, hgo, if_true]
  rfl

/-- A file is filled to the end of the block map and then written to behind that:
its length now is one that the block map cannot hold, and `byte_to_sector` of
the last byte fails its assertion. -/
theorem write_past_block_map :
    ∃ fs₀ fs fs' i ino as buffer,
      filesysInit (fun _ => Arr.const 0) 20000 (fun _ _ => 0) = some fs₀ ∧
      Run step Good fs₀ as fs ∧ step fs (.write i buffer 0 9046017) = some fs' ∧
      fs'.inode? i = some ino ∧ 4 + 10 * 128 + 128 * 128 < bytesToSectors ino.length ∧
      byteToSector fs' ino (ino.length - 1) = none := by
  have hfmt : Formattable 20000 := ⟨by decide, by decide, by decide⟩
  obtain ⟨fs₀, hinit, hf⟩ := filesysInit_spec (fun _ => Arr.const 0) (fun _ _ => 0) hfmt
  obtain ⟨i, fs2, ino, hrun2, h2, hino, hi, hlen, hroom⟩ :=
    (Inv.of_formatted hf).createEmpty (le_trans (by decide) hf.budget.1)
  have hfree : blocksFor CAPACITY ≤ (freeBits fs2.freeMap).length :=
    le_trans (le_trans (by decide) (Nat.sub_le_sub_right hf.budget.1 1)) hroom
  -- and filled
  obtain ⟨as, fs, ino', hrun, h, hino', hlen', -⟩ := h2.fill hino hi hlen hfree (fun _ => 0) 127
    (le_refl _)
  obtain ⟨fs', ino2, hstep, hino2, hlen2⟩ := h.overflow hino' hlen' (fun _ => 0)
  refine ⟨fs₀, fs, fs', i, ino2, _, fun _ => 0, hinit, (hrun2.mono fun _ _ hok => hok.1).append hrun, hstep, hino2, ?_, ?_⟩
  · rw [hlen2]
    decide
  · rw [hlen2]
    unfold byteToSector
    rw [hlen2]
    rfl

/-! ## A growable byte array -/

def Returns (fs : FS) (i : Sector) (size offset : Int) (f : Nat → UInt8) : Prop :=
  ∀ buffer, ∃ bytes fs', inodeReadAt fs i buffer size offset = some (size, bytes, fs') ∧
    ∀ k : Nat, k < size → bytes k = f k

variable {size offset : Int}

theorem Inv.returns (h : Inv d0 fs) (hino : fs.inode? i = some ino) (hsize : 0 ≤ size)
    (hoffset : 0 ≤ offset) (hend : offset + size ≤ ino.lengthShown) {f : Nat → UInt8}
    (hf : ∀ k : Nat, k < size → fs.byte i (offset.toNat + k) = f k) :
    Returns fs i size offset f := by
  intro buffer
  obtain ⟨fs', heq, -⟩ := inodeReadAt_spec h.attached.vol hino buffer size offset hoffset rfl
  have hcnt : (min size (ino.lengthShown - offset)).toNat = size.toNat := by omega
  rw [hcnt, Int.toNat_of_nonneg hsize] at heq
  refine ⟨_, fs', heq, fun k hk => ?_⟩
  rw [← hf k hk, fileCopy, if_pos (by omega), FS.byte, FS.node_of_open hino, Nat.sub_zero]

theorem Inv.shown_open (h : Inv d0 fs) (hall : AllShown fs) (hino : fs.inode? i = some ino) :
    ino.lengthShown = ino.length := by
  have hs := hall i (h.attached.vol.opened i ino hino).1
  rw [FS.shown_of_open hino, FS.node_of_open hino] at hs
  exact hs

theorem lengthAfter_of_lt {c : InodeCore} (hoff : OffT size offset)
    (hc : 0 ≤ c.length) (hlt : c.length < lengthAfter c size offset) :
    lengthAfter c size offset = size + offset := by
  obtain ⟨h1, h2, h3, h4⟩ := hoff
  unfold lengthAfter at hlt ⊢
  have hpos : c.length < i32 (size + offset) := by omega
  have hwrap : i32 (size + offset) = size + offset := by
    unfold i32 at hpos ⊢
    rw [Int.bmod_def] at hpos ⊢
    split at hpos <;> rename_i hsplit
    · rw [if_pos hsplit]
      omega
    · omega
  omega

theorem shown_after_write {c : InodeCore} {cnt : Nat} {len : Int} (hoff : OffT size offset)
    (hc : 0 ≤ c.length) (hle : offset ≤ c.length) (hlen : len = lengthAfter c size offset)
    (hcnt : cnt = (min size (len - offset)).toNat) : min len (c.length + cnt) = len := by
  by_cases hlt : c.length < len
  · rw [hlen] at hlt
    have := lengthAfter_of_lt hoff hc hlt
    have := hoff.size_nonneg
    omega
  · omega

theorem Inv.shown_next (h : Inv d0 fs) (hall : AllShown fs) (hok : InOrder fs a)
    (hstep : step fs a = some fs') : AllShown fs' := by
  obtain ⟨hgood, horder⟩ := hok
  cases a with
  | create initialSize isDir =>
    obtain ⟨s, fs1, heq, -, hnew, hc⟩ := h.create hgood
    rw [step, heq] at hstep
    cases hstep
    exact (hc.calm (h.attached.vol.closed_of_not_live hnew)).shown hall
  | write s buffer size offset =>
    obtain ⟨h0, hoff, ino, hino, hfits⟩ := hgood
    obtain ⟨fs1, ino', heq, -, ht, hino', hlen', hshown', -⟩ := h.write hino h0 buffer hoff hfits rfl rfl
    rw [step, heq] at hstep
    cases hstep
    refine (ht.calm ?_).shown hall
    rw [FS.shown_of_open hino', FS.node_of_open hino', hshown', hlen', h.shown_open hall hino]
    exact shown_after_write hoff (h.attached.vol.coreOk_open hino).nonneg
      (horder s buffer size offset rfl ino hino) rfl rfl
  | _ =>
    obtain ⟨fs1, heq, -, hq⟩ := h.quiet_step hgood trivial
    cases hstep.symm.trans heq
    exact hq.calm.shown hall

theorem Inv.run_inOrder {as : List Act} (h : Inv d0 fs) (hall : AllShown fs)
    (hrun : Run step InOrder fs as fs') : Inv d0 fs' ∧ AllShown fs' := by
  refine hrun.invariant (I := fun t => Inv d0 t ∧ AllShown t) (fun t b t' ht hok heq => ?_) ⟨h, hall⟩
  obtain ⟨t'', heq', hinv⟩ := ht.1.next hok.1
  cases heq.symm.trans heq'
  exact ⟨hinv, ht.1.shown_next ht.2 hok heq⟩

/-- **A file is a growable byte array**, if no write starts beyond its end. -/
theorem file_is_growable_byte_array {disk : Disk} {n : Nat} {garbage : Nat → Nat → UInt32}
    {fs₀ : FS} {as : List Act} (hfmt : Formattable n)
    (hinit : filesysInit disk n garbage = some fs₀) (hrun : Run step InOrder fs₀ as fs)
    (hino : fs.inode? i = some ino) (buffer : Buffer)
    (hok : InOrder fs (.write i buffer size offset)) (hend : offset + size ≤ 9046016) :
    ∃ fs', inodeWriteAt (freeMapOps 1) fs i buffer size offset = some (size, fs') ∧
      Returns fs' i size offset buffer ∧
      ∀ p : Nat, p < ino.length → ¬ (offset ≤ p ∧ p < offset + size) →
        ∃ b, Returns fs i 1 p (fun _ => b) ∧ Returns fs' i 1 p (fun _ => b) := by
  have hf := formatted_of_init hfmt hinit
  obtain ⟨h, hall⟩ := (Inv.of_formatted hf).run_inOrder hf.shown hrun
  obtain ⟨⟨h0, hoff, ino1, hino1, hfits⟩, horder⟩ := hok
  cases hino.symm.trans hino1
  have hcore := h.attached.vol.coreOk_open hino
  have hnonneg := hcore.nonneg
  have hle := horder i buffer size offset rfl ino hino
  have hs0 := hoff.size_nonneg
  have ho0 := hoff.offset_nonneg
  obtain ⟨len, hlen⟩ : ∃ len, len = lengthAfter ino.toInodeCore size offset := ⟨_, rfl⟩
  have hwrap : i32 (size + offset) = size + offset := i32_of_nonneg (by omega) (by omega)
  have hlen' : len = max ino.length (size + offset) := by
    rw [hlen, lengthAfter, hwrap]
  have hcnt : size.toNat = (min size (len - offset)).toNat := by omega
  obtain ⟨fs', ino', heq, hinv, -, hino', hlength, hshown, hbyte⟩ :=
    h.write hino h0 buffer hoff hfits hlen hcnt
  have hall' : ino'.lengthShown = len := by
    rw [hshown, h.shown_open hall hino]
    exact shown_after_write hoff hnonneg hle hlen hcnt
  have hsectors : bytesToSectors len = (len.toNat + 511) / 512 :=
    bytesToSectors_eq (by omega) (by have := hcore.bound; omega)
  have hold : ino.toInodeCore.sectors = (ino.length.toNat + 511) / 512 :=
    bytesToSectors_eq hnonneg (by have := hcore.bound; omega)
  refine ⟨fs', ?_, ?_, fun p hp hout => ?_⟩
  · rw [heq, Int.toNat_of_nonneg hs0]
  · refine hinv.returns hino' hs0 ho0 (by omega) fun k hk => ?_
    rw [hbyte _ (by omega), if_pos (by omega), Nat.add_sub_cancel_left]
  · -- a byte that the write does not touch
    have hback : fs'.byte i p = fs.byte i p := by
      rw [hbyte p (by omega), if_neg (by omega), if_pos (by omega)]
    have hshort := h.shown_open hall hino
    refine ⟨fs.byte i p, h.returns hino (by omega) (by omega) (by omega) fun k hk => ?_,
      hinv.returns hino' (by omega) (by omega) (by omega) fun k hk => ?_⟩
    · rw [show (p : Int).toNat + k = p by omega]
    · rw [show (p : Int).toNat + k = p by omega, hback]

end

/-- One byte is written to an empty file on a formatted disk. -/
theorem file_is_growable_byte_array_one_byte :
    ∃ fs₀ fs i ino fs', filesysInit (fun _ => Arr.const 0) 8 (fun _ _ => 0) = some fs₀ ∧
      Run step InOrder fs₀ [.create 0 false, .open i] fs ∧ fs.inode? i = some ino ∧
      inodeWriteAt (freeMapOps 1) fs i (fun _ => 120) 1 0 = some (1, fs') ∧
      Returns fs' i 1 0 fun _ => 120 := by
  obtain ⟨fs₀, hinit, hf⟩ := formatted_eight
  obtain ⟨i, fs, ino, hrun, h, hino, hi, hlen, hroom⟩ :=
    (Inv.of_formatted hf).createEmpty (le_trans (by decide) hf.budget.1)
  have hfree : 3 ≤ (freeBits fs.freeMap).length := by
    have := hf.budget.1
    exact le_trans (le_trans (by decide) (Nat.sub_le_sub_right this 1)) hroom
  have hsec : ino.toInodeCore.sectors = 0 := by
    rw [InodeCore.sectors, hlen]
    rfl
  have hafter : lengthAfter ino.toInodeCore 1 0 = 1 := by
    rw [lengthAfter, hlen]
    decide
  have hok : InOrder fs (.write i (fun _ => 120) 1 0) := by
    refine ⟨⟨hi, ⟨by decide, by decide, by decide, by decide⟩, ino, hino, by decide, ?_, ?_⟩, ?_⟩
    · rw [hsec, hafter]
      decide
    · rw [hsec, hafter, show blocksFor (bytesToSectors 1) = 1 by decide]
      omega
    · rintro s buffer size offset ⟨⟩ e he
      cases hino.symm.trans he
      rw [hlen]
  obtain ⟨fs', hwrite, hread, -⟩ :=
    file_is_growable_byte_array formattable_eight hinit hrun hino (fun _ => 120) hok (by decide)
  exact ⟨fs₀, fs, i, ino, fs', hinit, hrun, hino, hwrite, hread⟩

/-- One byte is written at offset 1 of an empty file. Reading it back returns
nothing. -/
theorem sparse_write_reads_short :
    ∃ fs₀ fs fs', filesysInit (fun _ => Arr.const 0) 8 (fun _ _ => 0) = some fs₀ ∧
      Run step (fun _ _ => True) fs₀ [.create 0 false, .open 4] fs ∧
      inodeWriteAt (freeMapOps 1) fs 4 (fun _ => 120) 1 1 = some (1, fs') ∧
      (inodeReadAt fs' 4 (fun _ => 0) 1 1).map Prod.fst = some 0 := by
  simp only [exists_and_left]
  decide +kernel

end Pintos.FileSys.FileRuns
