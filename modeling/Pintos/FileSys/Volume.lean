import Pintos.FileSys.Allocation
import Mathlib.Data.Set.Function

/-!
# The volume

Which sector belongs to which inode. `FS.node` is an inode as the file system
sees it: the struct in memory if it is open, else what its sector holds. A
*place* is an inode's own sector or a slot of its block tree.

`Vol` is what holds of the disk, the cache, the free map and the open inodes
between any two statements that touch more than one of them: no two places share
a sector, every place is marked in use, and the sectors that are read and
written past the cache are not in it.

`Frame fs fs' E` says that a call left every inode outside `E` as it was.
-/

namespace Pintos.FileSys

open Lib

/-! ## Inodes, places and bytes -/

/-- The inode at a sector: the open struct, else what the sector holds. -/
def FS.node (fs : FS) (i : Sector) : InodeCore :=
  match fs.inode? i with
  | some ino => ino.toInodeCore
  | none => decodeInode (fs.store.view i)

def FS.byte (fs : FS) (i : Sector) (k : Nat) : UInt8 := fileByte fs.store.view (fs.node i) k

def FS.openCount (fs : FS) (i : Sector) : Int :=
  match fs.inode? i with
  | some ino => ino.openCnt
  | none => 0

/-- How far a file can be read: `inode->length_shown`, the length if it is not open. -/
def FS.shown (fs : FS) (i : Sector) : Int :=
  match fs.inode? i with
  | some ino => ino.lengthShown
  | none => (fs.node i).length

/-- The inode is open and its directory entry is gone. -/
def FS.isRemoved (fs : FS) (i : Sector) : Prop := ∃ ino, fs.inode? i = some ino ∧ ino.removed = true

/-- An inode's own sector, or a slot of its block tree. -/
abbrev Place := Sector × Option Slot

def FS.place (fs : FS) : Place → Sector
  | (i, none) => i
  | (i, some a) => sectorOf fs.store.view (fs.node i) a

def FS.taken (fs : FS) : Set Place :=
  {l | l.1 ∈ fs.live ∧ ∀ a ∈ l.2, a.used (fs.node l.1).sectors}

/-- The place holds an inode or an index block, which are accessed past the cache. -/
def Place.isDirect : Place → Prop
  | (_, none) => True
  | (_, some a) => a.isIndex

@[simp] theorem FS.mem_taken_none {fs : FS} {i : Sector} : (i, none) ∈ fs.taken ↔ i ∈ fs.live := by
  simp [FS.taken]

@[simp] theorem FS.mem_taken_some {fs : FS} {i : Sector} {a : Slot} :
    (i, some a) ∈ fs.taken ↔ i ∈ fs.live ∧ a.used (fs.node i).sectors := by
  simp [FS.taken]

structure CoreOk (c : InodeCore) : Prop where
  nonneg : 0 ≤ c.length
  bound : c.length ≤ 9046016
  cursor : CursorAt c c.sectors
  kind : c.isDir = 0 ∨ c.isDir = 1
  allocated : c.isAllocated = 1

structure OpenOk (ino : Inode) : Prop where
  count : 1 ≤ ino.openCnt
  deny : ino.denyWriteCnt = 0
  nonneg : 0 ≤ ino.lengthShown
  shown : ino.lengthShown ≤ ino.length

structure Vol (d0 : Disk) (fs : FS) : Prop where
  store : StoreOk d0 fs
  nodup : OpenNodup fs
  size : fs.freeMap.length ≤ 4294967296
  core : ∀ i ∈ fs.live, CoreOk (fs.node i)
  opened : ∀ i ino, fs.inode? i = some ino → i ∈ fs.live ∧ OpenOk ino
  inj : Set.InjOn fs.place fs.taken
  used : ∀ l ∈ fs.taken, fs.isUsed (fs.place l)
  direct : ∀ l ∈ fs.taken, l.isDirect → ¬ fs.store.cached (fs.place l)
  slack : ∀ i ∈ fs.live, i ≠ FREE_MAP_SECTOR → ∀ k : Nat, (fs.node i).length ≤ k →
    k / 512 < (fs.node i).sectors → fs.byte i k = 0

section
variable {d0 : Disk} {fs fs' : FS} {i : Sector} {ino : Inode}

theorem FS.node_of_open (h : fs.inode? i = some ino) : fs.node i = ino := by
  unfold FS.node
  rw [h]

theorem FS.node_of_closed (h : fs.inode? i = none) : fs.node i = decodeInode (fs.store.view i) := by
  unfold FS.node
  rw [h]

theorem FS.openCount_congr (h : fs'.inode? i = fs.inode? i) : fs'.openCount i = fs.openCount i := by
  unfold FS.openCount
  rw [h]

theorem FS.isRemoved_congr (h : fs'.inode? i = fs.inode? i) : fs'.isRemoved i ↔ fs.isRemoved i := by
  unfold FS.isRemoved
  rw [h]

theorem FS.openCount_of_open (h : fs.inode? i = some ino) : fs.openCount i = ino.openCnt := by
  unfold FS.openCount
  rw [h]

theorem FS.openCount_of_closed (h : fs.inode? i = none) : fs.openCount i = 0 := by
  unfold FS.openCount
  rw [h]

theorem FS.shown_of_open (h : fs.inode? i = some ino) : fs.shown i = ino.lengthShown := by
  unfold FS.shown
  rw [h]

theorem FS.shown_of_closed (h : fs.inode? i = none) : fs.shown i = (fs.node i).length := by
  unfold FS.shown
  rw [h]

theorem Vol.fileOk (h : Vol d0 fs) (hi : i ∈ fs.live) : FileOk fs.store (fs.node i) where
  nonneg := (h.core i hi).nonneg
  bound := (h.core i hi).bound
  inj := by
    intro a b ha hb heq
    have := h.inj (FS.mem_taken_some.mpr ⟨hi, ha⟩) (FS.mem_taken_some.mpr ⟨hi, hb⟩) heq
    simpa using this
  direct := fun a hidx hu => h.direct (i, some a) (FS.mem_taken_some.mpr ⟨hi, hu⟩) hidx

theorem Vol.fileOk_open (h : Vol d0 fs) (hino : fs.inode? i = some ino) :
    FileOk fs.store ino := by
  rw [← FS.node_of_open hino]
  exact h.fileOk (h.opened i ino hino).1

theorem Vol.coreOk_open (h : Vol d0 fs) (hino : fs.inode? i = some ino) :
    CoreOk ino := by
  rw [← FS.node_of_open hino]
  exact h.core i (h.opened i ino hino).1

theorem Vol.place_ne (h : Vol d0 fs) {l l' : Place} (hl : l ∈ fs.taken) (hl' : l' ∈ fs.taken)
    (hne : l ≠ l') : fs.place l ≠ fs.place l' :=
  fun heq => hne (h.inj hl hl' heq)

/-! ## What a call leaves alone -/

/-- Every inode outside `E` is as it was. What the file of the free map holds
belongs to the free map. -/
structure Frame (fs fs' : FS) (E : Set Sector) : Prop where
  live : ∀ i, i ∉ E → (i ∈ fs'.live ↔ i ∈ fs.live)
  node : ∀ i ∈ fs.live, i ∉ E → fs'.node i = fs.node i
  byte : ∀ i ∈ fs.live, i ∉ E → i ≠ FREE_MAP_SECTOR → ∀ k, k / 512 < (fs.node i).sectors →
    fs'.byte i k = fs.byte i k
  removed : ∀ i, i ∉ E → (fs'.isRemoved i ↔ fs.isRemoved i)

theorem Frame.refl (fs : FS) (E : Set Sector) : Frame fs fs E :=
  ⟨fun _ _ => Iff.rfl, fun _ _ _ => rfl, fun _ _ _ _ _ _ => rfl, fun _ _ => Iff.rfl⟩

theorem Frame.mono {E E' : Set Sector} (h : Frame fs fs' E) (hE : E ⊆ E') :
    Frame fs fs' E' :=
  ⟨fun i hi => h.live i (fun he => hi (hE he)), fun i hl hi => h.node i hl (fun he => hi (hE he)),
    fun i hl hi => h.byte i hl (fun he => hi (hE he)),
    fun i hi => h.removed i (fun he => hi (hE he))⟩

theorem Frame.trans {a b c : FS} {E : Set Sector} (h : Frame a b E) (h' : Frame b c E) :
    Frame a c E where
  live := fun i hi => (h'.live i hi).trans (h.live i hi)
  node := by
    intro i hl hi
    rw [h'.node i ((h.live i hi).mpr hl) hi, h.node i hl hi]
  byte := by
    intro i hl hi h0 k hk
    rw [h'.byte i ((h.live i hi).mpr hl) hi h0 k (by rw [h.node i hl hi]; exact hk),
      h.byte i hl hi h0 k hk]
  removed := fun i hi => (h'.removed i hi).trans (h.removed i hi)

/-- Every inode and the free map are as they were, no lock has changed hands, and
what has entered the cache is in use. -/
structure Quiet (fs fs' : FS) : Prop where
  live : fs'.live = fs.live
  node : ∀ i ∈ fs.live, fs'.node i = fs.node i
  byte : ∀ i ∈ fs.live, ∀ k, k / 512 < (fs.node i).sectors → fs'.byte i k = fs.byte i k
  removed : ∀ i, fs'.isRemoved i ↔ fs.isRemoved i
  shown : ∀ i ∈ fs.live, fs'.shown i = fs.shown i ∨ fs'.shown i = (fs.node i).length
  freeMap : fs'.freeMap = fs.freeMap
  freeMapFile : fs'.freeMapFile = fs.freeMapFile
  locked : fs'.locked = fs.locked
  cached : ∀ s, fs'.store.cached s → fs.store.cached s ∨ fs.isUsed s

theorem Quiet.refl (fs : FS) : Quiet fs fs :=
  ⟨rfl, fun _ _ => rfl, fun _ _ _ _ => rfl, fun _ => Iff.rfl, fun _ _ => Or.inl rfl, rfl, rfl, rfl,
    fun _ hs => Or.inl hs⟩

theorem Quiet.trans {a b c : FS} (h : Quiet a b) (h' : Quiet b c) : Quiet a c where
  live := h'.live.trans h.live
  node := fun i hi => (h'.node i (h.live ▸ hi)).trans (h.node i hi)
  byte := by
    intro i hi k hk
    have hi' : i ∈ b.live := h.live ▸ hi
    rw [h'.byte i hi' k (by rw [h.node i hi]; exact hk), h.byte i hi k hk]
  removed := fun i => (h'.removed i).trans (h.removed i)
  shown := by
    intro i hi
    rcases h'.shown i (h.live ▸ hi) with h2 | h2
    · rw [h2]
      exact h.shown i hi
    · right
      rw [h2, h.node i hi]
  freeMap := h'.freeMap.trans h.freeMap
  freeMapFile := h'.freeMapFile.trans h.freeMapFile
  locked := h'.locked.trans h.locked
  cached := by
    intro s hs
    rcases h'.cached s hs with hs | hs
    · exact h.cached s hs
    · exact .inr ((isUsed_congr h.freeMap).mp hs)

theorem Quiet.frame (h : Quiet fs fs') (E : Set Sector) : Frame fs fs' E :=
  ⟨fun i _ => by rw [h.live], fun i hi _ => h.node i hi, fun i hi _ _ => h.byte i hi,
    fun i _ => h.removed i⟩

theorem Quiet.budget {m : Nat} (h : Quiet fs fs') (hsize : fs.freeMap.length ≤ 4294967296)
    (hb : Budget fs m) : Budget fs' m :=
  hb.frame h.freeMap hsize h.cached

/-! ## Calls that move no block -/

/-- The same inodes are live, and every slot of their block trees is where it
was. -/
structure Stays (fs fs' : FS) : Prop where
  live : fs'.live = fs.live
  length : ∀ i ∈ fs.live, (fs'.node i).length = (fs.node i).length
  ptrs : ∀ i ∈ fs.live, (fs'.node i).ptrs = (fs.node i).ptrs
  index : ∀ i ∈ fs.live, ∀ s ∈ indexSectors fs.store.view (fs.node i),
    fs'.store.view s = fs.store.view s

theorem Stays.sectors (h : Stays fs fs') (hi : i ∈ fs.live) :
    (fs'.node i).sectors = (fs.node i).sectors := by
  unfold InodeCore.sectors
  rw [h.length i hi]

theorem Stays.slot (h : Stays fs fs') (hi : i ∈ fs.live) {a : Slot}
    (ha : a.used (fs.node i).sectors) :
    sectorOf fs'.store.view (fs'.node i) a = sectorOf fs.store.view (fs.node i) a := by
  rw [sectorOf_ptrs (h.ptrs i hi)]
  exact sectorOf_frame (fun b hb hu => h.index i hi _ ⟨b, hb, hu, rfl⟩) a ha

theorem Stays.taken (h : Stays fs fs') : fs'.taken = fs.taken := by
  ext ⟨i, a⟩
  by_cases hi : i ∈ fs.live
  · simp only [FS.taken, Set.mem_ofPred_eq, h.live, h.sectors hi]
  · simp only [FS.taken, Set.mem_ofPred_eq, h.live, hi, false_and]

theorem Stays.place (h : Stays fs fs') {l : Place} (hl : l ∈ fs.taken) :
    fs'.place l = fs.place l := by
  obtain ⟨i, a⟩ := l
  cases a with
  | none => rfl
  | some a =>
    obtain ⟨hi, ha⟩ := FS.mem_taken_some.mp hl
    exact h.slot hi ha

/-- No block has moved, and the free map is as it was. -/
structure Unmoved (fs fs' : FS) : Prop where
  freeMap : fs'.freeMap = fs.freeMap
  taken : fs'.taken = fs.taken
  place : ∀ l ∈ fs.taken, fs'.place l = fs.place l

theorem Unmoved.trans {fs'' : FS} (h : Unmoved fs fs') (h' : Unmoved fs' fs'') : Unmoved fs fs'' :=
  ⟨h'.freeMap.trans h.freeMap, h'.taken.trans h.taken, fun l hl =>
    (h'.place l (h.taken.symm ▸ hl)).trans (h.place l hl)⟩

theorem Stays.unmoved (h : Stays fs fs') (hmap : fs'.freeMap = fs.freeMap) : Unmoved fs fs' :=
  ⟨hmap, h.taken, fun _ hl => h.place hl⟩

theorem Quiet.unmoved (h : Quiet fs fs') (hview : fs'.store.view = fs.store.view) :
    Unmoved fs fs' :=
  Stays.unmoved ⟨h.live, fun i hi => by rw [h.node i hi], fun i hi => by rw [h.node i hi],
    fun _ _ _ _ => by rw [hview]⟩ h.freeMap

theorem Stays.byte (h : Stays fs fs') (hi : i ∈ fs.live)
    (hdata : ∀ s ∈ dataSectors fs.store.view (fs.node i), fs'.store.view s = fs.store.view s)
    {k : Nat} (hk : k / 512 < (fs.node i).sectors) : fs'.byte i k = fs.byte i k := by
  unfold FS.byte fileByte
  rw [h.slot hi (a := .data (k / 512)) hk, hdata _ ⟨k / 512, hk, rfl⟩]

theorem Vol.of_stays (h : Vol d0 fs) (hs : Stays fs fs') (hstore : StoreOk d0 fs')
    (hused : ∀ s, fs.isUsed s → fs'.isUsed s) (hsize : fs'.freeMap.length = fs.freeMap.length)
    (hnodup : OpenNodup fs')
    (hopened : ∀ j ino, fs'.inode? j = some ino → j ∈ fs.live ∧ OpenOk ino)
    (hdirect : ∀ l ∈ fs.taken, l.isDirect → ¬ fs'.store.cached (fs.place l))
    (hcore : ∀ j ∈ fs.live, CoreOk (fs'.node j) ∧ (j ≠ FREE_MAP_SECTOR → ∀ k : Nat,
      (fs.node j).length ≤ k → k / 512 < (fs.node j).sectors → fs'.byte j k = fs.byte j k)) :
    Vol d0 fs' where
  store := hstore
  nodup := hnodup
  size := by
    rw [hsize]
    exact h.size
  core := by
    rw [hs.live]
    exact fun j hj => (hcore j hj).1
  opened := by
    rw [hs.live]
    exact hopened
  inj := by
    rw [hs.taken]
    intro l hl l' hl' heq
    rw [hs.place hl, hs.place hl'] at heq
    exact h.inj hl hl' heq
  used := by
    rw [hs.taken]
    intro l hl
    rw [hs.place hl]
    exact hused _ (h.used l hl)
  direct := by
    rw [hs.taken]
    intro l hl hd
    rw [hs.place hl]
    exact hdirect l hl hd
  slack := by
    rw [hs.live]
    intro j hj h0 k hlen hk
    rw [hs.length j hj] at hlen
    rw [hs.sectors hj] at hk
    rw [(hcore j hj).2 h0 k hlen hk]
    exact h.slack j hj h0 k hlen hk

/-! ## Calls that only read -/

section
variable (h : SameRest fs fs') (hv : fs'.store.view = fs.store.view)
include h hv

theorem SameRest.node_eq :
    fs'.node = fs.node := by
  funext j
  unfold FS.node
  rw [h.inode? j, hv]

theorem SameRest.byte_eq :
    fs'.byte = fs.byte := by
  funext j k
  unfold FS.byte
  rw [h.node_eq hv, hv]

theorem SameRest.quiet (hc : ∀ s, fs'.store.cached s → fs.store.cached s ∨ fs.isUsed s) :
    Quiet fs fs' where
  __ := h
  node := fun j _ => by rw [h.node_eq hv]
  byte := fun j _ k _ => by rw [h.byte_eq hv]
  removed := fun j => FS.isRemoved_congr (h.inode? j)
  shown := by
    intro j _
    left
    unfold FS.shown
    rw [h.inode? j, h.node_eq hv]
  cached := hc

end

variable (h : Vol d0 fs)
include h

theorem Vol.of_cached (hrest : SameRest fs fs') {S : Set Sector} (heff : StoreEff d0 fs fs' S ∅)
    (hS : ∀ s ∈ S, ∃ l ∈ fs.taken, ¬ l.isDirect ∧ s = fs.place l) : Vol d0 fs' := by
  have hv := heff.view_eq
  have hstays : Stays fs fs' :=
    ⟨hrest.live, fun j _ => by rw [hrest.node_eq hv], fun j _ => by rw [hrest.node_eq hv],
      fun j _ s _ => by rw [hv]⟩
  refine h.of_stays hstays heff.ok ?_ (by rw [hrest.freeMap]) ?_ ?_ ?_ ?_
  · exact fun s hs => (isUsed_congr hrest.freeMap).mpr hs
  · exact h.nodup.congr hrest.openInodes
  · intro j ino hino
    rw [hrest.inode?] at hino
    exact h.opened j ino hino
  · intro l hl hd hc
    rcases heff.cached _ hc with hc | hc
    · exact h.direct l hl hd hc
    · obtain ⟨l', hl', hnd, heq⟩ := hS _ hc
      have := h.inj hl hl' heq
      subst this
      exact hnd hd
  · intro j hj
    rw [hrest.node_eq hv]
    exact ⟨h.core j hj, fun _ k _ _ => by rw [hrest.byte_eq hv]⟩

theorem Vol.data_place (hino : fs.inode? i = some ino) :
    ∀ s ∈ dataSectors fs.store.view ino,
      ∃ l ∈ fs.taken, ¬ l.isDirect ∧ s = fs.place l := by
  rintro s ⟨k, hk, rfl⟩
  rw [← FS.node_of_open hino] at hk ⊢
  exact ⟨(i, some (.data k)), FS.mem_taken_some.mpr ⟨(h.opened i ino hino).1, hk⟩, fun hd => hd, rfl⟩

theorem Vol.data_used (hino : fs.inode? i = some ino) :
    ∀ s ∈ dataSectors fs.store.view ino, fs.isUsed s := by
  intro s hs
  obtain ⟨l, hl, -, rfl⟩ := h.data_place hino s hs
  exact h.used l hl

/-- `inode_read_at`: the bytes from `offset` up to `length_shown`. -/
theorem inodeReadAt_spec (hino : fs.inode? i = some ino) (buffer : Buffer) (size offset : Int)
    (h0 : 0 ≤ offset) {cnt : Nat} (hcnt : cnt = (min size (ino.lengthShown - offset)).toNat) :
    ∃ fs', inodeReadAt fs i buffer size offset =
        some ((cnt : Int), fileCopy fs.store.view ino offset.toNat cnt buffer 0, fs') ∧
      Vol d0 fs' ∧ SameRest fs fs' ∧ fs'.store.view = fs.store.view ∧ Quiet fs fs' := by
  unfold inodeReadAt
  simp only [hino, some_bind]
  by_cases hle : ino.lengthShown ≤ offset
  · rw [if_pos hle]
    obtain rfl : cnt = 0 := by omega
    refine ⟨fs, ?_, h, SameRest.refl fs, rfl, Quiet.refl fs⟩
    rw [fileCopy_zero]
    rfl
  · rw [if_neg hle]
    obtain ⟨fs', hloop, hrest, heff⟩ := readLoop_spec size.toNat buffer (n := 0)
      h.store hino (h.fileOk_open hino) (h.opened i ino hino).2.shown h0
      (le_refl _) hcnt
    rw [Nat.zero_add] at hloop
    refine ⟨fs', hloop, h.of_cached hrest heff (h.data_place hino), hrest, heff.view_eq,
      hrest.quiet heff.view_eq ?_⟩
    intro s hs
    exact (heff.cached s hs).imp id (h.data_used hino s)

theorem writeBehind_spec :
    Vol d0 fs.cacheWriteBehindLoop ∧ SameRest fs fs.cacheWriteBehindLoop ∧
      Quiet fs fs.cacheWriteBehindLoop := by
  obtain ⟨hrest, heff⟩ := FS.cacheWriteBehindLoop_spec h.store
  refine ⟨h.of_cached hrest heff (fun s hs => absurd hs (fun hs => hs)), hrest,
    hrest.quiet heff.view_eq ?_⟩
  intro s hs
  rcases heff.cached s hs with hs | hs
  · exact Or.inl hs
  · exact absurd hs (fun hs => hs)

end

end Pintos.FileSys
