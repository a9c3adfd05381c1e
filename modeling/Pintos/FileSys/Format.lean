import Pintos.FileSys.Calls

/-!
# The formatted disk

`filesys_init (true)` writes the free map file and an empty root directory.
`filesysInit_spec` says that it then leaves the file system mounted, with two
live inodes, an empty tree, and nothing open but the free map file.
-/

namespace Pintos.FileSys

open Lib List FS

/-! ## Before formatting -/

/-- The state that `inode_init`, `free_map_init` and `cache_init` leave behind. -/
def blankVolume (disk : Disk) (diskSize : Nat) (garbage : Nat → Nat → UInt32) : FS where
  store := cacheInit disk
  freeMap := freeMapInit diskSize
  freeMapFile := none
  openInodes := []
  locked := fun _ => false
  garbage := garbage
  garbagePos := 0
  log := []

/-- The disk can be formatted: the file of the free map fills at most one
second-level block, and there is room for it and for the root directory. -/
structure Formattable (diskSize : Nat) : Prop where
  size : diskSize ≤ 4294967296
  same : SameSecond 0 (bytesToSectors (byteCnt diskSize))
  room : blocksFor (bytesToSectors (byteCnt diskSize)) + 3 ≤ diskSize

section
variable {disk : Disk} {n : Nat} {garbage : Nat → Nat → UInt32}

theorem length_freeMapInit : (freeMapInit n).length = n := by
  simp [freeMapInit]

theorem getElem?_freeMapInit (i : Nat) :
    (freeMapInit n)[i]? = if i < n then some (decide (i < 2)) else none := by
  unfold freeMapInit
  rw [getElem?_set, getElem?_set, getElem?_replicate]
  simp only [length_set, length_replicate, ROOT_DIR_SECTOR, FREE_MAP_SECTOR]
  by_cases h1 : i = 1
  · subst h1
    simp
  · by_cases h0 : i = 0
    · subst h0
      simp
    · have h1' : ¬ 1 = i := fun h => h1 h.symm
      have h0' : ¬ 0 = i := fun h => h0 h.symm
      simp [h1', h0', show ¬ i < 2 by omega]

theorem freeBits_freeMapInit (h : 2 ≤ n) : freeBits (freeMapInit n) = List.range' 2 (n - 2) := by
  have hsplit : List.range n = List.range 2 ++ List.range' 2 (n - 2) := by
    rw [range_eq_range', range_eq_range', range'_append_1]
    congr 1
    omega
  unfold freeBits
  rw [length_freeMapInit, hsplit, filter_append]
  have hlow : (List.range 2).filter (fun i => (freeMapInit n)[i]? = some false) = [] := by
    rw [filter_eq_nil_iff]
    intro i hi
    have hlt := mem_range.mp hi
    rw [getElem?_freeMapInit]
    simp [hlt, show i < n by omega]
  have hhigh : (List.range' 2 (n - 2)).filter (fun i => (freeMapInit n)[i]? = some false) =
      List.range' 2 (n - 2) := by
    rw [filter_eq_self]
    intro i hi
    have hmem := mem_range'_1.mp hi
    rw [getElem?_freeMapInit, if_pos (by omega)]
    simp [show ¬ i < 2 by omega]
  rw [hlow, hhigh, nil_append]

theorem not_cached_cacheInit (s : Sector) : ¬ (cacheInit disk).cached s := by
  simp [cacheInit, Store.cached]

theorem blankVolume_inode? (i : Sector) : (blankVolume disk n garbage).inode? i = none := rfl

theorem blankVolume_live : (blankVolume disk n garbage).live = ∅ := rfl

theorem blankVolume_vol (hn : n ≤ 4294967296) : Vol disk (blankVolume disk n garbage) := by
  have hlive : ∀ i, i ∉ (blankVolume disk n garbage).live := fun i hi => hi
  refine ⟨⟨cacheInit_inv disk, trivial, ?_⟩, nodup_nil, ?_, fun i hi => absurd hi (hlive i),
    fun i ino hino => ?_, fun l hl => absurd hl.1 (hlive _), fun l hl => absurd hl.1 (hlive _),
    fun l hl => absurd hl.1 (hlive _), fun i hi => absurd hi (hlive i)⟩
  · funext s
    exact (view_of_not_cached (not_cached_cacheInit s)).symm
  · show (freeMapInit n).length ≤ _
    rw [length_freeMapInit]
    exact hn
  · rw [blankVolume_inode?] at hino
    cases hino

/-- The two sectors that `free_map_init` marks are not yet inodes. -/
theorem blankVolume_loose {s : Sector} (hs : s.toNat < 2) (hn : 2 ≤ n) :
    Loose (blankVolume disk n garbage) s := by
  refine ⟨?_, not_cached_cacheInit s, fun l hl => absurd hl.1 (fun hi => hi)⟩
  show (freeMapInit n)[s.toNat]? = some true
  rw [getElem?_freeMapInit, if_pos (by omega), decide_eq_true hs]

theorem blankVolume_budget (h : 2 ≤ n) : Budget (blankVolume disk n garbage) (n - 2) := by
  refine ⟨?_, fun k _ => not_cached_cacheInit _⟩
  show n - 2 ≤ (freeBits (freeMapInit n)).length
  rw [freeBits_freeMapInit h, length_range']

/-! ## Writing the map -/

variable {d0 : Disk} {fs fs' : FS} {ino : Inode}

theorem inodeOpen_store (fs : FS) (i : Sector) : (inodeOpen fs i).store = fs.store := by
  unfold inodeOpen
  cases fs.inode? i <;> rfl

theorem Opened.stays {i : Sector} (h : Opened fs (inodeOpen fs i) i) :
    Stays fs (inodeOpen fs i) :=
  ⟨h.quiet.live, fun j hj => by rw [h.quiet.node j hj], fun j hj => by rw [h.quiet.node j hj],
    fun j _ s _ => by rw [inodeOpen_store]⟩

theorem Vol.place_not_mapData (h : Vol d0 fs) (hm : MapFile fs ino) {l : Place} (hl : l ∈ fs.taken)
    (hne : l.1 ≠ FREE_MAP_SECTOR ∨ l.isDirect) :
    fs.place l ∉ dataSectors fs.store.view ino := by
  rintro ⟨k, hk, heq⟩
  have hnode := node_of_open hm.opened
  have hl' : (FREE_MAP_SECTOR, some (.data k)) ∈ fs.taken :=
    mem_taken_some.mpr ⟨(h.opened _ ino hm.opened).1, by rw [hnode]; exact hk⟩
  have hplace : fs.place (FREE_MAP_SECTOR, some (.data k)) =
      sectorOf fs.store.view ino (.data k) := by
    show sectorOf fs.store.view (fs.node FREE_MAP_SECTOR) (.data k) = _
    rw [hnode]
  have := h.inj hl hl' (heq.trans hplace.symm)
  subst this
  rcases hne with hne | hne
  · exact hne rfl
  · exact hne

theorem Vol.of_map_write (h : Vol d0 fs) (hm : MapFile fs ino) (hrest : SameRest fs fs')
    (heff : StoreEff d0 fs fs' (dataSectors fs.store.view ino)
      (dataSectors fs.store.view ino)) :
    Vol d0 fs' ∧ Stays fs fs' ∧ ∀ j ∈ fs.live, fs'.node j = fs.node j := by
  have hnode : ∀ j ∈ fs.live, fs'.node j = fs.node j := by
    intro j hj
    unfold FS.node
    rw [hrest.inode? j, heff.view j (h.place_not_mapData hm (mem_taken_none.mpr hj)
      (.inr trivial))]
  have hstays : Stays fs fs' := by
    refine ⟨hrest.live, fun j hj => by rw [hnode j hj], fun j hj => by rw [hnode j hj], ?_⟩
    rintro j hj s ⟨a, hidx, hu, rfl⟩
    exact heff.view _ (h.place_not_mapData hm (l := (j, some a))
      (mem_taken_some.mpr ⟨hj, hu⟩) (.inr hidx))
  refine ⟨h.of_stays hstays heff.ok ?_ (by rw [hrest.freeMap]) ?_ ?_ ?_ ?_, hstays, hnode⟩
  · exact fun s hs => (isUsed_congr hrest.freeMap).mpr hs
  · exact h.nodup.congr hrest.openInodes
  · intro j e he
    rw [hrest.inode?] at he
    exact h.opened j e he
  · intro l hl hd hc
    rcases heff.cached _ hc with hc | hc
    · exact h.direct l hl hd hc
    · exact h.place_not_mapData hm hl (.inr hd) hc
  · intro j hj
    rw [hnode j hj]
    refine ⟨h.core j hj, fun h0 k _ hk => hstays.byte hj ?_ hk⟩
    rintro s ⟨q, hq, rfl⟩
    exact heff.view _ (h.place_not_mapData hm (l := (j, some (.data q)))
      (mem_taken_some.mpr ⟨hj, hq⟩) (.inl h0))

end

/-! ## Formatting -/

/-- What is known right after formatting: two live inodes, an empty root, and
`m` free sectors. -/
structure Formatted (d0 : Disk) (fs : FS) (m : Nat) : Prop where
  mounted : Mounted d0 fs
  live : fs.live = {FREE_MAP_SECTOR, ROOT_DIR_SECTOR}
  rootKind : (fs.node ROOT_DIR_SECTOR).isDir = 1
  rootParent : (fs.node ROOT_DIR_SECTOR).parent = 0
  rootLength : (fs.node ROOT_DIR_SECTOR).length = 320
  rootZero : ∀ k, k < 512 → fs.byte ROOT_DIR_SECTOR k = 0
  opened : ∃ ino, fs.inode? FREE_MAP_SECTOR = some ino ∧ ino.openCnt = 1 ∧ ino.removed = false
  closed : ∀ i, i ≠ FREE_MAP_SECTOR → fs.inode? i = none
  unlocked : ∀ i, fs.locked i = false
  shown : AllShown fs
  free : FreeUncached fs
  budget : Budget fs m

section
variable (disk : Disk) {n m : Nat} (garbage : Nat → Nat → UInt32)

theorem Formattable.length_le (h : Formattable n) : (byteCnt n : Int) ≤ 722944 := by
  have hsame := h.same
  have hsize := h.size
  have hbytes : byteCnt n ≤ 536870912 := by
    unfold byteCnt
    omega
  rw [bytesToSectors_eq (by omega) (by omega)] at hsame
  unfold SameSecond at hsame
  omega

theorem createMapFile (h : Formattable n) :
    ∃ fs₁ fs₂ ino, inodeCreate (freeMapOps 1) (blankVolume disk n garbage) FREE_MAP_SECTOR
        (byteCnt n) false = some (true, fs₁) ∧
      fs₂ = { inodeOpen fs₁ FREE_MAP_SECTOR with freeMapFile := some FREE_MAP_SECTOR } ∧
      Vol disk fs₂ ∧ MapFile fs₂ ino ∧ ino.openCnt = 1 ∧ ino.removed = false ∧
      fs₂.live = {FREE_MAP_SECTOR} ∧ fs₂.freeMap.length = n ∧
      (∀ i, i ≠ FREE_MAP_SECTOR → fs₂.inode? i = none) ∧ (∀ i, fs₂.locked i = false) ∧
      Calm (blankVolume disk n garbage) fs₂ ∧
      Budget fs₂ (n - 2 - blocksFor (bytesToSectors (byteCnt n))) ∧
      ∀ u, u ≠ FREE_MAP_SECTOR → Loose (blankVolume disk n garbage) u → Loose fs₂ u := by
  have hsize := h.size
  have hroom := h.room
  have hlen := h.length_le
  have hcap : (byteCnt n : Int) = cappedLength (byteCnt n) := by
    unfold cappedLength FILE_SIZE_MAX
    rw [if_neg (by omega)]
  have hvol0 : Vol disk (blankVolume disk n garbage) := blankVolume_vol hsize
  have hloose : Loose (blankVolume disk n garbage) FREE_MAP_SECTOR :=
    blankVolume_loose (by decide) (by omega)
  obtain ⟨fs₁, hcreate, hvol1, -, hc⟩ : ∃ fs₁, inodeCreate (freeMapOps 1)
      (blankVolume disk n garbage) FREE_MAP_SECTOR (byteCnt n) false = some (true, fs₁) ∧
      Vol disk fs₁ ∧ MapReady fs₁ ∅ ∅ ∧ Created _ fs₁ _ _ _ _ :=
    inodeCreate_spec hvol0 (.inl ⟨rfl, rfl, rfl⟩) hloose rfl (Int.natCast_nonneg _) hcap h.same
      (blankVolume_budget (by omega)) (by omega)
  have hlive1 : FREE_MAP_SECTOR ∈ fs₁.live := by
    rw [hc.live]
    exact Set.mem_insert _ _
  have hclosed1 : ∀ i, fs₁.inode? i = none := fun i => hc.inodes i
  have hlocked1 : ∀ i, fs₁.locked i = false := fun i => by rw [hc.locked]; rfl
  obtain ⟨hvol2, hop⟩ := inodeOpen_spec hvol1 hlive1 (fun _ => hlocked1 _)
  obtain ⟨ino, hino⟩ := hop.struct
  have hnode : ino = fs₁.node FREE_MAP_SECTOR := by
    rw [← node_of_open hino, hop.quiet.node _ hlive1]
  have hcnt : ino.openCnt = 1 := by
    have := hop.count FREE_MAP_SECTOR
    rw [openCount_of_open hino, openCount_of_closed (hclosed1 _), if_pos rfl] at this
    omega
  have hrem : ino.removed = false := by
    have := hop.quiet.removed FREE_MAP_SECTOR
    cases hr : ino.removed with
    | false => rfl
    | true =>
      obtain ⟨e, he, -⟩ := this.mp ⟨ino, hino, hr⟩
      rw [hclosed1] at he
      cases he
  have hlen1 : (fs₁.node FREE_MAP_SECTOR).length = byteCnt n := hc.length
  have hmap : (inodeOpen fs₁ FREE_MAP_SECTOR).freeMap.length = n := by
    rw [hop.quiet.freeMap, hc.spent.size]
    exact length_freeMapInit
  have hilen : ino.length = (fs₁.node FREE_MAP_SECTOR).length := congrArg InodeCore.length hnode
  have hshown : ino.lengthShown = ino.length := by
    have hs := hop.quiet.shown _ hlive1
    rw [shown_of_open hino, shown_of_closed (hclosed1 _), or_self, ← hilen] at hs
    exact hs
  have hvol2' : Vol disk
      { inodeOpen fs₁ FREE_MAP_SECTOR with freeMapFile := some FREE_MAP_SECTOR } :=
    { hvol2 with store := { hvol2.store with } }
  have hcalm := (hc.calm rfl).trans hop.quiet.calm
  refine ⟨fs₁, _, ino, hcreate, rfl, hvol2', ⟨rfl, hino, hvol2.fileOk_open hino,
    (hvol2.opened _ ino hino).2.deny, ?_, ?_, hshown⟩, hcnt, hrem, ?_, hmap, ?_, ?_,
    { hcalm with },
    hop.quiet.budget hvol1.size hc.spent.budget, ?_⟩
  · rw [hnode, hc.kind]
    rfl
  · rw [hilen, hlen1]
    show _ = ((byteCnt (inodeOpen fs₁ FREE_MAP_SECTOR).freeMap.length : Nat) : Int)
    rw [hmap]
  · show (inodeOpen fs₁ FREE_MAP_SECTOR).live = _
    rw [hop.quiet.live, hc.live, blankVolume_live]
    simp
  · intro i hi
    exact (hop.others i hi).trans (hclosed1 i)
  · intro i
    exact (congrFun hop.quiet.locked i).trans (hlocked1 i)
  · intro u hu hl
    have hl1 := hc.loose u hu hl
    have hl2 := hl1.stays hop.stays (hop.quiet.calm.used u hl1.used)
      (by rw [inodeOpen_store]; exact hl1.direct)
    exact { hl2 with }

theorem freeMapCreate_spec (h : Formattable n) :
    ∃ fs ino D N, freeMapCreate (blankVolume disk n garbage) = some fs ∧ Vol disk fs ∧
      MapReady fs D N ∧ fs.freeMapFile = some FREE_MAP_SECTOR ∧
      fs.inode? FREE_MAP_SECTOR = some ino ∧ ino.openCnt = 1 ∧ ino.removed = false ∧
      fs.live = {FREE_MAP_SECTOR} ∧ (∀ i, i ≠ FREE_MAP_SECTOR → fs.inode? i = none) ∧
      (∀ i, fs.locked i = false) ∧ Calm (blankVolume disk n garbage) fs ∧
      Budget fs (n - 2 - blocksFor (bytesToSectors (byteCnt n))) ∧
      ∀ u, u ≠ FREE_MAP_SECTOR → Loose (blankVolume disk n garbage) u → Loose fs u := by
  obtain ⟨fs1, fs2, ino, hcreate, hfs2, hvol2, hm2, hcnt, hrem, hlive, hmap, hclosed, hlocked,
    hcalm, hb, hloose⟩ := createMapFile disk garbage h
  obtain ⟨fs3, hwrite, hrest, heff, hm3, hsync⟩ :=
    bitmapWrite_spec (freeMapOps 1) hvol2.store hvol2.nodup hm2 (hlocked _)
  obtain ⟨hvol3, hstays, hnode⟩ := hvol2.of_map_write hm2 hrest heff
  have hused : ∀ s, fs2.isUsed s ↔ fs3.isUsed s := fun s => (isUsed_congr hrest.freeMap).symm
  have hcached : ∀ s, fs3.store.cached s → fs2.store.cached s ∨ fs2.isUsed s := fun s hs =>
    (heff.cached s hs).imp id (hvol2.data_used hm2.opened s)
  refine ⟨fs3, ino, _, _, ?_, hvol3, .inr ⟨ino, hm3, hsync, rfl, rfl⟩, hm3.file, hm3.opened,
    hcnt, hrem, hrest.live.trans hlive, fun i hi => (hrest.inode? i).trans (hclosed i hi),
    fun i => by rw [hrest.locked]; exact hlocked i, ?_, hb.frame hrest.freeMap hvol2.size hcached, ?_⟩
  · unfold freeMapCreate
    rw [show (blankVolume disk n garbage).freeMap.length = n from length_freeMapInit]
    simp only [hcreate, some_bind, if_true, ← hfs2, hwrite]
  · refine hcalm.trans ⟨hrest.locked, ?_, by rw [hrest.freeMap], fun s hs => (hused s).mp hs,
      fun s hs => (hcached s hs).imp id (hused s).mp⟩
    intro hall j hj
    rw [hrest.live] at hj
    rw [shown_congr (hrest.inode? j) (hnode j hj), hnode j hj]
    exact hall j hj
  · intro u hu hl
    have hl2 := hloose u hu hl
    refine hl2.stays hstays ((hused u).mp hl2.used) fun hc => ?_
    rcases heff.cached u hc with hc | hc
    · exact hl2.direct hc
    · obtain ⟨l, hl', -, heq⟩ := hvol2.data_place hm2.opened u hc
      exact hl2.apart l hl' heq.symm

variable {fs : FS} {d0 : Disk}

theorem Opened.sameRest {fs₁ fs₂ : FS} {i : Sector} (h : Opened fs fs₁ i) (hrest : SameRest fs₁ fs₂)
    (hq : Quiet fs₁ fs₂) : Opened fs fs₂ i := by
  refine ⟨h.quiet.trans hq, fun j => ?_, ?_, fun j hj => ?_⟩
  · rw [← h.count j]
    exact openCount_congr (hrest.inode? j)
  · obtain ⟨ino, hino⟩ := h.struct
    exact ⟨ino, (hrest.inode? i).trans hino⟩
  · rw [hrest.inode?]
    exact h.others j hj

/-- `free_map_open` when the file of the free map holds the map `b`: whatever the
map in memory was, it is `b` afterwards. -/
theorem freeMapOpen_spec {fs₀ : FS} {b : List Bool}
    (heq : fs₀ = { fs with freeMap := b, freeMapFile := some FREE_MAP_SECTOR }) (h : Vol d0 fs₀)
    (hlive : FREE_MAP_SECTOR ∈ fs₀.live) (hlock : fs₀.locked FREE_MAP_SECTOR = false)
    (hclosed : fs₀.inode? FREE_MAP_SECTOR = none) (hpos : 0 < b.length)
    (hsize : fs.freeMap.length = b.length)
    (hlen : (fs₀.node FREE_MAP_SECTOR).length = byteCnt b.length)
    (hsync : ∀ k, k < byteCnt b.length → fs₀.byte FREE_MAP_SECTOR k = bitmapBytes b k) :
    ∃ fs', freeMapOpen fs = some fs' ∧ Vol d0 fs' ∧ Opened fs₀ fs' FREE_MAP_SECTOR := by
  obtain ⟨hvol1, hop⟩ := inodeOpen_spec h hlive (fun _ => hlock)
  obtain ⟨ino, hino⟩ := hop.struct
  have hcore : ino = fs₀.node FREE_MAP_SECTOR := by
    rw [← node_of_open hino, hop.quiet.node _ hlive]
  have hshown : ino.lengthShown = byteCnt b.length := by
    have hs := hop.quiet.shown _ hlive
    rw [shown_of_open hino, shown_of_closed hclosed, or_self] at hs
    rw [hs, hlen]
  have hbytes : 0 < byteCnt b.length := by
    unfold byteCnt
    omega
  -- the file is read before the map in memory is replaced
  obtain ⟨g, hg⟩ : ∃ g, g = { inodeOpen fs₀ FREE_MAP_SECTOR with freeMap := fs.freeMap } :=
    ⟨_, rfl⟩
  have hopen : { inodeOpen fs FREE_MAP_SECTOR with freeMapFile := some FREE_MAP_SECTOR } = g := by
    have hfind : fs.inode? FREE_MAP_SECTOR = none := by
      rw [heq] at hclosed
      exact hclosed
    rw [hg]
    unfold inodeOpen
    rw [hfind, hclosed, heq]
    rfl
  have hst : StoreOk d0 g := by
    rw [hg]
    exact { hvol1.store with }
  have hgino : g.inode? FREE_MAP_SECTOR = some ino := by
    rw [hg]
    exact hino
  have hgstore : g.store = (inodeOpen fs₀ FREE_MAP_SECTOR).store := by rw [hg]
  have hgmap : g.freeMap.length = b.length := by
    rw [hg]
    exact hsize
  obtain ⟨g', hread, hrest, heff⟩ : ∃ g', readLoop FREE_MAP_SECTOR (byteCnt b.length : Int).toNat g
      (bitmapBytes g.freeMap) (byteCnt b.length) 0 0 = some (((0 + byteCnt b.length : Nat) : Int),
        fileCopy g.store.view ino 0 (byteCnt b.length) (bitmapBytes g.freeMap) 0, g') ∧
      SameRest g g' ∧ StoreEff d0 g g' (dataSectors g.store.view ino) ∅ :=
    readLoop_spec _ _ hst hgino (by rw [hgstore]; exact hvol1.fileOk_open hino)
      (hvol1.opened _ ino hino).2.shown (le_refl _) (le_refl _) (by rw [hshown]; omega)
  have hbits : bitmapOfBytes b.length (fileCopy g.store.view ino 0
      (byteCnt b.length) (bitmapBytes g.freeMap) 0) = b := by
    refine bitmapOfBytes_bitmapBytes _ fun k hk => ?_
    rw [← hsync k hk]
    unfold fileCopy
    rw [if_pos (by omega), hcore, hgstore, inodeOpen_store]
    simp [FS.byte]
  have hmap0 : (inodeOpen fs₀ FREE_MAP_SECTOR).freeMap = b := by
    rw [hop.quiet.freeMap, heq]
  have hrest' : SameRest (inodeOpen fs₀ FREE_MAP_SECTOR) { g' with freeMap := b } := by
    rw [hg] at hrest
    exact ⟨hmap0.symm, hrest.freeMapFile, hrest.openInodes, hrest.locked, hrest.garbage, hrest.live⟩
  have heff' : StoreEff d0 (inodeOpen fs₀ FREE_MAP_SECTOR) { g' with freeMap := b }
      (dataSectors (inodeOpen fs₀ FREE_MAP_SECTOR).store.view ino) ∅ := by
    rw [← hgstore]
    exact ⟨{ heff.ok with }, by rw [← hgstore]; exact heff.cached,
      by rw [← hgstore]; exact heff.view⟩
  refine ⟨{ g' with freeMap := b }, ?_, hvol1.of_cached hrest' heff' (hvol1.data_place hino),
    hop.sameRest hrest' (hrest'.quiet heff'.view_eq ?_)⟩
  · have hmapRead : bitmapRead g FREE_MAP_SECTOR = some (true, { g' with freeMap := b }) := by
      unfold bitmapRead inodeReadAt
      simp only [hgmap, hgino, some_bind, hshown]
      rw [if_pos hpos, if_neg (by omega), hread]
      simp only [some_bind, Nat.zero_add, hrest.freeMap, hgmap, hbits, decide_true]
    unfold freeMapOpen
    simp only [hopen, hmapRead, some_bind, if_true]
  · intro s hs
    exact (heff'.cached s hs).imp id (hvol1.data_used hino s)

theorem createRoot (h : Formattable n) :
    ∃ fs₁ fs₂, freeMapCreate (blankVolume disk n garbage) = some fs₁ ∧
      dirCreate inodeOps fs₁ ROOT_DIR_SECTOR 16 = some (true, fs₂) ∧ fs₂.freeMap.length = n ∧
      Formatted disk fs₂ (n - 3 - blocksFor (bytesToSectors (byteCnt n))) := by
  have hroom := h.room
  obtain ⟨fs₁, ino, D, N, hcreate, hvol1, hm1, hfile, hino, hcnt, hrem, hlive, hclosed, hlocked,
    hcalm, hb, hloose⟩ := freeMapCreate_spec disk garbage h
  have hfree1 : FreeUncached fs₁ := hcalm.freeUncached fun s _ => not_cached_cacheInit s
  have hall1 : AllShown fs₁ := hcalm.shown fun i hi => absurd hi (fun hi => hi)
  have hroot := hloose ROOT_DIR_SECTOR (by decide) (blankVolume_loose (by decide) (by omega))
  have hlen : i32 ((16 * DIR_ENTRY_SIZE : Nat) : Int) = 320 := by decide
  obtain ⟨fs₂, hdir, hvol2, hm2, hc⟩ : ∃ fs₂, inodeCreate (freeMapOps 1) fs₁ ROOT_DIR_SECTOR 320
      true = some (true, fs₂) ∧ Vol disk fs₂ ∧ MapReady fs₂ D N ∧
      Created fs₁ fs₂ ROOT_DIR_SECTOR 320 true _ :=
    inodeCreate_spec hvol1 hm1 hroot (hlocked _) (by decide) (by decide) (by decide) hb
      (show blocksFor (bytesToSectors 320) ≤ _ by
        rw [show blocksFor (bytesToSectors 320) = 1 by decide]
        omega)
  have hrootClosed : fs₁.inode? ROOT_DIR_SECTOR = none := hclosed _ (by decide)
  have hcalm2 := hc.calm hrootClosed
  have hall2 := hcalm2.shown hall1
  have hsize : fs₂.freeMap.length = n := by
    rw [hc.spent.size, hcalm.size]
    exact length_freeMapInit
  refine ⟨fs₁, fs₂, hcreate, ?_, hsize, ⟨Mounted.of_mapReady hvol2 hm2 ?_ (fun i hi _ => hall2 i hi),
    ?_, hc.kind, hc.parent, hc.length, ?_, ⟨ino, (hc.inodes _).trans hino, hcnt, hrem⟩,
    fun i hi => (hc.inodes i).trans (hclosed i hi), fun i => by rw [hc.locked]; exact hlocked i,
    hall2, hcalm2.freeUncached hfree1, ?_⟩⟩
  · show inodeCreate _ _ _ (i32 ((16 * DIR_ENTRY_SIZE : Nat) : Int)) _ = _
    rw [hlen, hdir]
  · rw [hc.freeMapFile, hfile]
    simp
  · rw [hc.live, hlive]
    exact Set.pair_comm _ _
  · intro k hk
    refine hc.zero k ?_
    rw [show bytesToSectors 320 = 1 by decide]
    omega
  · refine hc.spent.budget.mono ?_
    rw [show blocksFor (bytesToSectors 320) = 1 by decide]
    omega

theorem Formatted.of_quiet {fs' : FS} (h : Formatted d0 fs m) (hvol : Vol d0 fs')
    (hq : Quiet fs fs') (hopen : ∃ ino, fs'.inode? FREE_MAP_SECTOR = some ino ∧ ino.openCnt = 1)
    (hclosed : ∀ i, i ≠ FREE_MAP_SECTOR → fs'.inode? i = none) : Formatted d0 fs' m := by
  obtain ⟨ino, hino, hcnt⟩ := hopen
  have hroot : ROOT_DIR_SECTOR ∈ fs.live := by
    rw [h.live]
    exact Set.mem_insert_of_mem _ rfl
  have hrem : ino.removed = false := by
    obtain ⟨e, he, -, her⟩ := h.opened
    by_contra hr
    obtain ⟨e', he', hr'⟩ := (hq.removed _).mp ⟨ino, hino, by simpa using hr⟩
    rw [he] at he'
    cases he'
    rw [her] at hr'
    cases hr'
  refine ⟨h.mounted.of_quiet hvol hq ⟨ino, hino⟩, hq.live.trans h.live, ?_, ?_, ?_, ?_,
    ⟨ino, hino, hcnt, hrem⟩, hclosed, fun i => by rw [hq.locked]; exact h.unlocked i,
    hq.calm.shown h.shown, hq.calm.freeUncached h.free, hq.budget h.mounted.vol.size h.budget⟩
  · rw [hq.node _ hroot]
    exact h.rootKind
  · rw [hq.node _ hroot]
    exact h.rootParent
  · rw [hq.node _ hroot]
    exact h.rootLength
  · intro k hk
    rw [hq.byte _ hroot k ?_]
    · exact h.rootZero k hk
    · rw [InodeCore.sectors, h.rootLength, show bytesToSectors 320 = 1 by decide]
      omega

theorem filesysInit_mapped (h : Formattable n) :
    ∃ fs, filesysInit disk n garbage = some fs ∧ fs.freeMap.length = n ∧
      Formatted disk fs (n - 3 - blocksFor (bytesToSectors (byteCnt n))) := by
  obtain ⟨fs1, fs2, hmap, hdir, hsize, hf⟩ := createRoot disk garbage h
  have hm := hf.mounted
  obtain ⟨ino, hino, hcnt, hrem⟩ := hf.opened
  obtain ⟨fs3, hclose, hvol3, hcl, hgone⟩ := inodeClose_last (freeMapOps 1) hm.vol hino hcnt hrem
  have hlive : FREE_MAP_SECTOR ∈ fs3.live := by
    rw [hcl.quiet.live]
    exact hm.zero_live
  have hfile : fs3.freeMapFile = some FREE_MAP_SECTOR := hcl.quiet.freeMapFile.trans hm.file
  have hb := h.room
  have hlen := hm.length
  -- the budget shows that the map is not empty
  have hpos : 0 < fs2.freeMap.length := by
    have hused : fs2.isUsed FREE_MAP_SECTOR :=
      hm.vol.used (FREE_MAP_SECTOR, none) (mem_taken_none.mpr hm.zero_live)
    exact lt_of_le_of_lt (Nat.zero_le _) hused.lt
  obtain ⟨fs4, hopen, hvol4, hop⟩ : ∃ fs4, freeMapOpen fs3 = some fs4 ∧ Vol disk fs4 ∧
      Opened fs3 fs4 FREE_MAP_SECTOR := by
    refine freeMapOpen_spec (b := fs3.freeMap) ?_ hvol3 hlive ?_ hgone ?_ rfl ?_ ?_
    · rw [← hfile]
    · rw [hcl.quiet.locked]
      exact hf.unlocked _
    · rw [hcl.quiet.freeMap]
      exact hpos
    · rw [hcl.quiet.node _ hm.zero_live, hcl.quiet.freeMap]
      exact hlen
    · rw [hcl.quiet.freeMap]
      intro k hk
      rw [hcl.quiet.byte _ hm.zero_live k ((hm.vol.fileOk hm.zero_live).div_lt (by omega))]
      exact hm.synced k hk
  obtain ⟨ino4, hino4⟩ := hop.struct
  refine ⟨fs4, ?_, by rw [hop.quiet.freeMap, hcl.quiet.freeMap, hsize],
    hf.of_quiet hvol4 (hcl.quiet.trans hop.quiet) ⟨ino4, hino4, ?_⟩ fun i hi => ?_⟩
  · show (doFormat (blankVolume disk n garbage)).bind freeMapOpen = some fs4
    unfold doFormat freeMapClose
    simp only [hmap, hdir, hm.file, hclose, hopen, some_bind, Option.bind_some, if_true]
  · have hc := hop.count FREE_MAP_SECTOR
    rw [openCount_of_open hino4, openCount_of_closed hgone, if_pos rfl] at hc
    omega
  · rw [hop.others i hi, hcl.others i hi]
    exact hf.closed i hi

/-- **`filesys_init (true)`** formats the disk. -/
theorem filesysInit_spec (h : Formattable n) :
    ∃ fs, filesysInit disk n garbage = some fs ∧
      Formatted disk fs (n - 3 - blocksFor (bytesToSectors (byteCnt n))) := by
  obtain ⟨fs, hinit, -, hf⟩ := filesysInit_mapped disk garbage h
  exact ⟨fs, hinit, hf⟩

variable {disk garbage} in
theorem formatted_of_init (h : Formattable n) (hinit : filesysInit disk n garbage = some fs) :
    Formatted disk fs (n - 3 - blocksFor (bytesToSectors (byteCnt n))) := by
  obtain ⟨fs', hinit', hf⟩ := filesysInit_spec disk garbage h
  cases hinit.symm.trans hinit'
  exact hf

theorem formattable_eight : Formattable 8 := ⟨by decide, by decide, by decide⟩

theorem formatted_eight : ∃ fs, filesysInit (fun _ => Arr.const 0) 8 (fun _ _ => 0) = some fs ∧
    Formatted (fun _ => Arr.const 0) fs (8 - 3 - blocksFor (bytesToSectors (byteCnt 8))) :=
  filesysInit_spec _ _ formattable_eight

variable (h : Formatted d0 fs m)
include h

theorem Formatted.entryAt_root (k : Nat) :
    fs.entryAt ROOT_DIR_SECTOR k = none := by
  unfold FS.entryAt EntryTable.at?
  by_cases hk : k < (fs.dirTable ROOT_DIR_SECTOR).slots
  · rw [if_pos hk]
    have hslots : (fs.dirTable ROOT_DIR_SECTOR).slots = 16 := by
      simp only [FS.dirTable, h.rootLength, DIR_ENTRY_SIZE]
      decide
    have hbyte : (fs.dirTable ROOT_DIR_SECTOR).entry k 19 = 0 :=
      h.rootZero _ (by unfold DIR_ENTRY_SIZE; omega)
    rw [DirEntry.decode, DirEntry.inUse, hbyte]
    rfl
  · rw [if_neg hk]

theorem Formatted.isDirectory_iff (d : Sector) :
    fs.isDirectory d ↔ d = ROOT_DIR_SECTOR := by
  unfold FS.isDirectory
  rw [h.live]
  constructor
  · rintro ⟨hd | hd, hk⟩
    · rw [hd, h.mounted.regular] at hk
      cases hk
    · exact hd
  · rintro rfl
    exact ⟨Set.mem_insert_of_mem _ rfl, h.rootKind⟩

theorem Formatted.slot_ne {d : Sector} {k : Nat} {e : CString × Sector}
    (hk : fs.tree.slot d k = some e) : False := by
  by_cases hd : fs.isDirectory d
  · rw [tree_slot hd, (h.isDirectory_iff d).mp hd, h.entryAt_root] at hk
    cases hk
  · cases (tree_slot_none hd k).symm.trans hk

theorem Formatted.namespaceOk :
    NamespaceOk d0 fs ∅ := by
  have hnorem : ∀ i, ¬ fs.isRemoved i := by
    rintro i ⟨e, he, hr⟩
    by_cases hi : i = FREE_MAP_SECTOR
    · obtain ⟨ino, hino, -, hrem⟩ := h.opened
      rw [hi, hino] at he
      cases he
      rw [hrem] at hr
      cases hr
    · rw [h.closed i hi] at he
      cases he
  have hroot : fs.isDirectory ROOT_DIR_SECTOR := (h.isDirectory_iff _).mpr rfl
  have hheld : ROOT_DIR_SECTOR ∉ (∅ : Set Sector) ∪ fs.loose := by
    rintro (hr | hr | hr)
    · exact hr
    · exact absurd hr (by decide)
    · exact hnorem _ hr
  refine ⟨h.mounted, ⟨hroot, hheld, fun d hd => hd.1, fun hk => (h.slot_ne hk).elim,
    fun hk => (h.slot_ne hk).elim, fun hk _ => (h.slot_ne hk).elim,
    fun hk _ => (h.slot_ne hk).elim, ?_, fun hk _ => (h.slot_ne hk).elim, ?_⟩,
    fun i hi => absurd hi (hnorem i), h.rootParent, hnorem _⟩
  · intro t ht hl hr
    rw [tree_live, h.live] at ht
    rcases ht with ht | ht
    · exact absurd (.inr (.inl ht)) hl
    · exact absurd ht hr
  · intro d hd _
    rw [(h.isDirectory_iff d).mp hd]
    exact .root

end

end Pintos.FileSys
