import Pintos.FileSys.Extend

/-!
# `inode_write_at` on the volume

A write first grows the inode to the end of the write and then stores the bytes
through the cache.
-/

namespace Pintos.FileSys

open Lib Function FS

/-- What a call has done to the free map and the cache: sectors in use stay so,
what has entered the cache is in use, and `m` allocations are left. -/
structure Spent (fs fs' : FS) (m : Nat) : Prop where
  size : fs'.freeMap.length = fs.freeMap.length
  used : ∀ s, fs.isUsed s → fs'.isUsed s
  cached : ∀ s, fs'.store.cached s → fs.store.cached s ∨ fs'.isUsed s
  budget : Budget fs' m

/-- A call has changed inode `i` and the free map, and nothing else. -/
structure Touched (fs fs' : FS) (i : Sector) (m : Nat) : Prop where
  frame : Frame fs fs' {i}
  others : ∀ j, j ≠ i → fs'.inode? j = fs.inode? j
  live : fs'.live = fs.live
  locked : fs'.locked = fs.locked
  freeMapFile : fs'.freeMapFile = fs.freeMapFile
  spent : Spent fs fs' m

section
variable {d0 : Disk} {fs fs' fs'' : FS} {i : Sector} {ino : Inode} {m m' : Nat}

theorem Spent.trans (h : Spent fs fs' m) (h' : Spent fs' fs'' m') : Spent fs fs'' m' where
  size := h'.size.trans h.size
  used := fun s hs => h'.used s (h.used s hs)
  cached := by
    intro s hs
    rcases h'.cached s hs with hs | hs
    · exact (h.cached s hs).imp id (h'.used s)
    · exact .inr hs
  budget := h'.budget

theorem Touched.trans (h : Touched fs fs' i m) (h' : Touched fs' fs'' i m') :
    Touched fs fs'' i m' where
  frame := h.frame.trans h'.frame
  others := fun j hj => (h'.others j hj).trans (h.others j hj)
  live := h'.live.trans h.live
  locked := h'.locked.trans h.locked
  freeMapFile := h'.freeMapFile.trans h.freeMapFile
  spent := h.spent.trans h'.spent

/-! ## Storing the bytes -/

variable {D N : Set Sector} {size offset : Int}

variable (h : Vol d0 fs) (hm : MapReady fs D N) (hino : fs.inode? i = some ino)
  (h0 : i ≠ FREE_MAP_SECTOR)
include h hm hino h0

theorem writeLoop_vol (buffer : Buffer) (hofs : 0 ≤ offset) (hb : Budget fs m) {cnt : Nat}
    (hcnt : cnt = (min size (ino.length - offset)).toNat) :
    ∃ fs', writeLoop i buffer size.toNat fs size offset 0 = some ((cnt : Int), fs') ∧
      Vol d0 fs' ∧ MapReady fs' D N ∧ Touched fs fs' i m ∧ Unmoved fs fs' ∧
      fs'.inode? i = some { ino with lengthShown := min ino.length (ino.lengthShown + cnt) } ∧
      ∀ k, k / 512 < ino.sectors → fs'.byte i k =
        if offset.toNat ≤ k ∧ k < offset.toNat + cnt then buffer (k - offset.toNat)
        else fs.byte i k := by
  have hok := (h.opened i ino hino).2
  have hi := (h.opened i ino hino).1
  have hnode := node_of_open hino
  obtain ⟨fs', hloop, hrest, heff, hbyte⟩ := writeLoop_spec buffer size.toNat (n := 0)
    h.store h.nodup hino (h.fileOk_open hino) hok.shown hofs (le_refl _) hcnt
  rw [Nat.zero_add] at hloop
  set ino' : Inode := { ino with lengthShown := min ino.length (ino.lengthShown + cnt) } with hino'
  have hsec : ino'.sector = i := show ino.sector = i from inode?_sector hino
  have hfind : ∀ j, fs'.inode? j = if j = i then some ino' else fs.inode? j := by
    intro j
    rw [hrest.inode?, inode?_setInode hino hsec]
  have hlive : fs'.live = fs.live := hrest.live
  have hmap : fs'.freeMap = fs.freeMap := hrest.freeMap
  -- only data sectors of `i` are written
  have hview : ∀ l ∈ fs.taken, (l.1 ≠ i ∨ l.isDirect) →
      fs'.store.view (fs.place l) = fs.store.view (fs.place l) := by
    intro l hl hor
    apply heff.view
    intro hmem
    obtain ⟨k, hk, heq⟩ := hmem
    rw [← hnode] at hk heq
    have hl' : (i, some (.data k)) ∈ fs.taken := mem_taken_some.mpr ⟨hi, hk⟩
    have := h.inj hl hl' heq
    subst this
    rcases hor with hne | hd
    · exact hne rfl
    · exact hd
  have hnodes : ∀ j ∈ fs.live, fs'.node j = fs.node j := by
    intro j hj
    unfold FS.node
    rw [hfind]
    by_cases hji : j = i
    · rw [if_pos hji, hji, hino]
    · have hvj : fs'.store.view j = fs.store.view j :=
        hview (j, none) (mem_taken_none.mpr hj) (.inr trivial)
      rw [if_neg hji, hvj]
  have hstays : Stays fs fs' := by
    refine ⟨hlive, fun j hj => by rw [hnodes j hj], fun j hj => by rw [hnodes j hj], ?_⟩
    rintro j hj s ⟨a, hidx, hu, rfl⟩
    exact hview (j, some a) (mem_taken_some.mpr ⟨hj, hu⟩) (.inr hidx)
  have hbytes : ∀ j ∈ fs.live, j ≠ i → ∀ k, k / 512 < (fs.node j).sectors →
      fs'.byte j k = fs.byte j k := by
    intro j hj hji k hk
    refine hstays.byte hj ?_ hk
    rintro s ⟨q, hq, rfl⟩
    exact hview (j, some (.data q)) (mem_taken_some.mpr ⟨hj, hq⟩) (.inl hji)
  have hself : ∀ k, k / 512 < ino.sectors → fs'.byte i k =
      if offset.toNat ≤ k ∧ k < offset.toNat + cnt then buffer (k - offset.toNat)
      else fs.byte i k := by
    intro k hk
    unfold FS.byte
    rw [hnodes i hi, hnode, hbyte k hk, Nat.zero_add]
  refine ⟨fs', hloop, ?_, ?_, ⟨⟨fun j _ => by rw [hlive], fun j hj _ => hnodes j hj,
    fun j hj hji _ k hk => hbytes j hj hji k hk, ?_⟩,
    fun j hj => by rw [hfind, if_neg hj], hlive, hrest.locked, hrest.freeMapFile,
    by rw [hmap], ?_, ?_, ?_⟩, hstays.unmoved hmap, by rw [hfind, if_pos rfl], hself⟩
  · refine h.of_stays hstays heff.ok ?_ (by rw [hmap]) ?_ ?_ ?_ ?_
    · exact fun s hs => (isUsed_congr hmap).mpr hs
    · exact (h.nodup.setInode ino').congr hrest.openInodes
    · intro j e he
      rw [hfind] at he
      split at he
      · rename_i hji
        cases he
        rw [hji]
        have := hok.nonneg
        have := hok.shown
        exact ⟨hi, hok.count, hok.deny, show 0 ≤ min _ _ by omega, show min _ _ ≤ ino.length by omega⟩
      · exact h.opened j e he
    · intro l hl hd hc
      rcases heff.cached _ hc with hc | hc
      · exact h.direct l hl hd hc
      · obtain ⟨l', hl', hnd, heq⟩ := h.data_place hino _ hc
        have := h.inj hl hl' heq
        subst this
        exact hnd hd
    · intro j hj
      rw [hnodes j hj]
      refine ⟨h.core j hj, ?_⟩
      intro _ k hlen hk
      by_cases hji : j = i
      · subst hji
        rw [hnode] at hlen hk
        rw [hself k hk, if_neg (by omega)]
      · exact hbytes j hj hji k hk
  · refine hm.frame hrest.freeMapFile hmap (by rw [hfind, if_neg h0.symm]) ?_ ?_
    · intro s hs
      obtain ⟨a, ha, rfl⟩ := h.map_place hm hs
      exact hview _ ha (.inl h0.symm)
    · intro s hs hc
      rcases heff.cached s hc with hc | hc
      · exact hc
      · obtain ⟨l, hl, -, rfl⟩ := h.data_place hino s hc
        obtain ⟨k, hk, heq⟩ := hc
        rw [← hnode] at hk heq
        have hl' : (i, some (.data k)) ∈ fs.taken := mem_taken_some.mpr ⟨hi, hk⟩
        rw [show fs.place l = fs.place (i, some (.data k)) from heq] at hs
        exact absurd hs (h.map_apart hm hl' (.inl h0)).2
  · intro j hji
    refine isRemoved_congr ?_
    rw [hfind, if_neg (show ¬ j = i from hji)]
  · exact fun s hs => (isUsed_congr hmap).mpr hs
  · intro s hs
    rcases heff.cached s hs with hs | hs
    · exact .inl hs
    · exact .inr ((isUsed_congr hmap).mpr (h.data_used hino s hs))
  · exact hb.frame hmap h.size fun s hs => (heff.cached s hs).imp id (h.data_used hino s)

/-! ## Growing the inode -/

omit h hm hino h0 in
theorem Vol.lock (h : Vol d0 fs) (l : Sector → Bool) : Vol d0 { fs with locked := l } :=
  { h with store := { h.store with } }

omit h hm hino h0 in
theorem inodeIsDir_of_kind (h : CoreOk ino) :
    ∃ isDir, inodeIsDir ino = some isDir ∧ (isDir = false ↔ ino.isDir = 0) ∧
      (isDir = true ↔ ino.isDir = 1) := by
  unfold inodeIsDir
  rcases h.kind with hk | hk
  · exact ⟨false, by simp [hk], by simp [hk], by simp [hk]⟩
  · exact ⟨true, by simp [hk], by simp [hk], by simp [hk]⟩

theorem extends_of_growth {fs₁ : FS} {ino₁ : Inode} {L : Int} {P : Set Sector}
    (hok : GrowOk d0 fs D N (indexSectors fs.store.view ino) fs₁ P m)
    (hg : Grown (indexSectors fs.store.view ino) fs.store.view ino
      ino.sectors P fs₁.store.view ino₁ (bytesToSectors L))
    (hcur : CursorAt ino₁ (bytesToSectors L)) (hkeep : KeepsRest ino ino₁)
    (halloc : ino₁.isAllocated = 1) (hle : ino.length ≤ L) (hL : L ≤ 9046016) :
    Extends d0 fs fs₁ (fs₁.setInode { ino₁ with length := L }) i ino
      { ino₁ with length := L } ino.sectors D N
      (indexSectors fs.store.view ino) P m ∧
    ∀ k, k / 512 < bytesToSectors L →
      fileByte fs₁.store.view { ino₁ with length := L } k =
        if k / 512 < ino.sectors then fs.byte i k else 0 := by
  have hi := (h.opened i ino hino).1
  have hopen := (h.opened i ino hino).2
  have hnode := node_of_open hino
  have hcore := h.coreOk_open hino
  have hg' : Grown (indexSectors fs.store.view ino) fs.store.view ino
      ino.sectors P fs₁.store.view { ino₁ with length := L }
      (bytesToSectors L) := hg.of_ptrs rfl
  -- the slots of the inode before the growth are places
  have hplace : ∀ a : Slot, a.used ino.sectors →
      (i, some a) ∈ fs.taken ∧ fs.place (i, some a) = sectorOf fs.store.view ino a := by
    intro a ha
    rw [← hnode] at ha ⊢
    exact ⟨mem_taken_some.mpr ⟨hi, ha⟩, rfl⟩
  have hselfplace : (i, none) ∈ fs.taken := mem_taken_none.mpr hi
  have hnd1 := h.nodup.congr hok.rest.openInodes
  have hfind1 : ∀ j, fs₁.inode? j = fs.inode? j := fun j => hok.rest.inode? j
  -- places that are no index blocks of the inode are not touched by the growth
  have hkeepView : ∀ l ∈ fs.taken, fs.place l ∉ indexSectors fs.store.view ino →
      fs.place l ∉ D → fs₁.store.view (fs.place l) = fs.store.view (fs.place l) := by
    intro l hl hP hD
    refine hok.view _ (fun hmem => ?_) hD
    rcases hok.fresh _ hmem with h' | h'
    · exact hP h'
    · exact (h.used l hl).not_free h'
  have hotherIndex : ∀ l ∈ fs.taken, (l.1 ≠ i ∨ ¬ l.isDirect ∨ l.2 = none) →
      fs.place l ∉ indexSectors fs.store.view ino := by
    rintro l hl hor ⟨a, hidx, hu, heq⟩
    have := h.inj hl (hplace a hu).1 (heq.trans (hplace a hu).2.symm)
    subst this
    rcases hor with hne | hnd | hnone
    · exact hne rfl
    · exact hnd hidx
    · cases hnone
  have hbyte : ∀ k, k / 512 < bytesToSectors L →
      fileByte fs₁.store.view { ino₁ with length := L } k =
        if k / 512 < ino.sectors then fs.byte i k else 0 := by
    intro k hk
    unfold fileByte
    by_cases hold : k / 512 < ino.sectors
    · obtain ⟨hl, hp⟩ := hplace (.data (k / 512)) hold
      have hv := hkeepView _ hl (hotherIndex _ hl (.inr (.inl fun hd => hd)))
        (h.map_apart hm hl (.inl h0)).1
      rw [hp] at hv
      rw [if_pos hold, hg'.old (.data (k / 512)) hold, hv, FS.byte, fileByte, hnode]
    · rw [if_neg hold, hg'.zero (k / 512) (by omega) hk]
      rfl
  have hsec : ({ ino₁ with length := L } : Inode).sector = i :=
    show ino₁.sector = i from hkeep.sector.trans (inode?_sector hino)
  have hino1 : fs₁.inode? i = some ino := (hfind1 i).trans hino
  refine ⟨⟨hok, hg', ?_, ?_, ?_, ?_, ?_, ?_, ?_, hnd1.setInode _, ?_, ?_, rfl, ?_, ?_,
    fun _ _ => rfl, fun _ hs => hs, ?_⟩, hbyte⟩
  · have := hcore.nonneg
    exact ⟨show 0 ≤ L by omega, hL, { hcur with },
      show ino₁.isDir = 0 ∨ ino₁.isDir = 1 by rw [hkeep.isDir]; exact hcore.kind, halloc⟩
  · exact ⟨h.used _ hselfplace, h.direct _ hselfplace trivial,
      hotherIndex _ hselfplace (.inr (.inr rfl)), (h.map_apart hm hselfplace (.inr rfl)).1⟩
  · intro l hl hne
    refine ⟨h.place_ne hl hselfplace (fun heq => hne (by rw [heq])),
      hotherIndex l hl (.inl hne)⟩
  · intro a ha
    obtain ⟨hl, hp⟩ := hplace a ha
    rw [← hp]
    exact ⟨h.used _ hl, h.place_ne hl hselfplace (by simp),
      fun l hl' hne => h.place_ne hl' hl (fun heq => hne (by rw [heq]))⟩
  · exact fun a b ha hb heq => (h.fileOk_open hino).inj a b ha hb heq
  · exact fun a hidx hu => ⟨a, hidx, hu, rfl⟩
  · exact { hok.store with }
  · intro j e he
    rw [inode?_setInode hino1 hsec, hfind1] at he
    split at he
    · rename_i hji
      cases he
      rw [hji]
      refine ⟨Set.mem_insert _ _, ?_, ?_, ?_, ?_⟩
      · show 1 ≤ ino₁.openCnt
        rw [hkeep.openCnt]
        exact hopen.count
      · exact hkeep.denyWriteCnt.trans hopen.deny
      · show 0 ≤ ino₁.lengthShown
        rw [hkeep.lengthShown]
        exact hopen.nonneg
      · show ino₁.lengthShown ≤ L
        rw [hkeep.lengthShown]
        exact le_trans hopen.shown hle
    · exact ⟨Set.mem_insert_of_mem _ (h.opened j e he).1, (h.opened j e he).2⟩
  · rw [Set.insert_eq_of_mem hi]
    exact hok.rest.live
  · intro j hj hji
    have hl : (j, none) ∈ fs.taken := mem_taken_none.mpr hj
    have hv : fs₁.store.view j = fs.store.view j :=
      hkeepView (j, none) hl (hotherIndex _ hl (.inl hji)) (h.map_apart hm hl (.inr rfl)).1
    rw [node_setInode hino1 hsec, if_neg hji]
    unfold FS.node
    rw [hfind1, hv]
  · rw [node_setInode hino1 hsec, if_pos rfl]
  · intro k hlen hk
    rw [hbyte k hk]
    split
    · rename_i hold
      rw [← hnode] at hold
      refine h.slack i hi h0 k ?_ hold
      rw [hnode]
      exact le_trans hle hlen
    · rfl

/-- The length of a file after a write that ends at `size + offset`. -/
def lengthAfter (c : InodeCore) (size offset : Int) : Int := max c.length (i32 (size + offset))

/-- `inode_grow` of an inode that is open: no sector stays owed. -/
theorem growBody_of_open (hlock0 : fs.locked FREE_MAP_SECTOR = false) {L : Int}
    (hlt : ino.length < L) (hbound : L ≤ 9046016)
    (hsame : SameSecond ino.sectors (bytesToSectors L)) (hb : Budget fs m)
    (hneed : blocksFor (bytesToSectors L) ≤ blocksFor ino.sectors + m) :
    ∃ ino' fs' P, growBody (freeMapOps 1) fs ino L = .ok (ino', fs', 0) ∧
      GrowOk d0 fs D N (indexSectors fs.store.view ino) fs' P
        (m - (blocksFor (bytesToSectors L) - blocksFor ino.sectors)) ∧
      Grown (indexSectors fs.store.view ino) fs.store.view ino
        ino.sectors P fs'.store.view ino' (bytesToSectors L) ∧
      CursorAt ino' (bytesToSectors L) ∧ KeepsRest ino ino' ∧
      ino'.isAllocated = 1 := by
  have hcore := h.coreOk_open hino
  have hnode := node_of_open hino
  have hmono : ino.sectors ≤ bytesToSectors L :=
    bytesToSectors_mono hcore.nonneg (by omega) hbound
  have hhand : ∀ s ∈ indexSectors fs.store.view ino,
      fs.isUsed s ∧ s ∉ D ∧ s ∉ N := by
    rintro s ⟨a, -, hu, rfl⟩
    rw [← hnode] at hu ⊢
    have hp : (i, some a) ∈ fs.taken := mem_taken_some.mpr ⟨(h.opened i ino hino).1, hu⟩
    exact ⟨h.used _ hp, h.map_apart hm hp (.inl h0)⟩
  exact growBody_mapped 0 ino h.store h.nodup hm hlock0 h.size (h.map_used hm)
    (h.fileOk_open hino) hhand hcore.cursor rfl rfl hmono
    (sectors_of_length_le (by have := hcore.nonneg; omega) hbound) hsame hb hneed

variable (hlock : ino.isDir = 0 → fs.locked i = false)
include hlock

theorem growForWrite_spec (hlock0 : fs.locked FREE_MAP_SECTOR = false) {n n' : Nat}
    (hn : n = ino.sectors)
    (hn' : n' = bytesToSectors (lengthAfter ino size offset))
    (hbound : lengthAfter ino size offset ≤ 9046016) (hsame : SameSecond n n')
    (hb : Budget fs m) (hneed : blocksFor n' ≤ blocksFor n + m) :
    ∃ fs' ino', growForWrite (freeMapOps 1) fs ino size offset = some (true, fs') ∧
      Vol d0 fs' ∧ MapReady fs' D N ∧ Touched fs fs' i (m - (blocksFor n' - blocksFor n)) ∧
      fs'.inode? i = some ino' ∧ ino'.length = lengthAfter ino size offset ∧
      KeepsRest { ino with length := ino'.length } ino' ∧
      ∀ k, k / 512 < n' → fs'.byte i k = if k / 512 < n then fs.byte i k else 0 := by
  have hcore := h.coreOk_open hino
  have hsec := inode?_sector hino
  have hnode := node_of_open hino
  obtain ⟨isDir, hd, hreg, -⟩ := inodeIsDir_of_kind hcore
  have hlock' : isDir = false → fs.locked i = false := fun hf => hlock (hreg.mp hf)
  by_cases hle : i32 (size + offset) ≤ ino.length
  · -- no growth
    have hlen : lengthAfter ino size offset = ino.length := max_eq_left hle
    have hnn : n' = n := by
      rw [hn', hlen, hn]
      rfl
    subst hnn
    refine ⟨fs, ino, growForWrite_within _ _ _ _ _ _ hd (by rw [hsec]; exact hlock') hle, h, hm,
      ⟨Frame.refl fs _, fun _ _ => rfl, rfl, rfl, rfl, rfl, fun _ hs => hs, fun _ hs => .inl hs,
        hb.mono (Nat.sub_le _ _)⟩, hino, hlen.symm, KeepsRest.refl ino, ?_⟩
    intro k hk
    rw [if_pos hk]
  · obtain ⟨L, hL⟩ : ∃ L, L = i32 (size + offset) := ⟨_, rfl⟩
    have hlen : lengthAfter ino size offset = L := by
      rw [hL]
      exact max_eq_right (by omega)
    rw [hlen] at hn' hbound
    subst hn hn'
    -- under the lock
    obtain ⟨l, hl⟩ : ∃ l, l = if isDir then fs.locked else update fs.locked i true :=
      ⟨_, rfl⟩
    have hvol := h.lock l
    have hready : MapReady { fs with locked := l } D N :=
      hm.frame rfl rfl rfl (fun _ _ => rfl) (fun _ _ hs => hs)
    have hl0 : l FREE_MAP_SECTOR = false := by
      rw [hl]
      split
      · exact hlock0
      · rw [update_of_ne h0.symm]
        exact hlock0
    obtain ⟨ino1, fs1, P, hbody, hok, hgrown, hcur, hkeep, halloc⟩ :=
      growBody_of_open hvol hready hino h0 hl0 (L := L) (by omega) hbound hsame hb hneed
    obtain ⟨hx, hbyte⟩ := extends_of_growth hvol hready hino h0 hok hgrown hcur hkeep halloc
      (by omega) hbound
    set ino2 : Inode := { ino1 with length := L } with hino2
    have hsec2 : ino2.sector = i := show ino1.sector = i from hkeep.sector.trans hsec
    have hfind1 : ∀ j, fs1.inode? j = fs.inode? j := fun j => hok.rest.inode? j
    have hino1 : fs1.inode? i = some ino := (hfind1 i).trans hino
    have hlive : fs1.live = fs.live := hok.rest.live
    have hgrow : inodeGrow (freeMapOps 1) { fs with locked := l } ino L = some (true, ino1, fs1) := by
      unfold inodeGrow
      rw [hbody]
      rfl
    have hunlock : unlockUnlessDir (fs1.setInode ino2) isDir ino1.sector =
        some { fs1.setInode ino2 with locked := fs.locked } := by
      rw [show ino1.sector = i from hsec2]
      exact unlockUnlessDir_eq hlock' (hok.rest.locked.trans hl)
    refine ⟨{ fs1.setInode ino2 with locked := fs.locked }, ino2, ?_,
      (hx.vol hvol hready).lock fs.locked, ?_, ⟨⟨?_, ?_, ?_, ?_⟩, ?_, hlive, rfl,
      hok.rest.freeMapFile, hok.size, ?_, ?_, hok.budget⟩, ?_, hlen.symm, ?_, ?_⟩
    · unfold growForWrite
      simp only [hd, some_bind, hsec, lockUnlessDir_eq hlock', ← hl,
        ← hL]
      rw [if_pos (show L > ino.length by omega)]
      simp only [hgrow, some_bind]
      rw [if_neg (by decide), hunlock]
      rfl
    · refine hok.ready.frame rfl rfl ?_ (fun _ _ => rfl) (fun _ _ hs => hs)
      exact (inode?_setInode hino1 hsec2 _).trans (if_neg h0.symm)
    · exact fun j _ => Set.ext_iff.mp hlive j
    · exact fun j hj hji => hx.node j hj hji
    · exact fun j hj hji hj0 k hk => hx.byte_other hvol hready hj hji hj0 hk
    · intro j hji
      refine (isRemoved_setInode hino1 hsec2 j).trans ?_
      rw [if_neg (show ¬ j = i from hji)]
      exact isRemoved_congr (hfind1 j)
    · exact fun j hji => (inode?_setInode hino1 hsec2 j).trans ((if_neg hji).trans (hfind1 j))
    · exact fun s hs => (hok.used s).mpr (.inl hs)
    · intro s hs
      rcases hok.cached s hs with hs | hs
      · exact .inl hs
      · exact .inr ((hok.used s).mpr (.inl (h.map_used hm s (.inl hs))))
    · exact (inode?_setInode hino1 hsec2 i).trans (if_pos rfl)
    · exact { hkeep with length := rfl }
    · intro k hk
      exact (hx.byte_self hk).trans (hbyte k hk)

/-! ## inode_write_at -/

/-- A write may be done: it ends within the block map, fills at most one
second-level block, and the sectors it needs are free and not cached. -/
structure WriteOk (fs : FS) (c : InodeCore) (size offset : Int) (m : Nat) : Prop where
  sizeNonneg : 0 ≤ size
  offsetNonneg : 0 ≤ offset
  bound : i32 (size + offset) ≤ 9046016
  same : SameSecond c.sectors (bytesToSectors (lengthAfter c size offset))
  budget : Budget fs m
  need : blocksFor (bytesToSectors (lengthAfter c size offset)) ≤ blocksFor c.sectors + m

def writeCost (c : InodeCore) (size offset : Int) : Nat :=
  blocksFor (bytesToSectors (lengthAfter c size offset)) - blocksFor c.sectors

/-- **`inode_write_at`.** The bytes are stored up to the new end of the file, the
bytes between the old end and the write are zero, the rest is as it was. -/
theorem inodeWriteAt_spec (hlock0 : fs.locked FREE_MAP_SECTOR = false) (buffer : Buffer) {len : Int}
    (hw : WriteOk fs ino size offset m)
    (hlen : len = lengthAfter ino size offset) {cnt : Nat}
    (hcnt : cnt = (min size (len - offset)).toNat) :
    ∃ fs' ino', inodeWriteAt (freeMapOps 1) fs i buffer size offset = some ((cnt : Int), fs') ∧
      Vol d0 fs' ∧ MapReady fs' D N ∧
      Touched fs fs' i (m - writeCost ino size offset) ∧
      fs'.inode? i = some ino' ∧ ino'.length = len ∧
      KeepsRest { ino with
        length := ino'.length
        lengthShown := min len (ino.lengthShown + cnt) } ino' ∧
      ∀ k, k / 512 < bytesToSectors len → fs'.byte i k =
        if offset.toNat ≤ k ∧ k < offset.toNat + cnt then buffer (k - offset.toNat)
        else if k / 512 < ino.sectors then fs.byte i k else 0 := by
  have hcore := h.coreOk_open hino
  subst hlen
  obtain ⟨fs1, ino1, hgrow, hvol1, hm1, ht1, hino1, hlen1, hkeep1, hbyte1⟩ := growForWrite_spec h hm
    hino h0 hlock hlock0 rfl rfl (max_le hcore.bound hw.bound) hw.same hw.budget hw.need
  have hcnt1 : cnt = (min size (ino1.length - offset)).toNat := by
    rw [hlen1]
    exact hcnt
  obtain ⟨fs2, hloop, hvol2, hm2, ht2, -, hino2, hbyte2⟩ := writeLoop_vol hvol1 hm1 hino1 h0 buffer
    hw.offsetNonneg ht1.spent.budget hcnt1
  refine ⟨fs2, _, ?_, hvol2, hm2, ht1.trans ht2, hino2, hlen1, ?_, ?_⟩
  · unfold inodeWriteAt
    simp only [hino, some_bind, (h.opened i ino hino).2.deny, ne_eq,
      not_true_eq_false, if_false, hgrow, if_true]
    exact hloop
  · refine { hkeep1 with length := rfl, lengthShown := ?_ }
    show min ino1.length (ino1.lengthShown + cnt) = _
    rw [hlen1, hkeep1.lengthShown]
  · intro k hk
    have hk1 : k / 512 < ino1.sectors := by
      unfold InodeCore.sectors
      rw [hlen1]
      exact hk
    rw [hbyte2 k hk1, hbyte1 k hk]

/-- A write that ends within the file moves no block. -/
theorem inodeWriteAt_unmoved {n : Int} {buffer : Buffer} (hofs : 0 ≤ offset)
    (hle : i32 (size + offset) ≤ ino.length)
    (heq : inodeWriteAt (freeMapOps 1) fs i buffer size offset = some (n, fs')) :
    Unmoved fs fs' := by
  obtain ⟨isDir, hd, hreg, -⟩ := inodeIsDir_of_kind (h.coreOk_open hino)
  have hgrow := growForWrite_within (freeMapOps 1) fs ino isDir size offset hd
    (fun hf => by rw [inode?_sector hino]; exact hlock (hreg.mp hf)) hle
  obtain ⟨fs1, hloop, -, -, -, hmoved, -⟩ := writeLoop_vol h hm hino h0 buffer hofs
    (show Budget fs 0 from ⟨Nat.zero_le _, by simp⟩)
    (rfl : (min size (ino.length - offset)).toNat = _)
  unfold inodeWriteAt at heq
  simp only [hino, some_bind, (h.opened i ino hino).2.deny, ne_eq, not_true_eq_false, if_false,
    hgrow, if_true, hloop] at heq
  cases heq
  exact hmoved

end

end Pintos.FileSys
