import Pintos.FileSys.Coherence
import Pintos.FileSys.Lookup
import Pintos.FileSys.OpenTable

/-!
# Reading and writing the bytes of a file

A file is read and written in terms of `view`, what the cache and the disk hold
together: `fileByte` is its `k`-th byte. `FileOk` is what the lookups of
`inode_read_at` and `inode_write_at` rely on: the slots of the block tree are
distinct sectors, and the index blocks, which are read past the cache, are not
in it.
-/

namespace Pintos.FileSys

open Lib Function

def InodeCore.sectors (c : InodeCore) : Nat := bytesToSectors c.length

def fileByte (v : Disk) (c : InodeCore) (k : Nat) : UInt8 :=
  (v (sectorOf v c (.data (k / 512)))).get (k % 512)

def dataSectors (v : Disk) (c : InodeCore) : Set Sector :=
  {s | ∃ k, k < c.sectors ∧ s = sectorOf v c (.data k)}

def indexSectors (v : Disk) (c : InodeCore) : Set Sector :=
  {s | ∃ a : Slot, a.isIndex ∧ a.used c.sectors ∧ s = sectorOf v c a}

/-- The block tree of an inode can be looked up. -/
structure FileOk (st : Store) (c : InodeCore) : Prop where
  nonneg : 0 ≤ c.length
  bound : c.length ≤ 9046016
  inj : ∀ a b : Slot, a.used c.sectors → b.used c.sectors →
    sectorOf st.view c a = sectorOf st.view c b → a = b
  direct : ∀ a : Slot, a.isIndex → a.used c.sectors → ¬ st.cached (sectorOf st.view c a)

section
variable {st st' : Store} {c : InodeCore}

theorem FileOk.sectors_eq (h : FileOk st c) : c.sectors = (c.length.toNat + 511) / 512 :=
  bytesToSectors_eq h.nonneg (by have := h.bound; omega)

variable {k : Nat} {v v' : Disk} {fs' : FS}

theorem FileOk.div_lt (h : FileOk st c) (hk : (k : Int) < c.length) :
    k / 512 < c.sectors := by
  rw [h.sectors_eq]
  omega

theorem FileOk.index_not_data (h : FileOk st c) {a : Slot} (hi : a.isIndex)
    (hu : a.used c.sectors) : sectorOf st.view c a ∉ dataSectors st.view c := by
  rintro ⟨k, hk, heq⟩
  have := h.inj a (.data k) hu hk heq
  subst this
  exact hi

theorem FileOk.sectorOf_disk (h : FileOk st c) {a : Slot} (hu : a.used c.sectors) :
    sectorOf st.disk c a = sectorOf st.view c a := by
  refine sectorOf_frame ?_ a hu
  intro b hi hub
  exact (view_of_not_cached (h.direct b hi hub)).symm

theorem FileOk.keep_index (h : FileOk st c) (st' : Store)
    (hview : ∀ s ∈ indexSectors st.view c, st'.view s = st.view s)
    (hcached : ∀ s ∈ indexSectors st.view c, ¬ st'.cached s) :
    FileOk st' c ∧ ∀ a : Slot, a.used c.sectors → sectorOf st'.view c a = sectorOf st.view c a := by
  have hsame : ∀ a : Slot, a.used c.sectors → sectorOf st'.view c a = sectorOf st.view c a :=
    sectorOf_frame fun b hi hub => hview _ ⟨b, hi, hub, rfl⟩
  refine ⟨⟨h.nonneg, h.bound, ?_, ?_⟩, hsame⟩
  · intro a b hua hub heq
    rw [hsame a hua, hsame b hub] at heq
    exact h.inj a b hua hub heq
  · intro a hi hu
    rw [hsame a hu]
    exact hcached _ ⟨a, hi, hu, rfl⟩

/-- What touches data sectors only leaves the block tree as it is. -/
theorem FileOk.frame (h : FileOk st c) (st' : Store)
    (hview : ∀ s, s ∉ dataSectors st.view c → st'.view s = st.view s)
    (hcached : ∀ s, st'.cached s → st.cached s ∨ s ∈ dataSectors st.view c) :
    FileOk st' c ∧ ∀ a : Slot, a.used c.sectors → sectorOf st'.view c a = sectorOf st.view c a := by
  apply h.keep_index
  · rintro s ⟨a, hi, hu, rfl⟩
    exact hview _ (h.index_not_data hi hu)
  · rintro s ⟨a, hi, hu, rfl⟩ hc
    rcases hcached _ hc with hc | hc
    · exact h.direct a hi hu hc
    · exact h.index_not_data hi hu hc

section
variable (h : ∀ a : Slot, a.used c.sectors → sectorOf v' c a = sectorOf v c a)
include h

theorem dataSectors_congr :
    dataSectors v' c = dataSectors v c := by
  ext s
  constructor
  · rintro ⟨k, hk, rfl⟩
    exact ⟨k, hk, h (.data k) hk⟩
  · rintro ⟨k, hk, rfl⟩
    exact ⟨k, hk, (h (.data k) hk).symm⟩

theorem indexSectors_congr :
    indexSectors v' c = indexSectors v c := by
  ext s
  constructor
  · rintro ⟨a, hi, hu, rfl⟩
    exact ⟨a, hi, hu, h a hu⟩
  · rintro ⟨a, hi, hu, rfl⟩
    exact ⟨a, hi, hu, (h a hu).symm⟩

theorem fileByte_congr (hview : ∀ s ∈ dataSectors v c, v' s = v s) (hk : k / 512 < c.sectors) :
    fileByte v' c k = fileByte v c k := by
  unfold fileByte
  rw [h (.data (k / 512)) hk, hview _ ⟨k / 512, hk, rfl⟩]

end

/-! ## Lookup -/

variable {d0 : Disk} {fs : FS} {i : Sector} {ino : Inode}

theorem StoreOk.diskReads (h : StoreOk d0 fs) {l : List Sector}
    (hl : ∀ s ∈ l, ¬ fs.store.cached s) :
    StoreOk d0 (fs.diskReads l) ∧ SameRest fs (fs.diskReads l) ∧
      (fs.diskReads l).store = fs.store := by
  induction l generalizing fs with
  | nil => exact ⟨h, SameRest.refl fs, rfl⟩
  | cons s l ih =>
    have hs := hl s (List.mem_cons_self ..)
    obtain ⟨h1, h2, h3⟩ := ih (h.diskRead hs) (fun u hu => hl u (List.mem_cons_of_mem _ hu))
    have hrest : SameRest fs (fs.diskRead s).2 := (by constructor <;> rfl)
    exact ⟨h1, hrest.trans h2, h3⟩

theorem FileOk.lookup (hst : StoreOk d0 fs) (hf : FileOk fs.store ino) {pos : Int}
    (h0 : 0 ≤ pos) (hlt : pos < ino.length) :
    ∃ fs', byteToSector fs ino pos =
        some (sectorOf fs.store.view ino (.data (pos.toNat / 512)), fs') ∧
      StoreOk d0 fs' ∧ SameRest fs fs' ∧ fs'.store = fs.store := by
  have hb := hf.bound
  have hk : pos.toNat / 512 < ino.sectors := hf.div_lt (by omega)
  have hpath : ∀ s ∈ (Slot.path (pos.toNat / 512)).map
      (sectorOf fs.store.disk ino), ¬ fs.store.cached s := by
    intro s hs
    obtain ⟨a, ha, rfl⟩ := List.mem_map.mp hs
    have hu := Slot.path_used hk ha
    rw [hf.sectorOf_disk hu]
    exact hf.direct a (Slot.path_isIndex ha) hu
  refine ⟨_, ?_, hst.diskReads hpath⟩
  rw [byteToSector_spec fs ino h0 hlt (by omega), hf.sectorOf_disk (a := .data _) hk]

theorem chunkSize_eq (size offset left : Int) :
    chunkSize size offset left = min size (min left (512 - offset % 512)) := by
  unfold chunkSize DISK_SECTOR_SIZE
  dsimp only
  split_ifs <;> omega

/-! ## The read loop -/

theorem SameRest.inode? (h : SameRest fs fs') (j : Sector) :
    fs'.inode? j = fs.inode? j := by
  unfold FS.inode?
  rw [h.openInodes]

theorem StoreEff.view_eq {S : Set Sector} (h : StoreEff d0 fs fs' S ∅) :
    fs'.store.view = fs.store.view := by
  funext s
  exact h.view s (fun hs => hs)

/-- `buffer` after `cnt` bytes of a file have been copied to position `n`. -/
def fileCopy (v : Disk) (c : InodeCore) (ofs cnt : Nat) (buffer : Buffer) (n : Nat) : Buffer :=
  fun k => if n ≤ k ∧ k < n + cnt then fileByte v c (ofs + (k - n)) else buffer k

theorem fileCopy_zero (v : Disk) (c : InodeCore) (ofs : Nat) (buffer : Buffer) (n : Nat) :
    fileCopy v c ofs 0 buffer n = buffer := by
  funext k
  unfold fileCopy
  rw [if_neg (by omega)]

theorem fileCopy_fileCopy (v : Disk) (c : InodeCore) (ofs a b : Nat) (buffer : Buffer) (n : Nat) :
    fileCopy v c (ofs + a) b (fileCopy v c ofs a buffer n) (n + a) =
      fileCopy v c ofs (a + b) buffer n := by
  funext k
  unfold fileCopy
  by_cases h1 : n + a ≤ k ∧ k < n + a + b
  · rw [if_pos h1, if_pos (by omega), show ofs + a + (k - (n + a)) = ofs + (k - n) by omega]
  · rw [if_neg h1]
    by_cases h2 : n ≤ k ∧ k < n + a
    · rw [if_pos h2, if_pos (by omega)]
    · rw [if_neg h2, if_neg (by omega)]

theorem copyOut_chunk (v : Disk) (c : InodeCore) {ofs cnt : Nat} (buffer : Buffer) (n : Nat)
    (hcnt : ofs % 512 + cnt ≤ 512) :
    copyOut (v (sectorOf v c (.data (ofs / 512)))) (ofs % 512) cnt buffer n =
      fileCopy v c ofs cnt buffer n := by
  funext k
  unfold copyOut fileCopy fileByte
  by_cases hk : n ≤ k ∧ k < n + cnt
  · rw [if_pos hk, if_pos hk, show (ofs + (k - n)) / 512 = ofs / 512 by omega,
      show (ofs + (k - n)) % 512 = ofs % 512 + (k - n) by omega]
  · rw [if_neg hk, if_neg hk]

/-- The loop of `inode_read_at` copies what is there, up to `length_shown`, and
changes nothing but the cache. -/
theorem readLoop_spec (fuel : Nat) {fs : FS} (buffer : Buffer) {size offset : Int} {n cnt : Nat}
    (hst : StoreOk d0 fs) (hino : fs.inode? i = some ino)
    (hf : FileOk fs.store ino) (hshown : ino.lengthShown ≤ ino.length)
    (h0 : 0 ≤ offset) (hfuel : size.toNat ≤ fuel)
    (hcnt : cnt = (min size (ino.lengthShown - offset)).toNat) :
    ∃ fs', readLoop i fuel fs buffer size offset n = some (((n + cnt : Nat) : Int),
        fileCopy fs.store.view ino offset.toNat cnt buffer n, fs') ∧
      SameRest fs fs' ∧
      StoreEff d0 fs fs' (dataSectors fs.store.view ino) ∅ := by
  induction fuel generalizing fs buffer size offset n cnt with
  | zero =>
    have hc : cnt = 0 := by omega
    subst hc
    refine ⟨fs, ?_, SameRest.refl fs, StoreEff.refl hst⟩
    rw [readLoop, Nat.add_zero, fileCopy_zero]
  | succ fuel ih =>
    rw [readLoop]
    by_cases hsize : 0 < size
    · simp only [if_pos hsize, hino, some_bind]
      rw [chunkSize_eq]
      by_cases hlt : offset < ino.length
      · obtain ⟨fs1, hlook, hst1, hrest1, hstore1⟩ := hf.lookup hst h0 hlt
        have heff1 : StoreEff d0 fs fs1 (dataSectors fs.store.view ino) ∅ :=
          ⟨hst1, fun s hs => .inl (hstore1 ▸ hs), fun s _ => by rw [hstore1]⟩
        simp only [hlook, some_bind]
        by_cases hpos : min size (min (ino.lengthShown - offset) (512 - offset % 512)) ≤ 0
        · rw [if_pos hpos]
          obtain rfl : cnt = 0 := by omega
          exact ⟨fs1, by rw [Nat.add_zero, fileCopy_zero], hrest1, heff1⟩
        · rw [if_neg hpos]
          -- one chunk through the cache, then the rest by induction
          obtain ⟨a, ha⟩ : ∃ a : Nat,
              min size (min (ino.lengthShown - offset) (512 - offset % 512)) = a :=
            ⟨_, (Int.toNat_of_nonneg (by omega)).symm⟩
          have hk : offset.toNat / 512 < ino.sectors := hf.div_lt (by omega)
          obtain ⟨fs2, hread, hrest2, heff2⟩ := FS.cacheRead_spec hst1
            (sectorOf fs.store.view ino (.data (offset.toNat / 512))) buffer n
            (offset.toNat % 512) a
          have hview2 : fs2.store.view = fs.store.view := by rw [heff2.view_eq, hstore1]
          have heff : StoreEff d0 fs fs2 (dataSectors fs.store.view ino) ∅ :=
            heff1.trans (heff2.mono (by rintro _ rfl; exact ⟨_, hk, rfl⟩) (fun _ h => h))
          have hf2 := (hf.frame fs2.store (fun s _ => by rw [hview2]) heff.cached).1
          have hrest := hrest1.trans hrest2
          obtain ⟨fs3, hloop, hrest3, heff3⟩ := @ih _
            (fileCopy fs.store.view ino offset.toNat a buffer n) (size - a)
            (offset + a) (n + a) (cnt - a) heff2.ok ((hrest.inode? i).trans hino) hf2 (by omega) (by omega) (by omega)
          rw [hview2] at hloop heff3
          refine ⟨fs3, ?_, hrest.trans hrest3, heff.trans heff3⟩
          rw [hstore1, copyOut_chunk _ _ _ _ (by omega)] at hread
          rw [ha, show (offset % (DISK_SECTOR_SIZE : Int)).toNat = offset.toNat % 512 by
            unfold DISK_SECTOR_SIZE; omega, Int.toNat_natCast, hread]
          simp only [some_bind]
          rw [hloop, show (offset + (a : Int)).toNat = offset.toNat + a by omega,
            fileCopy_fileCopy, show n + a + (cnt - a) = n + cnt by omega,
            show a + (cnt - a) = cnt by omega]
      · -- at or beyond the end of the file there is nothing to look up
        have hbyte : byteToSector fs ino offset = some (UInt32.ofNat 4294967295, fs) := by
          rw [byteToSector, if_neg hlt]
        simp only [hbyte, some_bind]
        rw [if_pos (by omega)]
        obtain rfl : cnt = 0 := by omega
        exact ⟨fs, by rw [Nat.add_zero, fileCopy_zero], SameRest.refl fs, StoreEff.refl hst⟩
    · rw [if_neg hsize]
      obtain rfl : cnt = 0 := by omega
      exact ⟨fs, by rw [Nat.add_zero, fileCopy_zero], SameRest.refl fs, StoreEff.refl hst⟩

/-! ## The write loop -/

theorem SameRest.setInode (h : SameRest fs fs') (ino : Inode) :
    SameRest (fs.setInode ino) (fs'.setInode ino) :=
  ⟨h.freeMap, h.freeMapFile, congrArg (replaceKey Inode.sector · ino) h.openInodes, h.locked,
    h.garbage, h.live⟩

theorem fileByte_chunk (hf : FileOk st c)
    {ofs cnt : Nat} {buffer : Buffer} {n : Nat} (hofs : ofs / 512 < c.sectors)
    (hcnt : ofs % 512 + cnt ≤ 512)
    (hv : v' = update st.view (sectorOf st.view c (.data (ofs / 512)))
      ((st.view (sectorOf st.view c (.data (ofs / 512)))).patch (ofs % 512) cnt buffer n))
    (hsame : ∀ a : Slot, a.used c.sectors → sectorOf v' c a = sectorOf st.view c a)
    (hk : k / 512 < c.sectors) :
    fileByte v' c k =
      if ofs ≤ k ∧ k < ofs + cnt then buffer (n + (k - ofs)) else fileByte st.view c k := by
  unfold fileByte
  rw [hsame (.data (k / 512)) hk, hv]
  by_cases hsec : k / 512 = ofs / 512
  · rw [hsec, update_self, Arr.get_patch _ _ _ _ _ (by omega)]
    by_cases hin : ofs ≤ k ∧ k < ofs + cnt
    · rw [if_pos (by omega), if_pos hin, show k % 512 - ofs % 512 = k - ofs by omega]
    · rw [if_neg (by omega), if_neg hin]
  · -- another sector of the file
    have hne : sectorOf st.view c (.data (k / 512)) ≠ sectorOf st.view c (.data (ofs / 512)) := by
      intro heq
      have := hf.inj (.data (k / 512)) (.data (ofs / 512)) hk hofs heq
      simp only [Slot.data.injEq] at this
      exact hsec this
    rw [update_of_ne hne, if_neg (by omega)]

/-- The loop of `inode_write_at` stores the bytes up to the end of the file and
lets `length_shown` advance by their number. -/
theorem writeLoop_spec (buffer : Buffer) (fuel : Nat) {fs : FS} {size offset : Int} {n cnt : Nat}
    (hst : StoreOk d0 fs) (hnd : OpenNodup fs) (hino : fs.inode? i = some ino)
    (hf : FileOk fs.store ino) (hshown : ino.lengthShown ≤ ino.length)
    (h0 : 0 ≤ offset) (hfuel : size.toNat ≤ fuel)
    (hcnt : cnt = (min size (ino.length - offset)).toNat) :
    ∃ fs', writeLoop i buffer fuel fs size offset n = some (((n + cnt : Nat) : Int), fs') ∧
      SameRest (fs.setInode { ino with lengthShown := min ino.length (ino.lengthShown + cnt) })
        fs' ∧
      StoreEff d0 fs fs' (dataSectors fs.store.view ino)
        (dataSectors fs.store.view ino) ∧
      ∀ k, k / 512 < ino.sectors →
        fileByte fs'.store.view ino k =
          if offset.toNat ≤ k ∧ k < offset.toNat + cnt then buffer (n + (k - offset.toNat))
          else fileByte fs.store.view ino k := by
  -- the loop ends without writing
  have hstop : ∀ {fs : FS} {ino : Inode}, OpenNodup fs → fs.inode? i = some ino →
      ino.lengthShown ≤ ino.length → SameRest (fs.setInode { ino with
        lengthShown := min ino.length (ino.lengthShown + ((0 : Nat) : Int)) }) fs := by
    intro fs ino hnd hino hshown
    rw [show min ino.length (ino.lengthShown + ((0 : Nat) : Int)) = ino.lengthShown by omega,
      setInode_self hnd hino]
    exact SameRest.refl fs
  induction fuel generalizing fs ino size offset n cnt with
  | zero =>
    obtain rfl : cnt = 0 := by omega
    refine ⟨fs, by rw [writeLoop, Nat.add_zero], hstop hnd hino hshown, StoreEff.refl hst, ?_⟩
    intro k _
    rw [if_neg (by omega)]
  | succ fuel ih =>
    rw [writeLoop]
    by_cases hsize : 0 < size
    · simp only [if_pos hsize, hino, some_bind]
      rw [chunkSize_eq]
      by_cases hlt : offset < ino.length
      · obtain ⟨fs1, hlook, hst1, hrest1, hstore1⟩ := hf.lookup hst h0 hlt
        simp only [hlook, some_bind]
        rw [if_neg (by omega)]
        obtain ⟨a, ha⟩ : ∃ a : Nat,
            min size (min (ino.length - offset) (512 - offset % 512)) = a :=
          ⟨_, (Int.toNat_of_nonneg (by omega)).symm⟩
        have hk : offset.toNat / 512 < ino.sectors := hf.div_lt (by omega)
        obtain ⟨fs2, hwrite, hview2, hrest2, heff2⟩ := FS.cacheWrite_spec hst1
          (sectorOf fs.store.view ino (.data (offset.toNat / 512))) buffer n
          (offset.toNat % 512) a
        rw [hstore1] at hview2
        have hdata : {sectorOf fs.store.view ino (.data (offset.toNat / 512))} ⊆
            dataSectors fs.store.view ino := by
          rintro _ rfl
          exact ⟨_, hk, rfl⟩
        have heff : StoreEff d0 fs fs2 (dataSectors fs.store.view ino)
            (dataSectors fs.store.view ino) := by
          refine StoreEff.mono ⟨heff2.ok, ?_, ?_⟩ hdata hdata
          · exact fun s hs => hstore1 ▸ heff2.cached s hs
          · exact fun s hs => hstore1 ▸ heff2.view s hs
        obtain ⟨hf2, hsame2⟩ := hf.frame fs2.store heff.view heff.cached
        -- the rest of the loop, by induction, in the state after this chunk
        have hrest := hrest1.trans hrest2
        have hnd2 := hnd.congr hrest.openInodes
        set ino2 : Inode := { ino with
          lengthShown := min ino.length (ino.lengthShown + a) } with hino2
        have hsec2 : ino2.sector = i := show ino.sector = i from inode?_sector hino
        have hfind : (fs2.setInode ino2).inode? i = some ino2 := by
          rw [inode?_setInode ((hrest.inode? i).trans hino) hsec2, if_pos rfl]
        obtain ⟨fs3, hloop, hrest3, heff3, hbyte3⟩ := @ih ino2 (fs2.setInode ino2)
          (size - a) (offset + a) (n + a) (cnt - a) { heff2.ok with } (hnd2.setInode ino2) hfind hf2
          (show min _ _ ≤ ino.length by omega) (by omega) (by omega)
          (show cnt - a = (min _ (ino.length - _)).toNat by omega)
        have hshown2 : (if ino.lengthShown + a > ino.length then ino.length
            else ino.lengthShown + a) = min ino.length (ino.lengthShown + a) := by
          split <;> omega
        have hfinal : min ino.length (min ino.length (ino.lengthShown + a) + (cnt - a : Nat)) =
            min ino.length (ino.lengthShown + cnt) := by omega
        have hdata2 : dataSectors fs2.store.view ino =
            dataSectors fs.store.view ino := dataSectors_congr hsame2
        refine ⟨fs3, ?_, ?_, heff.trans ⟨heff3.ok, ?_, ?_⟩, ?_⟩
        · rw [ha, show (offset % (DISK_SECTOR_SIZE : Int)).toNat = offset.toNat % 512 by
            unfold DISK_SECTOR_SIZE; omega, Int.toNat_natCast, hwrite]
          simp only [some_bind]
          rw [hshown2, hloop, show n + a + (cnt - a) = n + cnt by omega]
        · have htwice := setInode_setInode fs2 ino2 { ino with
            lengthShown := min ino.length (min ino.length (ino.lengthShown + a) + (cnt - a : Nat)) }
            rfl
          refine (hrest.setInode _).trans ?_
          rw [← hfinal, ← htwice]
          exact hrest3
        · exact hdata2 ▸ heff3.cached
        · exact hdata2 ▸ heff3.view
        · intro k hk'
          have hchunk : fileByte (fs2.setInode ino2).store.view ino2 k = _ :=
            fileByte_chunk hf hk (by omega) hview2 hsame2 hk'
          rw [hbyte3 k hk', hchunk,
            show (offset + (a : Int)).toNat = offset.toNat + a by omega]
          -- the chunk and the rest are adjacent ranges of positions
          by_cases h1 : offset.toNat + a ≤ k ∧ k < offset.toNat + a + (cnt - a)
          · rw [if_pos h1, if_pos (by omega),
              show n + a + (k - (offset.toNat + a)) = n + (k - offset.toNat) by omega]
          · rw [if_neg h1]
            by_cases h2 : offset.toNat ≤ k ∧ k < offset.toNat + a
            · rw [if_pos h2, if_pos (by omega)]
            · rw [if_neg h2, if_neg (by omega)]
      · -- at or beyond the end of the file there is nothing to look up
        have hbyte : byteToSector fs ino offset = some (UInt32.ofNat 4294967295, fs) := by
          rw [byteToSector, if_neg hlt]
        simp only [hbyte, some_bind]
        rw [if_pos (by omega)]
        obtain rfl : cnt = 0 := by omega
        refine ⟨fs, by rw [Nat.add_zero], hstop hnd hino hshown, StoreEff.refl hst, ?_⟩
        intro k _
        rw [if_neg (by omega)]
    · rw [if_neg hsize]
      obtain rfl : cnt = 0 := by omega
      refine ⟨fs, by rw [Nat.add_zero], hstop hnd hino hshown, StoreEff.refl hst, ?_⟩
      intro k _
      rw [if_neg (by omega)]

end

end Pintos.FileSys
