import Pintos.FileSys.Files

/-!
# What `inode_read_at` reads (`filesys/inode.c`)

`inode_read_at` copies its window sector by sector. This module follows the calls of
`cache_read` that it makes, for an inode whose block map may be anything: two positions
may share a sector, and a sector of data may be an index block as well. A lookup reads
the disk and not the cache, so in such a file it depends on what has been evicted; every
call is therefore kept with the state in which its position was looked up.
-/

namespace Pintos.FileSys

open Lib List Option

/-- A call of `cache_read`, and the state in which `byte_to_sector` was called for it. -/
structure ReadCall where
  before : FS
  pos : Int
  sector : Sector
  sectorOfs : Int
  chunkSize : Int

/-- The calls of `cache_read` in the loop of `inode_read_at`, from an offset and a number of
bytes that have been read. -/
inductive ReadCalls (ino : Inode) : FS → Buffer → Int → Nat → List ReadCall → FS → Buffer → Prop
  | done (fs : FS) (buffer : Buffer) (offset : Int) (n : Nat) : ReadCalls ino fs buffer offset n [] fs buffer
  /-- a lookup after which nothing is left to copy -/
  | look {fs fs' : FS} {buffer : Buffer} {offset : Int} {n : Nat} {sector : Sector} :
      byteToSector fs ino offset = some (sector, fs') → ReadCalls ino fs buffer offset n [] fs' buffer
  | call {fs fs₁ fs₂ fs' : FS} {buffer buffer1 buffer' : Buffer} {offset : Int} {n chunk : Nat}
      {sector : Sector} {calls : List ReadCall} :
      byteToSector fs ino offset = some (sector, fs₁) →
      fs₁.cacheRead sector buffer n (offset % 512).toNat chunk = some (buffer1, fs₂) →
      ReadCalls ino fs₂ buffer1 (offset + chunk) (n + chunk) calls fs' buffer' →
      ReadCalls ino fs buffer offset n (⟨fs, offset, sector, offset % 512, chunk⟩ :: calls) fs' buffer'

/-- The call stays within one sector, of a position below the length of the inode. -/
structure ReadCall.Within (c : ReadCall) (ino : Inode) : Prop where
  ofs : 0 ≤ c.sectorOfs
  size : 0 < c.chunkSize
  sector : c.sectorOfs + c.chunkSize ≤ 512
  pos : c.sectorOfs = c.pos % 512
  start : 0 ≤ c.pos
  length : c.pos + c.chunkSize ≤ ino.length
  looked : ∃ fs', byteToSector c.before ino c.pos = some (c.sector, fs')

/-! ## One turn -/

section
variable {fs fs' : FS} {ino : Inode} {i : Sector}

theorem diskReads_store (fs : FS) (l : List Sector) : (fs.diskReads l).store = fs.store := by
  unfold FS.diskReads
  induction l generalizing fs with
  | nil => rfl
  | cons s l ih =>
    rw [foldl_cons, ih]
    rfl

theorem byteToSector_keeps {pos : Int} {s : Sector} (h : byteToSector fs ino pos = some (s, fs')) :
    fs'.store = fs.store ∧ ∀ j, fs'.inode? j = fs.inode? j := by
  obtain ⟨l, rfl⟩ := byteToSector_reads h
  refine ⟨diskReads_store fs l, fun j => ?_⟩
  rw [FS.inode?, diskReads_openInodes]
  rfl

theorem FS.cacheRead_inv (h : CacheInv fs.store) (s : Sector) (buffer : Buffer) (n ofs cnt : Nat) :
    ∃ fs', fs.cacheRead s buffer n ofs cnt = some (copyOut (fs.store.view s) ofs cnt buffer n, fs') ∧
      CacheInv fs'.store ∧ fs'.store.view = fs.store.view ∧ ∀ j, fs'.inode? j = fs.inode? j := by
  obtain ⟨st', heq, hview, hstep⟩ := FileSys.cacheRead_spec h s buffer n ofs cnt
  refine ⟨{ fs with
    store := st'
    log := .cacheRead s ofs cnt (fun k => copyOut (fs.store.view s) ofs cnt buffer n (n + k)) :: fs.log },
    ?_, hstep.inv, hview, fun _ => rfl⟩
  rw [FS.cacheRead, heq]
  rfl

theorem FS.cacheWrite_inv (h : CacheInv fs.store) (s : Sector) (buffer : Buffer) (n ofs cnt : Nat) :
    ∃ fs', fs.cacheWrite s buffer n ofs cnt = some fs' ∧ CacheInv fs'.store ∧
      ∀ j, fs'.inode? j = fs.inode? j := by
  obtain ⟨st', heq, -, hstep⟩ := FileSys.cacheWrite_spec h s buffer n ofs cnt
  refine ⟨{ fs with
    store := st'
    log := .cacheWrite s ofs cnt (fun k => buffer (n + k)) :: fs.log }, ?_, hstep.inv, fun _ => rfl⟩
  rw [FS.cacheWrite, heq]
  rfl

theorem byteToSector_same_sector {pos pos' : Int} {s : Sector} (h0 : 0 ≤ pos) (hpos : pos < ino.length)
    (hpos' : pos' < ino.length) (hcap : ino.length ≤ 9046016) (hle : pos ≤ pos')
    (hsector : pos' - pos < 512 - pos % 512) (h : byteToSector fs ino pos = some (s, fs')) :
    byteToSector fs ino pos' = some (s, fs') := by
  rw [byteToSector_spec fs ino h0 hpos (by omega)] at h
  rw [byteToSector_spec fs ino (by omega) hpos' (by omega),
    show pos'.toNat / 512 = pos.toNat / 512 by omega]
  exact h

/-! ## The loop -/

/-- Bytes `n`, … of the buffer are those of the window, each read by a call for its position. -/
structure Window (ino : Inode) (v : Disk) (offset : Int) (n cnt : Nat) (calls : List ReadCall)
    (buffer buffer' : Buffer) : Prop where
  within : ∀ c ∈ calls, c.Within ino
  bytes : ∀ k < cnt, ∃ c ∈ calls, c.pos ≤ offset + k ∧ offset + k < c.pos + c.chunkSize ∧
    buffer' (n + k) = (v c.sector).get ((offset + k) % 512).toNat
  rest : ∀ k, k < n ∨ n + cnt ≤ k → buffer' k = buffer k

theorem window_nil (v : Disk) (offset : Int) (n : Nat) (buffer : Buffer) :
    Window ino v offset n 0 [] buffer buffer :=
  ⟨nofun, fun _ hk => absurd hk (Nat.not_lt_zero _), fun _ _ => rfl⟩

variable {offset : Int} {buffer buffer' : Buffer}

theorem Window.cons {v : Disk} {n a cnt : Nat} {calls : List ReadCall} {c : ReadCall}
    (hc : c.Within ino) (hpos : c.pos = offset) (hsize : c.chunkSize = a)
    (h : Window ino v (offset + a) (n + a) cnt calls
      (copyOut (v c.sector) c.sectorOfs.toNat a buffer n) buffer') :
    Window ino v offset n (a + cnt) (c :: calls) buffer buffer' := by
  refine ⟨fun d hd => ?_, fun k hk => ?_, fun k hk => ?_⟩
  · rcases mem_cons.mp hd with rfl | hd
    · exact hc
    · exact h.within d hd
  · by_cases hka : k < a
    · -- a byte of this chunk, which the others leave alone
      refine ⟨c, mem_cons_self, by omega, by omega, ?_⟩
      rw [h.rest (n + k) (.inl (by omega)), copyOut, if_pos ⟨by omega, by omega⟩]
      congr 1
      have h1 := hc.pos
      have h2 := hc.ofs
      have h3 := hc.sector
      have h4 := hc.start
      omega
    · obtain ⟨d, hd, hle, hlt, hbyte⟩ := h.bytes (k - a) (by omega)
      refine ⟨d, mem_cons_of_mem _ hd, by omega, by omega, ?_⟩
      rw [show n + k = n + a + (k - a) by omega, hbyte,
        show offset + (a : Int) + ((k - a : Nat) : Int) = offset + k by omega]
  · rw [h.rest k (by omega), copyOut, if_neg (by omega)]

/-- **The loop of `inode_read_at`** reads the window. -/
theorem readLoop_window (fuel : Nat) {fs : FS} (buffer : Buffer) {size offset : Int} {n cnt : Nat}
    (hinv : CacheInv fs.store) (hino : fs.inode? i = some ino) (hshown : ino.lengthShown ≤ ino.length)
    (hcap : ino.length ≤ 9046016) (h0 : 0 ≤ offset) (hfuel : size.toNat ≤ fuel)
    (hcnt : cnt = (min size (ino.lengthShown - offset)).toNat) :
    ∃ calls buffer' fs', readLoop i fuel fs buffer size offset n = some (((n + cnt : Nat) : Int), buffer', fs') ∧
      ReadCalls ino fs buffer offset n calls fs' buffer' ∧
      Window ino fs.store.view offset n cnt calls buffer buffer' := by
  induction fuel generalizing fs buffer size offset n cnt with
  | zero =>
    obtain rfl : cnt = 0 := by omega
    exact ⟨[], buffer, fs, rfl, .done .., window_nil ..⟩
  | succ fuel ih =>
    rw [readLoop]
    by_cases hsize : 0 < size
    · simp only [if_pos hsize, hino, some_bind]
      rw [chunkSize_eq]
      by_cases hleft : ino.lengthShown ≤ offset
      · -- nothing is left to be shown: the lookup, and the end
        obtain rfl : cnt = 0 := by omega
        obtain ⟨s, fs1, hlook⟩ : ∃ s fs1, byteToSector fs ino offset = some (s, fs1) := by
          by_cases hlt : offset < ino.length
          · exact ⟨_, _, byteToSector_spec fs ino h0 hlt (by omega)⟩
          · exact ⟨_, _, by rw [byteToSector, if_neg hlt]⟩
        refine ⟨[], buffer, fs1, ?_, .look hlook, window_nil ..⟩
        simp only [hlook, some_bind]
        rw [if_pos (by omega)]
        rfl
      · obtain ⟨a, ha⟩ : ∃ a : Nat, min size (min (ino.lengthShown - offset) (512 - offset % 512)) = a :=
          ⟨_, (Int.toNat_of_nonneg (by omega)).symm⟩
        -- one chunk through the cache, then the rest by induction
        have hlook := byteToSector_spec fs ino h0 (show offset < ino.length by omega) (by omega)
        obtain ⟨hstore1, hinode1⟩ := byteToSector_keeps hlook
        obtain ⟨s, hs⟩ : ∃ s, sectorOf fs.store.disk ino (.data (offset.toNat / 512)) = s := ⟨_, rfl⟩
        obtain ⟨fs1, hfs1⟩ : ∃ fs1, fs.diskReads ((Slot.path (offset.toNat / 512)).map
          (sectorOf fs.store.disk ino)) = fs1 := ⟨_, rfl⟩
        rw [hs, hfs1] at hlook
        rw [hfs1] at hstore1 hinode1
        obtain ⟨fs2, hread, hinv2, hview2, hinode2⟩ := FS.cacheRead_inv (hstore1 ▸ hinv) s buffer n
          (offset % 512).toNat a
        rw [hstore1] at hread hview2
        obtain ⟨calls, buffer', fs', hloop, hreads, hwindow⟩ := @ih fs2
          (copyOut (fs.store.view s) (offset % 512).toNat a buffer n) (size - a) (offset + a) (n + a)
          (cnt - a) hinv2 ((hinode2 i).trans ((hinode1 i).trans hino)) (by omega) (by omega) (by omega)
        rw [hview2] at hwindow
        have hwithin : ReadCall.Within ⟨fs, offset, s, offset % 512, a⟩ ino :=
          ⟨by dsimp only; omega, by dsimp only; omega, by dsimp only; omega, rfl, h0, by dsimp only; omega,
            fs1, hlook⟩
        refine ⟨_, buffer', fs', ?_, .call hlook hread hreads, ?_⟩
        · simp only [hlook, some_bind]
          rw [ha, if_neg (by omega), show (offset % (DISK_SECTOR_SIZE : Int)) = offset % 512 from rfl,
            Int.toNat_natCast, hread]
          simp only [some_bind]
          rw [hloop, show n + a + (cnt - a) = n + cnt by omega]
        · have hcons := hwindow.cons hwithin rfl rfl
          rwa [show a + (cnt - a) = cnt by omega] at hcons
    · rw [if_neg hsize]
      obtain rfl : cnt = 0 := by omega
      exact ⟨[], buffer, fs, rfl, .done .., window_nil ..⟩

theorem readLoop_keeps (fuel : Nat) {size r : Int} {n : Nat} (hinv : CacheInv fs.store)
    (h : readLoop i fuel fs buffer size offset n = some (r, buffer', fs')) :
    CacheInv fs'.store ∧ ∀ j, fs'.inode? j = fs.inode? j := by
  induction fuel generalizing fs buffer size offset n with
  | zero =>
    cases h
    exact ⟨hinv, fun _ => rfl⟩
  | succ fuel ih =>
    rw [readLoop] at h
    split at h
    · obtain ⟨ino, -, h⟩ := bind_eq_some_iff.mp h
      obtain ⟨⟨s, fs1⟩, hlook, h⟩ := bind_eq_some_iff.mp h
      obtain ⟨hstore1, hinode1⟩ := byteToSector_keeps hlook
      dsimp only at h
      split at h
      · cases h
        exact ⟨hstore1 ▸ hinv, hinode1⟩
      · obtain ⟨⟨buffer2, fs2⟩, hread, h⟩ := bind_eq_some_iff.mp h
        obtain ⟨fs3, hread3, hinv3, -, hinode3⟩ := FS.cacheRead_inv (hstore1 ▸ hinv) s buffer n
          (offset % DISK_SECTOR_SIZE).toNat (chunkSize size offset (ino.lengthShown - offset)).toNat
        cases Option.some.inj (hread3.symm.trans hread)
        obtain ⟨hinv', hinode'⟩ := ih hinv3 h
        exact ⟨hinv', fun j => (hinode' j).trans ((hinode3 j).trans (hinode1 j))⟩
    · cases h
      exact ⟨hinv, fun _ => rfl⟩

theorem inodeReadAt_keeps {size r : Int} (hinv : CacheInv fs.store)
    (h : inodeReadAt fs i buffer size offset = some (r, buffer', fs')) :
    CacheInv fs'.store ∧ ∀ j, fs'.inode? j = fs.inode? j := by
  obtain ⟨ino, -, h⟩ := bind_eq_some_iff.mp h
  split at h
  · cases h
    exact ⟨hinv, fun _ => rfl⟩
  · exact readLoop_keeps _ hinv h

/-- **`inode_read_at` reads its window**: it returns the number of bytes from the offset up to
`length_shown`, at most `size`; each call of `cache_read` stays within one sector, of a
position below the length; and each byte of the buffer is the byte of its position, in the
sector that `byte_to_sector` gives for it. -/
theorem inode_read_at_window {fs : FS} (hinv : CacheInv fs.store) (hino : fs.inode? i = some ino)
    (hshown : ino.lengthShown ≤ ino.length) (h31 : ino.length < 2147483648)
    (hcap : bytesToSectors ino.length ≤ CAPACITY) (buffer : Buffer) (size : Int) {offset : Int}
    (h0 : 0 ≤ offset) :
    ∃ calls buffer' fs', inodeReadAt fs i buffer size offset =
        some (max 0 (min size (ino.lengthShown - offset)), buffer', fs') ∧
      ReadCalls ino fs buffer offset 0 calls fs' buffer' ∧ (∀ c ∈ calls, c.Within ino) ∧
      (∀ k : Nat, (k : Int) < min size (ino.lengthShown - offset) → ∃ c ∈ calls,
        (∃ fs₁, byteToSector c.before ino (offset + k) = some (c.sector, fs₁)) ∧
        buffer' k = (fs.store.view c.sector).get ((offset + k) % 512).toNat) ∧
      ∀ k : Nat, min size (ino.lengthShown - offset) ≤ k → buffer' k = buffer k := by
  by_cases hle : ino.lengthShown ≤ offset
  · refine ⟨[], buffer, fs, ?_, .done .., nofun, fun k hk => ?_, fun _ _ => rfl⟩
    · rw [inodeReadAt, hino]
      simp only [some_bind]
      rw [if_pos hle, max_eq_left (by omega)]
    · omega
  · have hlength : ino.length ≤ 9046016 := length_le_of_sectors (by omega) h31 hcap
    obtain ⟨calls, buffer', fs', hloop, hreads, hwindow⟩ := readLoop_window size.toNat buffer (n := 0)
      hinv hino hshown hlength h0 le_rfl rfl
    refine ⟨calls, buffer', fs', ?_, hreads, hwindow.within, fun k hk => ?_, fun k hk => ?_⟩
    · rw [inodeReadAt, hino]
      simp only [some_bind]
      rw [if_neg hle, hloop, Nat.zero_add, Int.toNat_eq_max, max_comm]
    · obtain ⟨c, hc, hpos, hlt, hbyte⟩ := hwindow.bytes k (by omega)
      obtain ⟨hofs, hsize, hsector, heq, hstart, hlen, fs₁, hlook⟩ := hwindow.within c hc
      refine ⟨c, hc, ⟨fs₁, ?_⟩, by rw [← hbyte, Nat.zero_add]⟩
      exact byteToSector_same_sector hstart (by omega) (by omega) hlength hpos (by omega) hlook
    · exact hwindow.rest k (.inr (by omega))

end

def oneFile (length : Int) : Inode where
  length := length
  isAllocated := 1
  ptrs := fun k => UInt32.ofNat (k.val + 7)
  ptrIdx := 0
  indirIdx := 0
  doubleIndirIdx := 0
  isDir := 0
  parent := 0
  sector := 5
  openCnt := 1
  removed := false
  denyWriteCnt := 0
  lengthShown := length

def oneOpenFile (length : Int) : FS where
  store := cacheInit fun s => Arr.const s.toUInt8
  freeMap := []
  freeMapFile := none
  openInodes := [oneFile length]
  locked := fun _ => false
  garbage := fun _ _ => 0
  garbagePos := 0
  log := []

theorem oneOpenFile_cacheInv (length : Int) : CacheInv (oneOpenFile length).store :=
  ⟨nodup_nil, rfl, Nat.zero_le _, nofun, nofun⟩

theorem oneOpenFile_inode (length : Int) : (oneOpenFile length).inode? 5 = some (oneFile length) := rfl

/-- The last 100 bytes of a file of 600, asked for 200. -/
theorem inode_read_at_window_two_sectors : ∃ calls buffer' fs',
    inodeReadAt (oneOpenFile 600) 5 (fun _ => 0) 200 500 = some (100, buffer', fs') ∧
    ReadCalls (oneFile 600) (oneOpenFile 600) (fun _ => 0) 500 0 calls fs' buffer' := by
  obtain ⟨calls, buffer', fs', hread, hreads, -⟩ := inode_read_at_window (oneOpenFile_cacheInv 600)
    (oneOpenFile_inode 600) (by decide) (by decide) (by decide) (fun _ => 0) 200 (show 0 ≤ 500 by decide)
  exact ⟨calls, buffer', fs', hread, hreads⟩

end Pintos.FileSys
