import Pintos.FileSys.GrowthFailure
import Pintos.FileSys.ReadAt

/-!
# What readers see of a write (`filesys/inode.c`)

`inode_write_at` gives the inode its new length before it stores the bytes; readers look
at `length_shown`, which the loop advances by the size of each chunk. Other threads may
read between two turns of the loop: here a turn is a step, and so is a call of
`inode_read_at` by another thread.

A chunk that lies below the old end of the file still advances `length_shown`, past
positions that are not yet written.
-/

namespace Pintos.FileSys

open Lib Option

/-! ## The writer, turn by turn -/

/-- The state and the variables of the loop in `inode_write_at`. -/
structure Writer where
  fs : FS
  size : Int
  offset : Int
  bytesWritten : Nat
  /-- the loop has been left, or not entered -/
  stopped : Bool

inductive WriterAct where
  | turn
  /-- a call of `inode_read_at` by another thread -/
  | read (inode : Sector) (buffer : Buffer) (size offset : Int)

/-- `inode_write_at`, up to its loop. -/
def writeStart (fm : FreeMapOps) (fs : FS) (inode : Sector) (size offset : Int) : Option Writer := do
  let ino ← fs.inode? inode
  if ino.denyWriteCnt ≠ 0 then some ⟨fs, size, offset, 0, true⟩
  else do
    let (goOn, fs) ← growForWrite fm fs ino size offset
    some ⟨fs, size, offset, 0, !goOn⟩

namespace Writer

def returned (w : Writer) : Bool := w.stopped || !decide (0 < w.size)

def turn (inode : Sector) (buffer : Buffer) (w : Writer) : Option Writer :=
  if w.returned then none
  else do
    let ino ← w.fs.inode? inode
    let (sectorIdx, fs) ← byteToSector w.fs ino w.offset
    let chunk := chunkSize w.size w.offset (ino.length - w.offset)
    if chunk ≤ 0 then some { w with fs, stopped := true }
    else do
      let fs ← fs.cacheWrite sectorIdx buffer w.bytesWritten (w.offset % DISK_SECTOR_SIZE).toNat chunk.toNat
      let lengthShown :=
        if ino.lengthShown + chunk > ino.length then ino.length else ino.lengthShown + chunk
      some { w with
        fs := fs.setInode { ino with lengthShown := lengthShown }
        size := w.size - chunk
        offset := w.offset + chunk
        bytesWritten := w.bytesWritten + chunk.toNat }

def step (inode : Sector) (buffer : Buffer) (w : Writer) : WriterAct → Option Writer
  | .turn => w.turn inode buffer
  | .read i b size offset => (inodeReadAt w.fs i b size offset).map fun (_, _, fs) => { w with fs }

/-- A reader sees no position beyond the old end, `old`, that has not been written: the turns
so far have written the positions from `start` up to the offset of the loop. -/
def OnlyWritten (w : Writer) (inode : Sector) (old start : Int) : Prop :=
  ∃ ino, w.fs.inode? inode = some ino ∧
    ∀ pos, pos < ino.lengthShown → pos < old ∨ start ≤ pos ∧ pos < w.offset

end Writer

variable {fs : FS} {offset : Int}

/-- **The loop, turn by turn**, is the loop of `inode_write_at`. -/
theorem writeLoop_turns {i : Sector} {buffer : Buffer} (fuel : Nat) {fs' : FS} {size r : Int}
    {n : Nat} (hfuel : size.toNat ≤ fuel)
    (h : writeLoop i buffer fuel fs size offset n = some (r, fs')) :
    ∃ k w, Run (Writer.step i buffer) (fun _ _ => True) ⟨fs, size, offset, n, false⟩
      (List.replicate k .turn) w ∧ w.returned = true ∧ w.fs = fs' ∧ (w.bytesWritten : Int) = r := by
  induction fuel generalizing fs size offset n with
  | zero =>
    cases h
    refine ⟨0, _, .nil, ?_, rfl, rfl⟩
    simp only [Writer.returned, Bool.false_or, Bool.not_eq_true', decide_eq_false_iff_not]
    omega
  | succ fuel ih =>
    rw [writeLoop] at h
    split at h
    · rename_i hsize
      have hgo : Writer.returned ⟨fs, size, offset, n, false⟩ = false := by simp [Writer.returned, hsize]
      obtain ⟨ino, hino, h⟩ := bind_eq_some_iff.mp h
      obtain ⟨⟨s, fs1⟩, hlook, h⟩ := bind_eq_some_iff.mp h
      dsimp only at h
      split at h
      · -- the turn that leaves the loop
        rename_i hchunk
        cases h
        refine ⟨1, ⟨fs', size, offset, n, true⟩, .snoc .nil trivial ?_, rfl, rfl, rfl⟩
        simp [Writer.step, Writer.turn, hgo, hino, hlook, hchunk]
      · rename_i hchunk
        obtain ⟨fs2, hwrite, h⟩ := bind_eq_some_iff.mp h
        obtain ⟨k, w, hrun, hrest⟩ := ih (by omega) h
        refine ⟨k + 1, w, .append (.snoc .nil trivial ?_) hrun, hrest⟩
        simp [Writer.step, Writer.turn, hgo, hino, hlook, hchunk, hwrite]
    · rename_i hsize
      cases h
      exact ⟨0, _, .nil, by simp [Writer.returned, hsize], rfl, rfl⟩

theorem inodeWriteAt_turns {fm : FreeMapOps} {i : Sector} {buffer : Buffer} {fs' : FS}
    {size r : Int} (h : inodeWriteAt fm fs i buffer size offset = some (r, fs')) :
    ∃ w0 k w, writeStart fm fs i size offset = some w0 ∧
      Run (Writer.step i buffer) (fun _ _ => True) w0 (List.replicate k .turn) w ∧
      w.returned = true ∧ w.fs = fs' ∧ (w.bytesWritten : Int) = r := by
  obtain ⟨ino, hino, h⟩ := bind_eq_some_iff.mp h
  unfold writeStart
  rw [hino, some_bind]
  split at h
  · rename_i hdeny
    cases h
    exact ⟨⟨fs, size, offset, 0, true⟩, 0, _, if_pos hdeny, .nil, rfl, rfl, rfl⟩
  · rename_i hdeny
    obtain ⟨⟨goOn, fs1⟩, hgrow, h⟩ := bind_eq_some_iff.mp h
    have hstart : ∀ b, growForWrite fm fs ino size offset = some (b, fs1) →
        (if ino.denyWriteCnt ≠ 0 then some ⟨fs, size, offset, 0, true⟩
          else do
            let (goOn, fs) ← growForWrite fm fs ino size offset
            some (⟨fs, size, offset, 0, !goOn⟩ : Writer)) = some ⟨fs1, size, offset, 0, !b⟩ := by
      intro b hb
      rw [if_neg hdeny, hb]
      rfl
    dsimp only at h
    cases goOn with
    | true =>
      obtain ⟨k, w, hrun, hrest⟩ := writeLoop_turns size.toNat le_rfl h
      exact ⟨_, k, w, hstart true hgrow, hrun, hrest⟩
    | false =>
      cases h
      exact ⟨_, 0, _, hstart false hgrow, .nil, rfl, rfl, rfl⟩

/-! ## Where length_shown stands -/

/-- A write of `size` bytes at `start` into a file of `old` bytes: the length is that of the
end of the write, if it is longer, and `length_shown` has advanced by what is written. -/
structure Advances (i : Sector) (old start size : Int) (w : Writer) : Prop where
  cache : CacheInv w.fs.store
  inode : ∃ ino, w.fs.inode? i = some ino ∧ ino.length = max old (start + size) ∧
    ino.lengthShown = min (old + (w.offset - start)) ino.length
  left : w.size + w.offset = size + start
  begun : start ≤ w.offset
  running : w.stopped = false
  inside : w.offset = start ∨ 0 ≤ w.size
  sector : start % 512 + size ≤ 512 → w.offset = start ∨ w.size ≤ 0

section
variable {i : Sector} {buffer : Buffer} {old start size : Int} {w w' : Writer}

section
variable (h : Advances i old start size w)
include h

/-- **A turn of the loop** returns, and copies a chunk of at least one byte. -/
theorem Advances.turn (buffer : Buffer) (h0 : 0 ≤ start) (hle : start ≤ old)
    (hcap : start + size ≤ 9046016) (hgo : w.returned = false) :
    ∃ w', w.turn i buffer = some w' ∧ Advances i old start size w' ∧
      w'.offset = w.offset + min w.size (512 - w.offset % 512) := by
  obtain ⟨ino, hino, hlen, hshown⟩ := h.inode
  have hleft := h.left
  have hbegun := h.begun
  have hpos : 0 < w.size := by
    rw [Writer.returned, h.running, Bool.false_or, Bool.not_eq_false', decide_eq_true_eq] at hgo
    exact hgo
  have hbelow : w.offset < ino.length := by omega
  -- the end of the write is not beyond the length
  have hchunk : chunkSize w.size w.offset (ino.length - w.offset) = min w.size (512 - w.offset % 512) := by
    rw [chunkSize_eq]
    omega
  obtain ⟨c, hc⟩ : ∃ c, min w.size (512 - w.offset % 512) = c := ⟨_, rfl⟩
  have h0' : 0 ≤ w.offset := by omega
  have hlook := byteToSector_spec w.fs ino h0' hbelow (by omega)
  obtain ⟨hstore1, hinode1⟩ := byteToSector_keeps hlook
  obtain ⟨fs2, hwrite, hinv2, hinode2⟩ := FS.cacheWrite_inv (hstore1 ▸ h.cache)
    (sectorOf w.fs.store.disk ino (.data (w.offset.toNat / 512))) buffer w.bytesWritten
    (w.offset % DISK_SECTOR_SIZE).toNat c.toNat
  have hino2 := (hinode2 i).trans ((hinode1 i).trans hino)
  obtain ⟨ino', hino'⟩ : ∃ ino' : Inode, ino' = { ino with
    lengthShown := if ino.lengthShown + c > ino.length then ino.length else ino.lengthShown + c } := ⟨_, rfl⟩
  have hfind : (fs2.setInode ino').inode? i = some ino' := by
    have hsec : ino'.sector = i := by
      rw [hino']
      show ino.sector = i
      exact inode?_sector hino
    rw [inode?_setInode hino2 hsec, if_pos rfl]
  refine ⟨⟨fs2.setInode ino', w.size - c, w.offset + c, w.bytesWritten + c.toNat, w.stopped⟩, ?_, ?_, by
    rw [hc]⟩
  · rw [Writer.turn, hgo, hino]
    simp only [Bool.false_eq_true, if_false, some_bind, hlook, hchunk, hc]
    rw [if_neg (by omega), hwrite, some_bind, hino']
  · refine ⟨hinv2, ⟨ino', hfind, by rw [hino']; exact hlen, ?_⟩, ?_, ?_, h.running, .inr ?_, fun hsector => ?_⟩
    · -- `length_shown` advances by the chunk, up to the length
      rw [hino']
      show (if ino.lengthShown + c > ino.length then ino.length else ino.lengthShown + c) =
        min (old + (w.offset + c - start)) ino.length
      split <;> omega
    · show w.size - c + (w.offset + c) = size + start
      omega
    · show start ≤ w.offset + c
      omega
    · show 0 ≤ w.size - c
      omega
    · show w.offset + c = start ∨ w.size - c ≤ 0
      rcases h.sector hsector with heq | hdone <;> omega

theorem Advances.step (h0 : 0 ≤ start) (hle : start ≤ old) (hcap : start + size ≤ 9046016)
    {a : WriterAct} (hs : w.step i buffer a = some w') :
    Advances i old start size w' := by
  cases a with
  | turn =>
    cases hgo : w.returned with
    | true => simp [Writer.step, Writer.turn, hgo] at hs
    | false =>
      obtain ⟨w1, hturn, hadv, -⟩ := h.turn buffer h0 hle hcap hgo
      cases Option.some.inj (hturn.symm.trans hs)
      exact hadv
  | read j b size' offset' =>
    obtain ⟨⟨r, b', fs⟩, hread, rfl⟩ := map_eq_some_iff.mp hs
    obtain ⟨hinv, hinode⟩ := inodeReadAt_keeps h.cache hread
    obtain ⟨ino, hino, hlen, hshown⟩ := h.inode
    exact { h with cache := hinv, inode := ⟨ino, (hinode i).trans hino, hlen, hshown⟩ }

theorem Advances.onlyWritten (hle : start ≤ old)
    (hwhen : start = old ∨ start + size ≤ old ∨ start % 512 + size ≤ 512) :
    w.OnlyWritten i old start := by
  obtain ⟨ino, hino, hlen, hshown⟩ := h.inode
  have hleft := h.left
  have hinside := h.inside
  refine ⟨ino, hino, fun pos hpos => ?_⟩
  rcases hwhen with heq | hshort | hsector
  · omega
  · omega
  · rcases h.sector hsector with heq | hdone <;> omega

theorem Advances.shown_eq (hle : start ≤ old) (hend : w.returned = true) :
    ∃ ino, w.fs.inode? i = some ino ∧ ino.lengthShown = ino.length := by
  obtain ⟨ino, hino, hlen, hshown⟩ := h.inode
  rw [Writer.returned, h.running, Bool.false_or, Bool.not_eq_true', decide_eq_false_iff_not] at hend
  have hleft := h.left
  have hbegun := h.begun
  exact ⟨ino, hino, by omega⟩

/-- **A write that begins below the end** of the file, extends it and goes on in another
sector shows, after its first turn, a position that is not written. -/
theorem Advances.shows_unwritten (buffer : Buffer) (hw : w.offset = start) (h0 : 0 ≤ start)
    (hlt : start < old) (hcap : start + size ≤ 9046016) (hlong : old < start + size)
    (hsector : 512 < start % 512 + size) :
    ∃ w', w.step i buffer .turn = some w' ∧ ¬ w'.OnlyWritten i old start := by
  have hleft := h.left
  have hgo : w.returned = false := by
    simp only [Writer.returned, h.running, Bool.false_or, Bool.not_eq_false', decide_eq_true_eq]
    omega
  obtain ⟨w', hturn, hadv, hofs⟩ := h.turn buffer h0 hlt.le hcap hgo
  obtain ⟨ino, hino, hlen, hshown⟩ := hadv.inode
  refine ⟨w', hturn, fun ⟨ino', hino', honly⟩ => ?_⟩
  cases Option.some.inj (hino.symm.trans hino')
  -- the first position that is neither below the old end nor written
  have hpos := honly (max old w'.offset) (by omega)
  omega

end

/-- **The beginning of `inode_write_at`**: no turn has been made, or writes are denied. -/
theorem writeStart_advances {d : Nat} {ino : Inode} (hino : fs.inode? i = some ino)
    (hshown : ino.lengthShown = ino.length) (h31 : -2147483648 ≤ size) (h0 : 0 ≤ offset)
    (hcap : offset + size ≤ 9046016) (hstart : writeStart (freeMapOps d) fs i size offset = some w)
    (hcache : CacheInv w.fs.store) :
    (ino.denyWriteCnt ≠ 0 ∧ w = ⟨fs, size, offset, 0, true⟩) ∨
      (ino.denyWriteCnt = 0 ∧ Advances i ino.length offset size w ∧ w.offset = offset) := by
  unfold writeStart at hstart
  rw [hino, some_bind] at hstart
  split at hstart
  · rename_i hdeny
    cases hstart
    exact .inl ⟨hdeny, rfl⟩
  · rename_i hdeny
    obtain ⟨⟨goOn, fs1⟩, hgrow, hstart⟩ := bind_eq_some_iff.mp hstart
    cases hstart
    obtain ⟨rfl, -, ino1, hino1, hlen1, hshown1⟩ :=
      growForWrite_keeps (allocateKeepsOpen_freeMapOps d) hino hgrow
    have hi32 : i32 (size + offset) = size + offset := by
      unfold i32
      rw [Int.bmod_def]
      split <;> omega
    rw [hi32] at hlen1
    have hlen : ino1.length = max ino.length (offset + size) := by
      rw [hlen1]
      split <;> omega
    refine .inr ⟨not_not.mp hdeny, ⟨hcache, ⟨ino1, hino1, hlen, ?_⟩, rfl, le_rfl, rfl, .inl rfl,
      fun _ => .inl rfl⟩, rfl⟩
    show ino1.lengthShown = min (ino.length + (offset - offset)) ino1.length
    omega

/-- A writer that is not let in changes nothing. -/
theorem denied_step (hw : w.stopped = true ∧ CacheInv w.fs.store ∧
      w.fs.inode? i = fs.inode? i) {a : WriterAct} (hs : w.step i buffer a = some w') :
    w'.stopped = true ∧ CacheInv w'.fs.store ∧ w'.fs.inode? i = fs.inode? i := by
  obtain ⟨hstopped, hcache, hinode⟩ := hw
  cases a with
  | turn => simp [Writer.step, Writer.turn, Writer.returned, hstopped] at hs
  | read j b size' offset' =>
    obtain ⟨⟨r, b', fs'⟩, hread, rfl⟩ := map_eq_some_iff.mp hs
    obtain ⟨hinv, hinode'⟩ := inodeReadAt_keeps hcache hread
    exact ⟨hstopped, hinv, (hinode' i).trans hinode⟩

end

/-- **Readers see an extension only when it is written** if and only if the write is denied,
starts at the end of the file, does not extend it, or stays within one sector. In any case
everything is shown when the call returns. -/
theorem extension_shown_when_written_iff {d : Nat} {fs : FS} {i : Sector} {ino : Inode}
    (hino : fs.inode? i = some ino) (hshown : ino.lengthShown = ino.length) {size offset : Int}
    (h31 : -2147483648 ≤ size) (h0 : 0 ≤ offset) (hle : offset ≤ ino.length) (hcap : offset + size ≤ 9046016)
    {w0 : Writer} (hstart : writeStart (freeMapOps d) fs i size offset = some w0)
    (hcache : CacheInv w0.fs.store) (buffer : Buffer) :
    ((∀ as w, Run (Writer.step i buffer) (fun _ _ => True) w0 as w → w.OnlyWritten i ino.length offset) ↔
      (ino.denyWriteCnt ≠ 0 ∨ offset = ino.length ∨ offset + size ≤ ino.length ∨
        offset % DISK_SECTOR_SIZE + size ≤ DISK_SECTOR_SIZE)) ∧
    (∀ as w, Run (Writer.step i buffer) (fun _ _ => True) w0 as w → w.returned = true →
      ∃ ino', w.fs.inode? i = some ino' ∧ ino'.lengthShown = ino'.length) ∧
    ∀ r fs', inodeWriteAt (freeMapOps d) fs i buffer size offset = some (r, fs') →
      ∃ k w, Run (Writer.step i buffer) (fun _ _ => True) w0 (List.replicate k .turn) w ∧
        w.returned = true ∧ w.fs = fs' ∧ (w.bytesWritten : Int) = r := by
  have hturns : ∀ r fs', inodeWriteAt (freeMapOps d) fs i buffer size offset = some (r, fs') →
      ∃ k w, Run (Writer.step i buffer) (fun _ _ => True) w0 (List.replicate k .turn) w ∧
        w.returned = true ∧ w.fs = fs' ∧ (w.bytesWritten : Int) = r := by
    intro r fs' hwrite
    obtain ⟨w1, k, w, hstart1, hrun, hrest⟩ := inodeWriteAt_turns hwrite
    cases Option.some.inj (hstart.symm.trans hstart1)
    exact ⟨k, w, hrun, hrest⟩
  rcases writeStart_advances hino hshown h31 h0 hcap hstart hcache with ⟨hdeny, rfl⟩ | ⟨hdeny, hadv, hofs⟩
  · -- writes are denied: the inode stays as it is
    have hsame : ∀ as w, Run (Writer.step i buffer) (fun _ _ => True) ⟨fs, size, offset, 0, true⟩ as w →
        w.fs.inode? i = some ino := fun as w hrun =>
      (hrun.invariant (fun _ _ _ hw _ hs => denied_step hw hs) ⟨rfl, hcache, rfl⟩).2.2.trans hino
    refine ⟨iff_of_true (fun as w hrun => ⟨ino, hsame as w hrun, fun pos hpos => .inl ?_⟩) (.inl hdeny),
      fun as w hrun _ => ⟨ino, hsame as w hrun, hshown⟩, hturns⟩
    exact hshown ▸ hpos
  · have hrunning : ∀ as w, Run (Writer.step i buffer) (fun _ _ => True) w0 as w →
        Advances i ino.length offset size w := fun as w hrun =>
      hrun.invariant (fun _ _ _ h _ hs => Advances.step h h0 hle hcap hs) hadv
    refine ⟨⟨fun honly => ?_, fun hwhen as w hrun => ?_⟩,
      fun as w hrun hend => (hrunning as w hrun).shown_eq hle hend, hturns⟩
    · -- otherwise the first turn shows a position that is not written
      by_contra hnot
      simp only [not_or, not_le, DISK_SECTOR_SIZE] at hnot
      obtain ⟨-, hne, hlong, hsector⟩ := hnot
      obtain ⟨w', hturn, hbad⟩ := hadv.shows_unwritten buffer hofs h0 (by omega) hcap hlong (by omega)
      exact hbad (honly _ _ (.snoc .nil trivial hturn))
    · exact (hrunning as w hrun).onlyWritten hle (hwhen.resolve_left (not_not.mpr hdeny))

/-- 100 bytes at the end of a file of 600. -/
theorem extension_shown_when_written_iff_append : ∃ w0,
    writeStart (freeMapOps 1) (oneOpenFile 600) 5 100 600 = some w0 ∧
    ∀ as w, Run (Writer.step 5 fun _ => 7) (fun _ _ => True) w0 as w → w.OnlyWritten 5 600 600 := by
  obtain ⟨w0, hstart, hsize, hempty⟩ :
      ∃ w0, writeStart (freeMapOps 1) (oneOpenFile 600) 5 100 600 = some w0 ∧
        w0.fs.store.cacheCurrentSize = 0 ∧ w0.fs.store.bufferCacheList.isEmpty = true := by
    decide +kernel
  rw [List.isEmpty_iff] at hempty
  have hcache : CacheInv w0.fs.store := by
    refine ⟨?_, ?_, ?_, ?_, ?_⟩ <;> simp [hsize, hempty]
  have hiff := (extension_shown_when_written_iff (oneOpenFile_inode 600) rfl (by decide) (by decide) (by decide)
    (by decide) hstart hcache fun _ => 7).1
  exact ⟨w0, hstart, hiff.mpr (.inr (.inl rfl))⟩

/-- 1000 bytes from the beginning of a file of 600: after the first 512 of them, readers see
the positions from 600 on, which are not written. -/
theorem extension_shown_before_written : ∃ w0 w,
    writeStart (freeMapOps 1) (oneOpenFile 600) 5 1000 0 = some w0 ∧
    Run (Writer.step 5 fun _ => 7) (fun _ _ => True) w0 [.turn] w ∧ w.offset = 512 ∧
    (∃ ino, w.fs.inode? 5 = some ino ∧ ino.lengthShown = 1000) ∧ ¬ w.OnlyWritten 5 600 0 := by
  refine Run.exists_from (fun _ w => w.offset = 512 ∧ ∃ ino, w.fs.inode? 5 = some ino ∧
    ino.lengthShown = 1000) (by decide +kernel) fun w0 w hstart hrun hw => ?_
  obtain ⟨hofs, ino, hino, hshown⟩ := hw
  refine ⟨hofs, ⟨ino, hino, hshown⟩, fun ⟨ino', hino', honly⟩ => ?_⟩
  cases Option.some.inj (hino.symm.trans hino')
  have hpos := honly 700 (by omega)
  omega

end Pintos.FileSys
