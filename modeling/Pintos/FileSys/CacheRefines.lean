import Pintos.FileSys.CacheInv

/-!
# The buffer cache refines a plain disk

`cache_write_behind_loop` brings the disk up to what the cache shows. With the
calls of `CacheInv` this gives the refinement of whole histories: the cache is
indistinguishable from a write-through array of sectors.

Main result: `cache_refines_plain_disk`.
-/

namespace Pintos.FileSys

open Lib List

variable {st : Store} {s : Sector}

/-! ## Write-behind -/

theorem writeBehind_off {d : Disk} {l : List BufferCache}
    (hs : s ∉ l.map BufferCache.sector) : (writeBehind d l).1 s = d s := by
  induction l generalizing d with
  | nil => rfl
  | cons e rest ih =>
    rw [map_cons, mem_cons, not_or] at hs
    unfold writeBehind
    split
    · rw [ih hs.2]
      simp [diskWrite, hs.1]
    · exact ih hs.2

theorem writeBehind_entries (d : Disk) (l : List BufferCache) :
    (writeBehind d l).2 =
      l.map fun e => if e.isDirty then { e with isUsing := false, isDirty := false } else e := by
  induction l generalizing d with
  | nil => rfl
  | cons e rest ih =>
    unfold writeBehind
    split
    · rename_i hd
      simp [ih, hd]
    · rename_i hd
      simp [ih, hd]

theorem writeBehind_flushed {d : Disk} {l : List BufferCache}
    (hnd : (l.map BufferCache.sector).Nodup)
    (hclean : ∀ e ∈ l, e.isDirty = false → e.data = d e.sector) :
    ∀ e ∈ l, (writeBehind d l).1 e.sector = e.data := by
  induction l generalizing d with
  | nil => simp
  | cons a rest ih =>
    rw [map_cons, nodup_cons] at hnd
    intro e he
    unfold writeBehind
    split
    · rcases mem_cons.mp he with rfl | hmem
      · -- the head was written first and no later entry writes its sector
        rw [writeBehind_off hnd.1]
        simp [diskWrite]
      · refine ih hnd.2 ?_ e hmem
        intro x hx hd
        have hne : x.sector ≠ a.sector := by
          intro heq
          exact hnd.1 (heq ▸ mem_map_of_mem hx)
        rw [hclean x (mem_cons_of_mem _ hx) hd]
        simp [diskWrite, hne]
    · rename_i hdirty
      rcases mem_cons.mp he with rfl | hmem
      · rw [writeBehind_off hnd.1]
        exact (hclean e (mem_cons_self ..) (by simpa using hdirty)).symm
      · exact ih hnd.2 (fun x hx => hclean x (mem_cons_of_mem _ hx)) e hmem

theorem cacheWriteBehindLoop_sectors (st : Store) :
    (cacheWriteBehindLoop st).bufferCacheList.map BufferCache.sector =
      st.bufferCacheList.map BufferCache.sector := by
  simp only [cacheWriteBehindLoop, writeBehind_entries, map_map]
  congr 1
  funext e
  simp only [Function.comp_apply]
  split <;> rfl

theorem cacheWriteBehindLoop_cached (st : Store) :
    (cacheWriteBehindLoop st).cached = st.cached := by
  funext t
  have h : ∀ st : Store, st.cached t ↔ t ∈ st.bufferCacheList.map BufferCache.sector := by
    intro st
    simp [Store.cached]
  rw [propext (h _), propext (h _), cacheWriteBehindLoop_sectors]

theorem cacheWriteBehindLoop_spec (h : CacheInv st) :
    CacheInv (cacheWriteBehindLoop st) ∧ (cacheWriteBehindLoop st).view = st.view ∧
      (cacheWriteBehindLoop st).disk = st.view := by
  have hnd : ((cacheWriteBehindLoop st).bufferCacheList.map BufferCache.sector).Nodup := by
    rw [cacheWriteBehindLoop_sectors]
    exact h.nodup
  have hmem : ∀ e ∈ (cacheWriteBehindLoop st).bufferCacheList,
      e.isDirty = false ∧ e.isUsing = false ∧ e.data = st.view e.sector := by
    simp only [cacheWriteBehindLoop, writeBehind_entries, mem_map]
    rintro _ ⟨e, he, rfl⟩
    have hv := (view_of_mem h.nodup he).symm
    have hi := h.idle e he
    by_cases hd : e.isDirty = true
    · simp [hd, hv]
    · simp [hd, hi, hv]
  have hdisk : (cacheWriteBehindLoop st).disk = st.view := by
    funext t
    by_cases ht : st.cached t
    · obtain ⟨e, he, rfl⟩ := ht
      rw [view_of_mem h.nodup he]
      exact writeBehind_flushed h.nodup h.clean e he
    · rw [view_of_not_cached ht]
      refine writeBehind_off ?_
      intro hmem
      obtain ⟨e, he, hes⟩ := mem_map.mp hmem
      exact ht ⟨e, he, hes⟩
  have hlen : (cacheWriteBehindLoop st).bufferCacheList.length = st.bufferCacheList.length := by
    simpa using congrArg List.length (cacheWriteBehindLoop_sectors st)
  refine ⟨⟨hnd, ?_, ?_, ?_, ?_⟩, ?_, hdisk⟩
  · rw [hlen]
    exact h.size
  · rw [hlen]
    exact h.bound
  · intro e he _
    rw [hdisk]
    exact (hmem e he).2.2
  · exact fun e he => (hmem e he).2.1
  · exact view_unique hnd (fun e he => (hmem e he).2.2) (fun t _ => by rw [hdisk])

/-! ## Whole histories -/

/-- The calls a client of the cache makes. The bytes copied lie in one sector. -/
inductive CacheOp where
  | read (sector : Sector) (buffer : Buffer) (bytesRead sectorOfs chunkSize : Nat)
      (inSector : sectorOfs + chunkSize ≤ 512)
  | write (sector : Sector) (buffer : Buffer) (bytesRead sectorOfs chunkSize : Nat)
      (inSector : sectorOfs + chunkSize ≤ 512)
  | writeBehindLoop

/-- The buffers the reads of a history fill, and the store it leaves. -/
def cacheRun : Store → List CacheOp → Option (List Buffer × Store)
  | st, [] => some ([], st)
  | st, .read sector buffer bytesRead sectorOfs chunkSize _ :: ops => do
    let (out, st) ← cacheRead st sector buffer bytesRead sectorOfs chunkSize
    let (outs, st) ← cacheRun st ops
    some (out :: outs, st)
  | st, .write sector buffer bytesRead sectorOfs chunkSize _ :: ops => do
    let st ← cacheWrite st sector buffer bytesRead sectorOfs chunkSize
    cacheRun st ops
  | st, .writeBehindLoop :: ops => cacheRun (cacheWriteBehindLoop st) ops

/-- The same history on a write-through array of sectors. -/
def plainRun : Disk → List CacheOp → List Buffer × Disk
  | d, [] => ([], d)
  | d, .read sector buffer bytesRead sectorOfs chunkSize _ :: ops =>
    (copyOut (d sector) sectorOfs chunkSize buffer bytesRead :: (plainRun d ops).1,
      (plainRun d ops).2)
  | d, .write sector buffer bytesRead sectorOfs chunkSize _ :: ops =>
    plainRun (diskWrite d sector ((d sector).patch sectorOfs chunkSize buffer bytesRead)) ops
  | d, .writeBehindLoop :: ops => plainRun d ops

theorem cacheRun_append (st : Store) (ops ops' : List CacheOp) :
    cacheRun st (ops ++ ops') = (do
      let (outs, st) ← cacheRun st ops
      let (outs', st) ← cacheRun st ops'
      some (outs ++ outs', st)) := by
  induction ops generalizing st with
  | nil => simp [cacheRun]
  | cons op ops ih =>
    cases op with
    | writeBehindLoop => simp [cacheRun, ih]
    | _ =>
      simp [cacheRun, ih, Option.bind_assoc]

/-- Simulation: from a store that shows `d`, every history runs to its end, fills
the same buffers, and leaves a store that shows what the plain disk holds. -/
theorem cacheRun_simulates {d : Disk} (ops : List CacheOp) (h : CacheInv st)
    (hview : st.view = d) :
    ∃ st', cacheRun st ops = some ((plainRun d ops).1, st') ∧ CacheInv st' ∧
      st'.view = (plainRun d ops).2 := by
  induction ops generalizing st d with
  | nil => exact ⟨st, rfl, h, hview⟩
  | cons op ops ih =>
    cases op with
    | read sector buffer bytesRead sectorOfs chunkSize hin =>
      obtain ⟨st1, heq, hv, hstep⟩ := cacheRead_spec h sector buffer bytesRead sectorOfs chunkSize
      obtain ⟨st2, hrun, hinv, hout⟩ := ih hstep.inv (hv.trans hview)
      refine ⟨st2, ?_, hinv, hout⟩
      simp [cacheRun, heq, hrun, plainRun, hview]
    | write sector buffer bytesRead sectorOfs chunkSize hin =>
      obtain ⟨st1, heq, hv, hstep⟩ := cacheWrite_spec h sector buffer bytesRead sectorOfs chunkSize
      rw [hview] at hv
      obtain ⟨st2, hrun, hinv, hout⟩ := ih hstep.inv hv
      refine ⟨st2, ?_, hinv, hout⟩
      simpa [cacheRun, heq, plainRun, diskWrite] using hrun
    | writeBehindLoop =>
      obtain ⟨hinv', hv, -⟩ := cacheWriteBehindLoop_spec h
      obtain ⟨st2, hrun, hinv, hout⟩ := ih hinv' (hv.trans hview)
      exact ⟨st2, by simpa [cacheRun, plainRun] using hrun, hinv, hout⟩

theorem cacheInit_inv (d : Disk) : CacheInv (cacheInit d) :=
  ⟨by simp [cacheInit], rfl, Nat.zero_le _, by simp [cacheInit], by simp [cacheInit]⟩

/--
**The buffer cache refines a plain disk.** From an empty cache over any disk,
every history of completed calls runs without a failed assertion and its reads
copy out the bytes of the write-through array. Afterwards (and so, every prefix
of a history being one, at all times) there are at most `MAX_CACHE_SIZE`
entries, `cache_current_size` is their number, no two hold the same sector, and
the clean ones equal the disk; and if `cache_write_behind_loop` runs now, the
disk is the write-through array.
-/
theorem cache_refines_plain_disk (d : Disk) (ops : List CacheOp) :
    ∃ st, cacheRun (cacheInit d) ops = some ((plainRun d ops).1, st) ∧
      st.bufferCacheList.length ≤ MAX_CACHE_SIZE ∧
      st.cacheCurrentSize = st.bufferCacheList.length ∧
      (st.bufferCacheList.map BufferCache.sector).Nodup ∧
      (∀ e ∈ st.bufferCacheList, e.isDirty = false → e.data = st.disk e.sector) ∧
      cacheRun (cacheInit d) (ops ++ [.writeBehindLoop]) =
        some ((plainRun d ops).1, cacheWriteBehindLoop st) ∧
      (cacheWriteBehindLoop st).disk = (plainRun d ops).2 := by
  have hview : (cacheInit d).view = d := by
    funext s
    rfl
  obtain ⟨st, hrun, hinv, hout⟩ := cacheRun_simulates ops (cacheInit_inv d) hview
  refine ⟨st, hrun, hinv.bound, hinv.size, hinv.nodup, hinv.clean, ?_, ?_⟩
  · rw [cacheRun_append, hrun]
    simp [cacheRun]
  · rw [(cacheWriteBehindLoop_spec hinv).2.2, hout]

end Pintos.FileSys
