import Pintos.FileSys.CacheRefines
import Pintos.FileSys.State

/-!
# Cached and direct accesses together

`lastWritten` replays the writes of a log over the initial disk, `Coherent`
says that every read of the log returned what had been written last, by
whichever path. `StoreOk` ties both to the store: what the log says was written
last is the content of each sector, in the cache or on disk.

Direct accesses keep `StoreOk` only where there is no cache entry.
-/

namespace Pintos.FileSys

open Lib Function

/-- The content of each sector after the writes of the log, newest first. -/
def lastWritten (d0 : Disk) : List Access → Disk
  | [] => d0
  | .diskWrite s b :: log => update (lastWritten d0 log) s b
  | .cacheWrite s sectorOfs chunkSize bytes :: log =>
    update (lastWritten d0 log) s
      ((lastWritten d0 log s).patch sectorOfs chunkSize bytes 0)
  | _ :: log => lastWritten d0 log

/-- Every read of the log returned what had been written last. -/
def Coherent (d0 : Disk) : List Access → Prop
  | [] => True
  | .diskRead s b :: log => b = lastWritten d0 log s ∧ Coherent d0 log
  | .cacheRead s sectorOfs chunkSize bytes :: log =>
    (∀ k, k < chunkSize → bytes k = (lastWritten d0 log s).get (sectorOfs + k)) ∧ Coherent d0 log
  | _ :: log => Coherent d0 log

/-- The inodes that have been created and whose sector has not been released. -/
def liveOf : List Access → Set Sector
  | [] => ∅
  | .create s :: log => insert s (liveOf log)
  | .release s :: log => liveOf log \ {s}
  | _ :: log => liveOf log

def FS.live (fs : FS) : Set Sector := liveOf fs.log

/-- The store between two accesses. -/
structure StoreOk (d0 : Disk) (fs : FS) : Prop where
  inv : CacheInv fs.store
  coherent : Coherent d0 fs.log
  written : lastWritten d0 fs.log = fs.store.view

/-- Two states that differ in the store and in the accesses logged only. -/
structure SameRest (fs fs' : FS) : Prop where
  freeMap : fs'.freeMap = fs.freeMap
  freeMapFile : fs'.freeMapFile = fs.freeMapFile
  openInodes : fs'.openInodes = fs.openInodes
  locked : fs'.locked = fs.locked
  garbage : fs'.garbage = fs.garbage
  live : fs'.live = fs.live

theorem SameRest.refl (fs : FS) : SameRest fs fs := (by constructor <;> rfl)

theorem SameRest.trans {a b c : FS} (h : SameRest a b) (h' : SameRest b c) : SameRest a c :=
  ⟨h'.freeMap.trans h.freeMap, h'.freeMapFile.trans h.freeMapFile,
    h'.openInodes.trans h.openInodes, h'.locked.trans h.locked, h'.garbage.trans h.garbage,
    h'.live.trans h.live⟩

/-- A call keeps `StoreOk`, caches no sector outside `S` and changes none
outside `W`. -/
structure StoreEff (d0 : Disk) (fs fs' : FS) (S W : Set Sector) : Prop where
  ok : StoreOk d0 fs'
  cached : ∀ s, fs'.store.cached s → fs.store.cached s ∨ s ∈ S
  view : ∀ s, s ∉ W → fs'.store.view s = fs.store.view s

section
variable {d0 : Disk} {fs fs' fs'' : FS} {S S' W W' : Set Sector}

theorem StoreEff.refl (h : StoreOk d0 fs) : StoreEff d0 fs fs S W :=
  ⟨h, fun _ hs => Or.inl hs, fun _ _ => rfl⟩

theorem StoreEff.trans (h : StoreEff d0 fs fs' S W) (h' : StoreEff d0 fs' fs'' S W) :
    StoreEff d0 fs fs'' S W where
  ok := h'.ok
  cached := by
    intro s hs
    rcases h'.cached s hs with hs | hs
    · exact h.cached s hs
    · exact Or.inr hs
  view := by
    intro s hs
    rw [h'.view s hs, h.view s hs]

theorem StoreEff.mono (h : StoreEff d0 fs fs' S W) (hS : S ⊆ S') (hW : W ⊆ W') :
    StoreEff d0 fs fs' S' W' where
  ok := h.ok
  cached := fun s hs => (h.cached s hs).imp id (fun hs => hS hs)
  view := fun s hs => h.view s (fun hmem => hs (hW hmem))

/-! ## Direct accesses -/

theorem StoreOk.diskRead (h : StoreOk d0 fs) {s : Sector} (hs : ¬ fs.store.cached s) :
    StoreOk d0 (fs.diskRead s).2 where
  __ := h
  coherent := by
    refine ⟨?_, h.coherent⟩
    rw [h.written]
    exact (view_of_not_cached hs).symm

theorem view_diskWrite {st : Store} {s : Sector} (hs : ¬ st.cached s) (b : Block) :
    Store.view { st with disk := diskWrite st.disk s b } = update st.view s b := by
  funext u
  by_cases hu : u = s
  · subst hu
    have hs' : ¬ Store.cached { st with disk := diskWrite st.disk u b } u := hs
    rw [update_self, view_of_not_cached hs']
    simp [FileSys.diskWrite]
  · rw [update_of_ne hu]
    unfold Store.view
    simp [FileSys.diskWrite, hu]

theorem StoreOk.diskWrite (h : StoreOk d0 fs) {s : Sector} (hs : ¬ fs.store.cached s) (b : Block) :
    StoreOk d0 (fs.diskWrite s b) ∧
      (fs.diskWrite s b).store.view = update fs.store.view s b := by
  have hview : (fs.diskWrite s b).store.view = update fs.store.view s b :=
    view_diskWrite hs b
  refine ⟨⟨{ h.inv with clean := ?_ }, h.coherent, ?_⟩, hview⟩
  · intro e he hd
    have hne : e.sector ≠ s := by
      rintro rfl
      exact hs ⟨e, he, rfl⟩
    rw [FS.diskWrite_disk, update_of_ne hne]
    exact h.inv.clean e he hd
  · rw [hview, ← h.written]
    rfl

/-! ## Accesses through the cache -/

theorem FS.cacheRead_spec (h : StoreOk d0 fs) (s : Sector) (buffer : Buffer)
    (bytesRead sectorOfs chunkSize : Nat) :
    ∃ fs', fs.cacheRead s buffer bytesRead sectorOfs chunkSize =
        some (copyOut (fs.store.view s) sectorOfs chunkSize buffer bytesRead, fs') ∧
      SameRest fs fs' ∧ StoreEff d0 fs fs' {s} ∅ := by
  obtain ⟨st', heq, hview, hstep⟩ :=
    FileSys.cacheRead_spec h.inv s buffer bytesRead sectorOfs chunkSize
  refine ⟨{ fs with
    store := st'
    log := .cacheRead s sectorOfs chunkSize (fun k =>
      copyOut (fs.store.view s) sectorOfs chunkSize buffer bytesRead (bytesRead + k)) :: fs.log },
    by rw [FS.cacheRead, heq]; rfl, (by constructor <;> rfl), ⟨?_, ?_, ?_⟩⟩
  · refine ⟨hstep.inv, ⟨?_, h.coherent⟩, ?_⟩
    · intro k hk
      rw [h.written]
      unfold copyOut
      beta_reduce
      rw [if_pos ⟨by omega, by omega⟩]
      congr 1
      omega
    · show lastWritten d0 fs.log = st'.view
      rw [hview, h.written]
  · intro u hu
    exact hstep.cached u hu
  · intro u _
    exact congrFun hview u

theorem FS.cacheWrite_spec (h : StoreOk d0 fs) (s : Sector) (buffer : Buffer)
    (bytesRead sectorOfs chunkSize : Nat) :
    ∃ fs', fs.cacheWrite s buffer bytesRead sectorOfs chunkSize = some fs' ∧
      fs'.store.view = update fs.store.view s
        ((fs.store.view s).patch sectorOfs chunkSize buffer bytesRead) ∧
      SameRest fs fs' ∧ StoreEff d0 fs fs' {s} {s} := by
  obtain ⟨st', heq, hview, hstep⟩ :=
    FileSys.cacheWrite_spec h.inv s buffer bytesRead sectorOfs chunkSize
  refine ⟨{ fs with
    store := st'
    log := .cacheWrite s sectorOfs chunkSize (fun k => buffer (bytesRead + k)) :: fs.log },
    by rw [FS.cacheWrite, heq]; rfl, hview, (by constructor <;> rfl),
    ⟨⟨hstep.inv, h.coherent, ?_⟩, hstep.cached, ?_⟩⟩
  · show update (lastWritten d0 fs.log) s _ = st'.view
    rw [hview, h.written]
    congr 1
    apply Arr.ext_get
    intro k hk
    rw [Arr.get_patch _ _ _ _ _ hk, Arr.get_patch _ _ _ _ _ hk]
    simp
  · intro u hu
    show st'.view u = _
    rw [hview, update_of_ne (by simpa using hu)]

theorem FS.cacheWriteBehindLoop_spec (h : StoreOk d0 fs) :
    SameRest fs fs.cacheWriteBehindLoop ∧ StoreEff d0 fs fs.cacheWriteBehindLoop ∅ ∅ := by
  obtain ⟨hinv, hview, -⟩ := FileSys.cacheWriteBehindLoop_spec h.inv
  refine ⟨(by constructor <;> rfl), ⟨hinv, h.coherent, ?_⟩, ?_, ?_⟩
  · show lastWritten d0 fs.log = (FileSys.cacheWriteBehindLoop fs.store).view
    rw [hview, h.written]
  · intro s hs
    left
    rw [← cacheWriteBehindLoop_cached fs.store]
    exact hs
  · intro s _
    exact congrFun hview s

end

end Pintos.FileSys
