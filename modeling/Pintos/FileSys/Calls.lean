import Pintos.FileSys.Namespace
import Pintos.FileSys.Filesys

/-!
# What the calls have in common

`Calm` collects what every call keeps that frees nothing: the locks, files that
can be read to their end, sectors in use, and that only sectors in use enter the
cache.
-/

namespace Pintos.FileSys

open Lib Function

/-- Every file can be read to its end. -/
def AllShown (fs : FS) : Prop := ∀ i ∈ fs.live, fs.shown i = (fs.node i).length

def FreeUncached (fs : FS) : Prop := ∀ s, fs.isFree s → ¬ fs.store.cached s

/-- A call that frees nothing. -/
structure Calm (fs fs' : FS) : Prop where
  locked : fs'.locked = fs.locked
  shown : AllShown fs → AllShown fs'
  size : fs'.freeMap.length = fs.freeMap.length
  used : ∀ s, fs.isUsed s → fs'.isUsed s
  cached : ∀ s, fs'.store.cached s → fs.store.cached s ∨ fs'.isUsed s

section
variable {d0 : Disk} {fs fs' fs'' : FS} {i s : Sector} {m : Nat}

theorem Calm.trans (h : Calm fs fs') (h' : Calm fs' fs'') : Calm fs fs'' where
  locked := h'.locked.trans h.locked
  shown := fun hs => h'.shown (h.shown hs)
  size := h'.size.trans h.size
  used := fun s hs => h'.used s (h.used s hs)
  cached := by
    intro s hs
    rcases h'.cached s hs with hs | hs
    · exact (h.cached s hs).imp id (h'.used s)
    · exact .inr hs

theorem FS.isFree_or_isUsed (h : s.toNat < fs.freeMap.length) : fs.isFree s ∨ fs.isUsed s := by
  unfold FS.isFree FS.isUsed
  rw [List.getElem?_eq_getElem h]
  cases fs.freeMap[s.toNat] <;> simp

/-- Free sectors stay out of the cache if none is given back and only sectors in use
enter it. -/
theorem FreeUncached.keep (hu : FreeUncached fs) (hsize : fs'.freeMap.length = fs.freeMap.length)
    (hused : ∀ s, fs.isUsed s → fs'.isUsed s)
    (hcached : ∀ s, fs'.store.cached s → fs.store.cached s ∨ fs'.isUsed s) : FreeUncached fs' := by
  intro s hfree hc
  rcases hcached s hc with hc | hc
  · have hlt : s.toNat < fs.freeMap.length := hsize ▸ hfree.lt
    rcases FS.isFree_or_isUsed hlt with hf | hf
    · exact hu s hf hc
    · exact (hused s hf).not_free hfree
  · exact hc.not_free hfree

theorem Calm.freeUncached (h : Calm fs fs') (hu : FreeUncached fs) : FreeUncached fs' :=
  hu.keep h.size h.used h.cached

theorem Spent.freeUncached (h : Spent fs fs' m) (hu : FreeUncached fs) : FreeUncached fs' :=
  hu.keep h.size h.used h.cached

/-- Free sectors that are not cached are a budget. -/
theorem FreeUncached.budget (h : FreeUncached fs) (hsize : fs.freeMap.length ≤ 4294967296)
    (hm : m ≤ (freeBits fs.freeMap).length) : Budget fs m := by
  refine ⟨hm, fun k hk => h _ ?_⟩
  have hbit : fs.freeMap[k]? = some false := mem_freeBits.mp (List.mem_of_mem_take hk)
  have hlt := (List.getElem?_eq_some_iff.mp hbit).1
  unfold FS.isFree
  rw [toNat_ofNat (by omega)]
  exact hbit

theorem Quiet.calm (h : Quiet fs fs') : Calm fs fs' := by
  have hused : ∀ s, fs.isUsed s → fs'.isUsed s := by
    intro s hs
    unfold FS.isUsed at hs ⊢
    rwa [h.freeMap]
  refine ⟨h.locked, ?_, by rw [h.freeMap], hused, fun s hs => (h.cached s hs).imp id (hused s)⟩
  intro hall i hi
  rw [h.live] at hi
  rw [h.node i hi]
  rcases h.shown i hi with hs | hs
  · rw [hs]
    exact hall i hi
  · exact hs

theorem FS.shown_congr (hfind : fs'.inode? i = fs.inode? i) (hnode : fs'.node i = fs.node i) :
    fs'.shown i = fs.shown i := by
  unfold FS.shown
  rw [hfind, hnode]

theorem Touched.calm (h : Touched fs fs' i m) (hi : fs'.shown i = (fs'.node i).length) :
    Calm fs fs' := by
  refine { h.spent with locked := h.locked, shown := ?_ }
  intro hall j hj
  rw [h.live] at hj
  by_cases hji : j = i
  · rw [hji]
    exact hi
  · rw [FS.shown_congr (h.others j hji) (h.frame.node j hj hji), h.frame.node j hj hji]
    exact hall j hj

theorem Created.calm {len : Int} {isDir : Bool} (h : Created fs fs' s len isDir m)
    (hclosed : fs.inode? s = none) : Calm fs fs' := by
  refine { h.spent with locked := h.locked, shown := ?_ }
  intro hall j hj
  by_cases hjs : j = s
  · rw [hjs, FS.shown_of_closed ((h.inodes s).trans hclosed)]
  · rw [h.live] at hj
    have hj' := Set.mem_of_mem_insert_of_ne hj hjs
    rw [FS.shown_congr (h.inodes j) (h.frame.node j hj' hjs), h.frame.node j hj' hjs]
    exact hall j hj'

/-! ## Locks -/

theorem lockAcquire_eq (h : fs.locked i = false) :
    fs.lockAcquire i = some { fs with locked := update fs.locked i true } := by
  unfold FS.lockAcquire
  rw [h]
  simp

theorem lockRelease_eq {l : Sector → Bool} (h : fs.locked = update l i true)
    (hl : l i = false) : fs.lockRelease i = some { fs with locked := l } := by
  unfold FS.lockRelease
  rw [h, update_self, if_pos rfl, update_idem, ← hl, update_eq_self]

theorem Mounted.lock (h : Mounted d0 fs) (l : Sector → Bool) : Mounted d0 { fs with locked := l } :=
  { h with vol := h.vol.lock l }

theorem NamespaceOk.lock {X : Set Sector} (h : NamespaceOk d0 fs X) (l : Sector → Bool) :
    NamespaceOk d0 { fs with locked := l } X :=
  { h with mounted := h.mounted.lock l }

theorem Quiet.relock {l : Sector → Bool} (h : Quiet { fs with locked := l } fs') :
    Quiet fs { fs' with locked := fs.locked } :=
  ⟨h.live, h.node, h.byte, h.removed, h.shown, h.freeMap, h.freeMapFile, rfl, h.cached⟩

/-! ## A new inode -/

variable {D N : Set Sector}

/-- A sector that belongs to no inode stays so when the free map changes. -/
theorem MapEffect.loose (he : MapEffect d0 fs fs' D ∅) (h : Vol d0 fs) (hm : MapReady fs D N)
    (hused : ∀ u, fs.isUsed u → fs'.isUsed u) (hs : Loose fs s) : Loose fs' s := by
  refine ⟨hused s hs.used, fun hc => ?_, fun l hl heq => ?_⟩
  · rcases he.cached s hc with hc | hc
    · exact hs.direct hc
    · obtain ⟨a, ha, heq⟩ := h.map_place hm (.inl hc)
      exact hs.apart _ ha heq.symm
  · obtain ⟨hl, -, hp⟩ := he.place h hm hl
    exact hs.apart l hl (hp.symm.trans heq)

theorem createInode_spec {length len : Int} (isDir : Bool) (h : Attached d0 fs)
    (hlock0 : fs.locked FREE_MAP_SECTOR = false) (h0 : 0 ≤ length)
    (hlen : len = cappedLength length) (hsame : SameSecond 0 (bytesToSectors len))
    (hb : Budget fs (m + blocksFor (bytesToSectors len) + 1)) :
    ∃ s fs₁ fs₂, (freeMapOps 1).allocate fs = some (some s, fs₁) ∧
      inodeCreate (freeMapOps 1) fs₁ s length isDir = some (true, fs₂) ∧ Attached d0 fs₂ ∧
      fs.isFree s ∧ s ∉ fs.live ∧ Created fs fs₂ s len isDir m := by
  have hready := h.mapReady
  obtain ⟨s, fs₁, heq1, hready1, he, hs, hfree, hspent, hused⟩ :=
    allocate_spec h.vol hready hlock0 hb
  have hlive1 : fs₁.live = fs.live := by rw [he.live, Set.sdiff_empty]
  obtain ⟨fs₂, heq2, hvol2, hready2, hc⟩ : ∃ fs₂, inodeCreate (freeMapOps 1) fs₁ s length isDir =
      some (true, fs₂) ∧ Vol d0 fs₂ ∧ MapReady fs₂ fs.mapData fs.mapIndex ∧
      Created fs₁ fs₂ s len isDir _ :=
    inodeCreate_spec (he.vol h.vol hready) hready1 hs (by rw [he.locked]; exact hlock0) h0 hlen
      hsame hspent.budget (Nat.le_add_left _ _)
  rw [Nat.add_sub_cancel] at hc
  have hframe : Frame fs fs₂ {s} :=
    ((he.frame h.vol hready).mono (Set.empty_subset _)).trans hc.frame
  refine ⟨s, fs₁, fs₂, heq1, heq2, Attached.of_mapReady hvol2 hready2 ?_, hfree,
    hlive1 ▸ hs.not_live, hframe, by rw [hc.live, hlive1], fun j => ?_, hc.locked.trans he.locked,
    hc.freeMapFile.trans he.freeMapFile, hc.length, hc.kind, hc.parent, hc.zero,
    hspent.trans hc.spent, fun u hu hl => hc.loose u hu (he.loose h.vol hready hspent.used hl),
    fun a ha => ?_, fun hz u hu => ?_⟩
  · rw [hc.freeMapFile, he.freeMapFile, h.file]
    simp
  · exact (hc.inodes j).trans (he.find j (fun hj => hj))
  · have hfree1 := hc.fresh a ha
    rcases FS.isFree_or_isUsed (hspent.size ▸ hfree1.lt) with hf | hf
    · exact hf
    · exact absurd hfree1 ((hused _).mpr (.inr hf)).not_free
  · rcases hc.empty hz u hu with hu | hu
    · exact ((hused u).mp hu).symm
    · exact .inr hu

theorem createFile_spec {initialSize : Int} (isDir : Bool) (h : Attached d0 fs)
    (hlock0 : fs.locked FREE_MAP_SECTOR = false) (h0 : 0 ≤ initialSize)
    (hsame : SameSecond 0 (bytesToSectors (cappedLength initialSize)))
    (hb : Budget fs (m + blocksFor (bytesToSectors (cappedLength initialSize)) + 1)) :
    ∃ s fs', createFile fs initialSize isDir = some (some s, fs') ∧ Attached d0 fs' ∧
      fs.isFree s ∧ s ∉ fs.live ∧ Created fs fs' s (cappedLength initialSize) isDir m := by
  obtain ⟨s, fs1, fs2, halloc, hcreate, ha, hfree, hnew, hc⟩ :=
    createInode_spec isDir h hlock0 h0 rfl hsame hb
  refine ⟨s, fs2, ?_, ha, hfree, hnew, hc⟩
  simp only [createFile, releaseOnFailure, halloc, hcreate, some_bind,
    if_true, Bool.not_true, Bool.false_eq_true, false_and, if_false]

theorem createFile_full {initialSize : Int} (isDir : Bool) (hfull : freeBits fs.freeMap = []) :
    createFile fs initialSize isDir = some (none, fs) := by
  have halloc : (freeMapOps 1).allocate fs = some (none, fs) :=
    freeMapAllocate_full (freeMapOps 0) hfull
  simp only [createFile, halloc, some_bind]

theorem Vol.closed_of_not_live (h : Vol d0 fs) (hs : s ∉ fs.live) : fs.inode? s = none := by
  cases hino : fs.inode? s with
  | none => rfl
  | some ino => exact absurd (h.opened s ino hino).1 hs

theorem Created.mounted {len : Int} {isDir : Bool} (hc : Created fs fs' s len isDir m)
    (h : Mounted d0 fs) (ha : Attached d0 fs') (hs : s ∉ fs.live) : Mounted d0 fs' := by
  refine ha.mounted fun j hj hdir => ?_
  by_cases hjs : j = s
  · rw [hjs]
    exact FS.shown_of_closed ((hc.inodes s).trans (h.vol.closed_of_not_live hs))
  · rw [hc.live] at hj
    have hj' := Set.mem_of_mem_insert_of_ne hj hjs
    have hnode := hc.frame.node j hj' hjs
    rw [hnode] at hdir
    rw [FS.shown_congr (hc.inodes j) hnode, hnode]
    exact h.whole j hj' (.inl hdir)

end

end Pintos.FileSys
