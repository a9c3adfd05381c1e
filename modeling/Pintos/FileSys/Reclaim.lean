import Pintos.FileSys.CreateInode
import Pintos.FileSys.Release

/-!
# Handing out and taking back sectors on the volume

`MapEffect` describes a call that changes the free map and may drop inodes. The
rest of the volume only sees the data sectors of the free map file change, so it
stays in order (`MapEffect.vol`).
-/

namespace Pintos.FileSys

open Lib List FS

/-- The free map has changed, the inodes `E` are gone, and besides them only the
data sectors `D` of the free map file are touched. -/
structure MapEffect (d0 : Disk) (fs fs' : FS) (D E : Set Sector) : Prop where
  store : StoreOk d0 fs'
  nodup : OpenNodup fs'
  live : fs'.live = fs.live \ E
  find : ∀ j, j ∉ E → fs'.inode? j = fs.inode? j
  gone : ∀ j ∈ E, fs'.inode? j = none
  locked : fs'.locked = fs.locked
  freeMapFile : fs'.freeMapFile = fs.freeMapFile
  size : fs'.freeMap.length = fs.freeMap.length
  view : ∀ u, u ∉ D → fs'.store.view u = fs.store.view u
  cached : ∀ u, fs'.store.cached u → fs.store.cached u ∨ u ∈ D
  used : ∀ l ∈ fs.taken, l.1 ∉ E → fs'.isUsed (fs.place l)

section
variable {d0 : Disk} {fs fs' : FS} {D N E : Set Sector}

section
variable (he : MapEffect d0 fs fs' D E) (h : Vol d0 fs) (hm : MapReady fs D N)
include he h hm

variable {j : Sector}

theorem MapEffect.node (hj : j ∈ fs.live) (hE : j ∉ E) : fs'.node j = fs.node j := by
  have hv : fs'.store.view j = fs.store.view j :=
    he.view j (h.map_apart hm (mem_taken_none.mpr hj) (.inr rfl)).1
  unfold FS.node
  rw [he.find j hE, hv]

theorem MapEffect.slot (hj : j ∈ fs.live) (hE : j ∉ E) {a : Slot}
    (ha : a.used (fs.node j).sectors) :
    sectorOf fs'.store.view (fs'.node j) a = sectorOf fs.store.view (fs.node j) a := by
  rw [he.node h hm hj hE]
  refine sectorOf_frame ?_ a ha
  intro b hb hu
  have hl : (j, some b) ∈ fs.taken := mem_taken_some.mpr ⟨hj, hu⟩
  exact he.view _ (h.direct_not_map hm hl hb)

theorem MapEffect.place {l : Place} (hl : l ∈ fs'.taken) :
    l ∈ fs.taken ∧ l.1 ∉ E ∧ fs'.place l = fs.place l := by
  obtain ⟨j, a⟩ := l
  have hj : j ∈ fs.live \ E := he.live ▸ hl.1
  cases a with
  | none => exact ⟨mem_taken_none.mpr hj.1, hj.2, rfl⟩
  | some a =>
    have ha := (mem_taken_some.mp hl).2
    rw [he.node h hm hj.1 hj.2] at ha
    exact ⟨mem_taken_some.mpr ⟨hj.1, ha⟩, hj.2, he.slot h hm hj.1 hj.2 ha⟩

theorem MapEffect.byte (hj : j ∈ fs.live) (hE : j ∉ E) (h0 : j ≠ FREE_MAP_SECTOR) {k : Nat}
    (hk : k / 512 < (fs.node j).sectors) : fs'.byte j k = fs.byte j k := by
  have hl : (j, some (.data (k / 512))) ∈ fs.taken := mem_taken_some.mpr ⟨hj, hk⟩
  have hv := he.view _ (h.map_apart hm hl (.inl h0)).1
  unfold FS.byte fileByte
  rw [he.slot h hm hj hE (a := .data (k / 512)) hk]
  exact congrArg (fun b : Block => b.get (k % 512)) hv

theorem MapEffect.frame : Frame fs fs' E where
  live := by
    intro i hi
    rw [he.live]
    exact ⟨fun hl => hl.1, fun hl => ⟨hl, hi⟩⟩
  node := fun i hl hi => he.node h hm hl hi
  byte := fun i hl hi h0 k hk => he.byte h hm hl hi h0 hk
  removed := fun i hi => isRemoved_congr (he.find i hi)

theorem MapEffect.shown (hj : j ∈ fs.live) (hE : j ∉ E) :
    fs'.shown j = fs.shown j := by
  unfold FS.shown
  rw [he.find j hE, he.node h hm hj hE]

theorem MapEffect.vol : Vol d0 fs' where
  __ := he
  size := by
    rw [he.size]
    exact h.size
  core := by
    intro i hi
    have hi' : i ∈ fs.live \ E := he.live ▸ hi
    rw [he.node h hm hi'.1 hi'.2]
    exact h.core i hi'.1
  opened := by
    intro i ino hino
    by_cases hE : i ∈ E
    · rw [he.gone i hE] at hino
      cases hino
    · rw [he.find i hE] at hino
      obtain ⟨hl, hok⟩ := h.opened i ino hino
      refine ⟨?_, hok⟩
      rw [he.live]
      exact ⟨hl, hE⟩
  inj := by
    intro l hl l' hl' heq
    obtain ⟨ht, -, hp⟩ := he.place h hm hl
    obtain ⟨ht', -, hp'⟩ := he.place h hm hl'
    rw [hp, hp'] at heq
    exact h.inj ht ht' heq
  used := by
    intro l hl
    obtain ⟨ht, hE, hp⟩ := he.place h hm hl
    rw [hp]
    exact he.used l ht hE
  direct := by
    intro l hl hd hc
    obtain ⟨ht, -, hp⟩ := he.place h hm hl
    rw [hp] at hc
    rcases he.cached _ hc with hc | hc
    · exact h.direct l ht hd hc
    · exact h.direct_not_map hm ht hd hc
  slack := by
    intro i hi h0 k hlen hk
    have hi' : i ∈ fs.live \ E := he.live ▸ hi
    rw [he.node h hm hi'.1 hi'.2] at hlen hk
    rw [he.byte h hm hi'.1 hi'.2 h0 hk]
    exact h.slack i hi'.1 h0 k hlen hk

end

theorem MapEffect.mounted (he : MapEffect d0 fs fs' D E) (h : Mounted d0 fs)
    (hm : MapReady fs D N) (hm' : MapReady fs' D N) : Mounted d0 fs' := by
  refine Mounted.of_mapReady (he.vol h.vol hm) hm' ?_ ?_
  · rw [he.freeMapFile, h.file]
    simp
  · intro i hi hd
    have hi' : i ∈ fs.live \ E := he.live ▸ hi
    rw [he.node h.vol hm hi'.1 hi'.2] at hd ⊢
    rw [he.shown h.vol hm hi'.1 hi'.2]
    exact h.whole i hi'.1 (.inl hd)

end

/-! ## free_map_allocate -/

section
variable {d0 : Disk} {fs fs' : FS} {D N : Set Sector} {m : Nat}

theorem allocate_spec (h : Vol d0 fs) (hm : MapReady fs D N)
    (hlock0 : fs.locked FREE_MAP_SECTOR = false) (hb : Budget fs (m + 1)) :
    ∃ s fs', (freeMapOps 1).allocate fs = some (some s, fs') ∧ MapReady fs' D N ∧
      MapEffect d0 fs fs' D ∅ ∧ Loose fs' s ∧ fs.isFree s ∧ Spent fs fs' m ∧
      ∀ u, fs'.isUsed u ↔ u = s ∨ fs.isUsed u := by
  obtain ⟨k, rest, hfree⟩ : ∃ k rest, freeBits fs.freeMap = k :: rest :=
    List.exists_cons_of_length_pos (by have := hb.1; omega)
  have hbit : fs.freeMap[k]? = some false := mem_freeBits.mp (hfree ▸ List.mem_cons_self ..)
  have hk : (UInt32.ofNat k).toNat = k :=
    toNat_ofNat (by have := (List.getElem?_eq_some_iff.mp hbit).1; have := h.size; omega)
  have hs : fs.isFree (UInt32.ofNat k) := by
    unfold FS.isFree
    rw [hk]
    exact hbit
  obtain ⟨fs', heq, hrest, heff, hready⟩ := freeMapAllocate_spec (freeMapOps 0) h.store h.nodup hm
    hlock0 hfree h.size
  have hmap : fs'.freeMap = (fs.markUsed (UInt32.ofNat k)).freeMap := hrest.freeMap
  have hused : ∀ u, fs'.isUsed u ↔ u = UInt32.ofNat k ∨ fs.isUsed u := by
    exact fun u => (isUsed_congr hmap).trans (isUsed_markUsed hs u)
  have he : MapEffect d0 fs fs' D ∅ := by
    refine ⟨heff.ok, ?_, ?_, ?_, fun _ hj => absurd hj (fun hj => hj), hrest.locked,
      hrest.freeMapFile, ?_, heff.view, heff.cached, ?_⟩
    · exact h.nodup.congr hrest.openInodes
    · rw [Set.sdiff_empty]
      exact hrest.live
    · exact fun j _ => hrest.inode? j
    · rw [hmap]
      exact List.length_set
    · exact fun l hl _ => (hused _).mpr (Or.inr (h.used l hl))
  have hcached : ∀ u, fs'.store.cached u → fs.store.cached u ∨ fs.isUsed u := fun u hu =>
    (heff.cached u hu).imp id (fun hu => h.map_used hm u (Or.inl hu))
  refine ⟨UInt32.ofNat k, fs', heq, hready, he, ⟨(hused _).mpr (Or.inl rfl), ?_, ?_⟩, hs, ⟨he.size,
    fun u hu => (hused u).mpr (Or.inr hu), fun u hu => ?_, ?_⟩, hused⟩
  · -- the budget covers this sector
    intro hc
    rcases hcached _ hc with hc | hc
    · refine hb.2 k ?_ hc
      rw [hfree]
      simp
    · exact hc.not_free hs
  · intro l hl heq
    obtain ⟨ht, -, hp⟩ := he.place h hm hl
    rw [hp] at heq
    have := h.used l ht
    rw [heq] at this
    exact this.not_free hs
  · rcases hcached u hu with hu | hu
    · exact Or.inl hu
    · exact Or.inr ((hused u).mpr (Or.inr hu))
  · refine hb.spend hfree ?_ h.size (fun u hu => (hcached u hu).imp id (fun hu => hu.not_free))
    rw [hmap]
    show fs.freeMap.set (UInt32.ofNat k).toNat true = _
    rw [hk]

/-! ## free_map_release -/

/-- Sectors of inode `s` are being given back from `fs` on, in the order of
`total`; `rest` is what is left. -/
structure Freeing (d0 : Disk) (fs : FS) (s : Sector) (D N : Set Sector) (total : List Sector)
    (fs' : FS) (rest : List Sector) : Prop where
  store : StoreOk d0 fs'
  ready : MapReady fs' D N
  nodup : OpenNodup fs'
  find : ∀ j, fs'.inode? j = if j = s then none else fs.inode? j
  live : ∀ j, j ∈ fs'.live ↔ j ∈ fs.live ∧ (j = s → s ∈ rest)
  locked : fs'.locked = fs.locked
  freeMapFile : fs'.freeMapFile = fs.freeMapFile
  size : fs'.freeMap.length = fs.freeMap.length
  used : ∀ u, fs'.isUsed u ↔ fs.isUsed u ∧ (u ∈ total → u ∈ rest)
  view : ∀ u, u ∉ D → fs'.store.view u = fs.store.view u
  cached : ∀ u, fs'.store.cached u → fs.store.cached u ∨ u ∈ D
  left : rest.Nodup ∧ ∀ u ∈ rest, u ∈ total

variable {s : Sector} {total rest : List Sector}

theorem freeing_laws (h : Vol d0 fs) (hm : MapReady fs D N) (hfile : fs.freeMapFile ≠ none)
    (hlock0 : fs.locked FREE_MAP_SECTOR = false)
    (htotal : ∀ u ∈ total, ∃ l ∈ fs.taken, l.1 = s ∧ fs.place l = u) :
    ReleaseLaws (freeMapOps 1) fs.store.view
      {u | ∃ l ∈ fs.taken, l.isDirect ∧ fs.place l = u} (Freeing d0 fs s D N total) where
  release := by
    intro fs1 u rest hf
    obtain ⟨hnodup, hsub⟩ := hf.left
    obtain ⟨l, hl, hls, hlu⟩ := htotal u (hsub u (mem_cons_self ..))
    have hu : fs1.isUsed u := by
      refine (hf.used u).mpr ⟨?_, fun _ => mem_cons_self ..⟩
      rw [← hlu]
      exact h.used l hl
    obtain ⟨fs', heq, hrest, heff, hready⟩ := freeMapRelease_spec (freeMapOps 0) hf.store hf.nodup
      hf.ready (by rw [hf.freeMapFile]; exact hfile) (by rw [hf.locked]; exact hlock0) hu
    have hmap : fs'.freeMap = (fs1.markFree u).freeMap := hrest.freeMap
    refine ⟨fs', heq, heff.ok, hready, ?_, fun j => (hrest.inode? j).trans (hf.find j), ?_,
      hrest.locked.trans hf.locked, hrest.freeMapFile.trans hf.freeMapFile, ?_, ?_, ?_, ?_,
      (nodup_cons.mp hnodup).2, fun v hv => hsub v (mem_cons_of_mem _ hv)⟩
    · exact hf.nodup.congr hrest.openInodes
    · -- among the sectors of `s` only `s` itself is an inode
      intro j
      have hlive : fs'.live = fs1.live \ {u} := hrest.live
      have hmem : j ∈ fs'.live ↔ j ∈ fs1.live ∧ j ≠ u := by
        rw [hlive]
        exact Iff.rfl
      rw [hmem, hf.live]
      have hus : j = u → j ∈ fs.live → j = s := by
        intro hju hj
        have := h.inj hl (mem_taken_none.mpr hj) (hlu.trans hju.symm)
        rw [this] at hls
        exact hls
      have hnot := (nodup_cons.mp hnodup).1
      constructor
      · rintro ⟨⟨hj, hin⟩, hne⟩
        refine ⟨hj, fun hjs => ?_⟩
        rcases mem_cons.mp (hin hjs) with hsu | hs
        · exact absurd (hjs.trans hsu) hne
        · exact hs
      · rintro ⟨hj, hin⟩
        refine ⟨⟨hj, fun hjs => mem_cons_of_mem _ (hin hjs)⟩, fun hju => ?_⟩
        have hjs := hus hju hj
        exact hnot (hju ▸ hjs ▸ hin hjs)
    · rw [hmap]
      exact (length_set).trans hf.size
    · intro v
      have hiff : fs'.isUsed v ↔ fs1.isUsed v ∧ v ≠ u := 
        (isUsed_congr hmap).trans (isUsed_markFree hu v)
      rw [hiff, hf.used]
      have hnot := (nodup_cons.mp hnodup).1
      have hut := hsub u (mem_cons_self ..)
      constructor
      · rintro ⟨⟨hv, hin⟩, hne⟩
        exact ⟨hv, fun ht => (mem_cons.mp (hin ht)).resolve_left hne⟩
      · rintro ⟨hv, hin⟩
        refine ⟨⟨hv, fun ht => mem_cons_of_mem _ (hin ht)⟩, ?_⟩
        rintro rfl
        exact hnot (hin hut)
    · intro v hv
      rw [heff.view v hv]
      exact hf.view v hv
    · intro v hv
      rcases heff.cached v hv with hc | hc
      · exact hf.cached v hc
      · exact .inr hc
  read := by
    rintro fs1 u rest hf - ⟨l, hl, hd, rfl⟩
    have hD : fs.place l ∉ D := h.direct_not_map hm hl hd
    have hc : ¬ fs1.store.cached (fs.place l) := by
      intro hc
      rcases hf.cached _ hc with hc | hc
      · exact h.direct l hl hd hc
      · exact hD hc
    refine ⟨?_, hf.store.diskRead hc, hf.ready.frame rfl rfl rfl (fun _ _ => rfl) (fun _ _ h => h),
      hf.nodup, hf.find, hf.live, hf.locked, hf.freeMapFile, hf.size, hf.used, hf.view, hf.cached,
      hf.left⟩
    rw [← view_of_not_cached hc]
    exact hf.view _ hD

theorem Freeing.effect (hf : Freeing d0 fs s D N total fs' []) (h : Vol d0 fs)
    (htotal : ∀ u ∈ total, ∃ l ∈ fs.taken, l.1 = s ∧ fs.place l = u) :
    MapEffect d0 fs fs' D {s} where
  __ := hf
  live := by
    ext j
    rw [hf.live]
    simp
  find := by
    intro j hj
    rw [hf.find, if_neg (show ¬ j = s from hj)]
  gone := by
    intro j hj
    rw [hf.find, if_pos (show j = s from hj)]
  used := by
    intro l hl hne
    refine (hf.used _).mpr ⟨h.used l hl, fun hmem => ?_⟩
    obtain ⟨l', hl', hs, heq⟩ := htotal _ hmem
    have := h.inj hl' hl heq
    subst this
    exact absurd hs hne

/-- `free_map_release` of an inode that is not open. -/
theorem release_spec (h : Vol d0 fs) (hm : MapReady fs D N) (hfile : fs.freeMapFile ≠ none)
    (hlock0 : fs.locked FREE_MAP_SECTOR = false) (hs : s ∈ fs.live) (hclosed : fs.inode? s = none) :
    ∃ fs', (freeMapOps 1).release fs s = some fs' ∧ MapReady fs' D N ∧
      MapEffect d0 fs fs' D {s} ∧ ∀ u, fs'.isUsed u ↔ fs.isUsed u ∧ u ≠ s := by
  have htotal : ∀ u ∈ [s], ∃ l ∈ fs.taken, l.1 = s ∧ fs.place l = u := by
    intro u hu
    rw [mem_singleton] at hu
    exact ⟨(s, none), mem_taken_none.mpr hs, rfl, hu.symm⟩
  have hstart : Freeing d0 fs s D N [s] fs [s] := by
    refine ⟨h.store, hm, h.nodup, ?_, by simp, rfl, rfl, rfl, by simp, fun _ _ => rfl,
      fun _ hc => .inl hc, by simp, by simp⟩
    intro j
    by_cases hj : j = s
    · rw [if_pos hj, hj, hclosed]
    · rw [if_neg hj]
  obtain ⟨fs', heq, hf⟩ := (freeing_laws h hm hfile hlock0 htotal).release hstart
  refine ⟨fs', heq, hf.ready, hf.effect h htotal, fun u => ?_⟩
  rw [hf.used]
  simp

/-! ## The last inode_close of a removed inode -/

variable {i : Sector} {ino : Inode}

/-- The sectors that the last `inode_close` of a removed inode gives back. -/
def FS.releasedSectors (fs : FS) (i : Sector) : List Sector :=
  i :: (releaseOrder (fs.node i).sectors).map fun a => fs.place (i, some a)

theorem Vol.mem_releasedSectors (h : Vol d0 fs) (hi : i ∈ fs.live) {u : Sector} :
    u ∈ fs.releasedSectors i ↔ ∃ l ∈ fs.taken, l.1 = i ∧ fs.place l = u := by
  have hcap := sectors_of_length_le (h.core i hi).nonneg (h.core i hi).bound
  unfold FS.releasedSectors
  rw [mem_cons, mem_map]
  constructor
  · rintro (rfl | ⟨a, ha, rfl⟩)
    · exact ⟨(u, none), mem_taken_none.mpr hi, rfl, rfl⟩
    · exact ⟨(i, some a), mem_taken_some.mpr ⟨hi, (mem_releaseOrder hcap).mp ha⟩, rfl, rfl⟩
  · rintro ⟨⟨j, a⟩, hl, rfl, rfl⟩
    cases a with
    | none => exact .inl rfl
    | some a =>
      exact .inr ⟨a, (mem_releaseOrder hcap).mpr (mem_taken_some.mp hl).2, rfl⟩

theorem Vol.releasedSectors_nodup (h : Vol d0 fs) (hi : i ∈ fs.live) :
    (fs.releasedSectors i).Nodup := by
  have hcap := sectors_of_length_le (h.core i hi).nonneg (h.core i hi).bound
  have htaken : ∀ a ∈ releaseOrder (fs.node i).sectors, (i, some a) ∈ fs.taken := fun a ha =>
    mem_taken_some.mpr ⟨hi, (mem_releaseOrder hcap).mp ha⟩
  unfold FS.releasedSectors
  rw [nodup_cons, mem_map]
  constructor
  · rintro ⟨a, ha, heq⟩
    exact h.place_ne (htaken a ha) (mem_taken_none.mpr hi) (by simp) heq
  · refine List.Nodup.map_on ?_ (releaseOrder_nodup hcap)
    intro a ha b hb heq
    have := h.inj (htaken a ha) (htaken b hb) heq
    simpa using this

/-- **The last `inode_close` of a removed inode** takes it off the volume. -/
theorem inodeClose_removed (h : Mounted d0 fs) (hlock0 : fs.locked FREE_MAP_SECTOR = false)
    (hino : fs.inode? i = some ino) (h0 : i ≠ FREE_MAP_SECTOR) (hlast : ino.openCnt = 1)
    (hrem : ino.removed = true) :
    ∃ fs', inodeClose (freeMapOps 1) fs i = some fs' ∧ Mounted d0 fs' ∧
      MapEffect d0 fs fs' fs.mapData {i} ∧
      ∀ u, fs'.isUsed u ↔ fs.isUsed u ∧ u ∉ fs.releasedSectors i := by
  have hi := (h.vol.opened i ino hino).1
  have hnode := node_of_open hino
  have hsec : ino.sector = i := inode?_sector hino
  have hcore := h.vol.coreOk_open hino
  have hcap : bytesToSectors ino.length ≤ CAPACITY := sectors_of_length_le hcore.nonneg hcore.bound
  set n := bytesToSectors ino.length with hn
  have hnn : (fs.node i).sectors = n := by
    rw [hnode]
    rfl
  have htotal : ∀ u ∈ fs.releasedSectors i, ∃ l ∈ fs.taken, l.1 = i ∧ fs.place l = u :=
    fun u hu => (h.vol.mem_releasedSectors hi).mp hu
  have hfile : fs.freeMapFile ≠ none := by
    rw [h.file]
    simp
  have laws := freeing_laws h.vol h.mapReady hfile hlock0 htotal
  have hstart : Freeing d0 fs i fs.mapData fs.mapIndex (fs.releasedSectors i) (fs.removeInode i)
      (fs.releasedSectors i) := by
    refine ⟨{ h.vol.store with },
      h.mapReady.frame rfl rfl ?_ (fun _ _ => rfl) (fun _ _ hc => hc), h.vol.nodup.removeInode i,
      inode?_removeInode h.vol.nodup i, ?_, rfl, rfl, rfl, fun u => ?_, fun _ _ => rfl,
      fun _ hc => .inl hc, h.vol.releasedSectors_nodup hi, fun _ hu => hu⟩
    · rw [inode?_removeInode h.vol.nodup, if_neg h0.symm]
    · intro j
      exact ⟨fun hj => ⟨hj, fun _ => mem_cons_self ..⟩, fun hj => hj.1⟩
    · exact ⟨fun hu => ⟨hu, id⟩, fun hu => hu.1⟩
  obtain ⟨fs1, heq1, hok1⟩ := laws.release hstart
  have horder : (releaseOrder (fs.node i).sectors).map (fun a => fs.place (i, some a)) =
      (releaseOrder n).map (sectorOf fs.store.view ino) := by
    rw [hnn]
    refine map_congr_left fun a _ => ?_
    show sectorOf fs.store.view (fs.node i) a = _
    rw [hnode]
  have hclose : ∃ fs', inodeClose (freeMapOps 1) fs i = some fs' ∧
      Freeing d0 fs i fs.mapData fs.mapIndex (fs.releasedSectors i) fs' [] := by
    have hstep : inodeClose (freeMapOps 1) fs i =
        if n ≠ 0 then
          releaseLoop (freeMapOps 1) { ino with openCnt := ino.openCnt - 1 } (NUM_PTRS + 1) fs1 0 n
        else some fs1 := by
      simp only [inodeClose, hino, some_bind, hlast, hrem, if_true,
        hsec, heq1, Int.sub_self, ← hn]
    rw [hstep]
    by_cases hz : n = 0
    · rw [if_neg (by simp [hz])]
      refine ⟨fs1, rfl, ?_⟩
      rw [horder, hz] at hok1
      exact hok1
    · rw [if_pos hz]
      have hok : Freeing d0 fs i fs.mapData fs.mapIndex (fs.releasedSectors i) fs1
          (((List.range' 0 (15 - 0)).flatMap (topOrder n)).map
            (sectorOf fs.store.view ino)) := by
        rw [← range_eq_range']
        rw [horder] at hok1
        exact hok1
      refine releaseLoop_spec laws { ino with openCnt := ino.openCnt - 1 } (by omega)
        (by decide) ?_ hcap ?_ hok
      · exact hcore.cursor.ptrIdx
      · -- index blocks are read past the cache
        intro a hidx hu
        refine ⟨(i, some a), mem_taken_some.mpr ⟨hi, by rw [hnn]; exact hu⟩, hidx, ?_⟩
        show sectorOf fs.store.view (fs.node i) a = _
        rw [hnode]
  obtain ⟨fs', heq, hf⟩ := hclose
  have he := hf.effect h.vol htotal
  refine ⟨fs', heq, he.mounted h h.mapReady hf.ready, he, fun u => ?_⟩
  rw [hf.used]
  simp

end

end Pintos.FileSys
