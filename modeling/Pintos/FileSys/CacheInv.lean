import Pintos.FileSys.Cache
import Pintos.Lib.Keyed
import Pintos.Lib.Split

/-!
# The invariant of the buffer cache

`view st s` is the content of sector `s`: its cache entry if it has one, else
the disk. `CacheInv` is what holds between two calls.
-/

namespace Pintos.FileSys

open Lib List Function

variable {st : Store} {s : Sector}

def Store.cached (st : Store) (s : Sector) : Prop := ∃ e ∈ st.bufferCacheList, e.sector = s

/-- The content of a sector: its cache entry if there is one, else the disk. -/
def Store.view (st : Store) (s : Sector) : Block :=
  match st.bufferCacheList.find? (fun e => e.sector = s) with
  | some e => e.data
  | none => st.disk s

/-- What holds of the cache between two calls. -/
structure CacheInv (st : Store) : Prop where
  nodup : (st.bufferCacheList.map BufferCache.sector).Nodup
  size : st.cacheCurrentSize = st.bufferCacheList.length
  bound : st.bufferCacheList.length ≤ MAX_CACHE_SIZE
  clean : ∀ e ∈ st.bufferCacheList, e.isDirty = false → e.data = st.disk e.sector
  idle : ∀ e ∈ st.bufferCacheList, e.isUsing = false

/-! ## The view -/

theorem view_of_not_cached (h : ¬ st.cached s) : st.view s = st.disk s := by
  have hnone : st.bufferCacheList.find? (fun e => e.sector = s) = none := by
    rw [find?_key_eq_none, mem_map]
    exact h
  rw [Store.view, hnone]

theorem view_of_mem (hnd : (st.bufferCacheList.map BufferCache.sector).Nodup)
    {e : BufferCache} (he : e ∈ st.bufferCacheList) : st.view e.sector = e.data := by
  rw [Store.view, find?_key_of_mem hnd he]

theorem view_unique (hnd : (st.bufferCacheList.map BufferCache.sector).Nodup) {f : Disk}
    (hmem : ∀ e ∈ st.bufferCacheList, e.data = f e.sector)
    (hdisk : ∀ s, ¬ st.cached s → st.disk s = f s) : st.view = f := by
  funext s
  by_cases hs : st.cached s
  · obtain ⟨e, he, rfl⟩ := hs
    rw [view_of_mem hnd he, hmem e he]
  · rw [view_of_not_cached hs, hdisk s hs]

/-! ## The second-chance scan -/

/-- Two lists that differ in the `is_used` marks only. -/
def SameButUsed (l l' : List BufferCache) : Prop :=
  l'.map (fun e => { e with isUsed := false }) = l.map (fun e => { e with isUsed := false })

variable {l l' : List BufferCache} {k : Nat}

theorem SameButUsed.length_eq (h : SameButUsed l l') :
    l'.length = l.length := by
  simpa using congrArg List.length h

theorem SameButUsed.trans {l'' : List BufferCache} (h : SameButUsed l l')
    (h' : SameButUsed l' l'') : SameButUsed l l'' := Eq.trans h' h

theorem SameButUsed.mem (h : SameButUsed l l') {e : BufferCache} (he : e ∈ l') :
    ∃ b, { e with isUsed := b } ∈ l := by
  have hm : { e with isUsed := false } ∈ l.map (fun e => { e with isUsed := false }) := by
    rw [← h]
    exact mem_map_of_mem (f := fun e : BufferCache => { e with isUsed := false }) he
  obtain ⟨e0, he0, heq⟩ := mem_map.mp hm
  refine ⟨e0.isUsed, ?_⟩
  have : { e with isUsed := e0.isUsed } = e0 := by
    cases e
    cases e0
    simp_all
  rwa [this]

theorem SameButUsed.sectors (h : SameButUsed l l') :
    l'.map BufferCache.sector = l.map BufferCache.sector := by
  have := congrArg (List.map BufferCache.sector) h
  simpa [map_map, Function.comp_def] using this

theorem secondChance_same (l : List BufferCache) : SameButUsed l (secondChance l).1 := by
  induction l with
  | nil => rfl
  | cons e rest ih =>
    unfold SameButUsed at ih ⊢
    unfold secondChance
    split
    · simp [ih]
    · split
      · simp [ih]
      · rfl

theorem secondChance_lt (h : (secondChance l).2 = some k) :
    k < (secondChance l).1.length := by
  induction l generalizing k with
  | nil => simp [secondChance] at h
  | cons e rest ih =>
    unfold secondChance at h ⊢
    split at h
    · rename_i hu
      obtain ⟨j, hj, rfl⟩ := Option.map_eq_some_iff.mp h
      have := ih hj
      simp [hu, this]
    · split at h
      · rename_i hu hused
        obtain ⟨j, hj, rfl⟩ := Option.map_eq_some_iff.mp h
        have := ih hj
        simp [hu, hused, this]
      · rename_i hu hused
        cases h
        simp [hu, hused]

theorem secondChance_cleared (hidle : ∀ e ∈ l, e.isUsing = false) (h : (secondChance l).2 = none) :
    ∀ e ∈ (secondChance l).1, e.isUsed = false := by
  induction l with
  | nil => simp [secondChance]
  | cons e rest ih =>
    have he : e.isUsing = false := hidle e (mem_cons_self ..)
    unfold secondChance at h ⊢
    rw [if_neg (by simp [he])] at h ⊢
    split at h
    · rename_i hused
      rw [if_pos hused]
      have hnone : (secondChance rest).2 = none := by simpa using h
      intro a ha
      rcases mem_cons.mp ha with rfl | ha
      · rfl
      · exact ih (fun x hx => hidle x (mem_cons_of_mem _ hx)) hnone a ha
    · simp at h

theorem secondChance_some (hne : l ≠ []) (hidle : ∀ e ∈ l, e.isUsing = false)
    (hunused : ∀ e ∈ l, e.isUsed = false) :
    (secondChance l).2 = some 0 := by
  cases l with
  | nil => exact absurd rfl hne
  | cons e rest =>
    simp [secondChance, hidle e (mem_cons_self ..), hunused e (mem_cons_self ..)]

theorem CacheInv.sameButUsed (h : CacheInv st) (hl : SameButUsed st.bufferCacheList l) :
    CacheInv { st with bufferCacheList := l } where
  nodup := by simpa [hl.sectors] using h.nodup
  size := by simpa [hl.length_eq] using h.size
  bound := by simpa [hl.length_eq] using h.bound
  clean := by
    intro e he hd
    obtain ⟨b, hb⟩ := hl.mem he
    have := h.clean _ hb
    exact this hd
  idle := by
    intro e he
    obtain ⟨b, hb⟩ := hl.mem he
    have := h.idle _ hb
    exact this

theorem cached_sameButUsed (hl : SameButUsed st.bufferCacheList l) :
    Store.cached { st with bufferCacheList := l } = st.cached := by
  funext t
  have h : ∀ m : List BufferCache, (∃ e ∈ m, e.sector = t) ↔ t ∈ m.map BufferCache.sector := by
    intro m
    simp
  apply propext
  unfold Store.cached
  rw [h, h]
  simp only [hl.sectors]

theorem view_sameButUsed (h : CacheInv st) (hl : SameButUsed st.bufferCacheList l) :
    Store.view { st with bufferCacheList := l } = st.view := by
  apply view_unique (h.sameButUsed hl).nodup
  · intro e he
    obtain ⟨b, hb⟩ := hl.mem he
    exact (view_of_mem h.nodup hb).symm
  · intro t ht
    rw [cached_sameButUsed hl] at ht
    exact (view_of_not_cached ht).symm

/-! ## One entry among the others -/

def Store.withEntry (st : Store) (l1 : List BufferCache) (e : BufferCache)
    (l2 : List BufferCache) : Store :=
  { st with bufferCacheList := l1 ++ e :: l2 }

variable {l1 l2 : List BufferCache} {e e' : BufferCache}

theorem cached_withEntry {t : Sector} :
    (st.withEntry l1 e l2).cached t ↔
      t = e.sector ∨ ∃ a, (a ∈ l1 ∨ a ∈ l2) ∧ a.sector = t := by
  simp only [Store.cached, Store.withEntry, mem_append, mem_cons]
  constructor
  · rintro ⟨a, ha | rfl | ha, rfl⟩
    · exact .inr ⟨a, .inl ha, rfl⟩
    · exact .inl rfl
    · exact .inr ⟨a, .inr ha, rfl⟩
  · rintro (rfl | ⟨a, ha | ha, rfl⟩)
    · exact ⟨e, .inr (.inl rfl), rfl⟩
    · exact ⟨a, .inl ha, rfl⟩
    · exact ⟨a, .inr (.inr ha), rfl⟩

section
variable (h : CacheInv (st.withEntry l1 e l2))
include h

theorem CacheInv.sector_ne {a : BufferCache} (ha : a ∈ l1 ∨ a ∈ l2) : a.sector ≠ e.sector := by
  have hnd := h.nodup
  simp only [Store.withEntry, map_append, map_cons, nodup_append,
    nodup_cons, mem_map, mem_cons] at hnd
  obtain ⟨-, ⟨hnot, -⟩, hdisj⟩ := hnd
  rcases ha with ha | ha
  · exact hdisj _ ⟨a, ha, rfl⟩ _ (.inl rfl)
  · intro heq
    exact hnot ⟨a, ha, heq⟩

/-- Replacing the marked entry by one that is unpinned, holds a sector no other
entry holds, and is dirty or equal to the disk, keeps the invariant. The disk
may have changed where no other entry looks. -/
theorem CacheInv.replace {d : Disk}
    (hother : ∀ a, a ∈ l1 ∨ a ∈ l2 → a.sector ≠ e'.sector ∧ d a.sector = st.disk a.sector)
    (hidle : e'.isUsing = false) (hclean : e'.isDirty = false → e'.data = d e'.sector) :
    CacheInv ({ st with disk := d }.withEntry l1 e' l2) where
  nodup := by
    have hnd := h.nodup
    simp only [Store.withEntry, map_append, map_cons, nodup_append,
      nodup_cons, mem_map, mem_cons] at hnd ⊢
    obtain ⟨h1, ⟨-, h2⟩, hdisj⟩ := hnd
    refine ⟨h1, ⟨?_, h2⟩, ?_⟩
    · rintro ⟨a, ha, heq⟩
      exact (hother a (.inr ha)).1 heq
    · rintro _ ⟨a, ha, rfl⟩ b (rfl | hb)
      · exact (hother a (.inl ha)).1
      · exact hdisj _ ⟨a, ha, rfl⟩ b (.inr hb)
  size := by simpa [Store.withEntry] using h.size
  bound := by simpa [Store.withEntry] using h.bound
  clean := by
    have hc := h.clean
    simp only [Store.withEntry, mem_append, mem_cons] at hc ⊢
    rintro a (ha | rfl | ha) hd
    · rw [(hother a (.inl ha)).2]
      exact hc a (.inl ha) hd
    · exact hclean hd
    · rw [(hother a (.inr ha)).2]
      exact hc a (.inr (.inr ha)) hd
  idle := by
    have hi := h.idle
    simp only [Store.withEntry, mem_append, mem_cons] at hi ⊢
    rintro a (ha | rfl | ha)
    · exact hi a (.inl ha)
    · exact hidle
    · exact hi a (.inr (.inr ha))

theorem view_withEntry {f : Disk} (hmark : e.data = f e.sector)
    (hother : ∀ a, a ∈ l1 ∨ a ∈ l2 → a.data = f a.sector)
    (hdisk : ∀ t, ¬ (st.withEntry l1 e l2).cached t → st.disk t = f t) :
    (st.withEntry l1 e l2).view = f := by
  apply view_unique h.nodup
  · simp only [Store.withEntry, mem_append, mem_cons]
    rintro a (ha | rfl | ha)
    · exact hother a (.inl ha)
    · exact hmark
    · exact hother a (.inr ha)
  · exact hdisk

theorem view_other {a : BufferCache} (ha : a ∈ l1 ∨ a ∈ l2) :
    a.data = (st.withEntry l1 e l2).view a.sector := by
  refine (view_of_mem h.nodup ?_).symm
  simp only [Store.withEntry, mem_append, mem_cons]
  rcases ha with ha | ha
  · exact .inl ha
  · exact .inr (.inr ha)

theorem view_mark :
    e.data = (st.withEntry l1 e l2).view e.sector :=
  (view_of_mem h.nodup (by simp [Store.withEntry])).symm

end

/-! ## Pinning an entry -/

/-- What a pinned entry is: the store is `b` with the entry `e` of sector `s` at
position `k`, and unpinning it gives a store that shows what `st` showed. -/
structure Pinned (st : Store) (s : Sector) (b : Store) (l1 : List BufferCache)
    (e : BufferCache) (l2 : List BufferCache) : Prop where
  sector : e.sector = s
  inv : CacheInv (b.withEntry l1 { e with isUsing := false } l2)
  view : (b.withEntry l1 { e with isUsing := false } l2).view = st.view
  cached : ∀ t, (b.withEntry l1 { e with isUsing := false } l2).cached t → st.cached t ∨ t = s
  disk : ∀ t, ¬ st.cached t → b.disk t = st.disk t

theorem findCache_some (h : findCache st s = some k) :
    ∃ l1 e l2, st.bufferCacheList = l1 ++ e :: l2 ∧ l1.length = k ∧ e.sector = s := by
  obtain ⟨hk, hp, -⟩ := findIdx?_eq_some_iff_getElem.mp h
  obtain ⟨l1, e, l2, hl, hlen⟩ := exists_split hk
  refine ⟨l1, e, l2, hl, hlen, ?_⟩
  have : st.bufferCacheList[k] = e := by
    subst hlen
    simp [hl]
  simpa [this] using hp

theorem findCache_none (h : findCache st s = none) : ¬ st.cached s := by
  rintro ⟨e, he, hs⟩
  have := findIdx?_eq_none_iff.mp h e he
  simp [hs] at this

variable (h : CacheInv st)
include h

theorem pinned_hit (hl : st.bufferCacheList = l1 ++ e :: l2) (hs : e.sector = s) :
    Pinned st s st l1 { e with isUsed := true, isUsing := true } l2 := by
  have hst : st = st.withEntry l1 e l2 := by
    unfold Store.withEntry
    rw [← hl]
  have hinv : CacheInv (st.withEntry l1 e l2) := hst ▸ h
  have hidle : e.isUsing = false := h.idle e (by simp [hl])
  have hinv' : CacheInv (st.withEntry l1 { e with isUsed := true, isUsing := false } l2) :=
    hinv.replace (d := st.disk) (fun a ha => ⟨hinv.sector_ne ha, rfl⟩) rfl
      (fun hd => h.clean e (by simp [hl]) hd)
  refine ⟨hs, hinv', ?_, ?_, fun _ _ => rfl⟩
  · rw [hst]
    apply view_withEntry hinv'
    · exact view_mark hinv
    · exact fun a ha => view_other hinv ha
    · intro t ht
      rw [view_of_not_cached]
      · rfl
      · rw [cached_withEntry] at ht ⊢
        exact ht
  · intro t ht
    left
    rw [hst]
    rw [cached_withEntry] at ht ⊢
    exact ht

/-- A miss in a cache that is not full appends an entry. -/
theorem pinned_new (hmiss : ¬ st.cached s) (hroom : st.cacheCurrentSize < MAX_CACHE_SIZE) :
    Pinned st s { st with cacheCurrentSize := st.cacheCurrentSize + 1 } st.bufferCacheList
      ⟨s, st.disk s, true, false, true⟩ [] := by
  have hinv : CacheInv (Store.withEntry { st with cacheCurrentSize := st.cacheCurrentSize + 1 }
      st.bufferCacheList ⟨s, st.disk s, true, false, false⟩ []) := by
    constructor
    · simp only [Store.withEntry, map_append, map_cons, map_nil]
      rw [nodup_append]
      refine ⟨h.nodup, by simp, ?_⟩
      intro a ha b hb
      rw [mem_singleton] at hb
      subst hb
      rintro rfl
      obtain ⟨e, he, hes⟩ := mem_map.mp ha
      exact hmiss ⟨e, he, hes⟩
    · simp [Store.withEntry, h.size]
    · have := h.size
      simp only [Store.withEntry, length_append, length_cons, length_nil]
      omega
    · simp only [Store.withEntry, mem_append, mem_cons, not_mem_nil, or_false]
      rintro a (ha | rfl) hd
      · exact h.clean a ha hd
      · rfl
    · simp only [Store.withEntry, mem_append, mem_cons, not_mem_nil, or_false]
      rintro a (ha | rfl)
      · exact h.idle a ha
      · rfl
  refine ⟨rfl, hinv, ?_, ?_, fun _ _ => rfl⟩
  · apply view_withEntry hinv
    · exact (view_of_not_cached hmiss).symm
    · rintro a (ha | ha)
      · exact (view_of_mem h.nodup ha).symm
      · simp at ha
    · intro t ht
      rw [view_of_not_cached]
      rintro ⟨a, ha, hat⟩
      exact ht (cached_withEntry.mpr (.inr ⟨a, .inl ha, hat⟩))
  · intro t ht
    rcases cached_withEntry.mp ht with rfl | ⟨a, ha | ha, hat⟩
    · exact .inr rfl
    · exact .inl ⟨a, ha, hat⟩
    · simp at ha

omit h in
/-- Taking over an entry writes it back first if it is dirty, so nothing is lost. -/
theorem pinned_takeOver (h : CacheInv (st.withEntry l1 e l2))
    (hmiss : ¬ (st.withEntry l1 e l2).cached s) {d : Disk}
    (hd : d = if e.isDirty then diskWrite st.disk e.sector e.data else st.disk) :
    Pinned (st.withEntry l1 e l2) s { st with disk := d } l1
      ⟨s, d s, e.isUsed, false, true⟩ l2 := by
  have hvict : d e.sector = e.data := by
    rw [hd]
    split
    · simp [diskWrite]
    · rename_i hdirty
      exact (h.clean e (by simp [Store.withEntry]) (by simpa using hdirty)).symm
  have hkeep : ∀ t, t ≠ e.sector → d t = st.disk t := by
    intro t ht
    rw [hd]
    split
    · simp [diskWrite, ht]
    · rfl
  have hother : ∀ a, a ∈ l1 ∨ a ∈ l2 → a.sector ≠ s ∧ d a.sector = st.disk a.sector := by
    intro a ha
    refine ⟨?_, hkeep _ (h.sector_ne ha)⟩
    rintro rfl
    exact hmiss (cached_withEntry.mpr (.inr ⟨a, ha, rfl⟩))
  have hinv : CacheInv (Store.withEntry { st with disk := d } l1
      ⟨s, d s, e.isUsed, false, false⟩ l2) := h.replace hother rfl (fun _ => rfl)
  have hsNe : s ≠ e.sector := by
    rintro rfl
    exact hmiss (cached_withEntry.mpr (.inl rfl))
  refine ⟨rfl, hinv, ?_, ?_, ?_⟩
  · apply view_withEntry hinv
    · rw [view_of_not_cached hmiss]
      exact hkeep s hsNe
    · exact fun a ha => view_other h ha
    · intro t ht
      by_cases hte : t = e.sector
      · subst hte
        rw [← view_mark h]
        exact hvict
      · rw [view_of_not_cached]
        · exact hkeep t hte
        · rw [cached_withEntry]
          rw [cached_withEntry] at ht
          rintro (hc | hc)
          · exact hte hc
          · exact ht (.inr hc)
  · intro t ht
    rcases cached_withEntry.mp ht with rfl | hc
    · exact .inr rfl
    · exact .inl (cached_withEntry.mpr (.inr hc))
  · intro t ht
    apply hkeep
    rintro rfl
    exact ht (cached_withEntry.mpr (.inl rfl))

theorem takeOver_spec (hk : k < st.bufferCacheList.length) (hmiss : ¬ st.cached s) :
    ∃ b l1 e l2, takeOver st k s = some (l1.length, b.withEntry l1 e l2) ∧
      Pinned st s b l1 e l2 := by
  obtain ⟨l1, e, l2, hl, rfl⟩ := exists_split hk
  have hst : st = st.withEntry l1 e l2 := by
    unfold Store.withEntry
    rw [← hl]
  set d := if e.isDirty then diskWrite st.disk e.sector e.data else st.disk with hd
  refine ⟨{ st with disk := d }, l1, ⟨s, d s, e.isUsed, false, true⟩, l2, ?_, ?_⟩
  · simp [takeOver, hl, ← hd, Store.modifyEntry, modify_split, Store.withEntry]
  · have hp := pinned_takeOver (hst ▸ h) (hst ▸ hmiss) hd
    rwa [← hst] at hp

theorem Pinned.sameButUsed (hl : SameButUsed st.bufferCacheList l) {b : Store}
    (hp : Pinned { st with bufferCacheList := l } s b l1 e l2) : Pinned st s b l1 e l2 where
  __ := hp
  view := hp.view.trans (view_sameButUsed h hl)
  cached := by
    have := hp.cached
    rwa [cached_sameButUsed hl] at this
  disk := by
    have := hp.disk
    rwa [cached_sameButUsed hl] at this

/-- With nothing pinned, eviction from a non-empty cache always finds a victim:
the first scan selects one, or it clears every mark and the second scan selects
the head of the list. -/
theorem evictCache_spec (hne : st.bufferCacheList ≠ []) (hmiss : ¬ st.cached s) :
    ∃ b l1 e l2, evictCache st s = some (l1.length, b.withEntry l1 e l2) ∧
      Pinned st s b l1 e l2 := by
  have hsame := secondChance_same st.bufferCacheList
  unfold evictCache
  rcases hsc : secondChance st.bufferCacheList with ⟨l, v⟩
  rw [hsc] at hsame
  have hinv : CacheInv { st with bufferCacheList := l } := h.sameButUsed hsame
  have hmiss' : ¬ Store.cached { st with bufferCacheList := l } s := by
    rwa [cached_sameButUsed hsame]
  cases v with
  | some k =>
    have hk : k < l.length := by
      have := secondChance_lt (l := st.bufferCacheList) (k := k) (by rw [hsc])
      rwa [hsc] at this
    obtain ⟨b, l1, e, l2, heq, hp⟩ := takeOver_spec hinv hk hmiss'
    exact ⟨b, l1, e, l2, heq, hp.sameButUsed h hsame⟩
  | none =>
    have hclear : ∀ e ∈ l, e.isUsed = false := by
      have := secondChance_cleared h.idle (by rw [hsc])
      rwa [hsc] at this
    have hlne : l ≠ [] := by
      intro hnil
      have := hsame.length_eq
      rw [hnil] at this
      exact hne (length_eq_zero_iff.mp this.symm)
    have hsome := secondChance_some hlne hinv.idle hclear
    have hsame' := secondChance_same l
    rcases hsc' : secondChance l with ⟨l', v'⟩
    rw [hsc'] at hsome hsame'
    simp only at hsome
    subst hsome
    have hsame'' : SameButUsed st.bufferCacheList l' := hsame.trans hsame'
    have hk : 0 < l'.length := by
      have := secondChance_lt (l := l) (k := 0) (by rw [hsc'])
      rwa [hsc'] at this
    obtain ⟨b, l1, e, l2, heq, hp⟩ := takeOver_spec (h.sameButUsed hsame'') hk (by
      rwa [cached_sameButUsed hsame''])
    exact ⟨b, l1, e, l2, by simpa [hsc'] using heq, hp.sameButUsed h hsame''⟩

/-- **Pinning never fails.** Hit, miss or eviction, the entry of the sector ends
up pinned and the content of every sector is what it was. -/
theorem pinEntry_spec (s : Sector) :
    ∃ b l1 e l2, pinEntry st s = some (l1.length, b.withEntry l1 e l2) ∧
      Pinned st s b l1 e l2 := by
  unfold pinEntry
  cases hf : findCache st s with
  | some k =>
    obtain ⟨l1, e, l2, hl, rfl, hs⟩ := findCache_some hf
    refine ⟨st, l1, _, l2, ?_, pinned_hit h hl hs⟩
    simp [Store.modifyEntry, hl, modify_split, Store.withEntry]
  | none =>
    have hmiss := findCache_none hf
    by_cases hroom : st.cacheCurrentSize < MAX_CACHE_SIZE
    · refine ⟨_, st.bufferCacheList, _, [], ?_, pinned_new h hmiss hroom⟩
      simp [hroom, allocateNewCache, Store.modifyEntry, modify_split, Store.withEntry]
    · have hne : st.bufferCacheList ≠ [] := by
        intro hnil
        have := h.size
        rw [hnil, length_nil] at this
        rw [this] at hroom
        exact hroom (by decide)
      obtain ⟨b, l1, e, l2, heq, hp⟩ := evictCache_spec h hne hmiss
      refine ⟨b, l1, { e with isUsing := true }, l2, ?_, ?_⟩
      · simp [hroom, heq, Store.modifyEntry, Store.withEntry, modify_split]
      · exact { hp with }

/-! ## The calls -/

/-- What a call may do to the store beside its effect on the view: the sectors
it caches are those cached before and `s`, and the disk changes at most where
there was a cache entry. -/
structure CacheStep (st : Store) (s : Sector) (st' : Store) : Prop where
  inv : CacheInv st'
  cached : ∀ t, st'.cached t → st.cached t ∨ t = s
  disk : ∀ t, ¬ st.cached t → st'.disk t = st.disk t

theorem cacheRead_spec (s : Sector) (buffer : Buffer) (bytesRead sectorOfs chunkSize : Nat) :
    ∃ st', cacheRead st s buffer bytesRead sectorOfs chunkSize =
        some (copyOut (st.view s) sectorOfs chunkSize buffer bytesRead, st') ∧
      st'.view = st.view ∧ CacheStep st s st' := by
  obtain ⟨b, l1, e, l2, heq, hp⟩ := pinEntry_spec h s
  have hdata : e.data = st.view s := by
    have := view_mark hp.inv
    rw [hp.view] at this
    rw [← hp.sector]
    exact this
  refine ⟨b.withEntry l1 { e with isUsing := false } l2, ?_, hp.view, hp.inv, hp.cached, hp.disk⟩
  simp [cacheRead, heq, Store.withEntry, Store.modifyEntry, modify_split, hdata]

/-- `cache_write` succeeds and changes the view at its sector only. -/
theorem cacheWrite_spec (s : Sector) (buffer : Buffer) (bytesRead sectorOfs chunkSize : Nat) :
    ∃ st', cacheWrite st s buffer bytesRead sectorOfs chunkSize = some st' ∧
      st'.view = update st.view s
        ((st.view s).patch sectorOfs chunkSize buffer bytesRead) ∧
      CacheStep st s st' := by
  obtain ⟨b, l1, e, l2, heq, hp⟩ := pinEntry_spec h s
  have hdata : e.data = st.view s := by
    have := view_mark hp.inv
    rw [hp.view] at this
    rw [← hp.sector]
    exact this
  set e' : BufferCache := { e with
    data := e.data.patch sectorOfs chunkSize buffer bytesRead, isUsing := false, isDirty := true }
    with he'
  have hcach : ∀ t, (b.withEntry l1 e' l2).cached t ↔
      (b.withEntry l1 { e with isUsing := false } l2).cached t := by
    intro t
    rw [cached_withEntry, cached_withEntry]
  have hinv : CacheInv (b.withEntry l1 e' l2) :=
    hp.inv.replace (d := b.disk) (fun a ha => ⟨hp.inv.sector_ne ha, rfl⟩) rfl (by simp [he'])
  refine ⟨b.withEntry l1 e' l2, ?_, ?_, hinv, ?_, hp.disk⟩
  · simp [cacheWrite, heq, Store.withEntry, Store.modifyEntry, modify_split, he']
  · apply view_withEntry hinv
    · simp [he', hp.sector, hdata]
    · intro a ha
      have hne := hp.inv.sector_ne ha
      simp only [hp.sector] at hne
      rw [update_of_ne hne, ← hp.view]
      exact view_other hp.inv ha
    · intro t ht
      have hts : t ≠ s := by
        rintro rfl
        exact ht (cached_withEntry.mpr (.inl hp.sector.symm))
      rw [update_of_ne hts, ← hp.view, view_of_not_cached ((hcach t).not.mp ht)]
      rfl
  · intro t ht
    exact hp.cached t ((hcach t).mp ht)

end Pintos.FileSys
