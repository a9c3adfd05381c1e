import Pintos.FileSys.Growth
import Pintos.FileSys.MapFile

/-!
# Growing through the free map

`inode_grow` allocates through the free map of `free-map.c`, which writes its
file at every step. `GrowOk` is what holds at every point of a growth: besides
the sectors the growth has in hand, only the data sectors of the free map file
have changed or entered the cache.

A growth needs sectors that are free and, because it writes them past the
cache, not cached: `Budget`.
-/

namespace Pintos.FileSys

open Lib List

/-- The `m` sectors that the next `m` allocations hand out exist and are not in
the cache. -/
def Budget (fs : FS) (m : Nat) : Prop :=
  m ≤ (freeBits fs.freeMap).length ∧
    ∀ k ∈ (freeBits fs.freeMap).take m, ¬ fs.store.cached (UInt32.ofNat k)

variable {fs : FS} {m : Nat}

theorem Budget.mono {m' : Nat} (h : Budget fs m) (hle : m' ≤ m) : Budget fs m' :=
  ⟨le_trans hle h.1, fun k hk => h.2 k (take_subset_take_left _ hle hk)⟩

/-- What has been cached since is no free sector. -/
theorem Budget.frame {fs' : FS} (h : Budget fs m) (hmap : fs'.freeMap = fs.freeMap)
    (hsize : fs.freeMap.length ≤ 4294967296)
    (hcached : ∀ s, fs'.store.cached s → fs.store.cached s ∨ fs.isUsed s) : Budget fs' m := by
  unfold Budget
  rw [hmap]
  refine ⟨h.1, ?_⟩
  intro k hk hc
  have hbit : fs.freeMap[k]? = some false := mem_freeBits.mp (List.mem_of_mem_take hk)
  have hlt := (List.getElem?_eq_some_iff.mp hbit).1
  rcases hcached _ hc with hc | hc
  · exact h.2 k hk hc
  · unfold FS.isUsed at hc
    rw [UInt32.toNat_ofNat', Nat.mod_eq_of_lt (by omega), hbit] at hc
    cases hc

theorem Budget.spend {fs' : FS} {k : Nat} {rest : List Nat} (h : Budget fs (m + 1))
    (hfree : freeBits fs.freeMap = k :: rest) (hmap : fs'.freeMap = fs.freeMap.set k true)
    (hsize : fs.freeMap.length ≤ 4294967296)
    (hcached : ∀ s, fs'.store.cached s → fs.store.cached s ∨ ¬ fs.isFree s) : Budget fs' m := by
  have hfree' : freeBits fs'.freeMap = rest := by
    rw [hmap]
    exact freeBits_mark_head hfree
  unfold Budget at h ⊢
  rw [hfree] at h
  rw [hfree']
  refine ⟨Nat.le_of_succ_le_succ h.1, ?_⟩
  intro j hj hc
  have hbit : fs.freeMap[j]? = some false :=
    mem_freeBits.mp (hfree ▸ List.mem_cons_of_mem _ (List.mem_of_mem_take hj))
  have hlt := (List.getElem?_eq_some_iff.mp hbit).1
  rcases hcached _ hc with hc | hc
  · exact h.2 j (by rw [List.take_succ_cons]; exact List.mem_cons_of_mem _ hj) hc
  · refine hc ?_
    unfold FS.isFree
    rw [UInt32.toNat_ofNat', Nat.mod_eq_of_lt (by omega)]
    exact hbit

/-- The state of a growth that started in `fs0` with the sectors `P0` in hand and
now has the sectors `P`. -/
structure GrowOk (d0 : Disk) (fs0 : FS) (D N P0 : Set Sector) (fs : FS) (P : Set Sector)
    (m : Nat) : Prop where
  store : StoreOk d0 fs
  ready : MapReady fs D N
  rest : SameRest { fs0 with freeMap := fs.freeMap } fs
  size : fs.freeMap.length = fs0.freeMap.length
  used : ∀ s, fs.isUsed s ↔ fs0.isUsed s ∨ (s ∈ P ∧ s ∉ P0)
  free : ∀ s, fs.isFree s ↔ fs0.isFree s ∧ s ∉ P
  fresh : ∀ s ∈ P, s ∈ P0 ∨ fs0.isFree s
  direct : ∀ s ∈ P, ¬ fs.store.cached s
  apart : ∀ s ∈ P, s ∉ D ∧ s ∉ N
  cached : ∀ s, fs.store.cached s → fs0.store.cached s ∨ s ∈ D
  view : ∀ s, s ∉ P → s ∉ D → fs.store.view s = fs0.store.view s
  budget : Budget fs m

section
variable {d0 : Disk} {fs0 : FS} {D N P0 : Set Sector}

theorem growOk_laws (d : Nat) (hnd : OpenNodup fs0) (hlock : fs0.locked FREE_MAP_SECTOR = false)
    (hsize : fs0.freeMap.length ≤ 4294967296)
    (hused : ∀ s, s ∈ D ∨ s ∈ N → fs0.isUsed s) (hhand : ∀ s ∈ P0, fs0.isUsed s) :
    GrowLaws (freeMapOps (d + 1)) (GrowOk d0 fs0 D N P0) False where
  allocate := by
    intro fs P m hok
    left
    obtain ⟨k, rest, hfree⟩ : ∃ k rest, freeBits fs.freeMap = k :: rest :=
      List.exists_cons_of_length_pos (by have := hok.budget.1; omega)
    have hbit : fs.freeMap[k]? = some false := mem_freeBits.mp (hfree ▸ List.mem_cons_self ..)
    have hlt := (List.getElem?_eq_some_iff.mp hbit).1
    have hk : (UInt32.ofNat k).toNat = k := by
      rw [UInt32.toNat_ofNat']
      exact Nat.mod_eq_of_lt (by have := hok.size; omega)
    have hs : fs.isFree (UInt32.ofNat k) := by
      unfold FS.isFree
      rw [hk]
      exact hbit
    have hs0 := (hok.free _).mp hs
    have hapart : ∀ s, s ∈ D ∨ s ∈ N → ¬ fs0.isFree s := fun s h => (hused s h).not_free
    have hnd' := hnd.congr hok.rest.openInodes
    obtain ⟨fs', halloc, hrest, heff, hready⟩ := freeMapAllocate_spec (freeMapOps d) hok.store hnd'
      hok.ready (by rw [hok.rest.locked]; exact hlock) hfree (by have := hok.size; omega)
    have hmap : fs'.freeMap = fs.freeMap.set k true := by
      rw [hrest.freeMap]
      show fs.freeMap.set (UInt32.ofNat k).toNat true = _
      rw [hk]
    -- the sectors in hand are neither cached nor touched
    have hdirect : ∀ u ∈ P, ¬ fs'.store.cached u := by
      intro u hu hc
      rcases heff.cached u hc with hc | hc
      · exact hok.direct u hu hc
      · exact (hok.apart u hu).1 hc
    have hbudget : Budget fs' m := by
      refine hok.budget.spend hfree hmap (by have := hok.size; omega) ?_
      intro u hu
      rcases heff.cached u hu with hc | hc
      · exact Or.inl hc
      · exact Or.inr fun hf => hapart u (Or.inl hc) ((hok.free u).mp hf).1
    refine ⟨UInt32.ofNat k, fs', halloc, hs0.2, ?_, ?_⟩
    · have husedIff : ∀ u, fs'.isUsed u ↔ u = UInt32.ofNat k ∨ fs.isUsed u := by
        exact fun u => (isUsed_congr hrest.freeMap).trans (isUsed_markUsed hs u)
      have hfreeIff : ∀ u, fs'.isFree u ↔ fs.isFree u ∧ u ≠ UInt32.ofNat k := by
        intro u
        unfold FS.isFree
        rw [hrest.freeMap]
        exact isFree_markUsed hs u
      refine ⟨heff.ok, hready, ⟨rfl, hrest.freeMapFile.trans hok.rest.freeMapFile,
        hrest.openInodes.trans hok.rest.openInodes, hrest.locked.trans hok.rest.locked,
        hrest.garbage.trans hok.rest.garbage, hrest.live.trans hok.rest.live⟩,
        by rw [hmap, List.length_set]; exact hok.size, ?_, ?_, ?_, ?_, ?_, ?_, ?_, hbudget⟩
      · intro u
        rw [husedIff, hok.used, Set.mem_insert_iff]
        have hnew : UInt32.ofNat k ∉ P0 := fun h => (hhand _ h).not_free hs0.1
        by_cases hu : u = UInt32.ofNat k
        · simp [hu, hnew]
        · simp [hu]
      · intro u
        rw [hfreeIff, hok.free, Set.mem_insert_iff]
        tauto
      · intro u hu
        rcases Set.mem_insert_iff.mp hu with rfl | hu
        · exact Or.inr hs0.1
        · exact hok.fresh u hu
      · intro u hu
        rcases Set.mem_insert_iff.mp hu with rfl | hu
        · intro hc
          rcases heff.cached _ hc with hc | hc
          · refine hok.budget.2 k ?_ hc
            rw [hfree, List.take_succ_cons]
            exact List.mem_cons_self ..
          · exact hapart _ (Or.inl hc) hs0.1
        · exact hdirect u hu
      · intro u hu
        rcases Set.mem_insert_iff.mp hu with rfl | hu
        · exact ⟨fun h => hapart _ (Or.inl h) hs0.1, fun h => hapart _ (Or.inr h) hs0.1⟩
        · exact hok.apart u hu
      · intro u hc
        rcases heff.cached u hc with hc | hc
        · exact hok.cached u hc
        · exact Or.inr hc
      · intro u hu hD
        rw [heff.view u hD]
        exact hok.view u (fun h => hu (Set.mem_insert_of_mem _ h)) hD
    · intro u hu
      rw [← view_of_not_cached (hdirect u hu), ← view_of_not_cached (hok.direct u hu)]
      exact heff.view u (hok.apart u hu).1
  write := by
    intro fs P m s b hok hs
    obtain ⟨hstore, hview⟩ := hok.store.diskWrite (hok.direct s hs) b
    have hne : ∀ u, u ≠ s → (fs.diskWrite s b).store.view u = fs.store.view u := by
      intro u hu
      rw [hview, Function.update_of_ne hu]
    refine ⟨hstore, ?_, hok.rest.trans (by constructor <;> rfl), hok.size, hok.used, hok.free,
      hok.fresh, hok.direct, hok.apart, hok.cached, ?_, hok.budget⟩
    · refine hok.ready.frame rfl rfl rfl ?_ (fun u _ hc => hc)
      intro u hu
      apply hne
      rintro rfl
      have := hok.apart u hs
      tauto
    · intro u hu hD
      rw [hne u (by rintro rfl; exact hu hs)]
      exact hok.view u hu hD
  read := by
    intro fs P m s hok hs
    refine ⟨hok.store.diskRead (hok.direct s hs), ?_, hok.rest.trans (by constructor <;> rfl),
      hok.size, hok.used, hok.free, hok.fresh, hok.direct, hok.apart, hok.cached, hok.view,
      hok.budget⟩
    exact hok.ready.frame rfl rfl rfl (fun _ _ => rfl) (fun u _ hc => hc)
  uninit := by
    intro fs P m hok
    refine ⟨{ hok.store with }, ?_,
      hok.rest.trans (by constructor <;> rfl), hok.size, hok.used, hok.free, hok.fresh,
      hok.direct, hok.apart, hok.cached, hok.view, hok.budget⟩
    exact hok.ready.frame rfl rfl rfl (fun _ _ => rfl) (fun u _ hc => hc)

theorem growOk_start (hst : StoreOk d0 fs0) (hready : MapReady fs0 D N)
    (hhand : ∀ s ∈ P0, fs0.isUsed s) (hdirect : ∀ s ∈ P0, ¬ fs0.store.cached s)
    (hapart : ∀ s ∈ P0, s ∉ D ∧ s ∉ N) (hb : Budget fs0 m) : GrowOk d0 fs0 D N P0 fs0 P0 m where
  store := hst
  ready := hready
  rest := SameRest.refl fs0
  size := rfl
  used := by
    intro s
    tauto
  free := by
    intro s
    refine ⟨fun h => ⟨h, fun hs => (hhand s hs).not_free h⟩, fun h => h.1⟩
  fresh := fun s hs => .inl hs
  direct := hdirect
  apart := hapart
  cached := fun s hs => .inl hs
  view := fun s _ _ => rfl
  budget := hb

theorem Grown.agree {P P' : Set Sector} {rd rd' v v' : Disk} {c c' : InodeCore} {n n' : Nat}
    (hg : Grown P rd c n P' rd' c' n') (ht : TreeOk P rd c n) (h : ∀ s ∈ P, v s = rd s)
    (h' : ∀ s ∈ P', v' s = rd' s) : Grown P v c n P' v' c' n' := by
  have hs : ∀ a : Slot, a.used n → sectorOf v c a = sectorOf rd c a :=
    sectorOf_frame fun a hi hu => h _ (ht.mem a hi hu)
  have ht' := hg.treeOk ht
  have hs' : ∀ a : Slot, a.used n' → sectorOf v' c' a = sectorOf rd' c' a :=
    sectorOf_frame fun a hi hu => h' _ (ht'.mem a hi hu)
  refine ⟨hg.le, hg.sub, ?_, ?_, ?_, ?_, ?_⟩
  · intro a ha
    rw [hs a ha, hs' a (Slot.used_mono hg.le ha)]
    exact hg.old a ha
  · intro a hu hnu
    rw [hs' a hu]
    exact hg.new a hu hnu
  · intro a b hua hna hub hnb heq
    rw [hs' a hua, hs' b hub] at heq
    exact hg.inj a b hua hna hub hnb heq
  · intro k hk hk'
    have hnew := hg.new (.data k) hk' (by simp only [Slot.used]; omega)
    rw [hs' (.data k) hk', h' _ hnew.1]
    exact hg.zero k hk hk'
  · intro s hsP hidx
    rw [h s hsP, h' s (hg.sub hsP)]
    apply hg.frame s hsP
    intro a hi hu
    rw [← hs' a hu]
    exact hidx a hi hu

/-- **`inode_grow` on the file system.** With enough free sectors that are not
cached, the tree of the inode grows and besides it only the free map changes. -/
theorem growBody_mapped (d : Nat) (ino : Inode) {L : Int} {n n' : Nat} (hst : StoreOk d0 fs0)
    (hnd : OpenNodup fs0) (hready : MapReady fs0 D N) (hlock : fs0.locked FREE_MAP_SECTOR = false)
    (hsize : fs0.freeMap.length ≤ 4294967296) (hmap : ∀ s, s ∈ D ∨ s ∈ N → fs0.isUsed s)
    (hf : FileOk fs0.store ino)
    (hhand : ∀ s ∈ indexSectors fs0.store.view ino, fs0.isUsed s ∧ s ∉ D ∧ s ∉ N)
    (hcur : CursorAt ino n) (hn : ino.sectors = n)
    (hn' : bytesToSectors L = n') (hle : n ≤ n') (hcap : n' ≤ CAPACITY) (hsame : SameSecond n n')
    (hb : Budget fs0 m) (hm : blocksFor n' ≤ blocksFor n + m) :
    ∃ ino' fs' P', growBody (freeMapOps (d + 1)) fs0 ino L = .ok (ino', fs', 0) ∧
      GrowOk d0 fs0 D N (indexSectors fs0.store.view ino) fs' P'
        (m - (blocksFor n' - blocksFor n)) ∧
      Grown (indexSectors fs0.store.view ino) fs0.store.view ino n
        P' fs'.store.view ino' n' ∧
      CursorAt ino' n' ∧ KeepsRest ino ino' ∧ ino'.isAllocated = 1 := by
  have hdirect : ∀ s ∈ indexSectors fs0.store.view ino, ¬ fs0.store.cached s := by
    rintro s ⟨a, hi, hu, rfl⟩
    exact hf.direct a hi hu
  have htree : TreeOk (indexSectors fs0.store.view ino) fs0.store.disk
      ino n := by
    subst hn
    refine ⟨?_, ?_⟩
    · intro a hi hu
      rw [hf.sectorOf_disk hu]
      exact ⟨a, hi, hu, rfl⟩
    · intro a b _ hua _ hub heq
      rw [hf.sectorOf_disk hua, hf.sectorOf_disk hub] at heq
      exact hf.inj a b hua hub heq
  have hstart := growOk_start hst hready (fun s hs => (hhand s hs).1) hdirect
    (fun s hs => (hhand s hs).2) hb
  have hlaws : GrowLaws (freeMapOps (d + 1)) (GrowOk d0 fs0 D N _) False :=
    growOk_laws d hnd hlock hsize hmap (fun s hs => (hhand s hs).1)
  obtain ⟨⟨ino', fs', _⟩, hbody, rfl, P', hok, hgrown, hcur', hkeep, halloc⟩ :=
    (growBody_spec hlaws hstart htree hcur hn hn' hle hcap hsame hm).ok_or_full.resolve_right (·.1)
  refine ⟨ino', fs', P', hbody, hok, ?_, hcur', hkeep, halloc⟩
  exact hgrown.agree htree (fun s hs => view_of_not_cached (hdirect s hs))
    (fun s hs => view_of_not_cached (hok.direct s hs))

end

end Pintos.FileSys
