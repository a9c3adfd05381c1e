import Pintos.FileSys.WriteAt

/-!
# `inode_create` on the volume

A sector that has been allocated becomes a live inode with zeroed data sectors.
-/

namespace Pintos.FileSys

open Lib Function

/-- Sector `s` is allocated and belongs to no inode yet. -/
structure Loose (fs : FS) (s : Sector) : Prop where
  used : fs.isUsed s
  direct : ¬ fs.store.cached s
  apart : ∀ l ∈ fs.taken, fs.place l ≠ s

theorem Loose.not_live {fs : FS} {s : Sector} (h : Loose fs s) : s ∉ fs.live :=
  fun hs => h.apart (s, none) (FS.mem_taken_none.mpr hs) rfl

/-- `s` has become a live inode of `len` zero bytes, and nothing else has changed
but the free map. -/
structure Created (fs fs' : FS) (s : Sector) (len : Int) (isDir : Bool) (m : Nat) : Prop where
  frame : Frame fs fs' {s}
  live : fs'.live = insert s fs.live
  inodes : ∀ j, fs'.inode? j = fs.inode? j
  locked : fs'.locked = fs.locked
  freeMapFile : fs'.freeMapFile = fs.freeMapFile
  length : (fs'.node s).length = len
  kind : (fs'.node s).isDir = if isDir then 1 else 0
  parent : (fs'.node s).parent = 0
  zero : ∀ k, k / 512 < bytesToSectors len → fs'.byte s k = 0
  spent : Spent fs fs' m
  loose : ∀ u, u ≠ s → Loose fs u → Loose fs' u
  fresh : ∀ a : Slot, a.used (bytesToSectors len) → fs.isFree (fs'.place (s, some a))
  empty : len = 0 → ∀ u, fs'.isUsed u → fs.isUsed u ∨ u = s

section
variable {d0 : Disk} {fs : FS} {s : Sector} {D N : Set Sector} {m : Nat}

theorem used_zero (a : Slot) : ¬ a.used 0 := by
  cases a <;> simp [Slot.used]

theorem fileOk_empty {st : Store} {c : InodeCore} (hlen : c.length = 0) : FileOk st c := by
  have hn : c.sectors = 0 := by
    unfold InodeCore.sectors
    rw [hlen]
    rfl
  refine ⟨by rw [hlen], by rw [hlen]; decide, ?_, ?_⟩
  · intro a b ha
    rw [hn] at ha
    exact absurd ha (used_zero a)
  · intro a _ ha
    rw [hn] at ha
    exact absurd ha (used_zero a)

theorem cappedLength_le {length : Int} (h : 0 ≤ length) :
    0 ≤ cappedLength length ∧ cappedLength length ≤ 9046016 := by
  unfold cappedLength FILE_SIZE_MAX
  split <;> omega

variable {ino : Inode} {junk : Nat → UInt32} {isDir : Bool}

theorem sectors_newInode (hino : ino = newInode junk isDir) :
    ino.length = 0 ∧ ino.sectors = 0 := by
  subst hino
  exact ⟨rfl, rfl⟩

theorem not_mem_indexSectors_newInode (hino : ino = newInode junk isDir) (v : Disk) (u : Sector) :
    u ∉ indexSectors v ino := by
  rintro ⟨a, -, hu, -⟩
  rw [(sectors_newInode hino).2] at hu
  exact used_zero a hu

/-- `inode_grow` of the inode that `inode_create` builds: no sector stays owed. -/
theorem growBody_of_new (h : Vol d0 fs) (hm : MapReady fs D N)
    (hlock0 : fs.locked FREE_MAP_SECTOR = false) (hino : ino = newInode junk isDir) {len : Int}
    (h0 : 0 ≤ len) (hbound : len ≤ 9046016) (hsame : SameSecond 0 (bytesToSectors len))
    (hb : Budget fs m) (hneed : blocksFor (bytesToSectors len) ≤ m) :
    ∃ ino' fs' P, growBody (freeMapOps 1) fs ino len = .ok (ino', fs', 0) ∧
      GrowOk d0 fs D N (indexSectors fs.store.view ino) fs' P
        (m - blocksFor (bytesToSectors len)) ∧
      Grown (indexSectors fs.store.view ino) fs.store.view ino 0
        P fs'.store.view ino' (bytesToSectors len) ∧
      CursorAt ino' (bytesToSectors len) ∧ KeepsRest ino ino' ∧
      ino'.isAllocated = 1 := by
  obtain ⟨hilen, hin⟩ := sectors_newInode hino
  have hempty := not_mem_indexSectors_newInode hino fs.store.view
  have hcur : CursorAt ino 0 := by
    rw [hino]
    exact ⟨rfl, rfl, rfl⟩
  exact growBody_mapped 0 ino h.store h.nodup hm hlock0 h.size (h.map_used hm) (fileOk_empty hilen)
    (fun u hu => absurd hu (hempty u)) hcur hin rfl (Nat.zero_le _)
    (sectors_of_length_le h0 hbound) hsame hb (le_trans hneed (Nat.le_add_left _ _))

theorem growBody_zero (fs : FS) (fm : FreeMapOps) (hlen : ino.length = 0) :
    ∃ ino', growBody fm fs ino 0 = .ok (ino', fs.uninit.2.uninit.2, 0) := by
  have hsec : (bytesToSectors 0 + 4294967296 - bytesToSectors ino.length) % 4294967296 = 0 := by
    rw [hlen]
    decide
  unfold growBody
  simp only [hsec]
  rw [growLoop_done rfl]
  exact ⟨_, rfl⟩

theorem inodeCreate_spec {length len : Int} (h : Vol d0 fs) (hm : MapReady fs D N) (hs : Loose fs s)
    (hlock0 : fs.locked FREE_MAP_SECTOR = false) (h0 : 0 ≤ length)
    (hlen : len = cappedLength length) (hsame : SameSecond 0 (bytesToSectors len))
    (hb : Budget fs m) (hneed : blocksFor (bytesToSectors len) ≤ m) :
    ∃ fs', inodeCreate (freeMapOps 1) fs s length isDir = some (true, fs') ∧ Vol d0 fs' ∧
      MapReady fs' D N ∧
      Created fs fs' s len isDir (m - blocksFor (bytesToSectors len)) := by
  obtain ⟨hlen0, hlenB⟩ := cappedLength_le h0
  rw [← hlen] at hlen0 hlenB
  set fsu := fs.uninit.2 with hfsu
  obtain ⟨ino, hino⟩ : ∃ ino, ino = newInode fs.uninit.1 isDir := ⟨_, rfl⟩
  have hvol : Vol d0 fsu :=
    { h with store := { h.store with } }
  have hready : MapReady fsu D N := hm.frame rfl rfl rfl (fun _ _ => rfl) (fun _ _ hc => hc)
  obtain ⟨ino1, fs1, P, hbody, hok, hgrown, hcur, hkeep, halloc⟩ :=
    growBody_of_new hvol hready hlock0 hino hlen0 hlenB hsame hb hneed
  have hempty := not_mem_indexSectors_newInode hino fsu.store.view
  -- the sector itself is not touched by the growth
  have hsD : s ∉ D ∧ s ∉ N := by
    have hnot : ¬ (s ∈ D ∨ s ∈ N) := by
      intro hmem
      obtain ⟨a, ha, heq⟩ := h.map_place hm hmem
      exact hs.apart _ ha heq.symm
    tauto
  have hc1 : ¬ fs1.store.cached s := by
    intro hc
    rcases hok.cached s hc with hc | hc
    · exact hs.direct hc
    · exact hsD.1 hc
  obtain ⟨c', hc'⟩ : ∃ c' : InodeCore, c' =
    { length := len, isAllocated := 1, ptrs := ino1.ptrs, ptrIdx := ino1.ptrIdx,
      indirIdx := ino1.indirIdx, doubleIndirIdx := ino1.doubleIndirIdx,
      isDir := if isDir then 1 else 0, parent := 0 } := ⟨_, rfl⟩
  have hn' : c'.sectors = bytesToSectors len := by
    rw [hc']
    rfl
  have hcore : CoreOk c' := by
    rw [hc']
    exact ⟨hlen0, hlenB, { hcur with }, by cases isDir <;> simp, rfl⟩
  have hgrown' : Grown (indexSectors fsu.store.view ino) fsu.store.view
      ino 0 P fs1.store.view c' c'.sectors := by
    rw [hn']
    exact hgrown.of_ptrs (by rw [hc'])
  obtain ⟨b, hbEq⟩ : ∃ b, b = encodeInode c' fun _ => 0 := ⟨_, rfl⟩
  obtain ⟨hst2, hview2⟩ := hok.store.diskWrite hc1 b
  set fs2 : FS := { fs1.diskWrite s b with log := .create s :: (fs1.diskWrite s b).log } with hfs2
  have hview : fs2.store.view = update fs1.store.view s b := hview2
  have hfind : ∀ j, fs2.inode? j = fs.inode? j := fun j => hok.rest.inode? j
  have hclosed : fs.inode? s = none := by
    cases hino' : fs.inode? s with
    | none => rfl
    | some e => exact absurd (h.opened s e hino').1 hs.not_live
  have hlive : fs2.live = insert s fs.live := by
    show insert s fs1.live = _
    rw [hok.rest.live]
    rfl
  have hzero : ∀ k, k / 512 < c'.sectors → fileByte fs1.store.view c' k = 0 := by
    intro k hk
    unfold fileByte
    rw [hgrown'.zero (k / 512) (Nat.zero_le _) hk]
    rfl
  have hx : Extends d0 fsu fs1 fs2 s ino c' 0 D N
      (indexSectors fsu.store.view ino) P (m - blocksFor (bytesToSectors len)) := by
    refine ⟨hok, hgrown', hcore, ⟨hs.used, hs.direct, hempty s, hsD.1⟩,
      fun l hl _ => ⟨hs.apart l hl, hempty _⟩, fun a ha => absurd ha (used_zero a),
      fun a _ ha => absurd ha (used_zero a), fun a _ ha => absurd ha (used_zero a),
      { hst2 with }, ?_, ?_, hlive, rfl, ?_, ?_, ?_, fun _ hc => hc,
      fun k _ hk => hzero k hk⟩
    · exact h.nodup.congr hok.rest.openInodes
    · intro j e he
      rw [hfind] at he
      exact ⟨Set.mem_insert_of_mem _ (h.opened j e he).1, (h.opened j e he).2⟩
    · intro j hj hjs
      have hl : (j, none) ∈ fs.taken := FS.mem_taken_none.mpr hj
      have hv : fs1.store.view j = fs.store.view j := by
        refine hok.view j ?_ (h.map_apart hm hl (Or.inr rfl)).1
        intro hmem
        rcases hok.fresh j hmem with h' | h'
        · exact hempty j h'
        · exact (h.used _ hl).not_free h'
      unfold FS.node
      rw [hfind, hview, update_of_ne hjs, hv]
      rfl
    · rw [FS.node_of_closed ((hfind s).trans hclosed), hview, update_self, hbEq]
      exact decodeInode_encodeInode hcore _
    · intro u hu
      rw [hview, update_of_ne hu]
  refine ⟨fs2, ?_, hx.vol hvol hready, ?_, ⟨⟨?_, ?_, ?_, ?_⟩, hlive, hfind, hok.rest.locked,
    hok.rest.freeMapFile, ?_, ?_, ?_, ?_, ⟨hok.size, ?_, ?_, hok.budget⟩, ?_, ?_, ?_⟩⟩
  · have hgrow : inodeGrow (freeMapOps 1) fsu ino len = some (true, ino1, fs1) := by
      unfold inodeGrow
      rw [hbody]
      rfl
    unfold inodeCreate
    rw [if_pos h0]
    simp only [← hlen, ← hino, ← hfsu, hgrow, some_bind]
    rw [if_neg (by decide), ← hc', ← hbEq]
  · refine hok.ready.frame rfl rfl rfl ?_ (fun _ _ hc => hc)
    intro u hu
    rw [hview, update_of_ne]
    rintro rfl
    tauto
  · intro j hj
    rw [hlive, Set.mem_insert_iff]
    exact or_iff_right hj
  · exact fun j hj hjs => hx.node j hj hjs
  · exact fun j hj hjs hj0 k hk => hx.byte_other hvol hready hj hjs hj0 hk
  · exact fun j _ => FS.isRemoved_congr (hfind j)
  · rw [hx.nodeSelf, hc']
  · rw [hx.nodeSelf, hc']
  · rw [hx.nodeSelf, hc']
  · intro k hk
    rw [← hn'] at hk
    rw [hx.byte_self hk, hzero k hk]
  · exact fun u hu => (hok.used u).mpr (Or.inl hu)
  · intro u hu
    rcases hok.cached u hu with hu | hu
    · exact Or.inl hu
    · exact Or.inr ((hok.used u).mpr (Or.inl (h.map_used hm u (Or.inl hu))))
  · -- another sector that is allocated already is not handed out again
    intro u hus hu
    refine ⟨(hok.used u).mpr (Or.inl hu.used), ?_, ?_⟩
    · intro hc
      rcases hok.cached u hc with hc | hc
      · exact hu.direct hc
      · obtain ⟨a, ha, heq⟩ := h.map_place hm (Or.inl hc)
        exact hu.apart _ ha heq.symm
    · rintro ⟨j, a⟩ hl heq
      by_cases hj : j = s
      · subst hj
        cases a with
        | none => exact hus heq.symm
        | some a =>
          have ha : a.used c'.sectors := by
            rw [← hx.nodeSelf]
            exact (FS.mem_taken_some.mp hl).2
          have hplace : sectorOf fs1.store.view c' a = u := by
            rw [← hx.slot_self ha, ← hx.nodeSelf]
            exact heq
          rcases hx.slot_cases ha with ⟨hu0, -⟩ | ⟨-, -, -, hfree⟩
          · exact absurd hu0 (used_zero a)
          · rw [hplace] at hfree
            exact hu.used.not_free hfree
      · obtain ⟨ht, hp⟩ := hx.place_other hvol hready hl hj
        exact hu.apart (j, a) ht (hp.symm.trans heq)
  · intro a ha
    rw [← hn'] at ha
    show fs.isFree (sectorOf fs2.store.view (fs2.node s) a)
    rw [hx.nodeSelf, hx.slot_self ha]
    rcases hx.slot_cases ha with ⟨hu0, -⟩ | ⟨-, -, -, hfree⟩
    · exact absurd hu0 (used_zero a)
    · exact hfree
  · intro hzero u hu
    obtain ⟨ino', hbody'⟩ := growBody_zero fsu (freeMapOps 1) (sectors_newInode hino).1
    rw [hzero, hbody'] at hbody
    cases hbody
    exact Or.inl hu

/-- A sector that belongs to no inode stays so when no block moves. -/
theorem Loose.stays {fs' : FS} {u : Sector} (h : Loose fs u) (hs : Stays fs fs')
    (hused : fs'.isUsed u) (hcached : ¬ fs'.store.cached u) : Loose fs' u := by
  refine ⟨hused, hcached, fun l hl => ?_⟩
  rw [hs.taken] at hl
  rw [hs.place hl]
  exact h.apart l hl

end

end Pintos.FileSys
