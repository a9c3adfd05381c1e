import Pintos.FileSys.Mounted

/-!
# A volume with one inode grown

`Extends` describes the state after the block tree of one inode has grown, or a
new inode has been written: the inode has more slots, at sectors that were
free, and nothing else has changed but the free map. `Extends.vol` says that
the volume is then in order again.
-/

namespace Pintos.FileSys

open Lib

/-- From `fs`, the tree of inode `i` has grown (`fs1`), and `i` has become `c'`
(`fs'`). Before, `i` was `c` with `n` sectors, or no live inode and `n = 0`. -/
structure Extends (d0 : Disk) (fs fs1 fs' : FS) (i : Sector) (c c' : InodeCore) (n : Nat)
    (D N P0 P : Set Sector) (m : Nat) : Prop where
  grow : GrowOk d0 fs D N P0 fs1 P m
  grown : Grown P0 fs.store.view c n P fs1.store.view c' c'.sectors
  core : CoreOk c'
  -- what `i` had before
  self : fs.isUsed i ∧ ¬ fs.store.cached i ∧ i ∉ P0 ∧ i ∉ D
  others : ∀ l ∈ fs.taken, l.1 ≠ i → fs.place l ≠ i ∧ fs.place l ∉ P0
  old : ∀ a : Slot, a.used n → fs.isUsed (sectorOf fs.store.view c a) ∧
    sectorOf fs.store.view c a ≠ i ∧
    ∀ l ∈ fs.taken, l.1 ≠ i → fs.place l ≠ sectorOf fs.store.view c a
  oldInj : ∀ a b : Slot, a.used n → b.used n →
    sectorOf fs.store.view c a = sectorOf fs.store.view c b → a = b
  oldIndex : ∀ a : Slot, a.isIndex → a.used n → sectorOf fs.store.view c a ∈ P0
  -- what has changed since the growth
  store : StoreOk d0 fs'
  nodup : OpenNodup fs'
  opened : ∀ j ino, fs'.inode? j = some ino → j ∈ insert i fs.live ∧ OpenOk ino
  live : fs'.live = insert i fs.live
  freeMap : fs'.freeMap = fs1.freeMap
  node : ∀ j ∈ fs.live, j ≠ i → fs'.node j = fs.node j
  nodeSelf : fs'.node i = c'
  view : ∀ s, s ≠ i → fs'.store.view s = fs1.store.view s
  cached : ∀ s, fs'.store.cached s → fs1.store.cached s
  slack : ∀ k : Nat, c'.length ≤ k → k / 512 < c'.sectors →
    fileByte fs1.store.view c' k = 0

section
variable {d0 : Disk} {fs fs1 fs' : FS} {i : Sector} {c c' : InodeCore} {n : Nat}
  {D N P0 P : Set Sector} {m : Nat} (hx : Extends d0 fs fs1 fs' i c c' n D N P0 P m)
include hx

theorem Extends.used_iff (s : Sector) : fs'.isUsed s ↔ fs.isUsed s ∨ (s ∈ P ∧ s ∉ P0) := by
  unfold FS.isUsed
  rw [hx.freeMap]
  exact hx.grow.used s

/-- A sector that was in use and not in hand is not in hand now. -/
theorem Extends.not_hand {s : Sector} (hs : fs.isUsed s) (hP : s ∉ P0) : s ∉ P := by
  intro hmem
  rcases hx.grow.fresh s hmem with h' | h'
  · exact hP h'
  · exact hs.not_free h'

variable {a : Slot} {l : Place}

theorem Extends.slot_cases (ha : a.used c'.sectors) :
    (a.used n ∧ sectorOf fs1.store.view c' a = sectorOf fs.store.view c a) ∨
      (¬ a.used n ∧ sectorOf fs1.store.view c' a ∈ P ∧ sectorOf fs1.store.view c' a ∉ P0 ∧
        fs.isFree (sectorOf fs1.store.view c' a)) := by
  by_cases hu : a.used n
  · exact Or.inl ⟨hu, hx.grown.old a hu⟩
  · obtain ⟨hP, hP0⟩ := hx.grown.new a ha hu
    exact Or.inr ⟨hu, hP, hP0, (hx.grow.fresh _ hP).resolve_left hP0⟩

theorem Extends.slot_ne (ha : a.used c'.sectors) :
    sectorOf fs1.store.view c' a ≠ i := by
  rcases hx.slot_cases ha with ⟨hu, heq⟩ | ⟨-, -, -, hfree⟩
  · rw [heq]
    exact (hx.old a hu).2.1
  · intro heq
    rw [heq] at hfree
    exact hx.self.1.not_free hfree

/-- Writing the inode itself does not move its slots. -/
theorem Extends.slot_self (ha : a.used c'.sectors) :
    sectorOf fs'.store.view c' a = sectorOf fs1.store.view c' a :=
  sectorOf_frame (fun _ _ hu => hx.view _ (hx.slot_ne hu)) a ha

theorem Extends.byte_self {k : Nat} (hk : k / 512 < c'.sectors) :
    fs'.byte i k = fileByte fs1.store.view c' k := by
  unfold FS.byte fileByte
  rw [hx.nodeSelf, hx.slot_self (a := .data (k / 512)) hk,
    hx.view _ (hx.slot_ne (a := .data (k / 512)) hk)]

variable (h : Vol d0 fs)
include h

theorem Extends.view_other (hl : l ∈ fs.taken) (hne : l.1 ≠ i) (hD : fs.place l ∉ D) :
    fs'.store.view (fs.place l) = fs.store.view (fs.place l) := by
  obtain ⟨hi, hP⟩ := hx.others l hl hne
  rw [hx.view _ hi]
  exact hx.grow.view _ (hx.not_hand (h.used l hl) hP) hD

variable (hm : MapReady fs D N)
include hm

omit hx in
/-- Inodes and index blocks are not data sectors of the free map file. -/
theorem Vol.direct_not_map (hl : l ∈ fs.taken) (hd : l.isDirect) : fs.place l ∉ D := by
  intro hD
  rcases hm with ⟨-, rfl, -⟩ | ⟨ino, hm, -, rfl, -⟩
  · exact hD
  · obtain ⟨l', hl', hnd, heq⟩ := h.data_place hm.opened _ hD
    have := h.inj hl hl' heq
    subst this
    exact hnd hd

theorem Extends.slot_other {j : Sector} (hj : j ∈ fs.live) (hne : j ≠ i)
    (ha : a.used (fs.node j).sectors) :
    sectorOf fs'.store.view (fs'.node j) a = sectorOf fs.store.view (fs.node j) a := by
  rw [hx.node j hj hne]
  refine sectorOf_frame ?_ a ha
  intro b hb hu
  have hl : (j, some b) ∈ fs.taken := FS.mem_taken_some.mpr ⟨hj, hu⟩
  exact hx.view_other h hl hne (h.direct_not_map hm hl hb)

theorem Extends.place_other (hl : l ∈ fs'.taken) (hne : l.1 ≠ i) :
    l ∈ fs.taken ∧ fs'.place l = fs.place l := by
  obtain ⟨j, a⟩ := l
  have hj : j ∈ fs.live := by
    have : j ∈ fs'.live := hl.1
    rw [hx.live] at this
    exact Set.mem_of_mem_insert_of_ne this hne
  cases a with
  | none => exact ⟨FS.mem_taken_none.mpr hj, rfl⟩
  | some a =>
    have ha := (FS.mem_taken_some.mp hl).2
    rw [hx.node j hj hne] at ha
    exact ⟨FS.mem_taken_some.mpr ⟨hj, ha⟩, hx.slot_other h hm hj hne ha⟩

theorem Extends.byte_other {j : Sector} (hj : j ∈ fs.live) (hne : j ≠ i)
    (h0 : j ≠ FREE_MAP_SECTOR) {k : Nat} (hk : k / 512 < (fs.node j).sectors) :
    fs'.byte j k = fs.byte j k := by
  have hl : (j, some (.data (k / 512))) ∈ fs.taken := FS.mem_taken_some.mpr ⟨hj, hk⟩
  unfold FS.byte fileByte
  rw [hx.slot_other h hm hj hne (a := .data (k / 512)) hk]
  show (fs'.store.view (fs.place (j, some (.data (k / 512))))).get _ = _
  rw [hx.view_other h hl hne (h.map_apart hm hl (Or.inl h0)).1]
  rfl

theorem Extends.self_ne_other {l' : Place} (hl : l ∈ fs'.taken) (hi : l.1 = i)
    (hl' : l' ∈ fs'.taken) (hne : l'.1 ≠ i) : fs'.place l ≠ fs'.place l' := by
  obtain ⟨ht', hp'⟩ := hx.place_other h hm hl' hne
  rw [hp']
  obtain ⟨j, a⟩ := l
  obtain rfl : j = i := hi
  cases a with
  | none => exact (hx.others l' ht' hne).1.symm
  | some a =>
    have ha := (FS.mem_taken_some.mp hl).2
    rw [hx.nodeSelf] at ha
    show sectorOf fs'.store.view (fs'.node j) a ≠ _
    rw [hx.nodeSelf, hx.slot_self ha]
    rcases hx.slot_cases ha with ⟨hu, heq⟩ | ⟨-, -, -, hfree⟩
    · rw [heq]
      exact ((hx.old a hu).2.2 l' ht' hne).symm
    · intro heq
      rw [heq] at hfree
      exact (h.used l' ht').not_free hfree

omit h hm in
theorem Extends.self_inj {x y : Option Slot} (hl : (i, x) ∈ fs'.taken) (hl' : (i, y) ∈ fs'.taken)
    (heq : fs'.place (i, x) = fs'.place (i, y)) : x = y := by
  have hslot : ∀ a : Slot, (i, some a) ∈ fs'.taken →
      a.used c'.sectors ∧ fs'.place (i, some a) = sectorOf fs1.store.view c' a := by
    intro a ha
    have hu := (FS.mem_taken_some.mp ha).2
    rw [hx.nodeSelf] at hu
    refine ⟨hu, ?_⟩
    show sectorOf fs'.store.view (fs'.node i) a = _
    rw [hx.nodeSelf, hx.slot_self hu]
  cases x with
  | none =>
    cases y with
    | none => rfl
    | some b =>
      obtain ⟨hb, hpb⟩ := hslot b hl'
      rw [hpb] at heq
      exact absurd heq.symm (hx.slot_ne hb)
  | some a =>
    obtain ⟨ha, hpa⟩ := hslot a hl
    cases y with
    | none =>
      rw [hpa] at heq
      exact absurd heq (hx.slot_ne ha)
    | some b =>
      obtain ⟨hb, hpb⟩ := hslot b hl'
      rw [hpa, hpb] at heq
      congr 1
      rcases hx.slot_cases ha with ⟨hua, hea⟩ | ⟨hna, -, -, hfa⟩ <;>
        rcases hx.slot_cases hb with ⟨hub, heb⟩ | ⟨hnb, -, -, hfb⟩
      · rw [hea, heb] at heq
        exact hx.oldInj a b hua hub heq
      · rw [← heq, hea] at hfb
        exact absurd hfb (hx.old a hua).1.not_free
      · rw [heq, heb] at hfa
        exact absurd hfa (hx.old b hub).1.not_free
      · exact hx.grown.inj a b ha hna hb hnb heq

theorem Extends.vol : Vol d0 fs' where
  __ := hx
  size := by
    rw [hx.freeMap, hx.grow.size]
    exact h.size
  core := by
    intro j hj
    by_cases hji : j = i
    · rw [hji, hx.nodeSelf]
      exact hx.core
    · rw [hx.live] at hj
      have hj' := Set.mem_of_mem_insert_of_ne hj hji
      rw [hx.node j hj' hji]
      exact h.core j hj'
  opened := by
    rw [hx.live]
    exact hx.opened
  inj := by
    intro l hl l' hl' heq
    by_cases hi : l.1 = i <;> by_cases hi' : l'.1 = i
    · obtain ⟨j, x⟩ := l
      obtain ⟨j', y⟩ := l'
      obtain rfl : j = i := hi
      obtain rfl : j' = j := hi'
      rw [hx.self_inj hl hl' heq]
    · exact absurd heq (hx.self_ne_other h hm hl hi hl' hi')
    · exact absurd heq.symm (hx.self_ne_other h hm hl' hi' hl hi)
    · obtain ⟨ht, hp⟩ := hx.place_other h hm hl hi
      obtain ⟨ht', hp'⟩ := hx.place_other h hm hl' hi'
      rw [hp, hp'] at heq
      exact h.inj ht ht' heq
  used := by
    intro l hl
    rw [hx.used_iff]
    by_cases hi : l.1 = i
    · obtain ⟨j, a⟩ := l
      obtain rfl : j = i := hi
      cases a with
      | none => exact Or.inl hx.self.1
      | some a =>
        have ha := (FS.mem_taken_some.mp hl).2
        rw [hx.nodeSelf] at ha
        show fs.isUsed (sectorOf fs'.store.view (fs'.node j) a) ∨ _ ∈ P ∧ _
        rw [show fs'.place (j, some a) = sectorOf fs'.store.view (fs'.node j) a from rfl,
          hx.nodeSelf, hx.slot_self ha]
        rcases hx.slot_cases ha with ⟨hu, heq⟩ | ⟨-, hP, hP0, -⟩
        · rw [heq]
          exact Or.inl (hx.old a hu).1
        · exact Or.inr ⟨hP, hP0⟩
    · obtain ⟨ht, hp⟩ := hx.place_other h hm hl hi
      rw [hp]
      exact Or.inl (h.used l ht)
  direct := by
    intro l hl hd hc
    have hc1 := hx.cached _ hc
    by_cases hi : l.1 = i
    · obtain ⟨j, a⟩ := l
      obtain rfl : j = i := hi
      cases a with
      | none =>
        rcases hx.grow.cached _ hc1 with hc0 | hD
        · exact hx.self.2.1 hc0
        · exact hx.self.2.2.2 hD
      | some a =>
        have ha := (FS.mem_taken_some.mp hl).2
        rw [hx.nodeSelf] at ha
        rw [show fs'.place (j, some a) = sectorOf fs'.store.view (fs'.node j) a from rfl,
          hx.nodeSelf, hx.slot_self ha] at hc1
        refine hx.grow.direct _ ?_ hc1
        rcases hx.slot_cases ha with ⟨hu, heq⟩ | ⟨-, hP, -, -⟩
        · rw [heq]
          exact hx.grown.sub (hx.oldIndex a hd hu)
        · exact hP
    · obtain ⟨ht, hp⟩ := hx.place_other h hm hl hi
      rw [hp] at hc1
      rcases hx.grow.cached _ hc1 with hc0 | hD
      · exact h.direct l ht hd hc0
      · exact h.direct_not_map hm ht hd hD
  slack := by
    intro j hj h0 k hlen hk
    by_cases hji : j = i
    · subst hji
      rw [hx.nodeSelf] at hlen hk
      rw [hx.byte_self hk]
      exact hx.slack k hlen hk
    · rw [hx.live] at hj
      have hj' := Set.mem_of_mem_insert_of_ne hj hji
      rw [hx.node j hj' hji] at hlen hk
      rw [hx.byte_other h hm hj' hji h0 hk]
      exact h.slack j hj' h0 k hlen hk

end

end Pintos.FileSys
