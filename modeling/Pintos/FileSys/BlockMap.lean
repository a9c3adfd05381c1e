import Pintos.FileSys.Inode

/-!
# The block map of an inode

An inode of `n` sectors is a tree of depth at most three. A `Slot` names a
place in that tree: the `k`-th data sector, one of the ten single-indirect
index blocks, the double-indirect index block, or one of the second-level
index blocks under it.

`Grown` is what enlarging the tree means: the old slots keep their sectors,
the new slots get distinct fresh ones, the new data is zero, and of the
sectors in hand only the index blocks of this inode are rewritten.
-/

namespace Pintos.FileSys

open Lib

def words (b : Block) : Words := unpackWords b

@[simp] theorem words_packWords (w : Words) : words (packWords w) = w :=
  unpackWords_packWords w

/-- The number of sectors the block map can hold. -/
def CAPACITY : Nat := 17668

/-- A place in the block tree of an inode. -/
inductive Slot where
  | data (k : Nat)
  | indirect (t : Nat)
  | double
  | second (j : Nat)

variable {n : Nat} {s : Sector}

namespace Slot

def used (n : Nat) : Slot → Prop
  | .data k => k < n
  | .indirect t => t < 10 ∧ 4 + 128 * t < n
  | .double => 1284 < n
  | .second j => 1284 + 128 * j < n

def isIndex : Slot → Prop
  | .data _ => False
  | _ => True

theorem used_mono {n' : Nat} (h : n ≤ n') {a : Slot} (ha : a.used n) : a.used n' := by
  cases a <;> simp only [used] at ha ⊢ <;> omega

end Slot

def sectorOf (rd : Disk) (c : InodeCore) : Slot → Sector
  | .data k =>
    if k < 4 then c.ptrs.get k
    else if k < 1284 then (words (rd (c.ptrs.get (4 + (k - 4) / 128)))).get ((k - 4) % 128)
    else (words (rd ((words (rd (c.ptrs.get 14))).get ((k - 1284) / 128)))).get
      ((k - 1284) % 128)
  | .indirect t => c.ptrs.get (4 + t)
  | .double => c.ptrs.get 14
  | .second j => (words (rd (c.ptrs.get 14))).get j

section
variable {rd : Disk} {c : InodeCore}

theorem sectorOf_data_indirect {t q : Nat} (ht : t < 10) (hq : q < 128) :
    sectorOf rd c (.data (4 + 128 * t + q)) =
      (words (rd (sectorOf rd c (.indirect t)))).get q := by
  have h1 : ¬ 4 + 128 * t + q < 4 := by omega
  have h2 : 4 + 128 * t + q < 1284 := by omega
  have h3 : (4 + 128 * t + q - 4) / 128 = t := by omega
  have h4 : (4 + 128 * t + q - 4) % 128 = q := by omega
  simp only [sectorOf, h1, h2, h3, h4, if_false, if_true]

theorem sectorOf_data_second {j q : Nat} (hq : q < 128) :
    sectorOf rd c (.data (1284 + 128 * j + q)) =
      (words (rd (sectorOf rd c (.second j)))).get q := by
  have h1 : ¬ 1284 + 128 * j + q < 4 := by omega
  have h2 : ¬ 1284 + 128 * j + q < 1284 := by omega
  have h3 : (1284 + 128 * j + q - 1284) / 128 = j := by omega
  have h4 : (1284 + 128 * j + q - 1284) % 128 = q := by omega
  simp only [sectorOf, h1, h2, h3, h4, if_false]

/-- A data slot is direct, under a single-indirect block, or under a
second-level block. -/
theorem data_cases (k : Nat) :
    k < 4 ∨ (∃ t q, t < 10 ∧ q < 128 ∧ k = 4 + 128 * t + q) ∨
      (∃ j q, q < 128 ∧ k = 1284 + 128 * j + q) := by
  rcases Nat.lt_or_ge k 4 with h | h
  · exact .inl h
  · rcases Nat.lt_or_ge k 1284 with h' | h'
    · exact .inr (.inl ⟨(k - 4) / 128, (k - 4) % 128, by omega, by omega, by omega⟩)
    · exact .inr (.inr ⟨(k - 1284) / 128, (k - 1284) % 128, by omega, by omega⟩)

/-- The tree is read through the inode's pointers and the entries of its index
blocks: where these agree below `n`, so does the sector of every slot. -/
theorem sectorOf_congr {rd' : Disk} {c' : InodeCore}
    (hdir : ∀ k, k < 4 → k < n → c'.ptrs.get k = c.ptrs.get k)
    (hptr : ∀ t, t < 10 → 4 + 128 * t < n → c'.ptrs.get (4 + t) = c.ptrs.get (4 + t))
    (hptr' : 1284 < n → c'.ptrs.get 14 = c.ptrs.get 14)
    (hind : ∀ t q, t < 10 → q < 128 → 4 + 128 * t + q < n →
      (words (rd' (c.ptrs.get (4 + t)))).get q = (words (rd (c.ptrs.get (4 + t)))).get q)
    (hdbl : ∀ j, 1284 + 128 * j < n →
      (words (rd' (c.ptrs.get 14))).get j = (words (rd (c.ptrs.get 14))).get j)
    (hsec : ∀ j q, q < 128 → 1284 + 128 * j + q < n →
      (words (rd' (sectorOf rd c (.second j)))).get q =
        (words (rd (sectorOf rd c (.second j)))).get q) :
    ∀ a : Slot, a.used n → sectorOf rd' c' a = sectorOf rd c a := by
  have hsecond : ∀ j, 1284 + 128 * j < n →
      sectorOf rd' c' (.second j) = sectorOf rd c (.second j) := by
    intro j hj
    simp only [sectorOf]
    rw [hptr' (by omega), hdbl j hj]
  intro a ha
  cases a with
  | indirect t => exact hptr t ha.1 ha.2
  | double => exact hptr' ha
  | second j => exact hsecond j ha
  | data k =>
    simp only [Slot.used] at ha
    rcases data_cases k with h | ⟨t, q, ht, hq, rfl⟩ | ⟨j, q, hq, rfl⟩
    · simp only [sectorOf, h, if_true]
      exact hdir k h ha
    · rw [sectorOf_data_indirect ht hq, sectorOf_data_indirect ht hq]
      simp only [sectorOf]
      rw [hptr t ht (by omega), hind t q ht hq ha]
    · rw [sectorOf_data_second hq, sectorOf_data_second hq, hsecond j (by omega), hsec j q hq ha]

theorem sectorOf_ptrs {c' : InodeCore} (h : c'.ptrs = c.ptrs) : sectorOf rd c' = sectorOf rd c := by
  funext a
  cases a <;> simp only [sectorOf, h]

/-- Writing outside the index blocks of an inode does not touch its tree. -/
theorem sectorOf_frame {rd' : Disk}
    (h : ∀ a : Slot, a.isIndex → a.used n → rd' (sectorOf rd c a) = rd (sectorOf rd c a)) :
    ∀ a : Slot, a.used n → sectorOf rd' c a = sectorOf rd c a := by
  apply sectorOf_congr
  · exact fun _ _ _ => rfl
  · exact fun _ _ _ => rfl
  · exact fun _ => rfl
  · intro t q ht _ hn
    rw [show rd' (c.ptrs.get (4 + t)) = rd (c.ptrs.get (4 + t)) from
      h (.indirect t) trivial ⟨ht, by omega⟩]
  · intro j hn
    rw [show rd' (c.ptrs.get 14) = rd (c.ptrs.get 14) from
      h .double trivial (show 1284 < n by omega)]
  · intro j q _ hn
    rw [h (.second j) trivial (show 1284 + 128 * j < n by omega)]

/-! ## Trees in hand, and how they grow -/

/-- The index blocks of a file of `n` sectors are in `P`, each in one place. -/
structure TreeOk (P : Set Sector) (rd : Disk) (c : InodeCore) (n : Nat) : Prop where
  mem : ∀ a : Slot, a.isIndex → a.used n → sectorOf rd c a ∈ P
  inj : ∀ a b : Slot, a.isIndex → a.used n → b.isIndex → b.used n →
    sectorOf rd c a = sectorOf rd c b → a = b

/-- From a file of `n` sectors to one of `n'`; `P` are the sectors in hand
before, `P'` those after. -/
structure Grown (P : Set Sector) (rd : Disk) (c : InodeCore) (n : Nat)
    (P' : Set Sector) (rd' : Disk) (c' : InodeCore) (n' : Nat) : Prop where
  le : n ≤ n'
  sub : P ⊆ P'
  old : ∀ a : Slot, a.used n → sectorOf rd' c' a = sectorOf rd c a
  new : ∀ a : Slot, a.used n' → ¬ a.used n → sectorOf rd' c' a ∈ P' ∧ sectorOf rd' c' a ∉ P
  inj : ∀ a b : Slot, a.used n' → ¬ a.used n → b.used n' → ¬ b.used n →
    sectorOf rd' c' a = sectorOf rd' c' b → a = b
  zero : ∀ k, n ≤ k → k < n' → rd' (sectorOf rd' c' (.data k)) = dataDefault
  frame : ∀ s ∈ P, (∀ a : Slot, a.isIndex → a.used n' → sectorOf rd' c' a ≠ s) → rd' s = rd s

variable {P P' P'' : Set Sector} {rd' rd'' : Disk} {c' c'' : InodeCore} {n n' n'' : Nat}

theorem Grown.refl : Grown P rd c n P rd c n where
  le := le_refl n
  sub := fun _ h => h
  old := fun _ _ => rfl
  new := fun _ h h' => absurd h h'
  inj := fun _ _ h h' => absurd h h'
  zero := fun _ h h' => absurd h' (by omega)
  frame := fun _ _ _ => rfl

theorem Grown.of_ptrs (hg : Grown P rd c n P' rd' c' n') (h : c''.ptrs = c'.ptrs) :
    Grown P rd c n P' rd' c'' n' := by
  have hs : sectorOf rd' c'' = sectorOf rd' c' := sectorOf_ptrs h
  exact ⟨hg.le, hg.sub, hs ▸ hg.old, hs ▸ hg.new, hs ▸ hg.inj, hs ▸ hg.zero, hs ▸ hg.frame⟩

theorem Grown.treeOk (hg : Grown P rd c n P' rd' c' n') (ht : TreeOk P rd c n) :
    TreeOk P' rd' c' n' where
  mem := by
    intro a hi hu
    by_cases ha : a.used n
    · rw [hg.old a ha]
      exact hg.sub (ht.mem a hi ha)
    · exact (hg.new a hu ha).1
  inj := by
    intro a b hia hua hib hub heq
    by_cases ha : a.used n <;> by_cases hb : b.used n
    · rw [hg.old a ha, hg.old b hb] at heq
      exact ht.inj a b hia ha hib hb heq
    · exact absurd (heq ▸ hg.old a ha ▸ ht.mem a hia ha) (hg.new b hub hb).2
    · exact absurd (heq.symm ▸ hg.old b hb ▸ ht.mem b hib hb) (hg.new a hua ha).2
    · exact hg.inj a b hua ha hub hb heq

theorem Grown.trans (hg : Grown P rd c n P' rd' c' n') (hg' : Grown P' rd' c' n' P'' rd'' c'' n'')
    (ht : TreeOk P rd c n) : Grown P rd c n P'' rd'' c'' n'' := by
  -- a slot that is new in the whole growth is new in one of the two steps
  have hnew : ∀ a : Slot, a.used n'' → ¬ a.used n →
      (a.used n' ∧ sectorOf rd'' c'' a = sectorOf rd' c' a) ∨
        (¬ a.used n' ∧ sectorOf rd'' c'' a ∉ P') := by
    intro a hu _
    by_cases ha : a.used n'
    · exact .inl ⟨ha, hg'.old a ha⟩
    · exact .inr ⟨ha, (hg'.new a hu ha).2⟩
  constructor
  · exact le_trans hg.le hg'.le
  · exact fun s hs => hg'.sub (hg.sub hs)
  · intro a ha
    rw [hg'.old a (Slot.used_mono hg.le ha), hg.old a ha]
  · intro a hu hn
    rcases hnew a hu hn with ⟨ha, heq⟩ | ⟨ha, hnot⟩
    · rw [heq]
      exact ⟨hg'.sub (hg.new a ha hn).1, (hg.new a ha hn).2⟩
    · exact ⟨(hg'.new a hu ha).1, fun hmem => hnot (hg.sub hmem)⟩
  · intro a b hua hna hub hnb heq
    rcases hnew a hua hna with ⟨ha, hea⟩ | ⟨ha, hnota⟩ <;>
      rcases hnew b hub hnb with ⟨hb, heb⟩ | ⟨hb, hnotb⟩
    · rw [hea, heb] at heq
      exact hg.inj a b ha hna hb hnb heq
    · exact absurd (heq ▸ hea ▸ (hg.new a ha hna).1) hnotb
    · exact absurd (heq.symm ▸ heb ▸ (hg.new b hb hnb).1) hnota
    · exact hg'.inj a b hua ha hub hb heq
  · intro k hk hk'
    by_cases hmid : k < n'
    · -- zeroed in the first step, and no index block of the second step
      have hkn : ¬ (Slot.data k).used n := by
        simp only [Slot.used]
        omega
      have hmem := hg.new (.data k) hmid hkn
      rw [hg'.old (.data k) hmid, hg'.frame _ hmem.1, hg.zero k hk hmid]
      intro a hi hu heq
      by_cases ha : a.used n'
      · rw [hg'.old a ha] at heq
        by_cases ha' : a.used n
        · rw [hg.old a ha'] at heq
          exact hmem.2 (heq ▸ ht.mem a hi ha')
        · have := hg.inj a (.data k) ha ha' hmid hkn heq
          subst this
          exact hi
      · exact (hg'.new a hu ha).2 (heq ▸ hmem.1)
    · exact hg'.zero k (by omega) hk'
  · intro s hs hnot
    rw [hg'.frame s (hg.sub hs) hnot, hg.frame s hs]
    intro a hi hu
    rw [← hg'.old a hu]
    exact hnot a hi (Slot.used_mono hg'.le hu)

/-- Fresh sectors in the slots `j`, ..., `j + cnt - 1` of an index block. -/
structure Filled (P P' : Set Sector) (rd : Disk) (ptr : Words) (j cnt : Nat) : Prop where
  sub : P ⊆ P'
  mem : ∀ q, j ≤ q → q < j + cnt → ptr.get q ∈ P' ∧ ptr.get q ∉ P
  inj : ∀ q q', j ≤ q → q < j + cnt → j ≤ q' → q' < j + cnt → ptr.get q = ptr.get q' → q = q'
  zero : ∀ q, j ≤ q → q < j + cnt → rd (ptr.get q) = dataDefault

theorem grown_direct (hn : n < 4) (hs : s ∉ P)
    (hptr : ∀ k, k < 15 → c'.ptrs.get k = if k = n then s else c.ptrs.get k)
    (hzero : rd' s = dataDefault) (hkeep : ∀ u ∈ P, rd' u = rd u) :
    Grown P rd c n (insert s P) rd' c' (n + 1) := by
  have hnewslot : ∀ a : Slot, a.used (n + 1) → ¬ a.used n → a = .data n := by
    intro a hu hnu
    cases a <;> simp only [Slot.used] at hu hnu
    case data k => rw [show k = n by omega]
    all_goals omega
  have hsector : sectorOf rd' c' (.data n) = s := by
    simp only [sectorOf, hn, if_true]
    rw [hptr n (by omega), if_pos rfl]
  constructor
  · omega
  · exact Set.subset_insert s P
  · apply sectorOf_congr
    · intro k hk hkn
      rw [hptr k (by omega), if_neg (by omega)]
    all_goals intros; omega
  · intro a hu hnu
    rw [hnewslot a hu hnu, hsector]
    exact ⟨Set.mem_insert s P, hs⟩
  · intro a b hua hna hub hnb _
    rw [hnewslot a hua hna, hnewslot b hub hnb]
  · intro k hk hk'
    rw [show k = n by omega, hsector, hzero]
  · intro u hu _
    exact hkeep u hu

theorem grown_indirect {P1 : Set Sector} (rd2 : Disk) {A : Words} {t j cnt : Nat}
    (ht : TreeOk P rd c n) (hn : n = 4 + 128 * t + j) (htlt : t < 10) (hj : j < 128)
    (hcnt : 0 < cnt) (hfit : j + cnt ≤ 128) (hsub : P ⊆ P1) (hs : s ∈ P1) (hfresh : j = 0 → s ∉ P)
    (hold : j ≠ 0 → s = c.ptrs.get (4 + t))
    (hptr : ∀ k, k < 15 → c'.ptrs.get k = if k = 4 + t then s else c.ptrs.get k)
    (hfill : Filled P1 P' rd2 A j cnt) (hAold : ∀ q, q < j → A.get q = (words (rd s)).get q)
    (hkeep : ∀ u ∈ P, rd2 u = rd u) (hA : rd' s = packWords A) (hoff : ∀ u, u ≠ s → rd' u = rd2 u) :
    Grown P rd c n P' rd' c' (n + cnt) := by
  -- the old index blocks are other sectors than `s`
  have hne : ∀ t', t' < t → c.ptrs.get (4 + t') ∈ P ∧ c.ptrs.get (4 + t') ≠ s := by
    intro t' ht'
    have hmem : c.ptrs.get (4 + t') ∈ P :=
      ht.mem (.indirect t') trivial ⟨by omega, by omega⟩
    refine ⟨hmem, ?_⟩
    by_cases hj0 : j = 0
    · rintro rfl
      exact hfresh hj0 hmem
    · rw [hold hj0]
      intro heq
      have := ht.inj (.indirect t') (.indirect t) trivial ⟨by omega, by omega⟩ trivial
        ⟨by omega, by omega⟩ heq
      simp only [Slot.indirect.injEq] at this
      omega
  have hst : c'.ptrs.get (4 + t) = s := by rw [hptr (4 + t) (by omega), if_pos rfl]
  have hdata : ∀ q, q < 128 → sectorOf rd' c' (.data (4 + 128 * t + q)) = A.get q := by
    intro q hq
    rw [sectorOf_data_indirect htlt hq]
    simp only [sectorOf, hst, hA, words_packWords]
  have hAs : ∀ q, j ≤ q → q < j + cnt → A.get q ≠ s := by
    intro q h1 h2 heq
    exact (hfill.mem q h1 h2).2 (heq ▸ hs)
  -- the new slots: `cnt` data slots, and the index block if it is new
  have hnewslot : ∀ a : Slot, a.used (n + cnt) → ¬ a.used n →
      (∃ q, j ≤ q ∧ q < j + cnt ∧ a = .data (4 + 128 * t + q)) ∨ (j = 0 ∧ a = .indirect t) := by
    intro a hu hnu
    cases a <;> simp only [Slot.used] at hu hnu
    case data k =>
      exact .inl ⟨k - (4 + 128 * t), by omega, by omega, by congr 1; omega⟩
    case indirect t' =>
      exact .inr ⟨by omega, by congr 1; omega⟩
    all_goals omega
  constructor
  · omega
  · exact fun u hu => hfill.sub (hsub hu)
  · apply sectorOf_congr
    · intro k hk _
      rw [hptr k (by omega), if_neg (by omega)]
    · intro t' ht' hlt
      by_cases htt : t' = t
      · subst htt
        rw [hst]
        exact hold (by omega)
      · rw [hptr (4 + t') (by omega), if_neg (by omega)]
    · intro h
      omega
    · intro t' q ht' hq hlt
      by_cases htt : t' = t
      · subst htt
        rw [← hold (by omega), hA, words_packWords]
        exact hAold q (by omega)
      · obtain ⟨hmem, hnes⟩ := hne t' (by omega)
        rw [hoff _ hnes, hkeep _ hmem]
    · intro j' hlt
      omega
    · intro j' q _ hlt
      omega
  · intro a hu hnu
    rcases hnewslot a hu hnu with ⟨q, h1, h2, rfl⟩ | ⟨hj0, rfl⟩
    · rw [hdata q (by omega)]
      exact ⟨(hfill.mem q h1 h2).1, fun hmem => (hfill.mem q h1 h2).2 (hsub hmem)⟩
    · simp only [sectorOf, hst]
      exact ⟨hfill.sub hs, hfresh hj0⟩
  · intro a b hua hna hub hnb heq
    rcases hnewslot a hua hna with ⟨q, h1, h2, rfl⟩ | ⟨hj0, rfl⟩ <;>
      rcases hnewslot b hub hnb with ⟨q', h1', h2', rfl⟩ | ⟨hj0', rfl⟩
    · rw [hdata q (by omega), hdata q' (by omega)] at heq
      rw [hfill.inj q q' h1 h2 h1' h2' heq]
    · rw [hdata q (by omega)] at heq
      simp only [sectorOf, hst] at heq
      exact absurd heq (hAs q h1 h2)
    · rw [hdata q' (by omega)] at heq
      simp only [sectorOf, hst] at heq
      exact absurd heq.symm (hAs q' h1' h2')
    · rfl
  · intro k hk hk'
    obtain ⟨q, hq, rfl⟩ : ∃ q, j ≤ q ∧ k = 4 + 128 * t + q :=
      ⟨k - (4 + 128 * t), by omega, by omega⟩
    rw [hdata q (by omega), hoff _ (hAs q hq (by omega)), hfill.zero q hq (by omega)]
  · intro u hu hnot
    have hus : u ≠ s := by
      rintro rfl
      exact hnot (.indirect t) trivial ⟨htlt, by omega⟩ hst
    rw [hoff u hus, hkeep u hu]

/-- More sectors under second-level block `a`, which holds `b` of them. The
double-indirect block is `s`, the second-level block is `s2`. -/
theorem grown_second {P1 P2 : Set Sector} (rd2 : Disk) (s2 : Sector) {A D : Words} {a b cnt : Nat}
    (ht : TreeOk P rd c n) (hn : n = 1284 + 128 * a + b) (ha : a < 128) (hb : b < 128)
    (hcnt : 0 < cnt) (hfit : b + cnt ≤ 128) (hsub : P ⊆ P1) (hs : s ∈ P1)
    (hfresh : n = 1284 → s ∉ P) (hold : n ≠ 1284 → s = c.ptrs.get 14) (hsub2 : P1 ⊆ P2)
    (hs₂ : s2 ∈ P2) (hfresh2 : b = 0 → s2 ∉ P1) (hold2 : b ≠ 0 → s2 = sectorOf rd c (.second a))
    (hptr : ∀ k, k < 15 → c'.ptrs.get k = if k = 14 then s else c.ptrs.get k)
    (hfill : Filled P2 P' rd2 D b cnt) (hAold : ∀ q, q < a → A.get q = (words (rd s)).get q)
    (hAa : A.get a = s2) (hDold : ∀ q, q < b → D.get q = (words (rd s2)).get q)
    (hkeep : ∀ u ∈ P, rd2 u = rd u) (hA : rd' s = packWords A) (hD' : s ≠ s2 → rd' s2 = packWords D)
    (hoff : ∀ u, u ≠ s → u ≠ s2 → rd' u = rd2 u) :
    Grown P rd c n P' rd' c' (n + cnt) := by
  have hss : s ≠ s2 := by
    by_cases hb0 : b = 0
    · rintro rfl
      exact hfresh2 hb0 hs
    · rw [hold (by omega), hold2 hb0]
      intro heq
      have := ht.inj .double (.second a) trivial (show 1284 < n by omega) trivial
        (show 1284 + 128 * a < n by omega) heq
      simp at this
  have hD := hD' hss
  have hst : c'.ptrs.get 14 = s := by rw [hptr 14 (by omega), if_pos rfl]
  have hs2 : sectorOf rd' c' (.second a) = s2 := by
    simp only [sectorOf, hst, hA, words_packWords, hAa]
  have hdata : ∀ q, q < 128 → sectorOf rd' c' (.data (1284 + 128 * a + q)) = D.get q := by
    intro q hq
    rw [sectorOf_data_second hq, hs2, hD, words_packWords]
  -- the old index blocks other than these two are untouched
  have hother : ∀ x : Slot, x.isIndex → x.used n → x ≠ .double → x ≠ .second a →
      sectorOf rd c x ≠ s ∧ sectorOf rd c x ≠ s2 := by
    intro x hi hu hnd hns
    have hmem := ht.mem x hi hu
    constructor
    · intro heq
      by_cases hn0 : n = 1284
      · exact hfresh hn0 (heq ▸ hmem)
      · rw [hold hn0] at heq
        exact hnd (ht.inj x .double hi hu trivial (show 1284 < n by omega) heq)
    · intro heq
      by_cases hb0 : b = 0
      · exact hfresh2 hb0 (hsub (heq ▸ hmem))
      · rw [hold2 hb0] at heq
        exact hns (ht.inj x (.second a) hi hu trivial
          (show 1284 + 128 * a < n by omega) heq)
  have hrd : ∀ x : Slot, x.isIndex → x.used n → x ≠ .double → x ≠ .second a →
      rd' (sectorOf rd c x) = rd (sectorOf rd c x) := by
    intro x hi hu hnd hns
    obtain ⟨h1, h2⟩ := hother x hi hu hnd hns
    rw [hoff _ h1 h2, hkeep _ (ht.mem x hi hu)]
  have hDs : ∀ q, b ≤ q → q < b + cnt → D.get q ≠ s ∧ D.get q ≠ s2 := by
    intro q h1 h2
    have hnot := (hfill.mem q h1 h2).2
    exact ⟨fun heq => hnot (hsub2 (heq ▸ hs)), fun heq => hnot (heq ▸ hs₂)⟩
  have hnewslot : ∀ x : Slot, x.used (n + cnt) → ¬ x.used n →
      (∃ q, b ≤ q ∧ q < b + cnt ∧ x = .data (1284 + 128 * a + q)) ∨
        (n = 1284 ∧ x = .double) ∨ (b = 0 ∧ x = .second a) := by
    intro x hu hnu
    cases x <;> simp only [Slot.used] at hu hnu
    case data k =>
      exact .inl ⟨k - (1284 + 128 * a), by omega, by omega, by congr 1; omega⟩
    case indirect t => omega
    case double => exact .inr (.inl ⟨by omega, rfl⟩)
    case second j => exact .inr (.inr ⟨by omega, by congr 1; omega⟩)
  -- where each new slot points
  have hat : ∀ x : Slot, x.used (n + cnt) → ¬ x.used n →
      (∃ q, b ≤ q ∧ q < b + cnt ∧ x = .data (1284 + 128 * a + q) ∧
        sectorOf rd' c' x = D.get q) ∨
      (n = 1284 ∧ x = .double ∧ sectorOf rd' c' x = s) ∨
      (b = 0 ∧ x = .second a ∧ sectorOf rd' c' x = s2) := by
    intro x hu hnu
    rcases hnewslot x hu hnu with ⟨q, h1, h2, rfl⟩ | ⟨h0, rfl⟩ | ⟨h0, rfl⟩
    · exact .inl ⟨q, h1, h2, rfl, hdata q (by omega)⟩
    · exact .inr (.inl ⟨h0, rfl, hst⟩)
    · exact .inr (.inr ⟨h0, rfl, hs2⟩)
  constructor
  · omega
  · exact fun u hu => hfill.sub (hsub2 (hsub hu))
  · apply sectorOf_congr
    · intro k hk _
      rw [hptr k (by omega), if_neg (by omega)]
    · intro t htt _
      rw [hptr (4 + t) (by omega), if_neg (by omega)]
    · intro h
      rw [hst]
      exact hold (by omega)
    · intro t q htt hq hlt
      rw [show rd' (c.ptrs.get (4 + t)) = rd (c.ptrs.get (4 + t)) from
        hrd (.indirect t) trivial ⟨htt, by omega⟩ (by simp) (by simp)]
    · intro j hlt
      rw [← hold (by omega), hA, words_packWords]
      by_cases hja : j = a
      · -- block `a` itself, when it is an old one
        subst hja
        rw [hAa, hold2 (by omega)]
        simp only [sectorOf]
        rw [hold (by omega)]
      · exact hAold j (by omega)
    · intro j q hq hlt
      by_cases hja : j = a
      · subst hja
        rw [← hold2 (by omega), hD, words_packWords]
        exact hDold q (by omega)
      · rw [hrd (.second j) trivial (show 1284 + 128 * j < n by omega) (by simp) (by simp [hja])]
  · intro x hu hnu
    rcases hat x hu hnu with ⟨q, h1, h2, rfl, heq⟩ | ⟨h0, rfl, heq⟩ | ⟨h0, rfl, heq⟩
    · rw [heq]
      exact ⟨(hfill.mem q h1 h2).1, fun hmem => (hfill.mem q h1 h2).2 (hsub2 (hsub hmem))⟩
    · rw [heq]
      exact ⟨hfill.sub (hsub2 hs), hfresh h0⟩
    · rw [heq]
      exact ⟨hfill.sub hs₂, fun hmem => hfresh2 h0 (hsub hmem)⟩
  · intro x y hux hnx huy hny heq
    rcases hat x hux hnx with ⟨q, h1, h2, rfl, hx⟩ | ⟨h0, rfl, hx⟩ | ⟨h0, rfl, hx⟩ <;>
      rcases hat y huy hny with ⟨q', h1', h2', rfl, hy⟩ | ⟨h0', rfl, hy⟩ | ⟨h0', rfl, hy⟩ <;>
      have hxy := hx.symm.trans (heq.trans hy)
    · rw [hfill.inj q q' h1 h2 h1' h2' hxy]
    · exact absurd hxy (hDs q h1 h2).1
    · exact absurd hxy (hDs q h1 h2).2
    · exact absurd hxy.symm (hDs q' h1' h2').1
    · rfl
    · exact absurd hxy hss
    · exact absurd hxy.symm (hDs q' h1' h2').2
    · exact absurd hxy.symm hss
    · rfl
  · intro k hk hk'
    obtain ⟨q, hq, rfl⟩ : ∃ q, b ≤ q ∧ k = 1284 + 128 * a + q :=
      ⟨k - (1284 + 128 * a), by omega, by omega⟩
    rw [hdata q (by omega), hoff _ (hDs q hq (by omega)).1 (hDs q hq (by omega)).2,
      hfill.zero q hq (by omega)]
  · intro u hu hnot
    have hus : u ≠ s := by
      rintro rfl
      exact hnot .double trivial (show 1284 < n + cnt by omega) hst
    have hus2 : u ≠ s2 := by
      rintro rfl
      exact hnot (.second a) trivial (show 1284 + 128 * a < n + cnt by omega) hs2
    rw [hoff u hus hus2, hkeep u hu]

end

end Pintos.FileSys
