import Pintos.FileSys.GrowthRuns
import Pintos.Lib.Ranges
import Mathlib.Data.List.Flatten

/-!
# What `inode_close` releases

`releaseOrder n` is the order in which a file of `n` sectors is given back: for
each pointer of the inode the data sectors under it, each index block right
after the sectors it lists.

The proofs about the loops know `free_map_release` through `ReleaseLaws`: a
predicate `Ok fs rest` — the sectors `rest` are still to be released — that a
release and the reading of an index block keep.
-/

namespace Pintos.FileSys

open Lib List

/-! ## The order -/

def dataSlots (a b : Nat) : List Slot := (List.range' a (b - a)).map .data

/-- The data slots under second-level block `j`, then the block. -/
def secondOrder (n j : Nat) : List Slot :=
  if 1284 + 128 * j < n then
    dataSlots (1284 + 128 * j) (min n (1284 + 128 * (j + 1))) ++ [.second j]
  else []

/-- What hangs on pointer `index` of the inode. -/
def topOrder (n index : Nat) : List Slot :=
  if index < 4 then if index < n then [.data index] else []
  else if index < 14 then
    if 4 + 128 * (index - 4) < n then
      dataSlots (4 + 128 * (index - 4)) (min n (4 + 128 * (index - 4 + 1))) ++
        [.indirect (index - 4)]
    else []
  else if 1284 < n then (List.range 128).flatMap (secondOrder n) ++ [.double] else []

/-- The order in which the slots of a file of `n` sectors are released. -/
def releaseOrder (n : Nat) : List Slot := (List.range 15).flatMap (topOrder n)

def Slot.data? : Slot → Option Nat
  | .data k => some k
  | _ => none

/-- How many sectors lie before pointer `index`. -/
def startOf (index : Nat) : Nat :=
  if index ≤ 4 then index else if index ≤ 14 then 4 + 128 * (index - 4) else 17668

theorem data?_dataSlots (a b : Nat) :
    (dataSlots a b).filterMap Slot.data? = List.range' a (b - a) := by
  rw [dataSlots, filterMap_map]
  show (List.range' a (b - a)).filterMap some = _
  exact filterMap_some

theorem data?_secondOrder (n j : Nat) :
    (secondOrder n j).filterMap Slot.data? =
      List.range' (min n (1284 + 128 * j))
        (min n (1284 + 128 * (j + 1)) - min n (1284 + 128 * j)) := by
  unfold secondOrder
  split
  · rw [filterMap_append, data?_dataSlots, show min n (1284 + 128 * j) = 1284 + 128 * j by omega]
    exact append_nil _
  · rw [show min n (1284 + 128 * (j + 1)) - min n (1284 + 128 * j) = 0 by omega]
    rfl

variable {n : Nat} {x : Slot}

theorem data?_topOrder {index : Nat} (hn : n ≤ CAPACITY) (hidx : index < 15) :
    (topOrder n index).filterMap Slot.data? =
      List.range' (min n (startOf index))
        (min n (startOf (index + 1)) - min n (startOf index)) := by
  unfold CAPACITY at hn
  unfold topOrder
  split_ifs with h4 hlt h14 hlt hlt
  · have h1 : startOf index = index := if_pos (by omega)
    have h2 : startOf (index + 1) = index + 1 := if_pos (by omega)
    rw [h1, h2, show min n (index + 1) - min n index = 1 by omega, show min n index = index by omega]
    rfl
  · have h1 : startOf index = index := if_pos (by omega)
    have h2 : startOf (index + 1) = index + 1 := if_pos (by omega)
    rw [h1, h2, show min n (index + 1) - min n index = 0 by omega]
    rfl
  · have h1 : startOf index = 4 + 128 * (index - 4) := by
      unfold startOf
      split_ifs <;> omega
    have h2 : startOf (index + 1) = 4 + 128 * (index - 4 + 1) := by
      unfold startOf
      split_ifs <;> omega
    rw [h1, h2, filterMap_append, data?_dataSlots,
      show min n (4 + 128 * (index - 4)) = 4 + 128 * (index - 4) by omega]
    exact append_nil _
  · have h1 : startOf index = 4 + 128 * (index - 4) := by
      unfold startOf
      split_ifs <;> omega
    have h2 : startOf (index + 1) = 4 + 128 * (index - 4 + 1) := by
      unfold startOf
      split_ifs <;> omega
    rw [h1, h2, show min n (4 + 128 * (index - 4 + 1)) - min n (4 + 128 * (index - 4)) = 0 by omega]
    rfl
  · obtain rfl : index = 14 := by omega
    -- the second-level blocks lie end to end
    have htel := (flatMap_range'_telescope (f := fun j => min n (1284 + 128 * j)) (k := 128)
      (fun i _ => by omega)).2
    rw [filterMap_append, filterMap_flatMap]
    simp only [data?_secondOrder]
    rw [htel]
    exact append_nil _
  · obtain rfl : index = 14 := by omega
    rw [show startOf (14 + 1) = 17668 from rfl, show startOf 14 = 1284 from rfl,
      show min n 17668 - min n 1284 = 0 by omega]
    rfl

theorem releaseOrder_data (hn : n ≤ CAPACITY) :
    (releaseOrder n).filterMap Slot.data? = List.range n := by
  have htel := (flatMap_range'_telescope (f := fun i => min n (startOf i)) (k := 15) ?_).2
  · rw [releaseOrder, filterMap_flatMap]
    rw [flatMap_congr (fun i hi => data?_topOrder hn (mem_range.mp hi))]
    rw [htel]
    unfold CAPACITY at hn
    rw [show startOf 0 = 0 from rfl, show startOf 15 = 17668 from rfl, range_eq_range']
    congr 1 <;> omega
  · intro i hi
    unfold startOf
    split_ifs <;> omega

theorem mem_dataSlots {a b : Nat} :
    x ∈ dataSlots a b ↔ ∃ k, a ≤ k ∧ k < b ∧ x = .data k := by
  unfold dataSlots
  rw [mem_map]
  constructor
  · rintro ⟨k, hk, rfl⟩
    rw [mem_range'_1] at hk
    exact ⟨k, hk.1, by omega, rfl⟩
  · rintro ⟨k, h1, h2, rfl⟩
    exact ⟨k, by rw [mem_range'_1]; omega, rfl⟩

theorem mem_secondOrder {j : Nat} :
    x ∈ secondOrder n j ↔ x.used n ∧
      ((∃ q, q < 128 ∧ x = .data (1284 + 128 * j + q)) ∨ x = .second j) := by
  unfold secondOrder
  split
  · rw [mem_append, mem_dataSlots, mem_singleton]
    constructor
    · rintro (⟨k, h1, h2, rfl⟩ | rfl)
      · exact ⟨show k < n by omega, .inl ⟨k - (1284 + 128 * j), by omega, by congr 1; omega⟩⟩
      · exact ⟨show 1284 + 128 * j < n by assumption, .inr rfl⟩
    · rintro ⟨hu, ⟨q, hq, rfl⟩ | rfl⟩
      · simp only [Slot.used] at hu
        exact .inl ⟨_, by omega, by omega, rfl⟩
      · exact .inr rfl
  · constructor
    · intro h
      simp at h
    · rintro ⟨hu, ⟨q, hq, rfl⟩ | rfl⟩ <;> simp only [Slot.used] at hu <;> omega

def Slot.top : Slot → Nat
  | .data k => if k < 4 then k else if k < 1284 then 4 + (k - 4) / 128 else 14
  | .indirect t => 4 + t
  | .double => 14
  | .second _ => 14

theorem Slot.top_lt (hu : x.used n) : x.top < 15 := by
  cases x with
  | data k =>
    unfold top
    dsimp only
    split_ifs <;> omega
  | indirect t =>
    have ht : t < 10 := hu.1
    show 4 + t < 15
    omega
  | double => decide
  | second j => exact Nat.lt_succ_self 14

theorem mem_topOrder {index : Nat} (hn : n ≤ CAPACITY) (hidx : index < 15) :
    x ∈ topOrder n index ↔ x.used n ∧ x.top = index := by
  unfold CAPACITY at hn
  unfold topOrder
  by_cases h4 : index < 4
  · rw [if_pos h4]
    cases x with
    | _ =>
      simp only [Slot.used, Slot.top]
      split_ifs <;> simp <;> omega
  · rw [if_neg h4]
    by_cases h14 : index < 14
    · obtain ⟨t, rfl⟩ : ∃ t, index = 4 + t := ⟨index - 4, by omega⟩
      rw [if_pos h14, Nat.add_sub_cancel_left]
      have hmem : x ∈ (if 4 + 128 * t < n then
          dataSlots (4 + 128 * t) (min n (4 + 128 * (t + 1))) ++ [.indirect t] else []) ↔
          4 + 128 * t < n ∧ ((∃ k, 4 + 128 * t ≤ k ∧ k < min n (4 + 128 * (t + 1)) ∧ x = .data k) ∨
            x = .indirect t) := by
        split
        · rw [mem_append, mem_dataSlots, mem_singleton]
          simp_all
        · simp_all
      rw [hmem]
      cases x with
      | data k =>
        simp only [Slot.used, Slot.top, Slot.data.injEq, reduceCtorEq, or_false]
        constructor
        · rintro ⟨h, k', h1, h2, rfl⟩
          refine ⟨by omega, ?_⟩
          rw [if_neg (by omega), if_pos (by omega)]
          omega
        · rintro ⟨hk, htop⟩
          refine ⟨?_, k, ?_, ?_, rfl⟩ <;> split_ifs at htop <;> omega
      | indirect t' =>
        simp only [Slot.used, Slot.top, Slot.indirect.injEq, reduceCtorEq, and_false, exists_false,
          false_or]
        omega
      | _ =>
        constructor
        · rintro ⟨-, ⟨k, -, -, h⟩ | h⟩ <;> cases h
        · rintro ⟨-, htop⟩
          simp only [Slot.top] at htop
          omega
    · obtain rfl : index = 14 := by omega
      rw [if_neg h14]
      have hmem : x ∈ (if 1284 < n then (List.range 128).flatMap (secondOrder n) ++ [.double]
          else []) ↔ 1284 < n ∧ ((∃ j, j < 128 ∧ x ∈ secondOrder n j) ∨ x = .double) := by
        split
        · rw [mem_append, mem_flatMap, mem_singleton]
          simp_all
        · simp_all
      rw [hmem]
      simp only [mem_secondOrder]
      cases x with
      | data k =>
        simp only [Slot.used, Slot.top, Slot.data.injEq, reduceCtorEq, or_false]
        constructor
        · rintro ⟨h, j, hj, hk, q, hq, rfl⟩
          refine ⟨hk, ?_⟩
          rw [if_neg (by omega), if_neg (by omega)]
        · rintro ⟨hk, htop⟩
          have hge : 1284 ≤ k := by
            split_ifs at htop <;> omega
          exact ⟨by omega, (k - 1284) / 128, by omega, hk, (k - 1284) % 128, by omega, by omega⟩
      | indirect t =>
        constructor
        · rintro ⟨-, ⟨j, -, -, ⟨q, -, h⟩ | h⟩ | h⟩ <;> cases h
        · rintro ⟨hu, htop⟩
          simp only [Slot.used, Slot.top] at hu htop
          omega
      | double => simp [Slot.used, Slot.top]
      | second j =>
        simp only [Slot.used, Slot.top, Slot.second.injEq, reduceCtorEq, and_false, exists_false,
          false_or, or_false]
        constructor
        · rintro ⟨h, j', hj, hu, rfl⟩
          exact ⟨hu, trivial⟩
        · rintro ⟨hu, -⟩
          exact ⟨by omega, j, by omega, hu, rfl⟩

theorem mem_releaseOrder (hn : n ≤ CAPACITY) :
    x ∈ releaseOrder n ↔ x.used n := by
  unfold releaseOrder
  rw [mem_flatMap]
  constructor
  · rintro ⟨index, hidx, hx⟩
    exact ((mem_topOrder hn (mem_range.mp hidx)).mp hx).1
  · intro hu
    have hlt := Slot.top_lt hu
    exact ⟨x.top, mem_range.mpr hlt, (mem_topOrder hn hlt).mpr ⟨hu, rfl⟩⟩

theorem dataSlots_nodup (a b : Nat) : (dataSlots a b).Nodup :=
  List.Nodup.map (fun _ _ h => Slot.data.inj h) nodup_range'

theorem secondOrder_nodup (n j : Nat) : (secondOrder n j).Nodup := by
  unfold secondOrder
  split
  · rw [nodup_append]
    refine ⟨dataSlots_nodup _ _, nodup_singleton _, ?_⟩
    intro x hx y hy
    rw [mem_dataSlots] at hx
    rw [mem_singleton] at hy
    obtain ⟨k, -, -, rfl⟩ := hx
    simp [hy]
  · exact nodup_nil

theorem topOrder_nodup (n index : Nat) : (topOrder n index).Nodup := by
  unfold topOrder
  split_ifs
  · exact nodup_singleton _
  · exact nodup_nil
  · rw [nodup_append]
    refine ⟨dataSlots_nodup _ _, nodup_singleton _, ?_⟩
    intro x hx y hy
    rw [mem_dataSlots] at hx
    rw [mem_singleton] at hy
    obtain ⟨k, -, -, rfl⟩ := hx
    simp [hy]
  · exact nodup_nil
  · rw [nodup_append]
    refine ⟨?_, nodup_singleton _, ?_⟩
    · rw [nodup_flatMap]
      refine ⟨fun j _ => secondOrder_nodup n j, ?_⟩
      refine List.Pairwise.imp_of_mem ?_ (nodup_range (n := 128))
      intro j j' _ _ hne x hx hx'
      rw [mem_secondOrder] at hx hx'
      rcases hx with ⟨-, ⟨q, hq, rfl⟩ | rfl⟩ <;> rcases hx' with ⟨-, ⟨q', hq', heq⟩ | heq⟩
      · have := Slot.data.inj heq
        omega
      · simp at heq
      · simp at heq
      · exact hne (Slot.second.inj heq)
    · intro x hx y hy
      rw [mem_flatMap] at hx
      obtain ⟨j, -, hx⟩ := hx
      rw [mem_secondOrder] at hx
      rw [mem_singleton] at hy
      rcases hx with ⟨-, ⟨q, -, rfl⟩ | rfl⟩ <;> simp [hy]
  · exact nodup_nil

theorem releaseOrder_nodup (hn : n ≤ CAPACITY) : (releaseOrder n).Nodup := by
  unfold releaseOrder
  rw [nodup_flatMap]
  refine ⟨fun index _ => topOrder_nodup n index, ?_⟩
  refine List.Pairwise.imp_of_mem ?_ (nodup_range (n := 15))
  intro i j hi hj hne x hx hx'
  rw [mem_topOrder hn (mem_range.mp hi)] at hx
  rw [mem_topOrder hn (mem_range.mp hj)] at hx'
  exact hne (hx.2.symm.trans hx'.2)

/-! ## The loops -/

/-- `Ok fs rest`: the sectors `rest` are to be released from `fs` on, in this
order. The index blocks `N` among them hold what `rd` says. -/
structure ReleaseLaws (fm : FreeMapOps) (rd : Disk) (N : Set Sector)
    (Ok : FS → List Sector → Prop) : Prop where
  release : ∀ {fs s rest}, Ok fs (s :: rest) → ∃ fs', fm.release fs s = some fs' ∧ Ok fs' rest
  read : ∀ {fs s rest}, Ok fs rest → s ∈ rest → s ∈ N →
    fs.store.disk s = rd s ∧ Ok (fs.diskRead s).2 rest

section
variable {fm : FreeMapOps} {rd : Disk} {N : Set Sector} {Ok : FS → List Sector → Prop}
  (laws : ReleaseLaws fm rd N Ok)
include laws

variable {fs : FS} {rest : List Sector} {n index : Nat}

/-- The loop over an index block releases its entries from `i` on, until the
block or the file ends. -/
theorem releaseEntries_spec (ptr : Words) (fuel : Nat) {i : Nat} (sectors : Nat) {cnt : Nat}
    (hpos : 0 < sectors) (hcnt : cnt = min fuel sectors)
    (hok : Ok fs ((List.range' i cnt).map ptr.get ++ rest)) :
    ∃ fs', releaseEntries fm ptr fuel fs i sectors = some (fs', sectors - cnt) ∧ Ok fs' rest := by
  induction fuel generalizing fs i sectors cnt with
  | zero =>
    obtain rfl : cnt = 0 := by omega
    exact ⟨fs, rfl, hok⟩
  | succ fuel ih =>
    obtain ⟨cnt, rfl⟩ : ∃ c, cnt = c + 1 := ⟨cnt - 1, by omega⟩
    rw [range'_succ, map_cons, cons_append] at hok
    obtain ⟨fs1, heq1, hok1⟩ := laws.release hok
    rw [releaseEntries, heq1]
    simp only [some_bind]
    by_cases hlast : sectors - 1 = 0
    · obtain rfl : cnt = 0 := by omega
      rw [if_pos hlast]
      exact ⟨fs1, by rw [show sectors - (0 + 1) = 0 by omega], hok1⟩
    · rw [if_neg hlast]
      obtain ⟨fs2, heq2, hok2⟩ := ih (sectors - 1) (by omega) (by omega) hok1
      exact ⟨fs2, by rw [heq2, show sectors - 1 - cnt = sectors - (cnt + 1) by omega], hok2⟩

omit laws in
/-- The sectors of consecutive data slots are consecutive entries of the index
block that lists them. -/
theorem map_dataSlots {f : Slot → Sector} {ptr : Words} {a b : Nat}
    (h : ∀ q, q < b - a → f (.data (a + q)) = ptr.get q) :
    (dataSlots a b).map f = (List.range' 0 (b - a)).map ptr.get := by
  rw [dataSlots, map_map, range'_eq_map_range, map_map, ← range_eq_range']
  apply map_congr_left
  intro q hq
  exact h q (mem_range.mp hq)

omit laws in
theorem secondOrder_nil {j : Nat} (h : n ≤ 1284 + 128 * j) : secondOrder n j = [] := by
  rw [secondOrder, if_neg (by omega)]

theorem releaseSeconds_spec {c : InodeCore} (fuel : Nat) {i : Nat} (hfuel : i + fuel = 128)
    (hi : 1284 + 128 * i < n) (hcap : n ≤ CAPACITY)
    (hN : ∀ a : Slot, a.isIndex → a.used n → sectorOf rd c a ∈ N)
    (hok : Ok fs (((List.range' i fuel).flatMap (secondOrder n)).map (sectorOf rd c) ++ rest)) :
    ∃ fs', releaseSeconds fm (words (rd (c.ptrs.get 14))) fuel fs i (n - (1284 + 128 * i)) =
      some (fs', 0) ∧ Ok fs' rest := by
  unfold CAPACITY at hcap
  induction fuel generalizing fs i with
  | zero => omega
  | succ fuel ih =>
    set cnt := min n (1284 + 128 * (i + 1)) - (1284 + 128 * i) with hcnt
    have hsec : (words (rd (c.ptrs.get 14))).get i = sectorOf rd c (.second i) := rfl
    have hdata : (dataSlots (1284 + 128 * i) (min n (1284 + 128 * (i + 1)))).map (sectorOf rd c) =
        (List.range' 0 cnt).map (words (rd (sectorOf rd c (.second i)))).get := by
      apply map_dataSlots
      intro q hq
      exact sectorOf_data_second (by omega)
    rw [range'_succ, flatMap_cons, secondOrder, if_pos hi, map_append,
      map_append, hdata, map_singleton, append_assoc, append_assoc] at hok
    -- read the block, release its entries, release the block
    obtain ⟨hrd, hok1⟩ := laws.read (s := sectorOf rd c (.second i)) hok (by simp)
      (hN (.second i) trivial hi)
    obtain ⟨fs2, heq2, hok2⟩ := releaseEntries_spec laws
      (words (rd (sectorOf rd c (.second i)))) PTR_PER_BLOCK
      (n - (1284 + 128 * i)) (by omega) (by unfold PTR_PER_BLOCK; omega) hok1
    rw [singleton_append] at hok2
    obtain ⟨fs3, heq3, hok3⟩ := laws.release hok2
    rw [releaseSeconds, hsec]
    simp only [FS.diskRead_fst, hrd]
    rw [show unpackWords (rd (sectorOf rd c (.second i))) =
      words (rd (sectorOf rd c (.second i))) from rfl, heq2]
    simp only [some_bind, heq3]
    by_cases hdone : n - (1284 + 128 * i) - cnt = 0
    · -- the later blocks hold nothing
      have hnil : (List.range' (i + 1) fuel).flatMap (secondOrder n) = [] := by
        rw [flatMap_eq_nil_iff]
        intro j hj
        rw [mem_range'_1] at hj
        exact secondOrder_nil (by omega)
      rw [hnil] at hok3
      rw [if_pos hdone, hdone]
      exact ⟨fs3, rfl, hok3⟩
    · rw [if_neg hdone, show n - (1284 + 128 * i) - cnt = n - (1284 + 128 * (i + 1)) by omega]
      exact ih (by omega) (by omega) hok3

omit laws in
theorem topOrder_nil (hidx : index < 15) (h : n ≤ startOf index) :
    topOrder n index = [] := by
  unfold startOf at h
  unfold topOrder
  split_ifs at h ⊢ <;> first | rfl | omega

theorem releaseTurn_spec {ino : Inode} (hidx : index < 15) (hlt : startOf index < n)
    (hcap : n ≤ CAPACITY)
    (hN : ∀ a : Slot, a.isIndex → a.used n → sectorOf rd ino a ∈ N)
    (hok : Ok fs ((topOrder n index).map (sectorOf rd ino) ++ rest)) :
    ∃ fs', releaseTurn fm ino fs index (n - startOf index) =
      some (fs', n - startOf (index + 1)) ∧ Ok fs' rest := by
  unfold CAPACITY at hcap
  by_cases h4 : index < 4
  · -- a direct pointer
    have hstart : startOf index = index := if_pos (by omega)
    have hnext : startOf (index + 1) = index + 1 := if_pos (by omega)
    have hsec : sectorOf rd ino (.data index) = ino.ptrs.get index := if_pos h4
    rw [hstart] at hlt
    rw [topOrder, if_pos h4, if_pos hlt, map_singleton, singleton_append, hsec] at hok
    obtain ⟨fs1, heq1, hok1⟩ := laws.release hok
    rw [releaseTurn, if_pos (show index < NUM_PTRS_DIR from h4), heq1, hstart, hnext]
    exact ⟨fs1, rfl, hok1⟩
  · by_cases h14 : index < 14
    · -- a single-indirect block
      obtain ⟨t, rfl⟩ : ∃ t, index = 4 + t := ⟨index - 4, by omega⟩
      have hstart : startOf (4 + t) = 4 + 128 * t := by
        unfold startOf
        split_ifs <;> omega
      have hnext : startOf (4 + t + 1) = 4 + 128 * (t + 1) := by
        unfold startOf
        split_ifs <;> omega
      rw [hstart] at hlt
      set cnt := min n (4 + 128 * (t + 1)) - (4 + 128 * t) with hcnt
      have hdata : (dataSlots (4 + 128 * t) (min n (4 + 128 * (t + 1)))).map
          (sectorOf rd ino) =
          (List.range' 0 cnt).map (words (rd (ino.ptrs.get (4 + t)))).get := by
        apply map_dataSlots
        intro q hq
        exact sectorOf_data_indirect (by omega) (by omega)
      rw [topOrder, if_neg h4, if_pos h14, Nat.add_sub_cancel_left, if_pos hlt, map_append,
        hdata, map_singleton, append_assoc] at hok
      obtain ⟨hrd, hok1⟩ := laws.read (s := ino.ptrs.get (4 + t)) hok (by simp [sectorOf])
        (hN (.indirect t) trivial ⟨by omega, hlt⟩)
      obtain ⟨fs2, heq2, hok2⟩ := releaseEntries_spec laws (words (rd (ino.ptrs.get (4 + t))))
        PTR_PER_BLOCK (n - (4 + 128 * t)) (by omega)
        (by unfold PTR_PER_BLOCK; omega) hok1
      rw [singleton_append] at hok2
      obtain ⟨fs3, heq3, hok3⟩ := laws.release hok2
      refine ⟨fs3, ?_, hok3⟩
      rw [releaseTurn, if_neg (show ¬ 4 + t < NUM_PTRS_DIR from h4),
        if_pos (show 4 + t < NUM_PTRS_DIR + NUM_PTRS_INDIR from h14), hstart, hnext]
      simp only [FS.diskRead_fst, hrd]
      rw [show unpackWords (rd (ino.ptrs.get (4 + t))) = words (rd (ino.ptrs.get (4 + t))) from rfl,
        heq2]
      simp only [some_bind]
      rw [show fm.release fs2 (ino.ptrs.get (4 + t)) = some fs3 from heq3, some_bind,
        show n - (4 + 128 * t) - cnt = n - (4 + 128 * (t + 1)) by omega]
    · -- the double-indirect block
      obtain rfl : index = 14 := by omega
      have hstart : startOf 14 = 1284 := rfl
      have hnext : startOf (14 + 1) = 17668 := rfl
      rw [hstart] at hlt
      rw [topOrder, if_neg h4, if_neg h14, if_pos hlt, map_append, map_singleton,
        append_assoc, range_eq_range'] at hok
      obtain ⟨hrd, hok1⟩ := laws.read (s := ino.ptrs.get 14) hok (by simp [sectorOf])
        (hN .double trivial hlt)
      obtain ⟨fs2, heq2, hok2⟩ := releaseSeconds_spec laws 128 (i := 0) (by omega)
        (by omega) (by unfold CAPACITY; omega) hN hok1
      rw [singleton_append] at hok2
      obtain ⟨fs3, heq3, hok3⟩ := laws.release hok2
      refine ⟨fs3, ?_, hok3⟩
      rw [releaseTurn, if_neg (by decide), if_neg (by decide), hstart, hnext]
      simp only [FS.diskRead_fst, hrd]
      rw [show unpackWords (rd (ino.ptrs.get 14)) = words (rd (ino.ptrs.get 14)) from rfl,
        show n - 1284 = n - (1284 + 128 * 0) by omega,
        show PTR_PER_BLOCK = 128 from rfl, heq2]
      simp only [some_bind]
      rw [show fm.release fs2 (ino.ptrs.get 14) = some fs3 from heq3, some_bind,
        show n - 17668 = 0 by omega]

/-- **The release loop** gives back what is left of the file, in order. -/
theorem releaseLoop_spec (ino : Inode) {fuel : Nat} (hidx : index ≤ 15)
    (hfuel : 15 - index < fuel) (hptr : ino.ptrIdx = ptrIdxOf n) (hcap : n ≤ CAPACITY)
    (hN : ∀ a : Slot, a.isIndex → a.used n → sectorOf rd ino a ∈ N)
    (hok : Ok fs (((List.range' index (15 - index)).flatMap (topOrder n)).map
      (sectorOf rd ino))) :
    ∃ fs', releaseLoop fm ino fuel fs index (n - startOf index) = some fs' ∧ Ok fs' [] := by
  induction fuel generalizing fs index with
  | zero => omega
  | succ fuel ih =>
    by_cases hlt : index < 15
    · have hsplit : List.range' index (15 - index) =
          index :: List.range' (index + 1) (15 - (index + 1)) := by
        rw [show 15 - index = 15 - (index + 1) + 1 by omega, range'_succ]
      rw [hsplit, flatMap_cons, map_append] at hok
      rw [releaseLoop, if_pos (show index < NUM_PTRS from hlt)]
      by_cases hdone : n - startOf index = 0
      · -- nothing is left: no later pointer holds anything either
        have hnil : (List.range' (index + 1) (15 - (index + 1))).flatMap (topOrder n) = [] := by
          rw [flatMap_eq_nil_iff]
          intro k hk
          rw [mem_range'_1] at hk
          refine topOrder_nil (by omega) ?_
          unfold startOf at hdone ⊢
          split_ifs at hdone ⊢ <;> omega
        rw [topOrder_nil hlt (by omega), hnil] at hok
        exact ⟨fs, by rw [if_pos hdone], hok⟩
      · -- the growth position is not behind the sectors that are left
        have hle : ¬ index > ino.ptrIdx := by
          unfold CAPACITY at hcap
          rw [hptr, ptrIdxOf]
          unfold startOf at hdone
          split_ifs at hdone ⊢ <;> omega
        obtain ⟨fs1, heq1, hok1⟩ := releaseTurn_spec laws hlt (by omega) hcap hN hok
        rw [if_neg hdone, if_neg hle, heq1]
        exact ih (by omega) (by omega) hok1
    · obtain rfl : index = 15 := by omega
      exact ⟨fs, by rw [releaseLoop, if_neg (by decide)], hok⟩

end

/-! ## inode_close of a removed inode -/

/-- `free_map_release` changes only the free map. -/
def ReleasesOnly (fm : FreeMapOps) : Prop :=
  ∀ fs s, ∃ freeMap, fm.release fs s =
    some { fs with freeMap := freeMap, log := .release s :: fs.log }

def Access.released? : Access → Option Sector
  | .release s => some s
  | _ => none

def released (l : List Access) : List Sector := l.reverse.filterMap Access.released?

theorem released_cons (e : Access) (l : List Access) :
    released (e :: l) = released l ++ e.released?.toList := by
  unfold released
  rw [reverse_cons, filterMap_append]
  cases h : e.released? <;> simp [h]

/-- What has been released since `fs0` and what is left is `total`. -/
def Releasing (fs0 : FS) (total : List Sector) (fs : FS) (rest : List Sector) : Prop :=
  fs.store.disk = fs0.store.disk ∧ ∃ l, fs.log = l ++ fs0.log ∧ released l ++ rest = total

theorem releasing_laws {fm : FreeMapOps} (hfm : ReleasesOnly fm) (fs0 : FS)
    (total : List Sector) : ReleaseLaws fm fs0.store.disk Set.univ (Releasing fs0 total) where
  release := by
    rintro fs s rest ⟨hdisk, l, hl, htotal⟩
    obtain ⟨freeMap, heq⟩ := hfm fs s
    refine ⟨_, heq, hdisk, .release s :: l, by simp [hl], ?_⟩
    rw [released_cons]
    simpa [Access.released?] using htotal
  read := by
    rintro fs s rest ⟨hdisk, l, hl, htotal⟩ _ _
    refine ⟨by rw [hdisk], hdisk, .diskRead s (fs.store.disk s) :: l, by simp [FS.diskRead, hl], ?_⟩
    rw [released_cons]
    simpa [Access.released?] using htotal

/-- A file with a sector has a length that does not wrap around. -/
theorem length_of_sectors_pos {L : Int} (hrange : -2147483648 ≤ L ∧ L < 2147483648)
    (hpos : 0 < bytesToSectors L) (hcap : bytesToSectors L ≤ CAPACITY) :
    0 ≤ L ∧ L ≤ 9046016 := by
  have h0 : 0 ≤ L := by
    by_contra hneg
    unfold CAPACITY at hcap
    unfold bytesToSectors i32 at hpos hcap
    have hmod : (L + 511).bmod 4294967296 = L + 511 := by
      rw [Int.bmod_def]
      split <;> omega
    rw [hmod] at hpos hcap
    by_cases hsmall : 0 ≤ L + 511
    · rw [Int.tdiv_eq_ediv_of_nonneg hsmall] at hpos
      omega
    · rw [show L + 511 = -(-511 - L) by omega, Int.neg_tdiv,
        Int.tdiv_eq_ediv_of_nonneg (by omega)] at hpos hcap
      omega
  exact ⟨h0, length_le_of_sectors h0 hrange.2 hcap⟩

/-- **Deallocation walks the tree of the lookup.** -/
theorem close_removed_releases_tree {fm : FreeMapOps} (hfm : ReleasesOnly fm) {fs : FS}
    {inode : Sector} {ino : Inode} (hino : fs.inode? inode = some ino) (hlast : ino.openCnt = 1)
    (hrem : ino.removed = true) (hrange : -2147483648 ≤ ino.length ∧ ino.length < 2147483648)
    (hcap : bytesToSectors ino.length ≤ CAPACITY)
    (hptr : ino.ptrIdx = ptrIdxOf (bytesToSectors ino.length)) :
    ∃ (fs' : FS) (l : List Access) (order : List Slot),
      inodeClose fm fs inode = some fs' ∧ fs'.log = l ++ fs.log ∧
      released l = ino.sector :: order.map (sectorOf fs.store.disk ino.toInodeCore) ∧
      order.filterMap Slot.data? = List.range (bytesToSectors ino.length) ∧
      order.Nodup ∧
      (∀ a : Slot, a.isIndex → (a ∈ order ↔
        ∃ pos : Int, 0 ≤ pos ∧ pos < ino.length ∧ a ∈ Slot.path (pos.toNat / 512))) ∧
      ∀ pos : Int, 0 ≤ pos → pos < ino.length → byteToSector fs ino pos =
        some (sectorOf fs.store.disk ino.toInodeCore (.data (pos.toNat / 512)),
          fs.diskReads ((Slot.path (pos.toNat / 512)).map
            (sectorOf fs.store.disk ino.toInodeCore))) := by
  set n := bytesToSectors ino.length with hn
  -- a position below the length is in a sector of the file
  have hbound : 0 < ino.length → 0 < n := by
    intro hpos
    by_contra hz
    have hz : n = 0 := by omega
    rw [hn] at hz
    have hle : ino.length ≤ 9046016 :=
      length_le_of_sectors (by omega) hrange.2 (by rw [hz]; decide)
    rw [bytesToSectors_eq (by omega) (by omega)] at hz
    omega
  have hlen : 0 < n → 0 ≤ ino.length ∧ ino.length ≤ 9046016 ∧
      n = (ino.length.toNat + 511) / 512 := by
    intro hpos
    obtain ⟨h0, hle⟩ := length_of_sectors_pos hrange hpos hcap
    exact ⟨h0, hle, bytesToSectors_eq h0 (by omega)⟩
  set total := ino.sector :: (releaseOrder n).map (sectorOf fs.store.disk ino.toInodeCore)
    with htotal
  have laws := releasing_laws hfm fs total
  have hstart : Releasing fs total (fs.removeInode inode) total := ⟨rfl, [], rfl, rfl⟩
  obtain ⟨fs1, heq1, hok1⟩ := laws.release hstart
  have hclose : ∃ fs', inodeClose fm fs inode = some fs' ∧ Releasing fs total fs' [] := by
    have hstep : inodeClose fm fs inode =
        if n ≠ 0 then releaseLoop fm { ino with openCnt := ino.openCnt - 1 } (NUM_PTRS + 1) fs1 0 n
        else some fs1 := by
      simp only [inodeClose, hino, some_bind, hlast, hrem, if_true,
        heq1, Int.sub_self, ← hn]
    rw [hstep]
    by_cases hz : n = 0
    · rw [if_neg (by simp [hz])]
      refine ⟨fs1, rfl, ?_⟩
      rw [hz] at hok1
      exact hok1
    · rw [if_pos hz]
      have hok : Releasing fs total fs1 (((List.range' 0 (15 - 0)).flatMap (topOrder n)).map
          (sectorOf fs.store.disk ino.toInodeCore)) := by
        rw [← range_eq_range']
        exact hok1
      exact releaseLoop_spec laws { ino with openCnt := ino.openCnt - 1 } (by omega)
        (by decide) hptr hcap (fun _ _ _ => trivial) hok
  obtain ⟨fs', heq, -, l, hl, hrel⟩ := hclose
  rw [append_nil] at hrel
  refine ⟨fs', l, releaseOrder n, heq, hl, hrel, releaseOrder_data hcap, releaseOrder_nodup hcap,
    ?_, ?_⟩
  · intro a hidx
    rw [mem_releaseOrder hcap]
    constructor
    · intro hu
      obtain ⟨k, hk, hmem⟩ := Slot.exists_path hidx hu
      obtain ⟨h0, -, heq⟩ := hlen (by omega)
      refine ⟨512 * k, by omega, by omega, ?_⟩
      rwa [show (512 * (k : Int)).toNat / 512 = k by omega]
    · rintro ⟨pos, h0, hpos, hmem⟩
      obtain ⟨-, -, heq⟩ := hlen (hbound (by omega))
      exact Slot.path_used (by omega) hmem
  · intro pos h0 hpos
    obtain ⟨-, hle, -⟩ := hlen (hbound (by omega))
    exact byteToSector_spec fs ino h0 hpos (by omega)

theorem bitmapOps_releasesOnly : ReleasesOnly bitmapOps := fun _ _ => ⟨_, rfl⟩

/-- A file of one sector, sector 3, that has been removed while it was open. -/
def removedInode : Inode :=
  { blankInode with
    length := 512, ptrs := Arr.const 3, ptrIdx := 1, sector := 2, removed := true }

theorem close_removed_releases_tree_one_sector :
    ∃ (fs' : FS) (l : List Access) (order : List Slot),
      inodeClose bitmapOps { blankFS 2 with openInodes := [removedInode] } 2 = some fs' ∧
      fs'.log = l ++ (blankFS 2).log ∧
      released l = 2 :: order.map (sectorOf (blankFS 2).store.disk removedInode.toInodeCore) ∧
      order.filterMap Slot.data? = List.range 1 ∧ order.Nodup := by
  obtain ⟨fs', l, order, h1, h2, h3, h4, h5, -, -⟩ :=
    @close_removed_releases_tree _ bitmapOps_releasesOnly
      { blankFS 2 with openInodes := [removedInode] } 2 removedInode rfl rfl rfl ⟨by decide, by decide⟩ (by decide +kernel) (by decide +kernel)
  exact ⟨fs', l, order, h1, h2, h3, h4, h5⟩

end Pintos.FileSys
