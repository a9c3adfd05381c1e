import Pintos.FileSys.BlockMap

/-!
# What `inode_grow` does

The growth position is a function of the number of sectors (`ptrIdxOf`,
`indirIdxOf`, `doubleIdxOf`), and so is the number of sectors an inode takes,
index blocks included (`blocksFor`).

The proofs know the free map through `GrowLaws` only: a predicate `Ok fs P m`
— the sectors `P` are in hand, `m` more may be asked for — that allocation and
direct disk accesses keep.
-/

namespace Pintos.FileSys

open Lib Function Set

/-! ## Position and size -/

def ptrIdxOf (n : Nat) : Nat :=
  if n < 4 then n else if n < 1284 then 4 + (n - 4) / 128 else 14 + (n - 1284) / 16384

def indirIdxOf (n : Nat) : Nat :=
  if n < 4 then 0 else if n < 1284 then (n - 4) % 128 else (n - 1284) / 128 % 128

def doubleIdxOf (n : Nat) : Nat := if n < 1284 then 0 else (n - 1284) % 128

/-- The growth position of an inode is that of `n` sectors. -/
structure CursorAt (c : InodeCore) (n : Nat) : Prop where
  ptrIdx : c.ptrIdx = ptrIdxOf n
  indirIdx : c.indirIdx = indirIdxOf n
  doubleIdx : c.doubleIndirIdx = doubleIdxOf n

/-- The sectors an inode of `n` data sectors takes, index blocks included. -/
def blocksFor (n : Nat) : Nat :=
  n + (min n 1284 - 4 + 127) / 128 + if n ≤ 1284 then 0 else 1 + (n - 1284 + 127) / 128

/-- A growth from `n` to `n'` sectors that fills at most one second-level block. -/
def SameSecond (n n' : Nat) : Prop := n' ≤ 1284 + 128 * ((n - 1284) / 128 + 1)

instance (n n' : Nat) : Decidable (SameSecond n n') := inferInstanceAs (Decidable (_ ≤ _))

variable {t j a b n n' cnt : Nat}

theorem position_indirect (ht : t < 10) (hj : j < 128) :
    ptrIdxOf (4 + 128 * t + j) = 4 + t ∧ indirIdxOf (4 + 128 * t + j) = j ∧
      doubleIdxOf (4 + 128 * t + j) = 0 := by
  unfold ptrIdxOf indirIdxOf doubleIdxOf
  have h1 : ¬ 4 + 128 * t + j < 4 := by omega
  have h2 : 4 + 128 * t + j < 1284 := by omega
  simp only [h1, h2, if_false, if_true]
  refine ⟨?_, ?_, trivial⟩ <;> omega

theorem position_double (ha : a < 128) (hb : b < 128) :
    ptrIdxOf (1284 + 128 * a + b) = 14 ∧ indirIdxOf (1284 + 128 * a + b) = a ∧
      doubleIdxOf (1284 + 128 * a + b) = b := by
  unfold ptrIdxOf indirIdxOf doubleIdxOf
  have h1 : ¬ 1284 + 128 * a + b < 4 := by omega
  have h2 : ¬ 1284 + 128 * a + b < 1284 := by omega
  simp only [h1, h2, if_false]
  omega

theorem blocksFor_mono (h : n ≤ n') : blocksFor n ≤ blocksFor n' := by
  unfold blocksFor
  split <;> split <;> omega

theorem SameSecond.mono {k : Nat} (h : SameSecond n n') (hk : n ≤ k) : SameSecond k n' := by
  have hdiv : (n - 1284) / 128 ≤ (k - 1284) / 128 :=
    Nat.div_le_div_right (Nat.sub_le_sub_right hk 1284)
  exact Nat.le_trans h
    (Nat.add_le_add_left (Nat.mul_le_mul_left 128 (Nat.add_le_add_right hdiv 1)) 1284)

/-! ## Postconditions -/

/-- This part of `inode_grow` ends with `Q`, or, where `Full` holds, because an allocation fails. -/
inductive Grow.Meets {α : Type} (Full : Prop) (Q : α → Prop) : Grow α → Prop
  | ok {a : α} : Q a → Grow.Meets Full Q (.ok a)
  | full {ino : Inode} {fs : FS} : Full → Grow.Meets Full Q (.full ino fs)

section
variable {α β : Type} {Full : Prop} {Q : α → Prop} {x : Grow α}

theorem Grow.bind_assoc {γ : Type} (f : α → Grow β) (k : β → Grow γ) :
    x >>= f >>= k = x >>= fun a => f a >>= k := by
  cases x <;> rfl

theorem Grow.Meets.bind {R : β → Prop} {f : α → Grow β} (hx : x.Meets Full Q)
    (hf : ∀ a, Q a → (f a).Meets Full R) : (x >>= f).Meets Full R := by
  cases hx with
  | ok h => exact hf _ h
  | full h => exact .full h

theorem Grow.Meets.mono {R : α → Prop} (hx : x.Meets Full Q) (hQ : ∀ a, Q a → R a) :
    x.Meets Full R := by
  cases hx with
  | ok h => exact .ok (hQ _ h)
  | full h => exact .full h

theorem Grow.Meets.ok_or_full (h : x.Meets Full Q) :
    (∃ a, x = .ok a ∧ Q a) ∨ (Full ∧ ∃ ino fs, x = .full ino fs) := by
  cases h with
  | ok h => exact .inl ⟨_, rfl, h⟩
  | full h => exact .inr ⟨h, _, _, rfl⟩

end

/-! ## The free map as inode_grow sees it -/

/-- `Ok fs P m`: the sectors `P` are in hand and `m` more may be asked for.
`Full` says whether such a request may fail. -/
structure GrowLaws (fm : FreeMapOps) (Ok : FS → Set Sector → Nat → Prop) (Full : Prop) :
    Prop where
  allocate : ∀ {fs P m}, Ok fs P (m + 1) →
    (∃ s fs', fm.allocate fs = some (some s, fs') ∧ s ∉ P ∧ Ok fs' (insert s P) m ∧
      ∀ u ∈ P, fs'.store.disk u = fs.store.disk u) ∨
    (Full ∧ ∃ fs', fm.allocate fs = some (none, fs'))
  write : ∀ {fs P m s} (b : Block), Ok fs P m → s ∈ P → Ok (fs.diskWrite s b) P m
  read : ∀ {fs P m s}, Ok fs P m → s ∈ P → Ok (fs.diskRead s).2 P m
  uninit : ∀ {fs P m}, Ok fs P m → Ok fs.uninit.2 P m

section
variable {fm : FreeMapOps} {Ok : FS → Set Sector → Nat → Prop} {Full : Prop}
  (laws : GrowLaws fm Ok Full)
include laws

theorem allocateOrReturn_spec {fs : FS} {P : Set Sector} {m : Nat} (ino : Inode)
    (hok : Ok fs P m) (hm : 0 < m) :
    (allocateOrReturn fm fs ino).Meets Full fun a => a.1 ∉ P ∧ Ok a.2 (insert a.1 P) (m - 1) ∧
      ∀ u ∈ P, a.2.store.disk u = fs.store.disk u := by
  obtain ⟨m, rfl⟩ : ∃ k, m = k + 1 := ⟨m - 1, by omega⟩
  unfold allocateOrReturn
  rcases laws.allocate hok with ⟨s, fs', heq, hs⟩ | ⟨hfull, fs', heq⟩
  · rw [heq]
    exact .ok hs
  · rw [heq]
    exact .full hfull

omit laws in
theorem filled_none {rd : Disk} {ptr : Words} {idx : Nat} {P : Set Sector} :
    Filled P P rd ptr idx 0 := by
  refine ⟨fun _ h => h, ?_, ?_, ?_⟩
  all_goals intros; omega

/-- The innermost loop fills `cnt` slots: until the block is full or nothing is
owed. -/
theorem fillBlock_spec (ino : Inode) (fuel : Nat) {fs : FS} (ptr : Words) (idx sectors cnt : Nat)
    {P : Set Sector} {m : Nat} (hok : Ok fs P m) (hidx : idx ≤ 128) (hfuel : 128 - idx ≤ fuel)
    (hcnt : cnt = min (128 - idx) sectors) (hm : cnt ≤ m) :
    (fillBlock fm ino fuel fs ptr idx sectors).Meets Full fun a =>
      a.2.2 = (idx + cnt, sectors - cnt) ∧ ∃ P', Ok a.1 P' (m - cnt) ∧
        Filled P P' a.1.store.disk a.2.1 idx cnt ∧
        (∀ q, q < 128 → (q < idx ∨ idx + cnt ≤ q) → a.2.1.get q = ptr.get q) ∧
        ∀ u ∈ P, a.1.store.disk u = fs.store.disk u := by
  induction fuel generalizing fs ptr idx sectors cnt P m with
  | zero =>
    obtain rfl : cnt = 0 := by omega
    exact .ok ⟨rfl, P, hok, filled_none, fun _ _ _ => rfl, fun _ _ => rfl⟩
  | succ fuel ih =>
    rw [fillBlock]
    split
    case isFalse hlt =>
      unfold PTR_PER_BLOCK at hlt
      obtain rfl : cnt = 0 := by omega
      exact .ok ⟨rfl, P, hok, filled_none, fun _ _ _ => rfl, fun _ _ => rfl⟩
    case isTrue hlt =>
    have hlt : idx < 128 := hlt
    split
    case isFalse hpos =>
      obtain rfl : cnt = 0 := by omega
      exact .ok ⟨rfl, P, hok, filled_none, fun _ _ _ => rfl, fun _ _ => rfl⟩
    case isTrue hpos =>
    obtain ⟨cnt, rfl⟩ : ∃ cnt', cnt = cnt' + 1 := ⟨cnt - 1, by omega⟩
    refine (allocateOrReturn_spec laws ino hok (by omega)).bind ?_
    rintro ⟨s, fs1⟩ ⟨hs, hok1, hkeep1⟩
    refine (ih (ptr.set idx s) (idx + 1) (sectors - 1) cnt
      (laws.write dataDefault hok1 (mem_insert s P)) (by omega) (by omega) (by omega)
      (by omega)).mono ?_
    rintro ⟨fs', ptr', pos⟩ ⟨hpos', P', hok', hfill, hptr, hkeep⟩
    refine ⟨?_, P', ?_, ?_, ?_, ?_⟩
    · rw [hpos', Nat.add_right_comm, Nat.add_assoc, Nat.sub_sub, Nat.add_comm 1]
    · rwa [show m - (cnt + 1) = m - 1 - cnt by omega]
    · -- slot `idx` holds `s`, the later ones come from the induction
      have hidx' : ptr'.get idx = s := by
        rw [hptr idx hlt (.inl (by omega)), Arr.get_set_self _ _ hlt]
      refine ⟨fun u hu => hfill.sub (mem_insert_of_mem s hu), ?_, ?_, ?_⟩
      · intro q h1 h2
        by_cases hq : q = idx
        · rw [hq, hidx']
          exact ⟨hfill.sub (mem_insert s P), hs⟩
        · have := hfill.mem q (by omega) (by omega)
          exact ⟨this.1, fun hmem => this.2 (mem_insert_of_mem s hmem)⟩
      · intro q q' h1 h2 h1' h2' heq'
        by_cases hq : q = idx <;> by_cases hq' : q' = idx
        · omega
        · rw [hq, hidx'] at heq'
          exact absurd (heq' ▸ mem_insert s P) (hfill.mem q' (by omega) (by omega)).2
        · rw [hq', hidx'] at heq'
          exact absurd (heq'.symm ▸ mem_insert s P) (hfill.mem q (by omega) (by omega)).2
        · exact hfill.inj q q' (by omega) (by omega) (by omega) (by omega) heq'
      · intro q h1 h2
        by_cases hq : q = idx
        · rw [hq, hidx', hkeep s (mem_insert s P)]
          simp
        · exact hfill.zero q (by omega) (by omega)
    · intro q hq hout
      rw [hptr q hq (by omega), Arr.get_set_ne _ _ hq (by omega)]
    · intro u hu
      have hus : u ≠ s := by
        rintro rfl
        exact hs hu
      rw [hkeep u (mem_insert_of_mem s hu), FS.diskWrite_disk, update_of_ne hus, hkeep1 u hu]

end

/-! ## The turns of the main loop -/

/-- The fields of an inode that `inode_grow` does not assign. -/
structure KeepsRest (ino ino' : Inode) : Prop where
  length : ino'.length = ino.length
  isDir : ino'.isDir = ino.isDir
  parent : ino'.parent = ino.parent
  sector : ino'.sector = ino.sector
  openCnt : ino'.openCnt = ino.openCnt
  removed : ino'.removed = ino.removed
  denyWriteCnt : ino'.denyWriteCnt = ino.denyWriteCnt
  lengthShown : ino'.lengthShown = ino.lengthShown

theorem KeepsRest.refl (ino : Inode) : KeepsRest ino ino :=
  (by constructor <;> rfl)

theorem KeepsRest.trans {a b c : Inode} (h : KeepsRest a b) (h' : KeepsRest b c) :
    KeepsRest a c :=
  ⟨h'.length.trans h.length, h'.isDir.trans h.isDir, h'.parent.trans h.parent,
    h'.sector.trans h.sector, h'.openCnt.trans h.openCnt, h'.removed.trans h.removed,
    h'.denyWriteCnt.trans h.denyWriteCnt, h'.lengthShown.trans h.lengthShown⟩

/-- The variables of `inode_grow` between two turns: the tree holds `n` sectors. -/
structure GrowInv (Ok : FS → Set Sector → Nat → Prop) (g : GrowState) (P : Set Sector)
    (n m : Nat) : Prop where
  ok : Ok g.fs P m
  tree : TreeOk P g.fs.store.disk g.ino.toInodeCore n
  idx : g.idx = ptrIdxOf n
  indirIdx : g.ino.indirIdx = indirIdxOf n
  doubleIdx : g.ino.doubleIndirIdx = doubleIdxOf n

/-- Some turns took the tree from `n` to `n'` sectors. -/
structure Turned (Ok : FS → Set Sector → Nat → Prop) (g g' : GrowState) (P P' : Set Sector)
    (n n' m : Nat) : Prop where
  inv : GrowInv Ok g' P' n' (m - (blocksFor n' - blocksFor n))
  grown : Grown P g.fs.store.disk g.ino.toInodeCore n P' g'.fs.store.disk g'.ino.toInodeCore n'
  sectors : n' + g'.sectors = n + g.sectors
  rest : KeepsRest g.ino g'.ino

theorem GrowInv.idx_lt {Ok : FS → Set Sector → Nat → Prop} {g : GrowState} {P : Set Sector}
    {m : Nat} (hinv : GrowInv Ok g P n m) (hcap : n + g.sectors ≤ CAPACITY) (hpos : 0 < g.sectors) :
    g.idx < 15 := by
  unfold CAPACITY at hcap
  rw [hinv.idx, ptrIdxOf]
  split_ifs <;> omega

theorem blocksFor_direct (hn : n < 4) : blocksFor (n + 1) = blocksFor n + 1 := by
  unfold blocksFor
  rw [if_pos (by omega), if_pos (by omega)]
  omega

theorem blocksFor_indirect (ht : t < 10) (hcnt : 0 < cnt) (hfit : j + cnt ≤ 128) :
    blocksFor (4 + 128 * t + j + cnt) =
      blocksFor (4 + 128 * t + j) + cnt + if j = 0 then 1 else 0 := by
  unfold blocksFor
  rw [if_pos (by omega), if_pos (by omega)]
  split <;> omega

theorem blocksFor_second (hcnt : 0 < cnt) (hfit : b + cnt ≤ 128) :
    blocksFor (1284 + 128 * a + b + cnt) = blocksFor (1284 + 128 * a + b) + cnt +
      (if a = 0 ∧ b = 0 then 1 else 0) + if b = 0 then 1 else 0 := by
  unfold blocksFor
  rw [if_neg (show ¬ 1284 + 128 * a + b + cnt ≤ 1284 by omega)]
  split <;> split <;> split <;> omega

section
variable {fm : FreeMapOps} {Ok : FS → Set Sector → Nat → Prop} {Full : Prop}
  (laws : GrowLaws fm Ok Full) {g : GrowState} {P : Set Sector} {n m : Nat}
include laws

theorem growDirect_spec (hinv : GrowInv Ok g P n m) (hn : n < 4) (hpos : 0 < g.sectors)
    (hm : blocksFor (n + 1) ≤ blocksFor n + m) :
    (growDirect fm g).Meets Full fun g' => ∃ P', Turned Ok g g' P P' n (n + 1) m := by
  have hidx : g.idx = n := by rw [hinv.idx, ptrIdxOf, if_pos hn]
  have hneed := blocksFor_direct hn
  refine (allocateOrReturn_spec laws g.ino hinv.ok (by omega)).bind ?_
  rintro ⟨s, fs⟩ ⟨hs, hok, hkeep⟩
  have hgrown : Grown P g.fs.store.disk g.ino n (insert s P)
      (fs.diskWrite s dataDefault).store.disk
      { g.ino with ptrs := g.ino.ptrs.set g.idx s } (n + 1) := by
    refine grown_direct hn hs ?_ (by simp) ?_
    · intro k hk
      rw [hidx, Arr.get_set _ _ _ (by omega : k < 15)]
    · intro u hu
      have hus : u ≠ s := by
        rintro rfl
        exact hs hu
      rw [FS.diskWrite_disk, update_of_ne hus, hkeep u hu]
  refine .ok ⟨insert s P, ⟨?_, hgrown.treeOk hinv.tree, ?_, ?_, ?_⟩, hgrown, ?_,
    (by constructor <;> rfl)⟩
  · rw [hneed, Nat.add_sub_cancel_left]
    exact laws.write dataDefault hok (mem_insert s P)
  · show g.idx + 1 = ptrIdxOf (n + 1)
    rw [hidx, ptrIdxOf]
    split_ifs <;> omega
  · show g.ino.indirIdx = indirIdxOf (n + 1)
    rw [hinv.indirIdx, indirIdxOf, indirIdxOf]
    split_ifs <;> omega
  · show g.ino.doubleIndirIdx = doubleIdxOf (n + 1)
    rw [hinv.doubleIdx, doubleIdxOf, doubleIdxOf, if_pos (by omega), if_pos (by omega)]
  · show n + 1 + (g.sectors - 1) = n + g.sectors
    omega

/-- What the first lines of the indirect branches leave: the index block is `s`. -/
structure Loaded (Ok : FS → Set Sector → Nat → Prop) (g g' : GrowState) (first : Bool)
    (s : Sector) (P P' : Set Sector) (m : Nat) : Prop where
  ok : Ok g'.fs P' (m - if first then 1 else 0)
  sub : P ⊆ P'
  mem : s ∈ P'
  fresh : first = true → s ∉ P
  junk : first = true → g'.innerPtr = g.innerPtr
  old : first = false →
    s = g.ino.ptrs.get g.idx ∧ g'.innerPtr = words (g.fs.store.disk s)
  keep : ∀ u ∈ P, g'.fs.store.disk u = g.fs.store.disk u
  ptrs : ∀ k, k < 15 → g'.ino.ptrs.get k = if k = g.idx then s else g.ino.ptrs.get k
  indirIdx : g'.ino.indirIdx = g.ino.indirIdx
  doubleIdx : g'.ino.doubleIndirIdx = g.ino.doubleIndirIdx
  rest : KeepsRest g.ino g'.ino
  idx : g'.idx = g.idx
  sectors : g'.sectors = g.sectors

theorem loadIndex_spec (first : Bool) (hok : Ok g.fs P m) (hm : first = true → 0 < m)
    (hmem : first = false → g.ino.ptrs.get g.idx ∈ P) :
    (loadIndex fm g first).Meets Full fun g' => ∃ s P', Loaded Ok g g' first s P P' m := by
  cases first with
  | true =>
    refine (allocateOrReturn_spec laws g.ino hok (hm rfl)).bind ?_
    rintro ⟨s, fs⟩ ⟨hs, hok', hkeep⟩
    exact .ok ⟨s, insert s P,
      { ok := hok', sub := subset_insert s P, mem := mem_insert s P
        fresh := fun _ => hs, junk := fun _ => rfl, old := fun h => absurd h (by decide)
        keep := hkeep
        ptrs := fun k hk => Arr.get_set _ _ _ hk
        indirIdx := rfl, doubleIdx := rfl, idx := rfl, sectors := rfl
        rest := (by constructor <;> rfl) }⟩
  | false =>
    exact .ok ⟨g.ino.ptrs.get g.idx, P,
      { ok := laws.read hok (hmem rfl), sub := fun _ h => h, mem := hmem rfl
        fresh := fun h => absurd h (by decide), junk := fun h => absurd h (by decide)
        old := fun _ => ⟨rfl, rfl⟩
        keep := fun _ _ => rfl
        ptrs := by
          intro k _
          split
          case isTrue h => rw [h]
          case isFalse => rfl
        indirIdx := rfl, doubleIdx := rfl, rest := KeepsRest.refl _, idx := rfl, sectors := rfl }⟩

omit laws in
theorem storeIndex_fields (g : GrowState) (indirIdx : Nat) :
    (storeIndex g indirIdx).fs = g.fs.diskWrite (g.ino.ptrs.get g.idx) (packWords g.innerPtr) ∧
    (storeIndex g indirIdx).ino = { g.ino with
      indirIdx := if indirIdx = PTR_PER_BLOCK then 0 else indirIdx } ∧
    (storeIndex g indirIdx).idx = (if indirIdx = PTR_PER_BLOCK then g.idx + 1 else g.idx) ∧
    (storeIndex g indirIdx).sectors = g.sectors := by
  unfold storeIndex
  by_cases h : indirIdx = PTR_PER_BLOCK <;> simp [h]

theorem growIndirect_spec (hinv : GrowInv Ok g P n m) (hn : n = 4 + 128 * t + j) (ht : t < 10)
    (hj : j < 128) (hpos : 0 < g.sectors) (hcnt : cnt = min (128 - j) g.sectors)
    (hm : blocksFor (n + cnt) ≤ blocksFor n + m) :
    (growIndirect fm g).Meets Full fun g' => ∃ P', Turned Ok g g' P P' n (n + cnt) m := by
  obtain ⟨hp1, hp2, hp3⟩ := position_indirect ht hj
  rw [← hn] at hp1 hp2 hp3
  have hidx : g.idx = 4 + t := hinv.idx.trans hp1
  have hindir : g.ino.indirIdx = j := hinv.indirIdx.trans hp2
  have hneed : blocksFor (n + cnt) = blocksFor n + cnt + if j = 0 then 1 else 0 := by
    rw [hn]
    exact blocksFor_indirect ht (by omega) (by omega)
  -- a later visit finds the index block in the tree
  have hmem : decide (g.ino.indirIdx = 0) = false → g.ino.ptrs.get g.idx ∈ P := by
    intro hfirst
    rw [hidx]
    have hj0 : j ≠ 0 := by simpa [hindir] using hfirst
    exact hinv.tree.mem (.indirect t) trivial ⟨ht, by omega⟩
  have hfirst : decide (g.ino.indirIdx = 0) = true → 0 < m := by
    intro _
    omega
  refine (loadIndex_spec laws (decide (g.ino.indirIdx = 0)) hinv.ok hfirst hmem).bind ?_
  rintro g1 ⟨s, P1, hl⟩
  rw [hl.indirIdx, hindir]
  refine (fillBlock_spec laws g1.ino PTR_PER_BLOCK g1.innerPtr j g1.sectors cnt hl.ok (by omega)
    (by unfold PTR_PER_BLOCK; omega) (by rw [hl.sectors]; exact hcnt)
    (by rw [hindir]; simp only [decide_eq_true_eq]; omega)).bind ?_
  rintro ⟨fs2, A, _⟩ ⟨rfl, P2, hok2, hfilled, hA, hkeep2⟩
  set g2 : GrowState := { g1 with fs := fs2, innerPtr := A, sectors := g1.sectors - cnt } with hg2
  obtain ⟨hsfs, hsino, hsidx, hssec⟩ := storeIndex_fields g2 (j + cnt)
  have hs2 : g2.ino.ptrs.get g2.idx = s := by
    show g1.ino.ptrs.get g1.idx = s
    rw [hl.idx, hl.ptrs _ (by omega), if_pos rfl]
  rw [hs2] at hsfs
  have hgrown : Grown P g.fs.store.disk g.ino n P2
      (fs2.diskWrite s (packWords A)).store.disk
      { g1.ino with
        indirIdx := if j + cnt = PTR_PER_BLOCK then 0 else j + cnt } (n + cnt) := by
    refine grown_indirect fs2.store.disk hinv.tree hn ht hj (by omega) (by omega)
      hl.sub hl.mem ?_ ?_ ?_ hfilled ?_ ?_ ?_ ?_
    · intro hj0
      exact hl.fresh (by simp [hindir, hj0])
    · intro hj0
      rw [(hl.old (by simp [hindir, hj0])).1, hidx]
    · intro k hk
      rw [← hidx]
      exact hl.ptrs k hk
    · intro q hq
      rw [hA q (by omega) (.inl hq), (hl.old (by simp [hindir]; omega)).2]
    · intro u hu
      rw [hkeep2 u (hl.sub hu), hl.keep u hu]
    · simp
    · intro u hu
      simp [update_of_ne hu]
  refine .ok ⟨P2, ⟨?_, ?_, ?_, ?_, ?_⟩, ?_, ?_, ?_⟩
  · rw [hsfs, hneed]
    have hok3 := laws.write (packWords A) hok2 (hfilled.sub hl.mem)
    rw [hindir] at hok3
    convert hok3 using 1
    simp only [decide_eq_true_eq]
    omega
  · rw [hsfs, hsino]
    exact hgrown.treeOk hinv.tree
  · rw [hsidx]
    show (if j + cnt = 128 then g1.idx + 1 else g1.idx) = _
    rw [hl.idx, hidx, ptrIdxOf]
    split_ifs <;> omega
  · rw [hsino]
    show (if j + cnt = 128 then 0 else j + cnt) = _
    rw [indirIdxOf]
    split_ifs <;> omega
  · rw [hsino]
    show g1.ino.doubleIndirIdx = _
    rw [hl.doubleIdx, hinv.doubleIdx, hp3, doubleIdxOf]
    split <;> omega
  · rw [hsfs, hsino]
    exact hgrown
  · rw [hssec]
    show n + cnt + (g1.sectors - cnt) = n + g.sectors
    rw [hl.sectors]
    omega
  · rw [hsino]
    exact hl.rest.trans (by constructor <;> rfl)

/-- What the first lines of a turn of the middle loop leave: the second-level
block is `s₂`. -/
structure LoadedSecond (Ok : FS → Set Sector → Nat → Prop) (g g' : GrowState) (a b : Nat)
    (s₂ : Sector) (P P' : Set Sector) (m : Nat) : Prop where
  ok : Ok g'.fs P' (m - if b = 0 then 1 else 0)
  sub : P ⊆ P'
  mem : s₂ ∈ P'
  fresh : b = 0 → s₂ ∉ P
  old : b ≠ 0 → s₂ = g.innerPtr.get a ∧ g'.doubleInnerPtr = words (g.fs.store.disk s₂)
  keep : ∀ u ∈ P, g'.fs.store.disk u = g.fs.store.disk u
  innerPtr : ∀ q, q < 128 → g'.innerPtr.get q = if q = a then s₂ else g.innerPtr.get q
  ino : g'.ino = g.ino
  idx : g'.idx = g.idx
  sectors : g'.sectors = g.sectors

theorem loadSecond_spec (hok : Ok g.fs P m) (hm : b = 0 → 0 < m) (hindir : g.ino.indirIdx = a)
    (hdouble : g.ino.doubleIndirIdx = b) (hmem : b ≠ 0 → g.innerPtr.get a ∈ P) :
    (loadSecond fm g).Meets Full fun g' => ∃ s₂ P', LoadedSecond Ok g g' a b s₂ P P' m := by
  rw [loadSecond, hdouble]
  by_cases hb0 : b = 0
  · rw [if_pos hb0]
    refine (allocateOrReturn_spec laws g.ino hok (hm hb0)).bind ?_
    rintro ⟨s, fs⟩ ⟨hs, hok', hkeep⟩
    exact .ok ⟨s, insert s P,
      { ok := by rw [if_pos hb0]; exact hok', sub := subset_insert s P
        mem := mem_insert s P, fresh := fun _ => hs, old := fun h => absurd hb0 h
        keep := hkeep
        innerPtr := fun q hq => by rw [hindir]; exact Arr.get_set _ _ _ hq
        ino := rfl, idx := rfl, sectors := rfl }⟩
  · rw [if_neg hb0, hindir]
    exact .ok ⟨g.innerPtr.get a, P,
      { ok := by rw [if_neg hb0]; exact laws.read hok (hmem hb0), sub := fun _ h => h
        mem := hmem hb0, fresh := fun h => absurd h hb0, old := fun _ => ⟨rfl, rfl⟩
        keep := fun _ _ => rfl
        innerPtr := by
          intro q _
          split
          case isTrue h => rw [h]
          case isFalse => rfl
        ino := rfl, idx := rfl, sectors := rfl }⟩

/-- A turn of the middle loop. The local `indirIdx` need not be where
`inode->indir_idx` is; the block is written where the local one says. -/
theorem growSecond_spec (cnt w : Nat) (hok : Ok g.fs P m) (hb : b < 128)
    (hindir : g.ino.indirIdx = a) (hdouble : g.ino.doubleIndirIdx = b)
    (hcnt : cnt = min (128 - b) g.sectors) (hm : cnt + (if b = 0 then 1 else 0) ≤ m)
    (hmem : b ≠ 0 → g.innerPtr.get a ∈ P) :
    (growSecond fm g w).Meets Full fun r => ∃ g₁ s₂ P₁ fs₂ D P₂,
      LoadedSecond Ok g g₁ a b s₂ P P₁ m ∧ Ok fs₂ P₂ (m - (if b = 0 then 1 else 0) - cnt) ∧
      Filled P₁ P₂ fs₂.store.disk D b cnt ∧
      (∀ q, q < 128 → q < b → D.get q = g₁.doubleInnerPtr.get q) ∧
      (∀ u ∈ P₁, fs₂.store.disk u = g₁.fs.store.disk u) ∧
      r = ({ g₁ with
            fs := fs₂.diskWrite (g₁.innerPtr.get w) (packWords D), doubleInnerPtr := D
            sectors := g.sectors - cnt
            ino := { g.ino with doubleIndirIdx := if b + cnt = 128 then 0 else b + cnt } },
          if b + cnt = 128 then w + 1 else w) := by
  have hfirst : b = 0 → 0 < m := by
    intro hb0
    rw [if_pos hb0] at hm
    omega
  refine (loadSecond_spec laws hok hfirst hindir hdouble hmem).bind ?_
  rintro g₁ ⟨s₂, P₁, hl⟩
  rw [show g₁.ino.doubleIndirIdx = b by rw [hl.ino, hdouble]]
  refine (fillBlock_spec laws g₁.ino PTR_PER_BLOCK g₁.doubleInnerPtr b g₁.sectors cnt hl.ok
    (by omega) (by unfold PTR_PER_BLOCK; omega) (by rw [hl.sectors]; omega) (by omega)).bind ?_
  rintro ⟨fs₂, D, _⟩ ⟨rfl, P₂, hok2, hfilled, hD, hkeep2⟩
  simp only [hl.sectors, hl.ino]
  by_cases hfull : b + cnt = 128
  · rw [if_pos (show b + cnt = PTR_PER_BLOCK from hfull), if_pos hfull, if_pos hfull]
    exact .ok ⟨g₁, s₂, P₁, fs₂, D, P₂, hl, hok2, hfilled, fun q hq h => hD q hq (.inl h), hkeep2, rfl⟩
  · rw [if_neg (show ¬ b + cnt = PTR_PER_BLOCK from hfull), if_neg hfull, if_neg hfull]
    exact .ok ⟨g₁, s₂, P₁, fs₂, D, P₂, hl, hok2, hfilled, fun q hq h => hD q hq (.inl h), hkeep2, rfl⟩

omit laws in
theorem growSeconds_done {fuel indirIdx : Nat} (h : g.sectors = 0) :
    growSeconds fm fuel g indirIdx = .ok (g, indirIdx) := by
  cases fuel with
  | zero => rfl
  | succ fuel =>
    rw [growSeconds]
    simp [h]

theorem growDouble_spec (hinv : GrowInv Ok g P n m) (hn : n = 1284 + 128 * a + b) (ha : a < 128)
    (hb : b < 128) (hpos : 0 < g.sectors) (hfit : b + g.sectors ≤ 128)
    (hm : blocksFor (n + g.sectors) ≤ blocksFor n + m) :
    (growDouble fm g).Meets Full fun g' => ∃ P', Turned Ok g g' P P' n (n + g.sectors) m := by
  obtain ⟨hp1, hp2, hp3⟩ := position_double ha hb
  rw [← hn] at hp1 hp2 hp3
  have hidx : g.idx = 14 := hinv.idx.trans hp1
  have hindir : g.ino.indirIdx = a := hinv.indirIdx.trans hp2
  have hdouble : g.ino.doubleIndirIdx = b := hinv.doubleIdx.trans hp3
  have hneed : blocksFor (n + g.sectors) = blocksFor n + g.sectors +
      (if a = 0 ∧ b = 0 then 1 else 0) + if b = 0 then 1 else 0 := by
    rw [hn]
    exact blocksFor_second hpos hfit
  set first : Bool := decide (g.ino.indirIdx = 0 ∧ g.ino.doubleIndirIdx = 0) with hfirst
  have hfirst_iff : first = true ↔ n = 1284 := by
    rw [hfirst, hindir, hdouble, decide_eq_true_eq]
    omega
  have hlater : first = false ↔ n ≠ 1284 := by
    rw [← Bool.not_eq_true, hfirst_iff]
  have hcost : (if first then 1 else 0) = if a = 0 ∧ b = 0 then 1 else 0 := by
    rw [hfirst, hindir, hdouble]
    simp only [decide_eq_true_eq]
  have hmem : first = false → g.ino.ptrs.get g.idx ∈ P := by
    intro h
    rw [hidx]
    have hne := hlater.mp h
    exact hinv.tree.mem .double trivial (show 1284 < n by omega)
  refine (loadIndex_spec laws first hinv.ok (fun _ => by omega) hmem).bind ?_
  rintro g1 ⟨s, P1, hl⟩
  have hmem2 : b ≠ 0 → g1.innerPtr.get a ∈ P1 := by
    intro hb0
    obtain ⟨hs, hw⟩ := hl.old (hlater.mpr (by omega))
    rw [hw, hs, hidx]
    exact hl.sub (hinv.tree.mem (.second a) trivial (show 1284 + 128 * a < n by omega))
  have hstep : growSeconds fm (PTR_PER_BLOCK + 1) g1 g1.ino.indirIdx =
      growSecond fm g1 a >>= fun x => growSeconds fm PTR_PER_BLOCK x.1 x.2 := by
    rw [growSeconds, hl.indirIdx, hindir, if_pos (show a < PTR_PER_BLOCK from ha), hl.sectors,
      if_pos hpos]
  have hsecond := growSecond_spec laws g.sectors a hl.ok hb (hl.indirIdx.trans hindir)
    (hl.doubleIdx.trans hdouble) (by rw [hl.sectors]; omega) (by rw [hcost]; omega) hmem2
  rw [hstep, Grow.bind_assoc]
  refine hsecond.bind ?_
  rintro _ ⟨g2, s2, P2, fs2, D, P3, hl2, hok2, hfilled, hD, hkeep2, rfl⟩
  rw [hl2.innerPtr a ha, if_pos rfl, hl.sectors, Nat.sub_self, growSeconds_done rfl]
  set full : Prop := b + g.sectors = 128 with hfull
  set g3 : GrowState :=
    { g2 with
      fs := fs2.diskWrite s2 (packWords D), doubleInnerPtr := D, sectors := 0
      ino := { g1.ino with
        doubleIndirIdx := if full then 0 else b + g.sectors } } with hg3
  obtain ⟨hsfs, hsino, hsidx, hssec⟩ := storeIndex_fields g3 (if full then a + 1 else a)
  have hs : g3.ino.ptrs.get g3.idx = s := by
    show g1.ino.ptrs.get g2.idx = s
    rw [hl2.idx, hl.idx, hl.ptrs _ (by omega), if_pos rfl]
  rw [hs] at hsfs
  have hsecondOld : b ≠ 0 → s2 = sectorOf g.fs.store.disk g.ino (.second a) := by
    intro hb0
    obtain ⟨hs', hw⟩ := hl.old (hlater.mpr (by omega))
    rw [(hl2.old hb0).1, hw, hs', hidx]
    rfl
  have hgrown : Grown P g.fs.store.disk g.ino n P3
      ((fs2.diskWrite s2 (packWords D)).diskWrite s (packWords g2.innerPtr)).store.disk
      (storeIndex g3 (if full then a + 1 else a)).ino (n + g.sectors) := by
    refine grown_second fs2.store.disk s2 (A := g2.innerPtr) (D := D) (s := s) hinv.tree hn ha hb hpos hfit hl.sub hl.mem ?_ ?_ hl2.sub hl2.mem hl2.fresh ?_ ?_ hfilled
      ?_ ?_ ?_ ?_ ?_ ?_ ?_
    · exact fun h => hl.fresh (hfirst_iff.mpr h)
    · intro h
      rw [(hl.old (hlater.mpr h)).1, hidx]
    · exact hsecondOld
    · intro k hk
      have hk' := hl.ptrs k hk
      rw [hidx] at hk'
      rw [hsino]
      exact hk'
    · intro q hq
      rw [hl2.innerPtr q (by omega), if_neg (by omega), (hl.old (hlater.mpr (by omega))).2]
    · rw [hl2.innerPtr a ha, if_pos rfl]
    · intro q hq
      have hs2P : s2 ∈ P := by
        rw [hsecondOld (by omega)]
        exact hinv.tree.mem (.second a) trivial (show 1284 + 128 * a < n by omega)
      rw [hD q (by omega) hq, (hl2.old (by omega)).2, hl.keep s2 hs2P]
    · intro u hu
      rw [hkeep2 u (hl2.sub (hl.sub hu)), hl2.keep u (hl.sub hu), hl.keep u hu]
    · simp
    · intro hne
      simp [update_of_ne hne.symm]
    · intro u hus hus2
      simp [update_of_ne hus, update_of_ne hus2]
  refine .ok ⟨P3, ⟨?_, ?_, ?_, ?_, ?_⟩, ?_, ?_, ?_⟩
  · rw [hsfs, hneed]
    have hok3 := laws.write (packWords D) hok2 (hfilled.sub hl2.mem)
    have hok4 := laws.write (packWords g2.innerPtr) hok3
      (hfilled.sub (hl2.sub hl.mem))
    rw [hcost] at hok4
    convert hok4 using 1
    omega
  · rw [hsfs]
    exact hgrown.treeOk hinv.tree
  · rw [hsidx]
    show (if (if full then a + 1 else a) = 128 then g2.idx + 1 else g2.idx) = _
    rw [hl2.idx, hl.idx, hidx, ptrIdxOf]
    split_ifs <;> omega
  · rw [hsino]
    show (if (if full then a + 1 else a) = 128 then 0 else if full then a + 1 else a) = _
    rw [indirIdxOf]
    split_ifs <;> omega
  · rw [hsino]
    show (if full then 0 else b + g.sectors) = _
    rw [doubleIdxOf]
    split_ifs <;> omega
  · rw [hsfs]
    exact hgrown
  · rw [hssec]
    rfl
  · rw [hsino]
    exact hl.rest.trans (by constructor <;> rfl)

/-! ## The main loop -/

omit laws in
theorem Turned.refl (hinv : GrowInv Ok g P n m) : Turned Ok g g P P n n m :=
  ⟨by rwa [Nat.sub_self, Nat.sub_zero], Grown.refl, rfl, KeepsRest.refl _⟩

omit laws in
theorem Turned.trans {g' g'' : GrowState} {P' P'' : Set Sector} {n'' : Nat}
    (hinv : GrowInv Ok g P n m) (h : Turned Ok g g' P P' n n' m)
    (h' : Turned Ok g' g'' P' P'' n' n'' (m - (blocksFor n' - blocksFor n))) :
    Turned Ok g g'' P P'' n n'' m where
  inv := by
    have hle := blocksFor_mono h.grown.le
    have hle' := blocksFor_mono h'.grown.le
    have hinv' := h'.inv
    rwa [show m - (blocksFor n' - blocksFor n) - (blocksFor n'' - blocksFor n') =
      m - (blocksFor n'' - blocksFor n) by omega] at hinv'
  grown := h.grown.trans h'.grown hinv.tree
  sectors := h'.sectors.trans h.sectors
  rest := h.rest.trans h'.rest

omit laws in
theorem growLoop_done {fuel : Nat} (h : g.sectors = 0) : growLoop fm fuel g = .ok g := by
  cases fuel with
  | zero => rfl
  | succ fuel =>
    rw [growLoop]
    simp [h]

/-- A turn takes `cnt` of the sectors owed: all of them, or as many as fit under
the current pointer of the inode. -/
theorem growTurn_spec (hinv : GrowInv Ok g P n m) (hpos : 0 < g.sectors)
    (hsame : SameSecond n (n + g.sectors)) (hcap : n + g.sectors ≤ CAPACITY)
    (hm : blocksFor (n + g.sectors) ≤ blocksFor n + m) :
    ∃ cnt, 0 < cnt ∧ cnt ≤ g.sectors ∧ (cnt = g.sectors ∨ ptrIdxOf n < ptrIdxOf (n + cnt)) ∧
      (growTurn fm g).Meets Full fun g' => ∃ P', Turned Ok g g' P P' n (n + cnt) m := by
  unfold SameSecond at hsame
  unfold CAPACITY at hcap
  rcases data_cases n with hn | ⟨t, j, ht, hj, hn⟩ | ⟨a, b, hb, hn⟩
  · -- a direct pointer takes one sector
    refine ⟨1, by omega, by omega, .inr ?_, ?_⟩
    · unfold ptrIdxOf
      split_ifs <;> omega
    · have hidx : g.idx < NUM_PTRS_DIR := by
        rw [hinv.idx, ptrIdxOf, if_pos hn]
        exact hn
      have hle := blocksFor_mono (show n + 1 ≤ n + g.sectors by omega)
      rw [growTurn, if_pos hidx]
      exact growDirect_spec laws hinv hn hpos (by omega)
  · -- a single-indirect block takes up to 128
    obtain ⟨hp, -, -⟩ := position_indirect ht hj
    rw [← hn] at hp
    refine ⟨min (128 - j) g.sectors, by omega, by omega, ?_, ?_⟩
    · rw [hp, ptrIdxOf]
      split_ifs <;> omega
    · have hle := blocksFor_mono (show n + min (128 - j) g.sectors ≤ n + g.sectors by omega)
      rw [growTurn, hinv.idx, hp, if_neg (show ¬ 4 + t < NUM_PTRS_DIR by unfold NUM_PTRS_DIR; omega),
        if_pos (show 4 + t < NUM_PTRS_DIR + NUM_PTRS_INDIR by
          unfold NUM_PTRS_DIR NUM_PTRS_INDIR; omega)]
      exact growIndirect_spec laws hinv hn ht hj hpos rfl (by omega)
  · -- the double-indirect block takes all, which fits into one second-level block
    have ha : a < 128 := by omega
    obtain ⟨hp, -, -⟩ := position_double ha hb
    rw [← hn] at hp
    refine ⟨g.sectors, hpos, le_refl _, .inl rfl, ?_⟩
    rw [growTurn, hinv.idx, hp, if_neg (by decide), if_neg (by decide)]
    exact growDouble_spec laws hinv hn ha hb hpos (by omega) hm

/-- The main loop grows the tree by all the sectors owed. Each turn steps to the
next pointer of the inode or leaves nothing owed. -/
theorem growLoop_spec (fuel : Nat) (hinv : GrowInv Ok g P n m)
    (hsame : SameSecond n (n + g.sectors)) (hcap : n + g.sectors ≤ CAPACITY)
    (hm : blocksFor (n + g.sectors) ≤ blocksFor n + m)
    (hfuel : g.sectors = 0 ∨ 15 - g.idx ≤ fuel) :
    (growLoop fm fuel g).Meets Full fun g' => ∃ P', Turned Ok g g' P P' n (n + g.sectors) m := by
  induction fuel generalizing g P n m with
  | zero =>
    by_cases h0 : g.sectors = 0
    · rw [h0, Nat.add_zero]
      exact .ok ⟨P, Turned.refl hinv⟩
    · have hidx := hinv.idx_lt hcap (by omega)
      omega
  | succ fuel ih =>
    by_cases hpos : 0 < g.sectors
    · have hidx := hinv.idx_lt hcap hpos
      have hunfold : growLoop fm (fuel + 1) g = growTurn fm g >>= growLoop fm fuel := by
        rw [growLoop, if_pos (show g.idx < NUM_PTRS from hidx), if_pos hpos]
      rw [hunfold]
      obtain ⟨cnt, hcnt, hle, hstep, hturn⟩ := growTurn_spec laws hinv hpos hsame hcap hm
      refine hturn.bind ?_
      rintro g1 ⟨P1, ht⟩
      have hsec : n + cnt + g1.sectors = n + g.sectors := ht.sectors
      have hmono := blocksFor_mono (show n ≤ n + cnt by omega)
      have hmono' := blocksFor_mono (show n + cnt ≤ n + g.sectors by omega)
      have hrec := ih ht.inv (by rw [hsec]; exact hsame.mono (by omega)) (by rw [hsec]; exact hcap)
        (by rw [hsec]; omega) (by rw [ht.inv.idx]; rw [hinv.idx] at hfuel hidx; omega)
      rw [hsec] at hrec
      exact hrec.mono fun g2 ⟨P2, ht2⟩ => ⟨P2, ht.trans hinv ht2⟩
    · have h0 : g.sectors = 0 := by omega
      rw [growLoop_done h0, h0, Nat.add_zero]
      exact .ok ⟨P, Turned.refl hinv⟩

/-- **`inode_grow` from `n` to `n'` sectors.** Unless an allocation fails, no
sector is owed at the end, the tree has grown, and the growth position is that
of `n'`. -/
theorem growBody_spec {fs : FS} {ino : Inode} {L : Int} (hok : Ok fs P m)
    (htree : TreeOk P fs.store.disk ino n) (hcur : CursorAt ino n)
    (hn : bytesToSectors ino.length = n) (hn' : bytesToSectors L = n') (hle : n ≤ n')
    (hcap : n' ≤ CAPACITY) (hsame : SameSecond n n') (hm : blocksFor n' ≤ blocksFor n + m) :
    (growBody fm fs ino L).Meets Full fun (ino', fs', left) => left = 0 ∧ ∃ P',
      Ok fs' P' (m - (blocksFor n' - blocksFor n)) ∧
      Grown P fs.store.disk ino n P' fs'.store.disk ino' n' ∧
      CursorAt ino' n' ∧ KeepsRest ino ino' ∧ ino'.isAllocated = 1 := by
  set g0 : GrowState :=
    { fs := fs.uninit.2.uninit.2, ino := ino, innerPtr := fun k => fs.uninit.1 k
      doubleInnerPtr := fun k => fs.uninit.2.uninit.1 k, idx := ino.ptrIdx
      sectors := n' - n } with hg0
  have hsec : (bytesToSectors L + 4294967296 - bytesToSectors ino.length) % 4294967296 =
      n' - n := by
    unfold CAPACITY at hcap
    rw [hn, hn']
    omega
  have hbody : growBody fm fs ino L = growLoop fm (NUM_PTRS + 1) g0 >>= fun g =>
      .ok ({ g.ino with ptrIdx := g.idx, isAllocated := 1 }, g.fs, g.sectors) := by
    simp only [growBody, hsec]
    rfl
  have hinv : GrowInv Ok g0 P n m :=
    ⟨laws.uninit (laws.uninit hok), htree, hcur.ptrIdx, hcur.indirIdx, hcur.doubleIdx⟩
  have hsum : n + g0.sectors = n' := by
    show n + (n' - n) = n'
    omega
  have hloop := growLoop_spec laws (NUM_PTRS + 1) hinv (by rwa [hsum]) (by rwa [hsum])
    (by rwa [hsum]) (.inr (by unfold NUM_PTRS; omega))
  rw [hsum] at hloop
  rw [hbody]
  refine hloop.bind ?_
  rintro g' ⟨P', ht⟩
  have hz : g'.sectors = 0 := by
    have := ht.sectors
    omega
  exact .ok ⟨hz, P', ht.inv.ok, ht.grown.of_ptrs rfl, ⟨ht.inv.idx, ht.inv.indirIdx, ht.inv.doubleIdx⟩,
    ht.rest.trans (by constructor <;> rfl), rfl⟩

end

end Pintos.FileSys
