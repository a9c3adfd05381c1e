import Pintos.FileSys.Growth
import Pintos.FileSys.Lookup
import Pintos.FileSys.FreeMap
import Pintos.Lib.Run

/-!
# A growing inode

A fresh inode is grown again and again (`growTo`), each time to a length that
is not smaller. `free_map_allocate` is taken to change the free map and nothing
else, and to hand out a sector that was free (`AllocatesFree`).
-/

namespace Pintos.FileSys

open Lib List

/-- `free_map_allocate` hands out a sector that is free and changes only the
free map, or it fails. -/
def AllocatesFree (fm : FreeMapOps) : Prop :=
  ∀ fs, (∃ s, fs.isFree s ∧ fm.allocate fs = some (some s, fs.markUsed s)) ∨
    ∃ fs', fm.allocate fs = some (none, fs')

/-- `inode_grow (inode, length)`, after which the caller sets `inode->length`. A
growth in which an allocation fails is no step. -/
def growTo (fm : FreeMapOps) (st : FS × Inode) (length : Int) : Option (FS × Inode) :=
  match growBody fm st.1 st.2 length with
  | .ok (ino, fs, _) => some (fs, { ino with length := length })
  | _ => none

def Admissible (st : FS × Inode) (length : Int) : Prop :=
  st.2.length ≤ length ∧ length < 2147483648 ∧ bytesToSectors length ≤ CAPACITY

/-- An admissible growth that fills at most one second-level block. -/
def AdmissibleSame (st : FS × Inode) (length : Int) : Prop :=
  Admissible st length ∧ SameSecond (bytesToSectors st.2.length) (bytesToSectors length)

/-- A fresh inode: `inode_create` leaves the other fields unassigned. -/
structure Fresh (ino : Inode) : Prop where
  length : ino.length = 0
  ptrIdx : ino.ptrIdx = 0
  indirIdx : ino.indirIdx = 0
  doubleIdx : ino.doubleIndirIdx = 0

def dataSector (fs : FS) (ino : Inode) (i : Nat) : Option Sector :=
  (byteToSector fs ino (512 * i)).map Prod.fst

/-- The block map of an inode is sound; `l` is the log since it was fresh. -/
structure BlockMapOk (l : List Access) (fs : FS) (ino : Inode) : Prop where
  found : ∀ i, i < bytesToSectors ino.length → ∃ s, dataSector fs ino i = some s ∧
    Access.allocate s ∈ l ∧
    ∀ a : Slot, a.isIndex → a.used (bytesToSectors ino.length) →
      sectorOf fs.store.disk ino.toInodeCore a ≠ s
  distinct : ∀ i j, i < bytesToSectors ino.length → j < bytesToSectors ino.length →
    dataSector fs ino i = dataSector fs ino j → i = j
  writes : ∀ s b, Access.diskWrite s b ∈ l → Access.allocate s ∈ l

/-! ## The sectors of an inode -/

/-- Every slot of a file of `n` sectors is in `P`, each sector in one slot. -/
structure TreeIn (P : Set Sector) (rd : Disk) (c : InodeCore) (n : Nat) : Prop where
  mem : ∀ a : Slot, a.used n → sectorOf rd c a ∈ P
  inj : ∀ a b : Slot, a.used n → b.used n → sectorOf rd c a = sectorOf rd c b → a = b

section
variable {P P' : Set Sector} {rd rd' : Disk} {c c' : InodeCore} {n n' : Nat}

theorem TreeIn.treeOk (h : TreeIn P rd c n) : TreeOk P rd c n :=
  ⟨fun a _ hu => h.mem a hu, fun a b _ hua _ hub => h.inj a b hua hub⟩

theorem treeIn_zero : TreeIn P rd c 0 := by
  have hnone : ∀ a : Slot, ¬ a.used 0 := by
    intro a
    cases a <;> simp [Slot.used]
  exact ⟨fun a h => absurd h (hnone a), fun a _ h => absurd h (hnone a)⟩

theorem Grown.treeIn (hg : Grown P rd c n P' rd' c' n') (h : TreeIn P rd c n) :
    TreeIn P' rd' c' n' where
  mem := by
    intro a hu
    by_cases ha : a.used n
    · rw [hg.old a ha]
      exact hg.sub (h.mem a ha)
    · exact (hg.new a hu ha).1
  inj := by
    intro a b hua hub heq
    by_cases ha : a.used n <;> by_cases hb : b.used n
    · rw [hg.old a ha, hg.old b hb] at heq
      exact h.inj a b ha hb heq
    · exact absurd (heq ▸ hg.old a ha ▸ h.mem a ha) (hg.new b hub hb).2
    · exact absurd (heq.symm ▸ hg.old b hb ▸ h.mem b hb) (hg.new a hua ha).2
    · exact hg.inj a b hua ha hub hb heq

end

/-- The state of a growing inode: `l0` is the log when it was fresh, `P` are the
sectors allocated since. -/
structure Owns (l0 : List Access) (fs : FS) (P : Set Sector) : Prop where
  log : ∃ l, fs.log = l ++ l0 ∧ (∀ s, s ∈ P ↔ Access.allocate s ∈ l) ∧
    ∀ s b, Access.diskWrite s b ∈ l → Access.allocate s ∈ l
  taken : ∀ s ∈ P, ¬ fs.isFree s

variable {fs : FS} {P : Set Sector} {fm : FreeMapOps} {ino : Inode} {L : Int}

theorem Owns.markUsed {l0 : List Access} (h : Owns l0 fs P) {s : Sector} (hs : fs.isFree s) :
    Owns l0 (fs.markUsed s) (insert s P) where
  log := by
    obtain ⟨l, hl, hP, hw⟩ := h.log
    refine ⟨.allocate s :: l, by simp [FS.markUsed, hl], ?_, ?_⟩
    · intro u
      rw [Set.mem_insert_iff, hP, mem_cons]
      simp
    · intro u b hmem
      rcases mem_cons.mp hmem with hmem | hmem
      · simp at hmem
      · exact mem_cons_of_mem _ (hw u b hmem)
  taken := by
    intro u hu hfree
    rw [isFree_markUsed hs] at hfree
    rcases Set.mem_insert_iff.mp hu with rfl | hu
    · exact hfree.2 rfl
    · exact h.taken u hu hfree.1

theorem Owns.access {l0 : List Access} {fs' : FS} {a : Access} (h : Owns l0 fs P)
    (hmap : fs'.freeMap = fs.freeMap) (hlog : fs'.log = a :: fs.log) (ha : ∀ s, a ≠ .allocate s)
    (hw : ∀ s b, a = .diskWrite s b → s ∈ P) : Owns l0 fs' P where
  log := by
    obtain ⟨l, hl, hP, hold⟩ := h.log
    refine ⟨a :: l, by rw [hlog, hl, cons_append], fun s => ?_, fun s b hmem => ?_⟩
    · rw [hP, mem_cons, or_iff_right (ha s).symm]
    · rcases mem_cons.mp hmem with heq | hmem
      · exact mem_cons_of_mem _ ((hP s).mp (hw s b heq.symm))
      · exact mem_cons_of_mem _ (hold s b hmem)
  taken := by
    unfold FS.isFree
    rw [hmap]
    exact h.taken

theorem owns_laws (hfm : AllocatesFree fm) (l0 : List Access) :
    GrowLaws fm (fun fs P _ => Owns l0 fs P) True where
  allocate := by
    intro fs P m hok
    rcases hfm fs with ⟨s, hs, heq⟩ | hfail
    · exact .inl ⟨s, _, heq, fun hmem => hok.taken s hmem hs, hok.markUsed hs, fun _ _ => rfl⟩
    · exact .inr ⟨trivial, hfail⟩
  write := by
    intro fs P m s b hok hs
    refine hok.access rfl rfl nofun ?_
    rintro _ _ ⟨⟩
    exact hs
  read := fun hok _ => hok.access rfl rfl nofun nofun
  uninit := fun hok => ⟨hok.log, hok.taken⟩

/-! ## Runs -/

theorem growTo_of_growBody {fs' : FS} {ino' : Inode} {k : Nat}
    (h : growBody fm fs ino L = .ok (ino', fs', k)) :
    growTo fm (fs, ino) L = some (fs', { ino' with length := L }) := by
  simp only [growTo, h]

/-- What holds of a growing inode between two calls. -/
structure Growing (l0 : List Access) (st : FS × Inode) : Prop where
  nonneg : 0 ≤ st.2.length
  bound : st.2.length ≤ 9046016
  cursor : CursorAt st.2.toInodeCore (bytesToSectors st.2.length)
  owned : ∃ P, Owns l0 st.1 P ∧
    TreeIn P st.1.store.disk st.2.toInodeCore (bytesToSectors st.2.length)

theorem Fresh.growing (h : Fresh ino) : Growing fs.log (fs, ino) := by
  have hz : bytesToSectors ino.length = 0 := by
    rw [h.length]
    rfl
  refine ⟨by simp [h.length], by simp [h.length], ?_, ∅, ?_, ?_⟩
  · rw [hz]
    exact { h with }
  · exact ⟨⟨[], rfl, by simp, by simp⟩, by simp⟩
  · rw [hz]
    exact treeIn_zero

theorem growTo_step (hfm : AllocatesFree fm) {l0 : List Access} {st st' : FS × Inode}
    (hinv : Growing l0 st) (hadm : AdmissibleSame st L) (heq : growTo fm st L = some st') :
    Growing l0 st' ∧ bytesToSectors st.2.length ≤ bytesToSectors st'.2.length ∧
      ∀ a : Slot, a.used (bytesToSectors st.2.length) →
        sectorOf st'.1.store.disk st'.2 a =
          sectorOf st.1.store.disk st.2 a := by
  obtain ⟨⟨hle, h31, hcap⟩, hsame⟩ := hadm
  obtain ⟨P, hown, htree⟩ := hinv.owned
  have h0 : 0 ≤ L := le_trans hinv.nonneg hle
  have hL := length_le_of_sectors h0 h31 hcap
  have hmono := bytesToSectors_mono hinv.nonneg hle hL
  have hspec := growBody_spec (owns_laws hfm l0) (m := blocksFor (bytesToSectors L)) hown
    htree.treeOk hinv.cursor rfl rfl hmono hcap hsame (by omega)
  rcases hspec.ok_or_full with ⟨⟨ino', fs', _⟩, hbody, rfl, P', hok', hgrown, hcur, -⟩ | ⟨-, ino', fs', hbody⟩
  · obtain rfl := Option.some.inj ((growTo_of_growBody hbody).symm.trans heq)
    have hgrown' : Grown P st.1.store.disk st.2 (bytesToSectors st.2.length) P'
        fs'.store.disk { ino' with length := L } (bytesToSectors L) :=
      hgrown.of_ptrs rfl
    refine ⟨⟨h0, hL, { hcur with }, P', hok',
      hgrown'.treeIn htree⟩, hmono, hgrown'.old⟩
  · rw [growTo, hbody] at heq
    simp at heq

theorem dataSector_eq (h0 : 0 ≤ ino.length) (hb : ino.length ≤ 9046016) {i : Nat}
    (hi : i < bytesToSectors ino.length) :
    dataSector fs ino i = some (sectorOf fs.store.disk ino (.data i)) := by
  rw [bytesToSectors_eq h0 (by omega)] at hi
  unfold dataSector
  rw [byteToSector_spec fs ino (by omega) (by omega) (by omega)]
  simp only [Option.map_some]
  congr 2
  congr 1
  omega

/-- **The block map of a growing inode**, when no growth crosses from one
second-level block into the next. -/
theorem growing_inode_block_map {fm : FreeMapOps} (hfm : AllocatesFree fm) {fs₀ : FS}
    {ino₀ : Inode} (hfresh : Fresh ino₀) {Ls : List Int} {fs : FS} {ino : Inode}
    (hrun : Run (growTo fm) AdmissibleSame (fs₀, ino₀) Ls (fs, ino)) :
    (∃ l, fs.log = l ++ fs₀.log ∧ BlockMapOk l fs ino) ∧
    ∀ Ls1 Ls2 fs₁ ino₁, Run (growTo fm) AdmissibleSame (fs₀, ino₀) Ls1 (fs₁, ino₁) →
      Run (growTo fm) AdmissibleSame (fs₁, ino₁) Ls2 (fs, ino) →
      ∀ i, i < bytesToSectors ino₁.length → dataSector fs ino i = dataSector fs₁ ino₁ i := by
  have hrunInv : ∀ {Ls' : List Int} {st : FS × Inode},
      Run (growTo fm) AdmissibleSame (fs₀, ino₀) Ls' st → Growing fs₀.log st := by
    intro Ls' st h
    exact h.invariant (fun s a s' hs hok heq => (growTo_step hfm hs hok heq).1) hfresh.growing
  have hinv := hrunInv hrun
  constructor
  · obtain ⟨P, hown, htree⟩ := hinv.owned
    obtain ⟨l, hl, hP, hw⟩ := hown.log
    refine ⟨l, hl, ?_, ?_, hw⟩
    · intro i hi
      refine ⟨_, dataSector_eq hinv.nonneg hinv.bound hi, (hP _).mp (htree.mem (.data i) hi), ?_⟩
      intro a hidx hu heq
      have := htree.inj a (.data i) hu hi heq
      subst this
      exact hidx
    · intro i j hi hj heq
      rw [dataSector_eq hinv.nonneg hinv.bound hi, dataSector_eq hinv.nonneg hinv.bound hj] at heq
      have := htree.inj (.data i) (.data j) hi hj (Option.some.inj heq)
      simpa using this
  · intro Ls1 Ls2 fs₁ ino₁ hrun1 hrun2 i hi
    have hinv1 := hrunInv hrun1
    -- from `(fs₁, ino₁)` on, the slots in use there keep their sectors
    have hkeep := Run.invariant (I := fun st => Growing fs₀.log st ∧
      bytesToSectors ino₁.length ≤ bytesToSectors st.2.length ∧
      ∀ a : Slot, a.used (bytesToSectors ino₁.length) →
        sectorOf st.1.store.disk st.2.toInodeCore a =
          sectorOf fs₁.store.disk ino₁.toInodeCore a) ?_ hrun2 ⟨hinv1, le_refl _, fun _ _ => rfl⟩
    · rw [dataSector_eq hinv.nonneg hinv.bound (lt_of_lt_of_le hi hkeep.2.1),
        dataSector_eq hinv1.nonneg hinv1.bound hi, hkeep.2.2 (.data i) hi]
    · intro s L s' hs hok heq
      obtain ⟨h1, h2, h3⟩ := growTo_step hfm hs.1 hok heq
      refine ⟨h1, le_trans hs.2.1 h2, ?_⟩
      intro a ha
      rw [h3 a (Slot.used_mono hs.2.1 ha), hs.2.2 a ha]

/-! ## A concrete allocator and inode -/

/-- The functions of the free map without its file and its assertion: what
`free_map_allocate` does while `free_map_file` is null, and `free_map_release`
of a sector that is in use. -/
def bitmapOps : FreeMapOps where
  allocate fs :=
    match bitmapScan fs.freeMap 0 1 false with
    | some k => if k < 4294967296 then some (some (UInt32.ofNat k), fs.markUsed (UInt32.ofNat k))
      else some (none, fs)
    | none => some (none, fs)
  release fs s :=
    some { fs with freeMap := fs.freeMap.set s.toNat false, log := .release s :: fs.log }

/-- An empty file system on which sectors 0 and 1 are in use and `free` more
are not, and where uninitialised memory holds zeros. -/
def blankFS (free : Nat) : FS where
  store := { disk := fun _ => Arr.const 0, bufferCacheList := [], cacheCurrentSize := 0 }
  freeMap := [true, true] ++ List.replicate free false
  freeMapFile := none
  openInodes := []
  locked := fun _ => false
  garbage := fun _ _ => 0
  garbagePos := 0
  log := []

def blankInode : Inode where
  length := 0
  isAllocated := 0
  ptrs := Arr.const 0
  ptrIdx := 0
  indirIdx := 0
  doubleIndirIdx := 0
  isDir := 0
  parent := 0
  sector := 0
  openCnt := 1
  removed := false
  denyWriteCnt := 0
  lengthShown := 0

theorem bitmapOps_allocate {k : Nat} {rest : List Nat} (h : freeBits fs.freeMap = k :: rest)
    (hk : k < 4294967296) :
    fs.isFree (UInt32.ofNat k) ∧
      bitmapOps.allocate fs = some (some (UInt32.ofNat k), fs.markUsed (UInt32.ofNat k)) := by
  constructor
  · unfold FS.isFree
    rw [UInt32.toNat_ofNat_of_lt' hk]
    exact mem_freeBits.mp (h ▸ mem_cons_self ..)
  · simp [bitmapOps, bitmapScan_one, h, hk]

theorem bitmapOps_allocatesFree : AllocatesFree bitmapOps := by
  intro fs
  cases h : freeBits fs.freeMap with
  | nil => exact .inr ⟨fs, by simp [bitmapOps, bitmapScan_one, h]⟩
  | cons k rest =>
    by_cases hk : k < 4294967296
    · exact .inl ⟨UInt32.ofNat k, bitmapOps_allocate h hk⟩
    · exact .inr ⟨fs, by simp [bitmapOps, bitmapScan_one, h, hk]⟩

theorem growing_inode_block_map_one_sector :
    ∃ fs ino, Run (growTo bitmapOps) AdmissibleSame (blankFS 2, blankInode) [512] (fs, ino) ∧
      ∃ l, fs.log = l ++ (blankFS 2).log ∧ BlockMapOk l fs ino := by
  have hsome : (growTo bitmapOps (blankFS 2, blankInode) 512).isSome = true := by decide +kernel
  obtain ⟨⟨fs, ino⟩, heq⟩ := Option.isSome_iff_exists.mp hsome
  have hrun : Run (growTo bitmapOps) AdmissibleSame (blankFS 2, blankInode) ([] ++ [512])
      (fs, ino) := by
    refine .snoc .nil ⟨⟨by decide, by decide, by decide⟩, ?_⟩ heq
    show SameSecond 0 1
    decide
  exact ⟨fs, ino, hrun,
    (growing_inode_block_map bitmapOps_allocatesFree ⟨rfl, rfl, rfl, rfl⟩ hrun).1⟩

/-! ## A growth that crosses -/

/-- A growing inode of `blankFS` with room for `m` more sectors. -/
structure Counted (fs : FS) (P : Set Sector) (m : Nat) : Prop where
  owns : Owns [] fs P
  room : m ≤ (freeBits fs.freeMap).length
  size : fs.freeMap.length < 4294967296
  zero : ¬ fs.isFree 0 ∧ 0 ∉ P
  garbage : fs.garbage = fun _ _ => 0

theorem counted_laws : GrowLaws bitmapOps Counted False where
  allocate := by
    intro fs P m hok
    left
    have hroom := hok.room
    cases h : freeBits fs.freeMap with
    | nil =>
      rw [h, List.length_nil] at hroom
      omega
    | cons k rest =>
      have hmem : k ∈ freeBits fs.freeMap := h ▸ List.mem_cons_self ..
      have hlt : k < fs.freeMap.length :=
        (List.getElem?_eq_some_iff.mp (mem_freeBits.mp hmem)).1
      have hk : k < 4294967296 := lt_trans hlt hok.size
      obtain ⟨hfree, heq⟩ := bitmapOps_allocate h hk
      have hto : (UInt32.ofNat k).toNat = k := UInt32.toNat_ofNat_of_lt' hk
      have hne : (0 : Sector) ≠ UInt32.ofNat k := by
        intro h0
        exact hok.zero.1 (h0 ▸ hfree)
      refine ⟨_, _, heq, fun hP => hok.owns.taken _ hP hfree, ?_, fun _ _ => rfl⟩
      refine ⟨hok.owns.markUsed hfree, ?_, ?_, ⟨?_, ?_⟩, hok.garbage⟩
      · show m ≤ (freeBits (fs.freeMap.set (UInt32.ofNat k).toNat true)).length
        rw [hto, freeBits_mark_head h]
        rw [h, List.length_cons] at hroom
        omega
      · show (fs.freeMap.set (UInt32.ofNat k).toNat true).length < _
        rw [List.length_set]
        exact hok.size
      · rw [isFree_markUsed hfree]
        exact fun hz => hok.zero.1 hz.1
      · rw [Set.mem_insert_iff]
        exact fun hz => hz.elim hne hok.zero.2
  write := fun b hok hs =>
    { hok with owns := (owns_laws bitmapOps_allocatesFree []).write (m := 0) b hok.owns hs }
  read := fun hok hs =>
    { hok with owns := (owns_laws bitmapOps_allocatesFree []).read (m := 0) hok.owns hs }
  uninit := fun hok => { hok with owns := ⟨hok.owns.log, hok.owns.taken⟩ }

/-- The turn that fills one second-level block and starts the next: the second
block is put into slot 0 again, and what slot 1 of the uninitialised array
happens to hold is taken for its sector. -/
theorem growDouble_crossing {g : GrowState} {m : Nat} (hinv : GrowInv Counted g P 1284 m)
    (hsec : g.sectors = 129) (hm : 132 ≤ m) (hjunk : g.innerPtr.get 1 = 0) :
    ∃ g' b, growDouble bitmapOps g = .ok g' ∧ g'.sectors = 0 ∧
      Access.diskWrite 0 b ∈ g'.fs.log ∧ Access.allocate 0 ∉ g'.fs.log := by
  have hindir : g.ino.indirIdx = 0 := hinv.indirIdx
  have hdouble : g.ino.doubleIndirIdx = 0 := hinv.doubleIdx
  obtain ⟨g1, hload, s, P1, hl⟩ :=
    (loadIndex_spec counted_laws true hinv.ok (by omega) (by simp)).ok_or_full.resolve_right (·.1)
  -- the first turn of the middle loop fills block 0
  obtain ⟨_, hsecond, g2, s2, P2, fs2, D, P3, hl2, hok2, hfill2, -, -, rfl⟩ :=
    (growSecond_spec counted_laws (a := 0) (b := 0) 128 0 hl.ok (by decide)
      (hl.indirIdx.trans hindir) (hl.doubleIdx.trans hdouble) (by rw [hl.sectors, hsec]; rfl)
      (by simp; omega) (by simp)).ok_or_full.resolve_right (·.1)
  have hs2 : g2.innerPtr.get 0 = s2 := by
    rw [hl2.innerPtr 0 (by decide), if_pos rfl]
  rw [if_pos rfl, if_pos rfl, hl.sectors, hsec, hs2] at hsecond
  set g3 : GrowState :=
    { g2 with
      fs := fs2.diskWrite s2 (packWords D), doubleInnerPtr := D, sectors := 129 - 128
      ino := { g1.ino with doubleIndirIdx := 0 } } with hg3
  -- the second turn allocates into slot 0 and writes through slot 1
  obtain ⟨_, hthird, g4, s4, P4, fs4, D', P5, hl4, hok4, -, -, -, rfl⟩ :=
    (growSecond_spec counted_laws (g := g3) (a := 0) (b := 0) 1 1
      (counted_laws.write _ hok2 (hfill2.sub hl2.mem)) (by decide) (hl.indirIdx.trans hindir) rfl rfl
      (by simp; omega) (by simp)).ok_or_full.resolve_right (·.1)
  have hjunk4 : g4.innerPtr.get 1 = 0 := by
    rw [hl4.innerPtr 1 (by decide), if_neg (by decide)]
    show g2.innerPtr.get 1 = 0
    rw [hl2.innerPtr 1 (by decide), if_neg (by decide), hl.junk rfl, hjunk]
  rw [if_neg (by decide), if_neg (by decide), hjunk4] at hthird
  obtain ⟨g5, hg5, hsec5, hfs5⟩ : ∃ g5 : GrowState, growSecond bitmapOps g3 1 = .ok (g5, 1) ∧
      g5.sectors = 0 ∧ g5.fs = fs4.diskWrite 0 (packWords D') := ⟨_, hthird, rfl, rfl⟩
  have hcall : growDouble bitmapOps g = .ok (storeIndex g5 1) := by
    rw [growDouble, hindir, hdouble]
    simp only [and_self, decide_true]
    rw [hload, Grow.ok_bind, hl.indirIdx, hindir, growSeconds, if_pos (by decide), hl.sectors, hsec,
      if_pos (by decide), hsecond, Grow.ok_bind]
    show (growSeconds bitmapOps (127 + 1) g3 1 >>= _) = _
    rw [growSeconds, if_pos (by decide), if_pos (show 0 < g3.sectors from Nat.one_pos), hg5,
      Grow.ok_bind]
    dsimp only
    rw [growSeconds_done hsec5, Grow.ok_bind]
  obtain ⟨l, hlog, hP, -⟩ := hok4.owns.log
  rw [append_nil] at hlog
  obtain ⟨hsfs, -, -, hssec⟩ := storeIndex_fields g5 1
  refine ⟨_, packWords D', hcall, hssec.trans hsec5, ?_, ?_⟩
  · rw [hsfs, hfs5]
    simp [FS.diskWrite]
  · rw [hsfs, hfs5]
    simp only [FS.diskWrite, hlog, mem_cons, reduceCtorEq, false_or]
    exact fun h => hok4.zero.2 ((hP 0).mpr h)

theorem growTo_crossing (ino : Inode) {m : Nat} (hok : Counted fs P m)
    (htree : TreeOk P fs.store.disk ino 1284) (hcur : CursorAt ino 1284)
    (hn : bytesToSectors ino.length = 1284) (hL : bytesToSectors L = 1413) (hm : 132 ≤ m) :
    ∃ fs' ino' b, growTo bitmapOps (fs, ino) L = some (fs', ino') ∧
      Access.diskWrite 0 b ∈ fs'.log ∧ Access.allocate 0 ∉ fs'.log := by
  let g : GrowState :=
    { fs := fs.uninit.2.uninit.2, ino := ino, innerPtr := fun k => fs.uninit.1 k
      doubleInnerPtr := fun k => fs.uninit.2.uninit.1 k, idx := ino.ptrIdx, sectors := 129 }
  have hinv : GrowInv Counted g P 1284 m :=
    ⟨counted_laws.uninit (counted_laws.uninit hok), htree, hcur.ptrIdx, hcur.indirIdx,
      hcur.doubleIdx⟩
  have hjunk : g.innerPtr.get 1 = 0 := by
    show fs.garbage fs.garbagePos _ = 0
    rw [hok.garbage]
  obtain ⟨g', b, hdouble, hsec, hwrite, hnot⟩ := growDouble_crossing hinv rfl hm hjunk
  have hidx : g.idx = 14 := hinv.idx
  have hturn : growTurn bitmapOps g = .ok g' := by
    rw [growTurn, hidx, if_neg (by decide), if_neg (by decide), hdouble]
  have hloop : growLoop bitmapOps (NUM_PTRS + 1) g = .ok g' := by
    rw [growLoop, hidx, if_pos (by decide), if_pos (show 0 < g.sectors from Nat.succ_pos 128), hturn,
      Grow.ok_bind]
    exact growLoop_done hsec
  have hbody : growBody bitmapOps fs ino L =
      .ok ({ g'.ino with ptrIdx := g'.idx, isAllocated := 1 }, g'.fs, g'.sectors) := by
    have hsectors : (bytesToSectors L + 4294967296 - bytesToSectors ino.length) % 4294967296 =
        129 := by rw [hL, hn]
    simp only [growBody, hsectors]
    show (growLoop bitmapOps (NUM_PTRS + 1) g >>= _) = _
    rw [hloop, Grow.ok_bind]
  exact ⟨g'.fs, _, b, growTo_of_growBody hbody, hwrite, hnot⟩

theorem blankFS_free {free : Nat} : free ≤ (freeBits (blankFS free).freeMap).length := by
  have hsub : (List.range' 2 free).Subperm (freeBits (blankFS free).freeMap) := by
    apply subperm_of_subset nodup_range'
    intro i hi
    rw [mem_range'_1] at hi
    rw [mem_freeBits]
    show ([true, true] ++ List.replicate free false)[i]? = some false
    rw [getElem?_append_right (by simp; omega), getElem?_replicate,
      if_pos (by simp; omega)]
  simpa using hsub.length_le

theorem blankFS_counted (free : Nat) (h : free < 4294967294) : Counted (blankFS free) ∅ free := by
  refine ⟨⟨⟨[], rfl, by simp, by simp⟩, by simp⟩, blankFS_free, ?_, ⟨?_, by simp⟩, rfl⟩
  · simp [blankFS]
    omega
  · simp [FS.isFree, blankFS]

theorem crossing_growth_writes_foreign_sector :
    ∃ fs ino, Run (growTo bitmapOps) Admissible (blankFS 2000, blankInode) [657408, 723456]
        (fs, ino) ∧
      (∃ b, Access.diskWrite 0 b ∈ fs.log) ∧ Access.allocate 0 ∉ fs.log ∧
      ¬ BlockMapOk fs.log fs ino := by
  have hn0 : bytesToSectors blankInode.length = 0 := by decide +kernel
  have hn1 : bytesToSectors 657408 = 1284 := by decide +kernel
  have hn2 : bytesToSectors 723456 = 1413 := by decide +kernel
  -- up to the last single-indirect block everything is in order
  have hspec := growBody_spec counted_laws (blankFS_counted 2000 (by decide)) treeIn_zero.treeOk
    (show CursorAt blankInode.toInodeCore 0 from ⟨rfl, rfl, rfl⟩) hn0 hn1 (by decide) (by decide)
    (by decide) (by decide)
  obtain ⟨⟨ino1, fs1, _⟩, hbody, rfl, P1, hok1, hgrown, hcur, -⟩ :=
    hspec.ok_or_full.resolve_right (·.1)
  have hleft : 132 ≤ 2000 - (blocksFor 1284 - blocksFor 0) := by simp [blocksFor]
  have hfirst := growTo_of_growBody hbody
  -- the next growth takes 129 sectors, one more than a second-level block has
  have hset : Grown _ _ _ _ P1 fs1.store.disk { ino1.toInodeCore with length := 657408 } 1284 :=
    hgrown.of_ptrs rfl
  have htree := hset.treeOk treeIn_zero.treeOk
  obtain ⟨fs2, ino2, b, hsecond, hwrite, hnot⟩ :=
    growTo_crossing { ino1 with length := 657408 } hok1 htree
      { hcur with } hn1 hn2 hleft
  refine ⟨fs2, ino2, .snoc (.snoc .nil ⟨by decide, by decide, ?_⟩ hfirst) ⟨?_, by decide, ?_⟩ hsecond,
    ⟨b, hwrite⟩, hnot, fun hmap => hnot (hmap.writes 0 b hwrite)⟩
  · show (657408 : Int) ≤ 723456
    decide
  · rw [hn2]
    decide
  · rw [hn1]
    decide

end Pintos.FileSys
