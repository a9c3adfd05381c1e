import Mathlib.Algebra.GroupWithZero.Nat
import Pintos.Lib.Buckets
import Pintos.Lib.Pieces
import Pintos.Threads.Palloc

/-!
# The kernel heap (`threads/malloc.c`)

Small blocks are cut from arenas of one page, one size for each descriptor, and a descriptor
keeps its free blocks in a list. A block that is too big for any descriptor has pages of its
own. Either kind of page group begins with a `struct arena`.

A block is its address, and a free list is the list of its blocks. Of the rest of memory only
the arena headers are kept: what would be read as a `struct arena` at an address. Filling
memory spoils every header that it touches. The page allocator is a parameter: with each
call comes the address it gives if it is asked for pages, or that it gives none.

`none` is an assertion that fails. The calls run to completion, so the locks are left out.
-/

namespace Pintos.Threads.Malloc

open Lib Function List

/-! ## Descriptors and arenas -/

/-- `struct desc`, without the free list. -/
structure Desc where
  blockSize : Nat
  blocksPerArena : Nat
deriving DecidableEq

def ARENA_MAGIC : Nat := 0x9a548eed

/-- `struct arena`; `desc` is the index of the descriptor, `none` for a big block. -/
structure Arena where
  magic : Nat
  desc : Option Nat
  freeCnt : Nat
deriving DecidableEq

def sizeofArena : Nat := 12

/-- The loop of `malloc_init`, with room for `room` more descriptors in `descs`. -/
def initDescs (room blockSize : Nat) : Option (List Desc) :=
  if blockSize < PGSIZE / 2 then
    match room with
    | 0 => none
    | room + 1 => do
      let rest ← initDescs room (blockSize * 2)
      some (⟨blockSize, (PGSIZE - sizeofArena) / blockSize⟩ :: rest)
  else some []

def mallocInit : Option (List Desc) := initDescs 10 16

/-- The descriptors, which stay as `malloc_init` made them. -/
def descs : List Desc := mallocInit.getD []

theorem mallocInit_eq : mallocInit = some descs := by decide

/-- The free lists of the descriptors, the headers in memory, and the page groups that the
allocator has given and not got back. -/
structure Heap where
  freeLists : List (List Nat)
  header : Nat → Arena
  held : List Span

def Heap.setHeader (h : Heap) (a : Nat) (arena : Arena) : Heap :=
  { h with header := update h.header a arena }

def Heap.setFreeList (h : Heap) (d : Nat) (l : List Nat) : Heap :=
  { h with freeLists := h.freeLists.set d l }

def Heap.fill (h : Heap) (s : Span) : Heap :=
  { h with header := fun a => if Span.Disjoint ⟨a, sizeofArena⟩ s then h.header a
      else ⟨0xcccccccc, some 0xcccccccc, 0xcccccccc⟩ }

/-- `palloc_get_multiple (0, page_cnt)` where it gives address `a`. -/
def Heap.pallocGet (h : Heap) (a pageCnt : Nat) : Heap :=
  { h with held := ⟨a, pageCnt * PGSIZE⟩ :: h.held }

def Heap.pallocFree (h : Heap) (a pageCnt : Nat) : Option Heap :=
  if ⟨a, pageCnt * PGSIZE⟩ ∈ h.held then
    some { h.fill ⟨a, pageCnt * PGSIZE⟩ with held := h.held.erase ⟨a, pageCnt * PGSIZE⟩ }
  else none

/-! ## block_to_arena, arena_to_block -/

def pgRoundDown (va : Nat) : Nat := va / PGSIZE * PGSIZE

def blockToArena (h : Heap) (b : Nat) : Option Nat :=
  let a := pgRoundDown b
  if a ≠ 0 ∧ (h.header a).magic = ARENA_MAGIC then
    match (h.header a).desc with
    | some d => do
      let desc ← descs[d]?
      -- `pg_ofs (b) - sizeof *a` is unsigned
      if (pgOfs b + 2 ^ 32 - sizeofArena) % 2 ^ 32 % desc.blockSize = 0 then some a else none
    | none => if pgOfs b = sizeofArena then some a else none
  else none

def arenaToBlock (h : Heap) (a idx : Nat) : Option Nat :=
  if a ≠ 0 ∧ (h.header a).magic = ARENA_MAGIC then do
    let d ← (h.header a).desc
    let desc ← descs[d]?
    if idx < desc.blocksPerArena then some (a + sizeofArena + idx * desc.blockSize) else none
  else none

def blockSize (h : Heap) (block : Nat) : Option Nat := do
  let a ← blockToArena h block
  match (h.header a).desc with
  | some d => do
    let desc ← descs[d]?
    some desc.blockSize
  | none => some (PGSIZE * (h.header a).freeCnt - pgOfs block)

/-! ## malloc -/

/-- `DIV_ROUND_UP (size + sizeof *a, PGSIZE)`. -/
def bigPageCnt (size : Nat) : Nat := (size + sizeofArena + PGSIZE - 1) % 2 ^ 32 / PGSIZE

/-- The smallest descriptor for a request. -/
def findDesc (size : Nat) : Option Nat := descs.findIdx? fun d => size ≤ d.blockSize

/-- One turn of the loop that adds the blocks of a new arena to the free list. -/
def pushBlock (d a : Nat) (h : Heap) (i : Nat) : Option Heap := do
  let b ← arenaToBlock h a i
  let l ← h.freeLists[d]?
  some (h.setFreeList d (l ++ [b]))

def newArena (h : Heap) (d : Nat) (desc : Desc) (a : Nat) : Option Heap :=
  (List.range desc.blocksPerArena).foldlM (pushBlock d a)
    ((h.pallocGet a 1).setHeader a ⟨ARENA_MAGIC, some d, desc.blocksPerArena⟩)

def takeBlock (h : Heap) (d : Nat) : Option (Option Nat × Heap) := do
  match ← h.freeLists[d]? with
  | [] => none
  | b :: l => do
    let h := h.setFreeList d l
    let a ← blockToArena h b
    some (some b, h.setHeader a { h.header a with freeCnt := (h.header a).freeCnt - 1 })

/-- `malloc`; `answer` is what the page allocator gives if it is asked for pages. -/
def malloc (h : Heap) (size : Nat) (answer : Option Nat) : Option (Option Nat × Heap) :=
  if size = 0 then some (none, h)
  else match findDesc size with
  | none =>
    match answer with
    | none => some (none, h)
    | some a => some (some (a + sizeofArena),
        (h.pallocGet a (bigPageCnt size)).setHeader a ⟨ARENA_MAGIC, none, bigPageCnt size⟩)
  | some d => do
    let desc ← descs[d]?
    if h.freeLists[d]? = some [] then
      match answer with
      | none => some (none, h)
      | some a => do
        let h ← newArena h d desc a
        takeBlock h d
    else takeBlock h d

/-- The number of pages that `malloc` asks for. -/
def pagesAsked (h : Heap) (size : Nat) : Option Nat :=
  match findDesc size with
  | none => some (bigPageCnt size)
  | some d => if h.freeLists[d]? = some [] then some 1 else none

/-! ## free -/

/-- One turn of the loop that removes the blocks of an arena from the free list. -/
def removeBlock (d a : Nat) (h : Heap) (i : Nat) : Option Heap := do
  let b ← arenaToBlock h a i
  let l ← h.freeLists[d]?
  if b ∈ l then some (h.setFreeList d (l.erase b)) else none

def freeArena (h : Heap) (d : Nat) (desc : Desc) (a : Nat) : Option Heap := do
  let h ← (List.range desc.blocksPerArena).foldlM (removeBlock d a) h
  h.pallocFree a 1

def putBlock (h : Heap) (d a b : Nat) : Option Heap := do
  let l ← h.freeLists[d]?
  let h := h.setFreeList d (b :: l)
  some (h.setHeader a { h.header a with freeCnt := (h.header a).freeCnt + 1 })

def free (h : Heap) (p : Nat) : Option Heap :=
  if p = 0 then some h
  else do
    let a ← blockToArena h p
    match (h.header a).desc with
    | some d => do
      let desc ← descs[d]?
      let h ← putBlock (h.fill ⟨p, desc.blockSize⟩) d a p
      if (h.header a).freeCnt ≥ desc.blocksPerArena then
        if (h.header a).freeCnt = desc.blocksPerArena then freeArena h d desc a else none
      else some h
    | none => h.pallocFree a (h.header a).freeCnt

/-! ## Page groups and their blocks -/

/-- What a page group is for: one big block, or the blocks of descriptor `d`. -/
inductive Kind where
  | big (pageCnt : Nat)
  | arena (d : Nat) (desc : Desc)
deriving DecidableEq

structure Group where
  start : Nat
  kind : Kind
deriving DecidableEq

namespace Group

def pageCnt (g : Group) : Nat :=
  match g.kind with
  | .big pageCnt => pageCnt
  | .arena _ _ => 1

def blockSize (g : Group) : Nat :=
  match g.kind with
  | .big pageCnt => pageCnt * PGSIZE - sizeofArena
  | .arena _ desc => desc.blockSize

def blockCnt (g : Group) : Nat :=
  match g.kind with
  | .big _ => 1
  | .arena _ desc => desc.blocksPerArena

def span (g : Group) : Span := ⟨g.start, g.pageCnt * PGSIZE⟩

def blockAt (g : Group) (i : Nat) : Nat := g.start + sizeofArena + i * g.blockSize

def blocks (g : Group) : List Nat := (List.range g.blockCnt).map g.blockAt

def header (g : Group) (n : Nat) : Arena :=
  match g.kind with
  | .big pageCnt => ⟨ARENA_MAGIC, none, pageCnt⟩
  | .arena d _ => ⟨ARENA_MAGIC, some d, n⟩

def headerSpan (g : Group) : Span := ⟨g.start, sizeofArena⟩

structure Valid (g : Group) : Prop where
  aligned : g.start % 4096 = 0
  notNull : g.start ≠ 0
  pages : ∀ n, g.kind = .big n → 0 < n
  desc : ∀ d desc, g.kind = .arena d desc → descs[d]? = some desc

end Group

theorem Group.length_blocks (g : Group) : g.blocks.length = g.blockCnt := by
  rw [Group.blocks, length_map, length_range]

theorem Group.header_arena {g : Group} {d : Nat} {desc : Desc} (hkind : g.kind = .arena d desc)
    (n : Nat) : g.header n = ⟨ARENA_MAGIC, some d, n⟩ := by
  rw [Group.header, hkind]

theorem Group.header_big {g : Group} {pageCnt : Nat} (hkind : g.kind = .big pageCnt) (n : Nat) :
    g.header n = ⟨ARENA_MAGIC, none, pageCnt⟩ := by
  rw [Group.header, hkind]

theorem desc_fits {d : Nat} {desc : Desc} (h : descs[d]? = some desc) :
    0 < desc.blockSize ∧ 0 < desc.blocksPerArena ∧
      sizeofArena + desc.blocksPerArena * desc.blockSize ≤ 4096 := by
  have hall : ∀ desc ∈ descs, 0 < desc.blockSize ∧ 0 < desc.blocksPerArena ∧
      sizeofArena + desc.blocksPerArena * desc.blockSize ≤ 4096 := by decide
  exact hall desc (mem_of_getElem? h)

theorem pgRoundDown_eq (va : Nat) : pgRoundDown va = va / 4096 * 4096 := rfl

theorem Group.blocks_disjoint {g : Group} {b b' : Nat} (hb : b ∈ g.blocks) (hb' : b' ∈ g.blocks)
    (hne : b ≠ b') :
    Span.Disjoint ⟨b, g.blockSize⟩ ⟨b', g.blockSize⟩ := by
  obtain ⟨i, -, rfl⟩ := mem_map.mp hb
  obtain ⟨j, -, rfl⟩ := mem_map.mp hb'
  simp only [Span.Disjoint, Group.blockAt] at *
  rcases Nat.lt_trichotomy i j with hij | rfl | hji
  · have hle := Nat.mul_le_mul_right g.blockSize (Nat.succ_le_of_lt hij)
    rw [Nat.succ_mul] at hle
    omega
  · exact (hne rfl).elim
  · have hle := Nat.mul_le_mul_right g.blockSize (Nat.succ_le_of_lt hji)
    rw [Nat.succ_mul] at hle
    omega

namespace Group.Valid

variable {g : Group} {i b : Nat}

variable (hv : g.Valid)
include hv

theorem blockSize_pos : 0 < g.blockSize := by
  unfold Group.blockSize
  split
  · rename_i n hkind
    have hn := hv.pages n hkind
    rw [PGSIZE_eq, sizeofArena]
    omega
  · rename_i d desc hkind
    exact (desc_fits (hv.desc d desc hkind)).1

theorem blockCnt_pos : 0 < g.blockCnt := by
  unfold Group.blockCnt
  split
  · exact Nat.one_pos
  · rename_i d desc hkind
    exact (desc_fits (hv.desc d desc hkind)).2.1

theorem pageCnt_pos : 0 < g.pageCnt := by
  unfold Group.pageCnt
  split
  · rename_i n hkind
    exact hv.pages n hkind
  · exact Nat.one_pos

theorem block_bounds (hi : i < g.blockCnt) :
    sizeofArena + i * g.blockSize < 4096 ∧
      sizeofArena + i * g.blockSize + g.blockSize ≤ g.pageCnt * 4096 := by
  have hpos := hv.blockSize_pos
  cases hkind : g.kind with
  | big n =>
    have hn := hv.pages n hkind
    simp only [Group.blockCnt, Group.blockSize, Group.pageCnt, hkind, PGSIZE_eq, sizeofArena] at *
    rw [Nat.lt_one_iff.mp hi]
    omega
  | arena d desc =>
    obtain ⟨-, -, hfits⟩ := desc_fits (hv.desc d desc hkind)
    simp only [Group.blockCnt, Group.blockSize, Group.pageCnt, hkind] at *
    have hle : i * desc.blockSize + desc.blockSize ≤ desc.blocksPerArena * desc.blockSize := by
      rw [← Nat.succ_mul]
      exact Nat.mul_le_mul_right _ hi
    omega

theorem pgOfs_blockAt (hi : i < g.blockCnt) :
    pgOfs (g.blockAt i) = sizeofArena + i * g.blockSize := by
  have hbound := (hv.block_bounds hi).1
  have haligned := hv.aligned
  rw [pgOfs_eq, Group.blockAt]
  omega

theorem pgRoundDown_blockAt (hi : i < g.blockCnt) :
    pgRoundDown (g.blockAt i) = g.start := by
  have hbound := (hv.block_bounds hi).1
  have haligned := hv.aligned
  rw [pgRoundDown_eq, Group.blockAt]
  omega

theorem pgRoundDown_block (hb : b ∈ g.blocks) : pgRoundDown b = g.start := by
  obtain ⟨i, hi, rfl⟩ := mem_map.mp hb
  exact hv.pgRoundDown_blockAt (mem_range.mp hi)

theorem nodup_blocks : g.blocks.Nodup := by
  refine nodup_range.map fun i j hij => ?_
  refine Nat.eq_of_mul_eq_mul_right hv.blockSize_pos ?_
  unfold Group.blockAt at hij
  omega

theorem block_inside (hb : b ∈ g.blocks) :
    Span.Inside ⟨b, g.blockSize⟩ g.span ∧ Span.Disjoint ⟨b, g.blockSize⟩ g.headerSpan := by
  obtain ⟨i, hi, rfl⟩ := mem_map.mp hb
  have hbound := (hv.block_bounds (mem_range.mp hi)).2
  simp only [Span.Inside, Span.Disjoint, Group.span, Group.headerSpan, Group.blockAt, PGSIZE_eq]
  omega

theorem header_inside : g.headerSpan.Inside g.span := by
  have hpos := hv.pageCnt_pos
  simp only [Span.Inside, Group.headerSpan, Group.span, PGSIZE_eq, sizeofArena]
  omega

/-- **`block_to_arena`** finds the header of the group. -/
theorem blockToArena {h : Heap} {n : Nat} (hh : h.header g.start = g.header n) (hb : b ∈ g.blocks) :
    blockToArena h b = some g.start := by
  obtain ⟨i, hi, rfl⟩ := mem_map.mp hb
  rw [mem_range] at hi
  have hbound := (hv.block_bounds hi).1
  unfold Malloc.blockToArena
  simp only [hv.pgRoundDown_blockAt hi, hv.pgOfs_blockAt hi, hh]
  cases hkind : g.kind with
  | big n =>
    simp only [Group.header, Group.blockCnt, hkind] at hi ⊢
    rw [Nat.lt_one_iff.mp hi]
    simp [hv.notNull]
  | arena d desc =>
    have hmod : (sizeofArena + i * g.blockSize + 2 ^ 32 - sizeofArena) % 2 ^ 32 = i * g.blockSize := by
      omega
    simp only [Group.header, hkind, hv.desc d desc hkind, hmod]
    simp [hv.notNull, Group.blockSize, hkind]

/-- **`arena_to_block`**, for an arena. -/
theorem arenaToBlock {h : Heap} {n d : Nat} {desc : Desc} (hkind : g.kind = .arena d desc)
    (hh : h.header g.start = g.header n) (hi : i < g.blockCnt) :
    arenaToBlock h g.start i = some (g.blockAt i) := by
  unfold Malloc.arenaToBlock
  simp only [Group.blockCnt, hkind] at hi
  simp [hh, Group.header, hkind, hv.desc d desc hkind, hv.notNull, hi, Group.blockAt, Group.blockSize]

end Group.Valid

/-! ## The invariant -/

structure Block where
  addr : Nat
  size : Nat
deriving DecidableEq

def freeCount (freeLists : List (List Nat)) (g : Group) : Nat :=
  freeLists.flatten.countP (pgRoundDown · = g.start)

/-- The blocks of all groups are those that are allocated and those on the free lists. -/
abbrev Parts (groups : List Group) (blocks : List Block) (freeLists : List (List Nat)) : Prop :=
  Shared Group.blocks pgRoundDown Group.start groups (blocks.map Block.addr) freeLists.flatten

/-- Every block on a free list is one of an arena of that descriptor. -/
def Owned (groups : List Group) (freeLists : List (List Nat)) : Prop :=
  ∀ d l, freeLists[d]? = some l → ∀ b ∈ l, ∃ g ∈ groups, ∃ desc, g.kind = .arena d desc ∧ b ∈ g.blocks

/-- **The invariant.** -/
structure Sound (h : Heap) (blocks : List Block) (groups : List Group) : Prop where
  held : h.held.Perm (groups.map Group.span)
  valid : ∀ g ∈ groups, g.Valid
  disjoint : groups.Pairwise fun g g' => g.span.Disjoint g'.span
  lists : h.freeLists.length = descs.length
  parts : Parts groups blocks h.freeLists
  owned : Owned groups h.freeLists
  headers : ∀ g ∈ groups, h.header g.start = g.header (freeCount h.freeLists g)
  sizes : ∀ b ∈ blocks, ∀ g ∈ groups, b.addr ∈ g.blocks → b.size ≤ g.blockSize

section
variable {h : Heap} {blocks : List Block} {groups : List Group} {g g' : Group} {b d : Nat}
  {l : List Nat}

variable {desc : Desc} {fl : List (List Nat)} {blocks' : List Block} {size n : Nat}

theorem Sound.freeList (hs : Sound h blocks groups) (hd : descs[d]? = some desc) :
    ∃ l, h.freeLists[d]? = some l := by
  refine ⟨_, List.getElem?_eq_getElem ?_⟩
  rw [hs.lists]
  exact (List.getElem?_eq_some_iff.mp hd).1

theorem Sound.disjoint_of_ne (hs : Sound h blocks groups) (hg : g ∈ groups) (hg' : g' ∈ groups)
    (hne : g ≠ g') : g.span.Disjoint g'.span := by
  have : Std.Symm fun g g' : Group => g.span.Disjoint g'.span := ⟨fun _ _ => Span.Disjoint.symm⟩
  exact hs.disjoint.forall hg hg' hne

theorem start_ne_of_disjoint (hv : g.Valid) (hv' : g'.Valid) (hdisj : g.span.Disjoint g'.span) :
    g.start ≠ g'.start := by
  have hpos := hv.pageCnt_pos
  have hpos' := hv'.pageCnt_pos
  simp only [Span.Disjoint, Group.span, PGSIZE_eq] at hdisj
  omega

section
variable (hs : Sound h blocks groups)
include hs

theorem Sound.start_ne (hg : g ∈ groups) (hg' : g' ∈ groups) (hne : g ≠ g') : g.start ≠ g'.start :=
  start_ne_of_disjoint (hs.valid g hg) (hs.valid g' hg') (hs.disjoint_of_ne hg hg' hne)

theorem Sound.nodup_groups : groups.Nodup :=
  hs.parts.keys.imp fun hne he => hne (congrArg Group.start he)

/-- A block of one group does not touch the header of any. -/
theorem Sound.block_header_disjoint (hg : g ∈ groups) (hb : b ∈ g.blocks) (hg' : g' ∈ groups) :
    Span.Disjoint ⟨b, g.blockSize⟩ g'.headerSpan := by
  obtain ⟨hinside, hdisj⟩ := (hs.valid g hg).block_inside hb
  by_cases heq : g = g'
  · exact heq ▸ hdisj
  · exact (hs.disjoint_of_ne hg hg' heq).mono hinside (hs.valid g' hg').header_inside

theorem Sound.blocks_disjoint {b' : Nat} (hg : g ∈ groups) (hb : b ∈ g.blocks) (hg' : g' ∈ groups)
    (hb' : b' ∈ g'.blocks) (hne : b ≠ b') :
    Span.Disjoint ⟨b, g.blockSize⟩ ⟨b', g'.blockSize⟩ := by
  by_cases heq : g = g'
  · subst heq
    exact Group.blocks_disjoint hb hb' hne
  · exact (hs.disjoint_of_ne hg hg' heq).mono ((hs.valid g hg).block_inside hb).1
      ((hs.valid g' hg').block_inside hb').1

theorem Sound.mem_list (hg : g ∈ groups) (hkind : g.kind = .arena d desc)
    (hl : h.freeLists[d]? = some l) (hb : b ∈ g.blocks) (hfree : b ∈ h.freeLists.flatten) :
    b ∈ l := by
  obtain ⟨l', hl', hmem⟩ := mem_flatten.mp hfree
  obtain ⟨d', hd'⟩ := mem_iff_getElem?.mp hl'
  obtain ⟨g', hg', desc', hkind', hb'⟩ := hs.owned d' l' hd' b hmem
  cases hs.parts.group_unique hg hg' hb hb'
  cases hkind.symm.trans hkind'
  cases hl.symm.trans hd'
  exact hmem

theorem Sound.freeCount_le (hg : g ∈ groups) :
    freeCount h.freeLists g ≤ g.blockCnt := by
  have hle := (hs.parts.filter_subset hg).length_le
  rw [← countP_eq_length_filter, Group.length_blocks] at hle
  exact hle

theorem Sound.fill {s : Span} (hdisj : ∀ g ∈ groups, s.Disjoint g.headerSpan) :
    Sound (h.fill s) blocks groups :=
  { hs with
    headers := fun g hg => (if_pos (hdisj g hg).symm).trans (hs.headers g hg) }

end

theorem Owned.set (ho : Owned groups fl) {l' : List Nat}
    (hl' : ∀ b ∈ l', ∃ g ∈ groups, ∃ desc, g.kind = .arena d desc ∧ b ∈ g.blocks) :
    Owned groups (fl.set d l') := by
  intro d' l hl
  by_cases hd : d = d'
  · subst hd
    rw [List.getElem?_set_self'] at hl
    obtain ⟨l0, -, rfl⟩ := Option.map_eq_some_iff.mp hl
    exact hl'
  · rw [List.getElem?_set_ne hd] at hl
    exact ho d' l hl

theorem freeCount_cons {fl' : List (List Nat)} (hfree : fl.flatten.Perm (b :: fl'.flatten))
    (g : Group) : freeCount fl g = freeCount fl' g + if pgRoundDown b = g.start then 1 else 0 := by
  unfold freeCount
  rw [hfree.countP_eq, countP_cons]
  simp only [decide_eq_true_eq]

section
variable (hs : Sound h blocks groups)
include hs

theorem Sound.recount (hg : g ∈ groups) (hkind : g.kind = .arena d desc)
    (hlen : fl.length = h.freeLists.length) (hparts : Parts groups blocks' fl)
    (howned : Owned groups fl)
    (hsizes : ∀ b ∈ blocks', ∀ g ∈ groups, b.addr ∈ g.blocks → b.size ≤ g.blockSize)
    (hcount : ∀ g' ∈ groups, g.start ≠ g'.start → freeCount fl g' = freeCount h.freeLists g') :
    Sound ({ h with freeLists := fl }.setHeader g.start
      { h.header g.start with freeCnt := freeCount fl g }) blocks' groups where
  __ := hs
  lists := hlen.trans hs.lists
  parts := hparts
  owned := howned
  headers g' hg' := by
    show update h.header g.start _ g'.start = g'.header (freeCount fl g')
    by_cases heq : g = g'
    · subst heq
      rw [update_self, hs.headers g hg, Group.header_arena hkind, Group.header_arena hkind]
    · have hne := hs.start_ne hg hg' heq
      rw [update_of_ne hne.symm, hs.headers g' hg', hcount g' hg' hne]
  sizes := hsizes

/-- **`block_size`** of a block of a group. -/
theorem Sound.blockSize_eq (hg : g ∈ groups) (hb : b ∈ g.blocks) :
    blockSize h b = some g.blockSize := by
  have hv := hs.valid g hg
  unfold blockSize
  rw [hv.blockToArena (hs.headers g hg) hb]
  simp only [some_bind, hs.headers g hg]
  cases hkind : g.kind with
  | big n =>
    obtain ⟨i, hi, rfl⟩ := mem_map.mp hb
    rw [mem_range] at hi
    rw [Group.header_big hkind, hv.pgOfs_blockAt hi]
    simp only [Group.blockCnt, hkind] at hi
    simp only [Group.blockSize, hkind, Nat.lt_one_iff.mp hi, Nat.zero_mul, Nat.add_zero]
    rw [Nat.mul_comm]
  | arena d desc =>
    simp only [Group.header_arena hkind, hv.desc d desc hkind, some_bind, Group.blockSize, hkind]

/-! ## malloc -/

theorem takeBlock_spec (hd : descs[d]? = some desc) (hl : h.freeLists[d]? = some (b :: l))
    (hsize : size ≤ desc.blockSize) :
    ∃ h', takeBlock h d = some (some b, h') ∧ Sound h' (⟨b, size⟩ :: blocks) groups ∧
      blockSize h' b = some desc.blockSize ∧
      ∀ g ∈ groups, freeCount h.freeLists g < g.blockCnt ∨ b ∈ g.blocks →
        freeCount h'.freeLists g < g.blockCnt := by
  obtain ⟨g, hg, desc', hkind, hb⟩ := hs.owned d _ hl b mem_cons_self
  have hv := hs.valid g hg
  cases hd.symm.trans (hv.desc d desc' hkind)
  obtain ⟨rest, hflat, hset⟩ := flatten_focus hl
  have hfree : h.freeLists.flatten.Perm (b :: (h.freeLists.set d l).flatten) :=
    hflat.trans ((hset l).symm.cons b)
  have hcount := freeCount_cons hfree
  have hround := hv.pgRoundDown_block hb
  have hparts : Parts groups (⟨b, size⟩ :: blocks) (h.freeLists.set d l) := hs.parts.take hfree
  have harena : blockToArena (h.setFreeList d l) b = some g.start :=
    hv.blockToArena (hs.headers g hg) hb
  have hown : ∀ b ∈ l, ∃ g ∈ groups, ∃ desc, g.kind = .arena d desc ∧ b ∈ g.blocks :=
    fun b hb => hs.owned d _ hl b (mem_cons_of_mem _ hb)
  have hsizes : ∀ c ∈ (⟨b, size⟩ :: blocks : List Block), ∀ g' ∈ groups, c.addr ∈ g'.blocks →
      c.size ≤ g'.blockSize := by
    refine forall_mem_cons.mpr ⟨fun g' hg' hb' => ?_, hs.sizes⟩
    cases hs.parts.group_unique hg hg' hb hb'
    rw [Group.blockSize, hkind]
    exact hsize
  have hsound := hs.recount hg hkind (length_set ..) hparts (hs.owned.set hown) hsizes
    fun g' _ hne => by rw [hcount g', if_neg (hround ▸ hne), Nat.add_zero]
  have hdec : (h.header g.start).freeCnt - 1 = freeCount (h.freeLists.set d l) g := by
    rw [hs.headers g hg, Group.header_arena hkind, hcount g, if_pos hround]
    rfl
  rw [← hdec] at hsound
  have hsize' : g.blockSize = desc.blockSize := by rw [Group.blockSize, hkind]
  refine ⟨_, ?_, hsound, hsize' ▸ hsound.blockSize_eq hg hb, fun g' hg' hfull => ?_⟩
  · simp only [takeBlock, hl, some_bind, harena]
    rfl
  · show freeCount (h.freeLists.set d l) g' < g'.blockCnt
    rcases hfull with hlt | hb'
    · have hle := hcount g'
      omega
    · rw [← Group.length_blocks]
      exact hparts.count_lt hg' hb' mem_cons_self

/-- What the page allocator may give: pages that it has not given already. -/
structure Given (held : List Span) (a pageCnt : Nat) : Prop where
  aligned : a % 4096 = 0
  notNull : a ≠ 0
  disjoint : ∀ s ∈ held, Span.Disjoint ⟨a, pageCnt * PGSIZE⟩ s

omit hs in
/-- The blocks of another group are not counted. -/
theorem freeCount_append {fl' : List (List Nat)} (hv : g.Valid)
    (hfree : fl.flatten.Perm (g.blocks ++ fl'.flatten)) (hne : g.start ≠ g'.start) :
    freeCount fl g' = freeCount fl' g' := by
  unfold freeCount
  rw [hfree.countP_eq, countP_append, countP_eq_zero.mpr, Nat.zero_add]
  intro b hb
  rw [hv.pgRoundDown_block hb]
  simpa using hne

theorem Sound.add (hv : g.Valid) (hdisj : ∀ g' ∈ groups, g.span.Disjoint g'.span)
    (hlen : fl.length = h.freeLists.length) (hparts : Parts (g :: groups) blocks' fl)
    (howned : Owned (g :: groups) fl)
    (hsizes : ∀ b ∈ blocks', ∀ g' ∈ g :: groups, b.addr ∈ g'.blocks → b.size ≤ g'.blockSize)
    (hcount : ∀ g' ∈ groups, freeCount fl g' = freeCount h.freeLists g')
    (hn : g.header n = g.header (freeCount fl g)) :
    Sound { (h.pallocGet g.start g.pageCnt).setHeader g.start (g.header n) with freeLists := fl }
      blocks' (g :: groups) where
  held := hs.held.cons g.span
  valid := forall_mem_cons.mpr ⟨hv, hs.valid⟩
  disjoint := pairwise_cons.mpr ⟨hdisj, hs.disjoint⟩
  lists := hlen.trans hs.lists
  parts := hparts
  owned := howned
  headers := by
    refine forall_mem_cons.mpr ⟨(update_self ..).trans hn, fun g' hg' => ?_⟩
    have hne := start_ne_of_disjoint hv (hs.valid g' hg') (hdisj g' hg')
    show update h.header g.start _ g'.start = g'.header (freeCount fl g')
    rw [update_of_ne hne.symm, hs.headers g' hg', hcount g' hg']
  sizes := hsizes

omit hs in
theorem Heap.setFreeList_self (hl : h.freeLists[d]? = some l) : h.setFreeList d l = h := by
  obtain ⟨hd, rfl⟩ := List.getElem?_eq_some_iff.mp hl
  rw [Heap.setFreeList, List.set_getElem_self]

omit hs in
theorem pushBlock_loop (hv : g.Valid) (hkind : g.kind = .arena d desc)
    (hh : h.header g.start = g.header n) (hl : h.freeLists[d]? = some l) {is : List Nat}
    (his : ∀ i ∈ is, i < g.blockCnt) :
    is.foldlM (pushBlock d g.start) h = some (h.setFreeList d (l ++ is.map g.blockAt)) := by
  induction is generalizing h l with
  | nil =>
    rw [List.map_nil, List.append_nil, Heap.setFreeList_self hl]
    rfl
  | cons i is ih =>
    obtain ⟨hi, his⟩ := List.forall_mem_cons.mp his
    have hl' : (h.setFreeList d (l ++ [g.blockAt i])).freeLists[d]? = some (l ++ [g.blockAt i]) :=
      List.getElem?_set_self (List.getElem?_eq_some_iff.mp hl).1
    have hpush : pushBlock d g.start h i = some (h.setFreeList d (l ++ [g.blockAt i])) := by
      simp only [pushBlock, hv.arenaToBlock hkind hh hi, hl, some_bind]
    rw [List.foldlM_cons, hpush, some_bind, ih (h := h.setFreeList _ _) hh hl' his]
    simp only [Heap.setFreeList, List.set_set, List.append_assoc, List.singleton_append, List.map_cons]

omit hs in
theorem Given.valid (ha : Given h.held g.start g.pageCnt) (hkind : g.kind = .arena d desc)
    (hd : descs[d]? = some desc) : g.Valid where
  __ := ha
  pages n hn := by cases hkind.symm.trans hn
  desc d' desc' hd' := by
    cases hkind.symm.trans hd'
    exact hd

omit hs in
theorem Given.disjoint_groups (ha : Given h.held g.start g.pageCnt) (hs : Sound h blocks groups) :
    ∀ g' ∈ groups, g.span.Disjoint g'.span :=
  fun g' hg' => ha.disjoint g'.span (hs.held.mem_iff.mpr (mem_map_of_mem hg'))

theorem Sound.parts_add (hv : g.Valid) (hdisj : ∀ g' ∈ groups, g.span.Disjoint g'.span) :
    Shared Group.blocks pgRoundDown Group.start (g :: groups) (blocks.map Block.addr)
      (g.blocks ++ h.freeLists.flatten) :=
  hs.parts.add hv.nodup_blocks (fun _ => hv.pgRoundDown_block) fun g' hg' =>
    start_ne_of_disjoint hv (hs.valid g' hg') (hdisj g' hg')

/-- **A new arena**, all of whose blocks are free. -/
theorem newArena_spec (hkind : g.kind = .arena d desc) (hd : descs[d]? = some desc)
    (hl : h.freeLists[d]? = some []) (ha : Given h.held g.start g.pageCnt) :
    ∃ h', newArena h d desc g.start = some h' ∧ h'.freeLists[d]? = some g.blocks ∧
      Sound h' blocks (g :: groups) ∧
      ∀ g' ∈ groups, freeCount h'.freeLists g' = freeCount h.freeLists g' := by
  have hv := ha.valid hkind hd
  have hdisj := ha.disjoint_groups hs
  have hpages : g.pageCnt = 1 := by rw [Group.pageCnt, hkind]
  have hcnt : g.blockCnt = desc.blocksPerArena := by rw [Group.blockCnt, hkind]
  obtain ⟨rest, hflat, hset⟩ := flatten_focus hl
  have hfree : (h.freeLists.set d g.blocks).flatten.Perm (g.blocks ++ h.freeLists.flatten) :=
    (hset g.blocks).trans (hflat.symm.append_left g.blocks)
  have hparts : Parts (g :: groups) blocks (h.freeLists.set d g.blocks) :=
    (hs.parts_add hv hdisj).perm_free hfree.symm
  -- all blocks of the arena are counted, and there are no more of them
  have hcount : freeCount (h.freeLists.set d g.blocks) g = g.blockCnt := by
    have hle := (hparts.filter_subset List.mem_cons_self).length_le
    have hall : g.blocks.countP (pgRoundDown · = g.start) = g.blockCnt := by
      rw [← Group.length_blocks, List.countP_eq_length]
      exact fun b hb => decide_eq_true (hv.pgRoundDown_block hb)
    rw [← List.countP_eq_length_filter, Group.length_blocks, hfree.countP_eq, List.countP_append,
      hall] at hle
    rw [freeCount, hfree.countP_eq, List.countP_append, hall]
    omega
  have hothers : ∀ g' ∈ groups, freeCount (h.freeLists.set d g.blocks) g' = freeCount h.freeLists g' :=
    fun g' hg' => freeCount_append hv hfree (start_ne_of_disjoint hv (hs.valid g' hg') (hdisj g' hg'))
  have howned : Owned (g :: groups) (h.freeLists.set d g.blocks) := by
    refine Owned.set (fun d' l' hl' b hb => ?_) fun b hb => ⟨g, List.mem_cons_self, desc, hkind, hb⟩
    obtain ⟨g', hg', hb'⟩ := hs.owned d' l' hl' b hb
    exact ⟨g', List.mem_cons_of_mem g hg', hb'⟩
  have hsizes : ∀ b ∈ blocks, ∀ g' ∈ g :: groups, b.addr ∈ g'.blocks → b.size ≤ g'.blockSize := by
    intro b hb
    refine List.forall_mem_cons.mpr ⟨fun hmem => ?_, hs.sizes b hb⟩
    -- an allocated block is not one of the new ones
    have hfree' := List.mem_append_left h.freeLists.flatten hmem
    exact absurd hfree' ((hs.parts_add hv hdisj).not_free_of_out (List.mem_map_of_mem hb))
  have hsound := hs.add hv hdisj (List.length_set ..) hparts howned hsizes hothers
    (congrArg g.header hcount.symm)
  refine ⟨_, ?_, ?_, hsound, hothers⟩
  · rw [newArena, ← Group.header_arena hkind, ← hpages, ← hcnt]
    exact pushBlock_loop (h := (h.pallocGet _ _).setHeader _ _) (l := []) hv hkind
      (update_self ..) hl fun i => List.mem_range.mp
  · exact List.getElem?_set_self (List.getElem?_eq_some_iff.mp hl).1

theorem bigBlock_spec {pageCnt : Nat} (hkind : g.kind = .big pageCnt) (hpages : 0 < pageCnt)
    (ha : Given h.held g.start g.pageCnt) (hsize : size ≤ g.blockSize) :
    Sound ((h.pallocGet g.start pageCnt).setHeader g.start ⟨ARENA_MAGIC, none, pageCnt⟩)
      (⟨g.start + sizeofArena, size⟩ :: blocks) (g :: groups) := by
  have hv : g.Valid := by
    refine ⟨ha.aligned, ha.notNull, fun n hn => ?_, fun d desc hd => ?_⟩
    · cases hkind.symm.trans hn
      exact hpages
    · cases hkind.symm.trans hd
  have hdisj := ha.disjoint_groups hs
  have hblocks : g.blocks = [g.start + sizeofArena] := by
    simp [Group.blocks, Group.blockCnt, Group.blockAt, hkind]
  have hparts : Parts (g :: groups) (⟨g.start + sizeofArena, size⟩ :: blocks) h.freeLists := by
    refine (hs.parts_add hv hdisj).take ?_
    rw [hblocks]
    exact List.Perm.refl _
  have howned : Owned (g :: groups) h.freeLists := by
    intro d l hl b hb
    obtain ⟨g', hg', hb'⟩ := hs.owned d l hl b hb
    exact ⟨g', mem_cons_of_mem g hg', hb'⟩
  have hmem : g.start + sizeofArena ∈ g.blocks := hblocks ▸ mem_singleton_self _
  have hsizes : ∀ b ∈ (⟨g.start + sizeofArena, size⟩ :: blocks : List Block), ∀ g' ∈ g :: groups,
      b.addr ∈ g'.blocks → b.size ≤ g'.blockSize := by
    refine forall_mem_cons.mpr ⟨fun g' hg' hb' => ?_, fun b hb => ?_⟩
    · cases hparts.group_unique mem_cons_self hg' hmem hb'
      exact hsize
    · refine forall_mem_cons.mpr ⟨fun hb' => ?_, hs.sizes b hb⟩
      have hfree := mem_append_left h.freeLists.flatten hb'
      exact absurd hfree ((hs.parts_add hv hdisj).not_free_of_out (mem_map_of_mem hb))
  have hsound := hs.add (n := 0) hv hdisj rfl hparts howned hsizes (fun _ _ => rfl)
    (by rw [Group.header_big hkind, Group.header_big hkind])
  rw [Group.header_big hkind, show g.pageCnt = pageCnt by rw [Group.pageCnt, hkind]] at hsound
  exact hsound

omit hs in
/-- A big block has room for a request that is not too big for 32 bits. -/
theorem bigPageCnt_spec (hpos : 0 < size) (hmax : size ≤ 2 ^ 31) :
    0 < bigPageCnt size ∧ size ≤ bigPageCnt size * PGSIZE - sizeofArena := by
  unfold bigPageCnt
  rw [PGSIZE_eq, sizeofArena]
  omega

/-- Not all blocks of a group are free. -/
def NoneFull (h : Heap) (groups : List Group) : Prop :=
  ∀ g ∈ groups, freeCount h.freeLists g < g.blockCnt

/-- **`malloc`** fails for want of pages, or allocates a block. -/
theorem malloc_spec (hfull : NoneFull h groups) {answer : Option Nat} (hpos : 0 < size)
    (hmax : size ≤ 2 ^ 31) (hgiven : ∀ a ∈ answer, ∀ n ∈ pagesAsked h size, Given h.held a n) :
    malloc h size answer = some (none, h) ∨
      ∃ p h' groups', malloc h size answer = some (some p, h') ∧
        Sound h' (⟨p, size⟩ :: blocks) groups' ∧ NoneFull h' groups' ∧
        ∃ n, blockSize h' p = some n ∧ n < 2 ^ 32 := by
  unfold malloc
  unfold pagesAsked at hgiven
  rw [if_neg (Nat.ne_of_gt hpos)]
  cases hfind : findDesc size with
  | none =>
    simp only [hfind] at hgiven ⊢
    cases answer with
    | none => exact .inl rfl
    | some a =>
      obtain ⟨hpages, hsize⟩ := bigPageCnt_spec hpos hmax
      have hsound := bigBlock_spec (g := ⟨a, .big (bigPageCnt size)⟩) hs rfl hpages
        (hgiven a rfl _ rfl) hsize
      have hmem : a + sizeofArena ∈ Group.blocks ⟨a, .big (bigPageCnt size)⟩ := by
        simp [Group.blocks, Group.blockCnt, Group.blockAt]
      refine .inr ⟨_, _, _, rfl, hsound, forall_mem_cons.mpr ⟨?_, hfull⟩, _,
        hsound.blockSize_eq mem_cons_self hmem, ?_⟩
      · rw [← Group.length_blocks]
        exact hsound.parts.count_lt mem_cons_self hmem mem_cons_self
      · simp only [Group.blockSize, bigPageCnt, PGSIZE_eq, sizeofArena]
        omega
  | some d =>
    simp only [hfind] at hgiven ⊢
    obtain ⟨hlt, hsize, -⟩ := findIdx?_eq_some_iff_getElem.mp hfind
    have hd := getElem?_eq_getElem hlt
    have hsize := of_decide_eq_true hsize
    obtain ⟨l, hl⟩ := hs.freeList hd
    have hfits := desc_fits hd
    have hsmall : descs[d].blockSize < 2 ^ 32 := by
      have := Nat.le_mul_of_pos_left descs[d].blockSize hfits.2.1
      omega
    simp only [hd, hl, some_bind] at hgiven ⊢
    cases l with
    | nil =>
      simp only [if_true] at hgiven ⊢
      cases answer with
      | none => exact .inl rfl
      | some a =>
        obtain ⟨h', hnew, hl', hs', hothers⟩ := newArena_spec (g := ⟨a, .arena d _⟩) hs rfl hd hl
          (hgiven a rfl 1 rfl)
        have hcnt := (hs'.valid _ mem_cons_self).blockCnt_pos
        rw [← Group.length_blocks] at hcnt
        obtain ⟨b, l, hbl⟩ := exists_cons_of_length_pos hcnt
        obtain ⟨h'', htake, hs'', hsz, hfull'⟩ := takeBlock_spec hs' hd (hl'.trans (congrArg some hbl)) hsize
        refine .inr ⟨b, h'', _, ?_, hs'', forall_mem_cons.mpr ⟨?_, fun g hg => ?_⟩, _, hsz, hsmall⟩
        · simp only [hnew, some_bind, htake]
        · exact hfull' _ mem_cons_self (.inr (hbl ▸ mem_cons_self))
        · refine hfull' g (mem_cons_of_mem _ hg) (.inl ?_)
          rw [hothers g hg]
          exact hfull g hg
    | cons b l =>
      obtain ⟨h', htake, hs', hsz, hfull'⟩ := takeBlock_spec hs hd hl hsize
      simp only [Option.some.injEq, reduceCtorEq, if_false, htake]
      exact .inr ⟨b, h', groups, rfl, hs', fun g hg => hfull' g hg (.inl (hfull g hg)), _, hsz, hsmall⟩

end

/-! ## free -/

theorem removeBlock_loop (hv : g.Valid) (hkind : g.kind = .arena d desc)
    (hh : h.header g.start = g.header n) (hl : h.freeLists[d]? = some l) {is : List Nat}
    (his : ∀ i ∈ is, i < g.blockCnt) (hnodup : (is.map g.blockAt).Nodup)
    (hmem : is.map g.blockAt ⊆ l) :
    ∃ l', is.foldlM (removeBlock d g.start) h = some (h.setFreeList d l') ∧
      l.Perm (is.map g.blockAt ++ l') := by
  induction is generalizing h l with
  | nil => exact ⟨l, congrArg some (Heap.setFreeList_self hl).symm, .refl _⟩
  | cons i is ih =>
    obtain ⟨hi, his⟩ := List.forall_mem_cons.mp his
    rw [List.map_cons] at hnodup hmem
    obtain ⟨hnotMem, hnodup⟩ := List.nodup_cons.mp hnodup
    obtain ⟨hb, hmem⟩ := List.cons_subset.mp hmem
    have hl' : (h.setFreeList d (l.erase (g.blockAt i))).freeLists[d]? = some (l.erase (g.blockAt i)) :=
      List.getElem?_set_self (List.getElem?_eq_some_iff.mp hl).1
    have hrest : is.map g.blockAt ⊆ l.erase (g.blockAt i) := by
      intro b hb'
      have hne : b ≠ g.blockAt i := fun he => hnotMem (he ▸ hb')
      exact (List.mem_erase_of_ne hne).mpr (hmem hb')
    obtain ⟨l', hloop, hperm⟩ := ih (h := h.setFreeList _ _) hh hl' his hnodup hrest
    refine ⟨l', ?_, (List.perm_cons_erase hb).trans (hperm.cons _)⟩
    have hremove : removeBlock d g.start h i = some (h.setFreeList d (l.erase (g.blockAt i))) := by
      simp only [removeBlock, hv.arenaToBlock hkind hh hi, hl, some_bind,
        if_pos hb]
    rw [List.foldlM_cons, hremove, some_bind, hloop]
    simp only [Heap.setFreeList, List.set_set]

section
variable (hs : Sound h blocks groups)
include hs

theorem Sound.release (hg : g ∈ groups) (hlen : fl.length = h.freeLists.length)
    (hparts : Parts (groups.erase g) blocks' fl) (howned : Owned (groups.erase g) fl)
    (hsub : blocks' ⊆ blocks)
    (hcount : ∀ g' ∈ groups, g.start ≠ g'.start → freeCount fl g' = freeCount h.freeLists g') :
    ∃ h', ({ h with freeLists := fl }).pallocFree g.start g.pageCnt = some h' ∧ h'.freeLists = fl ∧
      Sound h' blocks' (groups.erase g) := by
  have hheld : h.held.Perm (g.span :: (groups.erase g).map Group.span) :=
    hs.held.trans ((perm_cons_erase hg).map Group.span)
  have hmem : (⟨g.start, g.pageCnt * PGSIZE⟩ : Span) ∈ h.held := hheld.mem_iff.mpr mem_cons_self
  have hgroups : ∀ g' ∈ groups.erase g, g' ∈ groups := fun g' => mem_of_mem_erase
  have hne : ∀ g' ∈ groups.erase g, g ≠ g' := fun g' hg' =>
    (hs.nodup_groups.mem_erase_iff.mp hg').1.symm
  refine ⟨_, if_pos hmem, rfl, ?_⟩
  exact
    { held := by
        have herase := hheld.erase g.span
        rw [erase_cons_head] at herase
        exact herase
      valid := fun g' hg' => hs.valid g' (hgroups g' hg')
      disjoint := hs.disjoint.sublist erase_sublist
      lists := hlen.trans hs.lists
      parts := hparts
      owned := howned
      headers := fun g' hg' => by
        have hmem' := hgroups g' hg'
        have hdisj := hs.disjoint_of_ne hg hmem' (hne g' hg')
        have hheader : g'.headerSpan.Disjoint g.span :=
          hdisj.symm.mono (hs.valid g' hmem').header_inside ⟨Nat.le_refl _, Nat.le_refl _⟩
        refine (if_pos hheader).trans ?_
        show h.header g'.start = g'.header (freeCount fl g')
        rw [hs.headers g' hmem', hcount g' hmem' (hs.start_ne hg hmem' (hne g' hg'))]
      sizes := fun b hb g' hg' => hs.sizes b (hsub hb) g' (hgroups g' hg') }

theorem putBlock_spec {b : Block} (hg : g ∈ groups) (hkind : g.kind = .arena d desc)
    (hb : b ∈ blocks) (hbg : b.addr ∈ g.blocks) :
    ∃ h', putBlock h d g.start b.addr = some h' ∧ Sound h' (blocks.erase b) groups ∧
      ∀ g' ∈ groups, g.start ≠ g'.start → freeCount h'.freeLists g' = freeCount h.freeLists g' := by
  have hv := hs.valid g hg
  obtain ⟨l, hl⟩ := hs.freeList (hv.desc d desc hkind)
  have hfree : (h.freeLists.set d (b.addr :: l)).flatten.Perm (b.addr :: h.freeLists.flatten) :=
    flatten_set_cons hl
  have hcount := freeCount_cons hfree
  have hround := hv.pgRoundDown_block hbg
  have hothers : ∀ g' ∈ groups, g.start ≠ g'.start →
      freeCount (h.freeLists.set d (b.addr :: l)) g' = freeCount h.freeLists g' := fun g' _ hne => by
    rw [hcount g', if_neg (hround ▸ hne), Nat.add_zero]
  have hparts : Parts groups (blocks.erase b) (h.freeLists.set d (b.addr :: l)) :=
    (hs.parts.put ((perm_cons_erase hb).map Block.addr)).perm_free hfree.symm
  have hown : ∀ c ∈ b.addr :: l, ∃ g ∈ groups, ∃ desc, g.kind = .arena d desc ∧ c ∈ g.blocks :=
    forall_mem_cons.mpr ⟨⟨g, hg, desc, hkind, hbg⟩, hs.owned d l hl⟩
  have hsound := hs.recount hg hkind (length_set ..) hparts (hs.owned.set hown)
    (fun c hc => hs.sizes c (mem_of_mem_erase hc)) hothers
  have hinc : (h.header g.start).freeCnt + 1 = freeCount (h.freeLists.set d (b.addr :: l)) g := by
    rw [hs.headers g hg, Group.header_arena hkind, hcount g, if_pos hround]
  rw [← hinc] at hsound
  refine ⟨_, ?_, hsound, hothers⟩
  simp only [putBlock, hl, some_bind]
  rfl

theorem freeArena_spec (hg : g ∈ groups) (hkind : g.kind = .arena d desc)
    (hcount : freeCount h.freeLists g = g.blockCnt) :
    ∃ h', freeArena h d desc g.start = some h' ∧ Sound h' blocks (groups.erase g) ∧
      ∀ g' ∈ groups, g.start ≠ g'.start → freeCount h'.freeLists g' = freeCount h.freeLists g' := by
  have hv := hs.valid g hg
  have hcnt : g.blockCnt = desc.blocksPerArena := by rw [Group.blockCnt, hkind]
  have hpages : g.pageCnt = 1 := by rw [Group.pageCnt, hkind]
  obtain ⟨l, hl⟩ := hs.freeList (hv.desc d desc hkind)
  have hall : g.blocks ⊆ l := fun b hb => hs.mem_list hg hkind hl hb
    (hs.parts.pieces_subset hg (hcount.trans g.length_blocks.symm) hb)
  obtain ⟨l', hloop, hperm⟩ := removeBlock_loop hv hkind (hs.headers g hg) hl
    (fun i => mem_range.mp) hv.nodup_blocks hall
  obtain ⟨rest, hflat, hset⟩ := flatten_focus hl
  have hfree : h.freeLists.flatten.Perm (g.blocks ++ (h.freeLists.set d l').flatten) := by
    refine (hflat.trans (hperm.append_right rest)).trans ?_
    rw [append_assoc]
    exact (hset l').symm.append_left g.blocks
  have hothers : ∀ g' ∈ groups, g.start ≠ g'.start →
      freeCount (h.freeLists.set d l') g' = freeCount h.freeLists g' := fun g' _ hne =>
    (freeCount_append hv hfree hne).symm
  have hparts : Parts (groups.erase g) blocks (h.freeLists.set d l') :=
    hs.parts.drop (perm_cons_erase hg) hfree
  -- what is left on the lists is in no block of the arena
  have howned : Owned (groups.erase g) (h.freeLists.set d l') := by
    intro d' l'' hl'' b hb
    have hmem : b ∈ (h.freeLists.set d l').flatten :=
      mem_flatten.mpr ⟨l'', mem_of_getElem? hl'', hb⟩
    have howned' : Owned groups (h.freeLists.set d l') := hs.owned.set fun b hb =>
      hs.owned d l hl b (hperm.mem_iff.mpr (mem_append_right _ hb))
    obtain ⟨g', hg', desc', hkind', hb'⟩ := howned' d' l'' hl'' b hb
    obtain ⟨g'', hg'', hb''⟩ := hparts.exists_group (mem_append_right _ hmem)
    cases hs.parts.group_unique hg' (mem_of_mem_erase hg'') hb' hb''
    exact ⟨g', hg'', desc', hkind', hb'⟩
  obtain ⟨h', hrelease, hlists, hs'⟩ := hs.release hg (length_set ..) hparts howned
    (List.Subset.refl blocks) hothers
  refine ⟨h', ?_, hs', fun g' hg' hne => ?_⟩
  · rw [freeArena, ← hcnt, hloop, ← hpages]
    exact hrelease
  · rw [hlists]
    exact hothers g' hg' hne

/-- **`free`** of an allocated block. -/
theorem free_spec (hfull : NoneFull h groups) {b : Block} (hb : b ∈ blocks) :
    ∃ h' groups', free h b.addr = some h' ∧ Sound h' (blocks.erase b) groups' ∧
      NoneFull h' groups' := by
  obtain ⟨g, hg, hbg⟩ := hs.parts.exists_group
    (mem_append_left _ (mem_map_of_mem (f := Block.addr) hb))
  have hv := hs.valid g hg
  have harena := hv.blockToArena (hs.headers g hg) hbg
  have hnull : b.addr ≠ 0 := by
    intro h0
    have hround := hv.pgRoundDown_block hbg
    rw [h0] at hround
    exact hv.notNull hround.symm
  have hothers : ∀ {g'}, g' ∈ groups.erase g → g' ∈ groups ∧ g.start ≠ g'.start := by
    intro g' hg'
    obtain ⟨hne, hmem⟩ := hs.nodup_groups.mem_erase_iff.mp hg'
    exact ⟨hmem, hs.start_ne hg hmem hne.symm⟩
  unfold free
  rw [if_neg hnull]
  simp only [harena, some_bind, hs.headers g hg]
  cases hkind : g.kind with
  | big n =>
    have hpages : g.pageCnt = n := by rw [Group.pageCnt, hkind]
    have hblocks : g.blocks = [b.addr] := by
      have hone : g.blocks = [g.blockAt 0] := by rw [Group.blocks, Group.blockCnt, hkind]; rfl
      rw [hone, mem_singleton] at hbg
      rw [hone, hbg]
    have hparts : Parts (groups.erase g) (blocks.erase b) h.freeLists := by
      refine (hs.parts.put ((perm_cons_erase hb).map Block.addr)).drop (perm_cons_erase hg) ?_
      rw [hblocks]
      exact List.Perm.refl _
    have howned : Owned (groups.erase g) h.freeLists := by
      intro d l hl c hc
      obtain ⟨g', hg', desc, hkind', hc'⟩ := hs.owned d l hl c hc
      have hne : g' ≠ g := fun he => nomatch (he ▸ hkind').symm.trans hkind
      exact ⟨g', (mem_erase_of_ne hne).mpr hg', desc, hkind', hc'⟩
    obtain ⟨h', hrelease, hlists, hs'⟩ := hs.release hg rfl hparts howned erase_subset
      fun _ _ _ => rfl
    refine ⟨h', _, ?_, hs', fun g' hg' => ?_⟩
    · simp only [Group.header_big hkind, ← hpages]
      exact hrelease
    · rw [hlists]
      exact hfull g' (hothers hg').1
  | arena d desc =>
    have hsize : g.blockSize = desc.blockSize := by rw [Group.blockSize, hkind]
    have hcnt : g.blockCnt = desc.blocksPerArena := by rw [Group.blockCnt, hkind]
    have hfill := hs.fill fun g' hg' => hs.block_header_disjoint hg hbg hg'
    obtain ⟨h1, hput, hs1, hcount1⟩ := putBlock_spec hfill hg hkind hb hbg
    rw [hsize] at hput
    have hheader : (h1.header g.start).freeCnt = freeCount h1.freeLists g := by
      rw [hs1.headers g hg, Group.header_arena hkind]
    simp only [Group.header_arena hkind, hv.desc d desc hkind, hput, some_bind, hheader, ← hcnt]
    split
    · rename_i hge
      have heq := Nat.le_antisymm (hs1.freeCount_le hg) hge
      obtain ⟨h2, hfree, hs2, hcount2⟩ := freeArena_spec hs1 hg hkind heq
      refine ⟨h2, _, ?_, hs2, fun g' hg' => ?_⟩
      · rw [if_pos heq, hfree]
      · obtain ⟨hmem, hne⟩ := hothers hg'
        rw [hcount2 g' hmem hne, hcount1 g' hmem hne]
        exact hfull g' hmem
    · rename_i hlt
      refine ⟨h1, groups, rfl, hs1, fun g' hg' => ?_⟩
      by_cases heq : g = g'
      · subst heq
        exact Nat.lt_of_not_le hlt
      · rw [hcount1 g' hg' (hs.start_ne hg hg' heq)]
        exact hfull g' hg'

end

/-! ## Sequences of calls -/

structure Mallocs where
  heap : Heap
  blocks : List Block

inductive Act where
  | malloc (size : Nat) (answer : Option Nat)
  | free (block : Block)

def Mallocs.step (s : Mallocs) : Act → Option Mallocs
  | .malloc size answer => do
    let (p, heap) ← malloc s.heap size answer
    match p with
    | none => some { s with heap }
    | some p => some ⟨heap, ⟨p, size⟩ :: s.blocks⟩
  | .free block => do
    let heap ← free s.heap block.addr
    some ⟨heap, s.blocks.erase block⟩

/-- The calls in question: requests for 1 to 2^31 bytes, with pages that are not in use, and
frees of allocated blocks. -/
def Mallocs.Admits (s : Mallocs) : Act → Prop
  | .malloc size answer => 0 < size ∧ size ≤ 2 ^ 31 ∧
      ∀ a ∈ answer, ∀ n ∈ pagesAsked s.heap size, Given s.heap.held a n
  | .free block => block ∈ s.blocks

def Mallocs.init (header : Nat → Arena) : Mallocs := ⟨⟨descs.map fun _ => [], header, []⟩, []⟩

def Heap.extent (h : Heap) (block : Nat) : Span := ⟨block, (blockSize h block).getD 0⟩

/-- What holds between calls. -/
structure HeapSound (s : Mallocs) : Prop where
  sizes : ∀ b ∈ s.blocks, ∃ n, blockSize s.heap b.addr = some n ∧ b.size ≤ n
  disjoint : s.blocks.Pairwise fun b c => (s.heap.extent b.addr).Disjoint (s.heap.extent c.addr)
  headers : ∀ b ∈ s.blocks, ∀ pages ∈ s.heap.held,
    (s.heap.extent b.addr).Disjoint ⟨pages.start, sizeofArena⟩
  counts : ∀ pages ∈ s.heap.held, ∀ d, (s.heap.header pages.start).desc = some d →
    ∃ desc l, descs[d]? = some desc ∧ s.heap.freeLists[d]? = some l ∧
      (s.heap.header pages.start).freeCnt = l.countP (pgRoundDown · = pages.start) ∧
      (s.heap.header pages.start).freeCnt < desc.blocksPerArena
  freeBlocks : ∀ d l, s.heap.freeLists[d]? = some l → l.Nodup ∧ ∀ b ∈ l,
    b ∉ s.blocks.map Block.addr ∧
    ∃ pages ∈ s.heap.held, (s.heap.header pages.start).desc = some d ∧
      ∃ i, arenaToBlock s.heap pages.start i = some b
  asserts : ∀ a, s.Admits a → ∃ s', s.step a = some s'
  returned : s.blocks = [] → s.heap.held = []

/-- **The invariant** of sequences of calls. -/
def Inv (s : Mallocs) : Prop := ∃ groups, Sound s.heap s.blocks groups ∧ NoneFull s.heap groups

variable {s s' : Mallocs} {a : Act}

theorem inv_init (header : Nat → Arena) : Inv (.init header) := by
  have hempty : (descs.map fun _ => ([] : List Nat)).flatten = [] := by decide
  refine ⟨[], ⟨.nil, nofun, .nil, length_map _, ?_, fun d l hl b hb => ?_, nofun, nofun⟩, nofun⟩
  · show Shared _ _ _ [] [] (descs.map fun _ => ([] : List Nat)).flatten
    rw [hempty]
    exact Shared.nil
  · have hmem : b ∈ (descs.map fun _ => ([] : List Nat)).flatten :=
      mem_flatten.mpr ⟨l, mem_of_getElem? hl, hb⟩
    rw [hempty] at hmem
    exact absurd hmem not_mem_nil

/-- **One call** fails no assertion and keeps the invariant. -/
theorem Inv.step (h : Inv s) (hok : s.Admits a) : ∃ s', s.step a = some s' ∧ Inv s' := by
  obtain ⟨groups, hs, hfull⟩ := h
  cases a with
  | malloc size answer =>
    obtain ⟨hpos, hmax, hgiven⟩ := hok
    obtain hnull | ⟨p, h', groups', hmalloc, hs', hfull', -⟩ := malloc_spec hs hfull hpos hmax hgiven
    · refine ⟨s, ?_, groups, hs, hfull⟩
      simp only [Mallocs.step, hnull, some_bind]
    · refine ⟨⟨h', ⟨p, size⟩ :: s.blocks⟩, ?_, groups', hs', hfull'⟩
      simp only [Mallocs.step, hmalloc, some_bind]
  | free block =>
    obtain ⟨h', groups', hfree, hs', hfull'⟩ := free_spec hs hfull hok
    refine ⟨⟨h', s.blocks.erase block⟩, ?_, groups', hs', hfull'⟩
    simp only [Mallocs.step, hfree, some_bind]

section
variable (hs : Sound h blocks groups)
include hs

theorem Sound.extent_eq (hg : g ∈ groups) (hb : b ∈ g.blocks) :
    h.extent b = ⟨b, g.blockSize⟩ := by
  rw [Heap.extent, hs.blockSize_eq hg hb]
  rfl

theorem Sound.group_of_block {b : Block} (hb : b ∈ blocks) :
    ∃ g ∈ groups, b.addr ∈ g.blocks :=
  hs.parts.exists_group (mem_append_left _ (mem_map_of_mem hb))

theorem Sound.group_of_pages {pages : Span} (hp : pages ∈ h.held) :
    ∃ g ∈ groups, g.span = pages :=
  mem_map.mp (hs.held.mem_iff.mp hp)

theorem Sound.freeCount_eq (hg : g ∈ groups) (hkind : g.kind = .arena d desc)
    (hl : h.freeLists[d]? = some l) :
    freeCount h.freeLists g = l.countP (pgRoundDown · = g.start) := by
  obtain ⟨rest, hflat, -⟩ := flatten_focus hl
  have hnodup := hflat.nodup_iff.mp (nodup_append'.mp hs.parts.nodup_pieces).2.1
  have hrest : rest.countP (pgRoundDown · = g.start) = 0 := by
    rw [countP_eq_zero]
    intro b hb hround
    have hfree := hflat.mem_iff.mpr (mem_append_right l hb)
    have hbg := hs.parts.mem_pieces hg (mem_append_right _ hfree) (of_decide_eq_true hround)
    exact (nodup_append'.mp hnodup).2.2 (hs.mem_list hg hkind hl hbg hfree) hb
  rw [freeCount, hflat.countP_eq, countP_append, hrest, Nat.add_zero]

theorem Sound.disjoint_extents :
    blocks.Pairwise fun b c => (h.extent b.addr).Disjoint (h.extent c.addr) := by
  have hnodup := (nodup_append'.mp hs.parts.nodup_pieces).1
  refine (pairwise_map.mp hnodup).imp_of_mem fun {b c} hb hc hne => ?_
  obtain ⟨g, hg, hbg⟩ := hs.group_of_block hb
  obtain ⟨g', hg', hcg⟩ := hs.group_of_block hc
  rw [hs.extent_eq hg hbg, hs.extent_eq hg' hcg]
  exact hs.blocks_disjoint hg hbg hg' hcg hne

theorem Sound.count_arena (hfull : NoneFull h groups) {pages : Span} (hp : pages ∈ h.held)
    (hd : (h.header pages.start).desc = some d) :
    ∃ desc l, descs[d]? = some desc ∧ h.freeLists[d]? = some l ∧
      (h.header pages.start).freeCnt = l.countP (pgRoundDown · = pages.start) ∧
      (h.header pages.start).freeCnt < desc.blocksPerArena := by
  obtain ⟨g, hg, rfl⟩ := hs.group_of_pages hp
  replace hd : (h.header g.start).desc = some d := hd
  show ∃ desc l, _ ∧ _ ∧ (h.header g.start).freeCnt = _ ∧ (h.header g.start).freeCnt < _
  have hlt := hfull g hg
  rw [hs.headers g hg] at hd ⊢
  cases hkind : g.kind with
  | big n =>
    rw [Group.header_big hkind] at hd
    cases hd
  | arena d' desc =>
    rw [Group.header_arena hkind] at hd ⊢
    cases hd
    have hdesc := (hs.valid g hg).desc d desc hkind
    obtain ⟨l, hl⟩ := hs.freeList hdesc
    rw [Group.blockCnt, hkind] at hlt
    exact ⟨desc, l, hdesc, hl, hs.freeCount_eq hg hkind hl, hlt⟩

/-- A block on a free list is one of an arena of the descriptor, and not allocated. -/
theorem Sound.free_block (hl : h.freeLists[d]? = some l) (hb : b ∈ l) :
    b ∉ blocks.map Block.addr ∧ ∃ pages ∈ h.held, (h.header pages.start).desc = some d ∧
      ∃ i, arenaToBlock h pages.start i = some b := by
  have hfree : b ∈ h.freeLists.flatten := mem_flatten.mpr ⟨l, mem_of_getElem? hl, hb⟩
  obtain ⟨g, hg, desc, hkind, hbg⟩ := hs.owned d l hl b hb
  refine ⟨fun hout => hs.parts.not_free_of_out hout hfree, g.span,
    hs.held.mem_iff.mpr (mem_map_of_mem hg), ?_, ?_⟩
  · show (h.header g.start).desc = some d
    rw [hs.headers g hg, Group.header_arena hkind]
  · obtain ⟨i, hi, rfl⟩ := mem_map.mp hbg
    exact ⟨i, (hs.valid g hg).arenaToBlock hkind (hs.headers g hg) (mem_range.mp hi)⟩

end

/-- Nothing is allocated, so no page is held. -/
theorem Sound.nothing_held (hs : Sound h [] groups) (hfull : NoneFull h groups) : h.held = [] := by
  cases groups with
  | nil => exact hs.held.eq_nil
  | cons g groups =>
    have hcount := hs.parts.count_eq (g := g) mem_cons_self
    rw [Group.length_blocks] at hcount
    exact absurd hcount (Nat.ne_of_lt (hfull g mem_cons_self))

end

theorem Inv.heapSound {s : Mallocs} (h : Inv s) : HeapSound s := by
  obtain ⟨groups, hs, hfull⟩ := h
  exact
    { sizes := fun b hb => by
        obtain ⟨g, hg, hbg⟩ := hs.group_of_block hb
        exact ⟨g.blockSize, hs.blockSize_eq hg hbg, hs.sizes b hb g hg hbg⟩
      disjoint := hs.disjoint_extents
      headers := fun b hb pages hp => by
        obtain ⟨g, hg, hbg⟩ := hs.group_of_block hb
        obtain ⟨g', hg', rfl⟩ := hs.group_of_pages hp
        rw [hs.extent_eq hg hbg]
        exact hs.block_header_disjoint hg hbg hg'
      counts := fun pages hp d => hs.count_arena hfull hp
      freeBlocks := fun d l hl => by
        have hnodup := (nodup_append'.mp hs.parts.nodup_pieces).2.1
        exact ⟨(nodup_flatten.mp hnodup).1 l (mem_of_getElem? hl), fun b => hs.free_block hl⟩
      asserts := fun a hok => by
        obtain ⟨s', hstep, -⟩ := Inv.step ⟨groups, hs, hfull⟩ hok
        exact ⟨s', hstep⟩
      returned := fun hnone => by
        rw [hnone] at hs
        exact hs.nothing_held hfull }

theorem run_inv {header : Nat → Arena} {as : List Act} {s : Mallocs}
    (hrun : Run Mallocs.step Mallocs.Admits (.init header) as s) : Inv s := by
  refine Run.invariant (fun s a s' h hok hstep => ?_) hrun (inv_init header)
  obtain ⟨s1, hstep', h'⟩ := Inv.step h hok
  cases hstep.symm.trans hstep'
  exact h'

/-- **The kernel heap** after every sequence of calls. -/
theorem kernel_heap_sound {header : Nat → Arena} {as : List Act} {s : Mallocs}
    (hrun : Run Mallocs.step Mallocs.Admits (.init header) as s) : HeapSound s :=
  (run_inv hrun).heapSound

instance {held : List Span} {a pageCnt : Nat} : Decidable (Given held a pageCnt) :=
  decidable_of_iff (a % 4096 = 0 ∧ a ≠ 0 ∧ ∀ s ∈ held, Span.Disjoint ⟨a, pageCnt * PGSIZE⟩ s)
    ⟨fun ⟨ha, hn, hd⟩ => ⟨ha, hn, hd⟩, fun ⟨ha, hn, hd⟩ => ⟨ha, hn, hd⟩⟩

instance {s : Mallocs} {a : Act} : Decidable (s.Admits a) :=
  match a with
  | .malloc size answer => decidable_of_iff (0 < size ∧ size ≤ 2 ^ 31 ∧
      ∀ a ∈ answer.toList, ∀ n ∈ (pagesAsked s.heap size).toList, Given s.heap.held a n)
    (by simp only [Mallocs.Admits, Option.mem_toList, Option.mem_def])
  | .free block => inferInstanceAs (Decidable (block ∈ s.blocks))

/-- A small and a big block are allocated, and the small one is freed. -/
theorem kernel_heap_sound_two_blocks : ∃ s,
    Run Mallocs.step Mallocs.Admits (.init fun _ => ⟨0, none, 0⟩)
      [.malloc 100 (some 0x10000), .malloc 5000 (some 0x20000), .free ⟨0x1000c, 100⟩] s ∧
    HeapSound s ∧ s.blocks = [⟨0x2000c, 5000⟩] ∧ s.heap.held = [⟨0x20000, 8192⟩] := by
  exact Run.exists_guarded
    (fun s => s.blocks = [⟨0x2000c, 5000⟩] ∧ s.heap.held = [⟨0x20000, 8192⟩]) (by decide +kernel)
    fun s hrun hs => ⟨kernel_heap_sound hrun, hs⟩

end Pintos.Threads.Malloc
