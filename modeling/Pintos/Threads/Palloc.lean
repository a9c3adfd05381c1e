import Pintos.FileSys.Bitmap
import Pintos.Lib.Run
import Pintos.Lib.Spans

/-!
# The page allocator (`threads/palloc.c`)

Free memory is divided into a kernel pool and a user pool. Each begins with the bitmap of
its own pages, and the pages after the bitmap are handed out in groups.

Addresses are natural numbers. The loader counts no more than 64 MB of memory, and the
kernel maps memory from `PHYS_BASE` on, so every address and every size here is far below
2^32 and nothing wraps. Each call runs to completion, so the locks of the pools are left out.
-/

namespace Pintos.Threads

open Lib FileSys List

/-! ## threads/vaddr.h, lib/round.h -/

def PGBITS : Nat := 12
def PGSIZE : Nat := 1 <<< PGBITS
def PGMASK : Nat := (1 <<< PGBITS) - 1
def PHYS_BASE : Nat := 0xc0000000

def pgOfs (va : Nat) : Nat := va &&& PGMASK
def pgNo (va : Nat) : Nat := va >>> PGBITS
def pgRoundUp (va : Nat) : Nat := (va + PGSIZE - 1) / PGSIZE * PGSIZE

def divRoundUp (x step : Nat) : Nat := (x + step - 1) / step

theorem PGSIZE_eq : PGSIZE = 4096 := rfl

theorem pgOfs_eq (va : Nat) : pgOfs va = va % 4096 := Nat.and_two_pow_sub_one_eq_mod va 12

theorem pgNo_eq (va : Nat) : pgNo va = va / 4096 := Nat.shiftRight_eq_div_pow va 12

/-! ## The pools -/

inductive Panic where
  /-- `"Not enough memory in %s for bitmap."`, for the user pool or for the kernel pool -/
  | notEnoughMemory (user : Bool)
  /-- `"palloc_get: out of pages"` -/
  | outOfPages
  /-- `ASSERT ((void *) paddr < PHYS_BASE)` -/
  | notPhysical
  /-- `ASSERT (block_size >= bitmap_buf_size (bit_cnt))` -/
  | bufferTooSmall
  /-- the assertions of `bitmap.c` on the bounds of a group of bits -/
  | outOfBounds
  /-- `ASSERT (pg_ofs (pages) == 0)` -/
  | notAligned
  /-- `NOT_REACHED ()` -/
  | notReached
  /-- `ASSERT (bitmap_all (pool->used_map, page_idx, page_cnt))` -/
  | notAllUsed
deriving DecidableEq

/-- `used_map` is the address of the bitmap and `bits` are its bits. -/
structure Pool where
  usedMap : Nat
  bits : List Bool
  base : Nat

structure Palloc where
  mem : Nat → UInt8
  kernelPool : Pool
  userPool : Pool

def Palloc.pool (s : Palloc) (user : Bool) : Pool := if user then s.userPool else s.kernelPool

/-- The allocator with other bits for one of the pools, and other contents of memory. -/
def Palloc.setBits (s : Palloc) (user : Bool) (bits : List Bool) (mem : Nat → UInt8) : Palloc :=
  if user then ⟨mem, s.kernelPool, { s.userPool with bits }⟩
  else ⟨mem, { s.kernelPool with bits }, s.userPool⟩

def memset (mem : Nat → UInt8) (dst : Nat) (value : UInt8) (size : Nat) : Nat → UInt8 :=
  fun a => if dst ≤ a ∧ a < dst + size then value else mem a

/-! ## palloc_init -/

/-- `bitmap_buf_size`; a `struct bitmap` has 8 bytes. -/
def bitmapBufSize (bitCnt : Nat) : Nat := 8 + byteCnt bitCnt

def bitmapCreateInBuf (bitCnt block blockSize : Nat) : Except Panic (Nat × List Bool) :=
  if blockSize ≥ bitmapBufSize bitCnt then .ok (block, List.replicate bitCnt false)
  else .error .bufferTooSmall

def initPool (base pageCnt : Nat) (user : Bool) : Except Panic Pool := do
  let bmPages := divRoundUp (bitmapBufSize pageCnt) PGSIZE
  if bmPages > pageCnt then .error (.notEnoughMemory user)
  else do
    let pageCnt := pageCnt - bmPages
    let (usedMap, bits) ← bitmapCreateInBuf pageCnt base (bmPages * PGSIZE)
    .ok ⟨usedMap, bits, base + bmPages * PGSIZE⟩

/-- `ram_pages`, as the loader counts the pages of `kb` kB of memory. -/
def ramPages (kb : Nat) : Nat := (if kb ≤ 0x10000 then kb else 0x10000) >>> 2

def ptov (paddr : Nat) : Except Panic Nat :=
  if paddr < PHYS_BASE then .ok (paddr + PHYS_BASE) else .error .notPhysical

/-- A machine that the kernel runs on: the image of the kernel, up to `&_end`, is in its
memory. -/
structure Machine where
  kb : Nat
  kernelEnd : Nat
  userPageLimit : Nat
  linked : PHYS_BASE ≤ kernelEnd
  loaded : kernelEnd ≤ PHYS_BASE + ramPages kb * PGSIZE

def pallocInit (m : Machine) (mem : Nat → UInt8) : Except Panic Palloc := do
  let freeStart := pgRoundUp m.kernelEnd
  let freeEnd ← ptov (ramPages m.kb * PGSIZE)
  let freePages := (freeEnd - freeStart) / PGSIZE
  let userPages := if freePages / 2 > m.userPageLimit then m.userPageLimit else freePages / 2
  let kernelPages := freePages - userPages
  let kernelPool ← initPool freeStart kernelPages false
  let userPool ← initPool (freeStart + kernelPages * PGSIZE) userPages true
  .ok ⟨mem, kernelPool, userPool⟩

/-! ## palloc_get_multiple, palloc_free_multiple -/

structure PallocFlags where
  palAssert : Bool
  palZero : Bool
  palUser : Bool

def inBounds {β : Type} : Option β → Except Panic β
  | some b => .ok b
  | none => .error .outOfBounds

/-- `palloc_get_multiple`; a null pointer is `none`. -/
def pallocGetMultiple (flags : PallocFlags) (pageCnt : Nat) (s : Palloc) :
    Except Panic (Option Nat × Palloc) :=
  let pool := s.pool flags.palUser
  if pageCnt = 0 then .ok (none, s)
  else
    -- `bitmap_scan_and_flip`
    match bitmapScan pool.bits 0 pageCnt false with
    | some pageIdx => do
      let bits ← inBounds (bitmapSetMultiple pool.bits pageIdx pageCnt true)
      let pages := pool.base + PGSIZE * pageIdx
      let mem := if flags.palZero then memset s.mem pages 0 (PGSIZE * pageCnt) else s.mem
      .ok (some pages, s.setBits flags.palUser bits mem)
    | none => if flags.palAssert then .error .outOfPages else .ok (none, s)

def pageFromPool (pool : Pool) (page : Nat) : Bool :=
  let pageNo := pgNo page
  let startPage := pgNo pool.base
  let endPage := startPage + pool.bits.length
  pageNo ≥ startPage && pageNo < endPage

def poolOf (s : Palloc) (pages : Nat) : Except Panic Bool :=
  if pageFromPool s.kernelPool pages then .ok false
  else if pageFromPool s.userPool pages then .ok true
  else .error .notReached

def pallocFreeMultiple (pages pageCnt : Nat) (s : Palloc) : Except Panic Palloc :=
  if pgOfs pages ≠ 0 then .error .notAligned
  else if pages = 0 ∨ pageCnt = 0 then .ok s
  else do
    let user ← poolOf s pages
    let pool := s.pool user
    let pageIdx := pgNo pages - pgNo pool.base
    let mem := memset s.mem pages 0xcc (PGSIZE * pageCnt)
    let all ← inBounds (bitmapAll pool.bits pageIdx pageCnt)
    if all then do
      let bits ← inBounds (bitmapSetMultiple pool.bits pageIdx pageCnt false)
      .ok (s.setBits user bits mem)
    else .error .notAllUsed

/-! ## Requests and matching frees -/

/-- A group that is handed out: its pool, its address and its number of pages. -/
structure PageGroup where
  user : Bool
  pages : Nat
  cnt : Nat
deriving DecidableEq

/-- The allocator, and the groups currently handed out. -/
structure Pages where
  alloc : Palloc
  live : List PageGroup

inductive PallocAct where
  | get (flags : PallocFlags) (pageCnt : Nat)
  | free (g : PageGroup)

/-- A call; there is no state after a panic. A group that is handed out may be freed. -/
def Pages.step (h : Pages) : PallocAct → Option Pages
  | .get flags pageCnt => do
    let (pages, alloc) ← (pallocGetMultiple flags pageCnt h.alloc).toOption
    match pages with
    | none => some { h with alloc }
    | some pages => some ⟨alloc, ⟨flags.palUser, pages, pageCnt⟩ :: h.live⟩
  | .free g =>
    if g ∈ h.live then do
      let alloc ← (pallocFreeMultiple g.pages g.cnt h.alloc).toOption
      some ⟨alloc, h.live.erase g⟩
    else none

def PageGroup.span (g : PageGroup) : Span := ⟨g.pages, PGSIZE * g.cnt⟩

def Pool.span (p : Pool) : Span := ⟨p.base, PGSIZE * p.bits.length⟩

def Pool.mapSpan (p : Pool) : Span := ⟨p.usedMap, p.base - p.usedMap⟩

/-- From page `i` of a pool on, `cnt` pages are in no group that is handed out. -/
def Pages.FreeRun (h : Pages) (user : Bool) (i cnt : Nat) : Prop :=
  i + cnt ≤ (h.alloc.pool user).bits.length ∧
  ∀ j, j < cnt → ∀ g ∈ h.live, (h.alloc.pool user).base + PGSIZE * (i + j) ∉ g.span

/-! ## Where the pools are -/

/-- A bitmap has room in its pages, and the pages of a pool come after those of its bitmap. -/
structure Pool.Placed (p : Pool) : Prop where
  aligned : p.base % 4096 = 0
  room : p.usedMap + bitmapBufSize p.bits.length ≤ p.base

structure Arranged (s : Palloc) : Prop where
  placed : ∀ user, (s.pool user).Placed
  start : PHYS_BASE ≤ s.kernelPool.usedMap
  apart : s.kernelPool.base + PGSIZE * s.kernelPool.bits.length ≤ s.userPool.usedMap

section
variable {s s0 : Palloc} {m : Machine} {mem : Nat → UInt8} {p : Pool} {user : Bool}

theorem byteCnt_mono {a b : Nat} (h : a ≤ b) : byteCnt a ≤ byteCnt b := by
  unfold byteCnt
  omega

/-- **`init_pool`** takes the pages of the bitmap off the pool, and panics only if there are
not as many. -/
theorem initPool_spec {base pageCnt : Nat} (h : initPool base pageCnt user = .ok p)
    (hbase : base % 4096 = 0) :
    p.usedMap = base ∧ p.Placed ∧ p.base + PGSIZE * p.bits.length = base + PGSIZE * pageCnt ∧
      p.bits = List.replicate p.bits.length false := by
  unfold initPool at h
  simp only at h
  obtain ⟨bm, hbm⟩ : ∃ bm, divRoundUp (bitmapBufSize pageCnt) PGSIZE = bm := ⟨_, rfl⟩
  rw [hbm] at h
  -- the bitmap of the pages that are left is not larger than the one of all of them
  have hfits : bitmapBufSize (pageCnt - bm) ≤ bm * PGSIZE := by
    have hmono : byteCnt (pageCnt - bm) ≤ byteCnt pageCnt := byteCnt_mono (Nat.sub_le _ _)
    unfold divRoundUp bitmapBufSize at hbm
    unfold bitmapBufSize
    rw [PGSIZE_eq] at *
    omega
  split at h
  · cases h
  rename_i henough
  rw [bitmapCreateInBuf, if_pos hfits] at h
  cases h
  refine ⟨rfl, ⟨?_, ?_⟩, ?_, by rw [length_replicate]⟩
  · show (base + bm * PGSIZE) % 4096 = 0
    rw [PGSIZE_eq]
    omega
  · rw [length_replicate]
    exact Nat.add_le_add_left hfits base
  · show base + bm * PGSIZE + PGSIZE * (List.replicate (pageCnt - bm) false).length = _
    rw [length_replicate, PGSIZE_eq]
    omega

theorem ptov_ok {paddr v : Nat} (h : ptov paddr = .ok v) : v = paddr + PHYS_BASE := by
  unfold ptov at h
  split at h
  · exact (Except.ok.inj h).symm
  · cases h

/-- **`palloc_init`**: the pools lie one after the other in free memory, all pages free. -/
theorem pallocInit_spec (h : pallocInit m mem = .ok s) :
    Arranged s ∧ s.userPool.base + PGSIZE * s.userPool.bits.length ≤
        PHYS_BASE + ramPages m.kb * PGSIZE ∧
      ∀ user, (s.pool user).bits = List.replicate (s.pool user).bits.length false := by
  unfold pallocInit at h
  cases hptov : ptov (ramPages m.kb * PGSIZE) with
  | error e =>
    rw [hptov] at h
    cases h
  | ok freeEnd =>
    have hfreeEnd : freeEnd = ramPages m.kb * PGSIZE + PHYS_BASE := ptov_ok hptov
    obtain ⟨start, hstart⟩ : ∃ start, pgRoundUp m.kernelEnd = start := ⟨_, rfl⟩
    obtain ⟨free, hfree⟩ : ∃ free, (freeEnd - start) / PGSIZE = free := ⟨_, rfl⟩
    obtain ⟨userPages, huser⟩ : ∃ userPages,
        (if free / 2 > m.userPageLimit then m.userPageLimit else free / 2) = userPages := ⟨_, rfl⟩
    have hle : userPages ≤ free := by
      rw [← huser]
      split <;> omega
    have haligned : start % 4096 = 0 := by
      rw [← hstart, pgRoundUp, PGSIZE_eq]
      omega
    have hphysBase : PHYS_BASE ≤ start := by
      have := m.linked
      rw [← hstart, pgRoundUp, PGSIZE_eq]
      omega
    have hend : start + PGSIZE * free ≤ PHYS_BASE + ramPages m.kb * PGSIZE := by
      have := m.loaded
      have hpage : PHYS_BASE % 4096 = 0 := by decide
      rw [← hfree, ← hstart, pgRoundUp]
      rw [PGSIZE_eq] at *
      omega
    simp only [hptov, bind, Except.bind, hstart, hfree, huser] at h
    cases hk : initPool start (free - userPages) false with
    | error e =>
      rw [hk] at h
      cases h
    | ok kernelPool =>
      rw [hk] at h
      cases hu : initPool (start + (free - userPages) * PGSIZE) userPages true with
      | error e =>
        simp only [hu] at h
        cases h
      | ok userPool =>
        simp only [hu] at h
        cases h
        obtain ⟨hkmap, hkplaced, hkend, hkbits⟩ := initPool_spec hk haligned
        obtain ⟨humap, huplaced, huend, hubits⟩ := initPool_spec hu (by rw [PGSIZE_eq]; omega)
        refine ⟨⟨?_, hkmap ▸ hphysBase, ?_⟩, ?_, ?_⟩
        · exact Bool.rec hkplaced huplaced
        · show kernelPool.base + PGSIZE * kernelPool.bits.length ≤ userPool.usedMap
          refine Nat.le_of_eq ?_
          rw [hkend, humap, Nat.mul_comm PGSIZE]
        · show userPool.base + PGSIZE * userPool.bits.length ≤ _
          rw [PGSIZE_eq] at *
          omega
        · exact Bool.rec hkbits hubits

theorem Arranged.setBits (h : Arranged s) {bits : List Bool}
    (hlen : bits.length = (s.pool user).bits.length) (mem : Nat → UInt8) :
    Arranged (s.setBits user bits mem) := by
  have hkernel := h.placed false
  have huser := h.placed true
  refine ⟨fun user' => ?_, ?_, ?_⟩
  · cases user <;> cases user'
    · refine ⟨hkernel.aligned, ?_⟩
      show s.kernelPool.usedMap + bitmapBufSize bits.length ≤ s.kernelPool.base
      rw [hlen]
      exact hkernel.room
    · exact huser
    · exact hkernel
    · refine ⟨huser.aligned, ?_⟩
      show s.userPool.usedMap + bitmapBufSize bits.length ≤ s.userPool.base
      rw [hlen]
      exact huser.room
  · cases user <;> exact h.start
  · cases user
    · show s.kernelPool.base + PGSIZE * bits.length ≤ s.userPool.usedMap
      rw [hlen]
      exact h.apart
    · exact h.apart

/-! ## What the bits say -/

/-- The pages of a group, by their numbers in the pool: `page_idx` and those after it. -/
def Pool.index (p : Pool) (g : PageGroup) : Span := ⟨pgNo g.pages - pgNo p.base, g.cnt⟩

def Pages.groups (h : Pages) (user : Bool) : List PageGroup := h.live.filter (·.user = user)

/-- **The invariant.** The bits that are set in a bitmap are those of the groups from its pool. -/
structure Tracks (h : Pages) : Prop where
  arranged : Arranged h.alloc
  marks : ∀ user, Marks (h.alloc.pool user).bits
    ((h.groups user).map (h.alloc.pool user).index)
  address : ∀ g ∈ h.live, g.pages = (h.alloc.pool g.user).base +
    PGSIZE * ((h.alloc.pool g.user).index g).start

variable {h : Pages} {flags : PallocFlags} {cnt : Nat} {g : PageGroup}

/-- **`palloc_get_multiple`** fails if nothing is asked for or there is no group of clear bits,
and hands out the pages of such a group otherwise. -/
theorem pallocGetMultiple_spec (flags : PallocFlags) (cnt : Nat) (s : Palloc) :
    ((pallocGetMultiple flags cnt s = .ok (none, s) ∨
        pallocGetMultiple flags cnt s = .error .outOfPages) ∧
      (cnt = 0 ∨ ∀ i, ¬ Group (s.pool flags.palUser).bits i cnt false)) ∨
    ∃ idx bits mem, 0 < cnt ∧ Group (s.pool flags.palUser).bits idx cnt false ∧
      bits.length = (s.pool flags.palUser).bits.length ∧
      (∀ i, bits[i]? = if i ∈ (⟨idx, cnt⟩ : Span) then some true
        else (s.pool flags.palUser).bits[i]?) ∧
      pallocGetMultiple flags cnt s = .ok (some ((s.pool flags.palUser).base + PGSIZE * idx),
        s.setBits flags.palUser bits mem) := by
  unfold pallocGetMultiple
  simp only
  by_cases h0 : cnt = 0
  · rw [if_pos h0]
    exact .inl ⟨.inl rfl, .inl h0⟩
  rw [if_neg h0]
  cases hscan : bitmapScan (s.pool flags.palUser).bits 0 cnt false with
  | none =>
    refine .inl ⟨?_, .inr fun t => bitmapScan_none hscan t (Nat.zero_le t)⟩
    cases flags.palAssert with
    | true => exact .inr rfl
    | false => exact .inl rfl
  | some idx =>
    obtain ⟨-, hgroup, -⟩ := bitmapScan_some hscan
    obtain ⟨bits, hset, hlen, hbits⟩ := bitmapSetMultiple_spec true hgroup.1
    simp only [hset, inBounds]
    exact .inr ⟨idx, bits, _, by omega, hgroup, hlen, hbits, rfl⟩

theorem pgNo_add_pages (base idx : Nat) : pgNo (base + PGSIZE * idx) = pgNo base + idx := by
  rw [pgNo_eq, pgNo_eq, PGSIZE_eq]
  omega

theorem pool_setBits (s : Palloc) (user user' : Bool) (bits : List Bool) (mem : Nat → UInt8) :
    (s.setBits user bits mem).pool user' =
      if user' = user then { s.pool user' with bits } else s.pool user' := by
  cases user <;> cases user' <;> rfl

/-- The base of a pool does not change, so neither do the numbers of the pages of a group. -/
theorem index_setBits (s : Palloc) (user user' : Bool) (bits : List Bool) (mem : Nat → UInt8) :
    ((s.setBits user bits mem).pool user').index = (s.pool user').index := by
  rw [pool_setBits]
  split <;> rfl

theorem base_setBits (s : Palloc) (user user' : Bool) (bits : List Bool) (mem : Nat → UInt8) :
    ((s.setBits user bits mem).pool user').base = (s.pool user').base := by
  rw [pool_setBits]
  split <;> rfl

theorem bits_setBits (s : Palloc) (user user' : Bool) (bits : List Bool) (mem : Nat → UInt8) :
    ((s.setBits user bits mem).pool user').bits =
      if user' = user then bits else (s.pool user').bits := by
  rw [pool_setBits]
  split <;> rfl

theorem Tracks.hand_out (ht : Tracks h) {idx : Nat} {bits : List Bool}
    (hcnt : 0 < cnt) (hgroup : Group (h.alloc.pool user).bits idx cnt false)
    (hlen : bits.length = (h.alloc.pool user).bits.length)
    (hbits : ∀ i, bits[i]? = if i ∈ (⟨idx, cnt⟩ : Span) then some true
      else (h.alloc.pool user).bits[i]?) :
    Tracks ⟨h.alloc.setBits user bits mem, ⟨user, (h.alloc.pool user).base + PGSIZE * idx, cnt⟩ :: h.live⟩ := by
  have hindex : (h.alloc.pool user).index ⟨user, (h.alloc.pool user).base + PGSIZE * idx, cnt⟩ =
      ⟨idx, cnt⟩ := by
    rw [Pool.index, pgNo_add_pages]
    simp
  refine ⟨ht.arranged.setBits hlen mem, fun user' => ?_, fun g hg => ?_⟩
  · rw [index_setBits, bits_setBits, Pages.groups, filter_cons]
    by_cases hu : user' = user
    · subst hu
      rw [if_pos rfl, if_pos (by simp), map_cons, hindex]
      exact (ht.marks user').mark hlen hbits hcnt hgroup.1 fun i hi => hgroup.2 i hi.1 hi.2
    · rw [if_neg hu, if_neg (by simpa using Ne.symm hu)]
      exact ht.marks user'
  · rw [index_setBits, base_setBits]
    rcases mem_cons.mp hg with rfl | hg
    · rw [hindex]
    · exact ht.address g hg

section
variable (ht : Tracks h) (hg : g ∈ h.live)
include ht hg

theorem Tracks.index_inside :
    0 < g.cnt ∧
      ((h.alloc.pool g.user).index g).start + g.cnt ≤ (h.alloc.pool g.user).bits.length := by
  refine (ht.marks g.user).inside _ (mem_map_of_mem ?_)
  rw [Pages.groups, mem_filter]
  exact ⟨hg, decide_eq_true rfl⟩

theorem Tracks.poolOf_eq : poolOf h.alloc g.pages = .ok g.user := by
  obtain ⟨hcnt, hin⟩ := ht.index_inside hg
  have haddr := ht.address g hg
  obtain ⟨idx, hidx⟩ : ∃ idx, ((h.alloc.pool g.user).index g).start = idx := ⟨_, rfl⟩
  rw [hidx] at haddr hin
  have hfrom : pageFromPool (h.alloc.pool g.user) g.pages = true := by
    unfold pageFromPool
    rw [haddr, pgNo_add_pages, Bool.and_eq_true, decide_eq_true_eq, decide_eq_true_eq]
    omega
  unfold poolOf
  cases huser : g.user with
  | false =>
    rw [huser] at hfrom
    exact if_pos hfrom
  | true =>
    rw [huser] at hfrom haddr
    -- a page of the user pool lies beyond the kernel pool
    have hnot : pageFromPool h.alloc.kernelPool g.pages = false := by
      have hapart := ht.arranged.apart
      have hroom := (ht.arranged.placed true).room
      have haddr' : g.pages = h.alloc.userPool.base + PGSIZE * idx := haddr
      have hroom' : h.alloc.userPool.usedMap ≤ h.alloc.userPool.base :=
        Nat.le_trans (Nat.le_add_right _ _) hroom
      unfold pageFromPool
      rw [pgNo_eq, pgNo_eq, Bool.and_eq_false_iff, decide_eq_false_iff_not, decide_eq_false_iff_not]
      rw [PGSIZE_eq] at *
      omega
    rw [hnot, if_neg Bool.false_ne_true]
    exact if_pos hfrom

omit ht hg in
theorem groups_erase (hg : g ∈ h.live) (user : Bool) :
    (h.groups user).Perm (if g.user = user then g :: (h.live.erase g).filter (·.user = user)
      else (h.live.erase g).filter (·.user = user)) := by
  have hperm := (perm_cons_erase hg).filter fun x => decide (x.user = user)
  rw [filter_cons] at hperm
  unfold Pages.groups
  simpa only [decide_eq_true_eq] using hperm

/-- **`palloc_free_multiple`** of a group that is handed out takes it back. -/
theorem Tracks.take_back :
    ∃ alloc, pallocFreeMultiple g.pages g.cnt h.alloc = .ok alloc ∧
      Tracks ⟨alloc, h.live.erase g⟩ := by
  obtain ⟨hcnt, hin⟩ := ht.index_inside hg
  have haddr := ht.address g hg
  have hperm := groups_erase hg
  have hmarks := (ht.marks g.user).perm ((hperm g.user).map _)
  rw [if_pos rfl, map_cons] at hmarks
  have hgroup : Group (h.alloc.pool g.user).bits ((h.alloc.pool g.user).index g).start g.cnt true :=
    ⟨hin, fun i hlo hhi => (hmarks.marked i).mpr ⟨_, mem_cons_self, hlo, hhi⟩⟩
  obtain ⟨bits, hset, hlen, hbits⟩ := bitmapSetMultiple_spec false hgroup.1
  have halign : pgOfs g.pages = 0 := by
    have hbase := (ht.arranged.placed g.user).aligned
    rw [pgOfs_eq, haddr, PGSIZE_eq]
    omega
  have hnull : ¬ (g.pages = 0 ∨ g.cnt = 0) := by
    have hbase : 0 < (h.alloc.pool g.user).base := by
      have hroom := (ht.arranged.placed g.user).room
      unfold bitmapBufSize at hroom
      omega
    omega
  refine ⟨h.alloc.setBits g.user bits (memset h.alloc.mem g.pages 0xcc (PGSIZE * g.cnt)), ?_,
    ht.arranged.setBits hlen _, fun user => ?_, fun g' hg' => ?_⟩
  · have hindex : pgNo g.pages - pgNo (h.alloc.pool g.user).base =
        ((h.alloc.pool g.user).index g).start := rfl
    unfold pallocFreeMultiple
    rw [if_neg (not_not.mpr halign), if_neg hnull, ht.poolOf_eq hg]
    simp only [bind, Except.bind, hindex, bitmapAll_of_group hgroup, hset, inBounds, if_true]
  · rw [index_setBits, bits_setBits]
    show Marks _ (((h.live.erase g).filter (·.user = user)).map _)
    by_cases hu : user = g.user
    · subst hu
      rw [if_pos rfl]
      exact hmarks.clear hlen hbits
    · have hmarks' := (ht.marks user).perm ((hperm user).map _)
      rw [if_neg (Ne.symm hu)] at hmarks'
      rw [if_neg hu]
      exact hmarks'
  · rw [index_setBits, base_setBits]
    exact ht.address g' (mem_of_mem_erase hg')

omit ht hg in
/-- **One call** keeps the invariant. -/
theorem Tracks.step (ht : Tracks h) {a : PallocAct} {h' : Pages} (hs : h.step a = some h') :
    Tracks h' := by
  cases a with
  | get flags cnt =>
    rw [Pages.step] at hs
    obtain ⟨hfail | hfail, -⟩ | ⟨idx, bits, mem, hcnt, hgroup, hlen, hbits, hget⟩ :=
      pallocGetMultiple_spec flags cnt h.alloc
    · rw [hfail] at hs
      cases hs
      exact ht
    · rw [hfail] at hs
      cases hs
    · rw [hget] at hs
      cases hs
      exact ht.hand_out hcnt hgroup hlen hbits
  | free g =>
    rw [Pages.step] at hs
    split at hs
    · rename_i hg
      obtain ⟨alloc, hfree, ht'⟩ := ht.take_back hg
      rw [hfree] at hs
      cases hs
      exact ht'
    · cases hs

/-! ## Results -/

theorem Tracks.mem_span_iff (i : Nat) :
    (h.alloc.pool g.user).base + PGSIZE * i ∈ g.span ↔ i ∈ (h.alloc.pool g.user).index g := by
  have haddr := ht.address g hg
  have hlen : ((h.alloc.pool g.user).index g).len = g.cnt := rfl
  simp only [Span.mem_iff, PageGroup.span, haddr, PGSIZE_eq, hlen]
  omega

theorem Tracks.span_inside :
    (h.alloc.pool g.user).span.start ≤ g.span.start ∧ g.span.start + g.span.len ≤
      (h.alloc.pool g.user).span.start + (h.alloc.pool g.user).span.len := by
  obtain ⟨-, hin⟩ := ht.index_inside hg
  have haddr := ht.address g hg
  unfold PageGroup.span Pool.span
  simp only
  rw [PGSIZE_eq] at *
  omega

end

theorem Arranged.disjoint (h : Arranged s) :
    [s.kernelPool.mapSpan, s.kernelPool.span, s.userPool.mapSpan, s.userPool.span].Pairwise
      Span.Disjoint := by
  have hkernel := (h.placed false).room
  have huser := (h.placed true).room
  have hapart := h.apart
  simp only [Palloc.pool, Bool.false_eq_true, if_false, if_true] at hkernel huser
  unfold Pool.mapSpan Pool.span
  simp only [pairwise_cons, mem_cons, not_mem_nil, or_false, forall_eq_or_imp,
    forall_eq, false_imp_iff, implies_true, List.Pairwise.nil, and_true, Span.Disjoint]
  omega

theorem Arranged.pools_apart (h : Arranged s) :
    s.kernelPool.span.start + s.kernelPool.span.len ≤ s.userPool.span.start :=
  Nat.le_trans h.apart (Nat.le_trans (Nat.le_add_right _ _) (h.placed true).room)

/-- Groups of different pools are disjoint because the pools are. -/
theorem Tracks.disjoint (ht : Tracks h) :
    h.live.Pairwise fun a b => a.span.Disjoint b.span := by
  rw [pairwise_iff_forall_sublist]
  intro a b hab
  have ha : a ∈ h.live := hab.subset (by simp)
  have hb : b ∈ h.live := hab.subset (by simp)
  by_cases hu : a.user = b.user
  · have hsub := (hab.filter fun g => decide (g.user = b.user)).map (h.alloc.pool b.user).index
    have hindex : ((h.alloc.pool b.user).index a).Disjoint ((h.alloc.pool b.user).index b) := by
      simp only [filter_cons, hu, decide_true, if_true, filter_nil, map_cons,
        map_nil] at hsub
      exact pairwise_iff_forall_sublist.mp (ht.marks b.user).disjoint hsub
    have haddr := ht.address a ha
    have haddr' := ht.address b hb
    rw [hu] at haddr
    unfold Span.Disjoint PageGroup.span at *
    simp only [Pool.index, PGSIZE_eq] at *
    omega
  · have hina := ht.span_inside ha
    have hinb := ht.span_inside hb
    have hapart := ht.arranged.pools_apart
    unfold Span.Disjoint
    rcases hua : a.user <;> rcases hub : b.user <;> simp only [hua, hub] at hu hina hinb
    · exact absurd trivial hu
    · exact .inl (Nat.le_trans hina.2 (Nat.le_trans hapart hinb.1))
    · exact .inr (Nat.le_trans hinb.2 (Nat.le_trans hapart hina.1))
    · exact absurd trivial hu

/-- A request fails only if there is no run of pages that are free. -/
theorem Tracks.request_fails (ht : Tracks h) (hcnt : 0 < cnt)
    (hfail : ∀ pages s, pallocGetMultiple flags cnt h.alloc ≠ .ok (some pages, s)) (i : Nat) :
    ¬ h.FreeRun flags.palUser i cnt := by
  rintro ⟨hin, hfree⟩
  obtain ⟨-, hnone⟩ | ⟨idx, bits, mem, -, -, -, -, hget⟩ :=
    pallocGetMultiple_spec flags cnt h.alloc
  · refine hnone.resolve_left (by omega) i ⟨hin, fun k hlo hhi => ?_⟩
    rw [(ht.marks flags.palUser).clear_iff (by omega)]
    intro s hs hk
    obtain ⟨g, hg, rfl⟩ := mem_map.mp hs
    obtain ⟨hg, huser⟩ := mem_filter.mp hg
    rw [← of_decide_eq_true huser] at hk hfree
    refine hfree (k - i) (by omega) g hg ?_
    rw [show i + (k - i) = k by omega]
    exact (ht.mem_span_iff hg k).mpr hk
  · exact hfail _ _ hget

/-- The allocator is in order: the groups that are handed out are disjoint and in their pools,
the pools and their bitmaps are disjoint, a request for pages fails only if its pool has no run
of free pages of that length, and every matching free succeeds. -/
structure PagesInOrder (h : Pages) : Prop where
  disjoint : h.live.Pairwise fun a b => a.span.Disjoint b.span
  inside : ∀ g ∈ h.live, (h.alloc.pool g.user).span.start ≤ g.span.start ∧
    g.span.start + g.span.len ≤
      (h.alloc.pool g.user).span.start + (h.alloc.pool g.user).span.len
  pools : [h.alloc.kernelPool.mapSpan, h.alloc.kernelPool.span, h.alloc.userPool.mapSpan,
    h.alloc.userPool.span].Pairwise Span.Disjoint
  bitmaps : ∀ user, bitmapBufSize (h.alloc.pool user).bits.length ≤ (h.alloc.pool user).mapSpan.len
  fails : ∀ flags cnt, 0 < cnt →
    (∀ pages s, pallocGetMultiple flags cnt h.alloc ≠ .ok (some pages, s)) →
      ∀ i, ¬ h.FreeRun flags.palUser i cnt
  frees : ∀ g ∈ h.live, ∃ s, pallocFreeMultiple g.pages g.cnt h.alloc = .ok s

theorem Tracks.inOrder (ht : Tracks h) : PagesInOrder h where
  disjoint := ht.disjoint
  inside _ hg := ht.span_inside hg
  pools := ht.arranged.disjoint
  bitmaps user := by
    have hroom := (ht.arranged.placed user).room
    unfold Pool.mapSpan
    simp only
    omega
  fails _ _ hcnt hfail i := ht.request_fails hcnt hfail i
  frees _ hg := by
    obtain ⟨s, hfree, -⟩ := ht.take_back hg
    exact ⟨s, hfree⟩

theorem tracks_pallocInit (hinit : pallocInit m mem = .ok s) :
    Tracks ⟨s, []⟩ := by
  obtain ⟨harranged, -, hbits⟩ := pallocInit_spec hinit
  refine ⟨harranged, fun user => ?_, fun g hg => absurd hg not_mem_nil⟩
  show Marks (s.pool user).bits []
  rw [hbits user]
  exact marks_replicate _

/-- **The page allocator**, on every machine and with every limit for which `palloc_init` does
not panic, in every sequence of requests and matching frees. -/
theorem page_allocator_sound {m : Machine} {mem : Nat → UInt8} (hinit : pallocInit m mem = .ok s)
    {as : List PallocAct} (hrun : Run Pages.step (fun _ _ => True) ⟨s, []⟩ as h) :
    PagesInOrder h :=
  (hrun.invariant (fun _ _ _ ht _ hs => ht.step hs) (tracks_pallocInit hinit)).inOrder

/-- Eight pages of free memory behind a kernel of 1 MB. -/
def smallMachine : Machine := ⟨1056, 0xc0100000, 0xffffffff, by decide, by decide⟩

/-- Two pages from the kernel pool and one from the user pool; the two are freed. -/
theorem page_allocator_sound_two_groups :
    ∃ s h, pallocInit smallMachine (fun _ => 0) = .ok s ∧
      Run Pages.step (fun _ _ => True) ⟨s, []⟩ [.get ⟨false, true, false⟩ 2, .get ⟨true, false, true⟩ 1,
        .free ⟨false, 0xc0101000, 2⟩] h ∧
      h.live = [⟨true, 0xc0105000, 1⟩] ∧ PagesInOrder h := by
  obtain ⟨s, hs, h, hrun, hlive⟩ : ∃ s, (pallocInit smallMachine fun _ => 0).toOption = some s ∧
      ∃ h, Run Pages.step (fun _ _ => True) ⟨s, []⟩ [.get ⟨false, true, false⟩ 2, .get ⟨true, false, true⟩ 1,
        .free ⟨false, 0xc0101000, 2⟩] h ∧ h.live = [⟨true, 0xc0105000, 1⟩] := by
    decide +kernel
  have hinit : pallocInit smallMachine (fun _ => 0) = .ok s := by
    revert hs
    cases pallocInit smallMachine (fun _ => 0) with
    | error e => exact nofun
    | ok s' => exact fun hs => congrArg Except.ok (Option.some.inj hs)
  exact ⟨s, h, hinit, hrun, hlive, page_allocator_sound hinit hrun⟩

/-- A request for no pages fails, although every pool has a run of no pages. -/
theorem request_for_no_pages_fails :
    ∃ s, pallocInit smallMachine (fun _ => 0) = .ok s ∧
      pallocGetMultiple ⟨false, false, false⟩ 0 s = .ok (none, s) ∧
      (⟨s, []⟩ : Pages).FreeRun false 0 0 := by
  have hany : (pallocInit smallMachine fun _ => 0).toOption.isSome = true := by decide +kernel
  cases hinit : pallocInit smallMachine (fun _ => 0) with
  | error e =>
    rw [hinit] at hany
    cases hany
  | ok s => exact ⟨s, rfl, rfl, Nat.zero_le _, fun j hj => absurd hj (Nat.not_lt_zero j)⟩

end

end Pintos.Threads
