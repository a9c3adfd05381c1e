import Mathlib.Data.List.FinRange
import Pintos.Lib.Run
import Pintos.Lib.TwoLevel

/-!
# Page directories (`userprog/pagedir.c`, `threads/pte.h`)

A page directory is a page of 1024 words that refer to page tables, and a page table is a
page of 1024 words that refer to pages. Addresses and words have 32 bits. A `uint32_t *`
into a page is the page and the index of the word, and memory is what the words of the
pages are.

`none` is an assertion that fails. Switching directories and the TLB are left out.
-/

namespace Pintos.UserProg.Pagedir

open Lib Function List

abbrev Word := BitVec 32

/-! ## threads/vaddr.h -/

def PHYS_BASE : Word := 0xc0000000#32
def PGMASK : Word := 0xfff#32
def PGBITS : Nat := 12

def pgOfs (va : Word) : Word := va &&& PGMASK
def pgNo (va : Word) : Word := va >>> PGBITS

def isUserVaddr (vaddr : Word) : Bool := vaddr < PHYS_BASE
def isKernelVaddr (vaddr : Word) : Bool := vaddr ≥ PHYS_BASE

def ptov (paddr : Word) : Option Word := if paddr < PHYS_BASE then some (paddr + PHYS_BASE) else none
def vtop (vaddr : Word) : Option Word := if isKernelVaddr vaddr then some (vaddr - PHYS_BASE) else none

/-! ## threads/pte.h -/

def PTSHIFT : Nat := PGBITS
def PTBITS : Nat := 10
def PTMASK : Word := 0x3ff000#32
def PDSHIFT : Nat := PTSHIFT + PTBITS

abbrev Index := Fin 1024

def ptNo (va : Word) : Index :=
  ⟨((va &&& PTMASK) >>> PTSHIFT).toNat, by
    have hle : va.toNat &&& PTMASK.toNat ≤ PTMASK.toNat := Nat.and_le_right
    have hmask : PTMASK.toNat = 4190208 := rfl
    rw [BitVec.toNat_ushiftRight, BitVec.toNat_and, Nat.shiftRight_eq_div_pow,
      show 2 ^ PTSHIFT = 4096 from rfl]
    omega⟩

def pdNo (va : Word) : Index :=
  ⟨(va >>> PDSHIFT).toNat, by
    have hlt := va.isLt
    rw [BitVec.toNat_ushiftRight, Nat.shiftRight_eq_div_pow, show 2 ^ PDSHIFT = 4194304 from rfl]
    omega⟩

def PTE_FLAGS : Word := 0x00000fff#32
def PTE_ADDR : Word := 0xfffff000#32
def PTE_P : Word := 0x1#32
def PTE_W : Word := 0x2#32
def PTE_U : Word := 0x4#32
def PTE_A : Word := 0x20#32
def PTE_D : Word := 0x40#32

def pdeCreate (pt : Word) : Option Word :=
  if pgOfs pt = 0#32 then do
    let paddr ← vtop pt
    some (paddr ||| PTE_U ||| PTE_P ||| PTE_W)
  else none

def pdeGetPt (pde : Word) : Option Word :=
  if pde &&& PTE_P ≠ 0#32 then ptov (pde &&& PTE_ADDR) else none

def pteCreateKernel (page : Word) (writable : Bool) : Option Word :=
  if pgOfs page = 0#32 then do
    let paddr ← vtop page
    some (paddr ||| PTE_P ||| (if writable then PTE_W else 0#32))
  else none

def pteCreateUser (page : Word) (writable : Bool) : Option Word := do
  let pte ← pteCreateKernel page writable
  some (pte ||| PTE_U)

def pteGetPage (pte : Word) : Option Word := ptov (pte &&& PTE_ADDR)

/-! ## userprog/pagedir.c -/

abbrev Memory := Word → Index → Word

def pagedirCreate (basePageDir : Word) (mem : Memory) (page : Option Word) : Option Word × Memory :=
  match page with
  | none => (none, mem)
  | some pd => (some pd, update mem pd (mem basePageDir))

/-- `lookup_page`: the page table and the index of the entry, or a null pointer. `page` is what
`palloc_get_page (PAL_ZERO)` returns if it is called. -/
def lookupPage (mem : Memory) (pd vaddr : Word) (create : Bool) (page : Option Word) :
    Option (Option (Word × Index) × Memory) :=
  if pd = 0#32 ∨ (create ∧ ¬ isUserVaddr vaddr) then none
  else if mem pd (pdNo vaddr) = 0#32 then
    if create then
      match page with
      | none => some (none, mem)
      | some pt => do
        let pde ← pdeCreate pt
        let mem := setWord (fillPage mem pt 0#32) pd (pdNo vaddr) pde
        let pt ← pdeGetPt (mem pd (pdNo vaddr))
        some (some (pt, ptNo vaddr), mem)
    else some (none, mem)
  else do
    let pt ← pdeGetPt (mem pd (pdNo vaddr))
    some (some (pt, ptNo vaddr), mem)

structure Kernel where
  basePageDir : Word
  ramPages : Nat

def pagedirSetPage (k : Kernel) (mem : Memory) (pd upage kpage : Word) (writable : Bool)
    (page : Option Word) : Option (Bool × Memory) :=
  if pgOfs upage ≠ 0#32 ∨ pgOfs kpage ≠ 0#32 ∨ ¬ isUserVaddr upage then none
  else do
    let paddr ← vtop kpage
    if ¬ (paddr >>> PTSHIFT).toNat < k.ramPages ∨ pd = k.basePageDir then none
    else do
      let (pte, mem) ← lookupPage mem pd upage true page
      match pte with
      | none => some (false, mem)
      | some (pt, i) =>
        if mem pt i &&& PTE_P = 0#32 then do
          let entry ← pteCreateUser kpage writable
          some (true, setWord mem pt i entry)
        else none

def pagedirGetPage (mem : Memory) (pd uaddr : Word) : Option (Option Word) :=
  if isUserVaddr uaddr then do
    let (pte, mem) ← lookupPage mem pd uaddr false none
    match pte with
    | some (pt, i) =>
      if mem pt i &&& PTE_P ≠ 0#32 then do
        let page ← pteGetPage (mem pt i)
        some (some (page + pgOfs uaddr))
      else some none
    | none => some none
  else none

def pagedirClearPage (mem : Memory) (pd upage : Word) : Option Memory :=
  if pgOfs upage ≠ 0#32 ∨ ¬ isUserVaddr upage then none
  else do
    let (pte, mem) ← lookupPage mem pd upage false none
    match pte with
    | some (pt, i) =>
      if mem pt i &&& PTE_P ≠ 0#32 then some (setWord mem pt i (mem pt i &&& ~~~PTE_P))
      else some mem
    | none => some mem

/-- `pagedir_is_dirty` and `pagedir_is_accessed`, by the flag. -/
def isFlagged (flag : Word) (mem : Memory) (pd vpage : Word) : Option Bool := do
  let (pte, mem) ← lookupPage mem pd vpage false none
  match pte with
  | some (pt, i) => some (mem pt i &&& flag ≠ 0#32)
  | none => some false

/-- `pagedir_set_dirty` and `pagedir_set_accessed`, by the flag. -/
def setFlag (flag : Word) (mem : Memory) (pd vpage : Word) (value : Bool) : Option Memory := do
  let (pte, mem) ← lookupPage mem pd vpage false none
  match pte with
  | some (pt, i) =>
    if value then some (setWord mem pt i (mem pt i ||| flag))
    else some (setWord mem pt i (mem pt i &&& ~~~flag))
  | none => some mem

def pagedirIsDirty : Memory → Word → Word → Option Bool := isFlagged PTE_D
def pagedirSetDirty : Memory → Word → Word → Bool → Option Memory := setFlag PTE_D
def pagedirIsAccessed : Memory → Word → Word → Option Bool := isFlagged PTE_A
def pagedirSetAccessed : Memory → Word → Word → Bool → Option Memory := setFlag PTE_A

/-- `palloc_free_page`, which fills the page with `0xcc`, and the pages freed so far. -/
def freePage (s : Memory × List Word) (page : Word) : Memory × List Word :=
  (fillPage s.1 page 0xcccccccc#32, s.2 ++ [page])

/-- The inner loop of `pagedir_destroy`, for one entry. -/
def freeEntry (pt : Word) (s : Memory × List Word) (i : Index) : Option (Memory × List Word) :=
  if s.1 pt i &&& PTE_P ≠ 0#32 then do
    let page ← pteGetPage (s.1 pt i)
    some (freePage s page)
  else some s

/-- The outer loop of `pagedir_destroy`, for one entry. -/
def freeTable (pd : Word) (s : Memory × List Word) (i : Index) : Option (Memory × List Word) :=
  if s.1 pd i &&& PTE_P ≠ 0#32 then do
    let pt ← pdeGetPt (s.1 pd i)
    let s ← (List.finRange 1024).foldlM (freeEntry pt) s
    some (freePage s pt)
  else some s

/-- The entries of a directory for user addresses, below `pd + pd_no (PHYS_BASE)`. -/
def userIndices : List Index := (List.finRange 1024).filter (· < pdNo PHYS_BASE)

/-- `pagedir_destroy`, for a directory that is not null: the pages it frees. -/
def pagedirDestroy (k : Kernel) (mem : Memory) (pd : Word) : Option (List Word) :=
  if pd = k.basePageDir then none
  else do
    let s ← userIndices.foldlM (freeTable pd) (mem, [])
    some (freePage s pd).2

/-! ## threads/init.c -/

/-- A page table for `vaddr` in the loop of `paging_init`. The state is memory, `pt`, and the
pages that `palloc_get_page (PAL_ASSERT | PAL_ZERO)` still has to give. -/
def addTable (pd vaddr : Word) (s : Memory × Word × List Word) : Option (Memory × Word × List Word) :=
  if s.1 pd (pdNo vaddr) = 0#32 then
    match s.2.2 with
    | [] => none
    | pt :: pages => do
      let pde ← pdeCreate pt
      some (setWord (fillPage s.1 pt 0#32) pd (pdNo vaddr) pde, pt, pages)
  else some s

/-- The loop of `paging_init`, for one page of memory; `text` tells the kernel's text. -/
def mapRam (text : Word → Bool) (pd : Word) (s : Memory × Word × List Word) (page : Nat) :
    Option (Memory × Word × List Word) := do
  let vaddr ← ptov (BitVec.ofNat 32 (page * 4096))
  let (mem, pt, pages) ← addTable pd vaddr s
  let pte ← pteCreateKernel vaddr (!text vaddr)
  some (setWord mem pt (ptNo vaddr) pte, pt, pages)

def pagingInit (text : Word → Bool) (ramPages : Nat) (mem : Memory) (pages : List Word) :
    Option (Word × Memory) :=
  match pages with
  | [] => none
  | pd :: pages => do
    let s ← (List.range ramPages).foldlM (mapRam text pd) (fillPage mem pd 0#32, 0#32, pages)
    some (pd, s.1)

/-! ## Fields of an address -/

section
variable {va u v : Word}

theorem pdNo_val (va : Word) : (pdNo va).val = va.toNat / 4194304 := by
  show (va >>> PDSHIFT).toNat = _
  rw [BitVec.toNat_ushiftRight, Nat.shiftRight_eq_div_pow]
  rfl

theorem ptNo_val (va : Word) : (ptNo va).val = va.toNat / 4096 % 1024 := by
  show ((va &&& PTMASK) >>> PTSHIFT).toNat = _
  rw [BitVec.toNat_ushiftRight, BitVec.toNat_and, Nat.shiftRight_and_distrib,
    Nat.shiftRight_eq_div_pow]
  exact Nat.and_two_pow_sub_one_eq_mod (va.toNat / 4096) 10

theorem pgNo_toNat (va : Word) : (pgNo va).toNat = va.toNat / 4096 := by
  unfold pgNo
  rw [BitVec.toNat_ushiftRight, Nat.shiftRight_eq_div_pow]
  rfl

theorem pgNo_eq_iff : pgNo u = pgNo v ↔ pdNo u = pdNo v ∧ ptNo u = ptNo v := by
  rw [← BitVec.toNat_inj, pgNo_toNat, pgNo_toNat, Fin.ext_iff, Fin.ext_iff, pdNo_val, pdNo_val,
    ptNo_val, ptNo_val]
  omega

theorem isUserVaddr_iff : isUserVaddr va = true ↔ pdNo va < pdNo PHYS_BASE := by
  unfold isUserVaddr
  rw [decide_eq_true_eq, BitVec.lt_def, Fin.lt_def, pdNo_val, pdNo_val,
    show PHYS_BASE.toNat = 3221225472 from rfl]
  omega

/-! ## Fields of an entry -/

variable {f g page pte : Word}

theorem and_addr_of_flags (h : v &&& PTE_FLAGS = 0#32) : v &&& PTE_ADDR = v := by
  have hall : PTE_ADDR ||| PTE_FLAGS = BitVec.allOnes 32 := by decide
  calc v &&& PTE_ADDR = v &&& PTE_ADDR ||| v &&& PTE_FLAGS := by rw [h, BitVec.or_zero]
    _ = v &&& BitVec.allOnes 32 := by rw [← BitVec.and_or_distrib_left, hall]
    _ = v := BitVec.and_allOnes

theorem or_and_addr (h : v &&& PTE_FLAGS = 0#32) (hf : f &&& PTE_ADDR = 0#32) :
    (v ||| f) &&& PTE_ADDR = v := by
  rw [BitVec.and_or_distrib_right, hf, BitVec.or_zero, and_addr_of_flags h]

theorem or_and_flag (h : v &&& PTE_FLAGS = 0#32) (hg : PTE_FLAGS &&& g = g) :
    (v ||| f) &&& g = f &&& g := by
  have hv : v &&& g = 0#32 := by rw [← hg, ← BitVec.and_assoc, h, BitVec.zero_and]
  rw [BitVec.and_or_distrib_right, hv, BitVec.zero_or]

section
variable (halign : pgOfs page = 0#32) (hk : isKernelVaddr page = true)
include halign hk

theorem vtop_spec :
    ∃ paddr, vtop page = some paddr ∧ paddr &&& PTE_FLAGS = 0#32 ∧ ptov paddr = some page := by
  have hle : 3221225472 ≤ page.toNat := of_decide_eq_true hk
  have hlt := page.isLt
  have hsub : (page - PHYS_BASE).toNat = page.toNat - 3221225472 := by
    rw [BitVec.toNat_sub_of_le (of_decide_eq_true hk)]
    rfl
  refine ⟨page - PHYS_BASE, if_pos hk, ?_, ?_⟩
  · have hofs : page.toNat % 4096 = 0 := by
      have h := congrArg BitVec.toNat halign
      unfold pgOfs at h
      rw [BitVec.toNat_and] at h
      exact (Nat.and_two_pow_sub_one_eq_mod page.toNat 12).symm.trans h
    apply BitVec.eq_of_toNat_eq
    rw [BitVec.toNat_and, hsub]
    refine (Nat.and_two_pow_sub_one_eq_mod (page.toNat - 3221225472) 12).trans ?_
    show _ % 4096 = 0
    omega
  · have hphys : page - PHYS_BASE < PHYS_BASE := by
      rw [BitVec.lt_def, hsub]
      show _ < 3221225472
      omega
    rw [ptov, if_pos hphys, BitVec.sub_add_cancel]

/-- **`pde_create`** and `pde_get_pt`. -/
theorem pdeCreate_spec :
    ∃ pde, pdeCreate page = some pde ∧ pdeGetPt pde = some page ∧ pde ≠ 0#32 := by
  obtain ⟨paddr, hvtop, hflags, hptov⟩ := vtop_spec halign hk
  have hp : (paddr ||| (PTE_U ||| (PTE_P ||| PTE_W))) &&& PTE_P ≠ 0#32 := by
    rw [or_and_flag hflags (by decide)]
    decide
  refine ⟨paddr ||| (PTE_U ||| (PTE_P ||| PTE_W)), ?_, ?_, fun h0 => ?_⟩
  · rw [pdeCreate, if_pos halign, hvtop, ← BitVec.or_assoc, ← BitVec.or_assoc]
    rfl
  · rw [pdeGetPt, if_pos hp, or_and_addr hflags (by decide), hptov]
  · rw [h0] at hp
    exact hp (by decide)

/-- **`pte_create_user`**: a page that is present, and writable or not. -/
theorem pteCreateUser_spec (writable : Bool) :
    ∃ pte, pteCreateUser page writable = some pte ∧ pte &&& PTE_P ≠ 0#32 ∧
      pteGetPage pte = some page ∧ (pte &&& PTE_W ≠ 0#32 ↔ writable = true) := by
  obtain ⟨paddr, hvtop, hflags, hptov⟩ := vtop_spec halign hk
  refine ⟨paddr ||| (PTE_P ||| ((if writable then PTE_W else 0#32) ||| PTE_U)), ?_, ?_, ?_, ?_⟩
  · rw [pteCreateUser, pteCreateKernel, if_pos halign, hvtop, ← BitVec.or_assoc, ← BitVec.or_assoc]
    rfl
  · rw [or_and_flag hflags (by decide)]
    cases writable <;> decide
  · rw [pteGetPage, or_and_addr hflags (by cases writable <;> decide), hptov]
  · rw [or_and_flag hflags (by decide)]
    cases writable <;> decide

end

theorem or_flag_and (h : f &&& g = 0#32) : (pte ||| f) &&& g = pte &&& g := by
  rw [BitVec.and_or_distrib_right, h, BitVec.or_zero]

theorem andNot_of_clear (h : pte &&& f = 0#32) : pte &&& ~~~f = pte := by
  calc pte &&& ~~~f = pte &&& f ||| pte &&& ~~~f := by rw [h, BitVec.zero_or]
    _ = pte &&& BitVec.allOnes 32 := by rw [← BitVec.and_or_distrib_left, BitVec.or_not_self]
    _ = pte := BitVec.and_allOnes

theorem andNot_flag_and (h : ~~~f &&& g = g) : (pte &&& ~~~f) &&& g = pte &&& g := by
  rw [BitVec.and_assoc, h]

end

/-! ## Looking up an entry -/

abbrev Shape (mem : Memory) (pd : Word) (used : List Word) : Prop :=
  TwoLevel 0#32 pdeGetPt mem pd {p | p ∈ used}

abbrev table (mem : Memory) (pd : Word) (i : Index) : Option Word := tableAt 0#32 pdeGetPt mem pd i

def entry (mem : Memory) (pd va : Word) : Word :=
  entryAt 0#32 pdeGetPt mem pd (pdNo va) (ptNo va)

/-- A page that `palloc_get_page` may return: a page of the kernel that is not in use. -/
structure Fresh (used : List Word) (page : Word) : Prop where
  aligned : pgOfs page = 0#32
  kernel : isKernelVaddr page = true
  unused : page ∉ used

section
variable {mem : Memory} {pd va : Word} {used : List Word} {page : Option Word}

section
variable (h : Shape mem pd used) (hpd : pd ≠ 0#32)
include h hpd

/-- **`lookup_page`** without creating. -/
theorem lookupPage_spec (va : Word) :
    lookupPage mem pd va false none =
      some ((table mem pd (pdNo va)).map fun pt => (pt, ptNo va), mem) := by
  unfold lookupPage
  rw [if_neg (by simp [hpd])]
  unfold table tableAt
  split
  · rfl
  · rename_i hne
    obtain ⟨pt, hpt, -⟩ := h.table (pdNo va) hne
    rw [hpt]
    rfl

/-- **`lookup_page`** with creating fails for want of a page, or finds an entry; the entries are
what they were. -/
theorem lookupPage_create (hva : isUserVaddr va = true) (hpage : ∀ p ∈ page, Fresh used p) :
    page = none ∧ lookupPage mem pd va true page = some (none, mem) ∨
      ∃ mem' pt, lookupPage mem pd va true page = some (some (pt, ptNo va), mem') ∧
        Shape mem' pd (if mem pd (pdNo va) = 0#32 then page.toList ++ used else used) ∧
        table mem' pd (pdNo va) = some pt ∧
        ∀ u, entry mem' pd u = entry mem pd u := by
  unfold lookupPage
  rw [if_neg (by simp [hpd, hva])]
  by_cases h0 : mem pd (pdNo va) = 0#32
  · rw [if_pos h0, if_pos h0, if_pos rfl]
    cases page with
    | none => exact .inl ⟨rfl, rfl⟩
    | some p =>
      obtain ⟨haligned, hkernel, hunused⟩ := hpage p rfl
      obtain ⟨pde, hcreate, hget, hne⟩ := pdeCreate_spec haligned hkernel
      have hroot : p ≠ pd := fun he => hunused (he ▸ h.root_used)
      refine .inr ⟨setWord (fillPage mem p 0#32) pd (pdNo va) pde, p, ?_, ?_, ?_, fun u => ?_⟩
      · simp only [hcreate, some_bind, setWord_self, hget]
      · have hshape := h.create hunused hget hne (pdNo va)
        refine ⟨?_, fun i hi => ?_, hshape.distinct⟩
        · exact mem_cons_of_mem p h.root_used
        · obtain ⟨q, hq, hused, hqpd⟩ := hshape.table i hi
          exact ⟨q, hq, mem_cons.mpr hused, hqpd⟩
      · rw [table, tableAt_create hroot hget hne, if_pos rfl]
      · exact h.entry_create hunused hget hne h0 (pdNo u) (ptNo u)
  · obtain ⟨pt, hpt, -⟩ := h.table (pdNo va) h0
    rw [if_neg h0, if_neg h0, hpt]
    refine .inr ⟨mem, pt, rfl, h, ?_, fun u => rfl⟩
    rw [table, tableAt, if_neg h0, hpt]

omit h hpd in
/-- Writing the entry of an address changes that of its page only. -/
theorem entry_setWord (h : Shape mem pd used) {pt : Word} (hpt : table mem pd (pdNo va) = some pt)
    (w u : Word) :
    entry (setWord mem pt (ptNo va) w) pd u = if pgNo u = pgNo va then w else entry mem pd u := by
  unfold entry
  rw [h.entry_set hpt]
  simp only [pgNo_eq_iff]

omit h hpd in
theorem entry_of_table {pt : Word} (hpt : table mem pd (pdNo va) = some pt) :
    entry mem pd va = mem pt (ptNo va) := entryAt_of_table hpt _

omit h hpd in
theorem entry_of_none (hpt : table mem pd (pdNo va) = none) : entry mem pd va = 0#32 :=
  entryAt_of_none hpt _

omit h hpd in
theorem entry_congr {u v : Word} (h : pgNo u = pgNo v) : entry mem pd u = entry mem pd v := by
  unfold entry
  rw [(pgNo_eq_iff.mp h).1, (pgNo_eq_iff.mp h).2]

/-! ## The functions, by entries -/

theorem isFlagged_eq (flag va : Word) :
    isFlagged flag mem pd va = some (decide (entry mem pd va &&& flag ≠ 0#32)) := by
  unfold isFlagged
  rw [lookupPage_spec h hpd]
  cases hpt : table mem pd (pdNo va) with
  | none =>
    rw [entry_of_none hpt, BitVec.zero_and]
    rfl
  | some pt =>
    rw [entry_of_table hpt]
    rfl

theorem pagedirGetPage_eq (hva : isUserVaddr va = true) :
    pagedirGetPage mem pd va =
      if entry mem pd va &&& PTE_P ≠ 0#32 then
        (pteGetPage (entry mem pd va)).map fun page => some (page + pgOfs va)
      else some none := by
  unfold pagedirGetPage
  rw [if_pos hva, lookupPage_spec h hpd]
  cases hpt : table mem pd (pdNo va) with
  | none =>
    rw [entry_of_none hpt, if_neg (by decide)]
    rfl
  | some pt =>
    rw [entry_of_table hpt]
    simp only [Option.map_some, some_bind]
    split
    · cases pteGetPage (mem pt (ptNo va)) <;> rfl
    · rfl

def Writes (pd va : Word) (f : Word → Word) (mem mem' : Memory) : Prop :=
  ∀ u, entry mem' pd u = if pgNo u = pgNo va then f (entry mem pd u) else entry mem pd u

/-- **`pagedir_set_dirty`**, **`pagedir_set_accessed`**. -/
theorem setFlag_spec (flag va : Word) (value : Bool) :
    ∃ mem', setFlag flag mem pd va value = some mem' ∧ Shape mem' pd used ∧
      (mem' = mem ∧ table mem pd (pdNo va) = none ∨
        Writes pd va (fun w => if value then w ||| flag else w &&& ~~~flag) mem mem') := by
  unfold setFlag
  rw [lookupPage_spec h hpd]
  cases hpt : table mem pd (pdNo va) with
  | none => exact ⟨mem, rfl, h, .inl ⟨rfl, rfl⟩⟩
  | some pt =>
    have hroot := (h.tableAt_mem hpt).2
    have hwrites : ∀ w : Word → Word, Writes pd va w mem
        (setWord mem pt (ptNo va) (w (mem pt (ptNo va)))) := by
      intro w u
      rw [entry_setWord h hpt]
      split
      · rename_i hu
        rw [entry_congr hu, entry_of_table hpt]
      · rfl
    cases value with
    | true => exact ⟨_, rfl, h.set hroot _ _, .inr (hwrites fun w => w ||| flag)⟩
    | false => exact ⟨_, rfl, h.set hroot _ _, .inr (hwrites fun w => w &&& ~~~flag)⟩

theorem pagedirClearPage_spec (hofs : pgOfs va = 0#32) (hva : isUserVaddr va = true) :
    ∃ mem', pagedirClearPage mem pd va = some mem' ∧ Shape mem' pd used ∧
      Writes pd va (fun w => w &&& ~~~PTE_P) mem mem' := by
  -- an entry that is not present is as it will be
  have hkeep : entry mem pd va &&& PTE_P = 0#32 → Writes pd va (fun w => w &&& ~~~PTE_P) mem mem := by
    intro hclear u
    split
    · rename_i hu
      rw [entry_congr hu]
      exact (andNot_of_clear hclear).symm
    · rfl
  unfold pagedirClearPage
  rw [if_neg (by simp [hofs, hva]), lookupPage_spec h hpd]
  cases hpt : table mem pd (pdNo va) with
  | none =>
    refine ⟨mem, rfl, h, hkeep ?_⟩
    rw [entry_of_none hpt, BitVec.zero_and]
  | some pt =>
    simp only [Option.map_some, some_bind]
    split
    · refine ⟨_, rfl, h.set (h.tableAt_mem hpt).2 _ _, fun u => ?_⟩
      rw [entry_setWord h hpt]
      split
      · rename_i hu
        rw [entry_congr hu, entry_of_table hpt]
      · rfl
    · rename_i hclear
      refine ⟨mem, rfl, h, hkeep ?_⟩
      rw [entry_of_table hpt]
      exact not_not.mp hclear

/-- What `pagedir_set_page` asserts of its arguments. -/
structure SetArgs (k : Kernel) (pd upage kpage : Word) : Prop where
  upageAligned : pgOfs upage = 0#32
  upageUser : isUserVaddr upage = true
  kpageAligned : pgOfs kpage = 0#32
  kpageKernel : isKernelVaddr kpage = true
  kpageInRam : (vtop kpage).any (fun paddr : Word => (paddr >>> PTSHIFT).toNat < k.ramPages) = true
  notBase : pd ≠ k.basePageDir

/-- **`pagedir_set_page`** fails and changes nothing, or writes the entry. -/
theorem pagedirSetPage_spec {k : Kernel} {upage kpage : Word} (hargs : SetArgs k pd upage kpage)
    (hfree : entry mem pd upage &&& PTE_P = 0#32) (hpage : ∀ p ∈ page, Fresh used p)
    (writable : Bool) :
    page = none ∧ pagedirSetPage k mem pd upage kpage writable page = some (false, mem) ∨
      ∃ mem' pte, pagedirSetPage k mem pd upage kpage writable page = some (true, mem') ∧
        Shape mem' pd (if mem pd (pdNo upage) = 0#32 then page.toList ++ used else used) ∧
        pteCreateUser kpage writable = some pte ∧ Writes pd upage (fun _ => pte) mem mem' := by
  obtain ⟨paddr, hvtop, hram⟩ := (Option.any_eq_true _ _).mp hargs.kpageInRam
  obtain ⟨pte, hpte, -⟩ := pteCreateUser_spec hargs.kpageAligned hargs.kpageKernel writable
  unfold pagedirSetPage
  rw [if_neg (by simp [hargs.upageAligned, hargs.kpageAligned, hargs.upageUser]), hvtop]
  simp only [some_bind]
  rw [if_neg (not_or.mpr ⟨not_not.mpr (of_decide_eq_true hram), hargs.notBase⟩)]
  obtain ⟨hnone, hlook⟩ | ⟨mem', pt, hlook, hshape, hpt, hentry⟩ :=
    lookupPage_create h hpd hargs.upageUser hpage
  · rw [hlook]
    exact .inl ⟨hnone, rfl⟩
  · have hclear : mem' pt (ptNo upage) &&& PTE_P = 0#32 := by
      rw [← entry_of_table hpt, hentry]
      exact hfree
    simp only [hlook, some_bind, if_pos hclear, hpte]
    refine .inr ⟨_, pte, rfl, hshape.set (hshape.tableAt_mem hpt).2 _ _, rfl, fun u => ?_⟩
    rw [entry_setWord hshape hpt, hentry]

end

theorem pagedirSetPage_failed {k : Kernel} {upage kpage : Word} {writable : Bool} {mem' : Memory}
    (hset : pagedirSetPage k mem pd upage kpage writable page = some (false, mem')) : mem' = mem := by
  unfold pagedirSetPage at hset
  split at hset
  · cases hset
  obtain ⟨paddr, -, hset⟩ := Option.bind_eq_some_iff.mp hset
  split at hset
  · cases hset
  obtain ⟨⟨pte, mem1⟩, hlook, hset⟩ := Option.bind_eq_some_iff.mp hset
  cases pte with
  | some pte =>
    simp only at hset
    split at hset
    · obtain ⟨entry, -, hset⟩ := Option.bind_eq_some_iff.mp hset
      cases hset
    · cases hset
  | none =>
    cases hset
    -- a null pointer comes from a failed allocation only
    unfold lookupPage at hlook
    split at hlook
    · cases hlook
    split at hlook
    · rw [if_pos rfl] at hlook
      cases page with
      | none => exact ((Prod.mk.inj (Option.some.inj hlook)).2).symm
      | some p =>
        obtain ⟨pde, -, hlook⟩ := Option.bind_eq_some_iff.mp hlook
        obtain ⟨pt, -, hlook⟩ := Option.bind_eq_some_iff.mp hlook
        cases hlook
    · obtain ⟨pt, -, hlook⟩ := Option.bind_eq_some_iff.mp hlook
      cases hlook

end

/-! ## Sequences of calls -/

/-- Memory, the pages in use, and what the calls so far have made of the user pages: by its
number, the last kernel page set for a page and whether it is writable, unless the page was
cleared since. -/
structure Dir where
  mem : Memory
  used : List Word
  pages : Word → Option (Word × Bool)

/-- A call; `page` is what `palloc_get_page` returns if it is called. -/
inductive Act where
  | setPage (upage kpage : Word) (writable : Bool) (page : Option Word)
  | clearPage (upage : Word)
  | setDirty (vpage : Word) (dirty : Bool)
  | setAccessed (vpage : Word) (accessed : Bool)

def Act.addr : Act → Word
  | .setPage upage _ _ _ | .clearPage upage => upage
  | .setDirty vpage _ | .setAccessed vpage _ => vpage

def Dir.step (k : Kernel) (pd : Word) (s : Dir) : Act → Option Dir
  | .setPage upage kpage writable page => do
    let (success, mem) ← pagedirSetPage k s.mem pd upage kpage writable page
    let used := if s.mem pd (pdNo upage) = 0#32 then page.toList ++ s.used else s.used
    if success then
      some ⟨mem, used, update s.pages (pgNo upage) (some (kpage, writable))⟩
    else some ⟨mem, used, s.pages⟩
  | .clearPage upage => do
    let mem ← pagedirClearPage s.mem pd upage
    some { s with mem, pages := update s.pages (pgNo upage) none }
  | .setDirty vpage dirty => do
    let mem ← pagedirSetDirty s.mem pd vpage dirty
    some { s with mem }
  | .setAccessed vpage accessed => do
    let mem ← pagedirSetAccessed s.mem pd vpage accessed
    some { s with mem }

/-- The calls in question: `pagedir_set_page` on a user page that is not mapped, with pages from
`palloc_get_page` that are not in use. -/
def Dir.Admits (k : Kernel) (pd : Word) (s : Dir) : Act → Prop
  | .setPage upage kpage _ page => SetArgs k pd upage kpage ∧ s.pages (pgNo upage) = none ∧
      ∀ p ∈ page, Fresh s.used p
  | .clearPage upage => pgOfs upage = 0#32 ∧ isUserVaddr upage = true
  | .setDirty _ _ | .setAccessed _ _ => True

/-- **The invariant.** The user entries are those of the map. -/
structure Refines (k : Kernel) (pd : Word) (s : Dir) : Prop where
  shape : Shape s.mem pd s.used
  notNull : pd ≠ 0#32
  notBase : pd ≠ k.basePageDir
  present : ∀ va, isUserVaddr va = true →
    (entry s.mem pd va &&& PTE_P ≠ 0#32 ↔ s.pages (pgNo va) ≠ none)
  mapped : ∀ va kpage writable, isUserVaddr va = true →
    s.pages (pgNo va) = some (kpage, writable) →
      pteGetPage (entry s.mem pd va) = some kpage ∧
      (entry s.mem pd va &&& PTE_W ≠ 0#32 ↔ writable = true)

/-- The bits of an entry that make its mapping: all but those for accesses. -/
def MAPPING : Word := ~~~(PTE_A ||| PTE_D)

/-- What a call leaves alone: the entries of all other pages, and the kernel's mappings. -/
structure Leaves (pd addr : Word) (mem mem' : Memory) : Prop where
  others : ∀ va, pgNo va ≠ pgNo addr → entry mem' pd va = entry mem pd va
  kernel : ∀ va, isKernelVaddr va = true →
    entry mem' pd va &&& MAPPING = entry mem pd va &&& MAPPING

variable {mem : Memory}

section
variable {k : Kernel} {pd va : Word} {s : Dir} {mem' : Memory} {used' : List Word}
  {pages' : Word → Option (Word × Bool)} {f : Word → Word}

theorem isUserVaddr_congr {u v : Word} (h : pgNo u = pgNo v) : isUserVaddr u = isUserVaddr v := by
  rw [Bool.eq_iff_iff, isUserVaddr_iff, isUserVaddr_iff, (pgNo_eq_iff.mp h).1]

theorem isKernelVaddr_eq (va : Word) : isKernelVaddr va = !isUserVaddr va := by
  unfold isKernelVaddr isUserVaddr
  rw [← decide_not]
  simp only [ge_iff_le, BitVec.not_lt]

theorem Refines.write (h : Refines k pd s) (hshape : Shape mem' pd used')
    (hw : Writes pd va f s.mem mem') (hpages : ∀ n, n ≠ pgNo va → pages' n = s.pages n)
    (hat : isUserVaddr va = true →
      (f (entry s.mem pd va) &&& PTE_P ≠ 0#32 ↔ pages' (pgNo va) ≠ none) ∧
      ∀ kpage writable, pages' (pgNo va) = some (kpage, writable) →
        pteGetPage (f (entry s.mem pd va)) = some kpage ∧
        (f (entry s.mem pd va) &&& PTE_W ≠ 0#32 ↔ writable = true)) :
    Refines k pd ⟨mem', used', pages'⟩ := by
  refine ⟨hshape, h.notNull, h.notBase, fun u hu => ?_, fun u kpage writable hu hmap => ?_⟩
  · show entry mem' pd u &&& PTE_P ≠ 0#32 ↔ pages' (pgNo u) ≠ none
    rw [hw u]
    split
    · rename_i heq
      rw [entry_congr heq, heq]
      exact (hat (isUserVaddr_congr heq ▸ hu)).1
    · rename_i hne
      rw [hpages _ hne]
      exact h.present u hu
  · replace hmap : pages' (pgNo u) = some (kpage, writable) := hmap
    show pteGetPage (entry mem' pd u) = some kpage ∧ (entry mem' pd u &&& PTE_W ≠ 0#32 ↔ _)
    rw [hw u]
    split
    · rename_i heq
      rw [entry_congr heq]
      rw [heq] at hmap
      exact (hat (isUserVaddr_congr heq ▸ hu)).2 kpage writable hmap
    · rename_i hne
      rw [hpages _ hne] at hmap
      exact h.mapped u kpage writable hu hmap

theorem Leaves.refl (pd addr : Word) (mem : Memory) : Leaves pd addr mem mem :=
  ⟨fun _ _ => rfl, fun _ _ => rfl⟩

theorem Writes.leaves_user (hw : Writes pd va f mem mem') (hva : isUserVaddr va = true) :
    Leaves pd va mem mem' := by
  refine ⟨fun u hu => ?_, fun u hu => ?_⟩
  · rw [hw u, if_neg hu]
  · have hne : pgNo u ≠ pgNo va := by
      intro heq
      rw [isKernelVaddr_eq, isUserVaddr_congr heq, hva] at hu
      cases hu
    rw [hw u, if_neg hne]

theorem Writes.leaves_mapping (hw : Writes pd va f mem mem')
    (hf : ∀ w, f w &&& MAPPING = w &&& MAPPING) : Leaves pd va mem mem' := by
  refine ⟨fun u hu => ?_, fun u _ => ?_⟩
  · rw [hw u, if_neg hu]
  · rw [hw u]
    split
    · exact hf _
    · rfl

/-- The two flags for accesses are not part of the mapping. -/
theorem setFlag_keeps {flag g : Word} (hset : flag &&& g = 0#32) (hclear : ~~~flag &&& g = g)
    (value : Bool) (w : Word) :
    (if value then w ||| flag else w &&& ~~~flag) &&& g = w &&& g := by
  cases value with
  | true => exact or_flag_and hset
  | false => exact andNot_flag_and hclear

theorem Refines.setFlag (h : Refines k pd s) {flag : Word} (hflag : flag = PTE_D ∨ flag = PTE_A)
    (va : Word) (value : Bool) :
    ∃ mem', setFlag flag s.mem pd va value = some mem' ∧ Refines k pd { s with mem := mem' } ∧
      Leaves pd va s.mem mem' := by
  obtain ⟨mem', hset, hshape, ⟨rfl, -⟩ | hw⟩ := setFlag_spec h.shape h.notNull flag va value
  · exact ⟨s.mem, hset, h, .refl pd va s.mem⟩
  have hkeeps : ∀ g : Word, PTE_D &&& g = 0#32 → PTE_A &&& g = 0#32 → ~~~PTE_D &&& g = g →
      ~~~PTE_A &&& g = g → ∀ w, (if value then w ||| flag else w &&& ~~~flag) &&& g = w &&& g := by
    intro g hd ha hd' ha'
    rcases hflag with rfl | rfl
    · exact setFlag_keeps hd hd' value
    · exact setFlag_keeps ha ha' value
  refine ⟨mem', hset, h.write hshape hw (fun _ _ => rfl) fun hva => ⟨?_, fun kpage writable hmap => ?_⟩,
    hw.leaves_mapping (hkeeps MAPPING (by decide) (by decide) (by decide) (by decide))⟩
  · rw [hkeeps PTE_P (by decide) (by decide) (by decide) (by decide)]
    exact h.present va hva
  · rw [hkeeps PTE_W (by decide) (by decide) (by decide) (by decide), pteGetPage,
      hkeeps PTE_ADDR (by decide) (by decide) (by decide) (by decide)]
    exact h.mapped va kpage writable hva hmap

/-- **One call** succeeds without a failed assertion, keeps the invariant and leaves the other
pages alone. -/
theorem Refines.step (h : Refines k pd s) {a : Act} (hok : s.Admits k pd a) :
    ∃ s', s.step k pd a = some s' ∧ Refines k pd s' ∧ Leaves pd a.addr s.mem s'.mem := by
  cases a with
  | setDirty vpage dirty =>
    obtain ⟨mem', hset, h', hleaves⟩ := h.setFlag (.inl rfl) vpage dirty
    refine ⟨{ s with mem := mem' }, ?_, h', hleaves⟩
    simp only [Dir.step, pagedirSetDirty, hset, some_bind]
  | setAccessed vpage accessed =>
    obtain ⟨mem', hset, h', hleaves⟩ := h.setFlag (.inr rfl) vpage accessed
    refine ⟨{ s with mem := mem' }, ?_, h', hleaves⟩
    simp only [Dir.step, pagedirSetAccessed, hset, some_bind]
  | clearPage upage =>
    obtain ⟨hofs, huser⟩ := hok
    obtain ⟨mem', hclear, hshape, hw⟩ := pagedirClearPage_spec h.shape h.notNull hofs huser
    refine ⟨⟨mem', s.used, update s.pages (pgNo upage) none⟩, ?_,
      h.write hshape hw (fun n hn => update_of_ne hn _ _) fun _ => ?_, hw.leaves_user huser⟩
    · simp only [Dir.step, hclear, some_bind]
    · rw [update_self, BitVec.and_assoc, show ~~~PTE_P &&& PTE_P = 0#32 by decide]
      simp
  | setPage upage kpage writable page =>
    obtain ⟨hargs, hunmapped, hpage⟩ := hok
    have hfree : entry s.mem pd upage &&& PTE_P = 0#32 := by
      by_contra hne
      exact (h.present upage hargs.upageUser).mp hne hunmapped
    obtain ⟨rfl, hfail⟩ | ⟨mem', pte, hset, hshape, hpte, hw⟩ :=
      pagedirSetPage_spec h.shape h.notNull hargs hfree hpage writable
    · refine ⟨s, ?_, h, .refl _ _ _⟩
      simp only [Dir.step, hfail, some_bind, Bool.false_eq_true, if_false,
        Option.toList_none, nil_append, ite_self]
    · obtain ⟨pte', hpte', hp, hget, hwritable⟩ :=
        pteCreateUser_spec hargs.kpageAligned hargs.kpageKernel writable
      cases Option.some.inj (hpte.symm.trans hpte')
      refine ⟨⟨mem', _, update s.pages (pgNo upage) (some (kpage, writable))⟩, ?_,
        h.write hshape hw (fun n hn => update_of_ne hn _ _) fun _ => ?_,
        hw.leaves_user hargs.upageUser⟩
      · simp only [Dir.step, hset, some_bind, if_true]
      · rw [update_self]
        refine ⟨iff_of_true hp (by simp), fun kpage' writable' hmap => ?_⟩
        cases hmap
        exact ⟨hget, hwritable⟩

end

/-! ## `pagedir_destroy` -/

def presentPage (pte : Word) : Option Word := if pte &&& PTE_P ≠ 0#32 then pteGetPage pte else none

def freedAt (mem : Memory) (pd : Word) (i : Index) : List Word :=
  match table mem pd i with
  | none => []
  | some pt => ((List.finRange 1024).filterMap fun j => presentPage (mem pt j)) ++ [pt]

section
variable {mem : Memory} {pd pt : Word} {used : List Word} {s : Memory × List Word}
  {row : Index → Word}

/-- **The inner loop**: the page table stays as it is while the pages are freed. -/
theorem freeEntry_loop (hpt : s.1 pt = row) (js : List Index)
    (hpages : ∀ j ∈ js, row j &&& PTE_P ≠ 0#32 → ∃ page, pteGetPage (row j) = some page ∧ page ≠ pt) :
    ∃ mem', js.foldlM (freeEntry pt) s = some (mem', s.2 ++ js.filterMap fun j => presentPage (row j)) ∧
      ∀ q ∉ js.filterMap (fun j => presentPage (row j)), mem' q = s.1 q := by
  induction js generalizing s with
  | nil => exact ⟨s.1, by simp, fun _ _ => rfl⟩
  | cons j js ih =>
    have hrest := fun j' hj' => hpages j' (mem_cons_of_mem j hj')
    rw [foldlM_cons, freeEntry, hpt, filterMap_cons]
    by_cases hp : row j &&& PTE_P ≠ 0#32
    · obtain ⟨page, hpage, hne⟩ := hpages j mem_cons_self hp
      have hkept : (freePage s page).1 pt = row := (fillPage_page hne.symm).trans hpt
      obtain ⟨mem', hloop, hkeep⟩ := ih hkept hrest
      rw [if_pos hp, presentPage, if_pos hp, hpage]
      refine ⟨mem', ?_, fun q hq => ?_⟩
      · simp only [some_bind, hloop]
        simp only [freePage, append_assoc, singleton_append]
      · rw [mem_cons, not_or] at hq
        exact (hkeep q hq.2).trans (fillPage_page hq.1)
    · rw [if_neg hp, presentPage, if_neg hp]
      exact ih hpt hrest

theorem present_iff_table (h : Shape mem pd used) (i : Index) :
    (mem pd i &&& PTE_P ≠ 0#32 ↔ (table mem pd i).isSome = true) ∧
      ∀ p, table mem pd i = some p → pdeGetPt (mem pd i) = some p := by
  unfold table tableAt
  split
  · rename_i h0
    rw [h0]
    exact ⟨by decide, nofun⟩
  · rename_i hne
    obtain ⟨p, hp, -⟩ := h.table i hne
    refine ⟨?_, fun _ => id⟩
    rw [hp]
    refine iff_of_true (fun h0 => ?_) rfl
    rw [pdeGetPt, if_neg (not_not.mpr h0)] at hp
    cases hp

/-- **One turn of the outer loop**, in memory that agrees on the directory and the page table. -/
theorem freeTable_spec (h : Shape mem pd used) {i : Index} (hpd : s.1 pd = mem pd)
    (hpt : ∀ pt, table mem pd i = some pt → s.1 pt = mem pt)
    (hpages : ∀ pt j, table mem pd i = some pt → mem pt j &&& PTE_P ≠ 0#32 →
      ∃ page, pteGetPage (mem pt j) = some page ∧ page ≠ pt) :
    ∃ mem', freeTable pd s i = some (mem', s.2 ++ freedAt mem pd i) ∧
      ∀ q ∉ freedAt mem pd i, mem' q = s.1 q := by
  obtain ⟨hpresent, hget⟩ := present_iff_table h i
  unfold freeTable freedAt
  rw [hpd]
  cases htable : table mem pd i with
  | none =>
    rw [htable] at hpresent
    rw [if_neg (fun hp => nomatch hpresent.mp hp)]
    exact ⟨s.1, by simp, fun _ _ => rfl⟩
  | some pt =>
    rw [htable] at hpresent
    obtain ⟨mem', hloop, hkeep⟩ := freeEntry_loop (hpt pt htable) (List.finRange 1024)
      fun j _ => hpages pt j htable
    rw [if_pos (hpresent.mpr rfl), hget pt htable]
    refine ⟨fillPage mem' pt 0xcccccccc#32, ?_, fun q hq => ?_⟩
    · simp only [some_bind, hloop, freePage, append_assoc]
    · rw [mem_append, not_or, mem_singleton] at hq
      exact (fillPage_page hq.2).trans (hkeep q hq.1)

/-- **The outer loop**, if no page is freed that is still read. -/
theorem freeTable_loop (h : Shape mem pd used) {is : List Index} (hnodup : is.Nodup)
    (hpd : s.1 pd = mem pd) (hpt : ∀ i ∈ is, ∀ pt, table mem pd i = some pt → s.1 pt = mem pt)
    (hpages : ∀ i ∈ is, ∀ pt j, table mem pd i = some pt → mem pt j &&& PTE_P ≠ 0#32 →
      ∃ page, pteGetPage (mem pt j) = some page ∧ page ≠ pt)
    (hroot : ∀ i ∈ is, pd ∉ freedAt mem pd i)
    (hother : ∀ i ∈ is, ∀ i' ∈ is, i ≠ i' → ∀ pt, table mem pd i' = some pt → pt ∉ freedAt mem pd i) :
    ∃ mem', is.foldlM (freeTable pd) s = some (mem', s.2 ++ is.flatMap (freedAt mem pd)) := by
  induction is generalizing s with
  | nil => exact ⟨s.1, by simp⟩
  | cons i is ih =>
    obtain ⟨hi, hnodup⟩ := nodup_cons.mp hnodup
    obtain ⟨mem1, hfree, hkeep⟩ := freeTable_spec h hpd (hpt i mem_cons_self)
      (hpages i mem_cons_self)
    have htail : ∀ i' ∈ is, i' ∈ i :: is := fun i' => mem_cons_of_mem i
    obtain ⟨mem', hloop⟩ := ih (s := (mem1, s.2 ++ freedAt mem pd i)) hnodup
      ((hkeep pd (hroot i mem_cons_self)).trans hpd)
      (fun i' hi' pt hpt' =>
        (hkeep pt (hother i mem_cons_self i' (htail i' hi') (fun he => hi (he ▸ hi')) pt hpt')).trans
          (hpt i' (htail i' hi') pt hpt'))
      (fun i' hi' => hpages i' (htail i' hi')) (fun i' hi' => hroot i' (htail i' hi'))
      (fun i' hi' i'' hi'' => hother i' (htail i' hi') i'' (htail i'' hi''))
    refine ⟨mem', ?_⟩
    rw [foldlM_cons, hfree, flatMap_cons, ← append_assoc]
    exact hloop

end

def pageAt (i j : Index) : Word := BitVec.ofNat 32 (i.val * 4194304 + j.val * 4096)

theorem pageAt_indices (i j : Index) : pdNo (pageAt i j) = i ∧ ptNo (pageAt i j) = j := by
  have hi := i.isLt
  have hj := j.isLt
  have hval : (pageAt i j).toNat = i.val * 4194304 + j.val * 4096 := by
    rw [pageAt, BitVec.toNat_ofNat]
    omega
  rw [Fin.ext_iff, Fin.ext_iff, pdNo_val, ptNo_val, hval]
  omega

theorem pgNo_pageAt (va : Word) : pgNo (pageAt (pdNo va) (ptNo va)) = pgNo va :=
  pgNo_eq_iff.mpr (pageAt_indices (pdNo va) (ptNo va))

/-- User address `va` is mapped to kernel page `kpage`. -/
def Dir.Maps (s : Dir) (va kpage : Word) : Prop :=
  isUserVaddr va = true ∧ ∃ writable, s.pages (pgNo va) = some (kpage, writable)

def UserTable (mem : Memory) (pd pt : Word) : Prop :=
  ∃ i, i < pdNo PHYS_BASE ∧ table mem pd i = some pt

/-- The user pages are mapped to different kernel pages, none of which the directory is made of. -/
structure Apart (pd : Word) (s : Dir) : Prop where
  distinct : ∀ u v kpage, s.Maps u kpage → s.Maps v kpage → pgNo u = pgNo v
  notRoot : ∀ va, ¬ s.Maps va pd
  notTable : ∀ va pt, s.Maps va pt → ¬ UserTable s.mem pd pt

section
variable {k : Kernel} {pd : Word} {s : Dir}

variable {i : Index}

theorem isUserVaddr_pageAt (hi : i < pdNo PHYS_BASE) (j : Index) :
    isUserVaddr (pageAt i j) = true := by
  rw [isUserVaddr_iff, (pageAt_indices i j).1]
  exact hi

theorem entry_pageAt {pt : Word} (hpt : table mem pd i = some pt) (j : Index) :
    entry mem pd (pageAt i j) = mem pt j := by
  obtain ⟨hi, hj⟩ := pageAt_indices i j
  rw [entry_of_table (hi.symm ▸ hpt), hj]

theorem Refines.presentPage_iff (h : Refines k pd s) {j : Index} {pt : Word}
    (hi : i < pdNo PHYS_BASE) (hpt : table s.mem pd i = some pt) (p : Word) :
    presentPage (s.mem pt j) = some p ↔ s.Maps (pageAt i j) p := by
  have huser := isUserVaddr_pageAt hi j
  have hpresent := h.present _ huser
  have hmapped := fun kpage writable => h.mapped _ kpage writable huser
  rw [entry_pageAt hpt] at hpresent hmapped
  unfold presentPage Dir.Maps
  cases hpages : s.pages (pgNo (pageAt i j)) with
  | none =>
    rw [hpages] at hpresent
    rw [if_neg fun hp => hpresent.mp hp rfl]
    simp
  | some e =>
    obtain ⟨hget, -⟩ := hmapped e.1 e.2 hpages
    rw [hpages] at hpresent
    rw [if_pos (hpresent.mpr nofun), hget]
    simp [huser, Prod.ext_iff]

theorem Refines.mem_freedAt (h : Refines k pd s) (hi : i < pdNo PHYS_BASE) (p : Word) :
    p ∈ freedAt s.mem pd i ↔ (∃ j, s.Maps (pageAt i j) p) ∨ table s.mem pd i = some p := by
  unfold freedAt
  cases hpt : table s.mem pd i with
  | none =>
    refine iff_of_false not_mem_nil (not_or.mpr ⟨fun ⟨j, huser, writable, hmap⟩ => ?_, nofun⟩)
    obtain ⟨hpd, -⟩ := pageAt_indices i j
    have hentry := entry_of_none (hpd.symm ▸ hpt)
    have hne := (h.present _ huser).mpr (by rw [hmap]; nofun)
    rw [hentry] at hne
    exact hne (BitVec.zero_and)
  | some pt =>
    simp only [mem_append, mem_filterMap, mem_finRange, true_and, mem_singleton,
      h.presentPage_iff hi hpt, Option.some.injEq, eq_comm]

theorem Refines.freedAt_nodup (h : Refines k pd s) (hapart : Apart pd s) (hi : i < pdNo PHYS_BASE) :
    (freedAt s.mem pd i).Nodup := by
  unfold freedAt
  cases hpt : table s.mem pd i with
  | none => exact nodup_nil
  | some pt =>
    refine nodup_append.mpr ⟨(nodup_finRange 1024).filterMap ?_, nodup_singleton pt, ?_⟩
    · intro j j' p hj hj'
      have heq := hapart.distinct _ _ p ((h.presentPage_iff hi hpt p).mp hj)
        ((h.presentPage_iff hi hpt p).mp hj')
      rw [← (pageAt_indices i j).2, ← (pageAt_indices i j').2]
      exact (pgNo_eq_iff.mp heq).2
    · rintro p hp q hq rfl
      obtain ⟨j, -, hj⟩ := mem_filterMap.mp hp
      rw [mem_singleton] at hq
      subst hq
      exact hapart.notTable _ _ ((h.presentPage_iff hi hpt _).mp hj) ⟨i, hi, hpt⟩

theorem Refines.freedAt_disjoint (h : Refines k pd s) (hapart : Apart pd s) {i' : Index}
    (hi : i < pdNo PHYS_BASE) (hi' : i' < pdNo PHYS_BASE) (hne : i ≠ i') :
    List.Disjoint (freedAt s.mem pd i) (freedAt s.mem pd i') := by
  intro p hp hp'
  rw [h.mem_freedAt hi] at hp
  rw [h.mem_freedAt hi'] at hp'
  obtain ⟨j, hj⟩ | hpt := hp <;> obtain ⟨j', hj'⟩ | hpt' := hp'
  · have heq := (pgNo_eq_iff.mp (hapart.distinct _ _ p hj hj')).1
    rw [(pageAt_indices i j).1, (pageAt_indices i' j').1] at heq
    exact hne heq
  · exact hapart.notTable _ _ hj ⟨i', hi', hpt'⟩
  · exact hapart.notTable _ _ hj' ⟨i, hi, hpt⟩
  · exact hne (h.shape.distinct i i' p hpt hpt')

theorem mem_userIndices : i ∈ userIndices ↔ i < pdNo PHYS_BASE := by
  simp only [userIndices, mem_filter, mem_finRange, true_and, decide_eq_true_eq]

/-- **`pagedir_destroy`** frees the mapped pages, the page tables and the directory, once each. -/
theorem Refines.destroy (h : Refines k pd s) (hapart : Apart pd s) :
    ∃ freed, pagedirDestroy k s.mem pd = some freed ∧ freed.Nodup ∧
      ∀ p, p ∈ freed ↔ (∃ va, s.Maps va p) ∨ UserTable s.mem pd p ∨ p = pd := by
  have hnodup : userIndices.Nodup := (nodup_finRange 1024).filter _
  have hroot : ∀ i ∈ userIndices, pd ∉ freedAt s.mem pd i := by
    intro i hi hmem
    obtain ⟨j, hj⟩ | hpt := (h.mem_freedAt (mem_userIndices.mp hi) pd).mp hmem
    · exact hapart.notRoot _ hj
    · exact (h.shape.tableAt_mem hpt).2 rfl
  have hother : ∀ i ∈ userIndices, ∀ i' ∈ userIndices, i ≠ i' → ∀ pt, table s.mem pd i' = some pt →
      pt ∉ freedAt s.mem pd i := by
    intro i hi i' hi' hne pt hpt hmem
    rw [mem_userIndices] at hi hi'
    exact h.freedAt_disjoint hapart hi hi' hne hmem ((h.mem_freedAt hi' pt).mpr (.inr hpt))
  have hpages : ∀ i ∈ userIndices, ∀ pt j, table s.mem pd i = some pt → s.mem pt j &&& PTE_P ≠ 0#32 →
      ∃ page, pteGetPage (s.mem pt j) = some page ∧ page ≠ pt := by
    intro i hi pt j hpt hp
    rw [mem_userIndices] at hi
    rw [← entry_pageAt hpt] at hp ⊢
    have huser := isUserVaddr_pageAt hi j
    obtain ⟨⟨kpage, writable⟩, hmap⟩ := Option.ne_none_iff_exists'.mp ((h.present _ huser).mp hp)
    refine ⟨kpage, (h.mapped _ kpage writable huser hmap).1, ?_⟩
    rintro rfl
    exact hapart.notTable _ _ ⟨huser, writable, hmap⟩ ⟨i, hi, hpt⟩
  obtain ⟨mem', hloop⟩ := freeTable_loop (s := (s.mem, [])) h.shape hnodup rfl (fun _ _ _ _ => rfl)
    hpages hroot hother
  refine ⟨userIndices.flatMap (freedAt s.mem pd) ++ [pd], ?_, ?_, fun p => ?_⟩
  · rw [nil_append] at hloop
    rw [pagedirDestroy, if_neg h.notBase, hloop]
    simp only [some_bind, freePage]
  · refine nodup_append.mpr ⟨nodup_flatMap.mpr ⟨fun i hi => ?_, ?_⟩,
      nodup_singleton pd, ?_⟩
    · exact h.freedAt_nodup hapart (mem_userIndices.mp hi)
    · refine hnodup.imp_of_mem fun {i i'} hi hi' hne => ?_
      exact h.freedAt_disjoint hapart (mem_userIndices.mp hi) (mem_userIndices.mp hi') hne
    · rintro p hp q hq rfl
      obtain ⟨i, hi, hmem⟩ := mem_flatMap.mp hp
      rw [mem_singleton] at hq
      exact hroot i hi (hq ▸ hmem)
  · rw [mem_append, mem_singleton, ← or_assoc, mem_flatMap]
    refine or_congr_left ⟨?_, ?_⟩
    · rintro ⟨i, hi, hmem⟩
      rw [mem_userIndices] at hi
      obtain ⟨j, hj⟩ | hpt := (h.mem_freedAt hi p).mp hmem
      · exact .inl ⟨_, hj⟩
      · exact .inr ⟨i, hi, hpt⟩
    · rintro (⟨va, hva⟩ | ⟨i, hi, hpt⟩)
      · have hi := isUserVaddr_iff.mp hva.1
        refine ⟨pdNo va, mem_userIndices.mpr hi, (h.mem_freedAt hi p).mpr (.inl ⟨ptNo va, ?_⟩)⟩
        exact ⟨isUserVaddr_pageAt hi _, (pgNo_pageAt va).symm ▸ hva.2⟩
      · exact ⟨i, mem_userIndices.mpr hi, (h.mem_freedAt hi p).mpr (.inr hpt)⟩

/-! ## The base directory, and copies of it -/

structure BaseDir (mem : Memory) (base : Word) (used : List Word) : Prop where
  shape : Shape mem base used
  noUser : ∀ i, i < pdNo PHYS_BASE → mem base i = 0#32

variable {mem : Memory} {base pt : Word} {used given : List Word}

theorem isKernelVaddr_iff {va : Word} : isKernelVaddr va = true ↔ pdNo PHYS_BASE ≤ pdNo va := by
  rw [isKernelVaddr_eq, Bool.not_eq_true', ← Bool.not_eq_true, isUserVaddr_iff, Fin.not_lt]

/-- A kernel entry is made for a kernel page only. -/
theorem isKernelVaddr_of_pteCreateKernel {page pte : Word} {writable : Bool}
    (h : pteCreateKernel page writable = some pte) : isKernelVaddr page = true := by
  unfold pteCreateKernel at h
  split at h
  · obtain ⟨paddr, hvtop, -⟩ := Option.bind_eq_some_iff.mp h
    unfold vtop at hvtop
    split at hvtop
    · assumption
    · cases hvtop
  · cases h

theorem BaseDir.set (h : BaseDir mem base used) (hpt : pt ≠ base) (i : Index) (w : Word) :
    BaseDir (setWord mem pt i w) base used where
  shape := h.shape.set hpt i w
  noUser i' hi' := by
    rw [setWord_page hpt.symm]
    exact h.noUser i' hi'

theorem BaseDir.create (h : BaseDir mem base used) {pde : Word} (hpt : pt ∉ used)
    (hget : pdeGetPt pde = some pt) (hne : pde ≠ 0#32) (hi : pdNo PHYS_BASE ≤ i) :
    BaseDir (setWord (fillPage mem pt 0#32) base i pde) base (pt :: used) where
  shape := (h.shape.create hpt hget hne i).mono fun _ => mem_cons.mpr
  noUser i' hi' := by
    have hroot : base ≠ pt := fun he => hpt (he ▸ h.shape.root_used)
    rw [setWord_index (Fin.ne_of_lt (Fin.lt_of_lt_of_le hi' hi)), fillPage_page hroot]
    exact h.noUser i' hi'

/-- The base directory while it is made, from the pages `given`. -/
structure Building (base : Word) (given : List Word) (s : Memory × Word × List Word) : Prop where
  dir : ∃ used, BaseDir s.1 base used ∧ used ⊆ given ∧ ∀ p ∈ s.2.2, Fresh used p
  notBase : s.2.1 ≠ base
  nodup : s.2.2.Nodup
  rest : s.2.2 ⊆ given

theorem Building.mapRam {text : Word → Bool} {s s' : Memory × Word × List Word} {page : Nat}
    (h : Building base given s) (hmap : mapRam text base s page = some s') :
    Building base given s' := by
  obtain ⟨mem, pt, pages⟩ := s
  obtain ⟨⟨used, hdir, hused, hfresh⟩, hbase, hnodup, hrest⟩ := h
  unfold Pagedir.mapRam at hmap
  obtain ⟨vaddr, -, hmap⟩ := Option.bind_eq_some_iff.mp hmap
  obtain ⟨⟨mem1, pt1, pages1⟩, htable, hmap⟩ := Option.bind_eq_some_iff.mp hmap
  obtain ⟨pte, hpte, hmap⟩ := Option.bind_eq_some_iff.mp hmap
  cases hmap
  have hkernel := isKernelVaddr_iff.mp (isKernelVaddr_of_pteCreateKernel hpte)
  unfold addTable at htable
  split at htable
  · cases pages with
    | nil => cases htable
    | cons p pages =>
      obtain ⟨haligned, hpkernel, hunused⟩ := hfresh p mem_cons_self
      have hpbase : p ≠ base := fun he => hunused (he ▸ hdir.shape.root_used)
      obtain ⟨hp, hnodup'⟩ := nodup_cons.mp hnodup
      obtain ⟨hpgiven, hrest'⟩ := cons_subset.mp hrest
      obtain ⟨pde, hpde, hget, hne⟩ := pdeCreate_spec haligned hpkernel
      simp only [hpde, some_bind] at htable
      obtain ⟨rfl, rfl, rfl⟩ := htable
      refine ⟨⟨pt1 :: used, (hdir.create hunused hget hne hkernel).set hpbase _ _,
        cons_subset.mpr ⟨hpgiven, hused⟩, fun q hq => ?_⟩, hpbase, hnodup', hrest'⟩
      obtain ⟨hqaligned, hqkernel, hqunused⟩ := hfresh q (mem_cons_of_mem pt1 hq)
      exact ⟨hqaligned, hqkernel, not_mem_cons_of_ne_of_not_mem (fun he => hp (he ▸ hq)) hqunused⟩
  · cases htable
    exact ⟨⟨used, hdir.set hbase _ _, hused, hfresh⟩, hbase, hnodup, hrest⟩

/-- **`paging_init`** makes a directory without user pages. -/
theorem pagingInit_base {text : Word → Bool} {ramPages : Nat} {mem' : Memory}
    (hnodup : given.Nodup) (hgiven : ∀ p ∈ given, pgOfs p = 0#32 ∧ isKernelVaddr p = true)
    (hinit : pagingInit text ramPages mem given = some (base, mem')) : BaseDir mem' base given := by
  cases given with
  | nil => cases hinit
  | cons pd pages =>
    obtain ⟨s, hloop, hinit⟩ := Option.bind_eq_some_iff.mp hinit
    cases hinit
    obtain ⟨hpd, hpages⟩ := nodup_cons.mp hnodup
    have hnull : (0#32 : Word) ≠ base := by
      rintro rfl
      exact absurd (hgiven _ mem_cons_self).2 (by decide)
    have hzero : ∀ i, fillPage mem base 0#32 base i = 0#32 := fun i => fillPage_self
    have hstart : Building base (base :: pages) (fillPage mem base 0#32, 0#32, pages) := by
      refine ⟨⟨[base], ⟨⟨mem_singleton_self base, fun i hi => (hi (hzero i)).elim, ?_⟩,
        fun i _ => hzero i⟩, cons_subset_cons _ (nil_subset pages), fun p hp => ?_⟩, hnull,
        hpages, subset_cons_self base pages⟩
      · intro i j p hi
        rw [tableAt, if_pos (hzero i)] at hi
        cases hi
      · obtain ⟨haligned, hkernel⟩ := hgiven p (mem_cons_of_mem _ hp)
        exact ⟨haligned, hkernel, fun he => hpd (mem_singleton.mp he ▸ hp)⟩
    have hend := Run.invariant (fun s page s' (h : Building base _ s) _ hmap => h.mapRam hmap)
      (Run.of_foldlM hloop) hstart
    obtain ⟨used, hdir, hused, -⟩ := hend.dir
    exact ⟨hdir.shape.mono hused, hdir.noUser⟩

/-- **`pagedir_create`** copies the base directory. -/
theorem Refines.create (h : BaseDir mem k.basePageDir used) (hpd : Fresh used pd) :
    ∃ mem', pagedirCreate k.basePageDir mem (some pd) = (some pd, mem') ∧
      Refines k pd ⟨mem', pd :: used, fun _ => none⟩ ∧
      ∀ va, entry mem' pd va = entry mem k.basePageDir va := by
  have hcopy := h.shape.copy hpd.unused
  have hentry : ∀ va, entry (update mem pd (mem k.basePageDir)) pd va =
      entry mem k.basePageDir va := fun va => h.shape.entry_copy hpd.unused _ _
  refine ⟨_, rfl, ⟨hcopy.mono fun _ => mem_cons.mpr, ?_, ?_, fun va hva => ?_,
    fun _ _ _ _ => nofun⟩, hentry⟩
  · rintro rfl
    exact absurd hpd.kernel (by decide)
  · rintro rfl
    exact hpd.unused h.shape.root_used
  · have hnone : table mem k.basePageDir (pdNo va) = none :=
      (tableAt_eq_none h.shape).mpr (h.noUser _ (isUserVaddr_iff.mp hva))
    show entry (update mem pd (mem k.basePageDir)) pd va &&& PTE_P ≠ 0#32 ↔ _
    rw [hentry, entry_of_none hnone, BitVec.zero_and]
    exact ⟨fun hne => (hne rfl).elim, fun hne => (hne rfl).elim⟩

end

/-! ## A finite map on user pages -/

/-- What the functions make of directory `pd`, a copy of the base directory in memory `base`. -/
structure FiniteMap (k : Kernel) (base : Memory) (pd : Word) (s : Dir) : Prop where
  get : ∀ uaddr, isUserVaddr uaddr = true →
    pagedirGetPage s.mem pd uaddr = some ((s.pages (pgNo uaddr)).map fun e => e.1 + pgOfs uaddr)
  writable : ∀ uaddr kpage writable, isUserVaddr uaddr = true →
    s.pages (pgNo uaddr) = some (kpage, writable) →
      (entry s.mem pd uaddr &&& PTE_W ≠ 0#32 ↔ writable = true)
  dirty : ∀ va, pagedirIsDirty s.mem pd va = some (decide (entry s.mem pd va &&& PTE_D ≠ 0#32))
  accessed : ∀ va, pagedirIsAccessed s.mem pd va = some (decide (entry s.mem pd va &&& PTE_A ≠ 0#32))
  kernel : ∀ va, isKernelVaddr va = true →
    entry s.mem pd va &&& MAPPING = entry base k.basePageDir va &&& MAPPING
  calls : ∀ a, s.Admits k pd a → ∃ s', s.step k pd a = some s' ∧ Leaves pd a.addr s.mem s'.mem
  failed : ∀ upage kpage writable page mem',
    pagedirSetPage k s.mem pd upage kpage writable page = some (false, mem') → mem' = s.mem
  destroyed : Apart pd s → ∃ freed, pagedirDestroy k s.mem pd = some freed ∧ freed.Nodup ∧
    ∀ p, p ∈ freed ↔ (∃ va, s.Maps va p) ∨ UserTable s.mem pd p ∨ p = pd

section
variable {k : Kernel} {base : Memory} {pd : Word} {s : Dir}

theorem Refines.get (h : Refines k pd s) {uaddr : Word} (huser : isUserVaddr uaddr = true) :
    pagedirGetPage s.mem pd uaddr = some ((s.pages (pgNo uaddr)).map fun e => e.1 + pgOfs uaddr) := by
  have hpresent := h.present uaddr huser
  rw [pagedirGetPage_eq h.shape h.notNull huser]
  cases hpages : s.pages (pgNo uaddr) with
  | none =>
    rw [hpages] at hpresent
    rw [if_neg fun hp => hpresent.mp hp rfl]
    rfl
  | some e =>
    rw [hpages] at hpresent
    rw [if_pos (hpresent.mpr nofun), (h.mapped uaddr e.1 e.2 huser hpages).1]
    rfl

theorem Refines.finiteMap (h : Refines k pd s) (hkernel : ∀ va, isKernelVaddr va = true →
      entry s.mem pd va &&& MAPPING = entry base k.basePageDir va &&& MAPPING) :
    FiniteMap k base pd s where
  get _ := h.get
  writable uaddr kpage writable huser hmap := (h.mapped uaddr kpage writable huser hmap).2
  dirty := isFlagged_eq h.shape h.notNull PTE_D
  accessed := isFlagged_eq h.shape h.notNull PTE_A
  kernel := hkernel
  calls _ hok := by
    obtain ⟨s', hstep, -, hleaves⟩ := h.step hok
    exact ⟨s', hstep, hleaves⟩
  failed _ _ _ _ _ := pagedirSetPage_failed
  destroyed := h.destroy

/-- **A page directory is a finite map on user pages** after every sequence of calls. -/
theorem page_directory_is_finite_map {mem : Memory} {used : List Word} {as : List Act}
    (hbase : BaseDir base k.basePageDir used) (hpd : Fresh used pd)
    (hcreate : pagedirCreate k.basePageDir base (some pd) = (some pd, mem))
    (hrun : Run (Dir.step k pd) (Dir.Admits k pd) ⟨mem, pd :: used, fun _ => none⟩ as s) :
    FiniteMap k base pd s := by
  obtain ⟨mem', hcreate', hrefines, hentry⟩ := Refines.create hbase hpd
  cases hcreate.symm.trans hcreate'
  obtain ⟨h, hkernel⟩ := Run.invariant
    (I := fun s => Refines k pd s ∧ ∀ va, isKernelVaddr va = true →
      entry s.mem pd va &&& MAPPING = entry base k.basePageDir va &&& MAPPING)
    (fun s a s' ⟨h, hkernel⟩ hok hstep => by
      obtain ⟨s1, hstep', h', hleaves⟩ := h.step hok
      cases hstep.symm.trans hstep'
      exact ⟨h', fun va hva => (hleaves.kernel va hva).trans (hkernel va hva)⟩)
    hrun ⟨hrefines, fun va _ => by rw [hentry]⟩
  exact h.finiteMap hkernel

end

/-! ### A directory with one page -/

instance {used : List Word} {page : Word} : Decidable (Fresh used page) :=
  decidable_of_iff (pgOfs page = 0#32 ∧ isKernelVaddr page = true ∧ page ∉ used)
    ⟨fun ⟨ha, hk, hu⟩ => ⟨ha, hk, hu⟩, fun ⟨ha, hk, hu⟩ => ⟨ha, hk, hu⟩⟩

instance {k : Kernel} {pd upage kpage : Word} : Decidable (SetArgs k pd upage kpage) :=
  decidable_of_iff (pgOfs upage = 0#32 ∧ isUserVaddr upage = true ∧ pgOfs kpage = 0#32 ∧
      isKernelVaddr kpage = true ∧
      (vtop kpage).any (fun paddr : Word => (paddr >>> PTSHIFT).toNat < k.ramPages) = true ∧
      pd ≠ k.basePageDir)
    ⟨fun ⟨h1, h2, h3, h4, h5, h6⟩ => ⟨h1, h2, h3, h4, h5, h6⟩,
      fun ⟨h1, h2, h3, h4, h5, h6⟩ => ⟨h1, h2, h3, h4, h5, h6⟩⟩

instance {k : Kernel} {pd : Word} {s : Dir} {a : Act} : Decidable (s.Admits k pd a) :=
  match a with
  | .setPage upage kpage _ page =>
    decidable_of_iff (SetArgs k pd upage kpage ∧ s.pages (pgNo upage) = none ∧
        page.all (fun p => decide (Fresh s.used p)) = true)
      (and_congr_right fun _ => and_congr_right fun _ =>
        (Option.all_eq_true _ _).trans (forall₂_congr fun _ _ => decide_eq_true_iff))
  | .clearPage upage => inferInstanceAs (Decidable (pgOfs upage = 0#32 ∧ isUserVaddr upage = true))
  | .setDirty _ _ | .setAccessed _ _ => inferInstanceAs (Decidable True)

def smallKernel : Kernel := ⟨0xc0100000#32, 1024⟩

def bootPages : List Word := [0xc0100000#32, 0xc0101000#32]
def dirPage : Word := 0xc0102000#32

def Dir.ofBase (base : Memory) : Dir :=
  ⟨(pagedirCreate smallKernel.basePageDir base (some dirPage)).2, dirPage :: bootPages, fun _ => none⟩

/-- A run on a copy of the directory that `paging_init` has made when its first page is mapped,
from the computed last state. -/
theorem smallKernel_run (as : List Act) (P : Dir → Prop)
    (h : ∃ base, pagingInit (fun _ => false) 1 (fun _ _ => 0#32) bootPages =
      some (smallKernel.basePageDir, base) ∧ ∃ s, Run (Dir.step smallKernel dirPage)
        (Dir.Admits smallKernel dirPage) (Dir.ofBase base) as s ∧ P s) :
    ∃ base s, BaseDir base smallKernel.basePageDir bootPages ∧
      Run (Dir.step smallKernel dirPage) (Dir.Admits smallKernel dirPage) (Dir.ofBase base) as s ∧
      P s := by
  obtain ⟨base, hinit, s, hrun, hp⟩ := h
  have hpages : ∀ p ∈ bootPages, pgOfs p = 0#32 ∧ isKernelVaddr p = true :=
    forall_mem_cons.mpr ⟨by decide, forall_mem_cons.mpr ⟨by decide, nofun⟩⟩
  exact ⟨base, s, pagingInit_base (by decide) hpages hinit, hrun, hp⟩

/-- One page is set, and its address looked up. -/
theorem page_directory_is_finite_map_one_page : ∃ base s,
    Run (Dir.step smallKernel dirPage) (Dir.Admits smallKernel dirPage) (Dir.ofBase base)
      [.setPage 0x08048000#32 0xc0200000#32 true (some 0xc0103000#32),
        .setAccessed 0x08048000#32 true] s ∧
    FiniteMap smallKernel base dirPage s ∧
    pagedirGetPage s.mem dirPage 0x08048123#32 = some (some 0xc0200123#32) := by
  obtain ⟨base, s, hbase, hrun, hpages⟩ := smallKernel_run
    [.setPage 0x08048000#32 0xc0200000#32 true (some 0xc0103000#32), .setAccessed 0x08048000#32 true]
    (fun s => s.pages (pgNo 0x08048123#32) = some (0xc0200000#32, true)) (by decide +kernel)
  have hmap := page_directory_is_finite_map hbase (by decide) rfl hrun
  refine ⟨base, s, hrun, hmap, ?_⟩
  rw [hmap.get _ (by decide), hpages]
  rfl

/-- A directory that is mapped as a user page is freed twice. -/
theorem mapped_directory_is_freed_twice : ∃ base s, BaseDir base smallKernel.basePageDir bootPages ∧
    Run (Dir.step smallKernel dirPage) (Dir.Admits smallKernel dirPage) (Dir.ofBase base)
      [.setPage 0x08048000#32 dirPage true (some 0xc0103000#32)] s ∧
    pagedirDestroy smallKernel s.mem dirPage = some [dirPage, 0xc0103000#32, dirPage] := by
  obtain ⟨base, s, hbase, hrun, hfreed⟩ := smallKernel_run
    [.setPage 0x08048000#32 dirPage true (some 0xc0103000#32)]
    (fun s => pagedirDestroy smallKernel s.mem dirPage = some [dirPage, 0xc0103000#32, dirPage])
    (by decide +kernel)
  exact ⟨base, s, hbase, hrun, hfreed⟩

end Pintos.UserProg.Pagedir
