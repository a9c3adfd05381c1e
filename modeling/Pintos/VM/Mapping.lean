import Pintos.VM.Paging

/-!
# Mapped files (`mmap` and `munmap` of `userprog/syscall.c`, `process_exit`)

`mmap` makes an entry for each page of the file, one after the other, and an element of
`list_mmap` that points to it. `munmap` goes over `list_mmap` and frees the pages with the
given id, and so does `process_exit` for all of them. What both leave in the
supplemental page table is the address of an entry that has been freed.

The element that `mmap` puts into `list_mmap` is known by the entry it points to.
`process_exit` is modelled up to its memory: the files and the directory it closes are not
part of the state.
-/

namespace Pintos.VM

open Lib FileSys UserProg Function List Option

namespace Mem

/-! ## mmap -/

/-- The entry at `ptr` gets the id of the mapping, and an element of `list_mmap`. -/
def label (s : Mem) (p ptr : Nat) (e : Spte) : Mem :=
  { s.setSpte ptr { e with mapId := some (s.mapId p) } with
    listMmap := update s.listMmap p (s.listMmap p ++ [ptr]) }

/-- The rest of a turn of the loop of `mmap`, for the entry at `ptr`, be it new or not. -/
def mapEntry (s : Mem) (p ptr : Nat) : Option (Bool × Mem) := do
  let e ← s.heap ptr
  let (success, s) ← (s.label p ptr e).pageInsert p ptr
  if success then some (true, s)
  else
    -- the element that has just been put at the end
    some (false, { s with listMmap := update s.listMmap p (s.listMmap p).dropLast })

def mapPage (s : Mem) (p file : Nat) (addr : UInt32) (pageReadBytes offset : Nat) :
    Option (Bool × Mem) := do
  match ← s.findPage p addr with
  | none =>
    let (ptr, s) ← s.allocatePage p addr false .createMmap pageReadBytes (4096 - pageReadBytes)
      file offset true
    s.mapEntry p ptr
  | some ptr => s.mapEntry p ptr

def mapPages (s : Mem) (p file : Nat) : Nat → UInt32 → Nat → Nat → Option (Bool × Mem)
  | 0, _, _, _ => some (true, s)
  | n + 1, addr, readBytes, offset => do
    let pageReadBytes := min readBytes 4096
    let (success, s) ← s.mapPage p file addr pageReadBytes offset
    if success then
      mapPages s p file n (addr + PGSIZE) (readBytes - pageReadBytes) (offset + pageReadBytes)
    else some (false, s)

def pageCount (length : Nat) : Nat := (length + 4095) / 4096

def fileReopen (s : Mem) (file : Nat) : Mem :=
  let f := s.inode file
  { s with inode := update s.inode file { f with openCnt := f.openCnt + 1 } }

def mmap (s : Mem) (p fd : Nat) (addr : UInt32) : Option (Int × Mem) :=
  match s.fds p fd with
  | none => some (-1, s)
  | some file =>
    if pgOfs addr ≠ 0 ∨ addr = 0 then some (-1, s)
    else
      let s := s.fileReopen file
      let length := (s.inode file).length
      if length = 0 then some (-1, s)
      else do
        let (success, s) ← s.mapPages p file (pageCount length) addr length 0
        if success then
          some (s.mapId p, { s with mapId := update s.mapId p (s.mapId p + 1) })
        else some (-1, s)

/-! ## munmap -/

/-- `file_write_at` from the page of `e`, through the page directory. There is no value
where the page is not present: `munmap` holds `lock_frame`, and `page_handling` asserts
that it does not. -/
def writeBack (s : Mem) (p : Nat) (e : Spte) : Option Mem :=
  if 0 < (s.inode e.file).denyWriteCnt then some s
  else if (s.pagedir p e.userVaddr).present then
    some { s.pagedirSetAccessed p e.userVaddr true with
      inode := update s.inode e.file
        ((s.inode e.file).writeAt (s.ram (s.pagedir p e.userVaddr).frame) e.readBytes e.offset) }
  else none

def saveDirty (s : Mem) (p : Nat) (e : Spte) : Option Mem :=
  if s.pagedirIsDirty p e.userVaddr then s.writeBack p e else some s

def unmapPage (s : Mem) (p ptr : Nat) (e : Spte) : Option Mem := do
  let s ← s.saveDirty p e
  let s ← s.freeFrame (s.pagedirGetPage p e.userVaddr)
  let s ← s.freePage p ptr
  some { s with listMmap := update s.listMmap p ((s.listMmap p).erase ptr) }

/-- The loop of `munmap` over the rest of `list_mmap`. -/
def unmapPages (s : Mem) (p mapid : Nat) : List Nat → Option Mem
  | [] => some s
  | ptr :: rest => do
    let e ← s.heap ptr
    if e.mapId = some mapid then do
      let s ← s.unmapPage p ptr e
      unmapPages s p mapid rest
    else unmapPages s p mapid rest

def munmap (s : Mem) (p mapid : Nat) : Option Mem := s.unmapPages p mapid (s.listMmap p)

/-! ## process_exit -/

/-- `file_write_at` in `process_exit`, which does not hold `lock_frame`: a page that is
not present is brought in. -/
def writeBackFaulting (s : Mem) (p : Nat) (e : Spte) : Option Mem :=
  if (s.inode e.file).denyWriteCnt = 0 ∧ (s.pagedir p e.userVaddr).present = false then do
    let s ← s.pageFault p e.userVaddr 0
    s.writeBack p e
  else s.writeBack p e

def writeBackAll (s : Mem) (p : Nat) : List Nat → Option Mem
  | [] => some s
  | ptr :: rest => do
    let e ← s.heap ptr
    if s.pagedirIsDirty p e.userVaddr then do
      let s ← s.writeBackFaulting p e
      writeBackAll s p rest
    else writeBackAll s p rest

def freePages (s : Mem) (p : Nat) : List Nat → Option Mem
  | [] => some s
  | ptr :: rest => do
    let s ← s.freePage p ptr
    freePages s p rest

/-- `process_exit`. When `pagedir_destroy` is called no page is present, and it has no
frame to free. -/
def processExit (s : Mem) (p : Nat) : Option Mem := do
  let s ← s.writeBackAll p (s.listMmap p)
  let s ← s.freePages p (s.listMmap p)
  let s := { s with listMmap := update s.listMmap p [] }
  let s ← s.freePages p (s.supPageTable p)
  some { s with
    supPageTable := update s.supPageTable p []
    pagedir := update s.pagedir p fun _ => Pte.zero
    alive := update s.alive p false }

end Mem

inductive Call where
  | act (a : Act)
  | mmap (p fd : Nat) (addr : UInt32)
  | munmap (p mapid : Nat)
  | exit (p : Nat)

namespace Mem

def call (s : Mem) : Call → Option Mem
  | .act a => s.step a
  | .mmap p fd addr => if s.alive p then (s.mmap p fd addr).map (·.2) else none
  | .munmap p mapid => if s.alive p then s.munmap p mapid else none
  | .exit p => if s.alive p then s.processExit p else none

/-! ## A page is mapped -/

/-- The state after a turn of the loop of `mmap` that has made the entry `e`. -/
def mapped (s : Mem) (p : Nat) (e : Spte) : Mem :=
  { (s.fresh e).enter p s.next e with
    listMmap := update s.listMmap p (s.listMmap p ++ [s.next]) }

def mapSpte (s : Mem) (p file : Nat) (addr : UInt32) (readBytes offset : Nat) : Spte :=
  s.newSpte p addr false .createMmap readBytes (4096 - readBytes) file offset true

section
variable {s s' : Mem} {p file ptr : Nat} {addr : UInt32} {readBytes offset : Nat}

@[simp] theorem label_heap (s : Mem) (p ptr : Nat) (e : Spte) :
    (s.label p ptr e).heap ptr = some { e with mapId := some (s.mapId p) } :=
  update_self ..

/-- An entry that is in the table already is not entered again. -/
theorem mapEntry_listed {r : Bool × Mem} (hmem : ptr ∈ s.supPageTable p) (h : s.mapEntry p ptr = some r) :
    r.1 = false := by
  obtain ⟨e, he, h⟩ := bind_eq_some_iff.mp h
  obtain ⟨⟨b, s₁⟩, hins, h⟩ := bind_eq_some_iff.mp h
  cases b with
  | false =>
    cases h
    rfl
  | true =>
    obtain ⟨-, hall⟩ := pageInsert_new (label_heap s p ptr e) hins rfl
    obtain ⟨x, hx, hne⟩ := hall ptr hmem
    cases Option.some.inj ((label_heap s p ptr e).symm.trans hx)
    exact absurd rfl hne

theorem mapPage_success (h : s.mapPage p file addr readBytes offset = some (true, s')) :
    isKernelVaddr addr = false ∧ s.findPage p addr = some none ∧
      s' = s.mapped p (s.mapSpte p file addr readBytes offset) := by
  obtain ⟨r, hfind, h⟩ := bind_eq_some_iff.mp h
  cases r with
  | some ptr => cases mapEntry_listed (search_found hfind).1 h
  | none =>
    obtain ⟨⟨ptr, s₁⟩, hal, h⟩ := bind_eq_some_iff.mp h
    obtain ⟨huser, rfl, rfl⟩ := allocatePage_cases hal
    refine ⟨huser, hfind, ?_⟩
    obtain ⟨e, he, h⟩ := bind_eq_some_iff.mp h
    cases Option.some.inj ((fresh_heap s _).symm.trans he)
    obtain ⟨⟨b, s₁⟩, hins, h⟩ := bind_eq_some_iff.mp h
    cases b with
    | false => cases h
    | true =>
      cases h
      obtain ⟨rfl, -⟩ := pageInsert_new (label_heap _ p _ _) hins rfl
      -- the entry had the id of the mapping before
      simp [label, enter, setSpte, mapped, fresh, mapSpte, newSpte]

/-! ## The pages of a mapping -/

def pageAddr (addr : UInt32) (i : Nat) : UInt32 := addr + UInt32.ofNat i * PGSIZE

theorem pageAddr_zero (addr : UInt32) : pageAddr addr 0 = addr := by
  simp [pageAddr]

theorem pageAddr_succ (addr : UInt32) (i : Nat) : pageAddr (addr + PGSIZE) i = pageAddr addr (i + 1) := by
  apply UInt32.toNat.inj
  simp only [pageAddr, PGSIZE, UInt32.toNat_add, UInt32.toNat_mul, UInt32.toNat_ofNat']
  rw [show UInt32.toNat 4096 = 4096 from rfl]
  omega

def pageSpte (s : Mem) (p file : Nat) (addr : UInt32) (readBytes offset i : Nat) : Spte :=
  s.mapSpte p file (pageAddr addr i) (min (readBytes - 4096 * i) 4096) (offset + min readBytes (4096 * i))

def mappedPages (s : Mem) (p file n : Nat) (addr : UInt32) (readBytes offset : Nat) : Mem :=
  { s with
    heap := fun ptr =>
      if s.next ≤ ptr ∧ ptr < s.next + n then some (s.pageSpte p file addr readBytes offset (ptr - s.next))
      else s.heap ptr
    next := s.next + n
    supPageTable := update s.supPageTable p (s.supPageTable p ++ List.range' s.next n)
    listMmap := update s.listMmap p (s.listMmap p ++ List.range' s.next n) }

variable {n : Nat}

theorem pageSpte_succ (i : Nat) :
    (s.mapped p e).pageSpte p file (addr + PGSIZE) (readBytes - min readBytes 4096)
      (offset + min readBytes 4096) i = s.pageSpte p file addr readBytes offset (i + 1) := by
  unfold pageSpte
  rw [pageAddr_succ, show min (readBytes - min readBytes 4096 - 4096 * i) 4096 =
      min (readBytes - 4096 * (i + 1)) 4096 by omega,
    show offset + min readBytes 4096 + min (readBytes - min readBytes 4096) (4096 * i) =
      offset + min readBytes (4096 * (i + 1)) by omega]
  rfl

theorem mappedPages_succ :
    (s.mapped p (s.mapSpte p file addr (min readBytes 4096) offset)).mappedPages p file n (addr + PGSIZE)
      (readBytes - min readBytes 4096) (offset + min readBytes 4096) =
    s.mappedPages p file (n + 1) addr readBytes offset := by
  have hrange : List.range' s.next (n + 1) = s.next :: List.range' (s.next + 1) n := range'_succ ..
  unfold mappedPages
  simp only [pageSpte_succ]
  simp only [mapped, enter, fresh, setSpte, update_self, update_idem, hrange]
  congr 1
  · funext ptr
    by_cases hptr : ptr = s.next
    · subst hptr
      rw [if_neg (by omega), if_pos (by omega), update_self, Nat.sub_self, pageSpte, pageAddr_zero]
      simp
    · rw [update_of_ne hptr]
      by_cases hin : s.next + 1 ≤ ptr ∧ ptr < s.next + 1 + n
      · rw [if_pos hin, if_pos (by omega), show ptr - (s.next + 1) + 1 = ptr - s.next by omega]
      · rw [if_neg hin, if_neg (by omega)]
  · omega
  · rw [append_assoc, singleton_append]
  · rw [append_assoc, singleton_append]

/-- **A loop that succeeds** has made an entry for every page. -/
theorem mapPages_success (h : s.mapPages p file n addr readBytes offset = some (true, s')) :
    s' = s.mappedPages p file n addr readBytes offset := by
  induction n generalizing s addr readBytes offset with
  | zero =>
    have hs : s' = s := by
      cases h
      rfl
    have hheap : (fun ptr => if s.next ≤ ptr ∧ ptr < s.next + 0 then
        some (s.pageSpte p file addr readBytes offset (ptr - s.next)) else s.heap ptr) = s.heap :=
      funext fun ptr => if_neg (by omega)
    rw [hs, mappedPages, hheap, range'_zero, append_nil, append_nil,
      update_eq_self, update_eq_self, Nat.add_zero]
  | succ n ih =>
    obtain ⟨⟨b, s₁⟩, hpage, h⟩ := bind_eq_some_iff.mp h
    cases b with
    | false => cases h
    | true =>
      obtain ⟨-, -, rfl⟩ := mapPage_success hpage
      rw [ih h, mappedPages_succ]

theorem mappedPages_table (s : Mem) (p file : Nat) (addr : UInt32) (readBytes offset : Nat)
    {i : Nat} (hi : i < n) :
    s.next + i ∈ (s.mappedPages p file n addr readBytes offset).supPageTable p ∧
      s.next + i ∈ (s.mappedPages p file n addr readBytes offset).listMmap p := by
  have hmem : s.next + i ∈ List.range' s.next n := mem_range'_1.mpr (by omega)
  simp only [mappedPages, update_self]
  exact ⟨mem_append_right _ hmem, mem_append_right _ hmem⟩

theorem mappedPages_heap {i : Nat} (hi : i < n) :
    (s.mappedPages p file n addr readBytes offset).heap (s.next + i) =
      some (s.pageSpte p file addr readBytes offset i) := by
  show (if _ then _ else _) = _
  rw [if_pos (by omega), Nat.add_sub_cancel_left]

/-- **`mmap` that returns an id** has mapped every page of the file. -/
theorem mmap_success {fd : Nat} {id : Int} (h : s.mmap p fd addr = some (id, s')) (hid : id ≠ -1) :
    ∃ file, s.fds p fd = some file ∧ pgOfs addr = 0 ∧ 0 < (s.inode file).length ∧ id = s.mapId p ∧
      (s.fileReopen file).mapPages p file (pageCount (s.inode file).length) addr (s.inode file).length 0 =
        some (true, (s.fileReopen file).mappedPages p file (pageCount (s.inode file).length) addr
          (s.inode file).length 0) ∧
      s' = { (s.fileReopen file).mappedPages p file (pageCount (s.inode file).length) addr
          (s.inode file).length 0 with mapId := update s.mapId p (s.mapId p + 1) } := by
  unfold mmap at h
  cases hfile : s.fds p fd with
  | none =>
    rw [hfile] at h
    cases h
    exact absurd rfl hid
  | some file =>
    have hlen : ((s.fileReopen file).inode file).length = (s.inode file).length := by
      simp [fileReopen]
    rw [hfile] at h
    dsimp only at h
    rw [hlen] at h
    split at h
    · cases h
      exact absurd rfl hid
    · next haddr =>
      split at h
      · cases h
        exact absurd rfl hid
      · next hpos =>
        obtain ⟨⟨b, s₁⟩, hpages, h⟩ := bind_eq_some_iff.mp h
        cases b with
        | false =>
          cases h
          exact absurd rfl hid
        | true =>
          have hs1 := mapPages_success hpages
          cases h
          subst hs1
          exact ⟨file, rfl, (not_or.mp haddr).1 |> not_not.mp, Nat.pos_of_ne_zero hpos, rfl, hpages, rfl⟩

/-! ## munmap frees the entries -/

variable {mapid : Nat} {e : Spte}

theorem freeFrame_cases {frame : Option Nat} (h : s.freeFrame frame = some s') :
    s' = s ∨ ∃ fte, s.frameTable.find? (fun fte => some fte.frame = frame) = some fte ∧
      s.usedMap[fte.frame]? = some true ∧ s' = { s with
        frameTable := s.frameTable.erase fte
        usedMap := s.usedMap.set fte.frame false
        ram := update s.ram fte.frame (Arr.const 0xcc) } := by
  unfold freeFrame at h
  split at h
  · cases h
    exact .inl rfl
  · next fte hfind =>
    unfold pallocFreePage at h
    split at h
    · next hused =>
      cases h
      exact .inr ⟨fte, hfind, hused, rfl⟩
    · cases h

/-- What `free_frame` does not change. -/
theorem freeFrame_rest {frame : Option Nat} (h : s.freeFrame frame = some s') :
    SameRest s s' ∧ s'.heap = s.heap ∧ s'.pagedir = s.pagedir ∧ s'.swap = s.swap := by
  rcases freeFrame_cases h with rfl | ⟨fte, -, -, rfl⟩
  · exact ⟨(by constructor <;> rfl), rfl, rfl, rfl⟩
  · exact ⟨(by constructor <;> rfl), rfl, rfl, rfl⟩

theorem freePage_heap (h : s.freePage p ptr = some s') :
    SameRest s s' ∧ s'.heap = update s.heap ptr none ∧ s'.swap = s.swap := by
  obtain ⟨e, he, h⟩ := bind_eq_some_iff.mp h
  obtain ⟨s₁, hunload, h⟩ := bind_eq_some_iff.mp h
  obtain ⟨x, hx, h⟩ := bind_eq_some_iff.mp h
  cases h
  unfold unload at hunload
  split at hunload
  · obtain ⟨s₂, hfree, hunload⟩ := bind_eq_some_iff.mp hunload
    cases hunload
    obtain ⟨hrest, hheap, -, hswap⟩ := freeFrame_rest hfree
    refine ⟨hrest.trans (by constructor <;> rfl), ?_, hswap⟩
    show update s₂.heap ptr none = _
    rw [hheap]
  · cases hunload
    exact ⟨(by constructor <;> rfl), rfl, rfl⟩

theorem writeBack_rest (h : s.writeBack p e = some s') :
    s'.supPageTable = s.supPageTable ∧ s'.heap = s.heap ∧ s'.listMmap = s.listMmap := by
  unfold writeBack at h
  split at h
  · cases h
    exact ⟨rfl, rfl, rfl⟩
  · split at h
    · cases h
      exact ⟨rfl, rfl, rfl⟩
    · cases h

theorem saveDirty_rest (h : s.saveDirty p e = some s') :
    s'.supPageTable = s.supPageTable ∧ s'.heap = s.heap ∧ s'.listMmap = s.listMmap := by
  unfold saveDirty at h
  split at h
  · exact writeBack_rest h
  · cases h
    exact ⟨rfl, rfl, rfl⟩

theorem unmapPage_heap (h : s.unmapPage p ptr e = some s') :
    s'.supPageTable = s.supPageTable ∧ s'.heap = update s.heap ptr none := by
  obtain ⟨s₁, hsave, h⟩ := bind_eq_some_iff.mp h
  obtain ⟨s₂, hframe, h⟩ := bind_eq_some_iff.mp h
  obtain ⟨s3, hpage, h⟩ := bind_eq_some_iff.mp h
  cases h
  obtain ⟨htable, hheap, -⟩ := saveDirty_rest hsave
  obtain ⟨hrest2, hheap2, -⟩ := freeFrame_rest hframe
  obtain ⟨hrest3, hheap3, -⟩ := freePage_heap hpage
  refine ⟨hrest3.tables.trans (hrest2.tables.trans htable), ?_⟩
  show s3.heap = _
  rw [hheap3, hheap2, hheap]

theorem unmapPages_heap {l : List Nat} (h : s.unmapPages p mapid l = some s') :
    s'.supPageTable = s.supPageTable ∧ (∀ ptr, s.heap ptr = none → s'.heap ptr = none) ∧
      ∀ ptr ∈ l, ∀ e, s.heap ptr = some e → e.mapId = some mapid → s'.heap ptr = none := by
  induction l generalizing s with
  | nil =>
    cases h
    exact ⟨rfl, fun _ => id, by simp⟩
  | cons hd rest ih =>
    obtain ⟨x, hx, h⟩ := bind_eq_some_iff.mp h
    split at h
    · -- the entry has the id, and is freed in this turn
      obtain ⟨s₁, hunmap, h⟩ := bind_eq_some_iff.mp h
      obtain ⟨htable, hheap⟩ := unmapPage_heap hunmap
      obtain ⟨ihtable, ihnone, ihfreed⟩ := ih h
      have hkeep : ∀ ptr, ptr = hd ∨ s.heap ptr = none → s'.heap ptr = none := by
        intro ptr hptr
        refine ihnone ptr ?_
        rw [hheap]
        by_cases heq : ptr = hd
        · rw [heq, update_self]
        · rw [update_of_ne heq]
          exact hptr.resolve_left heq
      refine ⟨ihtable.trans htable, fun ptr hptr => hkeep ptr (.inr hptr), fun ptr hmem e he hid => ?_⟩
      by_cases heq : ptr = hd
      · exact hkeep ptr (.inl heq)
      · refine ihfreed ptr ((mem_cons.mp hmem).resolve_left heq) e ?_ hid
        rw [hheap, update_of_ne heq]
        exact he
    · next hne =>
      obtain ⟨ihtable, ihnone, ihfreed⟩ := ih h
      refine ⟨ihtable, ihnone, fun ptr hmem e he hid => ?_⟩
      rcases mem_cons.mp hmem with rfl | hmem
      · cases Option.some.inj (hx.symm.trans he)
        exact absurd hid hne
      · exact ihfreed ptr hmem e he hid

theorem findPage_freed {a : UInt32} (hmem : ptr ∈ s.supPageTable p) (hfree : s.heap ptr = none) :
    s.findPage p a ≠ some none := by
  intro hfind
  obtain ⟨x, hx, -⟩ := search_absent hfind ptr hmem
  rw [hfree] at hx
  cases hx

/-! ## munmap does not undo mmap -/

/-- What `munmap` of a mapping at `addr` should leave: `s` is the state before it. -/
structure Undone (s s' : Mem) (p mapid fd : Nat) (addr : UInt32) : Prop where
  table : ∀ {ptr e}, s.Owns p ptr e → e.mapId = some mapid → ptr ∉ s'.supPageTable p
  list : ∀ {ptr e}, s.Owns p ptr e → e.mapId = some mapid → ptr ∉ s'.listMmap p
  frames : ∀ {ptr e}, s.Owns p ptr e → e.mapId = some mapid → ∀ fte ∈ s'.frameTable, fte.spte ≠ ptr
  absent : ∀ {ptr e}, s.Owns p ptr e → e.mapId = some mapid → (s'.pagedir p e.userVaddr).present = false
  others : ∀ {ptr e}, s.Owns p ptr e → e.mapId ≠ some mapid → s'.Owns p ptr e
  found : ∀ {ptr e}, s.Owns p ptr e → e.mapId = some mapid → s'.findPage p e.userVaddr = some none
  again : ∃ id s'', s'.mmap p fd addr = some (id, s'') ∧ id ≠ -1

variable {s₁ s₂ : Mem} {fd : Nat} {id : Int}

theorem pageCount_pos {length : Nat} (h : 0 < length) : 0 < pageCount length := by
  unfold pageCount
  omega

theorem mmap_page (h : s.mmap p fd addr = some (id, s')) (hid : id ≠ -1) :
    ∃ file, s.fds p fd = some file ∧ 0 < (s.inode file).length ∧
      ∀ i < pageCount (s.inode file).length, ∃ e, s'.Owns p (s.next + i) e ∧
        s.next + i ∈ s'.listMmap p ∧ e.mapId = some id.toNat ∧ e.userVaddr = pageAddr addr i := by
  obtain ⟨file, hfile, -, hlen, rfl, -, rfl⟩ := mmap_success h hid
  refine ⟨file, hfile, hlen, fun i hi => ?_⟩
  obtain ⟨htable, hlist⟩ := mappedPages_table (s.fileReopen file) p file addr (s.inode file).length 0 hi
  exact ⟨_, ⟨htable, mappedPages_heap hi⟩, hlist, rfl, rfl⟩

/-- A mapping of a file starts with a page that was not in the table. -/
theorem findPage_of_mmap (h : s.mmap p fd addr = some (id, s')) (hid : id ≠ -1) :
    s.findPage p addr = some none := by
  obtain ⟨file, -, -, hlen, -, hpages, -⟩ := mmap_success h hid
  obtain ⟨n, hn⟩ := Nat.exists_eq_succ_of_ne_zero (pageCount_pos hlen).ne'
  rw [hn] at hpages
  obtain ⟨⟨b, s₁⟩, hpage, hpages⟩ := bind_eq_some_iff.mp hpages
  cases b with
  | false => cases hpages
  | true => exact (mapPage_success hpage).2.1

end

end Mem

open Mem in
/-- **`munmap` never undoes `mmap`.** The entry of each page of the mapping is freed and
its address stays in the supplemental page table, where the next search for a page that
comes to it reads freed memory; it does not find that there is no page, and the file
cannot be mapped there again. -/
theorem munmap_leaves_entries {s s₁ s₂ : Mem} {p fd : Nat} {addr : UInt32} {id : Int}
    (hmap : s.mmap p fd addr = some (id, s₁)) (hid : id ≠ -1)
    (hunmap : s₁.munmap p id.toNat = some s₂) :
    (∃ file, s.fds p fd = some file ∧ ∀ i < pageCount (s.inode file).length, ∃ e,
      s₁.Owns p (s.next + i) e ∧ e.mapId = some id.toNat ∧ e.userVaddr = pageAddr addr i ∧
      s.next + i ∈ s₂.supPageTable p ∧ s₂.heap (s.next + i) = none ∧
      s₂.findPage p e.userVaddr ≠ some none) ∧
    (∀ id' s₃, s₂.mmap p fd addr = some (id', s₃) → id' = -1) ∧
    ¬ Undone s₁ s₂ p id.toNat fd addr := by
  obtain ⟨file, hfile, hlen, hpages⟩ := mmap_page hmap hid
  obtain ⟨htable, -, hfreed⟩ := unmapPages_heap hunmap
  have hleft : ∀ i < pageCount (s.inode file).length, ∃ e, s₁.Owns p (s.next + i) e ∧
      e.mapId = some id.toNat ∧ e.userVaddr = pageAddr addr i ∧ s.next + i ∈ s₂.supPageTable p ∧
      s₂.heap (s.next + i) = none ∧ s₂.findPage p e.userVaddr ≠ some none := by
    intro i hi
    obtain ⟨e, hown, hlist, hmapId, hva⟩ := hpages i hi
    have hmem : s.next + i ∈ s₂.supPageTable p := htable ▸ hown.1
    have hnone := hfreed _ hlist e hown.2 hmapId
    exact ⟨e, hown, hmapId, hva, hmem, hnone, findPage_freed hmem hnone⟩
  -- the first page of the mapping is enough for the rest
  obtain ⟨e, hown, hmapId, hva, hmem, -, hfind⟩ := hleft 0 (pageCount_pos hlen)
  have hagain : ∀ id' s₃, s₂.mmap p fd addr = some (id', s₃) → id' = -1 := by
    intro id' s₃ hmap'
    by_contra hid'
    refine hfind ?_
    rw [hva, pageAddr_zero]
    exact findPage_of_mmap hmap' hid'
  exact ⟨⟨file, hfile, hleft⟩, hagain, fun hundone => hundone.table hown hmapId hmem⟩

def oneFile : Mem :=
  Mem.start 2 (fun _ => Arr.const 0) 16 (fun _ => Arr.const 0) (fun _ => ⟨1, fun _ => 65, 1, 0⟩)
    fun _ fd => if fd = 2 then some 5 else none

theorem oneFile_unmapped : ∃ s₁ s₂, oneFile.mmap 0 2 0x10000000 = some (0, s₁) ∧
    s₁.munmap 0 0 = some s₂ ∧ s₂.supPageTable 0 = [0] ∧ s₂.heap 0 = none ∧
    s₂.findPage 0 0x10000000 = none := by
  simp only [exists_and_left]
  decide +kernel

/-- The mapping of a file of one byte, unmapped at once. -/
theorem munmap_leaves_entries_one_page : ∃ s₁ s₂, oneFile.mmap 0 2 0x10000000 = some (0, s₁) ∧
    s₁.munmap 0 0 = some s₂ ∧ ¬ Mem.Undone s₁ s₂ 0 0 2 0x10000000 := by
  obtain ⟨s₁, s₂, hmap, hunmap, -⟩ := oneFile_unmapped
  exact ⟨s₁, s₂, hmap, hunmap, (munmap_leaves_entries hmap (by decide) hunmap).2.2⟩

/-- The address of the freed entry stays in the table, and a search reads freed memory. -/
theorem munmap_leaves_freed_entry : ∃ s₁ s₂, oneFile.mmap 0 2 0x10000000 = some (0, s₁) ∧
    s₁.munmap 0 0 = some s₂ ∧ s₂.supPageTable 0 = [0] ∧ s₂.heap 0 = none ∧
    s₂.findPage 0 0x10000000 = none ∧ ¬ Mem.Undone s₁ s₂ 0 0 2 0x10000000 := by
  obtain ⟨s₁, s₂, hmap, hunmap, htable, hheap, hfind⟩ := oneFile_unmapped
  obtain ⟨file, hfile, hlen, hpages⟩ := Mem.mmap_page hmap (by decide)
  obtain ⟨e, hown, -, hmapId, -⟩ := hpages 0 (Mem.pageCount_pos hlen)
  exact ⟨s₁, s₂, hmap, hunmap, htable, hheap, hfind, fun hundone =>
    hundone.table hown hmapId (by rw [htable]; exact mem_singleton_self _)⟩

end Pintos.VM
