import Pintos.FileSys.State
import Pintos.UserProg.Elf

/-!
# Loading an executable (`load` and `load_segment`)

`load` runs on whatever the file holds. It is modelled from the opened file on, with the memory it
registers the pages in and the number of entries that `malloc` can still give out. There is no
value where it does not return: where an assertion fails, and where `grow_stack` goes on with the
null pointer that `allocate_page` has returned.

Opening and closing the file, and the arguments on the stack, are left out.
-/

namespace Pintos.UserProg

open Lib FileSys VM Function List Option

/-- The memory, and how many entries of supplemental page tables `malloc` can still give. -/
structure Loader where
  mem : Mem
  left : Nat

namespace Loader

/-- `allocate_page` for a segment. The pointer is null when `malloc` fails. -/
def allocatePage (s : Loader) (p : Nat) (addr : UInt32) (readBytes zeroBytes file offset : Nat)
    (writable : Bool) : Option (Option Nat × Loader) :=
  if isKernelVaddr addr then none
  else if s.left = 0 then some (none, s)
  else do
    let (ptr, mem) ←
      s.mem.allocatePage p addr false .loadSegment readBytes zeroBytes file offset writable
    some (some ptr, ⟨mem, s.left - 1⟩)

/-- `page_insert` of a pointer that `allocate_page` has returned; `load_segment` asserts that it
is not null. -/
def pageInsert (s : Loader) (p : Nat) : Option Nat → Option (Bool × Loader)
  | none => none
  | some ptr => do
    let (success, mem) ← s.mem.pageInsert p ptr
    some (success, { s with mem := mem })

/-- The loop of `load_segment`. `ofs` holds the bits of an `off_t`. -/
def loadPages (p file : Nat) (writable : Bool) :
    Nat → Loader → (ofs upage readBytes zeroBytes : UInt32) → Option (Bool × Loader)
  | 0, _, _, _, _, _ => none
  | fuel + 1, s, ofs, upage, readBytes, zeroBytes =>
    if readBytes > 0 ∨ zeroBytes > 0 then do
      let pageReadBytes := if readBytes < PGSIZE then readBytes else PGSIZE
      let pageZeroBytes := PGSIZE - pageReadBytes
      let (sptE, s) ← s.allocatePage p upage pageReadBytes.toNat pageZeroBytes.toNat file ofs.toNat writable
      let (success, s) ← s.pageInsert p sptE
      if success then
        loadPages p file writable fuel s (ofs + pageReadBytes) (upage + PGSIZE)
          (readBytes - pageReadBytes) (zeroBytes - pageZeroBytes)
      else some (false, s)
    else some (true, s)

/-- `load_segment`, with the assertion of `file_seek`. The address space has 2^20 pages. -/
def loadSegment (s : Loader) (p file : Nat) (ofs upage readBytes zeroBytes : UInt32) (writable : Bool) :
    Option (Bool × Loader) :=
  if (readBytes + zeroBytes) % PGSIZE = 0 ∧ pgOfs upage = 0 ∧ ofs % PGSIZE = 0 ∧ ofs < 0x80000000 then
    loadPages p file writable 1048577 s ofs upage readBytes zeroBytes
  else none

def programHeaders (f : File) (fileLength p file : Nat) : Nat → Loader → Int → Option (Bool × Loader)
  | 0, s, _ => some (true, s)
  | n + 1, s, fileOfs =>
    if fileOfs < 0 ∨ fileOfs > fileLength then some (false, s)
    else if fileRead f fileOfs.toNat PHDR_SIZE ≠ PHDR_SIZE then some (false, s)
    else
      let phdr := readPhdr f fileOfs.toNat
      if phdr.type = PT_DYNAMIC ∨ phdr.type = PT_INTERP ∨ phdr.type = PT_SHLIB then some (false, s)
      else if phdr.type = PT_LOAD then
        if validateSegment phdr fileLength then do
          let (success, s) ← s.loadSegment p file phdr.filePage phdr.memPage phdr.readBytes
            phdr.zeroBytes phdr.writable
          if success then programHeaders f fileLength p file n s (fileOfs + PHDR_SIZE) else some (false, s)
        else some (false, s)
      else programHeaders f fileLength p file n s (fileOfs + PHDR_SIZE)

/-- `setup_stack`, up to the arguments of the program. -/
def setupStack (s : Loader) (p : Nat) : Option (Bool × Loader) :=
  if s.left = 0 then none
  else do
    let (success, mem) ← s.mem.growStack p (PHYS_BASE - PGSIZE) .growStack
    some (success, ⟨mem, s.left - 1⟩)

/-- `load` of the file, for thread `p`. It returns the entry point where it returns true. -/
def load (s : Loader) (p file fileLength : Nat) : Option (Option UInt32 × Loader) :=
  let f := s.mem.inode file
  let n := fileRead f 0 EHDR_SIZE
  let ehdr := readEhdr f 0
  if n ≠ EHDR_SIZE ∨ !ehdr.verified then
    -- the header is read again, from where the first read has ended
    if fileRead f n EHDR_SIZE ≠ EHDR_SIZE then none
    else if !(readEhdr f n).isElf then none
    else some (none, s)
  else do
    let (success, s) ← programHeaders f fileLength p file ehdr.phnum s (i32 ehdr.phoff.toNat)
    if success then do
      let (success, s) ← s.setupStack p
      some (if success then some ehdr.entry else none, s)
    else some (none, s)

/-! ## What is registered -/

/-- One turn of the loop of `load_segment`, for the entry of a page. -/
def register (s : Loader) (p : Nat) (e : Spte) : Option (Bool × Loader) :=
  if isKernelVaddr e.userVaddr ∨ s.left = 0 then none
  else do
    let (success, mem) ← (s.mem.fresh e).pageInsert p s.mem.next
    some (success, ⟨mem, s.left - 1⟩)

/-- The entries are registered one after the other, until one of them is refused. -/
def registerAll (p : Nat) : Loader → List Spte → Option (Bool × Loader)
  | s, [] => some (true, s)
  | s, e :: rest => do
    let (success, s) ← s.register p e
    if success then registerAll p s rest else some (false, s)

/-- The segments that `load` accepts before it finds a header it refuses, and whether it comes to
the end of the table. -/
def segments (f : File) (fileLength : Nat) : Nat → Int → List Phdr × Bool
  | 0, _ => ([], true)
  | n + 1, fileOfs =>
    if fileOfs < 0 ∨ fileOfs > fileLength then ([], false)
    else if fileRead f fileOfs.toNat PHDR_SIZE ≠ PHDR_SIZE then ([], false)
    else
      let phdr := readPhdr f fileOfs.toNat
      let rest := segments f fileLength n (fileOfs + PHDR_SIZE)
      if phdr.type = PT_DYNAMIC ∨ phdr.type = PT_INTERP ∨ phdr.type = PT_SHLIB then ([], false)
      else if phdr.type = PT_LOAD then
        if validateSegment phdr fileLength then (phdr :: rest.1, rest.2) else ([], false)
      else rest

variable {phdr : Phdr} {f : File}

section
variable {s s' : Loader} {p file : Nat} {writable : Bool}

theorem registerAll_append (s : Loader) (l l' : List Spte) :
    s.registerAll p (l ++ l') = (s.registerAll p l).bind fun r =>
      if r.1 then r.2.registerAll p l' else some (false, r.2) := by
  induction l generalizing s with
  | nil => rfl
  | cons e rest ih =>
    show (s.register p e).bind _ = ((s.register p e).bind _).bind _
    rw [Option.bind_assoc]
    refine congrArg _ (funext fun r => ?_)
    obtain ⟨success, s1⟩ := r
    cases success with
    | true => exact ih s1
    | false => rfl

theorem register_segmentPage (s : Loader) (p file : Nat) (writable : Bool) (ofs upage : UInt32)
    {readBytes : UInt32} (hle : readBytes.toNat ≤ 4096) :
    ((s.allocatePage p upage readBytes.toNat (PGSIZE - readBytes).toNat file ofs.toNat writable).bind
      fun r => r.2.pageInsert p r.1) =
    s.register p (segmentPage file writable ofs.toNat upage.toNat readBytes.toNat) := by
  have hzero : (PGSIZE - readBytes).toNat = 4096 - readBytes.toNat :=
    UInt32.toNat_sub_of_le _ _ (UInt32.le_iff_toNat_le.mpr hle)
  have hpage : segmentPage file writable ofs.toNat upage.toNat readBytes.toNat =
      s.mem.newSpte p upage false .loadSegment readBytes.toNat (PGSIZE - readBytes).toNat file ofs.toNat
        writable := by
    rw [hzero, segmentPage, UInt32.ofNat_toNat, Nat.mod_eq_of_lt ofs.toNat_lt]
    rfl
  rw [hpage]
  unfold allocatePage register
  by_cases hk : isKernelVaddr upage = true
  · rw [if_pos hk, if_pos (.inl hk)]
    rfl
  · by_cases hleft : s.left = 0
    · rw [if_neg hk, if_pos hleft, if_pos (.inr hleft)]
      rfl
    · rw [if_neg hk, if_neg hleft, if_neg (by exact not_or.mpr ⟨hk, hleft⟩), Mem.allocatePage, if_neg hk]
      rfl

/-- **The loop of `load_segment`** registers the pages of the segment, if its sizes are whole
pages in the user's part of the address space. -/
theorem loadPages_eq {n fuel : Nat} {ofs upage readBytes zeroBytes : UInt32} (hfuel : n < fuel)
    (hsize : readBytes.toNat + zeroBytes.toNat = 4096 * n) (hend : upage.toNat + 4096 * n ≤ 3221225472) :
    loadPages p file writable fuel s ofs upage readBytes zeroBytes =
      s.registerAll p (segmentPages file writable n ofs.toNat upage.toNat readBytes.toNat) := by
  induction n generalizing fuel s ofs upage readBytes zeroBytes with
  | zero =>
    obtain ⟨fuel, rfl⟩ := Nat.exists_eq_add_one_of_ne_zero (Nat.ne_of_gt hfuel)
    rw [loadPages, if_neg ?_]
    · rfl
    · rintro (hpos | hpos)
      · have := UInt32.lt_iff_toNat_lt.mp hpos
        omega
      · have := UInt32.lt_iff_toNat_lt.mp hpos
        omega
  | succ n ih =>
    obtain ⟨fuel, rfl⟩ := Nat.exists_eq_add_one_of_ne_zero (Nat.ne_of_gt (Nat.lt_trans (Nat.zero_lt_succ n) hfuel))
    have hpos : readBytes > 0 ∨ zeroBytes > 0 := by
      by_cases hread : 0 < readBytes.toNat
      · exact .inl (UInt32.lt_iff_toNat_lt.mpr hread)
      · exact .inr (UInt32.lt_iff_toNat_lt.mpr (show 0 < zeroBytes.toNat by omega))
    -- the sizes of this page, and what is left after it
    have hmin : (if readBytes < PGSIZE then readBytes else PGSIZE).toNat = min readBytes.toNat 4096 := by
      split
      · rename_i hlt
        exact (Nat.min_eq_left (Nat.le_of_lt (UInt32.lt_iff_toNat_lt.mp hlt))).symm
      · rename_i hge
        exact (Nat.min_eq_right (UInt32.le_iff_toNat_le.mp (UInt32.not_lt.mp hge))).symm
    rw [loadPages, if_pos hpos]
    dsimp only
    generalize (if readBytes < PGSIZE then readBytes else PGSIZE) = page at hmin ⊢
    have hzero : (PGSIZE - page).toNat = 4096 - page.toNat :=
      UInt32.toNat_sub_of_le _ _ (UInt32.le_iff_toNat_le.mpr (show page.toNat ≤ 4096 by omega))
    have hread' : (readBytes - page).toNat = readBytes.toNat - page.toNat :=
      UInt32.toNat_sub_of_le _ _ (UInt32.le_iff_toNat_le.mpr (by omega))
    have hzero' : (zeroBytes - (PGSIZE - page)).toNat = zeroBytes.toNat - (4096 - page.toNat) := by
      rw [UInt32.toNat_sub_of_le _ _ (UInt32.le_iff_toNat_le.mpr (by omega)), hzero]
    have hofs : (ofs + page).toNat = (ofs.toNat + page.toNat) % 4294967296 := UInt32.toNat_add ..
    have hupage : (upage + PGSIZE).toNat = upage.toNat + 4096 := by
      rw [UInt32.toNat_add, show PGSIZE.toNat = 4096 from rfl]
      omega
    rw [segmentPages, ← hmin]
    show ((s.allocatePage p upage page.toNat (PGSIZE - page).toNat file ofs.toNat writable).bind fun r =>
      (r.2.pageInsert p r.1).bind _) = (s.register p _).bind _
    rw [← register_segmentPage s p file writable ofs upage (by omega), Option.bind_assoc]
    refine congrArg _ (funext fun r => congrArg _ (funext fun r' => ?_))
    obtain ⟨success, s1⟩ := r'
    cases success with
    | false => rfl
    | true =>
      have hrest : loadPages p file writable fuel s1 (ofs + page) (upage + PGSIZE) (readBytes - page)
          (zeroBytes - (PGSIZE - page)) = _ := ih (by omega) (by omega) (by omega)
      rw [hofs, hupage, hread', segmentPages_mod] at hrest
      exact hrest

variable {f : File} {fileLength : Nat}

theorem loadSegment_eq (h : Valid phdr fileLength) (hlen : fileLength < 2147483648) :
    s.loadSegment p file phdr.filePage phdr.memPage phdr.readBytes phdr.zeroBytes phdr.writable =
      s.registerAll p (phdr.pages file) := by
  obtain ⟨hsize, hend⟩ := h.sizes
  have hin := h.inFile
  have hfile := phdr.toNat_filePage
  have hpages : (phdr.readBytes + phdr.zeroBytes) % PGSIZE = 0 := by
    refine UInt32.toNat.inj ?_
    rw [UInt32.toNat_mod, UInt32.toNat_add, hsize, show PGSIZE.toNat = 4096 from rfl]
    show _ = 0
    omega
  have hmem : pgOfs phdr.memPage = 0 := by
    rw [Mem.pgOfs_eq, phdr.toNat_memPage, Nat.mul_mod_left]
  have hofs : phdr.filePage % PGSIZE = 0 := by
    refine UInt32.toNat.inj ?_
    rw [UInt32.toNat_mod, hfile, show PGSIZE.toNat = 4096 from rfl, Nat.mul_mod_left]
    rfl
  have hseek : phdr.filePage < 0x80000000 := UInt32.lt_iff_toNat_lt.mpr (show _ < 2147483648 by omega)
  rw [loadSegment, if_pos ⟨hpages, hmem, hofs, hseek⟩]
  exact loadPages_eq (by omega) hsize hend

/-- **The loop over the program headers** registers the pages of the segments it accepts. -/
theorem programHeaders_eq (hlen : fileLength < 2147483648) (n : Nat) (fileOfs : Int) :
    programHeaders f fileLength p file n s fileOfs =
      (s.registerAll p ((segments f fileLength n fileOfs).1.flatMap (Phdr.pages file))).bind fun r =>
        some (r.1 && (segments f fileLength n fileOfs).2, r.2) := by
  induction n generalizing s fileOfs with
  | zero => rfl
  | succ n ih =>
    rw [programHeaders, segments]
    by_cases hbeyond : fileOfs < 0 ∨ fileOfs > fileLength
    · rw [if_pos hbeyond, if_pos hbeyond]
      rfl
    · rw [if_neg hbeyond, if_neg hbeyond]
      by_cases hshort : fileRead f fileOfs.toNat PHDR_SIZE ≠ PHDR_SIZE
      · rw [if_pos hshort, if_pos hshort]
        rfl
      · rw [if_neg hshort, if_neg hshort]
        dsimp only
        generalize readPhdr f fileOfs.toNat = phdr
        split
        · rfl
        · split
          · split
            · rename_i hvalid
              rw [loadSegment_eq (valid_of_validateSegment hlen hvalid) hlen, flatMap_cons,
                registerAll_append, Option.bind_assoc]
              refine congrArg _ (funext fun r => ?_)
              obtain ⟨success, s1⟩ := r
              cases success with
              | true => exact ih _
              | false => rfl
            · rfl
          · exact ih _

end

/-! ## How many entries it takes -/

/-- How many entries are allocated for pages at these addresses, when there are pages at `seen`
already: one for each, up to the first that is refused because there is a page at its address. -/
def asked (seen : List UInt32) : List UInt32 → Nat
  | [] => 0
  | addr :: rest => if addr ∈ seen then 1 else asked (seen ++ [addr]) rest + 1

/-- The entries `l` are those of thread `p`, and nothing else has changed in the memory `m0`. -/
structure Registered (m0 : Mem) (s : Loader) (p : Nat) (l : List Spte) : Prop where
  inv : s.mem.Inv
  entries : (s.mem.supPageTable p).map s.mem.heap = l.map some
  swap : s.mem.swap = m0.swap
  usedMap : s.mem.usedMap = m0.usedMap
  inode : s.mem.inode = m0.inode

/-- The entry of a page of a file that has not been touched, in the user's part of the address
space. -/
structure Untouched (e : Spte) : Prop where
  user : isKernelVaddr e.userVaddr = false
  loaded : e.loaded = false
  isSwapped : e.isSwapped = false
  fileType : e.fileType = .file
  full : e.readBytes + e.zeroBytes = 4096

section
variable {m0 : Mem} {s s' : Loader} {p : Nat} {l es : List Spte} {e : Spte}

section
variable (h : Registered m0 s p l)
include h

theorem Registered.owns_iff : (∃ ptr, s.mem.Owns p ptr e) ↔ e ∈ l := by
  have hmem : some e ∈ (s.mem.supPageTable p).map s.mem.heap ↔ e ∈ l := by
    rw [h.entries, List.mem_map]
    exact ⟨fun ⟨x, hx, heq⟩ => Option.some.inj heq ▸ hx, fun hx => ⟨e, hx, rfl⟩⟩
  rw [← hmem, List.mem_map]
  exact Iff.rfl

theorem Registered.search (va : UInt32) :
    ∃ r, Mem.search s.mem.heap va (s.mem.supPageTable p) = some r ∧
      (r = none ↔ va ∉ l.map Spte.userVaddr) := by
  have hlive : ∀ ptr ∈ s.mem.supPageTable p, ∃ x, s.mem.heap ptr = some x := by
    intro ptr hptr
    have hmem : s.mem.heap ptr ∈ l.map some := h.entries ▸ mem_map_of_mem hptr
    obtain ⟨x, -, hx⟩ := mem_map.mp hmem
    exact ⟨x, hx.symm⟩
  obtain ⟨r, hr⟩ := Mem.exists_search hlive
  refine ⟨r, hr, ?_⟩
  cases r with
  | none =>
    refine ⟨fun _ hva => ?_, fun _ => rfl⟩
    obtain ⟨x, hx, rfl⟩ := mem_map.mp hva
    obtain ⟨ptr, hown⟩ := h.owns_iff.mpr hx
    obtain ⟨y, hy, hne⟩ := Mem.search_absent hr ptr hown.1
    cases hown.2.symm.trans hy
    exact hne rfl
  | some ptr =>
    obtain ⟨hptr, x, hx, hva⟩ := Mem.search_found hr
    refine ⟨fun hnone => (nomatch hnone), fun hnot => ?_⟩
    exact absurd (mem_map.mpr ⟨x, h.owns_iff.mp ⟨ptr, hptr, hx⟩, hva⟩) hnot

/-- A new entry that is not in the table yet. -/
theorem Registered.fresh (e : Spte) (left : Nat) :
    Registered m0 ⟨s.mem.fresh e, left⟩ p l where
  inv := h.inv.fresh e
  entries := by
    rw [← h.entries]
    refine map_congr_left fun ptr hptr => ?_
    have hne : ptr ≠ s.mem.next := fun heq => h.inv.next_unlisted p (heq ▸ hptr)
    exact update_of_ne hne ..
  __ := h

/-- **An entry is registered**, unless there is a page at its address. -/
theorem Registered.register (he : Untouched e) (hleft : s.left ≠ 0) :
    ∃ b s', s.register p e = some (b, s') ∧ s'.left = s.left - 1 ∧
      (b = true ↔ e.userVaddr ∉ l.map Spte.userVaddr) ∧ (b = true → Registered m0 s' p (l ++ [e])) := by
  have hfresh := h.fresh e (s.left - 1)
  obtain ⟨r, hsearch, hr⟩ := hfresh.search e.userVaddr
  have hheap : (s.mem.fresh e).heap s.mem.next = some e := Mem.fresh_heap ..
  have hins : ∃ mem, (s.mem.fresh e).pageInsert p s.mem.next = some (r.isNone, mem) := by
    simp only [Mem.pageInsert, hheap, some_bind]
    rw [hsearch]
    cases r with
    | some ptr => exact ⟨_, rfl⟩
    | none => exact ⟨_, rfl⟩
  obtain ⟨mem, hins⟩ := hins
  rw [Loader.register, if_neg (not_or.mpr ⟨by rw [he.user]; decide, hleft⟩), hins]
  refine ⟨r.isNone, ⟨mem, s.left - 1⟩, rfl, rfl, isNone_iff_eq_none.trans hr, fun hb => ?_⟩
  -- the entry goes to the end of the table
  have hva := hr.mp (isNone_iff_eq_none.mp hb)
  obtain ⟨rfl, -⟩ := Mem.pageInsert_new hheap hins hb
  have hnew : ∀ q, s.mem.next ∉ (s.mem.fresh e).supPageTable q := h.inv.next_unlisted
  refine ⟨hfresh.inv.enter hnew (Nat.lt_succ_self _) he.loaded he.isSwapped (by rw [he.fileType]; decide) ?_,
    ?_, hfresh.swap, hfresh.usedMap, hfresh.inode⟩
  · intro ptr x hown heq
    exact hva (mem_map.mpr ⟨x, hfresh.owns_iff.mp ⟨ptr, hown⟩, heq⟩)
  · show (update (s.mem.fresh e).supPageTable p _ p).map (update (s.mem.fresh e).heap _ _) = _
    rw [update_self, ← hheap, update_eq_self, map_append, map_append,
      hfresh.entries, map_singleton, hheap]
    rfl

/-- **The entries are registered** if `malloc` can give them, up to the first at an address where
there is a page. -/
theorem Registered.registerAll (hes : ∀ e ∈ es, Untouched e) (hnd : (l.map Spte.userVaddr).Nodup) :
    (s.left < asked (l.map Spte.userVaddr) (es.map Spte.userVaddr) → s.registerAll p es = none) ∧
    (asked (l.map Spte.userVaddr) (es.map Spte.userVaddr) ≤ s.left → ∃ b s',
      s.registerAll p es = some (b, s') ∧
      s'.left + asked (l.map Spte.userVaddr) (es.map Spte.userVaddr) = s.left ∧
      (b = true ↔ ((l ++ es).map Spte.userVaddr).Nodup) ∧ (b = true → Registered m0 s' p (l ++ es))) := by
  induction es generalizing s l with
  | nil =>
    rw [append_nil]
    exact ⟨fun hlt => absurd hlt (Nat.not_lt_zero _), fun _ => ⟨true, s, rfl, rfl, ⟨fun _ => hnd, fun _ => rfl⟩,
      fun _ => h⟩⟩
  | cons e es ih =>
    have hrest : ∀ e' ∈ es, Untouched e' := fun e' he' => hes e' (mem_cons_of_mem _ he')
    rw [map_cons, asked, Loader.registerAll]
    by_cases hleft : s.left = 0
    · -- `malloc` fails for this entry
      have hnone : s.register p e = none := if_pos (.inr hleft)
      rw [hnone, hleft]
      refine ⟨fun _ => rfl, fun hle => ?_⟩
      split at hle <;> omega
    · obtain ⟨b, s1, hreg, hleft1, hb, hnext⟩ := h.register (hes e mem_cons_self) hleft
      rw [hreg, some_bind]
      by_cases hseen : e.userVaddr ∈ l.map Spte.userVaddr
      · -- there is a page at the address
        have hfalse : b = false := Bool.eq_false_of_not_eq_true fun hbt => hb.mp hbt hseen
        rw [if_pos hseen, hfalse]
        refine ⟨fun hlt => by omega, fun _ => ⟨false, s1, rfl, by omega, ?_, fun hf => (nomatch hf)⟩⟩
        refine ⟨fun hf => (nomatch hf), fun hnd' => ?_⟩
        rw [map_append, map_cons] at hnd'
        have hnot := (nodup_cons.mp (nodup_middle.mp hnd')).1
        exact absurd (mem_append_left _ hseen) hnot
      · have htrue : b = true := hb.mpr hseen
        have hnd1 : ((l ++ [e]).map Spte.userVaddr).Nodup := by
          rw [map_append, map_singleton]
          exact nodup_append_comm.mp (nodup_cons.mpr ⟨hseen, hnd⟩)
        obtain ⟨hnone, hsome⟩ := ih (hnext htrue) hrest hnd1
        rw [map_append, map_singleton] at hnone hsome
        rw [if_neg hseen, htrue]
        refine ⟨fun hlt => hnone (by omega), fun hle => ?_⟩
        obtain ⟨b', s', hall, hleft', hb', hnext'⟩ := hsome (by omega)
        rw [append_assoc, singleton_append] at hb' hnext'
        refine ⟨b', s', hall, ?_, hb', hnext'⟩
        rw [← Nat.add_assoc, hleft', hleft1, Nat.sub_add_cancel (Nat.pos_of_ne_zero hleft)]

end

theorem untouched_pages {fileLength file : Nat} (h : Valid phdr fileLength)
    (he : e ∈ phdr.pages file) : Untouched e := by
  have hva := (h.laidOut file).user e he
  have hfull := (h.laidOut file).full e he
  obtain ⟨k, -, rfl⟩ := mem_map.mp (phdr.pages_eq file ▸ he)
  refine ⟨?_, rfl, rfl, rfl, hfull⟩
  rw [isKernelVaddr, decide_eq_false_iff_not]
  exact UInt32.not_le.mpr hva

theorem valid_of_mem_segments {fileLength : Nat} (hlen : fileLength < 2147483648) {n : Nat}
    {fileOfs : Int} (h : phdr ∈ (segments f fileLength n fileOfs).1) : Valid phdr fileLength := by
  induction n generalizing fileOfs with
  | zero => cases h
  | succ n ih =>
    rw [segments] at h
    dsimp only at h
    split at h
    · cases h
    · split at h
      · cases h
      · split at h
        · cases h
        · split at h
          · split at h
            · rename_i hvalid
              rcases mem_cons.mp h with rfl | h
              · exact valid_of_validateSegment hlen hvalid
              · exact ih h
            · cases h
          · exact ih h

/-- The entries that have not been touched are still there when a frame has been found for
another. -/
theorem Registered.owns_after_room {s₁ : Mem} (h : Registered m0 s p l) (hl : ∀ e ∈ l, Untouched e)
    (room : s.mem.MadeRoom s₁) {ptr : Nat} : s₁.Owns p ptr e ↔ s.mem.Owns p ptr e := by
  have hto : ∀ {x}, s.mem.Owns p ptr x → s₁.Owns p ptr x := fun hown =>
    room.owns h.inv hown (hl _ (h.owns_iff.mp ⟨ptr, hown⟩)).loaded
  refine ⟨fun hown => ?_, hto⟩
  have hptr : ptr ∈ s.mem.supPageTable p := room.rests.tables ▸ hown.1
  obtain ⟨x, -, hx⟩ := mem_map.mp (h.entries ▸ mem_map_of_mem hptr)
  have hown' : s.mem.Owns p ptr x := ⟨hptr, hx.symm⟩
  cases (hto hown').2.symm.trans hown.2
  exact hown'

/-- **The stack page** gets a frame, and the other entries stay as they are. -/
theorem Registered.setupStack (h : Registered m0 s p l) (hl : ∀ e ∈ l, Untouched e) (hslot : m0.FreeSlot)
    (hpool : 0 < m0.usedMap.length) (hleft : s.left ≠ 0) :
    ∃ b s', s.setupStack p = some (b, s') ∧ (b = true → ∀ e, e.fileType = .file →
      ((∃ ptr, s'.mem.Owns p ptr e) ↔ e ∈ l)) := by
  let stack : Spte := { Mem.stackSpte (pgRoundDown (PHYS_BASE - PGSIZE)) with loaded := true }
  have hfresh := h.fresh stack s.left
  obtain ⟨⟨f, s2⟩, hal⟩ := hfresh.inv.exists_allocateFrame (by rw [Mem.FreeSlot, hfresh.swap]; exact hslot)
    (by rw [hfresh.usedMap]; exact hpool) p s.mem.next true
  obtain ⟨s1, room, -, hs2⟩ := hfresh.inv.allocateFrame_spec hal
  have howns : ∀ {ptr x}, s1.Owns p ptr x ↔ (s.mem.fresh stack).Owns p ptr x :=
    hfresh.owns_after_room hl room
  -- no page of the thread is present, and all its entries are allocated
  have hpres : (s2.pagedir p (pgRoundDown (PHYS_BASE - PGSIZE))).present = false := by
    rw [hs2]
    refine Bool.eq_false_of_not_eq_true fun hpres => ?_
    obtain ⟨ptr, x, hown, -, hloaded⟩ := (room.inv hfresh.inv).present hpres
    have hx := hl x (hfresh.owns_iff.mp ⟨ptr, howns.mp hown⟩)
    rw [hx.loaded] at hloaded
    cases hloaded
  have hheap : s2.heap s.mem.next = some stack := by
    rw [hs2]
    refine (room.heap_eq hfresh.inv fun fte hfte heq => ?_).trans (update_self ..)
    obtain ⟨x, hown, -⟩ := h.inv.resident hfte
    exact h.inv.next_unlisted _ (heq ▸ hown.1)
  have hlive : ∀ ptr ∈ s2.supPageTable p, ∃ x, s2.heap ptr = some x := by
    rw [hs2]
    intro ptr hptr
    have hptr' : ptr ∈ (s.mem.fresh stack).supPageTable p := room.rests.tables ▸ hptr
    obtain ⟨x, -, hx⟩ := mem_map.mp (hfresh.entries ▸ mem_map_of_mem hptr')
    exact ⟨x, (howns.mpr ⟨hptr', hx.symm⟩).2⟩
  obtain ⟨r, hsearch⟩ : ∃ r, Mem.search s2.heap (pgRoundDown (PHYS_BASE - PGSIZE)) (s2.supPageTable p) = some r :=
    Mem.exists_search hlive
  have hins : ∃ mem, (s2.setPte p (pgRoundDown (PHYS_BASE - PGSIZE)) ⟨f, true, false, false, true⟩).pageInsert p
      s.mem.next = some (r.isNone, mem) := by
    simp only [Mem.pageInsert, Mem.setPte, hheap, some_bind]
    rw [show stack.userVaddr = pgRoundDown (PHYS_BASE - PGSIZE) from rfl, hsearch]
    cases r with
    | some ptr => exact ⟨_, rfl⟩
    | none => exact ⟨_, rfl⟩
  obtain ⟨mem, hins⟩ := hins
  have hgrow : s.mem.growStack p (PHYS_BASE - PGSIZE) .growStack = some (r.isNone, mem) := by
    rw [Mem.growStack, Mem.allocatePage, if_neg (by decide)]
    show ((s.mem.fresh stack).allocateFrame p s.mem.next true).bind _ = _
    rw [hal, Option.bind_some]
    show (s2.installPage p _ f true).bind _ = _
    rw [Mem.installPage_absent hpres, Option.bind_some]
    exact hins
  rw [Loader.setupStack, if_neg hleft, hgrow]
  refine ⟨r.isNone, ⟨mem, s.left - 1⟩, rfl, fun hb e htype => ?_⟩
  obtain ⟨rfl, -⟩ := Mem.pageInsert_new (by exact hheap) hins hb
  rw [← hfresh.owns_iff]
  have hnew : ∀ q, s.mem.next ∉ s2.supPageTable q := by
    rw [hs2]
    exact room.rests.tables ▸ h.inv.next_unlisted
  refine exists_congr fun ptr => ?_
  rw [Mem.enter_owns (by exact hnew), ← howns]
  show (p = p ∧ ptr = s.mem.next ∧ e = stack ∨ s2.Owns p ptr e) ↔ _
  rw [hs2]
  refine or_iff_right fun hstack => ?_
  rw [hstack.2.2] at htype
  cases htype

/-! ## load -/

def HeaderOk (f : File) : Prop := EHDR_SIZE ≤ f.length ∧ (readEhdr f 0).verified = true

/-- There are bytes for a second header after the first, and they start like an ELF file. -/
def SecondElf (f : File) : Prop := 2 * EHDR_SIZE ≤ f.length ∧ (readEhdr f EHDR_SIZE).isElf = true

instance (f : File) : Decidable (HeaderOk f) := inferInstanceAs (Decidable (_ ∧ _))

/-- The segments of the file, up to the first program header that is refused. -/
def loadable (f : File) (fileLength : Nat) : List Phdr × Bool :=
  segments f fileLength (readEhdr f 0).phnum (i32 (readEhdr f 0).phoff.toNat)

def loadablePages (f : File) (fileLength file : Nat) : List Spte :=
  (loadable f fileLength).1.flatMap (Phdr.pages file)

/-- How many entries `load` has to allocate for the file: those of the segments, and that of the
stack if all of them are accepted. -/
def wanted (f : File) (fileLength file : Nat) : Nat :=
  asked [] ((loadablePages f fileLength file).map Spte.userVaddr) +
    if (loadable f fileLength).2 ∧ ((loadablePages f fileLength file).map Spte.userVaddr).Nodup then 1 else 0

variable {file fileLength : Nat}

theorem untouched_loadablePages (hlen : fileLength < 2147483648) :
    ∀ e ∈ loadablePages f fileLength file, Untouched e := by
  intro e he
  obtain ⟨phdr, hphdr, he⟩ := mem_flatMap.mp he
  exact untouched_pages (valid_of_mem_segments hlen hphdr) he

theorem headerOk_iff :
    HeaderOk f ↔ ¬ (fileRead f 0 EHDR_SIZE ≠ EHDR_SIZE ∨ (!(readEhdr f 0).verified) = true) := by
  rw [not_or, not_not, Bool.not_eq_true, Bool.not_eq_false', fileRead, HeaderOk]
  exact and_congr_left fun _ => by omega

/-- `load`, where it does not accept the header: it returns iff there is a second one. -/
theorem load_refused (p fileLength : Nat) (h : ¬ HeaderOk (s.mem.inode file)) :
    (SecondElf (s.mem.inode file) ∧ s.load p file fileLength = some (none, s)) ∨
      (¬ SecondElf (s.mem.inode file) ∧ s.load p file fileLength = none) := by
  rw [headerOk_iff, not_not] at h
  rw [load, if_pos h]
  by_cases hshort : fileRead (s.mem.inode file) (fileRead (s.mem.inode file) 0 EHDR_SIZE) EHDR_SIZE ≠ EHDR_SIZE
  · rw [if_pos hshort]
    refine .inr ⟨fun hsecond => hshort ?_, rfl⟩
    have hlong := hsecond.1
    unfold fileRead
    omega
  · -- the first read has been a full one too
    have hfull : 2 * EHDR_SIZE ≤ (s.mem.inode file).length ∧
        fileRead (s.mem.inode file) 0 EHDR_SIZE = EHDR_SIZE := by
      rw [not_not] at hshort
      unfold fileRead EHDR_SIZE at hshort ⊢
      omega
    rw [if_neg hshort, hfull.2]
    cases helf : (readEhdr (s.mem.inode file) EHDR_SIZE).isElf with
    | true => exact .inl ⟨⟨hfull.1, helf⟩, rfl⟩
    | false =>
      refine .inr ⟨fun hsecond => ?_, rfl⟩
      rw [hsecond.2] at helf
      cases helf

theorem load_accepted (h : HeaderOk (s.mem.inode file)) (hlen : fileLength < 2147483648) :
    s.load p file fileLength =
      (s.registerAll p (loadablePages (s.mem.inode file) fileLength file)).bind fun r =>
        if r.1 && (loadable (s.mem.inode file) fileLength).2 then
          (r.2.setupStack p).bind fun r =>
            some (if r.1 then some (readEhdr (s.mem.inode file) 0).entry else none, r.2)
        else some (none, r.2) := by
  rw [load, if_neg (headerOk_iff.mp h), programHeaders_eq hlen, Option.bind_eq_bind, Option.bind_assoc]
  rfl

theorem registered_nil (hinv : s.mem.Inv) (hnew : s.mem.supPageTable p = []) :
    Registered s.mem s p [] :=
  ⟨hinv, by rw [hnew]; rfl, rfl, rfl, rfl⟩

theorem load_accepted_returns_iff (hinv : s.mem.Inv) (hnew : s.mem.supPageTable p = [])
    (hslot : s.mem.FreeSlot) (hpool : 0 < s.mem.usedMap.length) (hlen : fileLength < 2147483648)
    (h : HeaderOk (s.mem.inode file)) :
    (∃ r, s.load p file fileLength = some r) ↔ wanted (s.mem.inode file) fileLength file ≤ s.left := by
  have hpages : ∀ e ∈ loadablePages (s.mem.inode file) fileLength file, Untouched e :=
    untouched_loadablePages hlen
  obtain ⟨hnone, hsome⟩ := (registered_nil hinv hnew).registerAll hpages nodup_nil
  rw [load_accepted h hlen, wanted]
  rw [map_nil] at hnone hsome
  by_cases hle : asked [] ((loadablePages (s.mem.inode file) fileLength file).map Spte.userVaddr) ≤ s.left
  · obtain ⟨b, s1, hreg, hleft, hb, hnext⟩ := hsome hle
    rw [nil_append] at hb hnext
    rw [hreg, Option.bind_some]
    by_cases hstack : (loadable (s.mem.inode file) fileLength).2 = true ∧
        ((loadablePages (s.mem.inode file) fileLength file).map Spte.userVaddr).Nodup
    · -- all segments are accepted, and the stack needs an entry too
      have htrue : b = true := hb.mpr hstack.2
      rw [if_pos hstack, htrue, hstack.1, Bool.and_true, if_pos rfl]
      by_cases hmore : s1.left = 0
      · have hfail : s1.setupStack p = none := if_pos hmore
        rw [hfail]
        refine ⟨fun ⟨r, hr⟩ => (nomatch hr), fun hle' => ?_⟩
        omega
      · obtain ⟨b', s2, hstk, -⟩ := (hnext htrue).setupStack hpages hslot hpool hmore
        rw [hstk]
        exact ⟨fun _ => by omega, fun _ => ⟨_, rfl⟩⟩
    · have hfalse : (b && (loadable (s.mem.inode file) fileLength).2) = false := by
        refine Bool.eq_false_of_not_eq_true fun hboth => hstack ?_
        rw [Bool.and_eq_true] at hboth
        exact ⟨hboth.2, hb.mp hboth.1⟩
      rw [if_neg hstack, hfalse]
      exact ⟨fun _ => hle, fun _ => ⟨_, rfl⟩⟩
  · rw [hnone (Nat.lt_of_not_le hle)]
    refine ⟨fun ⟨r, hr⟩ => (nomatch hr), fun hle' => absurd ?_ hle⟩
    exact Nat.le_trans (Nat.le_add_right _ _) hle'

/-- **When `load` returns.** If the file starts with a header that passes the test, `load` returns
iff `malloc` can give an entry for each page that the program headers ask for, up to the first
that is refused, and for the stack. If it does not, `load` reads a second header and returns iff
there is one that starts like an ELF file. -/
theorem load_returns_iff {s : Loader} {p file fileLength : Nat} (hinv : s.mem.Inv)
    (hnew : s.mem.supPageTable p = []) (hslot : s.mem.FreeSlot) (hpool : 0 < s.mem.usedMap.length)
    (hlen : fileLength < 2147483648) :
    (∃ r, s.load p file fileLength = some r) ↔
      HeaderOk (s.mem.inode file) ∧ wanted (s.mem.inode file) fileLength file ≤ s.left ∨
      ¬ HeaderOk (s.mem.inode file) ∧ SecondElf (s.mem.inode file) := by
  by_cases hok : HeaderOk (s.mem.inode file)
  · rw [load_accepted_returns_iff hinv hnew hslot hpool hlen hok]
    exact ⟨fun hle => .inl ⟨hok, hle⟩, fun h => h.elim (·.2) fun h => absurd hok h.1⟩
  · rcases load_refused p fileLength hok with ⟨hsecond, hload⟩ | ⟨hsecond, hload⟩
    · exact ⟨fun _ => .inr ⟨hok, hsecond⟩, fun _ => ⟨_, hload⟩⟩
    · rw [hload]
      exact ⟨fun ⟨r, hr⟩ => (nomatch hr), fun h => h.elim (fun h => absurd h.1 hok) fun h => absurd h.2 hsecond⟩

def fileOf (bytes : List UInt8) : File := ⟨bytes.length, fun k => bytes.getD k 0, 1, 0⟩

/-- An executable with one segment of a page at 0x8048000, which starts with the headers. `filesz`
are the bytes of `p_filesz`. -/
def program (filesz : List UInt8) : List UInt8 :=
  [0x7f, 0x45, 0x4c, 0x46, 1, 1, 1, 0, 0, 0, 0, 0, 0, 0, 0, 0,
    2, 0, 3, 0, 1, 0, 0, 0, 0, 0x80, 4, 8, 52, 0, 0, 0, 0, 0, 0, 0, 0, 0, 0, 0, 52, 0, 32, 0, 1, 0, 0, 0, 0, 0, 0, 0,
    1, 0, 0, 0, 0, 0, 0, 0, 0, 0x80, 4, 8, 0, 0, 0, 0] ++ filesz ++ [0, 0x10, 0, 0, 5, 0, 0, 0, 0, 0x10, 0, 0]

/-- A pool of one page, a swap device of two slots and a file with these bytes. -/
def withFile (bytes : List UInt8) : Loader :=
  ⟨Mem.start 1 (fun _ => Arr.const 0) 16 (fun _ => Arr.const 0) (fun _ => fileOf bytes) fun _ _ => none, 10⟩

theorem withFile_inv (bytes : List UInt8) : (withFile bytes).mem.Inv :=
  (remembers_start _ _ _ _ _ _ fun _ _ => Arr.const 0).inv

/-- An executable that is loaded. -/
theorem load_returns_iff_one_segment :
    ∃ r, (withFile (program [84, 0, 0, 0])).load 0 0 84 = some r := by
  refine (load_returns_iff (withFile_inv _) rfl ⟨0, by decide⟩ (by decide) (by decide)).mpr (.inl ⟨?_, ?_⟩)
  · decide +kernel
  · decide +kernel

/-- `load` does not return when the file is empty. -/
theorem load_of_empty_file : (withFile []).load 0 0 0 = none := by
  decide +kernel

/-! ## The pages of an executable that has been accepted -/

/-- `file_handling` reads all bytes of the page from the file `f`, whatever frame it has got. -/
def ReadsFully (f : File) (e : Spte) : Prop :=
  ∀ (m : Mem) (frame : Nat), m.inode e.file = f → ∃ m', m.readPage e frame = some m'

/-- The bytes that a segment has in the file lie within its first `length` bytes. -/
def Within (length : Nat) (phdr : Phdr) : Prop :=
  0 < phdr.filesz.toNat → phdr.offset.toNat + phdr.filesz.toNat ≤ length

variable {f : File}

theorem readsFully_iff : ReadsFully f e ↔ (0 < e.readBytes → e.offset + e.readBytes ≤ f.length) := by
  constructor
  · intro hread
    exact (Mem.exists_readPage_iff _ _).mp (hread (Mem.start 0 (fun _ => Arr.const 0) 0 (fun _ => Arr.const 0)
      (fun _ => f) fun _ _ => none) 0 rfl)
  · intro hfull m frame hf
    exact (Mem.exists_readPage_iff m frame).mpr (by rwa [hf])

theorem owns_loaded_iff (hinv : s.mem.Inv) (hnew : s.mem.supPageTable p = []) (hslot : s.mem.FreeSlot)
    (hpool : 0 < s.mem.usedMap.length) (hlen : fileLength < 2147483648) {entry : UInt32}
    (hload : s.load p file fileLength = some (some entry, s')) (htype : e.fileType = .file) :
    (∃ ptr, s'.mem.Owns p ptr e) ↔ e ∈ loadablePages (s.mem.inode file) fileLength file := by
  have hpages : ∀ e ∈ loadablePages (s.mem.inode file) fileLength file, Untouched e :=
    untouched_loadablePages hlen
  have hok : HeaderOk (s.mem.inode file) := by
    by_contra hbad
    rcases load_refused p fileLength hbad with ⟨-, hnone⟩ | ⟨-, hnone⟩
    · rw [hnone] at hload
      cases hload
    · rw [hnone] at hload
      cases hload
  obtain ⟨hnone, hsome⟩ := (registered_nil hinv hnew).registerAll hpages nodup_nil
  rw [load_accepted hok hlen] at hload
  obtain ⟨⟨b, s1⟩, hreg, hload⟩ := bind_eq_some_iff.mp hload
  dsimp only at hload
  split at hload
  · rename_i hboth
    rw [Bool.and_eq_true] at hboth
    have hle := Nat.le_of_not_lt fun hlt => nomatch (hnone hlt).symm.trans hreg
    obtain ⟨b1, s2, hreg', -, -, hnext⟩ := hsome hle
    cases hreg.symm.trans hreg'
    obtain ⟨⟨b', s3⟩, hstk, hload⟩ := bind_eq_some_iff.mp hload
    have hleft : s1.left ≠ 0 := fun hzero => nomatch (if_pos hzero).symm.trans hstk
    obtain ⟨b2, s4, hstk', hown⟩ := (hnext hboth.1).setupStack hpages hslot hpool hleft
    cases hstk.symm.trans hstk'
    cases b' with
    | true =>
      cases hload
      exact hown rfl e htype
    | false => cases hload
  · cases hload

end

/-- **When the pages of an accepted executable can be read.** -/
theorem accepted_pages_read_iff {s s' : Loader} {p file fileLength : Nat} {entry : UInt32} (hinv : s.mem.Inv)
    (hnew : s.mem.supPageTable p = []) (hslot : s.mem.FreeSlot) (hpool : 0 < s.mem.usedMap.length)
    (hlen : fileLength < 2147483648) (hshown : (s.mem.inode file).length ≤ fileLength)
    (hload : s.load p file fileLength = some (some entry, s')) :
    ((∀ ptr e, s'.mem.Owns p ptr e → e.fileType = .file → ReadsFully (s.mem.inode file) e) ↔
      ∀ phdr ∈ (loadable (s.mem.inode file) fileLength).1, Within (s.mem.inode file).length phdr) ∧
    ((∀ phdr ∈ (loadable (s.mem.inode file) fileLength).1, Within (s.mem.inode file).length phdr) →
      ∀ ptr e, s'.mem.Owns p ptr e → e.fileType = .file → ∀ m : Mem, m.Inv → m.Owns p ptr e →
        m.inode e.file = s.mem.inode file → m.FreeSlot → 0 < m.usedMap.length →
        ∃ m', m.fileHandling p ptr = some (true, m')) := by
  have hpages : ∀ e ∈ loadablePages (s.mem.inode file) fileLength file, Untouched e :=
    untouched_loadablePages hlen
  have hown : ∀ {e}, e.fileType = .file → ((∃ ptr, s'.mem.Owns p ptr e) ↔
      e ∈ loadablePages (s.mem.inode file) fileLength file) :=
    fun htype => owns_loaded_iff hinv hnew hslot hpool hlen hload htype
  have hreads : (∀ ptr e, s'.mem.Owns p ptr e → e.fileType = .file → ReadsFully (s.mem.inode file) e) ↔
      ∀ phdr ∈ (loadable (s.mem.inode file) fileLength).1, Within (s.mem.inode file).length phdr := by
    have hsegment : ∀ phdr ∈ (loadable (s.mem.inode file) fileLength).1,
        (∀ e ∈ phdr.pages file, ReadsFully (s.mem.inode file) e) ↔ Within (s.mem.inode file).length phdr := by
      intro phdr hphdr
      rw [Within, ← Phdr.pages_within_iff (valid_of_mem_segments hlen hphdr) file (by omega)]
      exact forall₂_congr fun e _ => readsFully_iff
    constructor
    · intro hall phdr hphdr
      refine (hsegment phdr hphdr).mp fun e he => ?_
      have hmem : e ∈ loadablePages (s.mem.inode file) fileLength file := mem_flatMap.mpr ⟨phdr, hphdr, he⟩
      have htype := (hpages e hmem).fileType
      obtain ⟨ptr, howns⟩ := (hown htype).mpr hmem
      exact hall ptr e howns htype
    · intro hall ptr e howns htype
      obtain ⟨phdr, hphdr, he⟩ := mem_flatMap.mp ((hown htype).mp ⟨ptr, howns⟩)
      exact (hsegment phdr hphdr).mpr (hall phdr hphdr) e he
  refine ⟨hreads, fun hwithin ptr e howns htype m hm hm' hfile hslot' hpool' => ?_⟩
  have hfull := readsFully_iff.mp (hreads.mpr hwithin ptr e howns htype)
  have he := hpages e ((hown htype).mp ⟨ptr, howns⟩)
  obtain ⟨⟨b, m'⟩, hhandled⟩ := hm.exists_fileHandling hm' he.loaded hslot' hpool' (by rwa [hfile])
  obtain ⟨rfl, -⟩ := hm.fileHandling_spec hm' he.loaded he.isSwapped he.full hhandled
  exact ⟨m', hhandled⟩

/-- An executable whose segment lies within the file. -/
theorem accepted_pages_read_iff_one_segment : ∃ entry s',
    (withFile (program [84, 0, 0, 0])).load 0 0 84 = some (some entry, s') ∧
    ∀ ptr e, s'.mem.Owns 0 ptr e → e.fileType = .file → ReadsFully (fileOf (program [84, 0, 0, 0])) e := by
  obtain ⟨⟨entry, s'⟩, hload, hsome⟩ :
      ∃ r, (withFile (program [84, 0, 0, 0])).load 0 0 84 = some r ∧ r.1.isSome = true := by
    decide +kernel
  obtain ⟨entry, rfl⟩ := isSome_iff_exists.mp hsome
  refine ⟨entry, s', hload, ?_⟩
  refine (accepted_pages_read_iff (withFile_inv _) rfl ⟨0, by decide⟩ (by decide) (by decide)
    (Nat.le_refl 84) hload).1.mpr ?_
  have hall : ∀ phdr ∈ (loadable (fileOf (program [84, 0, 0, 0])) 84).1,
      phdr.offset.toNat + phdr.filesz.toNat ≤ 84 := by decide +kernel
  exact fun phdr hphdr _ => hall phdr hphdr

/-- An executable of 84 bytes with a segment of 4096 is accepted, and its page cannot be read. -/
theorem accepted_page_reads_short : ∃ entry s' e,
    (withFile (program [0, 0x10, 0, 0])).load 0 0 84 = some (some entry, s') ∧
    s'.mem.Owns 0 0 e ∧ e.fileType = .file ∧ e.loaded = false ∧ s'.mem.fileHandling 0 0 = none ∧
    ∀ frame, s'.mem.readPage e frame = none := by
  obtain ⟨⟨entry, s'⟩, hload, hsome, hmem, hhandled, e, hheap, htype, hloaded, hpos, hshort⟩ :
      ∃ r, (withFile (program [0, 0x10, 0, 0])).load 0 0 84 = some r ∧ r.1.isSome = true ∧
        0 ∈ r.2.mem.supPageTable 0 ∧ (r.2.mem.fileHandling 0 0).isNone = true ∧
        ∃ e, r.2.mem.heap 0 = some e ∧ e.fileType = .file ∧ e.loaded = false ∧ 0 < e.readBytes ∧
          (r.2.mem.inode e.file).length < e.offset + e.readBytes := by
    decide +kernel
  obtain ⟨entry, rfl⟩ := isSome_iff_exists.mp hsome
  refine ⟨entry, s', e, hload, ⟨hmem, hheap⟩, htype, hloaded, isNone_iff_eq_none.mp hhandled,
    fun frame => Option.eq_none_iff_forall_ne_some.mpr fun m' hread => ?_⟩
  exact absurd ((Mem.exists_readPage_iff s'.mem frame).mp ⟨m', hread⟩ hpos) (Nat.not_le_of_lt hshort)

/-! ## The layout of a segment -/

theorem asked_of_nodup {seen l : List UInt32} (h : (seen ++ l).Nodup) : asked seen l = l.length := by
  induction l generalizing seen with
  | nil => rfl
  | cons a l ih =>
    have hnot : a ∉ seen := fun hmem => (nodup_cons.mp (nodup_middle.mp h)).1 (mem_append_left _ hmem)
    rw [asked, if_neg hnot, ih (by rwa [append_assoc, singleton_append]), length_cons]

/-- **The layout of a segment.** For a header that `validate_segment` accepts the numbers that `load`
computes do not wrap around, and where none of its pages has been registered, `load_segment`
registers them all, each once and with its bytes of the file, iff `malloc` can give an entry for
each. -/
theorem segment_laid_out_iff {m0 : Mem} {s : Loader} {p file fileLength : Nat} {l : List Spte}
    {phdr : Phdr} (hlen : fileLength < 2147483648) (h : validateSegment phdr fileLength = true)
    (hreg : Registered m0 s p l) (hnd : (l.map Spte.userVaddr).Nodup)
    (hnew : ∀ e ∈ l, ∀ k < phdr.pageCnt,
      e.userVaddr.toNat ≠ phdr.vaddr.toNat / 4096 * 4096 + 4096 * k) :
    (phdr.filePage.toNat = phdr.offset.toNat / 4096 * 4096 ∧
      phdr.memPage.toNat = phdr.vaddr.toNat / 4096 * 4096 ∧
      phdr.readBytes.toNat =
        (if 0 < phdr.filesz.toNat then phdr.vaddr.toNat % 4096 + phdr.filesz.toNat else 0) ∧
      phdr.readBytes.toNat + phdr.zeroBytes.toNat = 4096 * phdr.pageCnt) ∧
    ((∃ s' es, s.loadSegment p file phdr.filePage phdr.memPage phdr.readBytes phdr.zeroBytes
        phdr.writable = some (true, s') ∧ Registered m0 s' p (l ++ es) ∧ LaidOut phdr es) ↔
      phdr.pageCnt ≤ s.left) := by
  have hv := valid_of_validateSegment hlen h
  have hlaid := hv.laidOut file
  refine ⟨⟨phdr.toNat_filePage, phdr.toNat_memPage, hv.toNat_readBytes, hv.sizes.1⟩, ?_⟩
  -- no address is registered before or comes twice
  have hnd' : ((l ++ phdr.pages file).map Spte.userVaddr).Nodup := by
    refine Nodup.of_map UInt32.toNat ?_
    rw [map_append, map_append]
    refine nodup_append.mpr ⟨?_, ?_, ?_⟩
    · exact hnd.map fun _ _ => UInt32.toNat.inj
    · rw [List.map_map]
      exact (congrArg Nodup hlaid.addresses).mpr (nodup_range.map fun a b hab => by grind)
    · intro a ha b hb hab
      rw [List.map_map] at ha hb
      obtain ⟨e, he, rfl⟩ := mem_map.mp ha
      obtain ⟨k, hk, hk'⟩ := mem_map.mp ((congrArg (b ∈ ·) hlaid.addresses).mp hb)
      exact hnew e he k (mem_range.mp hk) (hab.trans hk'.symm)
  have hasked : asked (l.map Spte.userVaddr) ((phdr.pages file).map Spte.userVaddr) = phdr.pageCnt := by
    rw [asked_of_nodup (by rwa [← map_append]), length_map, Phdr.pages_eq, length_map, length_range]
  obtain ⟨hnone, hsome⟩ := hreg.registerAll (fun e => untouched_pages hv) hnd
  rw [loadSegment_eq hv hlen]
  rw [hasked] at hnone hsome
  refine ⟨fun ⟨s', es, heq, _⟩ => Nat.le_of_not_lt fun hlt => ?_, fun hle => ?_⟩
  · rw [hnone hlt] at heq
    cases heq
  · obtain ⟨b, s', heq, -, hb, hafter⟩ := hsome hle
    cases hb.mpr hnd'
    exact ⟨s', _, heq, hafter rfl, hlaid⟩

/-- A segment of two pages at 0x8048010, with 0x1004 bytes in the file from 0x10 on. -/
def twoPages : Phdr := ⟨PT_LOAD, 0x10, 0x8048010, 0x1004, 0x1008, 5⟩

theorem segment_laid_out_iff_two_pages : ∃ s' es,
    (withFile []).loadSegment 0 0 twoPages.filePage twoPages.memPage twoPages.readBytes
      twoPages.zeroBytes twoPages.writable = some (true, s') ∧
    Registered (withFile []).mem s' 0 es ∧ LaidOut twoPages es :=
  (segment_laid_out_iff (show 8192 < 2147483648 by decide) (by decide +kernel)
    (registered_nil (withFile_inv []) rfl) nodup_nil nofun).2.mpr (by decide +kernel)

/-- There is an entry for one of the two pages. -/
theorem segment_needs_two_entries :
    validateSegment twoPages 8192 = true ∧ ({ withFile [] with left := 1 } : Loader).loadSegment 0 0
      twoPages.filePage twoPages.memPage twoPages.readBytes twoPages.zeroBytes twoPages.writable = none := by
  decide +kernel

end Loader

end Pintos.UserProg
