import Pintos.VM.Mapping

/-!
# A mapping that fails

`mmap` opens the file again and makes the entries of the pages one by one. Where a page
of the range is in the supplemental page table already it returns -1 and leaves what it
has done: the file stays open, the entries of the pages before stay in the table and in
`list_mmap`, and the entry it has met has got the id of the mapping. A file of no bytes
stays open too.
-/

namespace Pintos.VM

open Lib FileSys UserProg Function List Option

namespace Mem

/-! ## The range of a mapping -/

/-- The addresses in the table of `p` have been given out. Some may have been freed. -/
def Below (s : Mem) (p : Nat) : Prop := ∀ ptr ∈ s.supPageTable p, ptr < s.next

/-- `find_page` finds none of the `n` pages from `addr` on. It is not asked any more from
the first kernel page on, nor after a search that reads a freed entry. -/
def rangeFree (s : Mem) (p : Nat) : Nat → UInt32 → Bool
  | 0, _ => true
  | n + 1, addr =>
    match s.findPage p addr with
    | some (some _) => false
    | some none => isKernelVaddr addr || rangeFree s p n (addr + PGSIZE)
    | none => true

def fits (s : Mem) (p file : Nat) (addr : UInt32) : Bool :=
  0 < (s.inode file).length && s.rangeFree p (pageCount (s.inode file).length) addr

/-- What is left of a turn of the loop that has met the entry `e`: it has got the id. -/
def relabel (s : Mem) (p ptr : Nat) (e : Spte) : Mem :=
  s.setSpte ptr { e with mapId := some (s.mapId p) }

theorem pgOfs_eq (a : UInt32) : pgOfs a = a.toNat % 4096 := by
  unfold pgOfs
  rw [UInt32.toNat_and]
  exact Nat.and_two_pow_sub_one_eq_mod a.toNat 12

theorem pgRoundDown_toNat (a : UInt32) : (pgRoundDown a).toNat = a.toNat / 4096 * 4096 := by
  have hmask : ∀ i : Fin 32, (4294963200#32)[i.val] = !decide (i.val < 12) := by decide
  -- the mask clears what two shifts lose
  have hshift : pgRoundDown a = a >>> 12 <<< 12 := by
    unfold pgRoundDown
    apply UInt32.toBitVec_inj.mp
    ext i hi
    have hbit : (4294963200#32)[i] = !decide (i < 12) := hmask ⟨i, hi⟩
    by_cases hlt : i < 12
    · simp [hbit, hlt]
    · simp [hbit, hlt, show 12 + (i - 12) = i by omega, BitVec.getLsbD_eq_getElem hi]
  have hlt := a.toNat_lt
  rw [hshift, UInt32.toNat_shiftLeft, UInt32.toNat_shiftRight]
  simp [Nat.shiftLeft_eq, Nat.shiftRight_eq_div_pow]
  omega

theorem pgRoundDown_aligned {a : UInt32} (h : pgOfs a = 0) : pgRoundDown a = a := by
  rw [pgOfs_eq] at h
  apply UInt32.toNat.inj
  rw [pgRoundDown_toNat]
  omega

theorem toNat_add_pgsize {a : UInt32} (h : isKernelVaddr a = false) : (a + PGSIZE).toNat = a.toNat + 4096 := by
  have hlt : a.toNat < 3221225472 := by
    have hnot : ¬ PHYS_BASE ≤ a := by simpa [isKernelVaddr] using h
    exact Nat.lt_of_not_le fun hle => hnot (UInt32.le_iff_toNat_le.mpr hle)
  rw [UInt32.toNat_add, show PGSIZE.toNat = 4096 from rfl]
  omega

theorem pgOfs_add_pgsize {a : UInt32} (h : pgOfs a = 0) : pgOfs (a + PGSIZE) = 0 := by
  rw [pgOfs_eq] at h ⊢
  rw [UInt32.toNat_add, show PGSIZE.toNat = 4096 from rfl]
  omega

/-! ## One turn of the loop -/

section
variable {s s' : Mem} {p file : Nat} {addr : UInt32} {readBytes offset : Nat}

/-- The search reads the addresses of the pages only. -/
theorem search_congr {heap heap' : Nat → Option Spte} {va : UInt32} {l : List Nat}
    (h : ∀ ptr ∈ l, (heap' ptr).map Spte.userVaddr = (heap ptr).map Spte.userVaddr) :
    search heap' va l = search heap va l := by
  induction l with
  | nil => rfl
  | cons hd rest ih =>
    have hhd := h hd mem_cons_self
    have hrest := ih fun ptr hmem => h ptr (mem_cons_of_mem _ hmem)
    cases he : heap hd with
    | none =>
      rw [he, Option.map_none, Option.map_eq_none_iff] at hhd
      simp only [search, he, hhd, Option.bind_eq_bind, Option.bind_none]
    | some e =>
      rw [he] at hhd
      obtain ⟨e', he', hva⟩ := map_eq_some_iff.mp hhd
      simp only [search, he, he', hva, hrest, some_bind]

theorem search_append {heap : Nat → Option Spte} {va : UInt32} {l l' : List Nat} :
    search heap va (l ++ l') = match search heap va l with
      | some none => search heap va l'
      | r => r := by
  induction l with
  | nil => rfl
  | cons hd rest ih =>
    rw [cons_append]
    cases he : heap hd with
    | none => simp only [search, he, Option.bind_eq_bind, Option.bind_none]
    | some e =>
      simp only [search, he, some_bind]
      by_cases hva : e.userVaddr = va
      · rw [if_pos hva, if_pos hva]
      · rw [if_neg hva, if_neg hva, ih]

theorem label_vaddr {ptr : Nat} {e : Spte} (he : s.heap ptr = some e) (ptr' : Nat) :
    ((s.label p ptr e).heap ptr').map Spte.userVaddr = (s.heap ptr').map Spte.userVaddr := by
  by_cases hptr : ptr' = ptr
  · subst hptr
    rw [label_heap, he]
    rfl
  · exact congrArg _ (update_of_ne hptr _ _)

theorem mapPage_found (file readBytes offset : Nat) {ptr : Nat} (hfind : s.findPage p addr = some (some ptr)) :
    ∃ e, s.Owns p ptr e ∧ s.mapPage p file addr readBytes offset =
      some (false, s.relabel p ptr e) := by
  obtain ⟨hmem, e, he, hva⟩ := search_found hfind
  refine ⟨e, ⟨hmem, he⟩, ?_⟩
  -- `page_insert` finds the same entry
  have hins : (s.label p ptr e).pageInsert p ptr = some (false, s.label p ptr e) := by
    have hsearch : search (s.label p ptr e).heap e.userVaddr (s.supPageTable p) = some (some ptr) := by
      rw [search_congr fun ptr' _ => label_vaddr he ptr', hva]
      exact hfind
    simp only [pageInsert, label_heap, some_bind]
    rw [show (s.label p ptr e).supPageTable = s.supPageTable from rfl, hsearch]
    rfl
  simp only [mapPage, hfind, mapEntry, he, some_bind, hins]
  simp [label, relabel, setSpte]

theorem mapPage_kernel (hfind : s.findPage p addr = some none) (hkernel : isKernelVaddr addr = true) :
    s.mapPage p file addr readBytes offset = none := by
  simp [mapPage, hfind, allocatePage, hkernel]

theorem Below.mapPage_free (h : Below s p) (haddr : pgOfs addr = 0) (hfind : s.findPage p addr = some none)
    (huser : isKernelVaddr addr = false) : s.mapPage p file addr readBytes offset =
      some (true, s.mapped p (s.mapSpte p file addr readBytes offset)) := by
  obtain ⟨e, he⟩ : ∃ e, e = s.mapSpte p file addr readBytes offset := ⟨_, rfl⟩
  have hva : e.userVaddr = addr := he ▸ rfl
  have hal : s.allocatePage p addr false .createMmap readBytes (4096 - readBytes) file offset true =
      some (s.next, s.fresh e) := by
    rw [he, allocatePage, huser]
    rfl
  have hsearch : search ((s.fresh e).label p s.next e).heap e.userVaddr (s.supPageTable p) = some none := by
    rw [findPage, pgRoundDown_aligned haddr] at hfind
    rw [hva, ← hfind]
    refine search_congr fun ptr hmem => ?_
    rw [label_vaddr (fresh_heap s e)]
    exact congrArg _ (update_of_ne (h ptr hmem).ne _ _)
  have hins : ∃ s', ((s.fresh e).label p s.next e).pageInsert p s.next = some (true, s') := by
    simp only [pageInsert, label_heap, some_bind]
    rw [show ((s.fresh e).label p s.next e).supPageTable = s.supPageTable from rfl, hsearch]
    exact ⟨_, rfl⟩
  obtain ⟨s1, hins⟩ := hins
  have hpage : ∃ s', s.mapPage p file addr readBytes offset = some (true, s') := by
    simp only [mapPage, hfind, hal, mapEntry, fresh_heap, hins, some_bind]
    exact ⟨_, rfl⟩
  obtain ⟨s', hpage⟩ := hpage
  rw [hpage, (mapPage_success hpage).2.2]

/-- **A turn of the loop** maps a page that is not in the table, or gives the entry of a
page that is there the id. -/
theorem Below.mapPage_cases (h : Below s p) (haddr : pgOfs addr = 0) {b : Bool}
    (hpage : s.mapPage p file addr readBytes offset = some (b, s')) :
    b = true ∧ s' = s.mapped p (s.mapSpte p file addr readBytes offset) ∧
        isKernelVaddr addr = false ∧ s.findPage p addr = some none ∨
    b = false ∧ ∃ ptr e, s.Owns p ptr e ∧ s' = s.relabel p ptr e := by
  obtain ⟨r, hfind, -⟩ := bind_eq_some_iff.mp hpage
  cases r with
  | some ptr =>
    obtain ⟨e, hown, hmap⟩ := mapPage_found file readBytes offset hfind
    rw [hmap] at hpage
    cases hpage
    exact .inr ⟨rfl, ptr, e, hown, rfl⟩
  | none =>
    cases hkernel : isKernelVaddr addr with
    | true =>
      rw [mapPage_kernel hfind hkernel] at hpage
      cases hpage
    | false =>
      rw [h.mapPage_free haddr hfind hkernel] at hpage
      cases hpage
      exact .inl ⟨rfl, rfl, rfl, hfind⟩

end

/-! ## The loop -/

section
variable {s s' : Mem} {p file n : Nat} {addr va : UInt32} {readBytes offset : Nat} {e : Spte}

theorem mapped_table (s : Mem) (p : Nat) (e : Spte) :
    (s.mapped p e).supPageTable p = s.supPageTable p ++ [s.next] :=
  update_self ..

theorem mapped_heap (s : Mem) (p : Nat) (e : Spte) :
    (s.mapped p e).heap = update s.heap s.next (some e) :=
  update_idem ..

theorem Below.mapped (h : Below s p) (e : Spte) : Below (s.mapped p e) p := by
  intro ptr hmem
  rw [mapped_table, mem_append, mem_singleton] at hmem
  show ptr < s.next + 1
  rcases hmem with hmem | rfl
  · exact Nat.lt_succ_of_lt (h ptr hmem)
  · exact Nat.lt_succ_self _

/-- A page that has been mapped is found at its own address only. -/
theorem Below.findPage_mapped (h : Below s p) (hva : e.userVaddr ≠ pgRoundDown va) :
    (s.mapped p e).findPage p va = s.findPage p va := by
  have hold : search (s.mapped p e).heap (pgRoundDown va) (s.supPageTable p) = s.findPage p va := by
    refine search_congr fun ptr hmem => ?_
    rw [mapped_heap, update_of_ne (h ptr hmem).ne]
  have hnew : search (s.mapped p e).heap (pgRoundDown va) [s.next] = some none := by
    refine search_eq_none fun ptr hmem => ⟨e, ?_, hva⟩
    rw [mem_singleton.mp hmem, mapped_heap, update_self]
  rw [Mem.findPage, mapped_table, search_append, hold, hnew]
  cases hfind : s.findPage p va with
  | none => rfl
  | some r => cases r <;> rfl

/-- A page that is mapped below a range does not take a page of it. -/
theorem Below.rangeFree_mapped (h : Below s p) (haddr : pgOfs addr = 0)
    (hlt : e.userVaddr.toNat < addr.toNat) : (s.mapped p e).rangeFree p n addr = s.rangeFree p n addr := by
  induction n generalizing addr with
  | zero => rfl
  | succ n ih =>
    have hva : e.userVaddr ≠ pgRoundDown addr := by
      rw [pgRoundDown_aligned haddr]
      exact fun heq => lt_irrefl _ (heq ▸ hlt)
    rw [rangeFree, rangeFree, h.findPage_mapped hva]
    cases hkernel : isKernelVaddr addr with
    | true => rfl
    | false => rw [ih (pgOfs_add_pgsize haddr) (by rw [toNat_add_pgsize hkernel]; omega)]

/-- **The loop returns false** if a page of the range is in the table, and else not. -/
theorem Below.mapPages_fails (h : Below s p) (haddr : pgOfs addr = 0) :
    (s.rangeFree p n addr = true → ∀ s', s.mapPages p file n addr readBytes offset ≠ some (false, s')) ∧
    (s.rangeFree p n addr = false →
      ∃ s', s.mapPages p file n addr readBytes offset = some (false, s') ∧ s'.inode = s.inode) := by
  induction n generalizing s addr readBytes offset with
  | zero => exact ⟨nofun, nofun⟩
  | succ n ih =>
    rw [rangeFree]
    cases hfind : s.findPage p addr with
    | none =>
      -- the search reads a freed entry, and the call has no value
      refine ⟨fun _ s' heq => ?_, nofun⟩
      simp only [mapPages, mapPage, hfind, Option.bind_eq_bind, Option.bind_none] at heq
      cases heq
    | some r =>
      cases r with
      | some ptr =>
        obtain ⟨e, -, hpage⟩ := mapPage_found file (min readBytes 4096) offset hfind
        refine ⟨nofun, fun _ => ⟨s.relabel p ptr e, ?_, rfl⟩⟩
        simp only [mapPages, hpage, some_bind]
        rfl
      | none =>
        cases hkernel : isKernelVaddr addr with
        | true =>
          refine ⟨fun _ s' heq => ?_, nofun⟩
          simp only [mapPages, mapPage_kernel hfind hkernel] at heq
          cases heq
        | false =>
          have hpages : s.mapPages p file (n + 1) addr readBytes offset =
              (s.mapped p (s.mapSpte p file addr (min readBytes 4096) offset)).mapPages p file n
                (addr + PGSIZE) (readBytes - min readBytes 4096) (offset + min readBytes 4096) := by
            simp only [mapPages, h.mapPage_free haddr hfind hkernel, some_bind,
              if_true]
          have hlt : (s.mapSpte p file addr (min readBytes 4096) offset).userVaddr.toNat <
              (addr + PGSIZE).toNat := by
            show addr.toNat < _
            rw [toNat_add_pgsize hkernel]
            omega
          rw [hpages, Bool.false_or, ← h.rangeFree_mapped (pgOfs_add_pgsize haddr) hlt]
          exact ih (h.mapped _) (pgOfs_add_pgsize haddr)

/-- The pages that have been mapped are user pages, and were not in the table. -/
theorem Below.mapPages_free (h : Below s p) (haddr : pgOfs addr = 0)
    (hmap : s.mapPages p file n addr readBytes offset = some (true, s')) :
    ∀ i < n, isKernelVaddr (pageAddr addr i) = false ∧ s.findPage p (pageAddr addr i) = some none := by
  induction n generalizing s addr readBytes offset with
  | zero => simp
  | succ n ih =>
    obtain ⟨⟨b, s1⟩, hpage, hmap⟩ := bind_eq_some_iff.mp hmap
    cases b with
    | false => cases hmap
    | true =>
      obtain ⟨huser, hfind, rfl⟩ := mapPage_success hpage
      intro i hi
      cases i with
      | zero =>
        rw [pageAddr_zero]
        exact ⟨huser, hfind⟩
      | succ i =>
        rw [← pageAddr_succ]
        obtain ⟨hk, hnone⟩ := ih (h.mapped _) (pgOfs_add_pgsize haddr) hmap i (by omega)
        refine ⟨hk, ?_⟩
        -- the page at `addr` has been put in front of what is searched now
        rw [Mem.findPage, mapped_table, search_append] at hnone
        rw [show search (s.mapped p _).heap _ (s.supPageTable p) = s.findPage p (pageAddr (addr + PGSIZE) i) from
          search_congr fun ptr hmem => by rw [mapped_heap, update_of_ne (h ptr hmem).ne]] at hnone
        cases hold : s.findPage p (pageAddr (addr + PGSIZE) i) with
        | none =>
          rw [hold] at hnone
          cases hnone
        | some r =>
          cases r with
          | none => rfl
          | some ptr =>
            rw [hold] at hnone
            cases hnone

/-! ## A single call -/

variable {fd : Nat}

theorem rangeFree_reopen : (s.fileReopen file).rangeFree p n addr = s.rangeFree p n addr := by
  induction n generalizing addr with
  | zero => rfl
  | succ n ih =>
    rw [rangeFree, rangeFree, ih]
    rfl

theorem length_reopen (s : Mem) (file : Nat) :
    ((s.fileReopen file).inode file).length = (s.inode file).length := by
  simp [fileReopen]

variable (h : Below s p) (hfd : s.fds p fd = some file) (hofs : pgOfs addr = 0) (haddr : addr ≠ 0)
include h hfd hofs haddr

/-- A call that meets the condition does not return -1. -/
theorem Below.mmap_ne (hfits : s.fits p file addr = true) (s' : Mem) :
    s.mmap p fd addr ≠ some (-1, s') := by
  rw [fits, Bool.and_eq_true, decide_eq_true_eq] at hfits
  intro hmap
  simp only [mmap, hfd, hofs, haddr, length_reopen] at hmap
  rw [if_neg (by simp), if_neg hfits.1.ne'] at hmap
  obtain ⟨⟨b, s1⟩, hpages, hmap⟩ := bind_eq_some_iff.mp hmap
  cases b with
  | false =>
    exact ((show Below (s.fileReopen file) p from h).mapPages_fails hofs).1
      (rangeFree_reopen.trans hfits.2) s1 hpages
  | true =>
    have hid : ((s1.mapId p : Nat) : Int) = -1 := congrArg Prod.fst (Option.some.inj hmap)
    omega

end

end Mem

end Pintos.VM
