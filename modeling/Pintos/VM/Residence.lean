import Pintos.VM.Memory

/-!
# Where a page is

A page of a process is in a frame, in a swap slot, or in neither, and four structures
have to agree on it: its entry in the supplemental page table, the page directory, the
frame table and the swap table. `Inv` says that they do, and that two pages have
neither a frame nor a slot in common.

A page goes from one place to another when `evict_frame` drops it and when a fault
brings it in. Both are instances of `Moves`: one page changes its place, the others
keep theirs and what is in them.
-/

namespace Pintos.VM

open Lib FileSys UserProg Function List

namespace Mem

/-! ## The pages of a process -/

/-- Thread `p` has a page, and its entry `e` is at address `ptr`. An address in the table
that has been freed is no page. -/
def Owns (s : Mem) (p ptr : Nat) (e : Spte) : Prop :=
  ptr ∈ s.supPageTable p ∧ s.heap ptr = some e

def InSlot (s : Mem) (e : Spte) : Prop :=
  ∃ idx, e.swapNum = Swap.sectorOf idx ∧ s.swap.table[idx]? = some true

def filePage (f : File) (e : Spte) : Page := fun i =>
  if i.val < e.readBytes then f.byte (e.offset + i.val) else 0

/-- The content of a page of thread `p`, wherever it is. -/
def content (s : Mem) (p : Nat) (e : Spte) : Page :=
  if e.loaded then s.ram (s.pagedir p e.userVaddr).frame
  else if e.isSwapped then s.swap.page (Swap.slotOf e.swapNum)
  else filePage (s.inode e.file) e

/-- The supplemental page tables, the page directories, the frame table and the swap
table agree. -/
structure Inv (s : Mem) : Prop where
  owner : ∀ {p q ptr}, ptr ∈ s.supPageTable p → ptr ∈ s.supPageTable q → p = q
  below : ∀ {p ptr}, ptr ∈ s.supPageTable p → ptr < s.next
  vaddr : ∀ {p ptr ptr' e e'}, s.Owns p ptr e → s.Owns p ptr' e' → e.userVaddr = e'.userVaddr →
    ptr = ptr'
  typed : ∀ {p ptr e}, s.Owns p ptr e → e.fileType ≠ .mmap
  resident : ∀ {fte}, fte ∈ s.frameTable → ∃ e, s.Owns fte.owner fte.spte e ∧ e.loaded = true ∧
    (s.pagedir fte.owner e.userVaddr).present = true ∧
    (s.pagedir fte.owner e.userVaddr).frame = fte.frame
  used : ∀ {fte}, fte ∈ s.frameTable → s.usedMap[fte.frame]? = some true
  pooled : ∀ {f}, s.usedMap[f]? = some true → ∃ fte ∈ s.frameTable, fte.frame = f
  nodup : (s.frameTable.map Fte.frame).Nodup
  framed : ∀ {p ptr e}, s.Owns p ptr e → e.loaded = true → ∃ f, ⟨f, p, ptr⟩ ∈ s.frameTable
  present : ∀ {p a}, (s.pagedir p a).present = true →
    ∃ ptr e, s.Owns p ptr e ∧ e.userVaddr = a ∧ e.loaded = true
  swapped : ∀ {p ptr e}, s.Owns p ptr e → e.isSwapped = true →
    e.loaded = false ∧ e.fileType = .swap ∧ s.InSlot e
  slots : ∀ {p q ptr ptr' e e'}, s.Owns p ptr e → s.Owns q ptr' e' → e.isSwapped = true →
    e'.isSwapped = true → e.swapNum = e'.swapNum → ptr = ptr'

/-- The page of `e` goes to another place and gets the entry `e'`, and `pte` in the page
directory; if it is loaded then, it is in frame `f`. -/
structure Moves (s s' : Mem) (p ptr : Nat) (e e' : Spte) (f : Nat) (pte : Pte) : Prop where
  owns : s.Owns p ptr e
  tables : s'.supPageTable = s.supPageTable
  next : s'.next = s.next
  inode : s'.inode = s.inode
  heap : s'.heap = update s.heap ptr (some e')
  vaddr : e'.userVaddr = e.userVaddr
  typed : e'.fileType ≠ .mmap
  pagedir : s'.pagedir = update s.pagedir p (update (s.pagedir p) e.userVaddr pte)
  pteOk : pte.present = e'.loaded ∧ (e'.loaded = true → pte.frame = f)
  frames : ∀ fte, fte ∈ s'.frameTable ↔
    fte ∈ s.frameTable ∧ fte.spte ≠ ptr ∨ e'.loaded = true ∧ fte = ⟨f, p, ptr⟩
  pool : s'.usedMap.length = s.usedMap.length
  used : ∀ {fte}, fte ∈ s'.frameTable → s'.usedMap[fte.frame]? = some true
  pooled : ∀ {f}, s'.usedMap[f]? = some true → ∃ fte ∈ s'.frameTable, fte.frame = f
  nodup : (s'.frameTable.map Fte.frame).Nodup
  ram : ∀ {fte}, fte ∈ s.frameTable → fte.spte ≠ ptr → s'.ram fte.frame = s.ram fte.frame
  /-- A slot that it comes to has been free. -/
  slot : e'.isSwapped = true → e'.loaded = false ∧ e'.fileType = .swap ∧
    ∃ idx, e'.swapNum = Swap.sectorOf idx ∧ s.swap.table[idx]? = some false ∧
      s'.swap.table[idx]? = some true
  /-- The slots of the other pages. -/
  slots : ∀ {idx}, s.swap.table[idx]? = some true →
    (e.isSwapped = true → e.swapNum ≠ Swap.sectorOf idx) →
    s'.swap.table[idx]? = some true ∧ s'.swap.page idx = s.swap.page idx
  /-- A slot that is in use is the slot of another page, or the one it has come to. -/
  filled : ∀ {idx}, s'.swap.table[idx]? = some true →
    s.swap.table[idx]? = some true ∧ (e.isSwapped = true → e.swapNum ≠ Swap.sectorOf idx) ∨
      e'.isSwapped = true ∧ e'.swapNum = Swap.sectorOf idx

/-! ## Reading the invariant -/

section
variable {s s' : Mem} {p q ptr ptr' : Nat} {e e' x : Spte} {f : Nat} {pte : Pte}

theorem Owns.entry_eq (h : s.Owns p ptr e) (h' : s.Owns q ptr x) : e = x :=
  Option.some.inj (h.2.symm.trans h'.2)

variable {swap : Swap} {idx : Nat} {fte fte' : Fte}

theorem slot_inj {idx' : Nat} {b b' : Bool} (h : swap.table[idx]? = some b)
    (h' : swap.table[idx']? = some b') (heq : Swap.sectorOf idx = Swap.sectorOf idx') :
    idx = idx' :=
  Swap.sectorOf_inj (lt_trans (List.getElem?_eq_some_iff.mp h).1 swap.small)
    (lt_trans (List.getElem?_eq_some_iff.mp h').1 swap.small) heq

theorem slotOf_sectorOf {b : Bool} (h : swap.table[idx]? = some b) :
    Swap.slotOf (Swap.sectorOf idx) = idx :=
  Swap.slotOf_sectorOf (lt_trans (List.getElem?_eq_some_iff.mp h).1 swap.small)

theorem Inv.fte_eq (h : Inv s) (hf : fte ∈ s.frameTable) (hf' : fte' ∈ s.frameTable)
    (hspte : fte.spte = fte'.spte) : fte = fte' := by
  obtain ⟨e, hown, -, -, hframe⟩ := h.resident hf
  obtain ⟨e', hown', -, -, hframe'⟩ := h.resident hf'
  rw [hspte] at hown
  have howner := h.owner hown.1 hown'.1
  cases hown.entry_eq hown'
  cases fte
  cases fte'
  simp only at hspte howner hframe hframe'
  subst hspte howner
  rw [← hframe, ← hframe']

/-- Two pages are not in one frame. -/
theorem Inv.spte_eq (h : Inv s) (hf : fte ∈ s.frameTable) (hf' : fte' ∈ s.frameTable)
    (hframe : fte.frame = fte'.frame) : fte = fte' :=
  inj_on_of_nodup_map h.nodup hf hf' hframe

theorem Inv.loaded (h : Inv s) (hown : s.Owns p ptr e) (hl : e.loaded = true) :
    ⟨(s.pagedir p e.userVaddr).frame, p, ptr⟩ ∈ s.frameTable ∧
      (s.pagedir p e.userVaddr).present = true := by
  obtain ⟨f, hf⟩ := h.framed hown hl
  obtain ⟨e', hown', -, hpres, hframe⟩ := h.resident hf
  cases hown.entry_eq hown'
  exact ⟨by rw [hframe]; exact hf, hpres⟩

theorem Inv.loaded_of_present (h : Inv s) (hown : s.Owns p ptr e)
    (hpres : (s.pagedir p e.userVaddr).present = true) : e.loaded = true := by
  obtain ⟨ptr', e', hown', hva, hl⟩ := h.present hpres
  cases h.vaddr hown hown' hva.symm
  cases hown.entry_eq hown'
  exact hl

theorem Inv.not_framed (h : Inv s) (hown : s.Owns p ptr e) (hl : e.loaded = false)
    (hf : fte ∈ s.frameTable) : fte.spte ≠ ptr := by
  intro heq
  obtain ⟨e', hown', hl', -⟩ := h.resident hf
  rw [heq] at hown'
  cases hown.entry_eq hown'
  rw [hl] at hl'
  cases hl'

/-! ## One page moves -/

section
variable (m : Moves s s' p ptr e e' f pte)
include m

theorem Moves.heap_self : s'.heap ptr = some e' := by
  rw [m.heap, update_self]

theorem Moves.heap_ne (hne : ptr' ≠ ptr) :
    s'.heap ptr' = s.heap ptr' := by
  rw [m.heap, update_of_ne hne]

theorem Moves.owns_self : s'.Owns p ptr e' :=
  ⟨m.tables ▸ m.owns.1, m.heap_self⟩

theorem Moves.owns_ne (hne : ptr' ≠ ptr) :
    s'.Owns q ptr' x ↔ s.Owns q ptr' x := by
  unfold Owns
  rw [m.tables, m.heap_ne hne]

end

theorem Moves.owns_cases (h : Inv s) (m : Moves s s' p ptr e e' f pte) (hown : s'.Owns q ptr' x) :
    q = p ∧ ptr' = ptr ∧ x = e' ∨ ptr' ≠ ptr ∧ s.Owns q ptr' x := by
  by_cases hne : ptr' = ptr
  · subst hne
    exact .inl ⟨h.owner (m.tables ▸ hown.1) m.owns.1, rfl, hown.entry_eq m.owns_self⟩
  · exact .inr ⟨hne, (m.owns_ne hne).mp hown⟩

theorem Moves.pte_self (m : Moves s s' p ptr e e' f pte) : s'.pagedir p e.userVaddr = pte := by
  rw [m.pagedir, update_self, update_self]

theorem Moves.pte_ne (m : Moves s s' p ptr e e' f pte) {a : UInt32} (hne : q = p → a ≠ e.userVaddr) :
    s'.pagedir q a = s.pagedir q a := by
  rw [m.pagedir]
  by_cases hq : q = p
  · subst hq
    rw [update_self, update_of_ne (hne rfl)]
  · rw [update_of_ne hq]

theorem Moves.pte_other (h : Inv s) (m : Moves s s' p ptr e e' f pte) (hne : ptr' ≠ ptr)
    (hown : s.Owns q ptr' x) : s'.pagedir q x.userVaddr = s.pagedir q x.userVaddr := by
  refine m.pte_ne fun hq hva => hne ?_
  subst hq
  exact h.vaddr hown m.owns hva

/-- The slot of another page is not the slot the page leaves. -/
theorem Moves.slot_other (h : Inv s) (m : Moves s s' p ptr e e' f pte) (hne : ptr' ≠ ptr)
    (hown : s.Owns q ptr' x) (hsw : x.isSwapped = true) :
    ∃ idx, x.swapNum = Swap.sectorOf idx ∧ s.swap.table[idx]? = some true ∧
      s'.swap.table[idx]? = some true ∧ s'.swap.page idx = s.swap.page idx := by
  obtain ⟨-, -, idx, hnum, hused⟩ := h.swapped hown hsw
  obtain ⟨hused', hpage⟩ := m.slots hused fun hsw' heq =>
    hne (h.slots hown m.owns hsw hsw' (hnum.trans heq.symm))
  exact ⟨idx, hnum, hused, hused', hpage⟩

theorem Inv.moves (h : Inv s) (m : Moves s s' p ptr e e' f pte) : Inv s' where
  owner hp hq := h.owner (m.tables ▸ hp) (m.tables ▸ hq)
  below hp := m.next ▸ h.below (m.tables ▸ hp)
  vaddr := by
    intro q ptr1 ptr2 x y hx hy hva
    -- the page keeps its address, so it is still the only one there
    rcases m.owns_cases h hx with ⟨rfl, rfl, rfl⟩ | ⟨-, hx⟩
    · rcases m.owns_cases h hy with ⟨-, rfl, rfl⟩ | ⟨-, hy⟩
      · rfl
      · exact h.vaddr m.owns hy (m.vaddr.symm.trans hva)
    · rcases m.owns_cases h hy with ⟨rfl, rfl, rfl⟩ | ⟨-, hy⟩
      · exact h.vaddr hx m.owns (hva.trans m.vaddr)
      · exact h.vaddr hx hy hva
  typed := by
    intro q ptr1 x hx
    rcases m.owns_cases h hx with ⟨rfl, rfl, rfl⟩ | ⟨-, hx⟩
    · exact m.typed
    · exact h.typed hx
  resident := by
    intro fte hfte
    rcases (m.frames fte).mp hfte with ⟨hfte, hne⟩ | ⟨hl, rfl⟩
    · obtain ⟨x, hx, hrest⟩ := h.resident hfte
      refine ⟨x, (m.owns_ne hne).mpr hx, ?_⟩
      rw [m.pte_other h hne hx]
      exact hrest
    · refine ⟨e', m.owns_self, hl, ?_⟩
      show (s'.pagedir p e'.userVaddr).present = true ∧ (s'.pagedir p e'.userVaddr).frame = f
      rw [m.vaddr, m.pte_self]
      exact ⟨m.pteOk.1.trans hl, m.pteOk.2 hl⟩
  __ := m
  framed := by
    intro q ptr1 x hx hl
    rcases m.owns_cases h hx with ⟨rfl, rfl, rfl⟩ | ⟨hne, hx⟩
    · exact ⟨f, (m.frames _).mpr (.inr ⟨hl, rfl⟩)⟩
    · obtain ⟨g, hg⟩ := h.framed hx hl
      exact ⟨g, (m.frames _).mpr (.inl ⟨hg, hne⟩)⟩
  present := by
    intro q a hpres
    by_cases hpa : q = p ∧ a = e.userVaddr
    · obtain ⟨rfl, rfl⟩ := hpa
      rw [m.pte_self] at hpres
      exact ⟨ptr, e', m.owns_self, m.vaddr, m.pteOk.1.symm.trans hpres⟩
    · rw [m.pte_ne fun hq ha => hpa ⟨hq, ha⟩] at hpres
      obtain ⟨ptr1, x, hx, hva, hl⟩ := h.present hpres
      have hne : ptr1 ≠ ptr := by
        rintro rfl
        have hqp := h.owner hx.1 m.owns.1
        cases hx.entry_eq m.owns
        exact hpa ⟨hqp, hva.symm⟩
      exact ⟨ptr1, x, (m.owns_ne hne).mpr hx, hva, hl⟩
  swapped := by
    intro q ptr1 x hx hsw
    rcases m.owns_cases h hx with ⟨rfl, rfl, rfl⟩ | ⟨hne, hx⟩
    · obtain ⟨hl, ht, idx, hnum, -, hused⟩ := m.slot hsw
      exact ⟨hl, ht, idx, hnum, hused⟩
    · obtain ⟨idx, hnum, -, hused, -⟩ := m.slot_other h hne hx hsw
      exact ⟨(h.swapped hx hsw).1, (h.swapped hx hsw).2.1, idx, hnum, hused⟩
  slots := by
    -- the slot of another page was in use, the one the page comes to was not
    have hfresh : ∀ {q ptr1 x}, ptr1 ≠ ptr → s.Owns q ptr1 x → x.isSwapped = true →
        e'.isSwapped = true → x.swapNum ≠ e'.swapNum := by
      intro q ptr1 x hne hx hsw hsw' heq
      obtain ⟨-, -, idx, hnum, hfree, -⟩ := m.slot hsw'
      obtain ⟨-, -, idx', hnum', hused⟩ := h.swapped hx hsw
      have hidx := slot_inj hused hfree (hnum'.symm.trans (heq.trans hnum))
      rw [hidx, hfree] at hused
      cases hused
    intro q q' ptr1 ptr2 x y hx hy hsw hsw' heq
    rcases m.owns_cases h hx with ⟨rfl, rfl, rfl⟩ | ⟨hne, hx⟩
    · rcases m.owns_cases h hy with ⟨-, rfl, -⟩ | ⟨hne, hy⟩
      · rfl
      · exact absurd heq.symm (hfresh hne hy hsw' hsw)
    · rcases m.owns_cases h hy with ⟨rfl, rfl, rfl⟩ | ⟨-, hy⟩
      · exact absurd heq (hfresh hne hx hsw hsw')
      · exact h.slots hx hy hsw hsw' heq

theorem Moves.content_other (h : Inv s) (m : Moves s s' p ptr e e' f pte) (hne : ptr' ≠ ptr)
    (hown : s.Owns q ptr' x) : s'.content q x = s.content q x := by
  have hpte := m.pte_other h hne hown
  unfold content
  rw [hpte, m.inode]
  by_cases hl : x.loaded = true
  · rw [if_pos hl, if_pos hl]
    exact m.ram (h.loaded hown hl).1 hne
  · rw [if_neg hl, if_neg hl]
    by_cases hsw : x.isSwapped = true
    · obtain ⟨idx, hnum, hused, -, hpage⟩ := m.slot_other h hne hown hsw
      rw [if_pos hsw, if_pos hsw, hnum, slotOf_sectorOf hused, hpage]
    · rw [if_neg hsw, if_neg hsw]

/-! ## A page is evicted -/

/-- The state `evict_frame` leaves, where `e` is the entry with its slot. -/
def evicted (s : Mem) (fte : Fte) (e : Spte) (swap : Swap) : Mem :=
  { s with
    swap := swap
    frameTable := s.frameTable.erase fte
    pagedir := update s.pagedir fte.owner (update (s.pagedir fte.owner) e.userVaddr
      { s.pagedir fte.owner e.userVaddr with present := false })
    usedMap := s.usedMap.set fte.frame false
    ram := update s.ram fte.frame (Arr.const 0xcc)
    heap := update s.heap fte.spte (some { e with loaded := false }) }

/-- The page of `e` has been written to slot `idx`, which was free. -/
structure WrittenTo (s : Mem) (fte : Fte) (swap : Swap) (idx : Nat) : Prop where
  free : s.swap.table[idx]? = some false
  table : swap.table = s.swap.table.set idx true
  page : swap.page idx = s.ram fte.frame
  others : ∀ {k}, k < s.swap.table.length → k ≠ idx → swap.page k = s.swap.page k

variable {fte : Fte}

theorem evict_of_save {e1 : Spte} (hsave : s.saveVictim fte e = some (e1, swap))
    (hev : s.evict fte e = some s') :
    s.usedMap[fte.frame]? = some true ∧ s' = s.evicted fte e1 swap := by
  unfold evict at hev
  rw [hsave] at hev
  simp only [some_bind, pallocFreePage] at hev
  by_cases hused : s.usedMap[fte.frame]? = some true
  · rw [if_pos (by exact hused)] at hev
    exact ⟨hused, (Option.some.inj hev).symm⟩
  · rw [if_neg (by exact hused)] at hev
    cases hev

/-- A page that is dirty, or has been swapped out before, goes to a slot; another is
dropped. -/
theorem evict_cases (hev : s.evict fte e = some s') :
    s.usedMap[fte.frame]? = some true ∧
    ((¬ ((s.pagedir fte.owner e.userVaddr).dirty = true ∨ e.fileType = .swap) ∧
      s' = s.evicted fte e s.swap) ∨
     ((s.pagedir fte.owner e.userVaddr).dirty = true ∨ e.fileType = .swap) ∧
      ∃ idx swap, s.WrittenTo fte swap idx ∧ s' = s.evicted fte
        { e with fileType := .swap, swapNum := Swap.sectorOf idx, isSwapped := true } swap) := by
  by_cases hd : (s.pagedir fte.owner e.userVaddr).dirty = true ∨ e.fileType = .swap
  · -- the page goes to the first free slot
    cases hscan : bitmapScan s.swap.table 0 1 false with
    | none =>
      simp [evict, saveVictim, pagedirIsDirty, hd, Swap.swapOut_none _ hscan] at hev
    | some idx =>
      obtain ⟨swap, hout, -, htable, hpage, hothers⟩ := Swap.swapOut_spec (s.ram fte.frame) hscan
      have hsave : s.saveVictim fte e = some
          ({ e with fileType := .swap, swapNum := Swap.sectorOf idx, isSwapped := true }, swap) := by
        rw [saveVictim, if_pos (by exact hd), hout]
        rfl
      obtain ⟨hused, heq⟩ := evict_of_save hsave hev
      exact ⟨hused, .inr ⟨hd, idx, swap, ⟨Swap.scan_free hscan, htable, hpage, hothers _⟩, heq⟩⟩
  · have hsave : s.saveVictim fte e = some (e, s.swap) := if_neg hd
    obtain ⟨hused, heq⟩ := evict_of_save hsave hev
    exact ⟨hused, .inl ⟨hd, heq⟩⟩

section
variable (h : Inv s) (hfte : fte ∈ s.frameTable)
include h hfte

theorem Inv.mem_erase (fte' : Fte) :
    fte' ∈ s.frameTable.erase fte ↔ fte' ∈ s.frameTable ∧ fte'.spte ≠ fte.spte := by
  rw [(List.Nodup.of_map _ h.nodup).mem_erase_iff]
  refine ⟨fun ⟨hne, hmem⟩ => ⟨hmem, fun hspte => hne (h.fte_eq hmem hfte hspte)⟩, ?_⟩
  rintro ⟨hmem, hspte⟩
  exact ⟨fun heq => hspte (congrArg Fte.spte heq), hmem⟩

theorem Inv.frame_ne (hmem : fte' ∈ s.frameTable) (hspte : fte'.spte ≠ fte.spte) :
    fte'.frame ≠ fte.frame :=
  fun hframe => hspte (congrArg Fte.spte (h.spte_eq hmem hfte hframe))

theorem Inv.erase_used (hmem : fte' ∈ s.frameTable.erase fte) :
    (s.usedMap.set fte.frame false)[fte'.frame]? = some true := by
  obtain ⟨hmem, hspte⟩ := (h.mem_erase hfte fte').mp hmem
  rw [getElem?_set_ne (h.frame_ne hfte hmem hspte).symm]
  exact h.used hmem

theorem Inv.erase_pooled (hf : (s.usedMap.set fte.frame false)[f]? = some true) :
    ∃ fte' ∈ s.frameTable.erase fte, fte'.frame = f := by
  have hne : fte.frame ≠ f := by
    rintro rfl
    rw [List.getElem?_set_self (List.getElem?_eq_some_iff.mp (h.used hfte)).1] at hf
    cases hf
  rw [List.getElem?_set_ne hne] at hf
  obtain ⟨fte', hmem, rfl⟩ := h.pooled hf
  exact ⟨fte', (h.mem_erase hfte fte').mpr ⟨hmem, fun hspte =>
    hne (congrArg Fte.frame (h.fte_eq hmem hfte hspte)).symm⟩, rfl⟩

omit h hfte in
theorem Inv.erase_nodup (h : Inv s) (fte : Fte) : ((s.frameTable.erase fte).map Fte.frame).Nodup :=
  (erase_sublist.map _).nodup h.nodup

theorem Inv.evicted_moves (hown : s.Owns fte.owner fte.spte e)
    {e1 : Spte} (hva : e1.userVaddr = e.userVaddr) (htype : e1.fileType ≠ .mmap)
    (hslot : e1.isSwapped = true → e1.fileType = .swap ∧ ∃ idx, e1.swapNum = Swap.sectorOf idx ∧
      s.swap.table[idx]? = some false ∧ swap.table[idx]? = some true)
    (hslots : ∀ {idx}, s.swap.table[idx]? = some true →
      swap.table[idx]? = some true ∧ swap.page idx = s.swap.page idx)
    (hfilled : ∀ {idx}, swap.table[idx]? = some true → s.swap.table[idx]? = some true ∨
      e1.isSwapped = true ∧ e1.swapNum = Swap.sectorOf idx) :
    Moves s (s.evicted fte e1 swap) fte.owner fte.spte e { e1 with loaded := false } fte.frame
      { s.pagedir fte.owner e.userVaddr with present := false } where
  owns := hown
  tables := rfl
  next := rfl
  inode := rfl
  heap := rfl
  vaddr := hva
  typed := htype
  pagedir := by rw [← hva]; rfl
  pteOk := ⟨rfl, nofun⟩
  frames fte' := by
    refine (h.mem_erase hfte fte').trans ⟨.inl, ?_⟩
    rintro (hmem | ⟨hl, -⟩)
    · exact hmem
    · cases hl
  pool := length_set
  used := h.erase_used hfte
  pooled := h.erase_pooled hfte
  nodup := h.erase_nodup fte
  ram := by
    intro fte' hmem hspte
    exact update_of_ne (h.frame_ne hfte hmem hspte) _ _
  slot hsw := ⟨rfl, hslot hsw⟩
  slots hused _ := hslots hused
  filled hused := by
    -- the page is in memory, and so it was in no slot
    obtain ⟨x, hx, hl, -⟩ := h.resident hfte
    cases hown.entry_eq hx
    refine (hfilled hused).imp (fun hold => ⟨hold, fun hsw => ?_⟩) id
    rw [(h.swapped hown hsw).1] at hl
    cases hl

end

/-- The slot that is written is not one of those in use. -/
theorem WrittenTo.slots (w : s.WrittenTo fte swap idx) {k : Nat}
    (hused : s.swap.table[k]? = some true) :
    swap.table[k]? = some true ∧ swap.page k = s.swap.page k := by
  have hne : k ≠ idx := by
    rintro rfl
    rw [w.free] at hused
    cases hused
  refine ⟨?_, w.others (List.getElem?_eq_some_iff.mp hused).1 hne⟩
  rw [w.table, List.getElem?_set_ne hne.symm]
  exact hused

theorem WrittenTo.used (w : s.WrittenTo fte swap idx) :
    swap.table[idx]? = some true := by
  rw [w.table]
  exact List.getElem?_set_self (List.getElem?_eq_some_iff.mp w.free).1

theorem WrittenTo.filled (w : s.WrittenTo fte swap idx) {k : Nat}
    (hused : swap.table[k]? = some true) : s.swap.table[k]? = some true ∨ k = idx := by
  by_cases hk : k = idx
  · exact .inr hk
  · rw [w.table, getElem?_set_ne (Ne.symm hk)] at hused
    exact .inl hused

/-- **Eviction is a move**, to a slot or out of memory. -/
theorem Inv.evict_moves (h : Inv s) (hfte : fte ∈ s.frameTable) (he : s.heap fte.spte = some e)
    (hev : s.evict fte e = some s') :
    ∃ e', Moves s s' fte.owner fte.spte e e' fte.frame
        { s.pagedir fte.owner e.userVaddr with present := false } ∧
      (¬ ((s.pagedir fte.owner e.userVaddr).dirty = true ∨ e.fileType = .swap) ∧
        e' = { e with loaded := false } ∧ s'.swap = s.swap ∨
      ((s.pagedir fte.owner e.userVaddr).dirty = true ∨ e.fileType = .swap) ∧ ∃ idx, s.WrittenTo fte s'.swap idx ∧
        e' = { e with fileType := .swap, swapNum := Swap.sectorOf idx, isSwapped := true, loaded := false }) := by
  obtain ⟨x, hown, hl, -⟩ := h.resident hfte
  cases Option.some.inj (he.symm.trans hown.2)
  rcases (evict_cases hev).2 with ⟨hd, rfl⟩ | ⟨hd, idx, swap, hw, rfl⟩
  · refine ⟨_, h.evicted_moves hfte hown rfl (h.typed hown) (fun hsw => ?_)
      (fun hused => ⟨hused, rfl⟩) .inl, .inl ⟨hd, rfl, rfl⟩⟩
    rw [(h.swapped hown hsw).1] at hl
    cases hl
  · exact ⟨_, h.evicted_moves hfte hown rfl nofun (fun _ => ⟨rfl, idx, rfl, hw.free, hw.used⟩) hw.slots
      fun hused => (hw.filled hused).imp id fun hk => ⟨rfl, by rw [hk]⟩, .inr ⟨hd, idx, hw, rfl⟩⟩

/-! ## A page is brought in -/

/-- The state after a page has been brought into the frame `f`, which then holds `page`. -/
def install (s : Mem) (p ptr : Nat) (e : Spte) (f : Nat) (page : Page) : Mem :=
  { s with
    usedMap := s.usedMap.set f true
    ram := update s.ram f page
    frameTable := s.frameTable ++ [⟨f, p, ptr⟩]
    swap := if e.isSwapped then s.swap.setBit (Swap.slotOf e.swapNum) false else s.swap
    pagedir := update s.pagedir p (update (s.pagedir p) e.userVaddr
      ⟨f, true, false, false, e.writable⟩)
    heap := update s.heap ptr (some { e with isSwapped := false, loaded := true }) }

theorem Inv.frame_ne_free (h : Inv s) (hfree : s.usedMap[f]? = some false)
    (hfte : fte ∈ s.frameTable) : fte.frame ≠ f := by
  rintro rfl
  rw [h.used hfte] at hfree
  cases hfree

theorem Inv.install_moves (h : Inv s) (hown : s.Owns p ptr e) (hl : e.loaded = false)
    (hfree : s.usedMap[f]? = some false) (page : Page) :
    Moves s (s.install p ptr e f page) p ptr e { e with isSwapped := false, loaded := true } f
      ⟨f, true, false, false, e.writable⟩ where
  owns := hown
  tables := rfl
  next := rfl
  inode := rfl
  heap := rfl
  vaddr := rfl
  typed := show e.fileType ≠ .mmap from h.typed hown
  pagedir := rfl
  pteOk := ⟨rfl, fun _ => rfl⟩
  frames fte := by
    show fte ∈ s.frameTable ++ [⟨f, p, ptr⟩] ↔ _
    rw [List.mem_append, List.mem_singleton]
    refine or_congr ⟨fun hmem => ⟨hmem, h.not_framed hown hl hmem⟩, And.left⟩ ?_
    exact ⟨fun heq => ⟨rfl, heq⟩, And.right⟩
  pool := List.length_set
  used := by
    intro fte hmem
    show (s.usedMap.set f true)[fte.frame]? = some true
    rcases List.mem_append.mp hmem with hmem | hmem
    · rw [List.getElem?_set_ne (h.frame_ne_free hfree hmem).symm]
      exact h.used hmem
    · rw [List.mem_singleton.mp hmem]
      exact List.getElem?_set_self (List.getElem?_eq_some_iff.mp hfree).1
  pooled := by
    intro g hg
    replace hg : (s.usedMap.set f true)[g]? = some true := hg
    by_cases hgf : f = g
    · exact ⟨⟨f, p, ptr⟩, List.mem_append_right _ (List.mem_singleton_self _), hgf⟩
    · rw [List.getElem?_set_ne hgf] at hg
      obtain ⟨fte, hmem, hframe⟩ := h.pooled hg
      exact ⟨fte, List.mem_append_left _ hmem, hframe⟩
  nodup := by
    show ((s.frameTable ++ [Fte.mk f p ptr]).map Fte.frame).Nodup
    rw [List.map_append, List.nodup_append]
    refine ⟨h.nodup, List.nodup_singleton _, ?_⟩
    intro a ha b hb
    obtain ⟨fte, hmem, rfl⟩ := List.mem_map.mp ha
    rw [List.map_singleton, List.mem_singleton] at hb
    rw [hb]
    exact h.frame_ne_free hfree hmem
  ram hmem _ := update_of_ne (h.frame_ne_free hfree hmem) _ _
  slot hsw := by cases hsw
  slots := by
    intro idx hused hne
    show (if e.isSwapped then s.swap.setBit (Swap.slotOf e.swapNum) false else s.swap).table[idx]? =
      some true ∧ _
    by_cases hsw : e.isSwapped = true
    · -- its own slot, which is free from now on, is another one
      obtain ⟨-, -, k, hnum, hk⟩ := h.swapped hown hsw
      have hidx : k ≠ idx := fun heq => hne hsw (heq ▸ hnum)
      simp only [install, if_pos hsw, hnum, slotOf_sectorOf hk]
      refine ⟨?_, rfl⟩
      show (s.swap.table.set k false)[idx]? = some true
      rw [List.getElem?_set_ne hidx]
      exact hused
    · simp only [install, if_neg hsw]
      exact ⟨hused, trivial⟩
  filled := by
    intro idx hused
    refine .inl ?_
    replace hused : (if e.isSwapped then s.swap.setBit (Swap.slotOf e.swapNum) false else s.swap).table[idx]? =
      some true := hused
    by_cases hsw : e.isSwapped = true
    · -- its own slot is free now
      obtain ⟨-, -, k, hnum, hk⟩ := h.swapped hown hsw
      rw [if_pos hsw, hnum, slotOf_sectorOf hk] at hused
      replace hused : (s.swap.table.set k false)[idx]? = some true := hused
      have hidx : k ≠ idx := by
        rintro rfl
        rw [List.getElem?_set_self (List.getElem?_eq_some_iff.mp hk).1] at hused
        cases hused
      rw [List.getElem?_set_ne hidx] at hused
      exact ⟨hused, fun _ heq => hidx (slot_inj hk hused (hnum.symm.trans heq))⟩
    · rw [if_neg hsw] at hused
      exact ⟨hused, fun h' => absurd h' hsw⟩

/-! ## What is in a page -/

/-- The entry says where the page is when it is not in memory. -/
structure Formed (e : Spte) : Prop where
  full : e.fileType = .file → e.readBytes + e.zeroBytes = 4096
  kept : e.fileType = .swap → e.loaded = false → e.isSwapped = true

/-- What a page loses when it is dropped can be had again from the file. -/
structure Backed (s : Mem) (p : Nat) (e : Spte) : Prop extends Formed e where
  clean : e.fileType = .file → e.loaded = true → (s.pagedir p e.userVaddr).dirty = false →
    s.ram (s.pagedir p e.userVaddr).frame = filePage (s.inode e.file) e

/-- What does not change in an entry when its page moves. -/
structure SamePage (e e' : Spte) : Prop where
  vaddr : e'.userVaddr = e.userVaddr
  readBytes : e'.readBytes = e.readBytes
  zeroBytes : e'.zeroBytes = e.zeroBytes
  file : e'.file = e.file
  offset : e'.offset = e.offset
  writable : e'.writable = e.writable
  mapId : e'.mapId = e.mapId

theorem SamePage.refl (e : Spte) : SamePage e e := (by constructor <;> rfl)

theorem SamePage.trans {e'' : Spte} (h : SamePage e e') (h' : SamePage e' e'') : SamePage e e'' :=
  ⟨h'.vaddr.trans h.vaddr, h'.readBytes.trans h.readBytes, h'.zeroBytes.trans h.zeroBytes,
    h'.file.trans h.file, h'.offset.trans h.offset, h'.writable.trans h.writable, h'.mapId.trans h.mapId⟩

/-- The processes have the same pages as before, with the same content. -/
structure Keeps (s s' : Mem) : Prop where
  tables : s'.supPageTable = s.supPageTable
  pool : s'.usedMap.length = s.usedMap.length
  owns : ∀ {p ptr e}, s.Owns p ptr e → ∃ e', s'.Owns p ptr e' ∧ SamePage e e' ∧
    (s.Backed p e → s'.Backed p e' ∧ s'.content p e' = s.content p e)
  only : ∀ {p ptr e'}, s'.Owns p ptr e' → ∃ e, s.Owns p ptr e
  formed : ∀ {p ptr e e'}, s.Owns p ptr e → s'.Owns p ptr e' → Formed e → Formed e'

theorem Keeps.back (h : Keeps s s') (hown : s'.Owns p ptr e') :
    ∃ e, s.Owns p ptr e ∧ SamePage e e' ∧
      (s.Backed p e → s'.Backed p e' ∧ s'.content p e' = s.content p e) := by
  obtain ⟨e, hold⟩ := h.only hown
  obtain ⟨x, hx, hrest⟩ := h.owns hold
  cases hown.entry_eq hx
  exact ⟨e, hold, hrest⟩

theorem Keeps.trans {s'' : Mem} (h : Keeps s s') (h' : Keeps s' s'') : Keeps s s'' where
  tables := h'.tables.trans h.tables
  pool := h'.pool.trans h.pool
  owns hown := by
    obtain ⟨e', hown', hsame, hback⟩ := h.owns hown
    obtain ⟨e'', hown'', hsame', hback'⟩ := h'.owns hown'
    refine ⟨e'', hown'', hsame.trans hsame', fun hb => ?_⟩
    obtain ⟨hb', hc⟩ := hback hb
    obtain ⟨hb'', hc'⟩ := hback' hb'
    exact ⟨hb'', hc'.trans hc⟩
  only hown'' := by
    obtain ⟨e', hown'⟩ := h'.only hown''
    exact h.only hown'
  formed hown hown'' hf := by
    obtain ⟨e', hown', -⟩ := h.owns hown
    exact h'.formed hown' hown'' (h.formed hown hown' hf)

theorem Moves.backed_other (h : Inv s) (m : Moves s s' p ptr e e' f pte) (hne : ptr' ≠ ptr)
    (hown : s.Owns q ptr' x) (hb : s.Backed q x) : s'.Backed q x where
  toFormed := hb.toFormed
  clean ht hl hd := by
    rw [m.pte_other h hne hown] at hd ⊢
    rw [m.inode, ← hb.clean ht hl hd]
    exact m.ram (h.loaded hown hl).1 hne

theorem Moves.keeps (h : Inv s) (m : Moves s s' p ptr e e' f pte) (hsame : SamePage e e')
    (hformed : Formed e → Formed e')
    (hself : s.Backed p e → s'.Backed p e' ∧ s'.content p e' = s.content p e) : Keeps s s' where
  __ := m
  owns := by
    intro q ptr' x hown
    by_cases hne : ptr' = ptr
    · subst hne
      cases h.owner hown.1 m.owns.1
      cases hown.entry_eq m.owns
      exact ⟨e', m.owns_self, hsame, hself⟩
    · exact ⟨x, (m.owns_ne hne).mpr hown, SamePage.refl x, fun hb =>
        ⟨m.backed_other h hne hown hb, m.content_other h hne hown⟩⟩
  only := by
    intro q ptr' x hown
    rcases m.owns_cases h hown with ⟨rfl, rfl, rfl⟩ | ⟨-, hown⟩
    · exact ⟨e, m.owns⟩
    · exact ⟨x, hown⟩
  formed := by
    intro q ptr' x x' hown hown' hf
    rcases m.owns_cases h hown' with ⟨rfl, rfl, rfl⟩ | ⟨-, hold⟩
    · cases hown.entry_eq m.owns
      exact hformed hf
    · cases hown.entry_eq hold
      exact hf

theorem Inv.evict_keeps (h : Inv s) (hfte : fte ∈ s.frameTable) (he : s.heap fte.spte = some e)
    (hev : s.evict fte e = some s') : Keeps s s' := by
  obtain ⟨e', m, hplace⟩ := h.evict_moves hfte he hev
  obtain ⟨x, hown, hl, -, hframe⟩ := h.resident hfte
  cases hown.entry_eq m.owns
  have hcontent : s.content fte.owner e = s.ram fte.frame := by
    rw [content, if_pos hl, hframe]
  rcases hplace with ⟨hd, rfl, hswap⟩ | ⟨-, idx, hw, rfl⟩
  · -- a clean page of a file: the file has its content
    obtain ⟨hd, htype⟩ := not_or.mp hd
    have hfile : e.fileType = .file := by
      have := h.typed hown
      cases ht : e.fileType <;> simp_all
    have hsw : e.isSwapped ≠ true := fun hsw => htype (h.swapped hown hsw).2.1
    have hformed : Formed e → Formed { e with loaded := false } :=
      fun hf => ⟨hf.full, fun ht => absurd ht htype⟩
    refine m.keeps h (by constructor <;> rfl) hformed fun hb =>
      ⟨⟨hformed hb.toFormed, nofun⟩, ?_⟩
    rw [hcontent, ← hframe, hb.clean hfile hl (Bool.not_eq_true _ ▸ hd)]
    simp only [content, if_neg hsw, m.inode]
    rfl
  · refine m.keeps h (by constructor <;> rfl) (fun _ => ⟨nofun, fun _ _ => rfl⟩) fun hb =>
      ⟨⟨⟨nofun, fun _ _ => rfl⟩, nofun⟩, ?_⟩
    rw [hcontent, ← hw.page]
    show s'.swap.page (Swap.slotOf (Swap.sectorOf idx)) = _
    rw [slotOf_sectorOf hw.free]

theorem content_install (page : Page) :
    (s.install p ptr e f page).content p { e with isSwapped := false, loaded := true } = page := by
  show update s.ram f page (update s.pagedir p (update (s.pagedir p)
    e.userVaddr ⟨f, true, false, false, e.writable⟩) p e.userVaddr).frame = page
  rw [update_self, update_self, update_self]

/-- **Bringing a page in keeps the content of every page**, if the frame has been filled
with the content of this one. -/
theorem Inv.install_keeps (h : Inv s) (hown : s.Owns p ptr e) (hl : e.loaded = false)
    (hfree : s.usedMap[f]? = some false) : Keeps s (s.install p ptr e f (s.content p e)) := by
  have m := h.install_moves hown hl hfree (s.content p e)
  refine m.keeps h (by constructor <;> rfl) (fun hf => ⟨hf.full, nofun⟩) fun hb =>
    ⟨⟨⟨hb.full, nofun⟩, fun ht _ _ => ?_⟩, content_install _⟩
  have hsw : e.isSwapped ≠ true := fun hsw => by
    have ht' : e.fileType = .file := ht
    rw [(h.swapped hown hsw).2.1] at ht'
    cases ht'
  -- the content of a page of the file that is not loaded is in the file
  have hpage : (s.install p ptr e f (s.content p e)).content p
      { e with isSwapped := false, loaded := true } = s.content p e := content_install _
  rw [content, if_pos rfl] at hpage
  rw [hpage, content, hl, if_neg Bool.false_ne_true, if_neg hsw]
  rfl

end

end Mem

end Pintos.VM
