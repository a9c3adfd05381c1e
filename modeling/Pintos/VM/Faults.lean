import Pintos.VM.Eviction

/-!
# How a page comes into memory

A page of the supplemental page table that is not present is brought in by
`page_handling`, from its slot or from its file. A page that is not in the table yet
comes there in two ways, as a page of a segment, which is not loaded, and as a page of
the stack, which is loaded at once.
-/

namespace Pintos.VM

open Lib FileSys UserProg Function List Option

namespace Mem

/-! ## Searching the table -/

section
variable {heap : Nat → Option Spte} {va : UInt32} {l : List Nat}

theorem search_found {ptr : Nat} (h : search heap va l = some (some ptr)) :
    ptr ∈ l ∧ ∃ e, heap ptr = some e ∧ e.userVaddr = va := by
  induction l with
  | nil => cases h
  | cons hd rest ih =>
    obtain ⟨e, he, h⟩ := bind_eq_some_iff.mp h
    split at h
    · cases h
      exact ⟨mem_cons_self, e, he, ‹_›⟩
    · obtain ⟨hmem, hrest⟩ := ih h
      exact ⟨mem_cons_of_mem _ hmem, hrest⟩

theorem search_absent (h : search heap va l = some none) :
    ∀ ptr ∈ l, ∃ e, heap ptr = some e ∧ e.userVaddr ≠ va := by
  induction l with
  | nil => simp
  | cons hd rest ih =>
    obtain ⟨e, he, h⟩ := bind_eq_some_iff.mp h
    split at h
    · cases h
    · intro ptr hmem
      rcases mem_cons.mp hmem with rfl | hmem
      · exact ⟨e, he, ‹_›⟩
      · exact ih h ptr hmem

theorem search_eq_none (h : ∀ ptr ∈ l, ∃ e, heap ptr = some e ∧ e.userVaddr ≠ va) :
    search heap va l = some none := by
  induction l with
  | nil => rfl
  | cons hd rest ih =>
    obtain ⟨e, he, hne⟩ := h hd mem_cons_self
    simp only [search, he, some_bind, if_neg hne]
    exact ih fun ptr hmem => h ptr (mem_cons_of_mem _ hmem)

theorem exists_search (hlive : ∀ ptr ∈ l, ∃ e, heap ptr = some e) : ∃ r, search heap va l = some r := by
  induction l with
  | nil => exact ⟨none, rfl⟩
  | cons hd rest ih =>
    obtain ⟨e, he⟩ := hlive hd mem_cons_self
    obtain ⟨r, hr⟩ := ih fun ptr hmem => hlive ptr (mem_cons_of_mem _ hmem)
    simp only [search, he, some_bind, hr]
    split
    · exact ⟨_, rfl⟩
    · exact ⟨r, rfl⟩

theorem Inv.search_eq {s : Mem} (h : Inv s) {p ptr : Nat} {e : Spte} (hown : s.Owns p ptr e)
    {r : Option Nat} (hsearch : search s.heap e.userVaddr (s.supPageTable p) = some r) : r = some ptr := by
  cases r with
  | none =>
    obtain ⟨x, hx, hne⟩ := search_absent hsearch ptr hown.1
    cases Option.some.inj (hown.2.symm.trans hx)
    exact absurd rfl hne
  | some ptr' =>
    obtain ⟨hmem, x, hx, hva⟩ := search_found hsearch
    rw [h.vaddr hown ⟨hmem, hx⟩ hva.symm]

/-! ## page_handling -/

def BringsIn (s s' : Mem) (p ptr : Nat) (e : Spte) : Prop :=
  ∃ s₁ f, MadeRoom s s₁ ∧ s₁.Owns p ptr e ∧ s₁.usedMap[f]? = some false ∧
    s' = s₁.install p ptr e f (s₁.content p e)

variable {s s' : Mem} {p ptr f : Nat} {e : Spte} {b : Bool}

variable {upage : UInt32} {writable : Bool}

theorem installPage_absent (h : (s.pagedir p upage).present = false) :
    s.installPage p upage f writable = some (true, s.setPte p upage ⟨f, true, false, false, writable⟩) := by
  simp [installPage, pagedirGetPage, pagedirSetPage, h]

theorem installPage_cases (h : s.installPage p upage f writable = some (b, s')) :
    b = false ∨ b = true ∧ s' = s.setPte p upage ⟨f, true, false, false, writable⟩ := by
  by_cases hpres : (s.pagedir p upage).present = true
  · simp only [installPage, pagedirGetPage, if_pos hpres] at h
    cases h
    exact .inl rfl
  · rw [installPage_absent (Bool.eq_false_of_not_eq_true hpres)] at h
    cases h
    exact .inr ⟨rfl, rfl⟩

/-- A page that is not loaded is not evicted to make room for it. -/
theorem MadeRoom.owns {s₁ : Mem} (r : MadeRoom s s₁) (h : Inv s) (hown : s.Owns p ptr e)
    (hl : e.loaded = false) : s₁.Owns p ptr e :=
  ⟨r.rests.tables ▸ hown.1, (r.heap_eq h fun _ hfte => h.not_framed hown hl hfte).trans hown.2⟩

section
variable (h : Inv s) (hown : s.Owns p ptr e)
include h hown

theorem Inv.not_present (hl : e.loaded = false) :
    (s.pagedir p e.userVaddr).present = false := by
  by_contra hpres
  rw [h.loaded_of_present hown (Bool.eq_true_of_not_eq_false hpres)] at hl
  cases hl

omit h hown in
theorem filePage_zero {file : File} (h : e.readBytes = 0) : filePage file e = Arr.const 0 := by
  funext i
  show (if i.val < e.readBytes then _ else (0 : UInt8)) = 0
  rw [if_neg (by omega)]

omit h hown in
theorem patch_filePage {file : File} (hfull : e.readBytes + e.zeroBytes = 4096) (page : Page) :
    (page.patch 0 e.readBytes file.byte e.offset).patch e.readBytes e.zeroBytes (fun _ => 0) 0 =
      filePage file e := by
  funext i
  have hi := i.isLt
  unfold Arr.patch filePage
  by_cases hlt : i.val < e.readBytes
  · rw [if_neg (by omega), if_pos (by omega), if_pos hlt, Nat.sub_zero]
  · rw [if_pos (by omega), if_neg hlt]

theorem Inv.fileHandling_spec (hl : e.loaded = false) (hsw : e.isSwapped = false)
    (hfull : e.readBytes + e.zeroBytes = 4096) (hfh : s.fileHandling p ptr = some (b, s')) :
    b = true ∧ BringsIn s s' p ptr e := by
  unfold fileHandling at hfh
  simp only [hown.2, some_bind] at hfh
  obtain ⟨⟨f, s2⟩, hal, hfh⟩ := bind_eq_some_iff.mp hfh
  obtain ⟨s1, room, hfree, rfl⟩ := h.allocateFrame_spec hal
  have hown1 := room.owns h hown hl
  have hpres := (room.inv h).not_present hown1 hl
  have hcontent : s1.content p e = filePage (s1.inode e.file) e := by
    rw [content, hl, if_neg Bool.false_ne_true, hsw, if_neg Bool.false_ne_true]
  simp only [hown1.2, some_bind, some_bind, some_bind, some_bind, some_bind, some_bind, some_bind, some_bind] at hfh
  obtain ⟨s3, hread, hfh⟩ := bind_eq_some_iff.mp hfh
  -- what `read_page` leaves in the frame
  have hs3 : s3 = { s1 with
      usedMap := s1.usedMap.set f true
      ram := update s1.ram f (s1.content p e)
      frameTable := s1.frameTable ++ [⟨f, p, ptr⟩] } := by
    unfold readPage at hread
    by_cases hzero : e.readBytes = 0
    · rw [if_neg (by omega)] at hread
      cases hread
      simp [hzero, hcontent, filePage_zero hzero]
    · rw [if_pos (by omega)] at hread
      have hbeq : (e.readBytes == 0) = false := by simpa using hzero
      simp only [File.readAt, hbeq] at hread
      split at hread
      · next hn =>
        cases hread
        simp only [hn, Bool.false_eq_true, if_false, hcontent, patch_filePage hfull]
      · cases hread
  subst hs3
  rw [installPage_absent (by exact hpres)] at hfh
  cases hfh
  refine ⟨rfl, s1, f, room, hown1, hfree, ?_⟩
  simp [install, setSpte, setPte, hsw]

theorem Inv.swapHandling_spec (hl : e.loaded = false) (hsw : e.isSwapped = true)
    (hsh : s.swapHandling p ptr = some (b, s')) :
    b = true ∧ BringsIn s s' p ptr e := by
  obtain ⟨⟨f, s2⟩, hal, hsh⟩ := bind_eq_some_iff.mp hsh
  obtain ⟨s1, room, hfree, rfl⟩ := h.allocateFrame_spec hal
  have hown1 := room.owns h hown hl
  have hpres := (room.inv h).not_present hown1 hl
  obtain ⟨-, -, idx, hnum, hused⟩ := (room.inv h).swapped hown1 hsw
  have hslot := slotOf_sectorOf hused
  simp only [hown1.2, some_bind] at hsh
  rw [installPage_absent (by exact hpres)] at hsh
  simp only [Option.bind_some, if_true, readSlot, if_pos hsw, hnum, Option.bind_eq_bind] at hsh
  rw [Swap.swapIn_spec _ (by exact hused)] at hsh
  cases hsh
  refine ⟨rfl, s1, f, room, hown1, hfree, ?_⟩
  simp [install, setSpte, setPte, content, hsw, hl, hnum, hslot]

/-- **`page_handling` brings a page in that is not present**, with its content. -/
theorem Inv.pageHandling_spec (hf : Formed e) (hpres : (s.pagedir p e.userVaddr).present = false)
    (hph : s.pageHandling p ptr = some (b, s')) : b = true ∧ BringsIn s s' p ptr e := by
  have hl : e.loaded = false := by
    by_contra hl
    rw [(h.loaded hown (Bool.eq_true_of_not_eq_false hl)).2] at hpres
    cases hpres
  simp only [pageHandling, hown.2, some_bind] at hph
  cases htype : e.fileType with
  | mmap => exact absurd htype (h.typed hown)
  | swap =>
    rw [htype] at hph
    exact h.swapHandling_spec hown hl (hf.kept htype hl) hph
  | file =>
    simp only [htype, hl, Bool.false_eq_true, if_false] at hph
    have hsw : e.isSwapped = false := by
      by_contra hsw
      rw [(h.swapped hown (Bool.eq_true_of_not_eq_false hsw)).2.1] at htype
      cases htype
    exact h.fileHandling_spec hown hl hsw (hf.full htype) hph

omit h hown in
theorem exists_readPage_iff (s : Mem) (f : Nat) : (∃ s', s.readPage e f = some s') ↔
    (0 < e.readBytes → e.offset + e.readBytes ≤ (s.inode e.file).length) := by
  unfold readPage File.readAt
  dsimp only
  split
  · split
    · exact ⟨fun _ _ => by omega, fun _ => ⟨_, rfl⟩⟩
    · exact ⟨fun ⟨s', hs'⟩ => (nomatch hs'), fun hle => by omega⟩
  · exact ⟨fun _ hpos => by omega, fun _ => ⟨s, rfl⟩⟩

omit h hown in
theorem readPage_frame {s₁ : Mem} (h : s.readPage e f = some s₁) : ∃ ram, s₁ = { s with ram := ram } := by
  unfold readPage at h
  dsimp only at h
  split at h
  · split at h
    · cases h
      exact ⟨_, rfl⟩
    · cases h
  · cases h
    exact ⟨s.ram, rfl⟩

/-- `file_handling` returns if and only if the file has the bytes, where a frame is found. -/
theorem Inv.exists_fileHandling_iff (hl : e.loaded = false)
    (hframe : ∃ r, s.allocateFrame p ptr (e.readBytes == 0) = some r) :
    (∃ r, s.fileHandling p ptr = some r) ↔
      (0 < e.readBytes → e.offset + e.readBytes ≤ (s.inode e.file).length) := by
  obtain ⟨⟨f, s2⟩, hal⟩ := hframe
  obtain ⟨s1, room, -, hs2⟩ := h.allocateFrame_spec hal
  have hown1 := room.owns h hown hl
  have hheap : s2.heap ptr = some e := by
    rw [hs2]
    exact hown1.2
  have hpres : (s2.pagedir p e.userVaddr).present = false := by
    rw [hs2]
    exact (room.inv h).not_present hown1 hl
  have hinode : s2.inode = s.inode := by
    rw [hs2]
    exact room.rests.inode
  rw [← hinode, ← exists_readPage_iff s2 f]
  simp only [fileHandling, hown.2, some_bind, hal, hheap]
  constructor
  · rintro ⟨r, hr⟩
    obtain ⟨s3, hread, -⟩ := bind_eq_some_iff.mp hr
    exact ⟨s3, hread⟩
  · rintro ⟨s3, hread⟩
    obtain ⟨ram, rfl⟩ := readPage_frame hread
    rw [hread, some_bind, installPage_absent (by exact hpres)]
    exact ⟨_, rfl⟩

theorem Inv.exists_fileHandling (hl : e.loaded = false) (hslot : s.FreeSlot)
    (hpool : 0 < s.usedMap.length)
    (hfile : 0 < e.readBytes → e.offset + e.readBytes ≤ (s.inode e.file).length) :
    ∃ r, s.fileHandling p ptr = some r :=
  (h.exists_fileHandling_iff hown hl (h.exists_allocateFrame hslot hpool p ptr _)).mpr hfile

theorem Inv.exists_swapHandling (hl : e.loaded = false) (hsw : e.isSwapped = true)
    (hframe : ∃ r, s.allocateFrame p ptr false = some r) :
    ∃ r, s.swapHandling p ptr = some r := by
  obtain ⟨⟨f, s2⟩, hal⟩ := hframe
  obtain ⟨s1, room, -, rfl⟩ := h.allocateFrame_spec hal
  have hown1 := room.owns h hown hl
  have hpres := (room.inv h).not_present hown1 hl
  obtain ⟨-, -, idx, hnum, hused⟩ := (room.inv h).swapped hown1 hsw
  simp only [swapHandling, Option.bind_eq_bind, hal, Option.bind_some, hown1.2]
  rw [installPage_absent (by exact hpres)]
  simp only [Option.bind_some, if_true, readSlot, if_pos hsw, hnum, Option.bind_eq_bind]
  rw [Swap.swapIn_spec _ (by exact hused)]
  exact ⟨_, rfl⟩

/-- **`page_handling` returns if and only if the file has the bytes** of a page that is read
from it, where a frame is found. -/
theorem Inv.exists_pageHandling_iff (hf : Formed e) (hl : e.loaded = false)
    (hframe : ∀ zero, ∃ r, s.allocateFrame p ptr zero = some r) :
    (∃ r, s.pageHandling p ptr = some r) ↔
      (e.fileType = .file → 0 < e.readBytes → e.offset + e.readBytes ≤ (s.inode e.file).length) := by
  simp only [pageHandling, hown.2, some_bind]
  cases htype : e.fileType with
  | mmap => exact absurd htype (h.typed hown)
  | swap =>
    have hsome := h.exists_swapHandling hown hl (hf.kept htype hl) (hframe false)
    exact ⟨fun _ => nofun, fun _ => hsome⟩
  | file =>
    simp only [hl, Bool.false_eq_true, if_false]
    rw [h.exists_fileHandling_iff hown hl (hframe _)]
    exact ⟨fun hle _ => hle, fun hle => hle trivial⟩

theorem Inv.exists_pageHandling (hf : Formed e) (hl : e.loaded = false) (hslot : s.FreeSlot)
    (hpool : 0 < s.usedMap.length)
    (hfile : e.fileType = .file → e.offset + e.readBytes ≤ (s.inode e.file).length) :
    ∃ r, s.pageHandling p ptr = some r :=
  (h.exists_pageHandling_iff hown hf hl (h.exists_allocateFrame hslot hpool p ptr)).mpr
    fun htype _ => hfile htype

end

theorem BringsIn.inv (br : BringsIn s s' p ptr e) (h : Inv s) (hl : e.loaded = false) : Inv s' := by
  obtain ⟨s1, f, room, hown, hfree, rfl⟩ := br
  exact (room.inv h).moves ((room.inv h).install_moves hown hl hfree _)

theorem BringsIn.keeps (br : BringsIn s s' p ptr e) (h : Inv s) (hl : e.loaded = false) : Keeps s s' := by
  obtain ⟨s1, f, room, hown, hfree, rfl⟩ := br
  exact (room.keeps h).trans ((room.inv h).install_keeps hown hl hfree)

/-! ## A new page -/

/-- A new entry, which is in no table yet. -/
def fresh (s : Mem) (e : Spte) : Mem := { s.setSpte s.next e with next := s.next + 1 }

def enter (s : Mem) (p ptr : Nat) (e : Spte) : Mem :=
  { s with
    heap := update s.heap ptr (some e)
    supPageTable := update s.supPageTable p (s.supPageTable p ++ [ptr]) }

variable {q ptr' : Nat} {x : Spte}

@[simp] theorem fresh_heap (s : Mem) (e : Spte) : (s.fresh e).heap s.next = some e :=
  update_self ..

theorem Inv.next_unlisted (h : Inv s) (q : Nat) : s.next ∉ s.supPageTable q :=
  fun hmem => lt_irrefl _ (h.below hmem)

theorem Inv.fresh_owns (h : Inv s) : (s.fresh e).Owns q ptr x ↔ s.Owns q ptr x := by
  show ptr ∈ s.supPageTable q ∧ update s.heap s.next (some e) ptr = some x ↔ _
  refine and_congr_right fun hmem => ?_
  have hne : ptr ≠ s.next := fun heq => h.next_unlisted q (heq ▸ hmem)
  rw [update_of_ne hne]

theorem Inv.fresh (h : Inv s) (e : Spte) : Inv (s.fresh e) where
  __ := h
  below hmem := Nat.lt_succ_of_lt (h.below hmem)
  vaddr hx hy := h.vaddr (h.fresh_owns.mp hx) (h.fresh_owns.mp hy)
  typed hx := h.typed (h.fresh_owns.mp hx)
  resident hfte := by
    obtain ⟨x, hown, hrest⟩ := h.resident hfte
    exact ⟨x, h.fresh_owns.mpr hown, hrest⟩
  framed hx := h.framed (h.fresh_owns.mp hx)
  present hpres := by
    obtain ⟨ptr, x, hown, hrest⟩ := h.present hpres
    exact ⟨ptr, x, h.fresh_owns.mpr hown, hrest⟩
  swapped hx := h.swapped (h.fresh_owns.mp hx)
  slots hx hy := h.slots (h.fresh_owns.mp hx) (h.fresh_owns.mp hy)

theorem Inv.fresh_keeps (h : Inv s) (e : Spte) : Keeps s (s.fresh e) where
  tables := rfl
  pool := rfl
  owns hown := ⟨_, h.fresh_owns.mpr hown, SamePage.refl _, fun hb => ⟨⟨hb.toFormed, hb.clean⟩, rfl⟩⟩
  only hown := ⟨_, h.fresh_owns.mp hown⟩
  formed hown hown' hf := hown.entry_eq (h.fresh_owns.mp hown') ▸ hf

theorem mem_enter : ptr' ∈ (s.enter p ptr e).supPageTable q ↔
    ptr' ∈ s.supPageTable q ∨ q = p ∧ ptr' = ptr := by
  show ptr' ∈ update s.supPageTable p (s.supPageTable p ++ [ptr]) q ↔ _
  by_cases hq : q = p
  · subst hq
    rw [update_self, mem_append, mem_singleton]
    simp
  · rw [update_of_ne hq]
    simp [hq]

theorem enter_owns (hnew : ∀ q, ptr ∉ s.supPageTable q) :
    (s.enter p ptr e).Owns q ptr' x ↔ q = p ∧ ptr' = ptr ∧ x = e ∨ s.Owns q ptr' x := by
  show _ ∧ update s.heap ptr (some e) ptr' = some x ↔ _
  rw [mem_enter]
  by_cases hptr : ptr' = ptr
  · subst hptr
    have hno : ¬ s.Owns q ptr' x := fun hown => hnew q hown.1
    simp [hnew q, hno, eq_comm]
  · simp [Owns, hptr]

/-- **The structures agree when a page has been entered** that is neither loaded nor in a
slot, at an address where the thread had no page. -/
theorem Inv.enter (h : Inv s) (hnew : ∀ q, ptr ∉ s.supPageTable q) (hlt : ptr < s.next)
    (hl : e.loaded = false) (hsw : e.isSwapped = false) (htype : e.fileType ≠ .mmap)
    (hva : ∀ {ptr' x}, s.Owns p ptr' x → x.userVaddr ≠ e.userVaddr) : Inv (s.enter p ptr e) where
  owner := by
    intro q q' ptr' hq hq'
    rcases mem_enter.mp hq with hold | ⟨rfl, rfl⟩
    · rcases mem_enter.mp hq' with hold' | ⟨rfl, rfl⟩
      · exact h.owner hold hold'
      · exact absurd hold (hnew q)
    · rcases mem_enter.mp hq' with hold' | ⟨rfl, -⟩
      · exact absurd hold' (hnew q')
      · rfl
  below hmem := by
    rcases mem_enter.mp hmem with hmem | ⟨-, rfl⟩
    · exact h.below hmem
    · exact hlt
  vaddr := by
    intro q ptr1 ptr2 x y hx hy heq
    rcases (enter_owns hnew).mp hx with ⟨rfl, rfl, rfl⟩ | hx'
    · rcases (enter_owns hnew).mp hy with ⟨-, rfl, -⟩ | hy'
      · rfl
      · exact absurd heq.symm (hva hy')
    · rcases (enter_owns hnew).mp hy with ⟨rfl, rfl, rfl⟩ | hy'
      · exact absurd heq (hva hx')
      · exact h.vaddr hx' hy' heq
  typed := by
    intro q ptr1 x hx
    rcases (enter_owns hnew).mp hx with ⟨rfl, rfl, rfl⟩ | hx
    · exact htype
    · exact h.typed hx
  resident hfte := by
    obtain ⟨x, hown, hrest⟩ := h.resident hfte
    exact ⟨x, (enter_owns hnew).mpr (.inr hown), hrest⟩
  __ := h
  framed := by
    intro q ptr1 x hx hload
    rcases (enter_owns hnew).mp hx with ⟨rfl, rfl, rfl⟩ | hx
    · rw [hl] at hload
      cases hload
    · exact h.framed hx hload
  present hpres := by
    obtain ⟨ptr1, x, hown, hrest⟩ := h.present hpres
    exact ⟨ptr1, x, (enter_owns hnew).mpr (.inr hown), hrest⟩
  swapped := by
    intro q ptr1 x hx hswap
    rcases (enter_owns hnew).mp hx with ⟨rfl, rfl, rfl⟩ | hx
    · rw [hsw] at hswap
      cases hswap
    · exact h.swapped hx hswap
  slots := by
    intro q q' ptr1 ptr2 x y hx hy hswap hswap' heq
    rcases (enter_owns hnew).mp hx with ⟨rfl, rfl, rfl⟩ | hx
    · rw [hsw] at hswap
      cases hswap
    · rcases (enter_owns hnew).mp hy with ⟨rfl, rfl, rfl⟩ | hy
      · rw [hsw] at hswap'
        cases hswap'
      · exact h.slots hx hy hswap hswap' heq

theorem enter_keeps (hnew : ∀ q, ptr ∉ s.supPageTable q) (hown : s.Owns q ptr' x) :
    (s.enter p ptr e).Owns q ptr' x ∧ (s.Backed q x → (s.enter p ptr e).Backed q x) ∧
      (s.enter p ptr e).content q x = s.content q x :=
  ⟨(enter_owns hnew).mpr (.inr hown), fun hb => ⟨hb.toFormed, hb.clean⟩, rfl⟩

theorem pageInsert_new (he : s.heap ptr = some e) (hins : s.pageInsert p ptr = some (b, s'))
    (hb : b = true) : s' = s.enter p ptr e ∧
      ∀ ptr' ∈ s.supPageTable p, ∃ x, s.heap ptr' = some x ∧ x.userVaddr ≠ e.userVaddr := by
  subst hb
  simp only [pageInsert, he, some_bind] at hins
  obtain ⟨r, hsearch, hins⟩ := bind_eq_some_iff.mp hins
  cases r with
  | some _ => cases hins
  | none =>
    cases hins
    refine ⟨?_, search_absent hsearch⟩
    have hheap : update s.heap ptr (some e) = s.heap := by rw [← he, update_eq_self]
    rw [Mem.enter, hheap]

theorem allocatePage_cases {addr : UInt32} {loaded : Bool} {pType : PallocType}
    {readBytes zeroBytes file offset : Nat}
    (hal : s.allocatePage p addr loaded pType readBytes zeroBytes file offset writable = some (ptr, s')) :
    isKernelVaddr addr = false ∧ ptr = s.next ∧
      s' = s.fresh (s.newSpte p addr loaded pType readBytes zeroBytes file offset writable) := by
  unfold allocatePage at hal
  split at hal
  · cases hal
  · cases hal
    exact ⟨Bool.eq_false_of_not_eq_true ‹_›, rfl, rfl⟩

/-- **A turn of `load_segment`** enters a page of the file. -/
theorem Inv.loadSegment_spec (h : Inv s) {file ofs : Nat} {readBytes : Nat}
    (hls : s.loadSegment p file ofs upage readBytes writable = some s') :
    ∃ e, e = s.newSpte p upage false .loadSegment (min readBytes 4096) (4096 - min readBytes 4096)
        file ofs writable ∧
      s' = (s.fresh e).enter p s.next e ∧ (∀ {ptr x}, s.Owns p ptr x → x.userVaddr ≠ upage) := by
  unfold loadSegment at hls
  split at hls
  · obtain ⟨⟨ptr, s1⟩, hal, hls⟩ := bind_eq_some_iff.mp hls
    obtain ⟨-, rfl, rfl⟩ := allocatePage_cases hal
    obtain ⟨⟨b, s2⟩, hins, hb⟩ := bind_eq_some_iff.mp hls
    dsimp only at hb
    split at hb
    · cases hb
      obtain ⟨hs', hva⟩ := pageInsert_new (update_self ..) hins ‹_›
      refine ⟨_, rfl, hs', fun {ptr x} hown heq => ?_⟩
      obtain ⟨y, hy, hne⟩ := hva ptr hown.1
      cases Option.some.inj ((h.fresh_owns.mpr hown).2.symm.trans hy)
      exact hne heq
    · cases hb
  · cases hls

def stackSpte (va : UInt32) : Spte := ⟨va, 0, 0, false, 0, 0, true, false, .swap, none, 0⟩

/-- **`grow_stack`** enters a page that is loaded at once. -/
theorem Inv.growStack_spec (h : Inv s) {addr : UInt32} {pType : PallocType}
    (htype : pType = .growStack ∨ pType = .pageFault)
    (hgs : s.growStack p addr pType = some (true, s')) :
    ∃ s₁ f page, MadeRoom (s.fresh { stackSpte (pgRoundDown addr) with loaded := true }) s₁ ∧
      s₁.usedMap[f]? = some false ∧ (∀ {ptr x}, s₁.Owns p ptr x → x.userVaddr ≠ pgRoundDown addr) ∧
      s' = (s₁.enter p s.next (stackSpte (pgRoundDown addr))).install p s.next
        (stackSpte (pgRoundDown addr)) f page := by
  have hnew : s.newSpte p (pgRoundDown addr) true pType 0 0 0 0 true =
      { stackSpte (pgRoundDown addr) with loaded := true } := by
    rcases htype with rfl | rfl <;> rfl
  obtain ⟨⟨ptr, s0⟩, hpage, hgs⟩ := bind_eq_some_iff.mp hgs
  obtain ⟨-, rfl, rfl⟩ := allocatePage_cases hpage
  rw [hnew] at hgs
  obtain ⟨⟨f, s2⟩, hal, hgs⟩ := bind_eq_some_iff.mp hgs
  obtain ⟨s₁, room, hfree, rfl⟩ := (h.fresh _).allocateFrame_spec hal
  -- the new entry is not in the frame table, so it has not been evicted
  have he : s₁.heap s.next = some { stackSpte (pgRoundDown addr) with loaded := true } := by
    refine (room.heap_eq (h.fresh _) fun fte hfte heq => ?_).trans (update_self ..)
    obtain ⟨x, hown, -⟩ := h.resident hfte
    exact h.next_unlisted _ (heq ▸ hown.1)
  obtain ⟨⟨b, s3⟩, hinst, hgs⟩ := bind_eq_some_iff.mp hgs
  rcases installPage_cases hinst with rfl | ⟨rfl, rfl⟩
  · obtain ⟨s4, -, hgs⟩ := bind_eq_some_iff.mp hgs
    obtain ⟨s5, -, hgs⟩ := bind_eq_some_iff.mp hgs
    cases hgs
  · simp only [if_true] at hgs
    obtain ⟨hs', hva⟩ := pageInsert_new (by exact he) hgs rfl
    refine ⟨s₁, f, if (pType == .growStack) then Arr.const 0 else s₁.ram f, room, hfree,
      fun {ptr x} hown heq => ?_, ?_⟩
    · obtain ⟨y, hy, hne⟩ := hva ptr hown.1
      cases Option.some.inj (hown.2.symm.trans hy)
      exact hne heq
    · have hram : (if (pType == .growStack) then update s₁.ram f (Arr.const 0) else s₁.ram) =
          update s₁.ram f (if (pType == .growStack) then Arr.const 0 else s₁.ram f) := by
        split
        · rfl
        · rw [update_eq_self]
      rw [hs', hram]
      simp [Mem.enter, install, setPte, stackSpte]

end

end Mem

end Pintos.VM
