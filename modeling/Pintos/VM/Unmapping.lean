import Pintos.VM.Evolution

/-!
# Pages that are given up

`munmap` and `process_exit` give pages up with `free_page`: the frame goes back to the
pool and the entry is freed, but its address stays in the supplemental page table and
its swap slot stays in use (`dropped`).
-/

namespace Pintos.VM

open Lib FileSys UserProg Function List Option

namespace Mem

/-! ## A page is given up -/

def unframed (s : Mem) (p ptr : Nat) (e : Spte) : Mem :=
  { s with
    frameTable := s.frameTable.erase ⟨(s.pagedir p e.userVaddr).frame, p, ptr⟩
    usedMap := s.usedMap.set (s.pagedir p e.userVaddr).frame false
    ram := update s.ram (s.pagedir p e.userVaddr).frame (Arr.const 0xcc) }

/-- The page of `e` is given up: its frame, if it has one, and its entry. -/
def dropped (s : Mem) (p ptr : Nat) (e : Spte) : Mem :=
  if e.loaded then
    { (s.unframed p ptr e).pagedirClearPage p e.userVaddr with heap := update s.heap ptr none }
  else { s with heap := update s.heap ptr none }

section
variable {s s' : Mem} {p q ptr ptr' : Nat} {e x : Spte}

theorem freeFrame_absent {frame : Option Nat} (h : ∀ fte ∈ s.frameTable, some fte.frame ≠ frame) :
    s.freeFrame frame = some s := by
  have hfind : s.frameTable.find? (fun fte => some fte.frame = frame) = none :=
    find?_eq_none.mpr fun fte hmem => by simpa using h fte hmem
  rw [freeFrame, hfind]

section
variable (h : Inv s) (hown : s.Owns p ptr e)
include h hown

theorem Inv.freeFrame_loaded (hl : e.loaded = true) :
    s.freeFrame (some (s.pagedir p e.userVaddr).frame) = some (s.unframed p ptr e) := by
  obtain ⟨hmem, -⟩ := h.loaded hown hl
  have hfind : s.frameTable.find? (fun fte => some fte.frame = some (s.pagedir p e.userVaddr).frame) =
      some ⟨(s.pagedir p e.userVaddr).frame, p, ptr⟩ := by
    obtain ⟨fte, hfte⟩ := isSome_iff_exists.mp
      (find?_isSome.mpr ⟨_, hmem, by simp⟩ : (s.frameTable.find? fun fte =>
        decide (some fte.frame = some (s.pagedir p e.userVaddr).frame)).isSome = true)
    have hframe : fte.frame = (s.pagedir p e.userVaddr).frame := by simpa using find?_some hfte
    rw [hfte, h.spte_eq (mem_of_find?_eq_some hfte) hmem hframe]
  rw [freeFrame, hfind]
  exact if_pos (h.used hmem)

theorem Inv.getPage_loaded (hl : e.loaded = true) :
    s.pagedirGetPage p e.userVaddr = some (s.pagedir p e.userVaddr).frame :=
  if_pos (h.loaded hown hl).2

theorem Inv.getPage_absent (hl : e.loaded = false) :
    s.pagedirGetPage p e.userVaddr = none :=
  if_neg (by rw [h.not_present hown hl]; exact Bool.false_ne_true)

/-- **`free_page`** gives the page up. -/
theorem Inv.freePage_eq :
    s.freePage p ptr = some (s.dropped p ptr e) := by
  cases hl : e.loaded with
  | true =>
    simp only [freePage, hown.2, unload, hl, if_true, h.getPage_loaded hown hl, h.freeFrame_loaded hown hl,
      some_bind]
    have hheap : ((s.unframed p ptr e).pagedirClearPage p e.userVaddr).heap ptr = some e := hown.2
    rw [freeSpte, hheap, dropped, if_pos hl]
    rfl
  | false =>
    simp only [freePage, hown.2, unload, hl, Bool.false_eq_true, if_false, freeSpte, some_bind]
    rw [dropped, if_neg (by rw [hl]; exact Bool.false_ne_true)]

theorem Inv.freeFrame_freePage :
    ((s.freeFrame (s.pagedirGetPage p e.userVaddr)).bind fun s => s.freePage p ptr) =
      some (s.dropped p ptr e) := by
  cases hl : e.loaded with
  | true =>
    obtain ⟨hmem, hpres⟩ := h.loaded hown hl
    have hgone : ∀ fte ∈ (s.unframed p ptr e).frameTable,
        some fte.frame ≠ some (s.pagedir p e.userVaddr).frame := by
      intro fte hfte heq
      obtain ⟨hfte, hne⟩ := (h.mem_erase hmem fte).mp hfte
      exact hne (congrArg Fte.spte (h.spte_eq hfte hmem (Option.some.inj heq)))
    have hheap : (s.unframed p ptr e).heap ptr = some e := hown.2
    have hget : (s.unframed p ptr e).pagedirGetPage p e.userVaddr = some (s.pagedir p e.userVaddr).frame :=
      if_pos hpres
    rw [h.getPage_loaded hown hl, h.freeFrame_loaded hown hl, Option.bind_some]
    simp only [freePage, hheap, unload, hl, if_true, hget, freeFrame_absent hgone, some_bind]
    have hclear : ((s.unframed p ptr e).pagedirClearPage p e.userVaddr).heap ptr = some e := hown.2
    rw [freeSpte, hclear, dropped, if_pos hl]
    rfl
  | false =>
    rw [h.getPage_absent hown hl, freeFrame_absent fun fte _ => Option.some_ne_none _, Option.bind_some, h.freePage_eq hown]

/-- What is gone with a page, and what stays. -/
structure Drops (s s' : Mem) (p ptr : Nat) (e : Spte) : Prop where
  page : s.Owns p ptr e
  rests : SameRest s s'
  swap : s'.swap = s.swap
  heap : s'.heap = update s.heap ptr none
  absent : (s'.pagedir p e.userVaddr).present = false
  pte : ∀ {q a}, (q = p → a ≠ e.userVaddr) → s'.pagedir q a = s.pagedir q a
  frames : ∀ fte, fte ∈ s'.frameTable ↔ fte ∈ s.frameTable ∧ fte.spte ≠ ptr
  used : ∀ {fte}, fte ∈ s'.frameTable → s'.usedMap[fte.frame]? = some true
  pooled : ∀ {f}, s'.usedMap[f]? = some true → ∃ fte ∈ s'.frameTable, fte.frame = f
  nodup : (s'.frameTable.map Fte.frame).Nodup
  ram : ∀ {fte}, fte ∈ s.frameTable → fte.spte ≠ ptr → s'.ram fte.frame = s.ram fte.frame

theorem Inv.dropped_drops : Drops s (s.dropped p ptr e) p ptr e := by
  cases hl : e.loaded with
  | true =>
    obtain ⟨hmem, -⟩ := h.loaded hown hl
    rw [dropped, if_pos hl]
    exact {
      page := hown
      rests := (by constructor <;> rfl)
      swap := rfl
      heap := rfl
      absent := congrArg Pte.present (setPte_self s p e.userVaddr _)
      pte := fun hne => setPte_ne s _ hne
      frames := h.mem_erase hmem
      used := h.erase_used hmem
      pooled := h.erase_pooled hmem
      nodup := h.erase_nodup _
      ram := fun hfte hne => update_of_ne (h.frame_ne hmem hfte hne) _ _ }
  | false =>
    rw [dropped, if_neg (by rw [hl]; exact Bool.false_ne_true)]
    exact {
      page := hown
      rests := (by constructor <;> rfl)
      swap := rfl
      heap := rfl
      absent := h.not_present hown hl
      pte := fun _ => rfl
      frames := fun fte => ⟨fun hfte => ⟨hfte, h.not_framed hown hl hfte⟩, And.left⟩
      used := h.used
      pooled := h.pooled
      nodup := h.nodup
      ram := fun _ _ => rfl }

end

section
variable (d : Drops s s' p ptr e)
include d

theorem Drops.owns : s'.Owns q ptr' x ↔ s.Owns q ptr' x ∧ ptr' ≠ ptr := by
  unfold Owns
  rw [d.rests.tables, d.heap]
  by_cases hptr : ptr' = ptr
  · subst hptr
    simp
  · rw [update_of_ne hptr]
    simp [hptr]

theorem Drops.pte_other (h : Inv s) (hne : ptr' ≠ ptr) (hown : s.Owns q ptr' x) :
    s'.pagedir q x.userVaddr = s.pagedir q x.userVaddr := by
  refine d.pte fun hq hva => hne ?_
  subst hq
  exact h.vaddr hown d.page hva

theorem Drops.inv (h : Inv s) : Inv s' where
  owner hp hq := h.owner (d.rests.tables ▸ hp) (d.rests.tables ▸ hq)
  below hp := d.rests.next ▸ h.below (d.rests.tables ▸ hp)
  vaddr hx hy := h.vaddr (d.owns.mp hx).1 (d.owns.mp hy).1
  typed hx := h.typed (d.owns.mp hx).1
  resident := by
    intro fte hfte
    obtain ⟨hfte, hne⟩ := (d.frames fte).mp hfte
    obtain ⟨x, hx, hrest⟩ := h.resident hfte
    refine ⟨x, d.owns.mpr ⟨hx, hne⟩, ?_⟩
    rw [d.pte_other h hne hx]
    exact hrest
  __ := d
  framed := by
    intro q ptr' x hx hl
    obtain ⟨hx, hne⟩ := d.owns.mp hx
    obtain ⟨f, hf⟩ := h.framed hx hl
    exact ⟨f, (d.frames _).mpr ⟨hf, hne⟩⟩
  present := by
    intro q a hpres
    by_cases hqa : q = p ∧ a = e.userVaddr
    · obtain ⟨rfl, rfl⟩ := hqa
      rw [d.absent] at hpres
      cases hpres
    · rw [d.pte fun hq ha => hqa ⟨hq, ha⟩] at hpres
      obtain ⟨ptr', x, hx, hva, hl⟩ := h.present hpres
      have hne : ptr' ≠ ptr := by
        rintro rfl
        have hqp := h.owner hx.1 d.page.1
        cases hx.entry_eq d.page
        exact hqa ⟨hqp, hva.symm⟩
      exact ⟨ptr', x, d.owns.mpr ⟨hx, hne⟩, hva, hl⟩
  swapped hx hsw := by
    obtain ⟨hl, ht, hslot⟩ := h.swapped (d.owns.mp hx).1 hsw
    refine ⟨hl, ht, ?_⟩
    unfold InSlot
    rw [d.swap]
    exact hslot
  slots hx hy := h.slots (d.owns.mp hx).1 (d.owns.mp hy).1

theorem Drops.valid (v : Valid s) :
    Valid { s' with listMmap := update s'.listMmap p ((s'.listMmap p).erase ptr) } where
  inv := (d.inv v.inv).rebit fun _ _ => ⟨rfl, rfl⟩
  formed hown := v.formed (d.owns.mp hown).1
  listed := by
    intro q ptr' hmem
    replace hmem : ptr' ∈ update s'.listMmap p ((s'.listMmap p).erase ptr) q := hmem
    rw [d.rests.listMmap] at hmem
    by_cases hq : q = p
    · subst hq
      rw [update_self, (v.once q).mem_erase_iff] at hmem
      obtain ⟨x, hx⟩ := v.listed hmem.2
      exact ⟨x, d.owns.mpr ⟨hx, hmem.1⟩⟩
    · rw [update_of_ne hq] at hmem
      obtain ⟨x, hx⟩ := v.listed hmem
      exact ⟨x, d.owns.mpr ⟨hx, fun heq => hq (v.inv.owner hx.1 (heq ▸ d.page.1))⟩⟩
  once q := by
    show (update s'.listMmap p ((s'.listMmap p).erase ptr) q).Nodup
    rw [d.rests.listMmap]
    by_cases hq : q = p
    · subst hq
      rw [update_self]
      exact (v.once q).erase ptr
    · rw [update_of_ne hq]
      exact v.once q
  dead hdead := by
    show s'.supPageTable _ = []
    rw [d.rests.tables]
    exact v.dead (d.rests.alive ▸ hdead)
  dirty := by
    intro q a hd
    by_cases hq : q = p
    · -- the entry itself has been freed and is in the table
      subst hq
      refine .inl ⟨ptr, show ptr ∈ s'.supPageTable q from d.rests.tables ▸ d.page.1, ?_⟩
      show s'.heap ptr = none
      rw [d.heap, update_self]
    · replace hd : (s'.pagedir q a).dirty = true := hd
      rw [d.pte fun heq => absurd heq hq] at hd
      rcases v.dirty hd with ⟨ptr', hmem, hfree⟩ | ⟨ptr', x, hx, hva⟩
      · refine .inl ⟨ptr', show ptr' ∈ s'.supPageTable q from d.rests.tables ▸ hmem, ?_⟩
        show s'.heap ptr' = none
        rw [d.heap]
        by_cases hptr : ptr' = ptr
        · rw [hptr, update_self]
        · rw [update_of_ne hptr]
          exact hfree
      · exact .inr ⟨ptr', x, d.owns.mpr ⟨hx, fun heq => hq (v.inv.owner hx.1 (heq ▸ d.page.1))⟩, hva⟩

end

theorem Valid.reset (v : Valid s) (inode : Nat → File) (mapId : Nat → Nat) :
    Valid { s with inode := inode, mapId := mapId } where
  inv := v.inv.rebit fun _ _ => ⟨rfl, rfl⟩
  __ := v

/-! ## munmap -/

/-- The pages of `l` with the id have been given up. -/
structure Unmaps (s s' : Mem) (p mapid : Nat) (l : List Nat) : Prop where
  valid : Valid s'
  swap : s'.swap = s.swap
  tables : s'.supPageTable = s.supPageTable
  mapId : s'.mapId = s.mapId
  fds : s'.fds = s.fds
  alive : s'.alive = s.alive
  owns : ∀ {q ptr x}, s'.Owns q ptr x ↔ s.Owns q ptr x ∧ ¬ (ptr ∈ l ∧ x.mapId = some mapid)
  list : ∀ {q ptr x}, s'.Owns q ptr x → ptr ∈ s.listMmap q → ptr ∈ s'.listMmap q

variable {mapid : Nat}

theorem writeBack_touched (h : s.writeBack p e = some s') :
    Touched s { s' with inode := s.inode } := by
  unfold writeBack at h
  split at h
  · cases h
    exact (Aged.refl s).toTouched
  · split at h
    · cases h
      exact touched_setAccessed s p e.userVaddr true
    · cases h

theorem saveDirty_touched (h : s.saveDirty p e = some s') : Touched s { s' with inode := s.inode } := by
  unfold saveDirty at h
  split at h
  · exact writeBack_touched h
  · cases h
    exact (Aged.refl s).toTouched

theorem Valid.touched (v : Valid s) (t : Touched s { s' with inode := s.inode }) : Valid s' :=
  (v.evolves (t.evolves v.inv)).reset s'.inode s'.mapId

/-- **A page of the mapping** is written back if it is dirty, and given up. -/
theorem Valid.unmapPage_eq (v : Valid s) (hown : s.Owns p ptr e) (h : s.unmapPage p ptr e = some s') :
    ∃ s₁, s.saveDirty p e = some s₁ ∧ Touched s { s₁ with inode := s.inode } ∧
      s' = { s₁.dropped p ptr e with
        listMmap := update s.listMmap p ((s.listMmap p).erase ptr) } := by
  obtain ⟨s₁, hsave, h⟩ := bind_eq_some_iff.mp h
  have ht := saveDirty_touched hsave
  have v1 := v.touched ht
  have hown1 : s₁.Owns p ptr e := by
    have hk : s₁.heap = s.heap := ht.heap
    have htab : s₁.supPageTable = s.supPageTable := ht.rests.tables
    exact ⟨htab ▸ hown.1, hk ▸ hown.2⟩
  have hlist : (s₁.dropped p ptr e).listMmap = s.listMmap :=
    (v1.inv.dropped_drops hown1).rests.listMmap.trans ht.rests.listMmap
  refine ⟨s₁, hsave, ht, ?_⟩
  obtain ⟨s2, hframe, h⟩ := bind_eq_some_iff.mp h
  obtain ⟨s3, hpage, h⟩ := bind_eq_some_iff.mp h
  have heq := v1.inv.freeFrame_freePage hown1
  rw [hframe, Option.bind_some, hpage] at heq
  cases Option.some.inj heq
  cases h
  rw [hlist]

theorem Valid.unmapPage (v : Valid s) (hown : s.Owns p ptr e) (hid : e.mapId = some mapid)
    (h : s.unmapPage p ptr e = some s') :
    Unmaps s s' p mapid [ptr] ∧ s'.listMmap = update s.listMmap p ((s.listMmap p).erase ptr) := by
  obtain ⟨s1, -, ht, rfl⟩ := v.unmapPage_eq hown h
  have v1 := v.touched ht
  have htab : s1.supPageTable = s.supPageTable := ht.rests.tables
  have hheap : s1.heap = s.heap := ht.heap
  have hsame : ∀ {q ptr' x}, s1.Owns q ptr' x ↔ s.Owns q ptr' x := by
    intro q ptr' x
    rw [Owns, Owns, htab, hheap]
  have d := v1.inv.dropped_drops (hsame.mpr hown)
  have hlist : (s1.dropped p ptr e).listMmap = s.listMmap := d.rests.listMmap.trans ht.rests.listMmap
  have hvalid := d.valid v1
  rw [hlist] at hvalid
  have howns : ∀ {q ptr' x}, (s1.dropped p ptr e).Owns q ptr' x ↔
      s.Owns q ptr' x ∧ ¬ (ptr' ∈ [ptr] ∧ x.mapId = some mapid) := by
    intro q ptr' x
    rw [d.owns, hsame, mem_singleton]
    refine and_congr_right fun hx => not_congr ⟨fun heq => ⟨heq, ?_⟩, And.left⟩
    subst heq
    rw [hx.entry_eq hown]
    exact hid
  have hswap : s1.swap = s.swap := by
    have hrest := congrArg Mem.swap ht.rest
    exact hrest
  refine ⟨⟨hvalid, d.swap.trans hswap, d.rests.tables.trans htab, d.rests.mapId.trans ht.rests.mapId,
    d.rests.fds.trans ht.rests.fds, d.rests.alive.trans ht.rests.alive, howns, ?_⟩, rfl⟩
  intro q ptr' x hx hmem
  obtain ⟨hx, hne⟩ := d.owns.mp (show (s1.dropped p ptr e).Owns q ptr' x from hx)
  show ptr' ∈ update s.listMmap p ((s.listMmap p).erase ptr) q
  by_cases hq : q = p
  · subst hq
    rw [update_self, (v.once q).mem_erase_iff]
    exact ⟨hne, hmem⟩
  · rw [update_of_ne hq]
    exact hmem

/-- **`munmap`** gives up the pages with the id. -/
theorem Valid.unmapPages (v : Valid s) {l : List Nat} (hnd : l.Nodup)
    (hsub : ∀ ptr ∈ l, ptr ∈ s.listMmap p) (h : s.unmapPages p mapid l = some s') :
    Unmaps s s' p mapid l := by
  induction l generalizing s with
  | nil =>
    cases h
    exact ⟨v, rfl, rfl, rfl, rfl, rfl, by simp, fun _ => id⟩
  | cons hd rest ih =>
    obtain ⟨hnot, hnd⟩ := nodup_cons.mp hnd
    obtain ⟨x, hx, h⟩ := bind_eq_some_iff.mp h
    obtain ⟨y, hown⟩ := v.listed (hsub hd mem_cons_self)
    cases Option.some.inj (hx.symm.trans hown.2)
    split at h
    · next hid =>
      obtain ⟨s1, hunmap, h⟩ := bind_eq_some_iff.mp h
      obtain ⟨u, hlist⟩ := v.unmapPage hown hid hunmap
      have hsub1 : ∀ ptr ∈ rest, ptr ∈ s1.listMmap p := by
        intro ptr hmem
        rw [hlist, update_self, (v.once p).mem_erase_iff]
        exact ⟨fun heq => hnot (heq ▸ hmem), hsub ptr (mem_cons_of_mem _ hmem)⟩
      have u' := ih u.valid hnd hsub1 h
      refine ⟨u'.valid, u'.swap.trans u.swap, u'.tables.trans u.tables, u'.mapId.trans u.mapId,
        u'.fds.trans u.fds, u'.alive.trans u.alive, ?_, fun hown' hmem =>
          u'.list hown' (u.list (u'.owns.mp hown').1 hmem)⟩
      intro q ptr z
      rw [u'.owns, u.owns, mem_singleton, mem_cons]
      tauto
    · next hid =>
      have u := ih v hnd (fun ptr hmem => hsub ptr (mem_cons_of_mem _ hmem)) h
      refine { u with owns := ?_ }
      intro q ptr z
      rw [u.owns, mem_cons]
      refine and_congr_right fun hz => not_congr ⟨fun hp => ⟨.inr hp.1, hp.2⟩, fun hp => ⟨?_, hp.2⟩⟩
      -- the first entry has another id
      refine hp.1.resolve_left fun heq => hid ?_
      subst heq
      rw [hown.entry_eq hz]
      exact hp.2

/-! ## process_exit -/

/-- Thread `p` has exited, and nothing else has changed. -/
structure Exits (s s' : Mem) (p : Nat) : Prop where
  valid : Valid s'
  unmapped : s.listMmap p = []
  swap : s'.swap = s.swap
  listMmap : s'.listMmap = s.listMmap
  mapId : s'.mapId = s.mapId
  owns : ∀ {q ptr x}, s'.Owns q ptr x ↔ s.Owns q ptr x ∧ q ≠ p
  exited : s'.alive p = false

variable {l : List Nat}

theorem Valid.writeBackAll (v : Valid s) (halive : s.alive p = true) (h : s.writeBackAll p l = some s') :
    Valid s' ∧ s'.listMmap = s.listMmap := by
  induction l generalizing s with
  | nil =>
    cases h
    exact ⟨v, rfl⟩
  | cons hd rest ih =>
    obtain ⟨e, -, h⟩ := bind_eq_some_iff.mp h
    split at h
    · obtain ⟨s2, hback, h⟩ := bind_eq_some_iff.mp h
      have hturn : Valid s2 ∧ s2.listMmap = s.listMmap ∧ s2.alive = s.alive := by
        unfold writeBackFaulting at hback
        split at hback
        · obtain ⟨s1, hfault, hback⟩ := bind_eq_some_iff.mp hback
          have ev := v.pageFault_evolves halive hfault
          have ht := writeBack_touched hback
          exact ⟨(v.evolves ev).touched ht, ht.rests.listMmap.trans ev.listMmap,
            ht.rests.alive.trans ev.alive⟩
        · have ht := writeBack_touched hback
          exact ⟨v.touched ht, ht.rests.listMmap, ht.rests.alive⟩
      obtain ⟨v2, hlist, halive2⟩ := hturn
      obtain ⟨v', hlist'⟩ := ih v2 (halive2 ▸ halive) h
      exact ⟨v', hlist'.trans hlist⟩
    · exact ih v halive h

theorem freePages_heap (h : s.freePages p l = some s') :
    s'.supPageTable = s.supPageTable ∧ (∀ ptr, s.heap ptr = none → s'.heap ptr = none) ∧
      ∀ ptr ∈ l, s.heap ptr ≠ none ∧ s'.heap ptr = none := by
  induction l generalizing s with
  | nil =>
    cases h
    exact ⟨rfl, fun _ => id, by simp⟩
  | cons hd rest ih =>
    obtain ⟨s1, hpage, h⟩ := bind_eq_some_iff.mp h
    obtain ⟨e, he, -⟩ := bind_eq_some_iff.mp hpage
    obtain ⟨hrest, hheap, -⟩ := freePage_heap hpage
    obtain ⟨ihtable, ihnone, ihfreed⟩ := ih h
    have hkeep : ∀ ptr, s.heap ptr = none → s1.heap ptr = none := by
      intro ptr hptr
      have hne : ptr ≠ hd := by
        rintro rfl
        rw [hptr] at he
        cases he
      rw [hheap, update_of_ne hne]
      exact hptr
    refine ⟨ihtable.trans hrest.tables, fun ptr hptr => ihnone ptr (hkeep ptr hptr), ?_⟩
    intro ptr hmem
    rcases mem_cons.mp hmem with rfl | hmem
    · exact ⟨by rw [he]; exact Option.some_ne_none e, ihnone ptr (by rw [hheap, update_self])⟩
    · exact ⟨fun hnone => (ihfreed ptr hmem).1 (hkeep ptr hnone), (ihfreed ptr hmem).2⟩

theorem Valid.freePages (v : Valid s) (hlist : s.listMmap p = []) (hsub : ∀ ptr ∈ l, ptr ∈ s.supPageTable p)
    (h : s.freePages p l = some s') :
    Valid s' ∧ SameRest s s' ∧ s'.swap = s.swap ∧
      ∀ {q ptr x}, s'.Owns q ptr x ↔ s.Owns q ptr x ∧ ptr ∉ l := by
  induction l generalizing s with
  | nil =>
    cases h
    exact ⟨v, (by constructor <;> rfl), rfl, by simp⟩
  | cons hd rest ih =>
    obtain ⟨s1, hpage, h⟩ := bind_eq_some_iff.mp h
    obtain ⟨e, he, -⟩ := bind_eq_some_iff.mp hpage
    have hown : s.Owns p hd e := ⟨hsub hd mem_cons_self, he⟩
    rw [v.inv.freePage_eq hown] at hpage
    cases hpage
    have d := v.inv.dropped_drops hown
    have hlist1 : (s.dropped p hd e).listMmap p = [] := by
      rw [d.rests.listMmap]
      exact hlist
    have v1 : Valid (s.dropped p hd e) := by
      have hv := d.valid v
      have herase : update (s.dropped p hd e).listMmap p
          (((s.dropped p hd e).listMmap p).erase hd) = (s.dropped p hd e).listMmap := by
        rw [hlist1, erase_nil, ← hlist1, update_eq_self]
      rw [herase] at hv
      exact hv
    obtain ⟨v', hrest', hswap', howns'⟩ := ih v1 hlist1
      (fun ptr hmem => d.rests.tables ▸ hsub ptr (mem_cons_of_mem _ hmem)) h
    refine ⟨v', d.rests.trans hrest', hswap'.trans d.swap, ?_⟩
    intro q ptr x
    rw [howns', d.owns, mem_cons]
    tauto

theorem Valid.leave (v : Valid s) (hno : ∀ {ptr e}, ¬ s.Owns p ptr e) :
    Valid { s with
      supPageTable := update s.supPageTable p []
      pagedir := update s.pagedir p fun _ => Pte.zero
      alive := update s.alive p false } := by
  have hmem : ∀ {q ptr}, ptr ∈ update s.supPageTable p [] q ↔ q ≠ p ∧ ptr ∈ s.supPageTable q := by
    intro q ptr
    by_cases hq : q = p
    · subst hq
      simp
    · rw [update_of_ne hq]
      simp [hq]
  have howns : ∀ {q ptr x}, (ptr ∈ update s.supPageTable p [] q ∧ s.heap ptr = some x) ↔
      s.Owns q ptr x := by
    intro q ptr x
    rw [hmem]
    refine ⟨fun hx => ⟨hx.1.2, hx.2⟩, fun hx => ⟨⟨?_, hx.1⟩, hx.2⟩⟩
    rintro rfl
    exact hno hx
  have hpte : ∀ {q a}, q ≠ p → update s.pagedir p (fun _ => Pte.zero) q a = s.pagedir q a :=
    fun hq => by rw [update_of_ne hq]
  have hzero : ∀ a, update s.pagedir p (fun _ => Pte.zero) p a = Pte.zero :=
    fun a => by rw [update_self]
  have hother : ∀ {q ptr x}, s.Owns q ptr x → q ≠ p := by
    rintro q ptr x hx rfl
    exact hno hx
  exact {
    inv := {
      owner := fun hp hq => v.inv.owner (hmem.mp hp).2 (hmem.mp hq).2
      below := fun hp => v.inv.below (hmem.mp hp).2
      vaddr := fun hx hy => v.inv.vaddr (howns.mp hx) (howns.mp hy)
      typed := fun hx => v.inv.typed (howns.mp hx)
      resident := fun hfte => by
        obtain ⟨x, hx, hrest⟩ := v.inv.resident hfte
        refine ⟨x, howns.mpr hx, ?_⟩
        show _ ∧ (update s.pagedir p (fun _ => Pte.zero) _ _).present = true ∧
          (update s.pagedir p (fun _ => Pte.zero) _ _).frame = _
        rw [hpte (hother hx)]
        exact hrest
      used := v.inv.used
      pooled := v.inv.pooled
      nodup := v.inv.nodup
      framed := fun hx => v.inv.framed (howns.mp hx)
      present := fun {q a} hpres => by
        replace hpres : (update s.pagedir p (fun _ => Pte.zero) q a).present = true := hpres
        by_cases hq : q = p
        · subst hq
          rw [hzero] at hpres
          cases hpres
        · rw [hpte hq] at hpres
          obtain ⟨ptr, x, hx, hrest⟩ := v.inv.present hpres
          exact ⟨ptr, x, howns.mpr hx, hrest⟩
      swapped := fun hx => v.inv.swapped (howns.mp hx)
      slots := fun hx hy => v.inv.slots (howns.mp hx) (howns.mp hy) }
    formed := fun hx => v.formed (howns.mp hx)
    listed := fun hin => by
      obtain ⟨x, hx⟩ := v.listed hin
      exact ⟨x, howns.mpr hx⟩
    once := v.once
    dead := fun {q} hdead => by
      replace hdead : update s.alive p false q = false := hdead
      show update s.supPageTable p [] q = []
      by_cases hq : q = p
      · rw [hq, update_self]
      · rw [update_of_ne hq] at hdead
        rw [update_of_ne hq]
        exact v.dead hdead
    dirty := fun {q a} hd => by
      replace hd : (update s.pagedir p (fun _ => Pte.zero) q a).dirty = true := hd
      by_cases hq : q = p
      · subst hq
        rw [hzero] at hd
        cases hd
      · rw [hpte hq] at hd
        rcases v.dirty hd with ⟨ptr, hin, hfree⟩ | ⟨ptr, x, hx, hva⟩
        · exact .inl ⟨ptr, hmem.mpr ⟨hq, hin⟩, hfree⟩
        · exact .inr ⟨ptr, x, howns.mpr hx, hva⟩ }

/-- A thread that has mapped pages cannot exit: `free_page` is called twice for each. -/
theorem Valid.exit_unmapped (v : Valid s) (halive : s.alive p = true) (h : s.processExit p = some s') :
    s.listMmap p = [] := by
  obtain ⟨s1, hback, h⟩ := bind_eq_some_iff.mp h
  obtain ⟨s2, hfree, h⟩ := bind_eq_some_iff.mp h
  obtain ⟨s3, hfree', -⟩ := bind_eq_some_iff.mp h
  obtain ⟨v1, hlist⟩ := v.writeBackAll halive hback
  refine eq_nil_iff_forall_not_mem.mpr fun ptr hmem => ?_
  obtain ⟨e, hown⟩ := v1.listed (show ptr ∈ s1.listMmap p from hlist ▸ hmem)
  obtain ⟨htable, -, hfreed⟩ := freePages_heap hfree
  obtain ⟨-, -, hagain⟩ := freePages_heap hfree'
  have hin : ptr ∈ s2.supPageTable p := htable ▸ hown.1
  exact (hagain ptr hin).1 (hfreed ptr (hlist ▸ hmem)).2

/-- **`process_exit`** gives up every page of the thread. -/
theorem Valid.processExit (v : Valid s) (halive : s.alive p = true) (h : s.processExit p = some s') :
    Exits s s' p := by
  have hlist := v.exit_unmapped halive h
  simp only [Mem.processExit, hlist, Mem.writeBackAll, Mem.freePages, some_bind] at h
  have hsame : update s.listMmap p [] = s.listMmap := by
    rw [← hlist, update_eq_self]
  rw [hsame] at h
  obtain ⟨s1, hfree, h⟩ := bind_eq_some_iff.mp h
  obtain ⟨v1, hrest, hswap, howns⟩ := v.freePages hlist (fun _ => id) hfree
  have hno : ∀ {ptr e}, ¬ s1.Owns p ptr e := fun hx => (howns.mp hx).2 (howns.mp hx).1.1
  have hleave := v1.leave hno
  cases h
  refine ⟨hleave, hlist, hswap, hrest.listMmap, hrest.mapId, ?_, update_self ..⟩
  intro q ptr x
  show ptr ∈ update s1.supPageTable p [] q ∧ s1.heap ptr = some x ↔ _
  by_cases hq : q = p
  · subst hq
    simp
  · rw [update_of_ne hq]
    refine Iff.trans howns (and_congr_right fun hx => ⟨fun _ => hq, fun _ hin => hq ?_⟩)
    exact v.inv.owner hx.1 hin

end

end Mem

end Pintos.VM
