import Pintos.VM.FailedMap

/-!
# Steps that lose no page

A load, a store, a page fault and an eviction change the pages in a way that can be
composed (`Evolves`): no page is lost, and a new one belongs to no mapping.

`Valid` adds to the agreement of the structures (`Inv`) what the other parts of the
state have to do with them: the elements of `list_mmap`, the threads that have exited,
and the dirty bits of addresses that have no page.
-/

namespace Pintos.VM

open Lib FileSys UserProg Option

namespace Mem

/-! ## Steps that lose no page -/

/-- A slot that is in use has a page in it. -/
def NoLeak (s : Mem) : Prop :=
  ∀ {idx : Nat}, s.swap.table[idx]? = some true →
    ∃ p ptr e, s.Owns p ptr e ∧ e.isSwapped = true ∧ e.swapNum = Swap.sectorOf idx

/-- What a step that maps no file can do to the pages. -/
structure Evolves (s s' : Mem) : Prop where
  inv : Inv s'
  inode : s'.inode = s.inode
  listMmap : s'.listMmap = s.listMmap
  mapId : s'.mapId = s.mapId
  fds : s'.fds = s.fds
  alive : s'.alive = s.alive
  table : ∀ {p}, s.alive p = false → s'.supPageTable p = s.supPageTable p
  mem : ∀ {p ptr}, ptr ∈ s.supPageTable p → ptr ∈ s'.supPageTable p
  old : ∀ {p ptr e}, s.Owns p ptr e → ∃ e', s'.Owns p ptr e' ∧ SamePage e e'
  new : ∀ {p ptr e'}, s'.Owns p ptr e' →
    (∃ e, s.Owns p ptr e) ∨ e'.mapId = none ∧ ptr ∉ s.supPageTable p
  formed : (∀ {p ptr e}, s.Owns p ptr e → Formed e) → ∀ {p ptr e}, s'.Owns p ptr e → Formed e
  noLeak : s.NoLeak → s'.NoLeak
  dirty : ∀ {p a}, (s'.pagedir p a).dirty = true → (s.pagedir p a).dirty = true ∨
    ∃ ptr e, s'.Owns p ptr e ∧ e.userVaddr = a

section
variable {s s' s'' : Mem} {p ptr : Nat} {e e' : Spte} {f : Nat} {pte : Pte}

theorem Evolves.back (h : Evolves s s') (hown : s'.Owns p ptr e') :
    (∃ e, s.Owns p ptr e ∧ SamePage e e') ∨ e'.mapId = none ∧ ptr ∉ s.supPageTable p := by
  refine (h.new hown).imp (fun ⟨e, hold⟩ => ?_) id
  obtain ⟨x, hx, hsame⟩ := h.old hold
  cases hown.entry_eq hx
  exact ⟨e, hold, hsame⟩

theorem Evolves.trans (h : Evolves s s') (h' : Evolves s' s'') : Evolves s s'' where
  inv := h'.inv
  inode := h'.inode.trans h.inode
  listMmap := h'.listMmap.trans h.listMmap
  mapId := h'.mapId.trans h.mapId
  fds := h'.fds.trans h.fds
  alive := h'.alive.trans h.alive
  table hdead := (h'.table (h.alive ▸ hdead)).trans (h.table hdead)
  mem hmem := h'.mem (h.mem hmem)
  old hown := by
    obtain ⟨e', hown', hsame⟩ := h.old hown
    obtain ⟨e'', hown'', hsame'⟩ := h'.old hown'
    exact ⟨e'', hown'', hsame.trans hsame'⟩
  new hown := by
    rcases h'.back hown with ⟨e', hown', hsame⟩ | ⟨hid, hnot⟩
    · exact (h.new hown').imp id fun ⟨hid, hnot⟩ => ⟨hsame.mapId.trans hid, hnot⟩
    · exact .inr ⟨hid, fun hmem => hnot (h.mem hmem)⟩
  formed hf := h'.formed (h.formed hf)
  noLeak hn := h'.noLeak (h.noLeak hn)
  dirty hd := by
    rcases h'.dirty hd with hd | howned
    · refine (h.dirty hd).imp id fun ⟨ptr, e, hown, hva⟩ => ?_
      obtain ⟨e', hown', hsame⟩ := h'.old hown
      exact ⟨ptr, e', hown', hsame.vaddr.trans hva⟩
    · exact .inr howned

theorem Keeps.evolves (k : Keeps s s') (hinv : Inv s') (r : SameRest s s') (hn : s.NoLeak → s'.NoLeak)
    (hd : ∀ {p a}, (s'.pagedir p a).dirty = true → (s.pagedir p a).dirty = true ∨
      ∃ ptr e, s'.Owns p ptr e ∧ e.userVaddr = a) : Evolves s s' where
  inv := hinv
  __ := r
  table _ := by rw [r.tables]
  mem hmem := r.tables ▸ hmem
  old hown := by
    obtain ⟨e', hown', hsame, -⟩ := k.owns hown
    exact ⟨e', hown', hsame⟩
  new hown := .inl (k.only hown)
  formed hf := by
    intro q ptr' x hown
    obtain ⟨y, hold⟩ := k.only hown
    exact k.formed hold hown (hf hold)
  noLeak := hn
  dirty := hd

theorem Touched.evolves (t : Touched s s') (h : Inv s) : Evolves s s' := by
  refine t.keeps.evolves (t.inv h) t.rests (fun hn => ?_) fun {q a} hd => .inl ?_
  · rw [t.rest]
    exact hn
  · rw [t.bits] at hd
    exact hd

theorem Moves.noLeak (m : Moves s s' p ptr e e' f pte) (hn : s.NoLeak) : s'.NoLeak := by
  intro idx hused
  rcases m.filled hused with ⟨hold, hne⟩ | ⟨hsw, hnum⟩
  · obtain ⟨q, ptr', x, hx, hsw, hnum⟩ := hn hold
    have hptr : ptr' ≠ ptr := by
      rintro rfl
      cases hx.entry_eq m.owns
      exact hne hsw hnum
    exact ⟨q, ptr', x, (m.owns_ne hptr).mpr hx, hsw, hnum⟩
  · exact ⟨p, ptr, e', m.owns_self, hsw, hnum⟩

theorem Moves.dirty (m : Moves s s' p ptr e e' f pte) {q : Nat} {a : UInt32}
    (hd : (s'.pagedir q a).dirty = true) :
    (s.pagedir q a).dirty = true ∨ ∃ ptr x, s'.Owns q ptr x ∧ x.userVaddr = a := by
  by_cases hqa : q = p ∧ a = e.userVaddr
  · obtain ⟨rfl, rfl⟩ := hqa
    exact .inr ⟨ptr, e', m.owns_self, m.vaddr⟩
  · rw [m.pte_ne fun hq ha => hqa ⟨hq, ha⟩] at hd
    exact .inl hd

theorem Moves.evolves (m : Moves s s' p ptr e e' f pte) (h : Inv s) (k : Keeps s s')
    (r : SameRest s s') : Evolves s s' :=
  k.evolves (h.moves m) r m.noLeak m.dirty

theorem Evicts.evolves (ev : Evicts s s') (h : Inv s) : Evolves s s' := by
  obtain ⟨s1, fte, x, ht, hvict, hx, hev⟩ := ev
  have hmem : fte ∈ s1.frameTable := ht.frameTable ▸ victim_mem hvict
  have hx1 : s1.heap fte.spte = some x := ht.heap ▸ hx
  obtain ⟨x', m, -⟩ := (ht.inv h).evict_moves hmem hx1 hev
  exact (ht.evolves h).trans
    (m.evolves (ht.inv h) ((ht.inv h).evict_keeps hmem hx1 hev) (evict_rests hev))

theorem MadeRoom.evolves (r : MadeRoom s s') (h : Inv s) : Evolves s s' := by
  rcases r with rfl | ⟨-, ev⟩
  · exact (Aged.refl s').evolves h
  · exact ev.evolves h

theorem BringsIn.evolves (br : BringsIn s s' p ptr e) (h : Inv s) (hl : e.loaded = false) :
    Evolves s s' := by
  obtain ⟨s1, g, room, hown, hfree, rfl⟩ := br
  have h1 := room.inv h
  exact (room.evolves h).trans ((h1.install_moves hown hl hfree _).evolves h1
    (h1.install_keeps hown hl hfree) (by constructor <;> rfl))

theorem Inv.fresh_evolves (h : Inv s) (e : Spte) : Evolves s (s.fresh e) where
  inv := h.fresh e
  inode := rfl
  listMmap := rfl
  mapId := rfl
  fds := rfl
  alive := rfl
  table _ := rfl
  mem := id
  old hown := ⟨_, h.fresh_owns.mpr hown, SamePage.refl _⟩
  new hown := .inl ⟨_, h.fresh_owns.mp hown⟩
  formed hf := fun hown => hf (h.fresh_owns.mp hown)
  noLeak hn := by
    intro idx hused
    obtain ⟨q, ptr, x, hx, hrest⟩ := hn hused
    exact ⟨q, ptr, x, h.fresh_owns.mpr hx, hrest⟩
  dirty := .inl

theorem enter_noLeak (hnew : ∀ q, ptr ∉ s.supPageTable q) (hn : s.NoLeak) : (s.enter p ptr e).NoLeak := by
  intro idx hused
  obtain ⟨q, ptr', x, hx, hrest⟩ := hn hused
  exact ⟨q, ptr', x, (enter_owns hnew).mpr (.inr hx), hrest⟩

theorem enter_table {q : Nat} (halive : s.alive p = true) (hdead : s.alive q = false) :
    (s.enter p ptr e).supPageTable q = s.supPageTable q := by
  refine Function.update_of_ne ?_ _ _
  rintro rfl
  rw [halive] at hdead
  cases hdead

theorem Inv.enter_evolves (hnew : ∀ q, ptr ∉ s.supPageTable q) (henter : Inv (s.enter p ptr e))
    (hid : e.mapId = none) (hf : Formed e) (halive : s.alive p = true) : Evolves s (s.enter p ptr e) where
  inv := henter
  inode := rfl
  listMmap := rfl
  mapId := rfl
  fds := rfl
  alive := rfl
  table hdead := enter_table halive hdead
  mem hmem := mem_enter.mpr (.inl hmem)
  old hown := ⟨_, (enter_owns hnew).mpr (.inr hown), SamePage.refl _⟩
  new hown := by
    rcases (enter_owns hnew).mp hown with ⟨-, rfl, rfl⟩ | hold
    · exact .inr ⟨hid, hnew _⟩
    · exact .inl ⟨_, hold⟩
  formed hall := by
    intro q ptr' x hown
    rcases (enter_owns hnew).mp hown with ⟨-, -, rfl⟩ | hold
    · exact hf
    · exact hall hold
  noLeak := enter_noLeak hnew
  dirty := .inl

theorem Inv.enter_install_evolves (hnew : ∀ q, ptr ∉ s.supPageTable q) (henter : Inv (s.enter p ptr e))
    (hl : e.loaded = false) (hid : e.mapId = none) (hf : Formed { e with isSwapped := false, loaded := true })
    (halive : s.alive p = true) (hfree : s.usedMap[f]? = some false) (page : Page) :
    Evolves s ((s.enter p ptr e).install p ptr e f page) := by
  have m := henter.install_moves ((enter_owns hnew).mpr (.inl ⟨rfl, rfl, rfl⟩)) hl hfree page
  -- what is in the table then: the new page, and the old ones as they were
  have hcases : ∀ {q ptr' x}, ((s.enter p ptr e).install p ptr e f page).Owns q ptr' x →
      ptr' = ptr ∧ x = { e with isSwapped := false, loaded := true } ∨ s.Owns q ptr' x := by
    intro q ptr' x hown
    rcases m.owns_cases henter hown with ⟨-, hptr, hx⟩ | ⟨hne, hold⟩
    · exact .inl ⟨hptr, hx⟩
    · exact .inr (((enter_owns hnew).mp hold).resolve_left fun heq => hne heq.2.1)
  refine ⟨henter.moves m, rfl, rfl, rfl, rfl, rfl, fun hdead => enter_table (e := e) halive hdead,
    fun hmem => (mem_enter (e := e)).mpr (.inl hmem), fun {q ptr' x} hown => ?_, fun hown => ?_,
    fun hall => fun hown => ?_, fun hn => m.noLeak (enter_noLeak hnew hn), m.dirty⟩
  · have hne : ptr' ≠ ptr := fun heq => hnew q (heq ▸ hown.1)
    exact ⟨x, (m.owns_ne hne).mpr ((enter_owns hnew).mpr (.inr hown)), SamePage.refl x⟩
  · rcases hcases hown with ⟨rfl, rfl⟩ | hold
    · exact .inr ⟨hid, hnew _⟩
    · exact .inl ⟨_, hold⟩
  · rcases hcases hown with ⟨rfl, rfl⟩ | hold
    · exact hf
    · exact hall hold

theorem Inv.loadSegment_evolves (h : Inv s) (halive : s.alive p = true) {file ofs : Nat} {upage : UInt32}
    {readBytes : Nat} {writable : Bool} (hls : s.loadSegment p file ofs upage readBytes writable = some s') :
    Evolves s s' := by
  obtain ⟨hinv, -⟩ := h.loadSegment_adds hls
  obtain ⟨x, hx, rfl, -⟩ := h.loadSegment_spec hls
  have hid : x.mapId = none := hx ▸ rfl
  have hformed : Formed x := by
    rw [hx]
    exact ⟨fun _ => show min readBytes 4096 + (4096 - min readBytes 4096) = 4096 by omega, nofun⟩
  exact (h.fresh_evolves x).trans (Inv.enter_evolves h.next_unlisted hinv hid hformed halive)

theorem Inv.growStack_evolves (h : Inv s) (halive : s.alive p = true) {addr : UInt32} {pType : PallocType}
    (htype : pType = .growStack ∨ pType = .pageFault) (hgs : s.growStack p addr pType = some (true, s')) :
    Evolves s s' := by
  obtain ⟨s1, g, page, room, hfree, hva, rfl⟩ := h.growStack_spec htype hgs
  have hnew : ∀ q, s.next ∉ s1.supPageTable q := room.rests.tables ▸ h.next_unlisted
  have hlt : s.next < s1.next := room.rests.next ▸ Nat.lt_succ_self _
  have henter := (room.inv (h.fresh _)).enter hnew hlt (e := stackSpte (pgRoundDown addr)) rfl rfl nofun hva
  have halive1 : s1.alive p = true := room.rests.alive ▸ halive
  exact (h.fresh_evolves _).trans ((room.evolves (h.fresh _)).trans
    (Inv.enter_install_evolves hnew henter rfl rfl ⟨nofun, nofun⟩ halive1 hfree page))

theorem Inv.store_evolves (h : Inv s) {a : UInt32} {b : UInt8} (hstore : s.store p a b = some s') :
    Evolves s s' := by
  have hst := h.store_spec hstore
  refine ⟨hst.inv, hst.rests.inode, hst.rests.listMmap, hst.rests.mapId, hst.rests.fds, hst.rests.alive,
    fun _ => by rw [hst.rests.tables], fun hmem => hst.rests.tables ▸ hmem,
    fun hown => ⟨_, hst.owns.mpr hown, SamePage.refl _⟩, fun hown => .inl ⟨_, hst.owns.mp hown⟩,
    fun hall => fun hown => hall (hst.owns.mp hown), fun hn => ?_, fun {q c} hd => ?_⟩
  · intro idx hused
    have hswap : s'.swap = s.swap := by
      unfold store at hstore
      dsimp only at hstore
      split at hstore
      · cases hstore
        rfl
      · cases hstore
    rw [hswap] at hused
    obtain ⟨q, ptr', x, hx, hrest⟩ := hn hused
    exact ⟨q, ptr', x, hst.owns.mpr hx, hrest⟩
  · by_cases hqc : q = p ∧ c = pgRoundDown a
    · -- the page that has been written is in the table
      obtain ⟨rfl, rfl⟩ := hqc
      obtain ⟨ptr', x, hx, hva⟩ := hst.page
      exact .inr ⟨ptr', x, hst.owns.mpr hx, hva⟩
    · unfold store at hstore
      dsimp only at hstore
      split at hstore
      · cases hstore
        refine .inl ?_
        rw [← hd]
        exact (congrArg Pte.dirty (setPte_ne s _ fun hq hc => hqc ⟨hq, hc⟩)).symm
      · cases hstore

/-! ## The rest of the state -/

/-- The structures agree, with the lists of mappings and the threads that have exited. -/
structure Valid (s : Mem) : Prop where
  inv : Inv s
  formed : ∀ {p ptr e}, s.Owns p ptr e → Formed e
  listed : ∀ {p ptr}, ptr ∈ s.listMmap p → ∃ e, s.Owns p ptr e
  once : ∀ p, (s.listMmap p).Nodup
  dead : ∀ {p}, s.alive p = false → s.supPageTable p = []
  /-- A dirty bit is left behind only where an entry has been freed and not taken off the
  table. -/
  dirty : ∀ {p a}, (s.pagedir p a).dirty = true → (∃ ptr ∈ s.supPageTable p, s.heap ptr = none) ∨
    ∃ ptr e, s.Owns p ptr e ∧ e.userVaddr = a

theorem Evolves.freed (ev : Evolves s s') (hmem : ptr ∈ s.supPageTable p)
    (hfree : s.heap ptr = none) : s'.heap ptr = none := by
  by_contra hsome
  obtain ⟨x, hx⟩ := ne_none_iff_exists'.mp hsome
  rcases ev.new ⟨ev.mem hmem, hx⟩ with ⟨y, hy⟩ | ⟨-, hnot⟩
  · exact absurd (hfree.symm.trans hy.2) nofun
  · exact hnot hmem

theorem Valid.evolves (v : Valid s) (ev : Evolves s s') : Valid s' where
  inv := ev.inv
  formed := ev.formed v.formed
  listed hmem := by
    obtain ⟨e, hown⟩ := v.listed (ev.listMmap ▸ hmem)
    obtain ⟨e', hown', -⟩ := ev.old hown
    exact ⟨e', hown'⟩
  once := ev.listMmap ▸ v.once
  dead hdead := by
    rw [ev.alive] at hdead
    rw [ev.table hdead]
    exact v.dead hdead
  dirty hd := by
    rcases ev.dirty hd with hd | howned
    · rcases v.dirty hd with ⟨ptr, hmem, hfree⟩ | ⟨ptr, e, hown, hva⟩
      · exact .inl ⟨ptr, ev.mem hmem, ev.freed hmem hfree⟩
      · obtain ⟨e', hown', hsame⟩ := ev.old hown
        exact .inr ⟨ptr, e', hown', hsame.vaddr.trans hva⟩
    · exact .inr howned

theorem Valid.pageFault_evolves (v : Valid s) (halive : s.alive p = true) {a esp : UInt32}
    (hpf : s.pageFault p a esp = some s') : Evolves s s' := by
  rcases v.inv.pageFault_cases v.formed hpf with ⟨ptr, e, -, -, hl, hbr⟩ | ⟨-, hgs⟩
  · exact hbr.evolves v.inv hl
  · exact v.inv.growStack_evolves halive (.inr rfl) hgs

/-- **What a step does** that maps no file. -/
theorem Valid.step_evolves (v : Valid s) {act : Act} (hstep : s.step act = some s') : Evolves s s' := by
  unfold step at hstep
  split at hstep
  · next halive =>
    cases act with
    | segment p => exact v.inv.loadSegment_evolves halive hstep
    | stack p => exact v.inv.growStack_evolves halive (.inl rfl) (setupStack_cases hstep)
    | load p a =>
      obtain ⟨⟨byte, s1⟩, hload, rfl⟩ := map_eq_some_iff.mp hstep
      exact (load_touched hload).evolves v.inv
    | store p a b => exact v.inv.store_evolves hstep
    | fault p a esp => exact v.pageFault_evolves halive hstep
    | evict =>
      obtain ⟨⟨b, s1⟩, hev, rfl⟩ := map_eq_some_iff.mp hstep
      rcases v.inv.evictFrame_spec hev with ⟨-, hevicts⟩ | ⟨-, -, hage⟩
      · exact hevicts.evolves v.inv
      · exact hage.evolves v.inv
  · cases hstep

end

end Mem

end Pintos.VM
