import Pintos.VM.Calls

/-!
# What reaches a mapped file

`munmap` writes a page of the mapping back if the page directory says that it is dirty.
`allocate_page` makes mapped pages pages of `TYPE_FILE`, so `evict_frame` swaps a dirty
one out like a page of a segment. When it comes back the dirty bit is clear, and what
was stored before is not written to the file; when it does not come back the dirty bit
is set and the page is not present, and `munmap` takes a page fault that it must not take.
-/

namespace Pintos.VM

open Lib FileSys UserProg Function List Option

namespace Mem

/-! ## Pages of the mapping -/

def evicts (s : Mem) : Act → Bool
  | .evict => true
  | .fault .. | .stack _ => (bitmapScan s.usedMap 0 1 false).isNone
  | _ => false

/-- The step evicts no dirty page of the mapping. -/
def sparesDirty (s : Mem) (p mapid : Nat) (act : Act) : Bool :=
  !s.evicts act || s.victim.all fun fte => (s.heap fte.spte).all fun e =>
    fte.owner != p || e.mapId != some mapid || !s.pagedirIsDirty p e.userVaddr

/-- The page has not been swapped out, and is in memory if it is dirty. -/
structure Filed (s : Mem) (p : Nat) (e : Spte) : Prop where
  file : e.fileType = .file
  dirty : (s.pagedir p e.userVaddr).dirty = true → e.loaded = true

/-- The pages of the mapping stay that way. -/
def Stays (s s' : Mem) (p mapid : Nat) : Prop :=
  ∀ ptr e, s.Owns p ptr e → e.mapId = some mapid → s.Filed p e →
    ∃ e', s'.Owns p ptr e' ∧ e'.mapId = some mapid ∧ s'.Filed p e'

/-- The page that `evict_frame` chooses is no dirty page of the mapping. -/
def VictimClean (s : Mem) (p mapid : Nat) : Prop :=
  ∀ fte e, s.victim = some fte → s.heap fte.spte = some e → fte.owner = p → e.mapId = some mapid →
    (s.pagedir p e.userVaddr).dirty = false

variable {act : Act} {e : Spte}

section
variable {s s' s'' : Mem} {p mapid : Nat} {q ptr : Nat} {e e' : Spte} {f : Nat} {pte : Pte}

theorem Stays.trans (h : Stays s s' p mapid) (h' : Stays s' s'' p mapid) : Stays s s'' p mapid := by
  intro ptr e hown hid hf
  obtain ⟨e', hown', hid', hf'⟩ := h ptr e hown hid hf
  exact h' ptr e' hown' hid' hf'

theorem Touched.stays (t : Touched s s') : Stays s s' p mapid := by
  intro ptr e hown hid hf
  refine ⟨e, ⟨t.rests.tables ▸ hown.1, t.heap ▸ hown.2⟩, hid, hf.file, fun hd => ?_⟩
  rw [t.bits] at hd
  exact hf.dirty hd

theorem Moves.stays (h : Inv s) (m : Moves s s' q ptr e e' f pte)
    (hself : q = p → e.mapId = some mapid → s.Filed p e → e'.mapId = some mapid ∧ s'.Filed p e') :
    Stays s s' p mapid := by
  intro ptr' x hown hid hf
  by_cases hne : ptr' = ptr
  · subst hne
    cases hown.entry_eq m.owns
    cases h.owner hown.1 m.owns.1
    obtain ⟨hid', hf'⟩ := hself rfl hid hf
    exact ⟨e', m.owns_self, hid', hf'⟩
  · refine ⟨x, (m.owns_ne hne).mpr hown, hid, hf.file, fun hd => ?_⟩
    rw [m.pte_other h hne hown] at hd
    exact hf.dirty hd

theorem Evicts.stays (ev : Evicts s s') (h : Inv s) (hspare : s.VictimClean p mapid) :
    Stays s s' p mapid := by
  obtain ⟨s1, fte, x, ht, hvict, hx, hev⟩ := ev
  have h1 := ht.inv h
  obtain ⟨x', m, hplace⟩ := h1.evict_moves (ht.frameTable ▸ victim_mem hvict) (ht.heap ▸ hx) hev
  refine ht.stays.trans (m.stays h1 fun hq hid hf => ?_)
  have hclean : (s1.pagedir fte.owner x.userVaddr).dirty = false := by
    rw [ht.bits, hq]
    exact hspare fte x hvict hx hq hid
  rcases hplace with ⟨-, rfl, -⟩ | ⟨hd, -⟩
  · refine ⟨hid, hf.file, fun hd => ?_⟩
    replace hd : (s'.pagedir p x.userVaddr).dirty = true := hd
    rw [← hq, m.pte_self] at hd
    rw [hclean] at hd
    cases hd
  · -- it would go to a slot for its dirty bit, or for its type
    rw [hclean, hf.file] at hd
    rcases hd with hd | hd <;> cases hd

theorem MadeRoom.stays (r : MadeRoom s s') (h : Inv s)
    (hspare : bitmapScan s.usedMap 0 1 false = none → s.VictimClean p mapid) : Stays s s' p mapid := by
  rcases r with rfl | ⟨hfull, ev⟩
  · exact (Aged.refl s').stays
  · exact ev.stays h (hspare hfull)

theorem Inv.install_stays (h : Inv s) (hown : s.Owns q ptr e) (hl : e.loaded = false)
    (hfree : s.usedMap[f]? = some false) (page : Page) : Stays s (s.install q ptr e f page) p mapid :=
  (h.install_moves hown hl hfree page).stays h fun _ hid hf => ⟨hid, hf.file, fun _ => rfl⟩

theorem Inv.fresh_stays (h : Inv s) (x : Spte) : Stays s (s.fresh x) p mapid :=
  fun _ _ hown hid hf => ⟨_, h.fresh_owns.mpr hown, hid, hf.file, hf.dirty⟩

theorem enter_stays (hnew : ∀ r, ptr ∉ s.supPageTable r) (x : Spte) :
    Stays s (s.enter q ptr x) p mapid :=
  fun _ _ hown hid hf => ⟨_, (enter_owns hnew).mpr (.inr hown), hid, hf.file, hf.dirty⟩

/-- The choice of the victim does not look at an entry that is in no table. -/
theorem Inv.victim_fresh (h : Inv s) (x : Spte) : (s.fresh x).victim = s.victim := by
  have hbit : ∀ fte ∈ s.frameTable, (s.fresh x).accessedBit fte = s.accessedBit fte := by
    intro fte hfte
    obtain ⟨y, hy, -⟩ := h.resident hfte
    have hne : fte.spte ≠ s.next := fun heq => h.next_unlisted _ (heq ▸ hy.1)
    show (update s.heap s.next (some x) fte.spte).any _ = (s.heap fte.spte).any _
    rw [update_of_ne hne]
    rfl
  have hfind : (s.fresh x).frameTable.find? (fun fte => !(s.fresh x).accessedBit fte) =
      s.frameTable.find? fun fte => !s.accessedBit fte := by
    rw [← head?_filter, ← head?_filter]
    exact congrArg List.head? (filter_congr fun fte hfte => by rw [hbit fte hfte])
  rw [victim, hfind]
  rfl

theorem sparesDirty_victim (hspare : s.sparesDirty p mapid act = true) (hev : s.evicts act = true) :
    s.VictimClean p mapid := by
  intro fte x hvict hx howner hid
  simpa [sparesDirty, hev, hvict, hx, howner, hid, pagedirIsDirty] using hspare

theorem Inv.growStack_stays (h : Inv s) {addr : UInt32} {pType : PallocType}
    (htype : pType = .growStack ∨ pType = .pageFault) (hgs : s.growStack q addr pType = some (true, s'))
    (hspare : bitmapScan s.usedMap 0 1 false = none → s.VictimClean p mapid) : Stays s s' p mapid := by
  obtain ⟨s1, g, page, room, hfree, hva, rfl⟩ := h.growStack_spec htype hgs
  have hnew : ∀ r, s.next ∉ s1.supPageTable r := room.rests.tables ▸ h.next_unlisted
  have hlt : s.next < s1.next := room.rests.next ▸ Nat.lt_succ_self _
  have henter := (room.inv (h.fresh _)).enter hnew hlt (e := stackSpte (pgRoundDown addr)) rfl rfl nofun hva
  have hroom : Stays (s.fresh { stackSpte (pgRoundDown addr) with loaded := true }) s1 p mapid := by
    refine room.stays (h.fresh _) fun hfull fte x hvict hx => ?_
    rw [h.victim_fresh] at hvict
    refine hspare hfull fte x hvict ?_
    obtain ⟨y, hy, -⟩ := h.resident (victim_mem hvict)
    have hne : fte.spte ≠ s.next := fun heq => h.next_unlisted _ (heq ▸ hy.1)
    exact (update_of_ne hne _ _).symm.trans hx
  exact (h.fresh_stays _).trans (hroom.trans ((enter_stays hnew _).trans
    (henter.install_stays ((enter_owns hnew).mpr (.inl ⟨rfl, rfl, rfl⟩)) rfl hfree page)))

theorem Inv.store_stays (h : Inv s) {a : UInt32} {b : UInt8} (hstore : s.store q a b = some s') :
    Stays s s' p mapid := by
  have hst := h.store_spec hstore
  intro ptr' x hown hid hf
  refine ⟨x, hst.owns.mpr hown, hid, hf.file, fun hd => ?_⟩
  unfold store at hstore
  dsimp only at hstore
  split at hstore
  · next hpte =>
    cases hstore
    by_cases hpage : p = q ∧ x.userVaddr = pgRoundDown a
    · obtain ⟨rfl, hva⟩ := hpage
      exact h.loaded_of_present hown (hva ▸ hpte.2.1)
    · replace hd : ((s.setPte q (pgRoundDown a) _).pagedir p x.userVaddr).dirty = true := hd
      rw [setPte_ne s _ fun hp hva => hpage ⟨hp, hva⟩] at hd
      exact hf.dirty hd
  · cases hstore

theorem Valid.step_stays (v : Valid s) (hspare : s.sparesDirty p mapid act = true)
    (hstep : s.step act = some s') : Stays s s' p mapid := by
  have hvict : s.evicts act = true → s.VictimClean p mapid := sparesDirty_victim hspare
  unfold step at hstep
  split at hstep
  · cases act with
    | segment q file ofs upage readBytes writable =>
      obtain ⟨x, -, rfl, -⟩ := v.inv.loadSegment_spec hstep
      exact (v.inv.fresh_stays x).trans (enter_stays (s := s.fresh x) v.inv.next_unlisted x)
    | stack q =>
      exact v.inv.growStack_stays (.inl rfl) (setupStack_cases hstep) fun hfull =>
        hvict (by rw [evicts, hfull]; rfl)
    | load q a =>
      obtain ⟨⟨byte, s1⟩, hload, rfl⟩ := map_eq_some_iff.mp hstep
      exact (load_touched hload).stays
    | store q a b => exact v.inv.store_stays hstep
    | fault q a esp =>
      have hroom : bitmapScan s.usedMap 0 1 false = none → s.VictimClean p mapid :=
        fun hfull => hvict (by rw [evicts, hfull]; rfl)
      rcases v.inv.pageFault_cases v.formed hstep with ⟨ptr, e, -, -, hl, s1, g, room, hown, hfree, rfl⟩ | ⟨-, hgs⟩
      · exact (room.stays v.inv hroom).trans ((room.inv v.inv).install_stays hown hl hfree _)
      · exact v.inv.growStack_stays (.inr rfl) hgs hroom
    | evict =>
      obtain ⟨⟨b, s1⟩, hev, rfl⟩ := map_eq_some_iff.mp hstep
      rcases v.inv.evictFrame_spec hev with ⟨-, hevicts⟩ | ⟨-, -, hage⟩
      · exact hevicts.stays v.inv (hvict rfl)
      · exact hage.stays
  · cases hstep

/-! ## What is in them -/

/-- The page at `ptr` is the same as before, with the same content. -/
def Preserves (s s' : Mem) (p ptr : Nat) (e : Spte) : Prop :=
  ∃ e', s'.Owns p ptr e' ∧ SamePage e e' ∧ s'.Backed p e' ∧ s'.content p e' = s.content p e

theorem Keeps.preserves (k : Keeps s s') (hown : s.Owns p ptr e) (hb : s.Backed p e) :
    Preserves s s' p ptr e := by
  obtain ⟨e', hown', hsame, hback⟩ := k.owns hown
  exact ⟨e', hown', hsame, (hback hb).1, (hback hb).2⟩

theorem Adds.preserves {ptr' : Nat} {x : Spte} (d : Adds s s' q ptr' x) (hown : s.Owns p ptr e)
    (hb : s.Backed p e) : Preserves s s' p ptr e := by
  obtain ⟨e', hown', hsame⟩ := d.kept hown
  rcases d.old hown' with ⟨rfl, -, rfl⟩ | ⟨e0, hold, -, hback⟩
  · -- the new page is at another address
    exact absurd hsame.vaddr.symm (d.absent hown)
  · cases hown.entry_eq hold
    exact ⟨e', hown', hsame, (hback hb).1, (hback hb).2⟩

theorem Valid.step_preserves (v : Valid s) (hact : ∀ q c b, act ≠ .store q c b)
    (hstep : s.step act = some s') (hown : s.Owns p ptr e) (hb : s.Backed p e) :
    Preserves s s' p ptr e := by
  unfold step at hstep
  split at hstep
  · cases act with
    | segment q file ofs upage readBytes writable =>
      obtain ⟨-, ptr', x, d, -⟩ := v.inv.loadSegment_adds hstep
      exact d.preserves hown hb
    | stack q =>
      obtain ⟨-, ptr', x, d, -⟩ := v.inv.growStack_adds (.inl rfl) (setupStack_cases hstep)
      exact d.preserves hown hb
    | load q a =>
      obtain ⟨⟨byte, s1⟩, hload, rfl⟩ := map_eq_some_iff.mp hstep
      exact (load_touched hload).keeps.preserves hown hb
    | store q a b => exact absurd rfl (hact q a b)
    | fault q a esp =>
      rcases v.inv.pageFault_cases v.formed hstep with ⟨ptr', x, -, -, hl, hbr⟩ | ⟨-, hgs⟩
      · exact (hbr.keeps v.inv hl).preserves hown hb
      · obtain ⟨-, ptr', x, d, -⟩ := v.inv.growStack_adds (.inr rfl) hgs
        exact d.preserves hown hb
    | evict =>
      obtain ⟨⟨b, s1⟩, hev, rfl⟩ := map_eq_some_iff.mp hstep
      rcases v.inv.evictFrame_spec hev with ⟨-, hevicts⟩ | ⟨-, -, hage⟩
      · exact (hevicts.keeps v.inv).preserves hown hb
      · exact hage.keeps.preserves hown hb
  · cases hstep

/-- The page of the mapping that was made with the entry `e₀`: it holds what has been
stored, and else what the file `g` has. -/
def Holds (s : Mem) (p ptr : Nat) (e₀ : Spte) (g : File) (as : List Act) : Prop :=
  ∃ e, s.Owns p ptr e ∧ SamePage e₀ e ∧ s.Filed p e ∧ s.Backed p e ∧
    ∀ a, pgRoundDown a = e₀.userVaddr → (s.content p e).get (pgOfs a) =
      (lastStore p a as).getD ((filePage g e₀).get (pgOfs a))

theorem Holds.step {e₀ : Spte} {g : File} {as : List Act} (k : Holds s p ptr e₀ g as) (v : Valid s)
    (hid : e₀.mapId = some mapid) {act : Act} (hspare : s.sparesDirty p mapid act = true)
    (hstep : s.step act = some s') : Holds s' p ptr e₀ g (as ++ [act]) := by
  obtain ⟨e, hown, hsame, hf, hb, hbytes⟩ := k
  obtain ⟨x, hx, -, hfx⟩ := v.step_stays hspare hstep ptr e hown (hsame.mapId.trans hid) hf
  by_cases hact : ∃ q c b, act = .store q c b
  · obtain ⟨q, c, b, rfl⟩ := hact
    have hstore : s.store q c b = some s' := by
      unfold Mem.step at hstep
      split at hstep
      · exact hstep
      · cases hstep
    have hst := v.inv.store_spec hstore
    cases hown.entry_eq (hst.owns.mp hx)
    refine ⟨e, hx, hsame, hfx, hst.backed hown hb, fun a ha => ?_⟩
    rw [lastStore_snoc_store, hst.get hown (ha.trans hsame.vaddr.symm)]
    by_cases hqa : q = p ∧ c = a
    · rw [if_pos hqa, if_pos hqa]
      rfl
    · rw [if_neg hqa, if_neg hqa]
      exact hbytes a ha
  · have hno : ∀ q c b, act ≠ .store q c b := fun q c b heq => hact ⟨q, c, b, heq⟩
    obtain ⟨y, hy, hsame', hb', hc⟩ := v.step_preserves hno hstep hown hb
    cases hx.entry_eq hy
    refine ⟨x, hx, hsame.trans hsame', hfx, hb', fun a ha => ?_⟩
    rw [hc, lastStore_snoc p a as hno]
    exact hbytes a ha

/-! ## munmap writes them -/

/-- The page of `e` will bring the bytes of the file to `want`: it has them if it is
dirty, and the file has them else. -/
structure Due (s : Mem) (p ptr : Nat) (e : Spte) (file : Nat) (want : Nat → UInt8) : Prop where
  owns : s.Owns p ptr e
  source : e.file = file
  fits : e.offset + e.readBytes ≤ (s.inode file).length
  dirty : (s.pagedir p e.userVaddr).dirty = true → e.loaded = true ∧
    ∀ k < e.readBytes, (s.ram (s.pagedir p e.userVaddr).frame).get k = want (e.offset + k)
  clean : (s.pagedir p e.userVaddr).dirty = false →
    ∀ k < e.readBytes, (s.inode file).byte (e.offset + k) = want (e.offset + k)

/-- The bytes that were as wanted still are, and those from `lo` up to `hi` are. -/
structure Nears (f f' : File) (want : Nat → UInt8) (within : Nat → Prop) : Prop where
  length : f'.length = f.length
  deny : f'.denyWriteCnt = f.denyWriteCnt
  bytes : ∀ off < f.length, f.byte off = want off ∨ within off → f'.byte off = want off

variable {file : Nat} {want : Nat → UInt8}

theorem Due.saveDirty (d : Due s p ptr e file want) (h : Inv s) (hdeny : (s.inode file).denyWriteCnt = 0) :
    ∃ s₁, s.saveDirty p e = some s₁ ∧
      Nears (s.inode file) (s₁.inode file) want fun off => e.offset ≤ off ∧ off < e.offset + e.readBytes := by
  have hsplit : ∀ off, e.offset ≤ off ∧ off < e.offset + e.readBytes →
      ∃ k < e.readBytes, off = e.offset + k := fun off hoff => ⟨off - e.offset, by omega, by omega⟩
  cases hd : (s.pagedir p e.userVaddr).dirty with
  | true =>
    obtain ⟨hl, hbytes⟩ := d.dirty hd
    obtain ⟨-, hpres⟩ := h.loaded d.owns hl
    have hback : s.writeBack p e = some { s.pagedirSetAccessed p e.userVaddr true with
        inode := update s.inode file
          ((s.inode file).writeAt (s.ram (s.pagedir p e.userVaddr).frame) e.readBytes e.offset) } := by
      rw [writeBack, d.source, if_neg (by omega), if_pos hpres]
    refine ⟨_, (if_pos (by exact hd)).trans hback, ?_⟩
    have hfits := d.fits
    simp only [update_self]
    refine ⟨?_, rfl, fun off hoff hwant => ?_⟩
    · show (if e.readBytes = 0 then _ else max _ _) = _
      split <;> omega
    · show (if e.offset ≤ off ∧ off < e.offset + e.readBytes then _ else _) = _
      by_cases hin : e.offset ≤ off ∧ off < e.offset + e.readBytes
      · obtain ⟨k, hk, rfl⟩ := hsplit off hin
        rw [if_pos hin, Nat.add_sub_cancel_left]
        exact hbytes k hk
      · rw [if_neg hin, if_pos hoff]
        exact hwant.resolve_right hin
  | false =>
    refine ⟨s, if_neg (by rw [pagedirIsDirty, hd]; exact Bool.false_ne_true), rfl, rfl, fun off _ hwant => ?_⟩
    rcases hwant with hwant | hin
    · exact hwant
    · obtain ⟨k, hk, rfl⟩ := hsplit off hin
      exact d.clean hd k hk

theorem Due.other {ptr' : Nat} {x : Spte} (d : Due s p ptr' x file want) {s₁ : Mem}
    (ht : Touched s { s₁ with inode := s.inode }) (h : Inv s₁) (dr : Drops s₁ s' p ptr e) (hne : ptr' ≠ ptr)
    {within : Nat → Prop} (hnear : Nears (s.inode file) (s₁.inode file) want within) :
    Due s' p ptr' x file want := by
  have htab : s₁.supPageTable = s.supPageTable := ht.rests.tables
  have hheap : s₁.heap = s.heap := ht.heap
  have hram : s₁.ram = s.ram := by
    have hrest := congrArg Mem.ram ht.rest
    exact hrest
  have hown1 : s₁.Owns p ptr' x := ⟨htab ▸ d.owns.1, hheap ▸ d.owns.2⟩
  have hbits : s₁.pagedir p x.userVaddr = { s.pagedir p x.userVaddr with
      accessed := (s₁.pagedir p x.userVaddr).accessed } := ht.bits p x.userVaddr
  have hpte := dr.pte_other h hne hown1
  have hinode : s'.inode = s₁.inode := dr.rests.inode
  refine ⟨dr.owns.mpr ⟨hown1, hne⟩, d.source, ?_, fun hd => ?_, fun hd k hk => ?_⟩
  · rw [hinode, hnear.length]
    exact d.fits
  · rw [hpte, hbits] at hd
    obtain ⟨hl, hbytes⟩ := d.dirty hd
    refine ⟨hl, fun k hk => ?_⟩
    rw [hpte, dr.ram (h.loaded hown1 hl).1 hne, hram, hbits]
    exact hbytes k hk
  · rw [hpte, hbits] at hd
    have hfits := d.fits
    rw [hinode]
    exact hnear.bytes _ (by omega) (.inl (d.clean hd k hk))

theorem Due.unmapPages (v : Valid s) (hdeny : (s.inode file).denyWriteCnt = 0) {l : List Nat} (hnd : l.Nodup)
    (hsub : ∀ ptr ∈ l, ptr ∈ s.listMmap p)
    (hdue : ∀ ptr ∈ l, ∀ e, s.heap ptr = some e → e.mapId = some mapid → Due s p ptr e file want) :
    ∃ s', s.unmapPages p mapid l = some s' ∧ Nears (s.inode file) (s'.inode file) want fun off =>
      ∃ ptr ∈ l, ∃ e, s.heap ptr = some e ∧ e.mapId = some mapid ∧
        e.offset ≤ off ∧ off < e.offset + e.readBytes := by
  induction l generalizing s with
  | nil => exact ⟨s, rfl, rfl, rfl, fun off _ hwant => hwant.resolve_right (by simp)⟩
  | cons hd rest ih =>
    obtain ⟨hnot, hnd⟩ := nodup_cons.mp hnd
    obtain ⟨e, hown⟩ := v.listed (hsub hd mem_cons_self)
    by_cases hid : e.mapId = some mapid
    · -- the page is written and given up, and the rest of the loop starts from there
      have d := hdue hd mem_cons_self e hown.2 hid
      obtain ⟨s1, hsave, hnear⟩ := d.saveDirty v.inv hdeny
      have ht := saveDirty_touched hsave
      have v1 := v.touched ht
      have hown1 : s1.Owns p hd e := by
        have hheap : s1.heap = s.heap := ht.heap
        have htab : s1.supPageTable = s.supPageTable := ht.rests.tables
        exact ⟨htab ▸ hown.1, hheap ▸ hown.2⟩
      obtain ⟨s2, hframe, hpage⟩ := bind_eq_some_iff.mp (v1.inv.freeFrame_freePage hown1)
      have hunmap : ∃ s', s.unmapPage p hd e = some s' := by
        simp only [Mem.unmapPage, hsave, hframe, hpage, some_bind]
        exact ⟨_, rfl⟩
      obtain ⟨s', hunmap⟩ := hunmap
      obtain ⟨u, hlist⟩ := v.unmapPage hown hid hunmap
      obtain ⟨s1', hsave', -, hs'⟩ := v.unmapPage_eq hown hunmap
      cases Option.some.inj (hsave.symm.trans hsave')
      have dr := v1.inv.dropped_drops hown1
      have hinode : s'.inode = s1.inode := by
        rw [hs']
        exact dr.rests.inode
      have hheap' : ∀ ptr, ptr ≠ hd → s'.heap ptr = s.heap ptr := by
        intro ptr hne
        have hheap : s1.heap = s.heap := ht.heap
        rw [hs']
        show (s1.dropped p hd e).heap ptr = _
        rw [dr.heap, update_of_ne hne, hheap]
      have hsub' : ∀ ptr ∈ rest, ptr ∈ s'.listMmap p := by
        intro ptr hmem
        rw [hlist, update_self, (v.once p).mem_erase_iff]
        exact ⟨fun heq => hnot (heq ▸ hmem), hsub ptr (mem_cons_of_mem _ hmem)⟩
      have hdue' : ∀ ptr ∈ rest, ∀ x, s'.heap ptr = some x → x.mapId = some mapid →
          Due s' p ptr x file want := by
        intro ptr hmem x hx hxid
        have hne : ptr ≠ hd := fun heq => hnot (heq ▸ hmem)
        have dx := hdue ptr (mem_cons_of_mem _ hmem) x ((hheap' ptr hne).symm.trans hx) hxid
        have dx' := dx.other ht v1.inv dr hne hnear
        rw [hs']
        exact { dx' with }
      have hdeny' : (s'.inode file).denyWriteCnt = 0 := by
        rw [hinode, hnear.deny]
        exact hdeny
      obtain ⟨s'', hloop, hnear'⟩ := ih u.valid hdeny' hnd hsub' hdue'
      rw [hinode] at hnear'
      refine ⟨s'', ?_, hnear'.length.trans hnear.length, hnear'.deny.trans hnear.deny, fun off hoff hwant => ?_⟩
      · simp only [Mem.unmapPages, hown.2, some_bind, if_pos hid, hunmap]
        exact hloop
      · refine hnear'.bytes off (by rw [hnear.length]; exact hoff) ?_
        rcases hwant with hwant | ⟨ptr, hmem, x, hx, hxid, hin⟩
        · exact .inl (hnear.bytes off hoff (.inl hwant))
        · rcases mem_cons.mp hmem with rfl | hmem
          · cases Option.some.inj (hown.2.symm.trans hx)
            exact .inl (hnear.bytes off hoff (.inr hin))
          · have hne : ptr ≠ hd := fun heq => hnot (heq ▸ hmem)
            exact .inr ⟨ptr, hmem, x, (hheap' ptr hne).trans hx, hxid, hin⟩
    · obtain ⟨s', hloop, hnear⟩ := ih v hdeny hnd (fun ptr hmem => hsub ptr (mem_cons_of_mem _ hmem))
        fun ptr hmem => hdue ptr (mem_cons_of_mem _ hmem)
      refine ⟨s', ?_, hnear.length, hnear.deny, fun off hoff hwant => hnear.bytes off hoff ?_⟩
      · simp only [Mem.unmapPages, hown.2, some_bind, if_neg hid]
        exact hloop
      · refine hwant.imp id fun ⟨ptr, hmem, x, hx, hxid, hin⟩ => ?_
        rcases mem_cons.mp hmem with rfl | hmem
        · cases Option.some.inj (hown.2.symm.trans hx)
          exact absurd hxid hid
        · exact ⟨ptr, hmem, x, hx, hxid, hin⟩

end

/-! ## The mapping over a run -/

/-- The mapping with the id: its `n` pages, from the address `base` of the first entry on,
hold what they should, and no other page has the id. -/
structure Mirrored (s : Mem) (p mapid base n file : Nat) (entry : Nat → Spte) (g : File)
    (as : List Act) : Prop where
  valid : Valid s
  source : s.inode file = g
  listed : ∀ i < n, base + i ∈ s.listMmap p
  only : ∀ ptr ∈ s.listMmap p, ∀ e, s.heap ptr = some e → e.mapId = some mapid → ∃ i < n, ptr = base + i
  holds : ∀ i < n, s.Holds p (base + i) (entry i) g as

section
variable {s s' : Mem} {p mapid base n file : Nat} {entry : Nat → Spte} {g : File} {as : List Act}

theorem Mirrored.step (k : Mirrored s p mapid base n file entry g as)
    (hids : ∀ i, (entry i).mapId = some mapid) {act : Act} (hspare : s.sparesDirty p mapid act = true)
    (hstep : s.step act = some s') : Mirrored s' p mapid base n file entry g (as ++ [act]) := by
  have ev := k.valid.step_evolves hstep
  refine ⟨k.valid.evolves ev, by rw [ev.inode]; exact k.source, by rw [ev.listMmap]; exact k.listed,
    fun ptr hmem e he hid => ?_, fun i hi => (k.holds i hi).step k.valid (hids i) hspare hstep⟩
  rw [ev.listMmap] at hmem
  obtain ⟨x, hx⟩ := k.valid.listed hmem
  rcases ev.back ⟨ev.mem hx.1, he⟩ with ⟨y, hy, hsame⟩ | ⟨-, hnot⟩
  · exact k.only ptr hmem y hy.2 (hsame.mapId.symm.trans hid)
  · exact absurd hx.1 hnot

theorem Mirrored.run {s₀ : Mem} (hids : ∀ i, (entry i).mapId = some mapid)
    (hrun : Run Mem.step (fun s act => s.sparesDirty p mapid act = true) s₀ as s)
    (k : Mirrored s₀ p mapid base n file entry g []) : Mirrored s p mapid base n file entry g as := by
  induction hrun with
  | nil => exact k
  | snoc _ hspare hstep ih => exact ih.step hids hspare hstep

theorem Filed.content_clean {ptr : Nat} (hf : s.Filed p e) (h : Inv s) (hown : s.Owns p ptr e)
    (hb : s.Backed p e) (hd : (s.pagedir p e.userVaddr).dirty = false) :
    s.content p e = filePage (s.inode e.file) e := by
  by_cases hl : e.loaded = true
  · rw [content, if_pos hl]
    exact hb.clean hf.file hl hd
  · have hsw : e.isSwapped ≠ true := fun hsw => by
      have htype := (h.swapped hown hsw).2.1
      rw [hf.file] at htype
      cases htype
    rw [content, if_neg hl, if_neg hsw]

theorem get_filePage {k : Nat} (hk : k < e.readBytes) (hlt : k < 4096) :
    (filePage g e).get k = g.byte (e.offset + k) := by
  show (if (Fin.ofNat 4096 k).val < e.readBytes then g.byte (e.offset + (Fin.ofNat 4096 k).val) else 0) = _
  rw [show (Fin.ofNat 4096 k).val = k from Nat.mod_eq_of_lt hlt, if_pos hk]

/-- The pages bring the file to what has been stored: `a` is the address at which the
byte of the file is mapped. -/
theorem Mirrored.due (k : Mirrored s p mapid base n file entry g as) {want : Nat → UInt8}
    (hfile : ∀ i, (entry i).file = file)
    (hfits : ∀ i < n, (entry i).offset + (entry i).readBytes ≤ g.length ∧ (entry i).readBytes ≤ 4096)
    (hwant : ∀ i < n, ∀ j < (entry i).readBytes, ∃ a, pgRoundDown a = (entry i).userVaddr ∧ pgOfs a = j ∧
      want ((entry i).offset + j) = (lastStore p a as).getD (g.byte ((entry i).offset + j)))
    {ptr : Nat} (hmem : ptr ∈ s.listMmap p) (he : s.heap ptr = some e)
    (hid : e.mapId = some mapid) : Due s p ptr e file want := by
  obtain ⟨i, hi, rfl⟩ := k.only ptr hmem e he hid
  obtain ⟨x, hx, hsame, hf, hb, hbytes⟩ := k.holds i hi
  cases Option.some.inj (he.symm.trans hx.2)
  have hsource : e.file = file := hsame.file.trans (hfile i)
  -- a byte of the page is what is wanted
  have hpage : ∀ j < e.readBytes, (s.content p e).get j = want (e.offset + j) := by
    intro j hj
    rw [hsame.readBytes] at hj
    obtain ⟨a, ha, hofs, hw⟩ := hwant i hi j hj
    have hlt : j < 4096 := lt_of_lt_of_le hj (hfits i hi).2
    have hbyte := hbytes a ha
    rw [hofs, get_filePage hj hlt] at hbyte
    rw [hsame.offset, hw, hbyte]
  refine ⟨hx, hsource, ?_, fun hd => ⟨hf.dirty hd, fun j hj => ?_⟩, fun hd j hj => ?_⟩
  · rw [k.source, hsame.offset, hsame.readBytes]
    exact (hfits i hi).1
  · rw [← hpage j hj, content, if_pos (hf.dirty hd)]
  · have hlt : j < 4096 := lt_of_lt_of_le hj (hsame.readBytes ▸ (hfits i hi).2)
    rw [← hpage j hj, hf.content_clean k.valid.inv hx hb hd, hsource, get_filePage hj hlt]

/-- The entry of page `i` of a file of `length` bytes that is mapped at `addr`. -/
def mapEntryOf (s : Mem) (p file : Nat) (addr : UInt32) (i : Nat) : Spte :=
  (s.fileReopen file).pageSpte p file addr (s.inode file).length 0 i

variable {fd : Nat} {addr : UInt32} {id : Int}

theorem Valid.dirty_absent (v : Valid s) (haddr : pgOfs addr = 0) (hfind : s.findPage p addr = some none) :
    (s.pagedir p addr).dirty = false := by
  by_contra hd
  rcases v.dirty (Bool.eq_true_of_not_eq_false hd) with ⟨ptr, hmem, hfree⟩ | ⟨ptr, e, hown, hva⟩
  · obtain ⟨x, hx, -⟩ := search_absent hfind ptr hmem
    exact absurd (hfree.symm.trans hx) nofun
  · exact findPage_absent haddr hfind hown hva

theorem pgOfs_pageAddr (haddr : pgOfs addr = 0) (i : Nat) : pgOfs (pageAddr addr i) = 0 := by
  rw [pgOfs_eq] at haddr ⊢
  simp only [pageAddr, PGSIZE, UInt32.toNat_add, UInt32.toNat_mul, UInt32.toNat_ofNat']
  rw [show UInt32.toNat 4096 = 4096 from rfl]
  omega

/-- **After `mmap`** the pages hold what the file has. -/
theorem Valid.mmap_mirrored (v : Valid s) (halive : s.alive p = true) (hfd : s.fds p fd = some file)
    (hnew : ∀ ptr ∈ s.listMmap p, ∀ e, s.heap ptr = some e → e.mapId ≠ some (s.mapId p))
    (hmap : s.mmap p fd addr = some (id, s')) (hid : id ≠ -1) :
    Mirrored s' p id.toNat s.next (pageCount (s.inode file).length) file (s.mapEntryOf p file addr)
      (s'.inode file) [] := by
  have hvalid := (v.mmap halive hmap).1
  obtain ⟨file', hfile, hofs, hlen, rfl, hpages, rfl⟩ := mmap_success hmap hid
  cases Option.some.inj (hfd.symm.trans hfile)
  have vr : Valid (s.fileReopen file) := v.reset _ s.mapId
  have hfree := (vr.below p).mapPages_free hofs hpages
  have htable := fun {i : Nat} (hi : i < pageCount (s.inode file).length) =>
    mappedPages_table (s.fileReopen file) p file addr (s.inode file).length 0 hi
  refine ⟨hvalid, rfl, fun i hi => (htable hi).2, fun ptr hmem e he heid => ?_, fun i hi => ?_⟩
  · replace hmem : ptr ∈ update s.listMmap p
      (s.listMmap p ++ List.range' s.next (pageCount (s.inode file).length)) p := hmem
    rw [update_self, mem_append, mem_range'_1] at hmem
    rcases hmem with hmem | hin
    · -- an old element of the list has another id
      obtain ⟨x, hx⟩ := v.listed hmem
      have hlt := v.inv.below hx.1
      replace he : (if s.next ≤ ptr ∧ ptr < s.next + pageCount (s.inode file).length then _
        else s.heap ptr) = some e := he
      rw [if_neg (by omega)] at he
      exact absurd heid (hnew ptr hmem e he)
    · exact ⟨ptr - s.next, by omega, by omega⟩
  · obtain ⟨-, hfind⟩ := hfree i hi
    have hclean := vr.dirty_absent (pgOfs_pageAddr hofs i) hfind
    have hfull : min ((s.inode file).length - 4096 * i) 4096 +
        (4096 - min ((s.inode file).length - 4096 * i) 4096) = 4096 := by omega
    refine ⟨s.mapEntryOf p file addr i, ⟨(htable hi).1, mappedPages_heap hi⟩, SamePage.refl _, ⟨rfl, fun hd => ?_⟩, ⟨⟨fun _ => hfull, nofun⟩, nofun⟩,
      fun a _ => rfl⟩
    replace hd : (s.pagedir p (pageAddr addr i)).dirty = true := hd
    rw [show s.pagedir p (pageAddr addr i) = (s.fileReopen file).pagedir p (pageAddr addr i) from rfl,
      hclean] at hd
    cases hd

theorem pageAddr_byte (haddr : pgOfs addr = 0) (i : Nat) {j : Nat} (hj : j < 4096) :
    pgRoundDown (addr + UInt32.ofNat (4096 * i + j)) = pageAddr addr i ∧
      pgOfs (addr + UInt32.ofNat (4096 * i + j)) = j := by
  rw [pgOfs_eq] at haddr
  have hpage := addr.toNat_lt
  constructor
  · apply UInt32.toNat.inj
    rw [pgRoundDown_toNat]
    simp only [pageAddr, PGSIZE, UInt32.toNat_add, UInt32.toNat_mul, UInt32.toNat_ofNat']
    rw [show UInt32.toNat 4096 = 4096 from rfl]
    omega
  · rw [pgOfs_eq, UInt32.toNat_add, UInt32.toNat_ofNat']
    omega

end

end Mem

open Mem in
/-- **What is stored in a mapped file reaches it** with `munmap`, if writes to the file are
not denied, no entry had the id before, and no dirty page of the mapping has been
evicted: then every byte of the file is the last one stored at its address, or the old one. -/
theorem munmap_writes_last_store {pages : Nat} {ram : Nat → Page} {capacity : UInt32} {device : Disk}
    {inode : Nat → File} {fds : Nat → Nat → Option Nat} {cs : List Call} {s s₁ s₂ : Mem}
    (hreach : Run Mem.call (fun _ _ => True) (Mem.start pages ram capacity device inode fds) cs s)
    {p fd file : Nat} {addr : UInt32} {id : Int} (halive : s.alive p = true) (hfd : s.fds p fd = some file)
    (hdeny : (s.inode file).denyWriteCnt = 0)
    (hnew : ∀ ptr ∈ s.listMmap p, ∀ e, s.heap ptr = some e → e.mapId ≠ some (s.mapId p))
    (hmap : s.mmap p fd addr = some (id, s₁)) (hid : id ≠ -1) {as : List Act}
    (hrun : Run Mem.step (fun s act => s.sparesDirty p id.toNat act = true) s₁ as s₂) :
    ∃ s₃, s₂.munmap p id.toNat = some s₃ ∧ (s₃.inode file).length = (s.inode file).length ∧
      ∀ off < (s.inode file).length, (s₃.inode file).byte off =
        (lastStore p (addr + UInt32.ofNat off) as).getD ((s.inode file).byte off) := by
  have v : Valid s := hreach.invariant (fun _ _ _ v _ hcall => Valid.call v hcall)
    (valid_start pages ram capacity device inode fds)
  have k1 := v.mmap_mirrored halive hfd hnew hmap hid
  obtain ⟨file', hfile, hofs, hlen, rfl, -, hs1⟩ := mmap_success hmap hid
  cases Option.some.inj (hfd.symm.trans hfile)
  -- the file is the same as before but for the count of its openers
  have hsame : (s₁.inode file).length = (s.inode file).length ∧
      (s₁.inode file).byte = (s.inode file).byte ∧
      (s₁.inode file).denyWriteCnt = (s.inode file).denyWriteCnt := by
    rw [hs1]
    simp [mappedPages, fileReopen]
  have hpos : ∀ i < pageCount (s.inode file).length, min (s.inode file).length (4096 * i) = 4096 * i := by
    intro i hi
    unfold pageCount at hi
    omega
  have k := Mirrored.run (fun _ => rfl) hrun k1
  have hdue : ∀ ptr ∈ s₂.listMmap p, ∀ e, s₂.heap ptr = some e → e.mapId = some ((s.mapId p : Int).toNat) →
      Due s₂ p ptr e file fun off =>
        (lastStore p (addr + UInt32.ofNat off) as).getD ((s₁.inode file).byte off) := by
    intro ptr hmem e he heid
    refine k.due (fun _ => rfl) (fun i hi => ?_) (fun i hi j hj => ?_) hmem he heid
    · show 0 + min (s.inode file).length (4096 * i) + min ((s.inode file).length - 4096 * i) 4096 ≤ _ ∧
        min ((s.inode file).length - 4096 * i) 4096 ≤ 4096
      rw [hsame.1]
      omega
    · replace hj : j < min ((s.inode file).length - 4096 * i) 4096 := hj
      have hofs' : (s.mapEntryOf p file addr i).offset = 4096 * i := by
        show 0 + min (s.inode file).length (4096 * i) = _
        rw [hpos i hi, Nat.zero_add]
      obtain ⟨hround, hpg⟩ := pageAddr_byte hofs i (show j < 4096 by omega)
      exact ⟨_, hround, hpg, by rw [hofs']⟩
  obtain ⟨s₃, hloop, hnear⟩ := Due.unmapPages k.valid (by rw [k.source, hsame.2.2]; exact hdeny)
    (k.valid.once p) (fun _ h => h) hdue
  rw [k.source] at hnear
  refine ⟨s₃, hloop, hnear.length.trans hsame.1, fun off hoff => ?_⟩
  -- byte `off` is in page `off / 4096`
  have hi : off / 4096 < pageCount (s.inode file).length := by
    unfold pageCount
    omega
  obtain ⟨e, hown, hpage, -⟩ := k.holds _ hi
  have hbyte := hnear.bytes off (by rw [hsame.1]; exact hoff) (.inr ⟨_, k.listed _ hi, e, hown.2, hpage.mapId, ?_⟩)
  · rw [hbyte, hsame.2.1]
  · rw [hpage.offset, hpage.readBytes]
    show 0 + min (s.inode file).length (4096 * (off / 4096)) ≤ off ∧
      off < 0 + min (s.inode file).length (4096 * (off / 4096)) +
        min ((s.inode file).length - 4096 * (off / 4096)) 4096
    omega

/-- A process with one open file of one byte, and a pool of `pages` pages. -/
def oneByte (pages : Nat) : Mem :=
  Mem.start pages (fun _ => Arr.const 0) 16 (fun _ => Arr.const 0) (fun _ => ⟨1, fun _ => 65, 1, 0⟩)
    fun _ fd => if fd = 2 then some 5 else none

/-- The page is brought in, written to and written back. -/
theorem munmap_writes_last_store_one_byte : ∃ s₁ s₂ s₃,
    (oneByte 2).mmap 0 2 0x10000000 = some (0, s₁) ∧
    Run Mem.step (fun s act => s.sparesDirty 0 0 act = true) s₁
      [.fault 0 0x10000000 0, .store 0 0x10000000 7] s₂ ∧
    s₂.munmap 0 0 = some s₃ ∧ (s₃.inode 5).byte 0 = 7 := by
  obtain ⟨s₁, hmap, s₂, hrun, -⟩ : ∃ s₁, (oneByte 2).mmap 0 2 0x10000000 = some (0, s₁) ∧
      ∃ s₂, Run Mem.step (fun s act => s.sparesDirty 0 0 act = true) s₁
        [.fault 0 0x10000000 0, .store 0 0x10000000 7] s₂ ∧ True := by
    decide +kernel
  obtain ⟨s₃, hunmap, -, hbytes⟩ := munmap_writes_last_store (.nil : Run Mem.call _ (oneByte 2) [] _)
    (p := 0) rfl rfl rfl nofun hmap (by decide) hrun
  exact ⟨s₁, s₂, s₃, hmap, hrun, hunmap, hbytes 0 Nat.zero_lt_one⟩

/-- With a pool of one page, the page goes to the swap device when another process needs
its frame, and comes back without its dirty bit: the byte stored does not reach the file. -/
theorem munmap_loses_store : ∃ s₁ s₂ s₃, (oneByte 1).mmap 0 2 0x10000000 = some (0, s₁) ∧
    Run Mem.step (fun _ _ => True) s₁ [.fault 0 0x10000000 0, .store 0 0x10000000 7, .stack 1,
      .fault 0 0x10000000 0] s₂ ∧
    (∃ s', s₂.load 0 0x10000000 = some (7, s')) ∧ s₂.munmap 0 0 = some s₃ ∧ (s₃.inode 5).byte 0 = 65 := by
  simp only [exists_and_left]
  decide +kernel

end Pintos.VM
