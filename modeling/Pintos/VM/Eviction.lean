import Pintos.VM.Residence

/-!
# Which page is evicted

`evict_frame` goes over the frame table at most twice. The victim is the first page
that has not been accessed, or, if all have been, the first of all: the first pass has
cleared its accessed bit, and the second pass comes to it first.
-/

namespace Pintos.VM

open Lib FileSys UserProg List Option Function

namespace Mem

def accessedBit (s : Mem) (fte : Fte) : Bool :=
  (s.heap fte.spte).any fun e => s.pagedirIsAccessed fte.owner e.userVaddr

def victim (s : Mem) : Option Fte :=
  (s.frameTable.find? fun fte => !s.accessedBit fte).or s.frameTable.head?

/-! ## Accessed bits -/

section
variable {s s' : Mem} {pd : Nat → UInt32 → Pte} {ram : Nat → Page} {inode : Nat → File}
  {listMmap : Nat → List Nat} {mapId : Nat → Nat} {fds : Nat → Nat → Option Nat} {alive : Nat → Bool}

/-- The structures agree, whatever is in the frames and in the other bits of the page
directory. -/
theorem Inv.rebit (h : Inv s) (hpte : ∀ p a, (pd p a).present = (s.pagedir p a).present ∧
      (pd p a).frame = (s.pagedir p a).frame) :
    Inv { s with pagedir := pd, ram := ram, inode := inode, listMmap := listMmap, mapId := mapId,
                 fds := fds, alive := alive } where
  __ := h
  resident hfte := by
    obtain ⟨e, hown, hl, hpres, hframe⟩ := h.resident hfte
    exact ⟨e, hown, hl, (hpte _ _).1.trans hpres, (hpte _ _).2.trans hframe⟩
  present hpres := h.present ((hpte _ _).1.symm.trans hpres)

/-- `s'` differs from `s` in accessed bits at most. -/
structure Touched (s s' : Mem) : Prop where
  rest : s' = { s with pagedir := s'.pagedir }
  bits : ∀ p a, s'.pagedir p a = { s.pagedir p a with accessed := (s'.pagedir p a).accessed }

/-- Some of the accessed bits have been cleared. -/
structure Aged (s s' : Mem) : Prop extends Touched s s' where
  fewer : ∀ p a, (s'.pagedir p a).accessed = true → (s.pagedir p a).accessed = true

theorem Aged.refl (s : Mem) : Aged s s := ⟨⟨rfl, fun _ _ => rfl⟩, fun _ _ => id⟩

theorem Aged.trans {s'' : Mem} (h : Aged s s') (h' : Aged s' s'') : Aged s s'' where
  rest := by rw [h'.rest, h.rest]
  bits p a := by rw [h'.bits, h.bits]
  fewer p a hacc := h.fewer p a (h'.fewer p a hacc)

theorem touched_setAccessed (s : Mem) (p : Nat) (a : UInt32) (b : Bool) :
    Touched s (s.pagedirSetAccessed p a b) := by
  refine ⟨rfl, fun q c => ?_⟩
  by_cases hqc : q = p ∧ c = a
  · obtain ⟨rfl, rfl⟩ := hqc
    rw [pagedirSetAccessed, setPte_self]
  · rw [pagedirSetAccessed, setPte_ne s _ fun hq hc => hqc ⟨hq, hc⟩]

theorem aged_setAccessed (s : Mem) (p : Nat) (a : UInt32) : Aged s (s.pagedirSetAccessed p a false) where
  toTouched := touched_setAccessed s p a false
  fewer q c hacc := by
    by_cases hqc : q = p ∧ c = a
    · obtain ⟨rfl, rfl⟩ := hqc
      rw [pagedirSetAccessed, setPte_self] at hacc
      cases hacc
    · rwa [pagedirSetAccessed, setPte_ne s _ fun hq hc => hqc ⟨hq, hc⟩] at hacc

theorem Touched.inv (t : Touched s s') (h : Inv s) : Inv s' := by
  rw [t.rest]
  exact h.rebit fun p a => by rw [t.bits]; exact ⟨rfl, rfl⟩

theorem Touched.keeps (t : Touched s s') : Keeps s s' := by
  rw [t.rest]
  refine ⟨rfl, rfl, fun {p ptr e} hown => ⟨e, hown, SamePage.refl e, fun hb => ⟨⟨hb.toFormed, ?_⟩, ?_⟩⟩,
    fun hown => ⟨_, hown⟩, fun hown hown' hf => hown.entry_eq hown' ▸ hf⟩
  · show e.fileType = .file → e.loaded = true → (s'.pagedir p e.userVaddr).dirty = false →
      s.ram (s'.pagedir p e.userVaddr).frame = _
    rw [t.bits]
    exact hb.clean
  · show (if e.loaded then s.ram (s'.pagedir p e.userVaddr).frame else _) = _
    rw [t.bits]
    rfl

theorem Touched.heap (t : Touched s s') : s'.heap = s.heap := by
  rw [t.rest]

theorem Touched.frameTable (t : Touched s s') : s'.frameTable = s.frameTable := by
  rw [t.rest]

variable {fte : Fte} {e : Spte} {ptr : Nat}

theorem Aged.accessedBit (t : Aged s s') (hbit : s.accessedBit fte = false) :
    s'.accessedBit fte = false := by
  unfold Mem.accessedBit at hbit ⊢
  rw [t.heap]
  cases he : s.heap fte.spte with
  | none => rfl
  | some e =>
    rw [he, Option.any_some] at hbit
    rw [Option.any_some]
    by_contra hacc
    exact absurd (t.fewer _ _ (Bool.eq_true_of_not_eq_false hacc)) (Bool.eq_false_iff.mp hbit)

theorem Inv.accessedBit_clear (h : Inv s) {fte' : Fte} (hfte : fte ∈ s.frameTable)
    (hfte' : fte' ∈ s.frameTable) (hne : fte' ≠ fte) (he : s.heap fte.spte = some e) :
    (s.pagedirSetAccessed fte.owner e.userVaddr false).accessedBit fte' = s.accessedBit fte' := by
  obtain ⟨x, hx, -⟩ := h.resident hfte
  cases Option.some.inj (he.symm.trans hx.2)
  obtain ⟨y, hy, -⟩ := h.resident hfte'
  show (s.heap fte'.spte).any _ = (s.heap fte'.spte).any _
  rw [hy.2, Option.any_some, Option.any_some]
  -- another page of the same thread is at another address
  refine congrArg Pte.accessed (setPte_ne s _ fun howner hva => hne ?_)
  rw [howner] at hy
  exact h.fte_eq hfte' hfte (h.vaddr hy hx hva)

theorem accessedBit_clear_self (he : s.heap fte.spte = some e) :
    (s.pagedirSetAccessed fte.owner e.userVaddr false).accessedBit fte = false := by
  show (s.heap fte.spte).any _ = false
  rw [he, Option.any_some]
  exact congrArg Pte.accessed (setPte_self ..)

/-! ## The two passes -/

/-- The first frame of `l` whose page has not been accessed is evicted. -/
def EvictsFirst (s s' : Mem) (l : List Fte) : Prop :=
  ∃ s₁ fte e, Aged s s₁ ∧ l.find? (fun fte => !s.accessedBit fte) = some fte ∧
    s.heap fte.spte = some e ∧ s₁.evict fte e = some s'

variable {first b : Bool}

/-- A pass evicts the first page that has not been accessed, or clears all the bits. -/
theorem Inv.evictPass_spec (h : Inv s) {l : List Fte} (hsub : ∀ fte ∈ l, fte ∈ s.frameTable)
    (hnd : l.Nodup) (hpass : s.evictPass first l = some (b, s')) :
    b = true ∧ EvictsFirst s s' l ∨
    b = false ∧ Aged s s' ∧ ∀ fte ∈ l, s.accessedBit fte = true ∧ s'.accessedBit fte = false := by
  induction l generalizing s with
  | nil =>
    cases hpass
    exact .inr ⟨rfl, Aged.refl _, by simp⟩
  | cons fte rest ih =>
    have hfte := hsub fte mem_cons_self
    have hrest : ∀ fte' ∈ rest, fte' ∈ s.frameTable := fun fte' hmem => hsub fte' (mem_cons_of_mem _ hmem)
    obtain ⟨e, hown, -⟩ := h.resident hfte
    have he := hown.2
    obtain ⟨hnot, hnd⟩ := nodup_cons.mp hnd
    simp only [evictPass, he, some_bind] at hpass
    have hbit : s.accessedBit fte = s.pagedirIsAccessed fte.owner e.userVaddr := by
      rw [accessedBit, he, Option.any_some]
    by_cases hacc : s.pagedirIsAccessed fte.owner e.userVaddr = true
    · -- the pass goes on with the bit of this page cleared
      rw [if_pos hacc] at hpass
      have hage := aged_setAccessed s fte.owner e.userVaddr
      have hother : ∀ fte' ∈ rest, (s.pagedirSetAccessed fte.owner e.userVaddr false).accessedBit fte' =
          s.accessedBit fte' := fun fte' hmem =>
        h.accessedBit_clear hfte (hrest fte' hmem) (fun heq => hnot (heq ▸ hmem)) he
      rcases ih (hage.inv h) hrest hnd hpass with ⟨hb, s1, fte', e', ht, hfind, he', hev⟩ | ⟨hb, ht, hall⟩
      · refine .inl ⟨hb, s1, fte', e', hage.trans ht, ?_, he', hev⟩
        rw [find?_cons_of_neg (by rw [hbit, hacc]; decide), ← hfind, ← head?_filter,
          ← head?_filter]
        exact congrArg List.head? (filter_congr fun fte' hmem => by rw [hother fte' hmem])
      · refine .inr ⟨hb, hage.trans ht, fun fte' hmem => ?_⟩
        rcases mem_cons.mp hmem with rfl | hmem
        · exact ⟨hbit.trans hacc, ht.accessedBit (accessedBit_clear_self he)⟩
        · exact ⟨(hother fte' hmem).symm.trans (hall fte' hmem).1, (hall fte' hmem).2⟩
    · -- this page is the victim
      rw [if_neg hacc, if_neg fun hm => h.typed hown hm.2] at hpass
      obtain ⟨s1, hev, heq⟩ := bind_eq_some_iff.mp hpass
      cases heq
      refine .inl ⟨rfl, s, fte, e, Aged.refl s, find?_cons_of_pos ?_, he, hev⟩
      rw [hbit, Bool.eq_false_of_not_eq_true hacc]
      rfl

/-- The victim is evicted, and accessed bits have been cleared. -/
def Evicts (s s' : Mem) : Prop :=
  ∃ s₁ fte e, Aged s s₁ ∧ s.victim = some fte ∧ s.heap fte.spte = some e ∧ s₁.evict fte e = some s'

/-- **`evict_frame` evicts the victim**, if there is a page in memory at all. -/
theorem Inv.evictFrame_spec (h : Inv s) (hev : s.evictFrame = some (b, s')) :
    b = true ∧ Evicts s s' ∨ b = false ∧ s.frameTable = [] ∧ Aged s s' := by
  have hnd := List.Nodup.of_map _ h.nodup
  obtain ⟨⟨b1, s1⟩, hpass, hev⟩ := bind_eq_some_iff.mp hev
  rcases h.evictPass_spec (fun _ => id) hnd hpass with ⟨rfl, s2, fte, e, ht, hfind, he, hvict⟩ | ⟨rfl, ht, hall⟩
  · cases (show some (true, s1) = some (b, s') from hev)
    exact .inl ⟨rfl, s2, fte, e, ht, by rw [victim, hfind]; rfl, he, hvict⟩
  · -- the second pass finds the first page not accessed
    replace hev : s1.evictPass false s1.frameTable = some (b, s') := hev
    rw [ht.frameTable] at hev
    have hnone : s.frameTable.find? (fun fte => !s.accessedBit fte) = none :=
      find?_eq_none.mpr fun fte hmem => by rw [(hall fte hmem).1]; decide
    rcases (ht.inv h).evictPass_spec (fun fte hmem => ht.frameTable ▸ hmem) hnd hev with
      ⟨rfl, s2, fte, e, ht', hfind, he, hvict⟩ | ⟨rfl, ht', hall'⟩
    · refine .inl ⟨rfl, s2, fte, e, ht.trans ht', ?_, ht.heap ▸ he, hvict⟩
      rw [victim, hnone, Option.none_or, ← hfind]
      cases hft : s.frameTable with
      | nil => rfl
      | cons fte' rest =>
        have hmem : fte' ∈ s.frameTable := hft ▸ mem_cons_self
        rw [head?_cons, find?_cons_of_pos (by rw [(hall fte' hmem).2]; rfl)]
    · refine .inr ⟨rfl, eq_nil_iff_forall_not_mem.mpr fun fte hmem => ?_, ht.trans ht'⟩
      have hset := (hall fte hmem).2
      rw [(hall' fte hmem).1] at hset
      cases hset

/-! ## A frame for a page -/

structure SameRest (s s' : Mem) : Prop where
  tables : s'.supPageTable = s.supPageTable
  next : s'.next = s.next
  inode : s'.inode = s.inode
  listMmap : s'.listMmap = s.listMmap
  mapId : s'.mapId = s.mapId
  fds : s'.fds = s.fds
  alive : s'.alive = s.alive

theorem Touched.rests (t : Touched s s') : SameRest s s' := by
  rw [t.rest]
  exact (by constructor <;> rfl)

theorem evict_rests (hev : s.evict fte e = some s') : SameRest s s' := by
  rcases (evict_cases hev).2 with ⟨-, rfl⟩ | ⟨-, idx, swap, -, rfl⟩
  · exact (by constructor <;> rfl)
  · exact (by constructor <;> rfl)

theorem SameRest.trans {s'' : Mem} (h : SameRest s s') (h' : SameRest s' s'') : SameRest s s'' :=
  ⟨h'.tables.trans h.tables, h'.next.trans h.next, h'.inode.trans h.inode,
    h'.listMmap.trans h.listMmap, h'.mapId.trans h.mapId, h'.fds.trans h.fds, h'.alive.trans h.alive⟩

theorem victim_mem (h : s.victim = some fte) : fte ∈ s.frameTable := by
  rcases Option.or_eq_some_iff.mp h with h | ⟨-, h⟩
  · exact mem_of_find?_eq_some h
  · exact mem_of_head? h

/-- A page frame is free, after an eviction if none was. -/
def MadeRoom (s s' : Mem) : Prop :=
  s' = s ∨ bitmapScan s.usedMap 0 1 false = none ∧ Evicts s s'

theorem Evicts.inv (ev : Evicts s s') (h : Inv s) : Inv s' := by
  obtain ⟨s1, fte, e, ht, hvict, he, hev⟩ := ev
  obtain ⟨e', m, -⟩ := (ht.inv h).evict_moves (ht.frameTable ▸ victim_mem hvict) (ht.heap ▸ he) hev
  exact (ht.inv h).moves m

theorem Evicts.keeps (ev : Evicts s s') (h : Inv s) : Keeps s s' := by
  obtain ⟨s1, fte, e, ht, hvict, he, hev⟩ := ev
  exact ht.keeps.trans ((ht.inv h).evict_keeps (ht.frameTable ▸ victim_mem hvict) (ht.heap ▸ he) hev)

theorem Evicts.rests (ev : Evicts s s') : SameRest s s' := by
  obtain ⟨s1, fte, e, ht, -, -, hev⟩ := ev
  exact ht.rests.trans (evict_rests hev)

/-- The entries of the pages that are not in memory stay as they are. -/
theorem Evicts.heap_eq (ev : Evicts s s') (h : Inv s)
    (hptr : ∀ fte ∈ s.frameTable, fte.spte ≠ ptr) : s'.heap ptr = s.heap ptr := by
  obtain ⟨s1, fte, e, ht, hvict, he, hev⟩ := ev
  have hmem := victim_mem hvict
  obtain ⟨e', m, -⟩ := (ht.inv h).evict_moves (ht.frameTable ▸ hmem) (ht.heap ▸ he) hev
  rw [m.heap_ne (hptr fte hmem).symm, ht.heap]

theorem MadeRoom.inv (r : MadeRoom s s') (h : Inv s) : Inv s' := by
  rcases r with rfl | ⟨-, ev⟩
  · exact h
  · exact ev.inv h

theorem MadeRoom.keeps (r : MadeRoom s s') (h : Inv s) : Keeps s s' := by
  rcases r with rfl | ⟨-, ev⟩
  · exact (Aged.refl s').keeps
  · exact ev.keeps h

theorem MadeRoom.rests (r : MadeRoom s s') : SameRest s s' := by
  rcases r with rfl | ⟨-, ev⟩
  · exact (Aged.refl s').rests
  · exact ev.rests

theorem MadeRoom.heap_eq (r : MadeRoom s s') (h : Inv s)
    (hptr : ∀ fte ∈ s.frameTable, fte.spte ≠ ptr) : s'.heap ptr = s.heap ptr := by
  rcases r with rfl | ⟨-, ev⟩
  · rfl
  · exact ev.heap_eq h hptr

theorem pallocGetPage_cases {zero : Bool} {f : Nat} (hget : s.pallocGetPage zero = some (f, s')) :
    s.usedMap[f]? = some false ∧ s' = { s with
      usedMap := s.usedMap.set f true
      ram := if zero then update s.ram f (Arr.const 0) else s.ram } := by
  obtain ⟨g, hscan, heq⟩ := bind_eq_some_iff.mp hget
  cases heq
  rw [bitmapScan_one] at hscan
  exact ⟨mem_freeBits.mp (mem_of_head? hscan), rfl⟩

/-- **`allocate_frame` finds a free frame**, and evicts the victim only if there is none. -/
theorem Inv.allocateFrame_spec (h : Inv s) {p f : Nat} {zero : Bool}
    (hal : s.allocateFrame p ptr zero = some (f, s')) :
    ∃ s₁, MadeRoom s s₁ ∧ s₁.usedMap[f]? = some false ∧ s' = { s₁ with
      usedMap := s₁.usedMap.set f true
      ram := if zero then update s₁.ram f (Arr.const 0) else s₁.ram
      frameTable := s₁.frameTable ++ [⟨f, p, ptr⟩] } := by
  obtain ⟨⟨g, s2⟩, hget, heq⟩ := bind_eq_some_iff.mp hal
  cases heq
  unfold getFrame at hget
  cases hpalloc : s.pallocGetPage zero with
  | some r =>
    rw [hpalloc] at hget
    cases hget
    obtain ⟨hfree, rfl⟩ := pallocGetPage_cases hpalloc
    exact ⟨s, .inl rfl, hfree, rfl⟩
  | none =>
    have hfull : bitmapScan s.usedMap 0 1 false = none := by
      by_contra hsome
      obtain ⟨k, hk⟩ := ne_none_iff_exists'.mp hsome
      rw [pallocGetPage, hk] at hpalloc
      cases hpalloc
    rw [hpalloc] at hget
    obtain ⟨⟨b, s₁⟩, hev, hget⟩ := bind_eq_some_iff.mp hget
    rcases h.evictFrame_spec hev with ⟨rfl, hevicts⟩ | ⟨rfl, -⟩
    · obtain ⟨hfree, rfl⟩ := pallocGetPage_cases (show s₁.pallocGetPage zero = _ from hget)
      exact ⟨s₁, .inr ⟨hfull, hevicts⟩, hfree, rfl⟩
    · cases hget

/-! ## There is always a frame -/

/-- Some slot is free. -/
def FreeSlot (s : Mem) : Prop := ∃ idx : Nat, s.swap.table[idx]? = some false

theorem exists_scan {b : List Bool} {idx : Nat} (h : b[idx]? = some false) :
    ∃ k, bitmapScan b 0 1 false = some k := by
  rw [bitmapScan_one]
  cases hfree : freeBits b with
  | nil =>
    have hmem := mem_freeBits.mpr h
    rw [hfree] at hmem
    cases hmem
  | cons k rest => exact ⟨k, rfl⟩

theorem exists_evict (hslot : s.FreeSlot) (hused : s.usedMap[fte.frame]? = some true) (e : Spte) :
    ∃ s', s.evict fte e = some s' := by
  have hsave : ∃ r, s.saveVictim fte e = some r := by
    unfold saveVictim
    split
    · obtain ⟨idx, hidx⟩ := hslot
      obtain ⟨k, hk⟩ := exists_scan hidx
      obtain ⟨swap, hout, -⟩ := Swap.swapOut_spec (s.ram fte.frame) hk
      rw [hout]
      exact ⟨_, rfl⟩
    · exact ⟨_, rfl⟩
  obtain ⟨⟨e1, swap⟩, hsave⟩ := hsave
  simp only [evict, hsave, some_bind, pallocFreePage]
  rw [if_pos (by exact hused)]
  exact ⟨_, rfl⟩

theorem Inv.exists_evictPass (h : Inv s) (hslot : s.FreeSlot) (first : Bool) {l : List Fte}
    (hsub : ∀ fte ∈ l, fte ∈ s.frameTable) : ∃ r, s.evictPass first l = some r := by
  induction l generalizing s with
  | nil => exact ⟨_, rfl⟩
  | cons fte rest ih =>
    have hfte := hsub fte mem_cons_self
    obtain ⟨e, hown, -⟩ := h.resident hfte
    simp only [evictPass, hown.2, some_bind]
    by_cases hacc : s.pagedirIsAccessed fte.owner e.userVaddr = true
    · rw [if_pos hacc]
      exact ih ((aged_setAccessed s fte.owner e.userVaddr).inv h) hslot
        fun fte' hmem => hsub fte' (mem_cons_of_mem _ hmem)
    · obtain ⟨s', hev⟩ := exists_evict hslot (h.used hfte) e
      rw [if_neg hacc, if_neg fun hm => h.typed hown hm.2, hev]
      exact ⟨_, rfl⟩

theorem Inv.exists_evictFrame (h : Inv s) (hslot : s.FreeSlot) (hne : s.frameTable ≠ []) :
    ∃ s', s.evictFrame = some (true, s') ∧ Evicts s s' := by
  have hsome : ∃ r, s.evictFrame = some r := by
    obtain ⟨⟨b, s1⟩, hpass⟩ := h.exists_evictPass hslot true fun _ => id
    simp only [evictFrame, hpass, some_bind]
    by_cases hb : b = true
    · rw [if_pos hb]
      exact ⟨_, rfl⟩
    · rw [if_neg hb]
      rcases h.evictPass_spec (fun _ => id) (List.Nodup.of_map _ h.nodup) hpass with ⟨hb', -⟩ | ⟨-, ht, -⟩
      · exact absurd hb' hb
      · have hslot' : s1.FreeSlot := by
          rw [ht.rest]
          exact hslot
        exact (ht.inv h).exists_evictPass hslot' false fun _ => id
  obtain ⟨⟨b, s'⟩, hev⟩ := hsome
  rcases h.evictFrame_spec hev with ⟨rfl, hevicts⟩ | ⟨-, hnil, -⟩
  · exact ⟨s', hev, hevicts⟩
  · exact absurd hnil hne

/-- **`allocate_frame` returns a frame** if the pool has any page at all. -/
theorem Inv.exists_allocateFrame (h : Inv s) (hslot : s.FreeSlot) (hpool : 0 < s.usedMap.length)
    (p ptr : Nat) (zero : Bool) : ∃ r, s.allocateFrame p ptr zero = some r := by
  have hget : ∃ r, s.getFrame zero = some r := by
    unfold getFrame
    cases hpalloc : s.pallocGetPage zero with
    | some r => exact ⟨r, rfl⟩
    | none =>
      -- every page of the pool is in use, and so in the frame table
      have hused : s.usedMap[0]? = some true := by
        rw [List.getElem?_eq_getElem hpool]
        by_contra hfree
        have hzero : s.usedMap[0]? = some false := by
          rw [List.getElem?_eq_getElem hpool]
          simpa using hfree
        obtain ⟨k, hk⟩ := exists_scan hzero
        rw [pallocGetPage, hk] at hpalloc
        cases hpalloc
      obtain ⟨fte, hmem, -⟩ := h.pooled hused
      obtain ⟨s1, hev, s2, fte', e, ht, hvict, -, hevict⟩ :=
        h.exists_evictFrame hslot (List.ne_nil_of_mem hmem)
      -- and the page of the victim is free
      have hfree : s1.usedMap[fte'.frame]? = some false := by
        obtain ⟨hin, hcases⟩ := evict_cases hevict
        have hmap : s1.usedMap = s2.usedMap.set fte'.frame false := by
          rcases hcases with ⟨-, rfl⟩ | ⟨-, idx, swap, -, rfl⟩ <;> rfl
        rw [hmap]
        exact List.getElem?_set_self (List.getElem?_eq_some_iff.mp hin).1
      obtain ⟨k, hk⟩ := exists_scan hfree
      simp only [hev, some_bind, if_true, pallocGetPage, hk]
      exact ⟨_, rfl⟩
  obtain ⟨⟨f, s1⟩, hget⟩ := hget
  rw [allocateFrame, hget]
  exact ⟨_, rfl⟩

end

end Mem

end Pintos.VM
